import Core6502.Proofs.BinaryArithmetic
import Core6502.Proofs.Locality

/-!
# Comparison and subtraction

A comparison is a subtraction without a borrow whose difference goes nowhere. The opcodes of both
have the same modes and costs, so one can take the place of the other as long as the instruction
does not read its own opcode as data. After a comparison the conditional branches tell the order of
the register and the operand as unsigned numbers.
-/

namespace Core6502

/-- Without a borrow the result is the difference of the bytes, and the carry their order. -/
theorem subtractWithCarry_set (a b : Byte) :
    (subtractWithCarry a b true).result = a - b ∧
      (subtractWithCarry a b true).carry = decide (b ≤ a) := by
  have bound := b.toNat_lt
  constructor
  · apply UInt8.toNat_inj.mp
    rw [toNat_subtractWithCarry, UInt8.toNat_sub, Bool.not_true, Bool.toNat_false]
    omega
  · rw [carry_subtractWithCarry, decide_eq_decide, Bool.not_true, Bool.toNat_false]
    exact UInt8.le_iff_toNat_le.symm

/-- A subtraction that begins with the carry set leaves what a comparison leaves, and besides
that the difference and its overflow. -/
theorem Registers.accumulate_difference (r : Registers) (value : Byte) :
    (r.setFlag .carry true).accumulate (subtractWithCarry r.a value true) =
      ((r.compare r.a value).set .a (r.a - value)).setFlag .overflow
        (subtractWithCarry r.a value true).overflow := by
  obtain ⟨result, carry⟩ := subtractWithCarry_set r.a value
  rw [accumulate, result, carry]
  rfl

/-- The comparison of the accumulator and the subtraction have every mode of a comparison. -/
theorem Opcode.exists_same_mode {opcode : Byte} {e : Encoding} (h : decode opcode = some e)
    {register : ByteRegister} (op : e.instruction.operation = .compare register)
    {i : Instruction} (hi : i ∈ [.cmp, .sbc]) :
    ∃ other e', decode other = some e' ∧ e'.instruction = i ∧ e'.mode = e.mode := by
  have row := of_rows (p := fun e =>
    match e.instruction.operation with
    | .compare _ => decide (∀ i ∈ [Instruction.cmp, .sbc], ∃ other, ∃ e' ∈ decode other,
        e'.instruction = i ∧ e'.mode = e.mode)
    | _ => true) (by decide +kernel) h
  simp only [op] at row
  exact of_decide_eq_true row i hi

/-- What a branch makes of a comparison; nothing for other instructions. -/
def Instruction.judges? (left right : Nat) : Instruction → Option Bool
  | .bcs => some (decide (right ≤ left))
  | .bcc => some (decide (left < right))
  | .beq => some (decide (left = right))
  | .bne => some (decide (left ≠ right))
  | _ => none

/-- The flags of a comparison hold what the branches after it ask for. -/
theorem Instruction.taken?_of_judges? {i : Instruction} (r : Registers) {left right : Byte}
    {taken : Bool} (h : i.judges? left.toNat right.toNat = some taken) :
    i.taken? (r.compare left right).status = some taken := by
  have carry : (r.compare left right).status.carry = decide (right.toNat ≤ left.toNat) :=
    decide_eq_decide.mpr UInt8.le_iff_toNat_le
  have zero : (r.compare left right).status.zero = decide (left.toNat = right.toNat) := by
    have flag : (r.compare left right).status.zero = (left - right == 0) := rfl
    rw [flag, Bool.eq_iff_iff, beq_iff_eq, decide_eq_true_iff, UInt8.toNat_inj,
      UInt8.sub_eq_iff_eq_add, UInt8.zero_add]
  cases i with
  | bcs | beq =>
    rw [← h]
    simp only [taken?, judges?, carry, zero]
  | bcc | bne =>
    rw [← h]
    simp only [taken?, judges?, carry, zero, ← decide_not, Nat.not_le]
  | _ => cases h

namespace Machine

/-- Two machines that meet different opcodes of one mode, and find the same bytes everywhere else.
The opcodes are not where the mode leads, nor part of its pointer. -/
structure Recoded (m n : Machine Memory) (e e' : Encoding) : Prop where
  encoding : m.encoding? = some e
  other : n.encoding? = some e'
  mode : e'.mode = e.mode
  cycles : n.cycles = m.cycles
  config : n.config = m.config
  memory : ∀ a, a ≠ m.regs.pc → n.bus.read a = m.bus.read a
  unread : m.regs.pc ∉ m.pointerAddresses e.mode ∧ m.effectiveAddress? e.mode ≠ some m.regs.pc

variable {m n : Machine Memory} {e e' : Encoding}

/-- Addressing does not look at the accumulator, the stack pointer and the flags. -/
theorem effectiveAddress?_withRegs (n : Machine Memory) {regs : Registers} (mode : Mode)
    (x : n.regs.x = regs.x) (y : n.regs.y = regs.y) (pc : n.regs.pc = regs.pc) :
    (n.withRegs regs).effectiveAddress? mode = n.effectiveAddress? mode := by
  simp only [effectiveAddress?, withRegs, x, y, pc]

theorem Recoded.datum (h : m.Recoded n e e') (x : n.regs.x = m.regs.x)
    (y : n.regs.y = m.regs.y) (pc : n.regs.pc = m.regs.pc) : n.datum e.mode = m.datum e.mode := by
  have apart (i : Nat) (hi : i < 2) : m.regs.pc + 1 + UInt16.ofNat i ≠ m.regs.pc := by
    have ne := Word.add_ofNat_ne (a := m.regs.pc) (i := i + 1) (j := 0) (by omega) (by omega)
      (by omega)
    rw [Word.add_one_add_ofNat]
    simpa using ne
  have operands : AgreeOn m (n.withRegs m.regs) (m.operandAddresses e.mode) := by
    intro a ha
    obtain ⟨i, hi, rfl⟩ := List.mem_map.mp ha
    have length : e.mode.operandLength ≤ 2 := by cases e.mode <;> decide
    have inside := List.mem_range.mp hi
    exact h.memory _ (apart i (by omega))
  have pointers : AgreeOn m (n.withRegs m.regs) (m.pointerAddresses e.mode) := by
    intro a ha
    refine h.memory a ?_
    rintro rfl
    exact h.unread.1 ha
  have address : n.effectiveAddress? e.mode = m.effectiveAddress? e.mode := by
    rw [← n.effectiveAddress?_withRegs e.mode x y pc]
    exact effectiveAddress?_congr rfl operands pointers
  rw [Machine.datum, Machine.datum, address]
  cases located : m.effectiveAddress? e.mode with
  | some a =>
    refine h.memory a ?_
    rintro rfl
    exact h.unread.2 located
  | none =>
    have byte := h.memory _ (apart 0 (by omega))
    simp only [Memory.bus_read, pc]
    simpa using byte

theorem step_of_compare {register : ByteRegister} (h : m.encoding? = some e)
    (op : e.instruction.operation = .compare register) :
    m.step.machine = (m.advance (m.operand e.mode) e).withRegs
      ((m.advance (m.operand e.mode) e).regs.compare (m.regs.get register) (m.datum e.mode)) := by
  rw [step_of_encoding h, op, ← value_of_encoding h op fun _ => rfl]
  cases register <;> rfl

/-- What a comparison and a subtraction in its place do alike, and what sets them apart. Both work
on the byte `value`. -/
structure LikeSubtraction (m n : Machine Memory) (value : Nat) : Prop where
  results : m.step.result = .ok () ∧ n.step.result = .ok ()
  flag : ∀ flag, flag ≠ .overflow →
    n.step.machine.regs.status.get flag = m.step.machine.regs.status.get flag
  register : ∀ r, r ≠ .a → n.step.machine.regs.get r = m.step.machine.regs.get r
  pc : n.step.machine.regs.pc = m.step.machine.regs.pc
  cycles : ∃ cost, m.step.machine.cycles = m.cycles + cost ∧ n.step.machine.cycles = n.cycles + cost
  memory : m.step.machine.bus = m.bus ∧ n.step.machine.bus = n.bus
  kept : m.step.machine.regs.a = m.regs.a ∧
    m.step.machine.regs.status.overflow = m.regs.status.overflow
  difference : (n.step.machine.regs.a.toNat : Int) = ((m.regs.a.toNat : Int) - value) % 256

/-- A comparison and a subtraction of one mode cost the same. -/
theorem Recoded.cost (h : m.Recoded n e e') {register : ByteRegister}
    (op : e.instruction.operation = .compare register)
    (op' : e'.instruction.operation = .subtract) : e'.cycles = e.cycles := by
  have left := Opcode.decode_accessCycles h.encoding (by rw [op]; rfl)
  have right := Opcode.decode_accessCycles h.other (by rw [op']; rfl)
  rw [left, right, op, op', h.mode]
  rfl

theorem Recoded.likeSubtraction (h : m.Recoded n e e')
    (op : e.instruction.operation = .compare .a) (sbc : e'.instruction = .sbc)
    (regs : n.regs = m.regs.setFlag .carry true) :
    m.LikeSubtraction n (m.datum e.mode).toNat := by
  have subtracts : e'.instruction = Adder.subtract.instruction := sbc
  have op' : e'.instruction.operation = .subtract := by rw [sbc]; rfl
  have datum : n.datum e'.mode = m.datum e.mode := by
    rw [h.mode]
    exact h.datum (by rw [regs]; rfl) (by rw [regs]; rfl) (by rw [regs]; rfl)
  let next := { m.regs with pc := m.regs.pc + UInt16.ofNat (e.mode.operandLength + 1) }
  let value := m.datum e.mode
  have compared : m.step.machine.regs = next.compare next.a value := by
    rw [step_of_compare h.encoding op, advance_regs]
    rfl
  have subtracted : n.step.machine.regs = ((next.compare next.a value).set .a
      (next.a - value)).setFlag .overflow (subtractWithCarry next.a value true).overflow := by
    rw [step_of_adder h.other subtracts, datum, advance_regs, regs, h.mode,
      ← Registers.accumulate_difference]
    rfl
  refine ⟨⟨step_ok_of_encoding h.encoding, step_ok_of_encoding h.other⟩, ?_, ?_, ?_,
    ⟨UInt64.ofNat e.cycles, ?_, ?_⟩, ⟨?_, ?_⟩, ?_, ?_⟩
  · intro flag other
    rw [compared, subtracted, Registers.setFlag, Status.get_set, if_neg (Ne.symm other)]
    rfl
  · intro r other
    rw [compared, subtracted]
    cases r with
    | a => exact absurd rfl other
    | x | y | sp => rfl
  · rw [compared, subtracted]
    rfl
  · exact step_cycles_of_encoding h.encoding (by rw [op]; rfl)
  · rw [← h.cost op op']
    exact step_cycles_of_encoding h.other (by rw [op']; rfl)
  · rw [step_of_compare h.encoding op]
    rfl
  · rw [step_of_adder h.other subtracts]
    rfl
  · rw [compared]
    exact ⟨rfl, rfl⟩
  · have small := value.toNat_lt
    have result : n.step.machine.regs.a = m.regs.a - value := by
      rw [subtracted]
      rfl
    rw [result, UInt8.toNat_sub]
    change _ = ((m.regs.a.toNat : Int) - value.toNat) % 256
    omega

/-- Comparing another register is comparing the accumulator with its content. -/
theorem Recoded.status_eq (h : m.Recoded n e e') {register : ByteRegister}
    (op : e.instruction.operation = .compare register) (cmp : e'.instruction = .cmp)
    (regs : n.regs = m.regs.set .a (m.regs.get register)) :
    n.step.machine.regs.status = m.step.machine.regs.status := by
  have op' : e'.instruction.operation = .compare .a := by rw [cmp]; rfl
  have datum : n.datum e'.mode = m.datum e.mode := by
    rw [h.mode]
    exact h.datum (by rw [regs]; rfl) (by rw [regs]; rfl) (by rw [regs]; rfl)
  rw [step_of_compare h.encoding op, step_of_compare h.other op', datum]
  simp only [withRegs, advance_regs, regs]
  rfl

/-- A branch right after a comparison goes by the order of the bytes. -/
theorem branch_of_compare {register : ByteRegister} {taken : Bool} (h : m.encoding? = some e)
    (op : e.instruction.operation = .compare register)
    (next : m.step.machine.encoding? = some e')
    (judges : e'.instruction.judges? (m.regs.get register).toNat (m.datum e.mode).toNat =
      some taken) :
    m.step.machine.takesBranch = taken ∧
      m.step.machine.step.machine.regs.pc =
        if taken then m.step.machine.regs.pc + 2 +
          UInt16.ofInt (m.step.machine.bus.read (m.step.machine.regs.pc + 1)).toInt8.toInt
        else m.step.machine.regs.pc + 2 := by
  have asked : e'.instruction.taken? m.step.machine.regs.status = some taken := by
    rw [step_of_compare h op]
    exact Instruction.taken?_of_judges? _ judges
  obtain ⟨flag, wanted, branch, holds⟩ := Instruction.branch_of_taken? asked
  constructor
  · simp only [takesBranch, next, branch, Operation.takesBranch]
    rw [Bool.eq_iff_iff, beq_iff_eq]
    exact holds
  · rw [step_pc_of_branch next branch]
    simp only [holds]
    rfl

/-- A comparison and a subtraction without a borrow in its place set the same flags but for
overflow, at the same cost; the one keeps the accumulator, the other takes the difference. Comparing
X or Y is comparing the accumulator with their content. The branch after a comparison is taken
exactly if the register and the operand are in the order that it asks for. -/
theorem comparison_subtracts {register : ByteRegister} (h : m.encoding? = some e)
    (op : e.instruction.operation = .compare register) :
    (∀ i ∈ [Instruction.cmp, .sbc], ∃ opcode e', Opcode.decode opcode = some e' ∧
      e'.instruction = i ∧ e'.mode = e.mode) ∧
    ∃ address, m.dataAddress? e.mode = some address ∧
      let left := (m.regs.get register).toNat
      let right := m.bus.byteAt address
      let next := m.step.machine
      (∀ n e', m.Recoded n e e' → e.instruction = .cmp → e'.instruction = .sbc →
        n.regs = m.regs.setFlag .carry true → m.LikeSubtraction n right) ∧
      (∀ n e', m.Recoded n e e' → e'.instruction = .cmp →
        n.regs = m.regs.set .a (m.regs.get register) →
        n.step.machine.regs.status = next.regs.status) ∧
      ∀ e' taken, next.encoding? = some e' → e'.instruction.judges? left right = some taken →
        next.step.result = .ok () ∧ next.takesBranch = taken ∧
        next.step.machine.regs.pc =
          if taken then next.regs.pc + 2 +
            UInt16.ofInt (next.bus.read (next.regs.pc + 1)).toInt8.toInt
          else next.regs.pc + 2 := by
  refine ⟨fun i hi => Opcode.exists_same_mode h op hi, ?_⟩
  have suits := accepts_of_encoding h
  rw [op] at suits
  obtain ⟨address, located, datum⟩ := m.exists_dataAddress suits
  refine ⟨address, located, ?_⟩
  intro left right next
  refine ⟨?_, fun n e' recoded cmp regs => recoded.status_eq op cmp regs, ?_⟩
  · intro n e' recoded cmp sbc regs
    change m.LikeSubtraction n (m.bus.byteAt address)
    rw [← datum]
    exact recoded.likeSubtraction (by rw [cmp]; rfl) sbc regs
  · intro e' taken encoding judges
    change e'.instruction.judges? left (m.bus.byteAt address) = some taken at judges
    rw [← datum] at judges
    exact ⟨step_ok_of_encoding encoding, branch_of_compare h op encoding judges⟩

/-- An instruction on the byte 0x20 in page zero, reached through a pointer that wraps there, and a
branch on a clear carry after it. -/
def comparing (opcode operand a : Byte) (carry : Bool) : Machine Memory :=
  let code := Bus.store Memory.zeroed 0x8001 [operand, 0x90, 0x05]
  let data := Bus.store (Bus.store (Bus.store code 0x00FF [0xF0]) 0x0000 [0xFF]) 0x0010 [0x20]
  { powerOn (data.write 0x8000 opcode) with
    regs := { a := a, x := 0x30, y := 0x20, sp := 0xFD, pc := 0x8000,
              status := { carry := carry } } }

theorem comparing_read {p : Word} (apart : p ≠ 0x8000) (opcode opcode' operand a a' : Byte)
    (carry carry' : Bool) :
    (comparing opcode' operand a' carry').bus.read p =
      (comparing opcode operand a carry).bus.read p := by
  simp only [comparing, powerOn, Memory.read_write_of_ne _ _ (Ne.symm apart)]

/-- 0x10 is less than 0x20, by a comparison and by a subtraction; 0x30 is not. -/
theorem comparison_subtracts_comparing :
    let cmp := comparing 0xD1 0xFF 0x10 false
    let sbc := comparing 0xF1 0xFF 0x10 true
    let cpx := comparing 0xE4 0x10 0x10 false
    let cmp' := comparing 0xC5 0x10 0x30 false
    cmp.Recoded sbc ⟨.cmp, .indirectY, 5⟩ ⟨.sbc, .indirectY, 5⟩ ∧
    cmp.LikeSubtraction sbc 0x20 ∧
    cmp.step.machine.step.machine.regs.pc = 0x8009 ∧
    cpx.Recoded cmp' ⟨.cpx, .zeroPage, 3⟩ ⟨.cmp, .zeroPage, 3⟩ ∧
    cmp'.step.machine.regs.status = cpx.step.machine.regs.status ∧
    cpx.step.machine.step.machine.regs.pc = 0x8004 := by
  intro cmp sbc cpx cmp'
  have recoded : cmp.Recoded sbc ⟨.cmp, .indirectY, 5⟩ ⟨.sbc, .indirectY, 5⟩ := by
    exact ⟨by decide +kernel, by decide +kernel, rfl, rfl, rfl,
      fun _ apart => comparing_read apart .., by decide +kernel⟩
  have recoded' : cpx.Recoded cmp' ⟨.cpx, .zeroPage, 3⟩ ⟨.cmp, .zeroPage, 3⟩ := by
    exact ⟨by decide +kernel, by decide +kernel, rfl, rfl, rfl,
      fun _ apart => comparing_read apart .., by decide +kernel⟩
  have place : cmp.dataAddress? .indirectY = some 0x0010 := by decide +kernel
  have place' : cpx.dataAddress? .zeroPage = some 0x0010 := by decide +kernel
  have value : cmp.bus.byteAt 0x0010 = 0x20 := by decide +kernel
  have value' : cpx.bus.byteAt 0x0010 = 0x20 := by decide +kernel
  have bcc : cmp.step.machine.encoding? = some ⟨.bcc, .relative, 2⟩ := by decide +kernel
  have bcc' : cpx.step.machine.encoding? = some ⟨.bcc, .relative, 2⟩ := by decide +kernel
  obtain ⟨_, address, located, like, _, branches⟩ :=
    comparison_subtracts recoded.encoding (rfl : Instruction.cmp.operation = .compare .a)
  obtain ⟨_, address', located', _, alike, branches'⟩ :=
    comparison_subtracts recoded'.encoding (rfl : Instruction.cpx.operation = .compare .x)
  obtain rfl := Option.some.inj (located.symm.trans place)
  obtain rfl := Option.some.inj (located'.symm.trans place')
  rw [value] at like branches
  rw [value'] at branches'
  obtain ⟨_, _, target⟩ := branches _ true bcc rfl
  obtain ⟨_, _, target'⟩ := branches' _ false bcc' rfl
  exact ⟨recoded, like sbc _ recoded rfl rfl rfl, target.trans (by decide +kernel), recoded',
    alike cmp' _ recoded' rfl rfl, target'.trans (by decide +kernel)⟩

end Machine

end Core6502
