import Core6502.Proofs.Runs
import Core6502.Proofs.StackAccess

/-!
# The next program counter

Where execution goes on after a step, from the instruction and the machine before it. What the step
writes makes no difference, be it over its own bytes, over the stack or over a pointer. Only jumps,
calls, returns, branches that are taken and the force-interrupt instruction go on anywhere but at
the next instruction. A branch reaches from 128 bytes before its end to 127 bytes after it.
-/

namespace Core6502

universe u

/-- Every number from -128 to 127 is a byte read as a signed number. -/
theorem exists_signed_iff {d : Int} : (∃ b : Byte, b.toInt8.toInt = d) ↔ -128 ≤ d ∧ d ≤ 127 := by
  constructor
  · rintro ⟨b, rfl⟩
    have low := b.toInt8.le_toInt
    have high := b.toInt8.toInt_lt
    omega
  · rintro ⟨low, high⟩
    refine ⟨(Int8.ofInt d).toUInt8, ?_⟩
    rw [Int8.toInt8_toUInt8, Int8.toInt_ofInt_of_le (by omega) (by omega)]

namespace Word

theorem signExtend_eq_ofInt (b : Byte) : signExtend b = UInt16.ofInt b.toInt8.toInt := by
  revert b
  decide +kernel

/-- How far it is from one address to another, from -32768 to 32767. -/
def distance (a b : Word) : Int :=
  Int.bmod ((b.toNat : Int) - a.toNat) 65536

/-- An offset leads to the address that is so far away. -/
theorem add_offset_eq_iff {a b : Word} {offset : Byte} :
    a + UInt16.ofInt offset.toInt8.toInt = b ↔ offset.toInt8.toInt = distance a b := by
  obtain ⟨low, high⟩ := exists_signed_iff.mp ⟨offset, rfl⟩
  have ha := a.toNat_lt
  have hb := b.toNat_lt
  have value : (UInt16.ofInt offset.toInt8.toInt).toNat =
      (offset.toInt8.toInt % 65536).toNat := by
    rw [UInt16.ofInt, UInt16.toNat_ofNat']
    omega
  rw [← UInt16.toNat_inj, UInt16.toNat_add, value, distance, Int.bmod_def]
  generalize offset.toInt8.toInt = d at *
  constructor
  · intro lands
    split <;> omega
  · intro far
    split at far <;> omega

theorem exists_offset_iff {a b : Word} :
    (∃ offset : Byte, a + UInt16.ofInt offset.toInt8.toInt = b) ↔
      -128 ≤ distance a b ∧ distance a b ≤ 127 :=
  (exists_congr fun _ => add_offset_eq_iff).trans exists_signed_iff

end Word

def Instruction.taken? (s : Status) : Instruction → Option Bool
  | .bcc => some !s.carry
  | .bcs => some s.carry
  | .bne => some !s.zero
  | .beq => some s.zero
  | .bpl => some !s.negative
  | .bmi => some s.negative
  | .bvc => some !s.overflow
  | .bvs => some s.overflow
  | _ => none

theorem Instruction.branch_of_taken? {i : Instruction} {s : Status} {taken : Bool}
    (h : i.taken? s = some taken) :
    ∃ flag value, i.operation = .branch flag value ∧ (s.get flag = value ↔ taken = true) := by
  cases i with
  | bcc | bne | bpl | bvc =>
    obtain rfl := Option.some.inj h
    exact ⟨_, false, rfl, by simp [Status.get]⟩
  | bcs | beq | bmi | bvs =>
    obtain rfl := Option.some.inj h
    exact ⟨_, _, rfl, Iff.rfl⟩
  | _ => cases h

namespace Memory

def word (m : Memory) (a : Word) : Word :=
  Word.ofBytes (m.read (a + 1)) (m.read a)

/-- Pushing changes nothing outside page one. -/
theorem read_pushed (m : Memory) (sp : Byte) (bytes : List Byte) {a : Word}
    (outside : Word.high a ≠ 0x01) :
    (Bus.writeAll m (pushWrites sp bytes)).read a = m.read a := by
  apply m.read_writeAll_of_notMem
  intro pushed
  exact outside (high_of_mem_pushWrites pushed)

theorem readWord_pushed (m : Memory) (sp : Byte) (bytes : List Byte) {a : Word}
    (low : Word.high a ≠ 0x01) (high : Word.high (a + 1) ≠ 0x01) :
    Bus.readWord (Bus.writeAll m (pushWrites sp bytes)) a = m.word a := by
  rw [bus_readWord, read_pushed m sp bytes low, read_pushed m sp bytes high, word]

end Memory

namespace Machine

section AnyBus

variable {M : Type u} [Bus M]

theorem execute_pc (m : Machine M) {operation : Operation}
    (straight : operation.isControlFlow = false) (operand : Operand) :
    (m.execute operation operand).machine.regs.pc = m.regs.pc := by
  obtain ⟨value, target, length⟩ := operand
  cases operation with
  | modify transform => cases target <;> rfl
  | adjust register transform => cases register <;> rfl
  | load register => cases register <;> rfl
  | store register => cases target <;> rfl
  | transfer source destination => cases destination <;> rfl
  | branch | jump | call | returnFromCall | forceInterrupt | returnFromInterrupt => cases straight
  | _ => rfl

variable {m : Machine M} {e : Encoding}

/-- Execution goes straight on unless the instruction is one of control flow. -/
theorem step_pc_of_straight (h : m.encoding? = some e)
    (straight : e.instruction.isControlFlow = false) :
    m.step.machine.regs.pc = m.regs.pc + UInt16.ofNat e.size := by
  rw [step_of_encoding h]
  refine (execute_pc (m.advance (m.operand e.mode) e) straight _).trans ?_
  rw [advance_regs]
  rfl

theorem execute_branch_pc (m : Machine M) {operand : Operand} {target : Word}
    (located : operand.address? = some target) (flag : Flag) (value : Bool) :
    (m.execute (.branch flag value) operand).machine.regs.pc =
      if m.regs.status.get flag = value then target else m.regs.pc := by
  simp only [execute, located]
  split <;> rfl

theorem step_pc_of_branch {flag : Flag} {value : Bool} (h : m.encoding? = some e)
    (op : e.instruction.operation = .branch flag value) :
    m.step.machine.regs.pc =
      if m.regs.status.get flag = value then
        m.regs.pc + 2 + UInt16.ofInt (Bus.read m.bus (m.regs.pc + 1)).toInt8.toInt
      else m.regs.pc + 2 := by
  have relative := mode_of_encoding h op fun _ => rfl
  have located : (m.operand .relative).address? = some (m.regs.pc + 2 +
      UInt16.ofInt (Bus.read m.bus (m.regs.pc + 1)).toInt8.toInt) := by
    rw [operand_address?, ← Word.signExtend_eq_ofInt]
    rfl
  rw [step_of_encoding h, op, relative]
  exact execute_branch_pc (m.advance (m.operand .relative) e) located flag value

theorem step_pc_of_jump {target : Word} (h : m.encoding? = some e)
    (op : e.instruction.operation = .jump ∨ e.instruction.operation = .call)
    (address : m.effectiveAddress? e.mode = some target) : m.step.machine.regs.pc = target := by
  rw [step_of_encoding h, operand_of_address address]
  rcases op with jump | call
  · rw [jump]
    rfl
  · rw [call]
    rfl

theorem step_pc_of_returnFromCall (h : m.encoding? = some e)
    (op : e.instruction.operation = .returnFromCall) :
    m.step.machine.regs.pc = Word.ofBytes (Bus.read m.bus (stackSlot (m.regs.sp + 2)))
      (Bus.read m.bus (stackSlot (m.regs.sp + 1))) + 1 := by
  rw [step_of_encoding h, op, execute_returnFromCall]
  rfl

theorem step_pc_of_returnFromInterrupt (h : m.encoding? = some e)
    (op : e.instruction.operation = .returnFromInterrupt) :
    m.step.machine.regs.pc = Word.ofBytes (Bus.read m.bus (stackSlot (m.regs.sp + 3)))
      (Bus.read m.bus (stackSlot (m.regs.sp + 2))) := by
  rw [step_of_encoding h, op, execute_returnFromInterrupt]
  rfl

end AnyBus

variable {m : Machine Memory} {e : Encoding}

/-- The vectors are not in page one. -/
theorem step_pc_of_forceInterrupt (h : m.encoding? = some e)
    (op : e.instruction.operation = .forceInterrupt) :
    m.step.machine.regs.pc = m.bus.word m.config.brkVector.address := by
  have outside : Word.high m.config.brkVector.address ≠ 0x01 ∧
      Word.high (m.config.brkVector.address + 1) ≠ 0x01 := by
    cases m.config.brkVector <;> decide
  rw [step_of_encoding h, op]
  simp only [Outcome.after, execute, enterInterrupt_machine]
  exact m.bus.readWord_pushed _ _ outside.1 outside.2

def successor (m : Machine Memory) (e : Encoding) : Word :=
  let pc := m.regs.pc
  let slot (i : Byte) := m.bus.read (stackSlot (m.regs.sp + i))
  match e.instruction.taken? m.regs.status with
  | some true => pc + 2 + UInt16.ofInt (m.bus.read (pc + 1)).toInt8.toInt
  | some false => pc + 2
  | none =>
    match e.instruction with
    | .jmp => if e.mode = .indirect then m.bus.word (m.bus.word (pc + 1)) else m.bus.word (pc + 1)
    | .jsr => m.bus.word (pc + 1)
    | .rts => Word.ofBytes (slot 2) (slot 1) + 1
    | .rti => Word.ofBytes (slot 3) (slot 2)
    | .brk => m.bus.word m.config.brkVector.address
    | _ => pc + UInt16.ofNat e.size

theorem jumpTarget_eq (h : m.encoding? = some e) (op : e.instruction.operation = .jump) :
    m.effectiveAddress? e.mode = some (if e.mode = .indirect then
      m.bus.word (m.bus.word (m.regs.pc + 1)) else m.bus.word (m.regs.pc + 1)) := by
  have suits : (e.mode == .absolute || e.mode == .indirect) = true := by
    simpa only [op, Operation.accepts] using accepts_of_encoding h
  rcases Bool.or_eq_true_iff.mp suits with absolute | indirect
  · rw [eq_of_beq absolute]
    rfl
  · rw [eq_of_beq indirect]
    rfl

theorem step_pc (h : m.encoding? = some e) : m.step.machine.regs.pc = m.successor e := by
  rw [successor]
  cases branches : e.instruction.taken? m.regs.status with
  | some taken =>
    obtain ⟨flag, value, op, holds⟩ := Instruction.branch_of_taken? branches
    rw [step_pc_of_branch h op]
    cases taken with
    | true => exact if_pos (holds.mpr rfl)
    | false => exact if_neg fun same => Bool.false_ne_true (holds.mp same)
  | none =>
    cases hi : e.instruction with
    | jmp =>
      have op : e.instruction.operation = .jump := congrArg Instruction.operation hi
      exact step_pc_of_jump h (Or.inl op) (jumpTarget_eq h op)
    | jsr =>
      have op : e.instruction.operation = .call := congrArg Instruction.operation hi
      have absolute := mode_of_encoding h op fun _ => rfl
      exact step_pc_of_jump h (Or.inr op) (by rw [absolute]; rfl)
    | rts => exact step_pc_of_returnFromCall h (congrArg Instruction.operation hi)
    | rti => exact step_pc_of_returnFromInterrupt h (congrArg Instruction.operation hi)
    | brk => exact step_pc_of_forceInterrupt h (congrArg Instruction.operation hi)
    | bcc | bcs | bne | beq | bpl | bmi | bvc | bvs =>
      rw [hi] at branches
      cases branches
    | _ => exact step_pc_of_straight h (by rw [hi]; rfl)

def withOffset (m : Machine Memory) (offset : Byte) : Machine Memory :=
  m.withBus (m.bus.write (m.regs.pc + 1) offset)

theorem encoding?_withOffset (m : Machine Memory) (offset : Byte) :
    (m.withOffset offset).encoding? = m.encoding? := by
  have apart : m.regs.pc + 1 ≠ m.regs.pc := by
    intro same
    have one : (1 : Word) = 0 := by grind
    cases one
  exact congrArg Opcode.decode (m.bus.read_write_of_ne offset apart)

/-- A branch that is taken goes as far as its offset says. -/
theorem step_pc_withOffset (h : m.encoding? = some e)
    (taken : e.instruction.taken? m.regs.status = some true) (offset : Byte) :
    (m.withOffset offset).step.machine.regs.pc =
      m.regs.pc + 2 + UInt16.ofInt offset.toInt8.toInt := by
  have branches : e.instruction.taken? (m.withOffset offset).regs.status = some true := taken
  have byte : (m.withOffset offset).bus.read (m.regs.pc + 1) = offset :=
    m.bus.read_write_self _ _
  rw [step_pc ((m.encoding?_withOffset offset).trans h), successor, branches]
  exact congrArg (fun b : Byte => m.regs.pc + 2 + UInt16.ofInt b.toInt8.toInt) byte

/-- Where execution goes on after every instruction, whatever the step overwrites. It is the next
instruction unless the instruction is one of control flow. A branch that is taken can be given an
offset to any address that is between 128 bytes before its end and 127 bytes after it. -/
theorem continues_at_successor (h : m.encoding? = some e) :
    m.step.result = .ok () ∧
    m.step.machine.regs.pc = m.successor e ∧
    (m.step.machine.regs.pc ≠ m.regs.pc + UInt16.ofNat e.size →
      e.instruction.isControlFlow = true) ∧
    (e.instruction.taken? m.regs.status = some true → ∀ target,
      (∃ offset, (m.withOffset offset).step.machine.regs.pc = target) ↔
        -128 ≤ Word.distance (m.regs.pc + 2) target ∧
          Word.distance (m.regs.pc + 2) target ≤ 127) := by
  refine ⟨step_ok_of_encoding h, step_pc h, ?_, ?_⟩
  · intro leaves
    cases straight : e.instruction.isControlFlow with
    | true => rfl
    | false => exact absurd (step_pc_of_straight h straight) leaves
  · intro taken target
    simp only [step_pc_withOffset h taken]
    exact Word.exists_offset_iff

/-- A call on the stack, whose return address is pushed over its own operand. -/
def callingFromStack : Machine Memory :=
  powerOn (Bus.store Memory.zeroed 0x01FB [0x20, 0x00, 0x90])
    { initialPc := 0x01FB, initialSp := 0xFD }

/-- A branch that is taken, two bytes before the end of memory. -/
def branchingAtEnd : Machine Memory :=
  powerOn (Bus.store Memory.zeroed 0xFFFC [0xD0]) { initialPc := 0xFFFC }

/-- The call goes to its operand as it was. The branch reaches the beginning of memory, but not
far into it. -/
theorem continues_at_successor_edges :
    callingFromStack.encoding? = some ⟨.jsr, .absolute, 6⟩ ∧
    callingFromStack.step.machine.regs.pc = 0x9000 ∧
    callingFromStack.step.machine.bus.word 0x01FC = 0x01FD ∧
    branchingAtEnd.encoding? = some ⟨.bne, .relative, 2⟩ ∧
    (∃ offset, (branchingAtEnd.withOffset offset).step.machine.regs.pc = 0x0005) ∧
    ¬ ∃ offset, (branchingAtEnd.withOffset offset).step.machine.regs.pc = 0x0080 := by
  have call : callingFromStack.encoding? = some ⟨.jsr, .absolute, 6⟩ := by decide +kernel
  have branch : branchingAtEnd.encoding? = some ⟨.bne, .relative, 2⟩ := by decide +kernel
  obtain ⟨_, goes, _⟩ := continues_at_successor call
  obtain ⟨_, _, _, reach⟩ := continues_at_successor branch
  have target : callingFromStack.successor ⟨.jsr, .absolute, 6⟩ = 0x9000 := by decide +kernel
  refine ⟨call, goes.trans target, by decide +kernel, branch, ?_, ?_⟩
  · exact (reach rfl 0x0005).mpr (by decide)
  · exact fun lands => absurd ((reach rfl 0x0080).mp lands) (by decide)

end Machine

end Core6502
