import Core6502.Proofs.Lockstep
import Core6502.Proofs.RegisterFrames
import Core6502.Proofs.WriteTrace

/-!
# Zero and negative

After an instruction with a result, zero and negative describe it: the new value of its register,
the byte that it hands to the bus, or the difference that it compares by. What the bus makes of the
byte does not matter. A bit test and the instructions that pop the status take them from a byte as
it is, and all other instructions leave them alone.
-/

namespace Core6502

universe u

def Flag.bit : Flag → Nat
  | negative => 7
  | overflow => 6
  | unused => 5
  | brk => 4
  | decimal => 3
  | interruptDisable => 2
  | zero => 1
  | carry => 0

theorem Flag.isSet_eq_testBit (flag : Flag) (b : Byte) :
    flag.isSet b = b.toNat.testBit flag.bit := by
  revert b
  cases flag <;> decide +kernel

structure Status.Describes (s : Status) (result : Byte) : Prop where
  zero : s.zero = true ↔ result = 0
  negative : s.negative = result.toNat.testBit 7

theorem Status.describes_withResult (s : Status) (result : Byte) :
    (s.withResult result).Describes result where
  zero := beq_iff_eq
  negative := Flag.isSet_eq_testBit .negative result

theorem Registers.describes_load (r : Registers) (register : ByteRegister) (value : Byte) :
    (r.load register value).status.Describes ((r.load register value).get register) := by
  cases register <;> exact Status.describes_withResult _ value

def Operation.destination? : Operation → Option ByteRegister
  | .add | .subtract | .logic _ | .pullAccumulator => some .a
  | .adjust register _ | .load register | .transfer _ register => some register
  | _ => none

namespace Machine

variable {M : Type u} [Bus M]

theorem execute_describes (m : Machine M) {operation : Operation} {register : ByteRegister}
    (takes : operation.destination? = some register) (operand : Operand) :
    (m.execute operation operand).machine.regs.status.Describes
      ((m.execute operation operand).machine.regs.get register) := by
  cases operation with
  | add | subtract | logic =>
    obtain rfl := Option.some.inj takes
    exact Registers.describes_load _ .a _
  | pullAccumulator =>
    obtain rfl := Option.some.inj takes
    rw [execute_pullAccumulator]
    exact Registers.describes_load _ .a _
  | adjust destination transform =>
    obtain rfl := Option.some.inj takes
    exact Registers.describes_load _ destination _
  | load destination =>
    obtain rfl := Option.some.inj takes
    exact Registers.describes_load _ destination _
  | transfer source destination =>
    obtain rfl := Option.some.inj takes
    exact Registers.describes_load _ destination _
  | _ => cases takes

variable {m : Machine M} {e : Encoding}

theorem step_describes {register : ByteRegister} (h : m.encoding? = some e)
    (takes : e.instruction.operation.destination? = some register) :
    m.step.machine.regs.status.Describes (m.step.machine.regs.get register) := by
  rw [step_of_encoding h]
  exact execute_describes _ takes _

/-- Shifts and increments describe their new value, wherever it goes. -/
theorem step_describes_modify {transform : Transform} (h : m.encoding? = some e)
    (op : e.instruction.operation = .modify transform) :
    m.step.machine.regs.status.Describes
      (transform.apply m.regs.status.carry (m.operand e.mode).value).1 := by
  rw [step_of_encoding h, op]
  simp only [Outcome.after, execute, Outcome.done]
  cases (m.operand e.mode).target <;> exact Status.describes_withResult _ _

theorem step_a_of_modify {transform : Transform} (h : m.encoding? = some e)
    (op : e.instruction.operation = .modify transform) (shifts : e.mode = .accumulator) :
    m.step.machine.regs.a = (transform.apply m.regs.status.carry (m.operand e.mode).value).1 := by
  rw [step_of_encoding h, op, shifts]
  rfl

/-- Zero and negative describe the byte that the step hands to the bus. -/
def DescribesWrite (m : Machine M) : Prop :=
  ∃ address value, m.writes .step = [(address, value)] ∧
    m.step.machine.regs.status.Describes value

theorem step_describesWrite {transform : Transform} (h : m.encoding? = some e)
    (op : e.instruction.operation = .modify transform) (memory : e.mode ≠ .accumulator) :
    m.DescribesWrite := by
  have written := stepWrites_modify h op
  rw [WritesShifted, if_neg memory] at written
  obtain ⟨address, located, writes⟩ := written
  have result := step_describes_modify h op
  rw [operand_of_address located] at result
  exact ⟨address, _, m.writes_step.trans writes, result⟩

theorem step_describes_compare {register : ByteRegister} (h : m.encoding? = some e)
    (op : e.instruction.operation = .compare register) :
    m.step.machine.regs.status.Describes (m.regs.get register - m.datum e.mode) := by
  rw [← value_of_encoding h op fun _ => rfl, step_of_encoding h, op]
  cases register <;> exact Status.describes_withResult _ _

/-- A bit test takes negative and overflow from its operand. -/
theorem step_bitTest (h : m.encoding? = some e) (op : e.instruction.operation = .bitTest) :
    let after := m.step.machine.regs.status
    after.negative = (m.datum e.mode).toNat.testBit 7 ∧
    after.overflow = (m.datum e.mode).toNat.testBit 6 ∧
    (after.zero = true ↔ m.regs.a &&& m.datum e.mode = 0) := by
  rw [← value_of_encoding h op fun _ => rfl, step_of_encoding h, op]
  exact ⟨Flag.isSet_eq_testBit .negative _, Flag.isSet_eq_testBit .overflow _, beq_iff_eq⟩

theorem step_status_of_pulled (h : m.encoding? = some e)
    (op : e.instruction.operation = .pullStatus ∨
      e.instruction.operation = .returnFromInterrupt) :
    m.step.machine.regs.status =
      Status.ofByte (Bus.read m.bus (stackSlot (m.regs.sp + 1))) := by
  rcases op with pull | returns
  · rw [step_of_encoding h, pull, execute_pullStatus]
    rfl
  · rw [step_of_encoding h, returns, execute_returnFromInterrupt]
    rfl

def ResultFlags (m : Machine M) (e : Encoding) : Prop :=
  let after := m.step.machine.regs
  let flags := after.status
  let datum := m.datum e.mode
  let popped := Bus.read m.bus (stackSlot (m.regs.sp + 1))
  match e.instruction with
  | .lda | .txa | .tya | .and | .ora | .eor | .adc | .sbc | .pla => flags.Describes after.a
  | .ldx | .tax | .tsx | .inx | .dex => flags.Describes after.x
  | .ldy | .tay | .iny | .dey => flags.Describes after.y
  | .txs => flags.Describes after.sp
  | .asl | .lsr | .rol | .ror =>
    if e.mode = .accumulator then flags.Describes after.a else m.DescribesWrite
  | .inc | .dec => m.DescribesWrite
  | .cmp => flags.Describes (m.regs.a - datum)
  | .cpx => flags.Describes (m.regs.x - datum)
  | .cpy => flags.Describes (m.regs.y - datum)
  | .bit => flags.negative = datum.toNat.testBit 7 ∧ flags.overflow = datum.toNat.testBit 6 ∧
      (flags.zero = true ↔ m.regs.a &&& datum = 0)
  | .plp | .rti =>
    flags.negative = popped.toNat.testBit 7 ∧ flags.zero = popped.toNat.testBit 1
  | _ => flags.negative = m.regs.status.negative ∧ flags.zero = m.regs.status.zero

theorem resultFlags (h : m.encoding? = some e) : m.ResultFlags e := by
  have suits := accepts_of_encoding h
  have within := step_within h
  rw [ResultFlags]
  cases hi : e.instruction with
  | lda | txa | tya | and | ora | eor | adc | sbc | pla =>
    have takes : e.instruction.operation.destination? = some .a := by rw [hi]; rfl
    exact step_describes h takes
  | ldx | tax | tsx | inx | dex =>
    have takes : e.instruction.operation.destination? = some .x := by rw [hi]; rfl
    exact step_describes h takes
  | ldy | tay | iny | dey =>
    have takes : e.instruction.operation.destination? = some .y := by rw [hi]; rfl
    exact step_describes h takes
  | txs =>
    have takes : e.instruction.operation.destination? = some .sp := by rw [hi]; rfl
    exact step_describes h takes
  | asl | lsr | rol | ror =>
    have op := congrArg Instruction.operation hi
    by_cases shifts : e.mode = .accumulator
    · have result := step_describes_modify h op
      rw [← step_a_of_modify h op shifts] at result
      rw [if_pos shifts]
      exact result
    · rw [if_neg shifts]
      exact step_describesWrite h op shifts
  | inc | dec =>
    have memory : e.mode ≠ .accumulator := by
      intro shifts
      rw [hi, shifts] at suits
      cases suits
    exact step_describesWrite h (congrArg Instruction.operation hi) memory
  | cmp | cpx | cpy => exact step_describes_compare h (congrArg Instruction.operation hi)
  | bit => exact step_bitTest h (congrArg Instruction.operation hi)
  | plp | rti =>
    rw [step_status_of_pulled h (by rw [hi]; decide)]
    exact ⟨Flag.isSet_eq_testBit .negative _, Flag.isSet_eq_testBit .zero _⟩
  | _ =>
    rw [hi] at within
    exact ⟨within.flag .negative (by simp [Instruction.scope]),
      within.flag .zero (by simp [Instruction.scope])⟩

/-- After every instruction zero and negative are those of its result, on any bus. A step over an
illegal opcode leaves all flags as they are. -/
theorem flags_describe_result (m : Machine M) :
    (∀ e, m.encoding? = some e → m.step.result = .ok () ∧ m.ResultFlags e) ∧
    (m.encoding? = none → m.step.machine.regs.status = m.regs.status) := by
  constructor
  · intro e h
    exact ⟨step_ok_of_encoding h, resultFlags h⟩
  · intro illegal
    rw [step_of_illegal illegal]

def incrementingRom : Machine HalfRom where
  regs := { sp := 0xFD, pc := 0x8000, status := { negative := true } }
  cycles := 0
  config := {}
  bus := ⟨Bus.store (Bus.store Memory.zeroed 0x8000 [0xEE, 0x10, 0x80]) 0x8010 [0xFF]⟩

/-- The flags describe the byte that ROM is given, not the one that it keeps. That byte is no opcode:
a step over it leaves the flags alone. -/
theorem flags_describe_result_rom :
    let stuck := incrementingRom.jumpTo 0x8010
    incrementingRom.encoding? = some ⟨.inc, .absolute, 6⟩ ∧
    incrementingRom.step.machine.regs.status.zero = true ∧
    incrementingRom.step.machine.regs.status.negative = false ∧
    Bus.read incrementingRom.step.machine.bus 0x8010 = 0xFF ∧
    stuck.encoding? = none ∧
    stuck.step.machine.regs.status = stuck.regs.status := by
  intro stuck
  have encoding : incrementingRom.encoding? = some ⟨.inc, .absolute, 6⟩ := by decide +kernel
  have illegal : stuck.encoding? = none := by decide +kernel
  obtain ⟨legal, _⟩ := flags_describe_result incrementingRom
  obtain ⟨_, unchanged⟩ := flags_describe_result stuck
  obtain ⟨_, address, value, writes, result⟩ := legal _ encoding
  have given : incrementingRom.writes .step = [(0x8010, 0x00)] := by decide +kernel
  obtain rfl : value = 0x00 := by
    rw [given] at writes
    exact (Prod.mk.inj (List.cons.inj writes).1).2.symm
  exact ⟨encoding, result.zero.mpr rfl, result.negative, by decide +kernel, illegal,
    unchanged illegal⟩

end Machine

end Core6502
