import Core6502.Bus.Recorded
import Core6502.Host
import Core6502.Proofs.Decoding
import Core6502.Proofs.StackAccess

/-!
# The write trace

Which writes a step or an interrupt makes, in order. They are observed through a
recorded bus, which keeps those that the bus inside it ignores, and the bus is
left exactly as these writes leave it. Nothing is assumed of the bus.
-/

namespace Core6502

universe u

variable {M : Type u} [Bus M]

namespace Recorded

theorem writes_writeAll (bus : Recorded M) (writes : List (Word × Byte)) :
    (Bus.writeAll bus writes).writes.toList = bus.writes.toList ++ writes := by
  induction writes generalizing bus with
  | nil => simp
  | cons w rest ih => simp [ih]

end Recorded

def Operation.writes (regs : Registers) (operand : Operand) :
    Operation → List (Word × Byte)
  | .store register => operand.address?.toList.map (·, regs.get register)
  | .modify transform =>
    operand.address?.toList.map (·, (transform.apply regs.status.carry operand.value).1)
  | .call =>
    match operand.address? with
    | some _ => pushWrites regs.sp [Word.high (regs.pc - 1), Word.low (regs.pc - 1)]
    | none => []
  | .forceInterrupt => pushWrites regs.sp (interruptFrame (regs.pc + 1) regs.status)
  | .pushAccumulator => pushWrites regs.sp [regs.a]
  | .pushStatus => pushWrites regs.sp [regs.status.toByte]
  | _ => []

namespace Machine

theorem enterInterrupt_bus (m : Machine M) (vector : Word) :
    (m.enterInterrupt vector).machine.bus =
      Bus.writeAll m.bus (pushWrites m.regs.sp (interruptFrame m.regs.pc m.regs.status)) := by
  rw [enterInterrupt_machine]

theorem execute_bus (m : Machine M) (operation : Operation) (operand : Operand) :
    (m.execute operation operand).machine.bus =
      Bus.writeAll m.bus (operation.writes m.regs operand) := by
  obtain ⟨value, target, length⟩ := operand
  cases operation with
  | store register => cases target <;> rfl
  | modify transform => cases target <;> rfl
  | branch flag wanted =>
    cases target with
    | memory address =>
      simp only [execute, Operand.address?, Operation.writes]
      split <;> rfl
    | accumulator | nowhere => rfl
  | jump => cases target <;> rfl
  | call =>
    cases target with
    | memory address =>
      exact congrArg Machine.bus
        (m.pushAll_eq [Word.high (m.regs.pc - 1), Word.low (m.regs.pc - 1)])
    | accumulator | nowhere => rfl
  | forceInterrupt => exact (m.jumpTo (m.regs.pc + 1)).enterInterrupt_bus _
  | pushAccumulator => exact congrArg Machine.bus (m.pushAll_eq [m.regs.a])
  | pushStatus => exact congrArg Machine.bus (m.pushAll_eq [m.regs.status.toByte])
  | _ => rfl

def stepWrites (m : Machine M) : List (Word × Byte) :=
  match m.encoding? with
  | none => []
  | some e =>
    e.instruction.operation.writes (m.advance (m.operand e.mode) e).regs (m.operand e.mode)

theorem stepWrites_of_encoding {m : Machine M} {e : Encoding} (h : m.encoding? = some e) :
    m.stepWrites = e.instruction.operation.writes
      { m.regs with pc := m.regs.pc + UInt16.ofNat (e.mode.operandLength + 1) }
      (m.operand e.mode) := by
  simp only [stepWrites, h, advance_regs]

theorem step_bus (m : Machine M) : m.step.machine.bus = Bus.writeAll m.bus m.stepWrites := by
  cases h : m.encoding? with
  | none => simp only [step_of_illegal h, stepWrites, h, Bus.writeAll_nil]
  | some e =>
    rw [step_of_encoding h]
    simp only [stepWrites, h]
    exact execute_bus _ _ _

def recorded (m : Machine M) : Machine (Recorded M) where
  regs := m.regs
  cycles := m.cycles
  config := m.config
  bus := { inner := m.bus }

/-- The writes that a host call makes, oldest first. -/
def writes (m : Machine M) (call : HostCall) : List (Word × Byte) :=
  (m.recorded.perform call).machine.bus.writes.toList

theorem recorded_operand (m : Machine M) (mode : Mode) :
    m.recorded.operand mode = m.operand mode := by
  cases mode <;> rfl

theorem writes_step (m : Machine M) : m.writes .step = m.stepWrites := by
  have bus : (m.recorded.perform .step).machine.bus =
      Bus.writeAll m.recorded.bus m.recorded.stepWrites := m.recorded.step_bus
  rw [writes, bus, Recorded.writes_writeAll]
  change [] ++ m.recorded.stepWrites = m.stepWrites
  rw [List.nil_append]
  cases h : m.encoding? with
  | none =>
    have hr : m.recorded.encoding? = none := h
    simp only [stepWrites, h, hr]
  | some e =>
    have hr : m.recorded.encoding? = some e := h
    rw [stepWrites_of_encoding h, stepWrites_of_encoding hr, recorded_operand]
    rfl

theorem writes_interrupt (m : Machine M) (vector : Word) :
    m.writes (.interrupt vector) =
      pushWrites m.regs.sp (interruptFrame m.regs.pc m.regs.status) := by
  have bus : (m.recorded.perform (.interrupt vector)).machine.bus =
      Bus.writeAll m.recorded.bus (pushWrites m.regs.sp
        (interruptFrame m.regs.pc m.regs.status)) := m.recorded.enterInterrupt_bus vector
  rw [writes, bus, Recorded.writes_writeAll]
  rfl

/-- A masked request makes no write. -/
theorem writes_irqIfEnabled (m : Machine M) :
    m.writes .irqIfEnabled =
      if m.regs.status.interruptDisable then [] else m.writes (.interrupt Vectors.irq) := by
  cases h : m.regs.status.interruptDisable with
  | true =>
    have masked : m.recorded.regs.status.interruptDisable = true := h
    rw [writes, perform_irqIfEnabled, masked]
    rfl
  | false =>
    have enabled : m.recorded.regs.status.interruptDisable = false := h
    rw [writes, perform_irqIfEnabled, enabled]
    rfl

/-- A call that steps or enters an interrupt leaves the bus as its writes leave it. -/
theorem perform_bus (m : Machine M) {call : HostCall}
    (h : call = .step ∨ call = .irqIfEnabled ∨ ∃ vector, call = .interrupt vector) :
    (m.perform call).machine.bus = Bus.writeAll m.bus (m.writes call) := by
  rcases h with rfl | rfl | ⟨vector, rfl⟩
  · rw [writes_step]
    exact m.step_bus
  · rw [writes_irqIfEnabled, writes_interrupt]
    cases h : m.regs.status.interruptDisable with
    | true =>
      rw [perform_irqIfEnabled, h]
      rfl
    | false =>
      rw [perform_irqIfEnabled, h]
      exact m.enterInterrupt_bus Vectors.irq
  · rw [writes_interrupt]
    exact m.enterInterrupt_bus vector

end Machine

/-- What each transform makes of a byte, in arithmetic modulo 256. -/
theorem Transform.apply_value (transform : Transform) (carry : Bool) (value : Byte) :
    (transform.apply carry value).1 =
      match transform with
      | .shiftLeft => value + value
      | .shiftRight => value / 2
      | .rotateLeft => value + value + carry.toUInt8
      | .rotateRight => value / 2 + 128 * carry.toUInt8
      | .increment => value + 1
      | .decrement => value - 1 := by
  have all : ∀ (c : Bool) (v : Byte),
      v <<< 1 = v + v ∧ v >>> 1 = v / 2 ∧ (v <<< 1 ||| c.toUInt8) = v + v + c.toUInt8 ∧
        (v >>> 1 ||| c.toUInt8 <<< 7) = v / 2 + 128 * c.toUInt8 := by
    decide +kernel
  obtain ⟨left, right, rotateLeft, rotateRight⟩ := all carry value
  cases transform with
  | shiftLeft => exact left
  | shiftRight => exact right
  | rotateLeft => exact rotateLeft
  | rotateRight => exact rotateRight
  | increment => rfl
  | decrement => rfl

/-- The writes of an interrupt that returns to `pc`, one below the other in page one. -/
def Registers.entryWrites (r : Registers) (pc : Word) : List (Word × Byte) :=
  [(stackSlot r.sp, Word.high pc), (stackSlot (r.sp - 1), Word.low pc),
    (stackSlot (r.sp - 2), r.status.toByte)]

theorem Registers.pushWrites_interruptFrame (r : Registers) (pc : Word) :
    pushWrites r.sp (interruptFrame pc r.status) = r.entryWrites pc := by
  have third : r.sp - 1 - 1 = r.sp - 2 := by grind
  simp only [pushWrites, interruptFrame, entryWrites, third]

namespace Machine

def WritesOperand (m : Machine M) (mode : Mode) (value : Byte → Byte)
    (writes : List (Word × Byte)) : Prop :=
  ∃ address, m.effectiveAddress? mode = some address ∧
    writes = [(address, value (Bus.read m.bus address))]

/-- As `WritesOperand`, but nothing if the operand is the accumulator. -/
def WritesShifted (m : Machine M) (mode : Mode) (value : Byte → Byte)
    (writes : List (Word × Byte)) : Prop :=
  if mode = .accumulator then writes = [] else m.WritesOperand mode value writes

def InstructionWrites (m : Machine M) (e : Encoding) (writes : List (Word × Byte)) : Prop :=
  let carry := m.regs.status.carry.toUInt8
  match e.instruction with
  | .sta => m.WritesOperand e.mode (fun _ => m.regs.a) writes
  | .stx => m.WritesOperand e.mode (fun _ => m.regs.x) writes
  | .sty => m.WritesOperand e.mode (fun _ => m.regs.y) writes
  | .inc => m.WritesOperand e.mode (fun v => v + 1) writes
  | .dec => m.WritesOperand e.mode (fun v => v - 1) writes
  | .asl => m.WritesShifted e.mode (fun v => v + v) writes
  | .lsr => m.WritesShifted e.mode (fun v => v / 2) writes
  | .rol => m.WritesShifted e.mode (fun v => v + v + carry) writes
  | .ror => m.WritesShifted e.mode (fun v => v / 2 + 128 * carry) writes
  | .pha => writes = [(stackSlot m.regs.sp, m.regs.a)]
  | .php => writes = [(stackSlot m.regs.sp, m.regs.status.toByte)]
  | .jsr => writes = [(stackSlot m.regs.sp, Word.high (m.regs.pc + 2)),
      (stackSlot (m.regs.sp - 1), Word.low (m.regs.pc + 2))]
  | .brk => writes = m.regs.entryWrites (m.regs.pc + 2)
  | _ => writes = []

theorem stepWrites_store {m : Machine M} {e : Encoding} {register : ByteRegister}
    (h : m.encoding? = some e) (op : e.instruction.operation = .store register) :
    m.WritesOperand e.mode (fun _ => m.regs.get register) m.stepWrites := by
  have suits := accepts_of_encoding h
  rw [op, Operation.accepts] at suits
  obtain ⟨address, ha⟩ := m.address_of_inMemory suits
  refine ⟨address, ha, ?_⟩
  rw [stepWrites_of_encoding h, op, operand_of_address ha]
  cases register <;> rfl

/-- A transform of the accumulator writes nothing; any other writes the byte it read. -/
theorem stepWrites_modify {m : Machine M} {e : Encoding} {transform : Transform}
    (h : m.encoding? = some e) (op : e.instruction.operation = .modify transform) :
    m.WritesShifted e.mode (fun v => (transform.apply m.regs.status.carry v).1)
      m.stepWrites := by
  have suits := accepts_of_encoding h
  rw [WritesShifted, stepWrites_of_encoding h, op]
  by_cases ha : e.mode = .accumulator
  · rw [if_pos ha, ha]
    rfl
  · rw [if_neg ha]
    have inMemory : e.mode.inMemory = true := by
      cases transform <;> simpa [op, Operation.accepts, ha] using suits
    obtain ⟨address, he⟩ := m.address_of_inMemory inMemory
    refine ⟨address, he, ?_⟩
    rw [operand_of_address he]
    rfl

theorem stepWrites_call {m : Machine M} {e : Encoding} (h : m.encoding? = some e)
    (op : e.instruction.operation = .call) :
    m.stepWrites = [(stackSlot m.regs.sp, Word.high (m.regs.pc + 2)),
      (stackSlot (m.regs.sp - 1), Word.low (m.regs.pc + 2))] := by
  have absolute := mode_of_encoding h op fun _ => rfl
  have saved : m.regs.pc + UInt16.ofNat (2 + 1) - 1 = m.regs.pc + 2 := by grind
  rw [stepWrites_of_encoding h, op, absolute]
  simp only [Mode.operandLength, Operation.writes, saved]
  rfl

theorem stepWrites_forceInterrupt {m : Machine M} {e : Encoding} (h : m.encoding? = some e)
    (op : e.instruction.operation = .forceInterrupt) :
    m.stepWrites = m.regs.entryWrites (m.regs.pc + 2) := by
  have saved := saved_of_forceInterrupt h op
  rw [advance_regs] at saved
  rw [stepWrites_of_encoding h, op, Operation.writes, saved]
  exact m.regs.pushWrites_interruptFrame (m.regs.pc + 2)

/-- Increments are encoded for memory only. -/
theorem writesOperand_of_inMemory {m : Machine M} {mode : Mode} {value : Byte → Byte}
    {writes : List (Word × Byte)} (h : m.WritesShifted mode value writes)
    (inMemory : mode.inMemory = true) : m.WritesOperand mode value writes := by
  have memory : mode ≠ .accumulator := by
    rintro rfl
    cases inMemory
  rwa [WritesShifted, if_neg memory] at h

theorem instructionWrites_stepWrites {m : Machine M} {e : Encoding}
    (h : m.encoding? = some e) : m.InstructionWrites e m.stepWrites := by
  have suits := accepts_of_encoding h
  rw [InstructionWrites]
  cases hi : e.instruction with
  | sta => exact stepWrites_store h (congrArg Instruction.operation hi)
  | stx => exact stepWrites_store h (congrArg Instruction.operation hi)
  | sty => exact stepWrites_store h (congrArg Instruction.operation hi)
  | asl | lsr | rol | ror =>
    simpa only [Transform.apply_value] using
      stepWrites_modify h (congrArg Instruction.operation hi)
  | inc | dec =>
    rw [hi] at suits
    exact writesOperand_of_inMemory (stepWrites_modify h (congrArg Instruction.operation hi)) suits
  | jsr => exact stepWrites_call h (congrArg Instruction.operation hi)
  | brk => exact stepWrites_forceInterrupt h (congrArg Instruction.operation hi)
  | _ =>
    rw [stepWrites_of_encoding h, hi]
    rfl

/-- The writes of every step and every interrupt entry, on every bus. NMI, IRQ and reset
are interrupts through their vectors. -/
theorem writes_exact (m : Machine M) :
    (match m.encoding? with
      | some e => m.InstructionWrites e (m.writes .step)
      | none => m.writes .step = []) ∧
    (∀ vector, m.writes (.interrupt vector) = m.regs.entryWrites m.regs.pc) ∧
    m.writes .irqIfEnabled =
      (if m.regs.status.interruptDisable then [] else m.regs.entryWrites m.regs.pc) ∧
    ∀ vector, ∀ call ∈ [HostCall.step, .irqIfEnabled, .interrupt vector],
      (m.perform call).machine.bus = Bus.writeAll m.bus (m.writes call) := by
  have entry (vector : Word) :
      m.writes (.interrupt vector) = m.regs.entryWrites m.regs.pc := by
    rw [writes_interrupt, Registers.pushWrites_interruptFrame]
  refine ⟨?_, entry, ?_, ?_⟩
  · rw [writes_step]
    cases h : m.encoding? with
    | some e => exact instructionWrites_stepWrites h
    | none => simp only [stepWrites, h]
  · rw [writes_irqIfEnabled, entry]
  · intro vector call hc
    simp only [List.mem_cons, List.not_mem_nil, or_false] at hc
    apply m.perform_bus
    rcases hc with rfl | rfl | rfl
    · exact Or.inl rfl
    · exact Or.inr (Or.inl rfl)
    · exact Or.inr (Or.inr ⟨vector, rfl⟩)

end Machine

end Core6502
