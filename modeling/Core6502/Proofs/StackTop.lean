import Core6502.Proofs.Decoding
import Core6502.Proofs.StackAccess

/-!
# The top of the stack

An instruction that does not work with the stack keeps the stack pointer. Over
flat memory the bytes that were pushed come back, the last one first. As long as
no more than 256 bytes are on the stack their slots are distinct, so a push keeps
those below it, wherever the stack pointer wraps.
-/

namespace Core6502

universe u

/-- What an operation adds to the stack pointer, other than by assigning to it. -/
def Operation.spChange : Operation → Byte
  | .pushAccumulator | .pushStatus => -1
  | .call => -2
  | .forceInterrupt => -3
  | .pullAccumulator | .pullStatus => 1
  | .returnFromCall => 2
  | .returnFromInterrupt => 3
  | _ => 0

def Operation.assignsSp : Operation → Bool
  | .adjust .sp _ | .load .sp | .transfer _ .sp => true
  | _ => false

theorem Registers.load_sp (r : Registers) {register : ByteRegister} (other : register ≠ .sp)
    (value : Byte) : (r.load register value).sp = r.sp := by
  cases register with
  | a | x | y => rfl
  | sp => exact absurd rfl other

namespace Machine

variable {M : Type u} [Bus M]

theorem execute_sp (m : Machine M) {operation : Operation} {operand : Operand}
    (keeps : operation.assignsSp = false)
    (target : operation = .call → operand.address?.isSome = true) :
    (m.execute operation operand).machine.regs.sp = m.regs.sp + operation.spChange := by
  obtain ⟨value, place, length⟩ := operand
  have same : m.regs.sp = m.regs.sp + 0 := by simp
  cases operation with
  | adjust register transform =>
    have other : register ≠ .sp := by rintro rfl; cases keeps
    exact (Registers.load_sp _ other _).trans same
  | load register =>
    have other : register ≠ .sp := by rintro rfl; cases keeps
    exact (Registers.load_sp _ other _).trans same
  | transfer source destination =>
    have other : destination ≠ .sp := by rintro rfl; cases keeps
    exact (Registers.load_sp _ other _).trans same
  | store register => cases place <;> exact same
  | modify transform => cases place <;> exact same
  | branch flag wanted =>
    cases place with
    | memory address =>
      simp only [execute, Operand.address?, Operation.spChange]
      split <;> exact same
    | accumulator | nowhere => exact same
  | jump => cases place <;> exact same
  | call =>
    cases place with
    | memory address =>
      have twice : m.regs.sp - 1 - 1 = m.regs.sp + (-2) := by grind
      exact twice
    | accumulator | nowhere => exact absurd (target rfl) (by simp [Operand.address?])
  | forceInterrupt =>
    have thrice : m.regs.sp - 3 = m.regs.sp + (-3) := by grind
    simp only [execute, enterInterrupt_machine, jumpTo]
    exact thrice
  | returnFromCall => rw [execute_returnFromCall]; rfl
  | returnFromInterrupt => rw [execute_returnFromInterrupt]; rfl
  | pullAccumulator => rw [execute_pullAccumulator]; rfl
  | pullStatus => rw [execute_pullStatus]; rfl
  | pushAccumulator | pushStatus =>
    have once : m.regs.sp - 1 = m.regs.sp + (-1) := by grind
    exact once
  | _ => exact same

/-- A step moves the stack pointer by what its operation pushes or pops. -/
theorem step_sp {m : Machine M} {e : Encoding} (h : m.encoding? = some e)
    (keeps : e.instruction.operation.assignsSp = false) :
    m.step.machine.regs.sp = m.regs.sp + e.instruction.operation.spChange := by
  rw [step_of_encoding h]
  refine execute_sp (m.advance (m.operand e.mode) e) keeps ?_
  intro call
  have absolute := mode_of_encoding h call fun _ => rfl
  rw [absolute]
  rfl

end Machine

namespace Memory

/-- The bytes above a stack pointer, in the order in which they would be popped. -/
def StackTop (m : Memory) : Byte → List Byte → Prop
  | _, [] => True
  | sp, byte :: rest => m.read (stackSlot (sp + 1)) = byte ∧ m.StackTop (sp + 1) rest

theorem StackTop.of_agree {m n : Memory} {sp : Byte} {bytes : List Byte}
    (h : m.StackTop sp bytes)
    (agree : ∀ a, a ∈ stackSlots sp bytes.length → n.read a = m.read a) :
    n.StackTop sp bytes := by
  induction bytes generalizing sp with
  | nil => trivial
  | cons byte rest ih =>
    refine ⟨(agree _ List.mem_cons_self).trans h.1, ih h.2 ?_⟩
    intro a ha
    exact agree a (List.mem_cons_of_mem _ ha)

theorem StackTop.push {m : Memory} {sp : Byte} {bytes : List Byte} (h : m.StackTop sp bytes)
    (byte : Byte) (room : bytes.length < 256) :
    (m.write (stackSlot sp) byte).StackTop (sp - 1) (byte :: bytes) := by
  have back : sp - 1 + 1 = sp := UInt8.sub_add_cancel sp 1
  rw [StackTop, back]
  refine ⟨m.read_write_self _ _, h.of_agree ?_⟩
  intro a ha
  apply m.read_write_of_ne
  rintro rfl
  exact stackSlot_notMem room ha

/-- Bytes come back in the opposite order, before those that were there. -/
theorem StackTop.pushAll {m : Memory} {sp : Byte} {bytes : List Byte}
    (h : m.StackTop sp bytes) (pushed : List Byte)
    (room : pushed.length + bytes.length ≤ 256) :
    (Bus.writeAll m (pushWrites sp pushed)).StackTop (sp - UInt8.ofNat pushed.length)
      (pushed.reverse ++ bytes) := by
  induction pushed generalizing m sp bytes with
  | nil => simpa [pushWrites] using h
  | cons byte rest ih =>
    rw [List.length_cons] at room
    have next := ih (h.push byte (by omega)) (by rw [List.length_cons]; omega)
    rw [sub_one_sub_ofNat] at next
    simpa only [pushWrites, Bus.writeAll_cons, bus_write, List.reverse_cons, List.append_assoc,
      List.singleton_append, List.length_cons] using next

theorem StackTop.of_append {m : Memory} {sp : Byte} {front back : List Byte}
    (h : m.StackTop sp (front ++ back)) :
    m.StackTop sp front ∧ m.StackTop (sp + UInt8.ofNat front.length) back := by
  induction front generalizing sp with
  | nil => exact ⟨trivial, by simpa using h⟩
  | cons byte rest ih =>
    have split := ih h.2
    rw [add_one_add_ofNat] at split
    exact ⟨⟨h.1, split.1⟩, split.2⟩

end Memory

namespace Machine

variable {m : Machine Memory} {e : Encoding}

theorem step_pullAccumulator (h : m.encoding? = some e)
    (op : e.instruction.operation = .pullAccumulator) {byte : Byte}
    (top : m.bus.StackTop m.regs.sp [byte]) :
    m.step.machine =
      { m with
        regs := { m.regs with sp := m.regs.sp + 1, pc := m.regs.pc + 1 }.load .a byte
        cycles := m.cycles + e.cycles.toUInt64 } := by
  have implied := mode_of_encoding h op fun _ => rfl
  obtain ⟨rfl, _⟩ := top
  rw [step_of_encoding h, op, execute_pullAccumulator, implied]
  rfl

theorem step_pullStatus (h : m.encoding? = some e)
    (op : e.instruction.operation = .pullStatus) {byte : Byte}
    (top : m.bus.StackTop m.regs.sp [byte]) :
    m.step.machine =
      { m with
        regs := { m.regs with
          sp := m.regs.sp + 1, pc := m.regs.pc + 1, status := Status.ofByte byte }
        cycles := m.cycles + e.cycles.toUInt64 } := by
  have implied := mode_of_encoding h op fun _ => rfl
  obtain ⟨rfl, _⟩ := top
  rw [step_of_encoding h, op, execute_pullStatus, implied]
  rfl

theorem step_returnFromCall (h : m.encoding? = some e)
    (op : e.instruction.operation = .returnFromCall) {low high : Byte}
    (top : m.bus.StackTop m.regs.sp [low, high]) :
    m.step.machine =
      { m with
        regs := { m.regs with sp := m.regs.sp + 2, pc := Word.ofBytes high low + 1 }
        cycles := m.cycles + e.cycles.toUInt64 } := by
  have second : m.regs.sp + 1 + 1 = m.regs.sp + 2 := UInt8.add_assoc m.regs.sp 1 1
  rw [Memory.StackTop, Memory.StackTop, second] at top
  obtain ⟨rfl, rfl, _⟩ := top
  rw [step_of_encoding h, op, execute_returnFromCall]
  rfl

theorem step_returnFromInterrupt (h : m.encoding? = some e)
    (op : e.instruction.operation = .returnFromInterrupt) {status low high : Byte}
    (top : m.bus.StackTop m.regs.sp [status, low, high]) :
    m.step.machine =
      { m with
        regs := { m.regs with
          sp := m.regs.sp + 3, pc := Word.ofBytes high low, status := Status.ofByte status }
        cycles := m.cycles + e.cycles.toUInt64 } := by
  have second : m.regs.sp + 1 + 1 = m.regs.sp + 2 := UInt8.add_assoc m.regs.sp 1 1
  have third : m.regs.sp + 2 + 1 = m.regs.sp + 3 := UInt8.add_assoc m.regs.sp 2 1
  rw [Memory.StackTop, Memory.StackTop, Memory.StackTop, second, third] at top
  obtain ⟨rfl, rfl, rfl, _⟩ := top
  rw [step_of_encoding h, op, execute_returnFromInterrupt]
  rfl

end Machine

end Core6502
