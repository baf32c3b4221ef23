import Core6502.Proofs.StackTop
import Core6502.Proofs.WriteTrace

/-!
# Balanced runs

A run over flat memory whose pushes and pulls match like brackets, with calls,
software interrupts and interrupts by the host among them, leaves the stack pointer
where it was, and each closing instruction gets back what its opener saved. The
only conditions are that the open brackets fit on the stack and that nothing else
writes to their slots.
-/

namespace Core6502

/-- Instructions that work with the stack or assign the stack pointer. -/
def Instruction.usesStack : Instruction → Bool
  | .txs | .pha | .php | .pla | .plp | .jsr | .rts | .rti | .brk => true
  | _ => false

theorem Instruction.keeps_sp {i : Instruction} (h : i.usesStack = false) :
    i.operation.assignsSp = false ∧ i.operation.spChange = 0 := by
  cases i <;> cases h <;> exact ⟨rfl, rfl⟩

theorem Machine.step_sp_of_plain {m : Machine Memory} {i : Instruction}
    (h : m.instruction? = some i) (plain : i.usesStack = false) :
    m.step.machine.regs.sp = m.regs.sp := by
  obtain ⟨e, he, rfl⟩ := encoding?_of_instruction? h
  obtain ⟨keeps, change⟩ := Instruction.keeps_sp plain
  rw [step_sp he keeps, change]
  exact UInt8.add_zero _

inductive Bracket
  | accumulator
  | status
  | call
  | softwareInterrupt
  | hostInterrupt (vector : Word)
  deriving DecidableEq

namespace Bracket

def opener : Bracket → HostCall
  | .accumulator | .status | .call | .softwareInterrupt => .step
  | .hostInterrupt vector => .interrupt vector

/-- What that call has to execute, if it is a step. -/
def openerInstruction? : Bracket → Option Instruction
  | .accumulator => some .pha
  | .status => some .php
  | .call => some .jsr
  | .softwareInterrupt => some .brk
  | .hostInterrupt _ => none

def closer : Bracket → Instruction
  | .accumulator => .pla
  | .status => .plp
  | .call => .rts
  | .softwareInterrupt | .hostInterrupt _ => .rti

def Opens (b : Bracket) (m : Machine Memory) : Prop :=
  ∀ i, b.openerInstruction? = some i → m.instruction? = some i

def opened (b : Bracket) (m : Machine Memory) : Machine Memory :=
  (m.perform b.opener).machine

def slots (b : Bracket) (m : Machine Memory) : List Word :=
  (m.writes b.opener).map Prod.fst

/-- The bytes that the opener saves, in the order in which it pushes them. -/
def frame (r : Registers) : Bracket → List Byte
  | .accumulator => [r.a]
  | .status => [r.status.toByte]
  | .call => [Word.high (r.pc + 2), Word.low (r.pc + 2)]
  | .softwareInterrupt => interruptFrame (r.pc + 2) r.status
  | .hostInterrupt _ => interruptFrame r.pc r.status

def Restores (before after : Registers) : Bracket → Prop
  | .accumulator => after.a = before.a
  | .status => after.status = before.status
  | .call => after.pc = before.pc + 3
  | .softwareInterrupt => after.status = before.status ∧ after.pc = before.pc + 2
  | .hostInterrupt _ => after.status = before.status ∧ after.pc = before.pc

theorem Opens.encoding {b : Bracket} {m : Machine Memory} {i : Instruction} (h : b.Opens m)
    (opener : b.openerInstruction? = some i) :
    ∃ e, m.encoding? = some e ∧ e.instruction = i :=
  Machine.encoding?_of_instruction? (h i opener)

theorem Opens.writes {b : Bracket} {m : Machine Memory} (h : b.Opens m) :
    m.writes b.opener = pushWrites m.regs.sp (b.frame m.regs) := by
  cases b with
  | accumulator | status =>
    obtain ⟨e, he, hi⟩ := h.encoding rfl
    rw [opener, Machine.writes_step, Machine.stepWrites_of_encoding he, hi]
    rfl
  | call =>
    obtain ⟨e, he, hi⟩ := h.encoding rfl
    rw [opener, Machine.writes_step,
      Machine.stepWrites_call he (congrArg Instruction.operation hi)]
    rfl
  | softwareInterrupt =>
    obtain ⟨e, he, hi⟩ := h.encoding rfl
    rw [opener, Machine.writes_step,
      Machine.stepWrites_forceInterrupt he (congrArg Instruction.operation hi)]
    exact (m.regs.pushWrites_interruptFrame (m.regs.pc + 2)).symm
  | hostInterrupt vector => exact m.writes_interrupt vector

theorem Opens.bus {b : Bracket} {m : Machine Memory} (h : b.Opens m) :
    (b.opened m).bus = Bus.writeAll m.bus (pushWrites m.regs.sp (b.frame m.regs)) := by
  have left : (b.opened m).bus = Bus.writeAll m.bus (m.writes b.opener) := by
    apply m.perform_bus
    cases b with
    | hostInterrupt vector => exact Or.inr (Or.inr ⟨vector, rfl⟩)
    | _ => exact Or.inl rfl
  rw [left, h.writes]

theorem Opens.sp {b : Bracket} {m : Machine Memory} (h : b.Opens m) :
    (b.opened m).regs.sp = m.regs.sp - UInt8.ofNat (b.frame m.regs).length := by
  have step {e : Encoding} (he : m.encoding? = some e)
      (keeps : e.instruction.operation.assignsSp = false)
      {pushed : Byte} (change : e.instruction.operation.spChange = -pushed) :
      m.step.machine.regs.sp = m.regs.sp - pushed := by
    rw [Machine.step_sp he keeps, change]
    grind
  cases b with
  | hostInterrupt vector =>
    change (m.enterInterrupt vector).machine.regs.sp = m.regs.sp - 3
    rw [Machine.enterInterrupt_machine]
  | _ =>
    obtain ⟨e, he, hi⟩ := h.encoding rfl
    exact step he (by rw [hi]; rfl) (by rw [hi]; rfl)

/-- With the saved bytes on top of the stack, the closer pops exactly them. -/
theorem close {b : Bracket} {before : Registers} {n : Machine Memory}
    (closes : n.instruction? = some b.closer)
    (top : n.bus.StackTop n.regs.sp (b.frame before).reverse) :
    n.step.machine.bus = n.bus ∧
      n.step.machine.regs.sp = n.regs.sp + UInt8.ofNat (b.frame before).length ∧
      b.Restores before n.step.machine.regs := by
  obtain ⟨e, he, hi⟩ := Machine.encoding?_of_instruction? closes
  have op := congrArg Instruction.operation hi
  cases b with
  | accumulator =>
    rw [Machine.step_pullAccumulator he op top]
    exact ⟨rfl, rfl, rfl⟩
  | status =>
    rw [Machine.step_pullStatus he op top]
    exact ⟨rfl, rfl, Status.ofByte_toByte _⟩
  | call =>
    have next : before.pc + 2 + 1 = before.pc + 3 := UInt16.add_assoc before.pc 2 1
    rw [Machine.step_returnFromCall he op top, Word.ofBytes_high_low, next]
    exact ⟨rfl, rfl, rfl⟩
  | softwareInterrupt | hostInterrupt vector =>
    rw [Machine.step_returnFromInterrupt he op top, Word.ofBytes_high_low, Status.ofByte_toByte]
    exact ⟨rfl, rfl, rfl, rfl⟩

end Bracket

/-- A bracket that was closed, with the machines before its opener and after its closer. -/
structure Closing where
  bracket : Bracket
  before : Machine Memory
  after : Machine Memory

/-- `Balanced live m closings n` is a balanced run from `m` to `n`, inside brackets that hold
their bytes in the slots `live`. It closes the brackets `closings`. -/
inductive Balanced :
    List Word → Machine Memory → List Closing → Machine Memory → Prop
  | empty (live : List Word) (m : Machine Memory) : Balanced live m [] m
  | plain {live : List Word} {m : Machine Memory} {i : Instruction}
      (instruction : m.instruction? = some i) (plain : i.usesStack = false)
      (apart : ∀ a, a ∈ (m.writes .step).map Prod.fst → a ∉ live) :
      Balanced live m [] m.step.machine
  | append {live : List Word} {m n p : Machine Memory} {early late : List Closing}
      (front : Balanced live m early n) (back : Balanced live n late p) :
      Balanced live m (early ++ late) p
  | bracket {live : List Word} {m n : Machine Memory} {inner : List Closing} (b : Bracket)
      (opens : b.Opens m) (room : (b.slots m ++ live).length ≤ 256)
      (body : Balanced (b.slots m ++ live) (b.opened m) inner n)
      (closes : n.instruction? = some b.closer) :
      Balanced live m (inner ++ [⟨b, m, n.step.machine⟩]) n.step.machine

/-- The bytes of the open brackets are on top of the stack, in the slots they were put in. -/
structure Holds (live : List Word) (m : Machine Memory) (bytes : List Byte) : Prop where
  top : m.bus.StackTop m.regs.sp bytes
  slots : ∀ a, a ∈ stackSlots m.regs.sp bytes.length → a ∈ live
  count : bytes.length = live.length

theorem Holds.plain {live : List Word} {m : Machine Memory} {bytes : List Byte}
    (h : Holds live m bytes) (sp : m.step.machine.regs.sp = m.regs.sp)
    (apart : ∀ a, a ∈ (m.writes .step).map Prod.fst → a ∉ live) :
    Holds live m.step.machine bytes := by
  have agree (a : Word) (ha : a ∈ live) : m.step.machine.bus.read a = m.bus.read a := by
    rw [Machine.step_bus, ← Machine.writes_step]
    exact Memory.read_writeAll_of_notMem _ fun written => apart a written ha
  refine ⟨?_, ?_, h.count⟩
  · rw [sp]
    exact h.top.of_agree fun a ha => agree a (h.slots a ha)
  · rw [sp]
    exact h.slots

theorem Holds.opened {live : List Word} {m : Machine Memory} {bytes : List Byte}
    (h : Holds live m bytes) {b : Bracket} (opens : b.Opens m)
    (room : (b.slots m ++ live).length ≤ 256) :
    Holds (b.slots m ++ live) (b.opened m) ((b.frame m.regs).reverse ++ bytes) := by
  have size : (b.slots m).length = (b.frame m.regs).length := by
    rw [Bracket.slots, opens.writes, List.length_map, length_pushWrites]
  have count := h.count
  rw [List.length_append, size] at room
  refine ⟨?_, ?_, ?_⟩
  · rw [opens.bus, opens.sp]
    exact h.top.pushAll _ (by omega)
  · intro a ha
    rw [opens.sp, List.length_append, List.length_reverse] at ha
    rw [List.mem_append, Bracket.slots, opens.writes]
    rcases mem_stackSlots_of_pushed ha with filled | used
    · exact Or.inl filled
    · exact Or.inr (h.slots a used)
  · rw [List.length_append, List.length_append, List.length_reverse, size, count]

/-- A balanced run keeps the stack pointer and every byte of the brackets around it. -/
theorem Balanced.preserves {live : List Word} {m n : Machine Memory} {closings : List Closing}
    (h : Balanced live m closings n) {bytes : List Byte} (holds : Holds live m bytes) :
    n.regs.sp = m.regs.sp ∧ Holds live n bytes ∧
      ∀ c, c ∈ closings → c.bracket.Restores c.before.regs c.after.regs := by
  induction h generalizing bytes with
  | empty live m => exact ⟨rfl, holds, fun _ hc => absurd hc List.not_mem_nil⟩
  | plain instruction plain apart =>
    have sp := Machine.step_sp_of_plain instruction plain
    exact ⟨sp, holds.plain sp apart, fun _ hc => absurd hc List.not_mem_nil⟩
  | append _ _ first second =>
    obtain ⟨sp, middle, early⟩ := first holds
    obtain ⟨sp', final, late⟩ := second middle
    refine ⟨sp'.trans sp, final, ?_⟩
    intro c hc
    rcases List.mem_append.mp hc with hc | hc
    · exact early c hc
    · exact late c hc
  | @bracket live m n inner b opens room _ closes ih =>
    obtain ⟨sp, still, restored⟩ := ih (holds.opened opens room)
    obtain ⟨frame, rest⟩ := still.top.of_append
    obtain ⟨bus, popped, restores⟩ := Bracket.close closes frame
    have back : n.step.machine.regs.sp = m.regs.sp := by
      rw [popped, sp, opens.sp]
      grind
    refine ⟨back, ⟨?_, ?_, holds.count⟩, ?_⟩
    · rw [bus, popped, ← List.length_reverse]
      exact rest
    · rw [back]
      exact holds.slots
    · intro c hc
      rcases List.mem_append.mp hc with hc | hc
      · exact restored c hc
      · rw [List.mem_singleton.mp hc]
        exact restores

/-- A balanced run ends with the stack pointer that it started with, and every closer in it
gets back what its opener saved. -/
theorem balanced_restores {m n : Machine Memory} {closings : List Closing}
    (h : Balanced [] m closings n) :
    n.regs.sp = m.regs.sp ∧
      ∀ c, c ∈ closings → c.bracket.Restores c.before.regs c.after.regs := by
  have nothing : Holds [] m [] := ⟨trivial, fun _ ha => ha, rfl⟩
  obtain ⟨sp, _, restored⟩ := h.preserves nothing
  exact ⟨sp, restored⟩

/-- A subroutine that saves the accumulator, where the stack pointer wraps. -/
def nested : Machine Memory where
  regs := { a := 0x42, sp := 0x00, pc := 0x8000 }
  cycles := 0
  config := {}
  bus := Bus.store (Bus.store (Bus.store (Bus.store Memory.zeroed 0x8000 [0x20, 0x10, 0x80])
    0x8010 [0x48, 0xA9, 0x07, 0x68, 0x60]) 0x9000 [0x40]) 0xFFFE [0x00, 0x90]

/-- A request comes in after the load, and its handler returns at once. -/
theorem balanced_restores_nested :
    ∃ closings n, Balanced [] nested closings n ∧
      closings.map Closing.bracket = [.hostInterrupt Vectors.irq, .accumulator, .call] ∧
      n.regs.pc = 0x8003 ∧ n.regs.sp = nested.regs.sp ∧
      ∀ c, c ∈ closings → c.bracket.Restores c.before.regs c.after.regs := by
  let called := Bracket.call.opened nested
  let saved := Bracket.accumulator.opened called
  let loaded := saved.step.machine
  have load : Balanced (Bracket.accumulator.slots called ++ (Bracket.call.slots nested ++ []))
      saved [] loaded := by
    have silent : saved.writes .step = [] := by decide +kernel
    refine .plain (i := .lda) (by decide +kernel) rfl ?_
    rw [silent]
    exact fun _ ha => absurd ha List.not_mem_nil
  have handle := load.append (.bracket (.hostInterrupt Vectors.irq) nofun (by decide +kernel)
    (.empty _ _) (by decide +kernel))
  have save := Balanced.bracket .accumulator (by rintro i ⟨⟩; decide +kernel) (by decide +kernel)
    handle (by decide +kernel)
  have call := Balanced.bracket .call (by rintro i ⟨⟩; decide +kernel) (by decide +kernel)
    save (by decide +kernel)
  obtain ⟨sp, restores⟩ := balanced_restores call
  exact ⟨_, _, call, rfl, by decide +kernel, sp, restores⟩

end Core6502
