import Mathlib.Algebra.Ring.Nat
import Core6502.Proofs.Locality
import Core6502.Proofs.StackTop

/-!
# Transparent interrupts

A program runs twice from one state, once alone and once with interrupts between
its steps whose handler returns at once. An interrupt leaves three bytes in slots
below the stack pointer, which are stale until the program writes there. As long
as no step of the program depends on a stale slot, the runs agree in all registers
and flags, and in memory outside the stale slots. Each interrupt costs 13 cycles.
-/

namespace Core6502

namespace Machine

def Enters (m : Machine Memory) (call : HostCall) : Prop :=
  (∃ vector, call = .interrupt vector) ∨
    call = .irqIfEnabled ∧ (m.perform call).result = .ok (.taken true)

/-- A request is granted exactly if requests are enabled. -/
theorem granted_iff (m : Machine Memory) :
    (m.perform .irqIfEnabled).result = .ok (.taken true) ↔
      m.regs.status.interruptDisable = false := by
  rw [result_irqIfEnabled]
  constructor
  · intro granted
    simpa using granted
  · intro enabled
    rw [enabled]
    rfl

/-- What enters an interrupt is an interrupt through some vector. -/
theorem Enters.interrupt {m : Machine Memory} {call : HostCall} (h : m.Enters call) :
    ∃ vector, (m.perform call).machine = (m.interrupt vector).machine ∧
      m.writes call = m.writes (.interrupt vector) := by
  rcases h with ⟨vector, rfl⟩ | ⟨rfl, granted⟩
  · exact ⟨vector, rfl, rfl⟩
  · have enabled := m.granted_iff.mp granted
    refine ⟨Vectors.irq, ?_, ?_⟩
    · rw [perform_irqIfEnabled, enabled]
      rfl
    · rw [writes_irqIfEnabled, enabled]
      rfl

/-- An entry and the return from it restore all registers. The pushed bytes stay behind. -/
theorem interrupt_return (m : Machine Memory) (vector : Word)
    (handler : (m.interrupt vector).machine.bus.read (m.interrupt vector).machine.regs.pc =
      0x40) :
    (m.interrupt vector).machine.step.machine =
      { m with
        cycles := m.cycles + 13
        bus := Bus.writeAll m.bus (m.writes (.interrupt vector)) } := by
  have decoded : Opcode.decode 0x40 = some ⟨.rti, .implied, 6⟩ := by decide
  have encoding : (m.interrupt vector).machine.encoding? = some ⟨.rti, .implied, 6⟩ :=
    (congrArg Opcode.decode handler).trans decoded
  have entry : (m.interrupt vector).machine =
      (m.enterInterrupt vector).machine.charge interruptCycles := rfl
  rw [enterInterrupt_machine] at entry
  have empty : m.bus.StackTop m.regs.sp [] := trivial
  have frame := empty.pushAll (interruptFrame m.regs.pc m.regs.status) (by simp [interruptFrame])
  have top : (m.interrupt vector).machine.bus.StackTop (m.interrupt vector).machine.regs.sp
      [m.regs.status.toByte, Word.low m.regs.pc, Word.high m.regs.pc] := by
    rw [entry]
    exact frame
  have returned := step_returnFromInterrupt encoding rfl top
  have sp : m.regs.sp - 3 + 3 = m.regs.sp := UInt8.sub_add_cancel m.regs.sp 3
  have cycles : m.cycles + 7 + 6 = m.cycles + 13 := UInt64.add_assoc m.cycles 7 6
  rw [returned, entry, writes_interrupt]
  simp only [charge, interruptCycles, sp, Status.ofByte_toByte, Word.ofBytes_high_low]
  congr 1

end Machine

/-- What happens next: a step of the program, or an interrupt that returns at once. -/
inductive Move
  | program
  | service (call : HostCall)
  deriving DecidableEq

def Move.calls : Move → List HostCall
  | .program => [.step]
  | .service call => [call, .step]

/-- A program that runs alone, and the same program with interrupts. -/
structure Twins where
  alone : Machine Memory
  interrupted : Machine Memory
  /-- What interrupts have written and the program has not written since. -/
  stale : List Word
  /-- Count of interrupts so far. -/
  interrupts : Nat

namespace Twins

def start (m : Machine Memory) : Twins :=
  ⟨m, m, [], 0⟩

def next (t : Twins) : Move → Twins
  | .program =>
    { t with
      alone := t.alone.step.machine
      interrupted := t.interrupted.step.machine
      stale := t.stale.filter (· ∉ (t.interrupted.writes .step).map Prod.fst) }
  | .service call =>
    { t with
      interrupted := (t.interrupted.perform call).machine.step.machine
      stale := (t.interrupted.writes call).map Prod.fst ++ t.stale
      interrupts := t.interrupts + 1 }

def after (t : Twins) : List Move → Twins
  | [] => t
  | move :: rest => (t.next move).after rest

/-- The program does not depend on what is stale, and a handler starts with an RTI. -/
def Admits (t : Twins) : Move → Prop
  | .program => ∀ a, a ∈ t.alone.dependencies → a ∉ t.stale
  | .service call =>
    let entered := (t.interrupted.perform call).machine
    t.interrupted.Enters call ∧ entered.bus.read entered.regs.pc = 0x40

instance (t : Twins) : Decidable (t.Admits .program) :=
  List.decidableBAll (· ∉ t.stale) t.alone.dependencies

def Admissible : Twins → List Move → Prop
  | _, [] => True
  | t, move :: rest => t.Admits move ∧ (t.next move).Admissible rest

/-- Nothing tells the machines apart but stale slots of the stack and the cycles. -/
structure Agrees (t : Twins) : Prop where
  regs : t.interrupted.regs = t.alone.regs
  config : t.interrupted.config = t.alone.config
  memory : ∀ a, a ∉ t.stale → t.interrupted.bus.read a = t.alone.bus.read a
  slots : ∀ a, a ∈ t.stale → ∃ sp, a = stackSlot sp
  cycles : t.interrupted.cycles = t.alone.cycles + (13 * t.interrupts).toUInt64

theorem agrees_start (m : Machine Memory) : (start m).Agrees :=
  ⟨rfl, rfl, fun _ _ => rfl, fun _ h => absurd h List.not_mem_nil, by simp [start]⟩

theorem Agrees.sameStep {t : Twins} (h : t.Agrees) (fresh : t.Admits .program) :
    Machine.SameStep t.alone t.interrupted :=
  (Machine.sameView_of_agree h.regs h.config fun a ha => h.memory a (fresh a ha)).sameStep

theorem Agrees.program {t : Twins} (h : t.Agrees) (fresh : t.Admits .program) :
    (t.next .program).Agrees := by
  have same := h.sameStep fresh
  refine ⟨same.regs, same.config, ?_, ?_, ?_⟩
  · intro a ha
    rcases same.memory a with ⟨value, _, left, right⟩ | ⟨unwritten, left, right⟩
    · exact right.trans left.symm
    · have old : a ∉ t.stale := by
        intro stale
        apply ha
        simp only [next, Machine.writes_step, same.writes]
        exact List.mem_filter.mpr ⟨stale, decide_eq_true unwritten⟩
      exact (right.trans (h.memory a old)).trans left.symm
  · intro a ha
    exact h.slots a (List.mem_filter.mp ha).1
  · have alone := t.alone.step_cycles
    have interrupted := same.cycles
    rw [h.cycles] at interrupted
    simp only [next, alone, interrupted]
    rw [UInt64.add_assoc, UInt64.add_assoc, UInt64.add_comm t.alone.stepCost.toUInt64]

theorem Agrees.service {t : Twins} (h : t.Agrees) {call : HostCall}
    (admits : t.Admits (.service call)) : (t.next (.service call)).Agrees := by
  obtain ⟨enters, handler⟩ := admits
  obtain ⟨vector, entered, writes⟩ := enters.interrupt
  rw [entered] at handler
  have returned := t.interrupted.interrupt_return vector handler
  rw [← entered, ← writes] at returned
  refine ⟨?_, ?_, ?_, ?_, ?_⟩
  · simp only [next, returned]
    exact h.regs
  · simp only [next, returned]
    exact h.config
  · intro a ha
    simp only [next, List.mem_append, not_or] at ha
    simp only [next, returned]
    rw [Memory.read_writeAll_of_notMem _ ha.1]
    exact h.memory a ha.2
  · intro a ha
    simp only [next, List.mem_append] at ha
    rcases ha with pushed | old
    · rw [writes, Machine.writes_interrupt, Registers.pushWrites_interruptFrame] at pushed
      simp only [Registers.entryWrites, List.map_cons, List.map_nil, List.mem_cons,
        List.not_mem_nil, or_false] at pushed
      rcases pushed with rfl | rfl | rfl <;> exact ⟨_, rfl⟩
    · exact h.slots a old
  · have more : (13 * (t.interrupts + 1)).toUInt64 = (13 * t.interrupts).toUInt64 + 13 :=
      UInt64.ofNat_add ..
    simp only [next, returned, h.cycles, more]
    exact UInt64.add_assoc ..

theorem Agrees.next {t : Twins} (h : t.Agrees) {move : Move} (admits : t.Admits move) :
    (t.next move).Agrees := by
  cases move with
  | program => exact h.program admits
  | service call => exact h.service admits

theorem Agrees.after {t : Twins} (h : t.Agrees) {moves : List Move}
    (admissible : t.Admissible moves) : (t.after moves).Agrees := by
  induction moves generalizing t with
  | nil => exact h
  | cons move rest ih => exact ih (h.next admissible.1) admissible.2

theorem Admissible.append {t : Twins} {done rest : List Move}
    (h : t.Admissible (done ++ rest)) :
    t.Admissible done ∧ (t.after done).Admissible rest := by
  induction done generalizing t with
  | nil => exact ⟨trivial, h⟩
  | cons move moves ih =>
    obtain ⟨first, others⟩ := h
    exact ⟨⟨first, (ih others).1⟩, (ih others).2⟩

theorem after_append (t : Twins) (done rest : List Move) :
    t.after (done ++ rest) = (t.after done).after rest := by
  induction done generalizing t with
  | nil => rfl
  | cons move moves ih => exact ih (t.next move)

/-- The run with interrupts is a history of host calls. -/
theorem after_interrupted (t : Twins) (moves : List Move) :
    (t.after moves).interrupted = t.interrupted.performAll (moves.flatMap Move.calls) := by
  induction moves generalizing t with
  | nil => rfl
  | cons move rest ih =>
    rw [after, ih, List.flatMap_cons, Machine.performAll_append]
    cases move <;> rfl

/-- The run alone is that history without the interrupts. -/
theorem after_alone (t : Twins) (moves : List Move) :
    (t.after moves).alone =
      t.alone.performAll ((moves.filter (· = .program)).flatMap Move.calls) := by
  induction moves generalizing t with
  | nil => rfl
  | cons move rest ih =>
    cases move with
    | program =>
      rw [List.filter_cons_of_pos (by decide), List.flatMap_cons, Machine.performAll_append]
      exact ih (t.next .program)
    | service call =>
      rw [List.filter_cons_of_neg (by simp)]
      exact ih (t.next (.service call))

end Twins

/-- Interrupts are transparent: after each step of the program the runs agree, with 13 cycles
for each interrupt, and the step has the same result in both. -/
theorem interrupts_transparent (m : Machine Memory) (done rest : List Move)
    (admissible : (Twins.start m).Admissible (done ++ .program :: rest)) :
    let before := (Twins.start m).after done
    let moves := done ++ [Move.program]
    let t := (Twins.start m).after moves
    t.alone = m.performAll ((moves.filter (· = .program)).flatMap Move.calls) ∧
    t.interrupted = m.performAll (moves.flatMap Move.calls) ∧
    before.interrupted.step.result = before.alone.step.result ∧
    t.Agrees ∧
    (t.alone.cycles.toNat + 13 * t.interrupts < 2 ^ 64 →
      t.interrupted.cycles.toNat = t.alone.cycles.toNat + 13 * t.interrupts) := by
  intro before moves t
  obtain ⟨past, fresh, _⟩ := admissible.append
  have agrees : before.Agrees := (Twins.agrees_start m).after past
  have now : t.Agrees := by
    have last : t = before.next .program := Twins.after_append _ _ _
    rw [last]
    exact agrees.program fresh
  refine ⟨Twins.after_alone _ _, Twins.after_interrupted _ _, (agrees.sameStep fresh).result,
    now, ?_⟩
  intro bounded
  rw [now.cycles, UInt64.toNat_add, UInt64.toNat_ofNat']
  omega

/-- A program that loads the accumulator and pushes it, and a handler that returns. -/
def interruptible : Machine Memory where
  regs := { sp := 0x01, pc := 0x8000 }
  cycles := 0
  config := {}
  bus := ((((Memory.zeroed.write 0x8000 0xA9).write 0x8001 0x42).write 0x8002 0x48).write
    0x9000 0x40).write 0xFFFF 0x90

theorem interrupts_transparent_interruptible :
    let moves := [.service (.interrupt Vectors.irq), .program, .service .irqIfEnabled, .program]
    let t := (Twins.start interruptible).after moves
    (Twins.start interruptible).Admissible moves ∧ t.Agrees ∧
      t.interrupted.cycles.toNat = t.alone.cycles.toNat + 26 := by
  intro moves t
  have admissible : (Twins.start interruptible).Admissible moves := by
    refine ⟨⟨Or.inl ⟨_, rfl⟩, ?_⟩, ?_, ⟨Or.inr ⟨rfl, ?_⟩, ?_⟩, ?_, trivial⟩
    · decide +kernel
    · decide +kernel
    · rw [Machine.granted_iff]
      decide +kernel
    · decide +kernel
    · decide +kernel
  obtain ⟨_, _, _, agrees, exact_cycles⟩ := interrupts_transparent interruptible
    [.service (.interrupt Vectors.irq), .program, .service .irqIfEnabled] [] admissible
  exact ⟨admissible, agrees, exact_cycles (by decide +kernel)⟩

end Core6502
