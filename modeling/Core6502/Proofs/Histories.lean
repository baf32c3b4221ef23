import Core6502.Host
import Core6502.Proofs.Runs

/-!
# Histories

A history is what a host does to a machine: calls, and changes that it makes to the bus by
itself. A run is no act of its own but a series of steps, of which only the last can fail. So a
history is a list of moments, each a single act and the machine that it meets, and what holds at
every moment holds however the host bundles its steps. Nothing is assumed of the bus.
-/

namespace Core6502

universe u

inductive HostAct (M : Type u)
  | call (call : HostCall)
  /-- The host changes the bus behind the machine's back. -/
  | alter (change : M → M)

namespace HostAct

variable {M : Type u}

/-- Runs are not single acts. -/
def isSingle : HostAct M → Bool
  | call (.run _) | call (.runForCycles _) => false
  | _ => true

end HostAct

namespace Machine

variable {M : Type u} [Bus M]

def act (m : Machine M) : HostAct M → Machine M
  | .call call => (m.perform call).machine
  | .alter change => m.withBus (change m.bus)

def afterActs (m : Machine M) (acts : List (HostAct M)) : Machine M :=
  acts.foldl act m

@[simp]
theorem afterActs_nil (m : Machine M) : m.afterActs [] = m :=
  rfl

@[simp]
theorem afterActs_cons (m : Machine M) (a : HostAct M) (acts : List (HostAct M)) :
    m.afterActs (a :: acts) = (m.act a).afterActs acts :=
  rfl

theorem afterActs_replicate (m : Machine M) (count : Nat) :
    m.afterActs (List.replicate count (.call .step)) = m.afterSteps count := by
  induction count generalizing m with
  | zero => rfl
  | succ count ih => exact ih m.step.machine

/-- Steps that a loop begins. It ends when `more` no longer holds, and after a step that fails. -/
def stepsBegun (more : Machine M → Bool) : Nat → Machine M → Nat
  | 0, _ => 0
  | fuel + 1, m =>
    if more m then
      if m.step.result.isOk then stepsBegun more fuel m.step.machine + 1 else 1
    else 0

/-- A loop has the effect of the steps that it begins. -/
theorem steps_machine (more : Machine M → Bool) (fuel : Nat) (m : Machine M) :
    ((Outcome.done m ()).steps more fuel).machine = m.afterSteps (stepsBegun more fuel m) := by
  induction fuel generalizing m with
  | zero => rfl
  | succ fuel ih =>
    rw [Outcome.steps_done_succ, stepsBegun]
    by_cases going : more m = true
    · cases result : m.step.result with
      | error fault =>
        simp only [going, if_true, Outcome.bind_of_error result]
        rfl
      | ok answer =>
        simp only [going, if_true, Outcome.bind_of_ok result]
        exact ih m.step.machine
    · simp only [going]
      rfl

def unroll (m : Machine M) : HostAct M → List (HostAct M)
  | .call (.run count) => List.replicate (stepsBegun (fun _ => true) count m) (.call .step)
  | .call (.runForCycles budget) =>
    let target := m.cycleTarget budget
    let fuel := target.toNat - m.cycles.toNat
    List.replicate (stepsBegun (fun n => n.cycles < target) fuel m) (.call .step)
  | a => [a]

theorem afterActs_unroll (m : Machine M) (a : HostAct M) : m.afterActs (m.unroll a) = m.act a := by
  cases a with
  | alter change => rfl
  | call call =>
    cases call with
    | run count =>
      rw [unroll, afterActs_replicate]
      exact (steps_machine _ _ m).symm
    | runForCycles budget =>
      rw [unroll, afterActs_replicate]
      exact (steps_machine _ _ m).symm
    | _ => rfl

theorem isSingle_of_mem_unroll {m : Machine M} {a b : HostAct M} (h : b ∈ m.unroll a) :
    b.isSingle = true := by
  cases a with
  | alter change => rw [List.mem_singleton.mp h]; rfl
  | call call =>
    cases call with
    | run count => rw [List.eq_of_mem_replicate h]; rfl
    | runForCycles budget => rw [List.eq_of_mem_replicate h]; rfl
    | _ => rw [List.mem_singleton.mp h]; rfl

/-- Acts other than runs stay as they are. -/
theorem eq_of_mem_unroll {m : Machine M} {a b : HostAct M} (h : b ∈ m.unroll a)
    (other : b ≠ .call .step) : b = a := by
  cases a with
  | alter change => exact List.mem_singleton.mp h
  | call call =>
    cases call with
    | run count => exact absurd (List.eq_of_mem_replicate h) other
    | runForCycles budget => exact absurd (List.eq_of_mem_replicate h) other
    | _ => exact List.mem_singleton.mp h

end Machine

/-- A single act and the machine that it meets. -/
structure Moment (M : Type u) where
  machine : Machine M
  act : HostAct M

namespace Moment

variable {M : Type u} [Bus M]

def next (x : Moment M) : Machine M :=
  x.machine.act x.act

/-- What is executed: nothing unless the act is a step, nothing if its opcode is illegal. -/
def encoding? (x : Moment M) : Option Encoding :=
  match x.act with
  | .call .step => x.machine.encoding?
  | _ => none

def instruction? (x : Moment M) : Option Instruction :=
  x.encoding?.map Encoding.instruction

def interrupts (x : Moment M) : Bool :=
  match x.act with
  | .call (.interrupt _) => true
  | .call .irqIfEnabled => ((x.machine.perform .irqIfEnabled).result matches .ok (.taken true))
  | _ => false

theorem encoding?_eq_some_iff {x : Moment M} {e : Encoding} :
    x.encoding? = some e ↔ x.act = .call .step ∧ x.machine.encoding? = some e := by
  obtain ⟨m, a⟩ := x
  constructor
  · intro h
    unfold encoding? at h
    split at h
    · exact ⟨‹_›, h⟩
    · cases h
  · rintro ⟨step, h⟩
    cases step
    exact h

theorem instruction?_eq_some_iff {x : Moment M} {i : Instruction} :
    x.instruction? = some i ↔
      x.act = .call .step ∧ ∃ e, x.machine.encoding? = some e ∧ e.instruction = i := by
  constructor
  · intro h
    obtain ⟨e, he, hi⟩ := Option.map_eq_some_iff.mp h
    obtain ⟨step, encoding⟩ := encoding?_eq_some_iff.mp he
    exact ⟨step, e, encoding, hi⟩
  · rintro ⟨step, e, encoding, rfl⟩
    exact Option.map_eq_some_iff.mpr ⟨e, encoding?_eq_some_iff.mpr ⟨step, encoding⟩, rfl⟩

/-- A request is an interrupt exactly if requests are enabled. -/
theorem interrupts_request (m : Machine M) :
    (⟨m, .call .irqIfEnabled⟩ : Moment M).interrupts = !m.regs.status.interruptDisable := by
  simp only [interrupts, Machine.result_irqIfEnabled]
  cases m.regs.status.interruptDisable <;> rfl

/-- What is entered is an interrupt through some vector. -/
theorem next_of_interrupts {x : Moment M} (h : x.interrupts = true) :
    ∃ vector, x.next = (x.machine.interrupt vector).machine := by
  obtain ⟨m, a⟩ := x
  unfold interrupts at h
  split at h
  · rename_i vector forced
    cases forced
    exact ⟨vector, rfl⟩
  · rename_i request
    cases request
    have enabled : m.regs.status.interruptDisable = false := by
      have granted := interrupts_request m
      rw [← Bool.not_eq_true', ← granted]
      exact h
    refine ⟨Vectors.irq, ?_⟩
    simp only [next, Machine.act, Machine.perform_irqIfEnabled, enabled]
    rfl
  · cases h

end Moment

namespace Machine

variable {M : Type u} [Bus M]

def meet (m : Machine M) : List (HostAct M) → List (Moment M)
  | [] => []
  | a :: acts => ⟨m, a⟩ :: (m.act a).meet acts

/-- All moments of a history, the steps of its runs one by one. -/
def moments (m : Machine M) : List (HostAct M) → List (Moment M)
  | [] => []
  | a :: acts => m.meet (m.unroll a) ++ (m.act a).moments acts

/-- Moments that lead from one machine to another, each from where the one before it ended. -/
inductive Leads : Machine M → List (Moment M) → Machine M → Prop
  | nil (m : Machine M) : Leads m [] m
  | cons (x : Moment M) {rest : List (Moment M)} {n : Machine M} (tail : Leads x.next rest n) :
      Leads x.machine (x :: rest) n

namespace Leads

theorem append {m k n : Machine M} {front back : List (Moment M)} (first : Leads m front k)
    (second : Leads k back n) : Leads m (front ++ back) n := by
  induction first with
  | nil => exact second
  | cons x _ ih => exact .cons x (ih second)

theorem split {m n : Machine M} {front back : List (Moment M)} (h : Leads m (front ++ back) n) :
    ∃ k, Leads m front k ∧ Leads k back n := by
  induction front generalizing m with
  | nil => exact ⟨m, .nil m, h⟩
  | cons x rest ih =>
    cases h with
    | cons _ tail =>
      obtain ⟨k, first, second⟩ := ih tail
      exact ⟨k, .cons x first, second⟩

/-- A moment in the middle meets the machine that those before it lead to. -/
theorem split_cons {m n : Machine M} {front back : List (Moment M)} {x : Moment M}
    (h : Leads m (front ++ x :: back) n) : Leads m front x.machine ∧ Leads x.next back n := by
  obtain ⟨k, first, second⟩ := h.split
  cases second with
  | cons _ tail => exact ⟨first, tail⟩

/-- What holds at first and not at last is lost at some moment. -/
theorem exists_loss {m n : Machine M} {moments : List (Moment M)} (h : Leads m moments n)
    {P : Machine M → Prop} (start : P m) (finish : ¬ P n) :
    ∃ x ∈ moments, P x.machine ∧ ¬ P x.next := by
  induction h with
  | nil => exact absurd start finish
  | cons x _ ih =>
    by_cases kept : P x.next
    · obtain ⟨y, hy, lost⟩ := ih kept finish
      exact ⟨y, List.mem_cons_of_mem x hy, lost⟩
    · exact ⟨x, List.mem_cons_self, start, kept⟩

end Leads

theorem leads_meet (m : Machine M) (acts : List (HostAct M)) :
    Leads m (m.meet acts) (m.afterActs acts) := by
  induction acts generalizing m with
  | nil => exact .nil m
  | cons a acts ih => exact .cons ⟨m, a⟩ (ih (m.act a))

/-- The moments of a history lead through it. -/
theorem leads_moments (m : Machine M) (acts : List (HostAct M)) :
    Leads m (m.moments acts) (m.afterActs acts) := by
  induction acts generalizing m with
  | nil => exact .nil m
  | cons a acts ih =>
    have first := m.leads_meet (m.unroll a)
    rw [afterActs_unroll] at first
    exact first.append (ih (m.act a))

theorem moments_append (m : Machine M) (front back : List (HostAct M)) :
    m.moments (front ++ back) = m.moments front ++ (m.afterActs front).moments back := by
  induction front generalizing m with
  | nil => rfl
  | cons a acts ih => simp only [List.cons_append, moments, ih, List.append_assoc, afterActs_cons]

theorem act_mem_of_mem_meet {m : Machine M} {acts : List (HostAct M)} {x : Moment M}
    (h : x ∈ m.meet acts) : x.act ∈ acts := by
  induction acts generalizing m with
  | nil => cases h
  | cons a acts ih =>
    rcases List.mem_cons.mp h with rfl | h
    · exact List.mem_cons_self
    · exact List.mem_cons_of_mem a (ih h)

/-- A moment's act is single, and one of the host's own unless it is a step. -/
theorem act_of_mem_moments {m : Machine M} {acts : List (HostAct M)} {x : Moment M}
    (h : x ∈ m.moments acts) : x.act.isSingle = true ∧ (x.act ≠ .call .step → x.act ∈ acts) := by
  induction acts generalizing m with
  | nil => cases h
  | cons a acts ih =>
    rcases List.mem_append.mp h with first | later
    · have unrolled := act_mem_of_mem_meet first
      refine ⟨isSingle_of_mem_unroll unrolled, ?_⟩
      intro other
      rw [eq_of_mem_unroll unrolled other]
      exact List.mem_cons_self
    · obtain ⟨single, own⟩ := ih later
      exact ⟨single, fun other => List.mem_cons_of_mem a (own other)⟩

end Machine

end Core6502
