import Mathlib.Algebra.Ring.Nat
import Mathlib.Order.Bounds.Defs
import Core6502.Proofs.Runs
import Core6502.Proofs.StepCost

/-!
# Cycle budgets

Every step that succeeds costs from two to seven cycles, so the loop that spends a
budget gets nearer to its target with every step and goes past it by no more than
six cycles. As long as the counter does not overflow, that loop is a run of the
least count of steps that spend the budget, or a run into the first fault. The
exact count of cycles spent is a natural number beside the counter.
-/

namespace Core6502

universe u

theorem Opcode.decode_cycles {opcode : Byte} {e : Encoding} (h : decode opcode = some e) :
    2 ≤ e.cycles ∧ e.cycles ≤ 7 ∧ (e.mode = .relative → e.cycles = 2) := by
  have row := of_rows (p := fun e => decide
    (2 ≤ e.cycles ∧ e.cycles ≤ 7 ∧ (e.mode = .relative → e.cycles = 2))) (by decide +kernel) h
  exact of_decide_eq_true row

namespace Machine

variable {M : Type u} [Bus M]

/-- A branch that is taken costs three cycles, less than many other instructions. -/
theorem stepCost_bounds {m : Machine M} {e : Encoding} (h : m.encoding? = some e) :
    2 ≤ m.stepCost ∧ m.stepCost ≤ 7 := by
  obtain ⟨least, greatest, branch⟩ := Opcode.decode_cycles h
  simp only [stepCost, h]
  cases op : e.instruction.operation with
  | branch flag value =>
    have two := branch (mode_of_encoding h op fun _ => rfl)
    simp only [Operation.extraCycles]
    split <;> omega
  | _ =>
    simp only [Operation.extraCycles]
    omega

theorem stepCost_bounds_of_ok {m : Machine M} (h : m.step.result = .ok ()) :
    2 ≤ m.stepCost ∧ m.stepCost ≤ 7 := by
  obtain ⟨e, he⟩ := Option.isSome_iff_exists.mp (step_ok_iff.mp h)
  exact stepCost_bounds he

theorem stepCost_le (m : Machine M) : m.stepCost ≤ 7 := by
  cases h : m.encoding? with
  | none => simp [stepCost, h]
  | some e => exact (stepCost_bounds h).2

theorem stepCost_of_error {m : Machine M} {fault : Fault} (h : m.step.result = .error fault) :
    m.stepCost = 0 := by
  simp only [stepCost, (step_error_iff.mp h).1]

/-- Cycles that the first `count` steps are charged. -/
def spent (m : Machine M) : Nat → Nat
  | 0 => 0
  | n + 1 => m.stepCost + m.step.machine.spent n

/-- The counter does not overflow during the first `count` steps. -/
def Fits (m : Machine M) (count : Nat) : Prop :=
  m.cycles.toNat + m.spent count < 2 ^ 64

theorem spent_succ (m : Machine M) (n : Nat) :
    m.spent (n + 1) = m.spent n + (m.afterSteps n).stepCost := by
  induction n generalizing m with
  | zero => simp [spent, afterSteps]
  | succ n ih =>
    have rest := ih m.step.machine
    rw [spent, rest, spent, afterSteps]
    omega

theorem spent_mono (m : Machine M) {k n : Nat} (le : k ≤ n) : m.spent k ≤ m.spent n := by
  induction n with
  | zero =>
    obtain rfl : k = 0 := by omega
    exact Nat.le_refl _
  | succ n ih =>
    by_cases last : k = n + 1
    · exact last ▸ Nat.le_refl _
    · have := ih (by omega)
      rw [spent_succ]
      omega

theorem Fits.mono {m : Machine M} {k n : Nat} (h : m.Fits n) (le : k ≤ n) : m.Fits k := by
  have := m.spent_mono le
  rw [Fits] at h ⊢
  omega

/-- The counter modulo its size. -/
theorem cycles_afterSteps (m : Machine M) (n : Nat) :
    (m.afterSteps n).cycles = m.cycles + (m.spent n).toUInt64 := by
  induction n generalizing m with
  | zero => simp [afterSteps, spent]
  | succ n ih =>
    have sum : (m.spent (n + 1)).toUInt64 =
        m.stepCost.toUInt64 + (m.step.machine.spent n).toUInt64 := UInt64.ofNat_add ..
    rw [afterSteps, ih, step_cycles, sum, UInt64.add_assoc]

theorem Fits.toNat_cycles {m : Machine M} {n : Nat} (h : m.Fits n) :
    (m.afterSteps n).cycles.toNat = m.cycles.toNat + m.spent n := by
  rw [Fits] at h
  rw [cycles_afterSteps, UInt64.toNat_add, UInt64.toNat_ofNat']
  omega

theorem two_mul_le_spent {m : Machine M} {n : Nat} (h : m.Completes n) : 2 * n ≤ m.spent n := by
  induction n generalizing m with
  | zero => simp [spent]
  | succ n ih =>
    obtain ⟨first, rest⟩ := completes_succ_iff.mp h
    have cost := (stepCost_bounds_of_ok first).1
    have others := ih rest
    rw [spent]
    omega

def below (target : Nat) (m : Machine M) : Bool :=
  m.cycles.toNat < target

omit [Bus M] in
theorem below_iff {target : Nat} {m : Machine M} :
    m.below target = true ↔ m.cycles.toNat < target :=
  decide_eq_true_iff

/-- A loop up to a target that the counter can pass ends, and the counter does not overflow. -/
theorem exists_loop (target : Nat) (room : target + 6 < 2 ^ 64) (m : Machine M) :
    ∃ k o, Loops (below target) k m o ∧ m.Fits k := by
  induction distance : target - m.cycles.toNat using Nat.strongRecOn generalizing m with
  | ind d ih =>
    have size := m.cycles.toNat_lt
    by_cases going : m.cycles.toNat < target
    · have more : m.below target = true := below_iff.mpr going
      cases first : m.step.result with
      | error fault =>
        refine ⟨1, _, .fail more first, ?_⟩
        simpa [Fits, spent, stepCost_of_error first] using size
      | ok answer =>
        obtain ⟨least, greatest⟩ := stepCost_bounds_of_ok first
        have fits : m.Fits 1 := by
          rw [Fits, spent, spent]
          omega
        have counter : m.step.machine.cycles.toNat = m.cycles.toNat + m.stepCost :=
          fits.toNat_cycles
        obtain ⟨k, o, rest, bounded⟩ := ih _ (by omega) m.step.machine rfl
        refine ⟨k + 1, _, .next more first rest, ?_⟩
        rw [Fits, counter] at bounded
        rw [Fits, spent]
        omega
    · refine ⟨0, _, .stop ?_, by simpa [Fits, spent] using size⟩
      simpa [below] using going

def goal (m : Machine M) (budget : UInt64) : Nat :=
  min (m.cycles.toNat + budget.toNat) (2 ^ 64 - 1)

omit [Bus M] in
theorem toNat_cycleTarget (m : Machine M) (budget : UInt64) :
    (m.cycleTarget budget).toNat = m.goal budget := by
  have size : UInt64.size = 2 ^ 64 := rfl
  rw [cycleTarget, goal, UInt64.toNat_ofNat']
  omega

end Machine

namespace Loops

variable {M : Type u} [Bus M] {m : Machine M} {target k : Nat} {o : Outcome M Unit}

/-- Every step that succeeds takes the counter two cycles nearer to the target. -/
theorem attempts_le (h : Loops (Machine.below target) k m o) (fits : m.Fits k) :
    2 * k ≤ target - m.cycles.toNat + 1 := by
  cases k with
  | zero => omega
  | succ j =>
    have last := Machine.below_iff.mp (h.going j (by omega))
    have spent := Machine.two_mul_le_spent h.completes_pred
    rw [(fits.mono (Nat.le_succ j)).toNat_cycles] at last
    rw [Nat.add_sub_cancel] at spent
    omega

/-- The last step takes the counter past the target by at most six cycles. -/
theorem overshoot_le (h : Loops (Machine.below target) k m o) (fits : m.Fits k) (begun : k ≠ 0) :
    m.cycles.toNat + m.spent k ≤ target + 6 := by
  obtain ⟨j, rfl⟩ : ∃ j, k = j + 1 := ⟨k - 1, by omega⟩
  have last := Machine.below_iff.mp (h.going j (by omega))
  have cost := (m.afterSteps j).stepCost_le
  rw [(fits.mono (Nat.le_succ j)).toNat_cycles] at last
  rw [Machine.spent_succ]
  omega

theorem target_le (h : Loops (Machine.below target) k m o) (ok : o.result = .ok ()) :
    target ≤ o.machine.cycles.toNat := by
  have finished := (h.completes_of_ok ok).2
  have := mt Machine.below_iff.mpr (Bool.eq_false_iff.mp finished)
  omega

theorem toNat_cycles (h : Loops (Machine.below target) k m o) (fits : m.Fits k) :
    o.machine.cycles.toNat = m.cycles.toNat + m.spent k := by
  rw [h.machine_eq, fits.toNat_cycles]

/-- The fuel of the bounded loop suffices. -/
theorem runForCycles_eq {budget : UInt64} (h : Loops (Machine.below (m.goal budget)) k m o)
    (fits : m.Fits k) : m.runForCycles budget = o.map fun n _ => n.cycles - m.cycles := by
  have condition : (fun n : Machine M => decide (n.cycles < m.cycleTarget budget)) =
      Machine.below (m.goal budget) := by
    funext n
    simp only [Machine.below, UInt64.lt_iff_toNat_lt, Machine.toNat_cycleTarget]
  have enough : k ≤ (m.cycleTarget budget).toNat - m.cycles.toNat := by
    have := h.attempts_le fits
    rw [Machine.toNat_cycleTarget]
    omega
  simp only [Machine.runForCycles, condition]
  rw [h.steps_eq enough]

end Loops

namespace Machine

variable {M : Type u} [Bus M]

structure Spends (m : Machine M) (budget : UInt64) (k : Nat) (o : Outcome M Unit) : Prop where
  loop : Loops (below (m.cycles.toNat + budget.toNat)) k m o
  fits : m.Fits k
  effect : m.runForCycles budget = o.map fun n _ => n.cycles - m.cycles
  counter : o.machine.cycles.toNat = m.cycles.toNat + m.spent k
  steps_le : k ≤ (budget.toNat + 1) / 2
  spent_le : budget ≠ 0 → m.spent k ≤ budget.toNat + 6
  le_spent : o.result = .ok () → budget.toNat ≤ m.spent k

theorem exists_spends {m : Machine M} {budget : UInt64}
    (room : m.cycles.toNat + budget.toNat + 6 ≤ 2 ^ 64 - 1) : ∃ k o, m.Spends budget k o := by
  obtain ⟨k, o, loop, fits⟩ := exists_loop (m.cycles.toNat + budget.toNat) (by omega) m
  have goal : m.goal budget = m.cycles.toNat + budget.toNat := by
    rw [Machine.goal]
    omega
  have counter := loop.toNat_cycles fits
  have steps := loop.attempts_le fits
  refine ⟨k, o, loop, fits, Loops.runForCycles_eq (by rwa [goal]) fits, counter, by omega, ?_, ?_⟩
  · intro some
    by_cases begun : k = 0
    · subst begun
      simp [spent]
    · have := loop.overshoot_le fits begun
      omega
  · intro ok
    have := loop.target_le ok
    omega

/-- The cycles consumed are those of the steps. -/
theorem Spends.toNat_consumed {m : Machine M} {budget : UInt64} {k : Nat} {o : Outcome M Unit}
    (h : m.Spends budget k o) : (o.machine.cycles - m.cycles).toNat = m.spent k := by
  have counter := h.counter
  have le : m.cycles ≤ o.machine.cycles := by
    rw [UInt64.le_iff_toNat_le]
    omega
  rw [UInt64.toNat_sub_of_le _ _ le]
  omega

theorem Spends.consumed_bounds {m : Machine M} {budget : UInt64} {k : Nat} {o : Outcome M Unit}
    (h : m.Spends budget k o) {c : UInt64} (result : (m.runForCycles budget).result = .ok c) :
    c.toNat = m.spent k ∧ budget.toNat ≤ c.toNat := by
  have consumed := h.toNat_consumed
  have enough := h.le_spent
  rw [h.effect] at result
  obtain ⟨n, fault | answer, events⟩ := o
  · cases result
  · cases result
    exact ⟨consumed, by rw [consumed]; exact enough rfl⟩

/-- Nothing happens on an empty budget. -/
theorem runForCycles_zero (m : Machine M) : m.runForCycles 0 = .done m 0 := by
  have size := m.cycles.toNat_lt
  have finished : m.below (m.goal 0) = false := by
    rw [below, goal, UInt64.toNat_zero]
    exact decide_eq_false (by omega)
  have fits : m.Fits 0 := by simpa [Fits, spent] using size
  rw [(Loops.stop finished).runForCycles_eq fits, Outcome.map, Outcome.done, UInt64.sub_self]
  rfl

/-- A fault before the budget is spent ends the run there. -/
theorem runForCycles_of_fault {m : Machine M} {budget : UInt64} {k : Nat} {fault : Fault}
    (completes : m.Completes k) (short : m.cycles.toNat + m.spent k < m.goal budget)
    (stuck : (m.afterSteps k).step.result = .error fault) :
    (m.runForCycles budget).result = .error fault ∧
      (m.runForCycles budget).machine = m.afterSteps k := by
  have limit : m.goal budget ≤ 2 ^ 64 - 1 := Nat.min_le_right _ _
  have fits : m.Fits (k + 1) := by
    rw [Fits, spent_succ, stepCost_of_error stuck]
    omega
  have going : ∀ j, j < k + 1 → (m.afterSteps j).below (m.goal budget) = true := by
    intro j hj
    have counter := (fits.mono (Nat.le_of_lt hj)).toNat_cycles
    have less := m.spent_mono (Nat.le_of_lt_succ hj)
    rw [below_iff]
    omega
  have loop := Loops.of_fault completes stuck going
  obtain ⟨result, machine⟩ := runSteps_of_fault completes stuck (Nat.lt_succ_self k)
  rw [loop.runForCycles_eq fits]
  exact ⟨Outcome.map_of_error result _, machine⟩

/-- The cycles that a budget of this size can cost. -/
theorem Spends.consumed_range {m : Machine M} {budget : UInt64} {k : Nat} {o : Outcome M Unit}
    (h : m.Spends budget k o) {c : UInt64} (result : (m.runForCycles budget).result = .ok c) :
    if budget = 0 then c = 0 else budget.toNat ≤ c.toNat ∧ c.toNat ≤ budget.toNat + 6 := by
  obtain ⟨consumed, enough⟩ := h.consumed_bounds result
  by_cases empty : budget = 0
  · subst empty
    have none : k = 0 := by simpa using h.steps_le
    rw [if_pos rfl]
    apply UInt64.toNat_inj.mp
    rw [consumed, none]
    rfl
  · rw [if_neg empty, consumed]
    exact ⟨by omega, h.spent_le empty⟩

end Machine

namespace Loops

variable {M : Type u} [Bus M] {m : Machine M} {budget : UInt64} {k : Nat} {o : Outcome M Unit}

/-- A loop that spends its budget takes no step more than it has to. -/
theorem isLeast_of_ok (h : Loops (Machine.below (m.goal budget)) k m o) (fits : m.Fits k)
    (ok : o.result = .ok ()) :
    IsLeast {j | m.Completes j ∧ m.goal budget ≤ (m.afterSteps j).cycles.toNat} k ∧
      (m.runForCycles budget).result = .ok ((m.afterSteps k).cycles - m.cycles) := by
  refine ⟨⟨⟨(h.completes_of_ok ok).1, ?_⟩, ?_⟩, ?_⟩
  · rw [← h.machine_eq]
    exact h.target_le ok
  · rintro j ⟨_, reached⟩
    refine Nat.le_of_not_lt fun fewer => ?_
    have before := Machine.below_iff.mp (h.going j fewer)
    omega
  · rw [h.runForCycles_eq fits, ← h.machine_eq]
    exact Outcome.map_of_ok ok _

/-- A run of the steps that the loop takes, or of more if it meets a fault, has its effect. -/
theorem runForCycles_eq_run (h : Loops (Machine.below (m.goal budget)) k m o) (fits : m.Fits k)
    {n : Nat} (all : m.runSteps n = o) :
    m.runForCycles budget = (m.run n).map fun r _ => r.cycles - m.cycles := by
  rw [h.runForCycles_eq fits, Machine.run_eq_map, Outcome.map_map, all]

end Loops

namespace Machine

variable {M : Type u} [Bus M]

/-- Two instructions that do nothing, then an illegal byte. -/
def stumbling : Machine Memory where
  regs := { sp := 0xFD, pc := 0x8000 }
  cycles := 5
  config := {}
  bus := ((Memory.zeroed.write 0x8000 0xEA).write 0x8001 0xEA).write 0x8002 0x02

theorem completes_stumbling : stumbling.Completes 2 := by
  refine completes_succ_iff.mpr ⟨?_, completes_succ_iff.mpr ⟨?_, completes_zero _⟩⟩
  · exact step_ok_iff.mpr (by decide +kernel)
  · exact step_ok_iff.mpr (by decide +kernel)

theorem fault_stumbling :
    (stumbling.afterSteps 2).step.result = .error (.illegalOpcode 0x02 0x8002) :=
  step_error_iff.mpr ⟨by decide +kernel, by decide +kernel⟩

/-- Spending a budget of cycles is a run of steps. If the counter has room for the budget and
one more instruction, the loop ends, after at most half as many steps as cycles, and consumes
the budget and at most six cycles more. Whenever it ends and the counter has not overflowed,
it was a run of the least count of steps that spend the budget, or a run into a fault. The
greatest budget ends only in a fault. -/
theorem runForCycles_refines_run (m : Machine M) (budget : UInt64) :
    let target := min (m.cycles.toNat + budget.toNat) (2 ^ 64 - 1)
    (m.cycles.toNat + budget.toNat + 6 ≤ 2 ^ 64 - 1 →
      (∃ k o, Loops (below target) k m o ∧ k ≤ (budget.toNat + 1) / 2 ∧ m.Fits k ∧
        m.cycles ≤ o.machine.cycles) ∧
      ∀ c, (m.runForCycles budget).result = .ok c →
        if budget = 0 then c = 0 else budget.toNat ≤ c.toNat ∧ c.toNat ≤ budget.toNat + 6) ∧
    (∀ k o, Loops (below target) k m o → m.Fits k →
      m.runForCycles budget = (m.run k).map (fun n _ => n.cycles - m.cycles) ∧
      match o.result with
      | .ok _ =>
        IsLeast {j | m.Completes j ∧ target ≤ (m.afterSteps j).cycles.toNat} k ∧
        (m.runForCycles budget).result = .ok ((m.afterSteps k).cycles - m.cycles)
      | .error fault => ∀ n, k ≤ n →
        (m.run n).result = .error fault ∧
        m.runForCycles budget = (m.run n).map fun r _ => r.cycles - m.cycles) ∧
    ∀ k fault, m.Completes k → m.cycles.toNat + m.spent k < 2 ^ 64 - 1 →
      (m.afterSteps k).step.result = .error fault →
      (m.runForCycles (.ofNat (2 ^ 64 - 1))).result = .error fault ∧
        (m.runForCycles (.ofNat (2 ^ 64 - 1))).machine = m.afterSteps k := by
  intro target
  refine ⟨?_, ?_, ?_⟩
  · intro room
    obtain ⟨k, o, h⟩ := exists_spends room
    have reach : target = m.cycles.toNat + budget.toNat := by omega
    have counter := h.counter
    refine ⟨⟨k, o, by rw [reach]; exact h.loop, h.steps_le, h.fits, ?_⟩, fun _ => h.consumed_range⟩
    rw [UInt64.le_iff_toNat_le]
    omega
  · intro k o loop fits
    refine ⟨loop.runForCycles_eq_run fits loop.runSteps_eq, ?_⟩
    cases result : o.result with
    | ok answer => exact loop.isLeast_of_ok fits result
    | error fault =>
      intro n le
      have all := loop.runSteps_eq_of_error result le
      refine ⟨?_, loop.runForCycles_eq_run fits all⟩
      rw [run_eq_map, all]
      exact Outcome.map_of_error result _
  · intro k fault completes short stuck
    refine runForCycles_of_fault completes ?_ stuck
    rw [goal, UInt64.toNat_ofNat']
    omega

theorem runForCycles_refines_run_stumbling :
    (∃ k o, Loops (below 8) k stumbling o ∧ k ≤ 2 ∧ stumbling.runForCycles 3 =
      (stumbling.run k).map fun n _ => n.cycles - stumbling.cycles) ∧
    (∀ c, (stumbling.runForCycles 3).result = .ok c → 3 ≤ c.toNat ∧ c.toNat ≤ 9) ∧
    (stumbling.runForCycles (.ofNat (2 ^ 64 - 1))).result = .error (.illegalOpcode 0x02 0x8002) ∧
    (stumbling.runForCycles (.ofNat (2 ^ 64 - 1))).machine = stumbling.afterSteps 2 := by
  obtain ⟨ends, refines, unlimited⟩ := runForCycles_refines_run stumbling 3
  obtain ⟨⟨k, o, loop, le, fits, _⟩, bounds⟩ := ends (by decide)
  refine ⟨⟨k, o, loop, le, (refines k o loop fits).1⟩, bounds, ?_⟩
  exact unlimited 2 _ completes_stumbling (by decide +kernel) fault_stumbling

end Machine

end Core6502
