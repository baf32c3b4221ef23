import Core6502.Proofs.CycleBudget

/-!
# Slices of a run

Running in slices is running at once, for slices of instructions and for slices of
cycles. A slice of cycles may go past its end by part of an instruction; a host
that takes this off the next slice executes the instructions of one run, whatever
the slices are. Outcomes are compared as a whole: state, answer or fault, events.
-/

namespace Core6502

universe u

namespace Outcome

variable {M : Type u} {α β γ : Type}

theorem map_bind (o : Outcome M α) (f : Machine M → α → β) (next : Machine M → β → Outcome M γ) :
    (o.map f).bind next = o.bind fun m answer => next m (f m answer) := by
  simp only [map_eq_bind, bind_assoc, done_bind]

theorem bind_map (o : Outcome M α) (next : Machine M → α → Outcome M β) (f : Machine M → β → γ) :
    (o.bind next).map f = o.bind fun m answer => (next m answer).map f := by
  simp only [map_eq_bind, bind_assoc]

/-- What comes next matters only for the answer that there is. -/
theorem bind_congr {o : Outcome M α} {f g : Machine M → α → Outcome M β}
    (h : ∀ answer, o.result = .ok answer → f o.machine answer = g o.machine answer) :
    o.bind f = o.bind g := by
  cases result : o.result with
  | error fault => rw [bind_of_error result, bind_of_error result]
  | ok answer => rw [bind_of_ok result, bind_of_ok result, h answer result]

end Outcome

def totalCycles (slices : List UInt64) : Nat :=
  (slices.map UInt64.toNat).sum

namespace Machine

variable {M : Type u} [Bus M]

theorem run_add (m : Machine M) (a b : Nat) :
    m.run (a + b) = (m.run a).bind fun n x => (n.run b).map fun _ y => x + y := by
  simp only [run_eq_map, runSteps_add, Outcome.bind_map, Outcome.map_bind, Outcome.map_map]

theorem spent_add (m : Machine M) (a b : Nat) :
    m.spent (a + b) = m.spent a + (m.afterSteps a).spent b := by
  induction a generalizing m with
  | zero => simp [spent, afterSteps]
  | succ a ih =>
    have rest := ih m.step.machine
    rw [Nat.succ_add, spent, rest, spent, afterSteps]
    omega

/-- What a budget leaves of a greater one completes it, also if nothing is left. -/
theorem exists_rest {m : Machine M} {a b : UInt64}
    (room : m.cycles.toNat + b.toNat + 6 ≤ 2 ^ 64 - 1) {k : Nat} {o : Outcome M Unit}
    (first : m.Spends a k o) :
    ∃ j p, Loops (below (m.cycles.toNat + b.toNat)) j o.machine p ∧ o.machine.Fits j ∧
      o.machine.runForCycles (.ofNat (b.toNat - m.spent k)) =
        p.map fun n _ => n.cycles - o.machine.cycles := by
  have counter := first.counter
  have size := b.toNat_lt
  have left : (UInt64.ofNat (b.toNat - m.spent k)).toNat = b.toNat - m.spent k := by
    rw [UInt64.toNat_ofNat']
    omega
  by_cases exceeded : b.toNat < m.spent k
  · have done : o.machine.below (m.cycles.toNat + b.toNat) = false :=
      decide_eq_false (by omega)
    have nothing : b.toNat - m.spent k = 0 := by omega
    refine ⟨0, _, .stop done, ?_, ?_⟩
    · simpa [Fits, spent] using o.machine.cycles.toNat_lt
    · rw [nothing, Outcome.map, Outcome.done, UInt64.sub_self]
      exact o.machine.runForCycles_zero
  · have target : o.machine.cycles.toNat + (UInt64.ofNat (b.toNat - m.spent k)).toNat =
        m.cycles.toNat + b.toNat := by omega
    obtain ⟨j, p, rest⟩ := exists_spends (target ▸ room)
    exact ⟨j, p, target ▸ rest.loop, rest.fits, rest.effect⟩

/-- A budget can be spent in two parts. -/
theorem runForCycles_split {m : Machine M} {a b : UInt64} (le : a ≤ b)
    (room : m.cycles.toNat + b.toNat + 6 ≤ 2 ^ 64 - 1) :
    m.runForCycles b = (m.runForCycles a).bind fun n c =>
      (n.runForCycles (.ofNat (b.toNat - c.toNat))).map fun _ d => c + d := by
  rw [UInt64.le_iff_toNat_le] at le
  have fits : m.cycles.toNat + a.toNat + 6 ≤ 2 ^ 64 - 1 := by omega
  obtain ⟨k, o, first⟩ := exists_spends fits
  have goal : m.goal b = m.cycles.toNat + b.toNat := by
    rw [Machine.goal]
    omega
  have weaker : ∀ n : Machine M, n.below (m.cycles.toNat + a.toNat) = true →
      n.below (m.cycles.toNat + b.toNat) = true := by
    intro n
    rw [below_iff, below_iff]
    omega
  rw [first.effect, Outcome.map_bind]
  cases result : o.result with
  | error fault =>
    have whole := first.loop.weaken result weaker
    rw [← goal] at whole
    rw [whole.runForCycles_eq first.fits, Outcome.bind_of_error result, Outcome.map, result]
    rfl
  | ok answer =>
    obtain ⟨j, p, loop, fits, effect⟩ := exists_rest room first
    have whole := first.loop.append result weaker loop
    have bounded : m.Fits (j + k) := by
      have counter := first.counter
      rw [first.loop.machine_eq] at counter fits
      rw [Fits, counter] at fits
      rw [Fits, Nat.add_comm j k, spent_add]
      omega
    rw [← goal] at whole
    rw [whole.runForCycles_eq bounded, Outcome.bind_map]
    refine Outcome.bind_congr fun _ _ => ?_
    rw [first.toNat_consumed, effect, Outcome.map_map]
    congr 1
    funext n _
    grind

/-- A host that runs slices of cycles one after another and takes what it has overrun off the
slices to come. -/
def runSlices (m : Machine M) (overrun : Nat) : List UInt64 → Outcome M UInt64
  | [] => .done m 0
  | slice :: rest =>
    (m.runForCycles (.ofNat (slice.toNat - overrun))).bind fun n c =>
      (n.runSlices (overrun + c.toNat - slice.toNat) rest).map fun _ d => c + d

theorem runForCycles_counter {m : Machine M} {budget : UInt64}
    (room : m.cycles.toNat + budget.toNat + 6 ≤ 2 ^ 64 - 1) {c : UInt64}
    (result : (m.runForCycles budget).result = .ok c) :
    (m.runForCycles budget).machine.cycles.toNat = m.cycles.toNat + c.toNat ∧
      budget.toNat ≤ c.toNat := by
  obtain ⟨k, o, h⟩ := exists_spends room
  obtain ⟨consumed, enough⟩ := h.consumed_bounds result
  refine ⟨?_, enough⟩
  rw [h.effect, consumed]
  exact h.counter

theorem runSlices_eq (m : Machine M) (overrun : Nat) (slices : List UInt64)
    (room : overrun < totalCycles slices →
      m.cycles.toNat + (totalCycles slices - overrun) + 6 ≤ 2 ^ 64 - 1) :
    m.runSlices overrun slices = m.runForCycles (.ofNat (totalCycles slices - overrun)) := by
  induction slices generalizing m overrun with
  | nil =>
    have empty : totalCycles [] - overrun = 0 := by simp [totalCycles]
    rw [empty]
    exact m.runForCycles_zero.symm
  | cons slice rest ih =>
    have sum : totalCycles (slice :: rest) = slice.toNat + totalCycles rest := by simp [totalCycles]
    have size := slice.toNat_lt
    have first : (UInt64.ofNat (slice.toNat - overrun)).toNat = slice.toNat - overrun := by
      rw [UInt64.toNat_ofNat']
      omega
    rw [runSlices]
    by_cases due : overrun < totalCycles (slice :: rest)
    · have room := room due
      have all : (UInt64.ofNat (totalCycles (slice :: rest) - overrun)).toNat =
          totalCycles (slice :: rest) - overrun := by
        rw [UInt64.toNat_ofNat']
        omega
      have le : UInt64.ofNat (slice.toNat - overrun) ≤
          .ofNat (totalCycles (slice :: rest) - overrun) := by
        rw [UInt64.le_iff_toNat_le]
        omega
      rw [runForCycles_split le (by omega)]
      refine Outcome.bind_congr fun c result => ?_
      obtain ⟨counter, enough⟩ := runForCycles_counter (by omega) result
      rw [ih _ _ (by omega), all, sum]
      congr 3
      omega
    · have none : slice.toNat - overrun = 0 := by omega
      have settled : totalCycles (slice :: rest) - overrun = 0 := by omega
      have later : totalCycles rest - (overrun - slice.toNat) = 0 := by omega
      have nothing := ih m (overrun - slice.toNat) (by omega)
      have zero : UInt64.ofNat 0 = 0 := rfl
      rw [later, zero, runForCycles_zero] at nothing
      rw [none, settled, zero, runForCycles_zero, Outcome.done_bind, UInt64.toNat_zero,
        Nat.add_zero, nothing]
      rfl

/-- Slicing a run does not change it. -/
theorem slices_run_at_once (m : Machine M) :
    (∀ a b, m.run (a + b) = (m.run a).bind fun n x => (n.run b).map fun _ y => x + y) ∧
    (∀ a b : UInt64, a ≤ b → m.cycles.toNat + b.toNat + 6 ≤ 2 ^ 64 - 1 →
      m.runForCycles b = (m.runForCycles a).bind fun n c =>
        (n.runForCycles (.ofNat (b.toNat - c.toNat))).map fun _ d => c + d) ∧
    ∀ slices, m.cycles.toNat + totalCycles slices + 6 ≤ 2 ^ 64 - 1 →
      m.runSlices 0 slices = m.runForCycles (.ofNat (totalCycles slices)) :=
  ⟨m.run_add, fun _ _ => runForCycles_split,
    fun slices room => m.runSlices_eq 0 slices fun _ => room⟩

/-- Slices of one cycle each: the second one is spent by the first instruction. -/
theorem slices_run_at_once_stumbling :
    stumbling.runForCycles 3 = ((stumbling.runForCycles 1).bind fun n c =>
      (n.runForCycles (.ofNat (3 - c.toNat))).map fun _ d => c + d) ∧
    stumbling.runSlices 0 [1, 1, 1] = stumbling.runForCycles 3 := by
  obtain ⟨_, split, slices⟩ := slices_run_at_once stumbling
  exact ⟨split 1 3 (by decide) (by decide), slices [1, 1, 1] (by decide)⟩

end Machine

end Core6502
