import Core6502.Execution
import Core6502.Proofs.Decoding

/-!
# Runs as repeated steps

A run is a sequence of steps that the first fault ends. A step fails exactly if
its opcode is illegal, and then it leaves the machine as it was, so a run ends in
the state before the step that fails. Sequencing associates, so a run of `a + b`
steps is one of `a` steps and then one of `b`.
-/

namespace Core6502

universe u

namespace Outcome

variable {M : Type u} {α β γ : Type}

def bind (o : Outcome M α) (next : Machine M → α → Outcome M β) : Outcome M β :=
  match o with
  | ⟨machine, .ok answer, events⟩ => (next machine answer).after events
  | ⟨machine, .error fault, events⟩ => ⟨machine, .error fault, events⟩

@[simp]
theorem after_empty (o : Outcome M α) : o.after #[] = o := by
  simp [after]

theorem after_after (o : Outcome M α) (early late : Array Event) :
    (o.after late).after early = o.after (early ++ late) := by
  simp [after, Array.append_assoc]

theorem andThen_eq_bind (o : Outcome M α) (next : Machine M → Outcome M β) :
    o.andThen next = o.bind fun m _ => next m := by
  obtain ⟨machine, fault | answer, events⟩ := o <;> rfl

theorem map_eq_bind (o : Outcome M α) (f : Machine M → α → β) :
    o.map f = o.bind fun m answer => done m (f m answer) := by
  obtain ⟨machine, fault | answer, events⟩ := o
  · rfl
  · simp [map, bind, done, after, Except.map]

theorem map_map (o : Outcome M α) (f : Machine M → α → β) (g : Machine M → β → γ) :
    (o.map f).map g = o.map fun m answer => g m (f m answer) := by
  obtain ⟨machine, fault | answer, events⟩ := o <;> rfl

@[simp]
theorem done_bind (m : Machine M) (answer : α) (next : Machine M → α → Outcome M β) :
    (done m answer).bind next = next m answer :=
  after_empty _

theorem after_bind (o : Outcome M α) (events : Array Event)
    (next : Machine M → α → Outcome M β) :
    (o.after events).bind next = (o.bind next).after events := by
  obtain ⟨machine, fault | answer, late⟩ := o
  · rfl
  · exact (after_after _ _ _).symm

theorem bind_assoc (o : Outcome M α) (f : Machine M → α → Outcome M β)
    (g : Machine M → β → Outcome M γ) :
    (o.bind f).bind g = o.bind fun m answer => (f m answer).bind g := by
  obtain ⟨machine, fault | answer, events⟩ := o
  · rfl
  · exact after_bind _ _ _

theorem bind_of_error {o : Outcome M α} {fault : Fault} (h : o.result = .error fault)
    (next : Machine M → α → Outcome M β) :
    o.bind next = ⟨o.machine, .error fault, o.events⟩ := by
  obtain ⟨machine, other | answer, events⟩ := o
  · cases h
    rfl
  · cases h

theorem bind_of_ok {o : Outcome M α} {answer : α} (h : o.result = .ok answer)
    (next : Machine M → α → Outcome M β) :
    o.bind next = (next o.machine answer).after o.events := by
  obtain ⟨machine, fault | other, events⟩ := o
  · cases h
  · cases h
    rfl

theorem map_of_error {o : Outcome M α} {fault : Fault} (h : o.result = .error fault)
    (f : Machine M → α → β) : (o.map f).result = .error fault := by
  rw [map, h]
  rfl

theorem map_of_ok {o : Outcome M α} {answer : α} (h : o.result = .ok answer)
    (f : Machine M → α → β) : (o.map f).result = .ok (f o.machine answer) := by
  rw [map, h]
  rfl

variable [Bus M]

/-- A loop looks at its condition and takes a step, whatever was reported before. -/
theorem steps_succ (more : Machine M → Bool) (fuel : Nat) (m : Machine M)
    (events : Array Event) :
    ((done m ()).after events).steps more (fuel + 1) =
      if more m then (m.step.after events).steps more fuel else (done m ()).after events := by
  have next : ((done m ()).after events).andThen Machine.step = m.step.after events := by
    rw [andThen_eq_bind, after_bind, done_bind]
  rw [steps, next]
  rfl

/-- A loop goes on from an outcome as from its machine, unless there was a fault. -/
theorem steps_eq_bind (more : Machine M → Bool) (fuel : Nat) (o : Outcome M Unit) :
    o.steps more fuel = o.bind fun m _ => (done m ()).steps more fuel := by
  induction fuel generalizing o with
  | zero =>
    obtain ⟨m, fault | answer, events⟩ := o
    · rfl
    · simp [steps, bind, done, after]
  | succ fuel ih =>
    obtain ⟨m, fault | answer, events⟩ := o
    · rfl
    have ok : (⟨m, .ok answer, events⟩ : Outcome M Unit) = (done m ()).after events := by
      simp [done, after]
    have silent := steps_succ more fuel m #[]
    rw [after_empty, after_empty] at silent
    rw [ok, after_bind, done_bind, steps_succ, silent]
    by_cases going : more m
    · rw [if_pos going, if_pos going, ih, after_bind, ← ih]
    · rw [if_neg going, if_neg going]

theorem steps_done_succ (more : Machine M → Bool) (fuel : Nat) (m : Machine M) :
    (done m ()).steps more (fuel + 1) =
      if more m then m.step.bind fun n _ => (done n ()).steps more fuel else done m () := by
  have first := steps_succ more fuel m #[]
  rw [after_empty, after_empty] at first
  rw [first, steps_eq_bind]

end Outcome

/-- The loop that goes on while `more` holds, without any bound on its steps. It begins
`attempts` steps, of which the last one may fail and end it. -/
inductive Loops {M : Type u} [Bus M] (more : Machine M → Bool) :
    (attempts : Nat) → Machine M → Outcome M Unit → Prop
  | stop {m : Machine M} (finished : more m = false) : Loops more 0 m (.done m ())
  | fail {m : Machine M} {fault : Fault} (going : more m = true)
      (stuck : m.step.result = .error fault) : Loops more 1 m m.step
  | next {k : Nat} {m : Machine M} {o : Outcome M Unit} (going : more m = true)
      (ok : m.step.result = .ok ()) (rest : Loops more k m.step.machine o) :
      Loops more (k + 1) m (o.after m.step.events)

namespace Loops

variable {M : Type u} [Bus M] {more : Machine M → Bool} {k : Nat} {m : Machine M}
  {o : Outcome M Unit}

/-- With fuel for its steps, bounding the loop makes no difference. -/
theorem steps_eq (h : Loops more k m o) {fuel : Nat} (enough : k ≤ fuel) :
    (Outcome.done m ()).steps more fuel = o := by
  induction h generalizing fuel with
  | stop finished =>
    cases fuel with
    | zero => rfl
    | succ fuel => rw [Outcome.steps_done_succ, if_neg (by simp [finished])]
  | fail going stuck =>
    obtain ⟨fuel, rfl⟩ : ∃ i, fuel = i + 1 := ⟨fuel - 1, by omega⟩
    rw [Outcome.steps_done_succ, if_pos going, Outcome.bind_of_error stuck, ← stuck]
  | next going ok rest ih =>
    obtain ⟨fuel, rfl⟩ : ∃ i, fuel = i + 1 := ⟨fuel - 1, by omega⟩
    rw [Outcome.steps_done_succ, if_pos going, Outcome.bind_of_ok ok, ih (by omega)]

end Loops

namespace Machine

variable {M : Type u} [Bus M]

/-- Steps until a fault, at most `count` of them. -/
def runSteps (m : Machine M) (count : Nat) : Outcome M Unit :=
  (Outcome.done m ()).steps (fun _ => true) count

theorem run_eq_map (m : Machine M) (count : Nat) :
    m.run count = (m.runSteps count).map fun _ _ => count :=
  rfl

@[simp]
theorem runSteps_zero (m : Machine M) : m.runSteps 0 = .done m () :=
  rfl

theorem runSteps_succ (m : Machine M) (n : Nat) :
    m.runSteps (n + 1) = m.step.bind fun next _ => next.runSteps n := by
  rw [runSteps, Outcome.steps_done_succ, if_pos rfl]
  rfl

/-- A run splits at any count of steps. -/
theorem runSteps_add (m : Machine M) (a b : Nat) :
    m.runSteps (a + b) = (m.runSteps a).bind fun n _ => n.runSteps b := by
  induction a generalizing m with
  | zero => rw [Nat.zero_add, runSteps_zero, Outcome.done_bind]
  | succ a ih =>
    rw [Nat.succ_add, runSteps_succ, runSteps_succ, Outcome.bind_assoc]
    simp only [ih]

/-- A step of an operation never fails. -/
theorem execute_result (m : Machine M) (operation : Operation) (operand : Operand) :
    (m.execute operation operand).result = .ok () := by
  obtain ⟨value, target, length⟩ := operand
  cases operation with
  | branch flag wanted =>
    cases target with
    | memory address =>
      simp only [execute, Operand.address?]
      split <;> rfl
    | accumulator | nowhere => rfl
  | jump => cases target <;> rfl
  | call => cases target <;> rfl
  | _ => rfl

theorem step_result (m : Machine M) :
    m.step.result =
      match m.encoding? with
      | some _ => .ok ()
      | none => .error (.illegalOpcode (Bus.read m.bus m.regs.pc) m.regs.pc) := by
  cases h : m.encoding? with
  | none => rw [step_of_illegal h]
  | some e =>
    rw [step_of_encoding h]
    exact execute_result _ _ _

theorem step_ok_iff {m : Machine M} : m.step.result = .ok () ↔ m.encoding?.isSome = true := by
  rw [step_result]
  cases m.encoding? with
  | none => simp
  | some e => simp

theorem step_ok_of_encoding {m : Machine M} {e : Encoding} (h : m.encoding? = some e) :
    m.step.result = .ok () :=
  step_ok_iff.mpr (by rw [h]; rfl)

/-- A step fails exactly if the byte at the program counter encodes nothing. -/
theorem step_error_iff {m : Machine M} {fault : Fault} :
    m.step.result = .error fault ↔
      m.encoding? = none ∧ fault = .illegalOpcode (Bus.read m.bus m.regs.pc) m.regs.pc := by
  rw [step_result]
  cases m.encoding? with
  | none => simp [eq_comm]
  | some e => simp

/-- A step that fails leaves everything as it was. -/
theorem step_machine_of_error {m : Machine M} {fault : Fault} (h : m.step.result = .error fault) :
    m.step.machine = m := by
  rw [step_of_illegal (step_error_iff.mp h).1]

/-- The machine after `count` steps, of which any that fail change nothing. -/
def afterSteps (m : Machine M) : Nat → Machine M
  | 0 => m
  | n + 1 => m.step.machine.afterSteps n

theorem afterSteps_add (m : Machine M) (a b : Nat) :
    m.afterSteps (a + b) = (m.afterSteps a).afterSteps b := by
  induction a generalizing m with
  | zero => rw [Nat.zero_add]; rfl
  | succ a ih =>
    rw [Nat.succ_add]
    exact ih m.step.machine

/-- The first `count` steps succeed. -/
def Completes (m : Machine M) (count : Nat) : Prop :=
  ∀ i, i < count → (m.afterSteps i).step.result = .ok ()

theorem completes_zero (m : Machine M) : m.Completes 0 :=
  fun _ h => absurd h (Nat.not_lt_zero _)

theorem completes_succ_iff {m : Machine M} {n : Nat} :
    m.Completes (n + 1) ↔ m.step.result = .ok () ∧ m.step.machine.Completes n := by
  constructor
  · intro h
    exact ⟨h 0 (by omega), fun i hi => h (i + 1) (by omega)⟩
  · rintro ⟨first, rest⟩ i hi
    cases i with
    | zero => exact first
    | succ i => exact rest i (by omega)

theorem Completes.mono {m : Machine M} {k n : Nat} (h : m.Completes n) (le : k ≤ n) :
    m.Completes k :=
  fun i hi => h i (by omega)

/-- Steps that all succeed, or a first one that fails. -/
theorem completes_or_fault (m : Machine M) (n : Nat) :
    m.Completes n ∨
      ∃ k fault, k < n ∧ m.Completes k ∧ (m.afterSteps k).step.result = .error fault := by
  induction n generalizing m with
  | zero => exact Or.inl m.completes_zero
  | succ n ih =>
    cases first : m.step.result with
    | error fault => exact Or.inr ⟨0, fault, by omega, m.completes_zero, first⟩
    | ok answer =>
      rcases ih m.step.machine with rest | ⟨k, fault, hk, rest, stuck⟩
      · exact Or.inl (completes_succ_iff.mpr ⟨first, rest⟩)
      · exact Or.inr ⟨k + 1, fault, by omega, completes_succ_iff.mpr ⟨first, rest⟩, stuck⟩

theorem runSteps_of_completes {m : Machine M} {n : Nat} (h : m.Completes n) :
    (m.runSteps n).result = .ok () ∧ (m.runSteps n).machine = m.afterSteps n := by
  induction n generalizing m with
  | zero => exact ⟨rfl, rfl⟩
  | succ n ih =>
    obtain ⟨first, rest⟩ := completes_succ_iff.mp h
    rw [runSteps_succ, Outcome.bind_of_ok first]
    exact ih rest

/-- A run ends in the state before the first step that fails, with its fault. -/
theorem runSteps_of_fault {m : Machine M} {k n : Nat} {fault : Fault} (h : m.Completes k)
    (stuck : (m.afterSteps k).step.result = .error fault) (le : k < n) :
    (m.runSteps n).result = .error fault ∧ (m.runSteps n).machine = m.afterSteps k := by
  induction k generalizing m n with
  | zero =>
    obtain ⟨n, rfl⟩ : ∃ i, n = i + 1 := ⟨n - 1, by omega⟩
    have failed : m.step.result = .error fault := stuck
    rw [runSteps_succ, Outcome.bind_of_error failed]
    exact ⟨rfl, step_machine_of_error failed⟩
  | succ k ih =>
    obtain ⟨n, rfl⟩ : ∃ i, n = i + 1 := ⟨n - 1, by omega⟩
    obtain ⟨first, rest⟩ := completes_succ_iff.mp h
    rw [runSteps_succ, Outcome.bind_of_ok first]
    exact ih rest stuck (by omega)

theorem run_of_completes {m : Machine M} {n : Nat} (h : m.Completes n) :
    (m.run n).result = .ok n ∧ (m.run n).machine = m.afterSteps n := by
  obtain ⟨result, machine⟩ := runSteps_of_completes h
  exact ⟨Outcome.map_of_ok result _, machine⟩

theorem run_of_fault {m : Machine M} {k n : Nat} {fault : Fault} (h : m.Completes k)
    (stuck : (m.afterSteps k).step.result = .error fault) (le : k < n) :
    (m.run n).result = .error fault ∧ (m.run n).machine = m.afterSteps k := by
  obtain ⟨result, machine⟩ := runSteps_of_fault h stuck le
  exact ⟨Outcome.map_of_error result _, machine⟩

/-- Machines whose steps have the same results have the same runs, of as many steps. -/
theorem run_of_same_results {m n : Machine M} {count : Nat}
    (same : ∀ i, i < count → (n.afterSteps i).step.result = (m.afterSteps i).step.result) :
    (n.run count).result = (m.run count).result ∧
      ∃ k, k ≤ count ∧ (m.run count).machine = m.afterSteps k ∧
        (n.run count).machine = n.afterSteps k := by
  rcases m.completes_or_fault count with completes | ⟨k, fault, hk, completes, stuck⟩
  · have follows : n.Completes count := fun i hi => (same i hi).trans (completes i hi)
    obtain ⟨first, machine⟩ := run_of_completes completes
    obtain ⟨second, other⟩ := run_of_completes follows
    exact ⟨second.trans first.symm, count, Nat.le_refl _, machine, other⟩
  · have follows : n.Completes k := fun i hi => (same i (by omega)).trans (completes i hi)
    obtain ⟨first, machine⟩ := run_of_fault completes stuck hk
    obtain ⟨second, other⟩ := run_of_fault follows ((same k hk).trans stuck) hk
    exact ⟨second.trans first.symm, k, by omega, machine, other⟩

end Machine

namespace Loops

variable {M : Type u} [Bus M] {more : Machine M → Bool} {k : Nat} {m : Machine M}
  {o : Outcome M Unit}

/-- The loop is the run of the steps that it begins. -/
theorem runSteps_eq (h : Loops more k m o) : m.runSteps k = o := by
  induction h with
  | stop finished => rfl
  | fail going stuck =>
    rw [Machine.runSteps_succ, Outcome.bind_of_error stuck, ← stuck]
  | next going ok rest ih => rw [Machine.runSteps_succ, Outcome.bind_of_ok ok, ih]

/-- More steps than those of a loop that ended in a fault are not taken. -/
theorem runSteps_eq_of_error (h : Loops more k m o) {fault : Fault}
    (failed : o.result = .error fault) {n : Nat} (le : k ≤ n) : m.runSteps n = o := by
  obtain ⟨extra, rfl⟩ : ∃ i, n = k + i := ⟨n - k, by omega⟩
  rw [Machine.runSteps_add, h.runSteps_eq, Outcome.bind_of_error failed, ← failed]

theorem machine_eq (h : Loops more k m o) : o.machine = m.afterSteps k := by
  induction h with
  | stop finished => rfl
  | fail going stuck => rfl
  | next going ok rest ih => exact ih

theorem going (h : Loops more k m o) : ∀ i, i < k → more (m.afterSteps i) = true := by
  induction h with
  | stop finished => omega
  | fail going stuck =>
    intro i hi
    obtain rfl : i = 0 := by omega
    exact going
  | next going ok rest ih =>
    intro i hi
    cases i with
    | zero => exact going
    | succ i => exact ih i (by omega)

theorem completes_of_ok (h : Loops more k m o) (ok : o.result = .ok ()) :
    m.Completes k ∧ more o.machine = false := by
  induction h with
  | stop finished => exact ⟨Machine.completes_zero _, finished⟩
  | fail going stuck =>
    rw [stuck] at ok
    cases ok
  | next going first rest ih =>
    obtain ⟨completes, finished⟩ := ih ok
    exact ⟨Machine.completes_succ_iff.mpr ⟨first, completes⟩, finished⟩

theorem fault_of_error (h : Loops more k m o) {fault : Fault} (failed : o.result = .error fault) :
    ∃ j, k = j + 1 ∧ m.Completes j ∧ (m.afterSteps j).step.result = .error fault := by
  induction h with
  | stop finished => cases failed
  | fail going stuck => exact ⟨0, rfl, Machine.completes_zero _, failed⟩
  | next going first rest ih =>
    obtain ⟨j, rfl, completes, stuck⟩ := ih failed
    exact ⟨j + 1, rfl, Machine.completes_succ_iff.mpr ⟨first, completes⟩, stuck⟩

/-- No step but the last can fail. -/
theorem completes_pred (h : Loops more k m o) : m.Completes (k - 1) := by
  cases result : o.result with
  | ok answer => exact (h.completes_of_ok result).1.mono (by omega)
  | error fault =>
    obtain ⟨j, rfl, completes, _⟩ := h.fault_of_error result
    exact completes

/-- Steps after which the loop would go on can be put in front of it. -/
theorem prepend {n : Nat} (completes : m.Completes n)
    (going : ∀ j, j < n → more (m.afterSteps j) = true) (h : Loops more k (m.afterSteps n) o) :
    Loops more (k + n) m ((m.runSteps n).bind fun _ _ => o) := by
  induction n generalizing m with
  | zero =>
    rw [Machine.runSteps_zero, Outcome.done_bind]
    exact h
  | succ n ih =>
    obtain ⟨first, rest⟩ := Machine.completes_succ_iff.mp completes
    have tail := ih rest (fun j hj => going (j + 1) (by omega)) h
    rw [Machine.runSteps_succ, Outcome.bind_of_ok first, Outcome.after_bind]
    exact tail.next (going 0 (by omega)) first

/-- A loop ends in the first fault that it meets. -/
theorem of_fault {n : Nat} {fault : Fault} (completes : m.Completes n)
    (stuck : (m.afterSteps n).step.result = .error fault)
    (going : ∀ j, j < n + 1 → more (m.afterSteps j) = true) :
    Loops more (n + 1) m (m.runSteps (n + 1)) := by
  have last : Loops more 1 (m.afterSteps n) (m.afterSteps n).step :=
    .fail (going n (by omega)) stuck
  have all := last.prepend completes fun j hj => going j (by omega)
  rw [Nat.add_comm] at all
  rwa [all.runSteps_eq]

variable {more' : Machine M → Bool}

/-- A fault also ends a loop with a weaker condition. -/
theorem weaken (h : Loops more k m o) {fault : Fault} (failed : o.result = .error fault)
    (weaker : ∀ n, more n = true → more' n = true) : Loops more' k m o := by
  obtain ⟨j, rfl, completes, stuck⟩ := h.fault_of_error failed
  have all := of_fault completes stuck fun i hi => weaker _ (h.going i hi)
  rwa [h.runSteps_eq] at all

/-- A loop with a weaker condition goes on where one with a stronger condition ends. -/
theorem append (h : Loops more k m o) (ok : o.result = .ok ())
    (weaker : ∀ n, more n = true → more' n = true) {j : Nat} {p : Outcome M Unit}
    (rest : Loops more' j o.machine p) : Loops more' (j + k) m (o.bind fun _ _ => p) := by
  obtain ⟨completes, _⟩ := h.completes_of_ok ok
  rw [h.machine_eq] at rest
  have all := rest.prepend completes fun i hi => weaker _ (h.going i hi)
  rwa [h.runSteps_eq] at all

end Loops

end Core6502
