import Core6502.Proofs.CycleBudget
import Core6502.Proofs.WriteTrace

/-!
# Faults change nothing

A step fails exactly on an illegal opcode, and then it reports the opcode and its
address, writes nothing and leaves the machine as it was. A run that meets a fault
ends in the state before the step that fails, and from there everything that
tries a step fails in the same way. This holds on every bus.
-/

namespace Core6502.Machine

universe u

variable {M : Type u} [Bus M]

/-- Calls that take at least one step. A budget is spent at once if the counter is at its
greatest value. -/
def Attempts (m : Machine M) : HostCall → Prop
  | .step => True
  | .run count => 1 ≤ count
  | .runForCycles budget => 1 ≤ budget.toNat ∧ m.cycles.toNat < 2 ^ 64 - 1
  | _ => False

/-- A machine that cannot step stays as it is, whatever tries to make it step. -/
theorem perform_of_fault {m : Machine M} {fault : Fault} (stuck : m.step.result = .error fault)
    {call : HostCall} (attempts : m.Attempts call) :
    (m.perform call).result = .error fault ∧ (m.perform call).machine = m := by
  cases call with
  | step => exact ⟨Outcome.map_of_error stuck _, step_machine_of_error stuck⟩
  | run count =>
    obtain ⟨result, machine⟩ := run_of_fault m.completes_zero stuck attempts
    exact ⟨Outcome.map_of_error result _, machine⟩
  | runForCycles budget =>
    have short : m.cycles.toNat + m.spent 0 < m.goal budget := by
      have := attempts.1
      have := attempts.2
      rw [spent, goal]
      omega
    obtain ⟨result, machine⟩ := runForCycles_of_fault m.completes_zero short stuck
    exact ⟨Outcome.map_of_error result _, machine⟩
  | _ => cases attempts

theorem recorded_fault {m : Machine M} {fault : Fault} (stuck : m.step.result = .error fault) :
    m.recorded.step.result = .error fault := by
  obtain ⟨illegal, rfl⟩ := step_error_iff.mp stuck
  exact step_error_iff.mpr ⟨illegal, rfl⟩

theorem writes_of_fault {m : Machine M} {fault : Fault} (stuck : m.step.result = .error fault)
    {call : HostCall} (attempts : m.Attempts call) : m.writes call = [] := by
  have same : m.recorded.Attempts call := by
    cases call <;> exact attempts
  rw [writes, (perform_of_fault (recorded_fault stuck) same).2]
  rfl

/-- Calls for no steps at all. -/
theorem perform_of_none (m : Machine M) {call : HostCall}
    (h : call = .run 0 ∨ call = .runForCycles 0) : m.perform call = .done m (.count 0) := by
  rcases h with rfl | rfl
  · rfl
  · rw [perform, runForCycles_zero]
    rfl

/-- A run succeeds exactly if all of its steps do. -/
theorem run_ok_iff {m : Machine M} {n : Nat} : (m.run n).result = .ok n ↔ m.Completes n := by
  constructor
  · intro ok
    rcases m.completes_or_fault n with completes | ⟨k, fault, le, completes, stuck⟩
    · exact completes
    · rw [(run_of_fault completes stuck le).1] at ok
      cases ok
  · intro completes
    exact (run_of_completes completes).1

/-- A run that does not succeed ends before the very first step that fails. -/
theorem run_of_not_completes {m : Machine M} {n : Nat} (fails : ¬ m.Completes n) :
    ∃ k fault, k < n ∧ m.Completes k ∧
      IsLeast {j | ∃ f, (m.afterSteps j).step.result = .error f} k ∧
      (m.afterSteps k).step.result = .error fault ∧
      (m.run n).result = .error fault ∧ (m.run n).machine = m.afterSteps k := by
  rcases m.completes_or_fault n with completes | ⟨k, fault, le, completes, stuck⟩
  · exact absurd completes fails
  · obtain ⟨result, machine⟩ := run_of_fault completes stuck le
    refine ⟨k, fault, le, completes, ⟨⟨fault, stuck⟩, ?_⟩, stuck, result, machine⟩
    rintro j ⟨f, earlier⟩
    refine Nat.le_of_not_lt fun less => ?_
    rw [completes j less] at earlier
    cases earlier

/-- Faults of steps and runs are atomic. -/
theorem faults_atomic (m : Machine M) :
    let opcode := Bus.read m.bus m.regs.pc
    ((∃ fault, m.step.result = .error fault) ↔ Opcode.decode opcode = none) ∧
    (∀ fault, m.step.result = .error fault →
      fault = .illegalOpcode opcode m.regs.pc ∧ m.step.machine = m ∧ m.writes .step = []) ∧
    (∀ n,
      ((m.run n).result = .ok n ↔ m.Completes n) ∧
      (m.Completes n → (m.run n).machine = m.afterSteps n) ∧
      (¬ m.Completes n → ∃ k fault, k < n ∧ m.Completes k ∧
        IsLeast {j | ∃ f, (m.afterSteps j).step.result = .error f} k ∧
        (m.afterSteps k).step.result = .error fault ∧
        (m.run n).result = .error fault ∧ (m.run n).machine = m.afterSteps k)) ∧
    (∀ fault, m.step.result = .error fault → ∀ call, m.Attempts call →
      (m.perform call).result = .error fault ∧ (m.perform call).machine = m ∧
        m.writes call = []) ∧
    ∀ call, call = .run 0 ∨ call = .runForCycles 0 →
      (m.perform call).result = .ok (.count 0) ∧ (m.perform call).machine = m ∧
        m.writes call = [] := by
  intro opcode
  refine ⟨?_, ?_, ?_, ?_, ?_⟩
  · constructor
    · rintro ⟨fault, stuck⟩
      exact (step_error_iff.mp stuck).1
    · intro illegal
      exact ⟨_, step_error_iff.mpr ⟨illegal, rfl⟩⟩
  · intro fault stuck
    exact ⟨(step_error_iff.mp stuck).2, step_machine_of_error stuck, writes_of_fault stuck trivial⟩
  · intro n
    exact ⟨run_ok_iff, fun completes => (run_of_completes completes).2, run_of_not_completes⟩
  · intro fault stuck call attempts
    obtain ⟨result, machine⟩ := perform_of_fault stuck attempts
    exact ⟨result, machine, writes_of_fault stuck attempts⟩
  · intro call none
    have written : m.writes call = [] := by
      rw [writes, m.recorded.perform_of_none none]
      rfl
    rw [m.perform_of_none none]
    exact ⟨rfl, rfl, written⟩

theorem faults_atomic_stumbling :
    (stumbling.run 2).result = .ok 2 ∧
    (stumbling.run 9).result = .error (.illegalOpcode 0x02 0x8002) ∧
    (stumbling.run 9).machine = stumbling.afterSteps 2 ∧
    ((stumbling.afterSteps 2).perform (.runForCycles 1)).result =
      .error (.illegalOpcode 0x02 0x8002) ∧
    (stumbling.afterSteps 2).writes (.runForCycles 1) = [] := by
  obtain ⟨_, _, runs, _, _⟩ := faults_atomic stumbling
  obtain ⟨_, _, _, stays, _⟩ := faults_atomic (stumbling.afterSteps 2)
  have fails : ¬ stumbling.Completes 9 := by
    intro completes
    have third := completes 2 (by omega)
    rw [fault_stumbling] at third
    cases third
  obtain ⟨k, fault, _, completes, least, stuck, result, machine⟩ := (runs 9).2.2 fails
  have le : k ≤ 2 := least.2 ⟨_, fault_stumbling⟩
  have ge : ¬ k < 2 := by
    intro less
    rw [completes_stumbling k less] at stuck
    cases stuck
  obtain rfl : k = 2 := by omega
  rw [fault_stumbling] at stuck
  cases stuck
  have attempts : (stumbling.afterSteps 2).Attempts (.runForCycles 1) :=
    ⟨by decide, by decide +kernel⟩
  obtain ⟨again, _, silent⟩ := stays _ fault_stumbling _ attempts
  exact ⟨(runs 2).1.mpr completes_stumbling, result, machine, again, silent⟩

end Core6502.Machine
