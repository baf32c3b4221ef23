import Core6502.Proofs.Histories
import Core6502.Proofs.WriteTrace

/-!
# Masked requests

Entering an interrupt disables requests, whether the host or the program enters it. They are
enabled again only by an instruction that clears the flag or takes it from the stack, or by the
host setting flags. So a handler is not interrupted by another request before one of these, and
between two requests that are granted there is one. A request that is masked changes nothing.
-/

namespace Core6502

universe u

def Operation.setsMask : Operation → Bool
  | .assign .interruptDisable _ | .pullStatus | .returnFromInterrupt | .forceInterrupt => true
  | _ => false

def Instruction.mayUnmask : Instruction → Bool
  | .cli | .plp | .rti => true
  | _ => false

theorem Instruction.setsMask_eq_false {i : Instruction} (unmask : i.mayUnmask = false)
    (brk : i ≠ .brk) (sei : i ≠ .sei) : i.operation.setsMask = false := by
  cases i with
  | cli | plp | rti => cases unmask
  | brk => exact absurd rfl brk
  | sei => exact absurd rfl sei
  | _ => rfl

theorem Status.interruptDisable_set (s : Status) {flag : Flag} (other : flag ≠ .interruptDisable)
    (value : Bool) : (s.set flag value).interruptDisable = s.interruptDisable := by
  cases flag with
  | interruptDisable => exact absurd rfl other
  | _ => rfl

theorem Registers.interruptDisable_load (r : Registers) (register : ByteRegister) (value : Byte) :
    (r.load register value).status.interruptDisable = r.status.interruptDisable := by
  cases register <;> rfl

variable {M : Type u} [Bus M]

namespace Machine

def masked (m : Machine M) : Bool :=
  m.regs.status.interruptDisable

theorem execute_masked (m : Machine M) {operation : Operation} (keeps : operation.setsMask = false)
    (operand : Operand) : (m.execute operation operand).machine.masked = m.masked := by
  obtain ⟨value, target, length⟩ := operand
  cases operation with
  | adjust register transform => exact Registers.interruptDisable_load _ register _
  | load register => exact Registers.interruptDisable_load _ register _
  | transfer source destination => exact Registers.interruptDisable_load _ destination _
  | store register => cases target <;> rfl
  | modify transform => cases target <;> rfl
  | assign flag value =>
    refine Status.interruptDisable_set _ ?_ value
    rintro rfl
    cases keeps
  | branch flag wanted =>
    cases target with
    | memory address =>
      simp only [execute, Operand.address?]
      split <;> rfl
    | accumulator | nowhere => rfl
  | jump => cases target <;> rfl
  | call => cases target <;> rfl
  | pullStatus | returnFromInterrupt | forceInterrupt => cases keeps
  | _ => rfl

theorem step_masked {m : Machine M}
    (keeps : ∀ e, m.encoding? = some e → e.instruction.operation.setsMask = false) :
    m.step.machine.masked = m.masked := by
  cases h : m.encoding? with
  | none => rw [step_of_illegal h]
  | some e =>
    rw [step_of_encoding h]
    exact execute_masked _ (keeps e h) _

theorem step_masked_of_forceInterrupt {m : Machine M} {e : Encoding} (h : m.encoding? = some e)
    (op : e.instruction.operation = .forceInterrupt) : m.step.machine.masked = true := by
  rw [step_of_encoding h, op]
  rfl

theorem step_masked_of_assign {m : Machine M} {e : Encoding} {value : Bool}
    (h : m.encoding? = some e)
    (op : e.instruction.operation = .assign .interruptDisable value) :
    m.step.machine.masked = value := by
  rw [step_of_encoding h, op]
  rfl

end Machine

namespace Moment

/-- An interrupt is entered, by the host or by the program. -/
def Enters (x : Moment M) : Prop :=
  x.interrupts = true ∨ x.instruction? = some .brk

def Grants (x : Moment M) : Prop :=
  x.act = .call .irqIfEnabled ∧ (x.machine.perform .irqIfEnabled).result = .ok (.taken true)

/-- Requests may be enabled here: by the program, or by the host setting flags. -/
def MayUnmask (x : Moment M) : Prop :=
  (∃ i, x.instruction? = some i ∧ i.mayUnmask = true) ∨
    (∃ packed, x.act = .call (.setStatus packed)) ∨
    ∃ value, x.act = .call (.setFlag .interruptDisable value)

theorem Grants.enters {x : Moment M} (h : x.Grants) : x.Enters := by
  obtain ⟨m, a⟩ := x
  obtain ⟨request, granted⟩ := h
  cases request
  left
  simp only [interrupts, granted]

theorem Enters.masked {x : Moment M} (h : x.Enters) : x.next.masked = true := by
  rcases h with interrupts | brk
  · obtain ⟨vector, entered⟩ := next_of_interrupts interrupts
    rw [entered]
    rfl
  · obtain ⟨step, e, he, hi⟩ := instruction?_eq_some_iff.mp brk
    obtain ⟨m, a⟩ := x
    cases step
    exact Machine.step_masked_of_forceInterrupt he (congrArg Instruction.operation hi)

theorem masked_of_sei {x : Moment M} (h : x.instruction? = some .sei) : x.next.masked = true := by
  obtain ⟨step, e, he, hi⟩ := instruction?_eq_some_iff.mp h
  obtain ⟨m, a⟩ := x
  cases step
  exact Machine.step_masked_of_assign he (congrArg Instruction.operation hi)

/-- Nothing else changes whether requests are disabled. -/
theorem next_masked {x : Moment M} (single : x.act.isSingle = true) (locked : ¬ x.MayUnmask)
    (enters : ¬ x.Enters) (sei : x.instruction? ≠ some .sei) :
    x.next.masked = x.machine.masked := by
  obtain ⟨m, a⟩ := x
  cases a with
  | alter change => rfl
  | call call =>
    cases call with
    | step =>
      refine Machine.step_masked fun e he => ?_
      have executes : (⟨m, .call .step⟩ : Moment M).instruction? = some e.instruction :=
        instruction?_eq_some_iff.mpr ⟨rfl, e, he, rfl⟩
      rw [executes] at sei
      refine Instruction.setsMask_eq_false ?_ ?_ ?_
      · rw [Bool.eq_false_iff]
        intro unmask
        exact locked (Or.inl ⟨_, executes, unmask⟩)
      · intro brk
        exact enters (Or.inr (brk ▸ executes))
      · intro same
        exact sei (congrArg some same)
    | run count => cases single
    | runForCycles budget => cases single
    | interrupt vector => exact absurd (Or.inl rfl) enters
    | irqIfEnabled =>
      have granted := interrupts_request m
      cases disabled : m.regs.status.interruptDisable with
      | true =>
        simp only [next, Machine.act, Machine.perform_irqIfEnabled, disabled]
        rfl
      | false =>
        rw [disabled] at granted
        exact absurd (Or.inl granted) enters
    | setRegister register value =>
      cases register <;> rfl
    | setStatus packed => exact absurd (Or.inr (Or.inl ⟨packed, rfl⟩)) locked
    | setFlag flag value =>
      refine Status.interruptDisable_set _ ?_ value
      rintro rfl
      exact locked (Or.inr (Or.inr ⟨value, rfl⟩))
    | _ => rfl

theorem mayUnmask_of_cleared {x : Moment M} (single : x.act.isSingle = true)
    (before : x.machine.masked = true) (after : x.next.masked = false) : x.MayUnmask := by
  by_cases open' : x.MayUnmask
  · exact open'
  · have set : x.next.masked = true := by
      by_cases enters : x.Enters
      · exact enters.masked
      · by_cases sei : x.instruction? = some .sei
        · exact masked_of_sei sei
        · rw [next_masked single open' enters sei, before]
    rw [set] at after
    cases after

end Moment

namespace Machine

/-- A request is granted exactly if requests are enabled. -/
theorem grants_iff {x : Moment M} :
    x.Grants ↔ x.act = .call .irqIfEnabled ∧ x.machine.masked = false := by
  constructor
  · rintro ⟨request, granted⟩
    rw [result_irqIfEnabled] at granted
    exact ⟨request, by simpa [masked] using granted⟩
  · rintro ⟨request, enabled⟩
    have clear : x.machine.regs.status.interruptDisable = false := enabled
    refine ⟨request, ?_⟩
    rw [result_irqIfEnabled, clear]
    rfl

/-- A request that is not granted changes nothing and writes nothing. -/
theorem perform_irqIfEnabled_of_masked {m : Machine M} (h : m.masked = true) :
    (m.perform .irqIfEnabled).machine = m ∧ m.writes .irqIfEnabled = [] := by
  have disabled : m.regs.status.interruptDisable = true := h
  rw [perform_irqIfEnabled, writes_irqIfEnabled, if_pos disabled, if_pos disabled]
  exact ⟨rfl, rfl⟩

/-- Where requests were disabled and are no longer, something enabled them. -/
theorem Leads.exists_unmask {m n : Machine M} {moments : List (Moment M)} (h : Leads m moments n)
    (single : ∀ x ∈ moments, x.act.isSingle = true) (before : m.masked = true)
    (after : n.masked = false) : ∃ x ∈ moments, x.MayUnmask ∧ x.next.masked = false := by
  obtain ⟨x, hx, set, cleared⟩ := h.exists_loss (P := fun k => k.masked = true) before
    (by simp [after])
  have clear := Bool.eq_false_iff.mpr cleared
  exact ⟨x, hx, Moment.mayUnmask_of_cleared (single x hx) set clear, clear⟩

/-- Requests stay disabled from the entry of an interrupt until they are enabled by one of five
things: CLI, PLP, RTI, or the host's setting of the status or of the flag. -/
theorem masked_until_unmasked (m : Machine M) (acts : List (HostAct M)) :
    let moments := m.moments acts
    (∀ early x late, moments = early ++ x :: late → x.Enters →
      x.next.masked = true ∧
      ((m.afterActs acts).masked = false → ∃ z ∈ late, z.MayUnmask ∧ z.next.masked = false) ∧
      ∀ between y rest, late = between ++ y :: rest → y.machine.masked = false →
        ∃ z ∈ between, z.MayUnmask ∧ z.next.masked = false) ∧
    (∀ early x between y late, moments = early ++ x :: (between ++ y :: late) →
      x.Grants → y.Grants → ∃ z ∈ between, z.MayUnmask ∧ z.next.masked = false) ∧
    (∀ x ∈ moments, x.act = .call .irqIfEnabled →
      (x.machine.perform .irqIfEnabled).result = .ok (.taken !x.machine.masked) ∧
      (¬ x.Grants → x.next = x.machine ∧ x.machine.writes .irqIfEnabled = [])) ∧
    ∀ x ∈ moments,
      (x.machine.masked = true → x.next.masked = false → x.MayUnmask) ∧
      (x.instruction? = some .sei → x.next.masked = true) ∧
      (¬ x.MayUnmask → ¬ x.Enters → x.instruction? ≠ some .sei →
        x.next.masked = x.machine.masked) := by
  intro moments
  have single : ∀ x ∈ moments, x.act.isSingle = true := fun x hx => (act_of_mem_moments hx).1
  have leads : Leads m moments (m.afterActs acts) := m.leads_moments acts
  have later : ∀ early x between y late, moments = early ++ x :: (between ++ y :: late) →
      x.Enters → y.machine.masked = false → ∃ z ∈ between, z.MayUnmask ∧ z.next.masked = false := by
    intro early x between y late split enters clear
    rw [split] at leads single
    have path := leads.split_cons.2.split_cons.1
    refine path.exists_unmask ?_ enters.masked clear
    intro z hz
    exact single z (by simp [hz])
  refine ⟨?_, ?_, ?_, ?_⟩
  · intro early x late split enters
    refine ⟨enters.masked, ?_, ?_⟩
    · intro clear
      rw [split] at leads single
      refine leads.split_cons.2.exists_unmask ?_ enters.masked clear
      intro z hz
      exact single z (by simp [hz])
    · rintro between y rest rfl clear
      exact later early x between y rest split enters clear
  · intro early x between y late split first second
    exact later early x between y late split first.enters (grants_iff.mp second).2
  · intro x _ request
    refine ⟨x.machine.result_irqIfEnabled, ?_⟩
    intro refused
    have disabled : x.machine.masked = true := by
      by_cases disabled : x.machine.masked = true
      · exact disabled
      · exact absurd (grants_iff.mpr ⟨request, Bool.eq_false_iff.mpr disabled⟩) refused
    obtain ⟨same, silent⟩ := perform_irqIfEnabled_of_masked disabled
    refine ⟨?_, silent⟩
    rw [Moment.next, request]
    exact same
  · intro x hx
    exact ⟨Moment.mayUnmask_of_cleared (single x hx), Moment.masked_of_sei,
      Moment.next_masked (single x hx)⟩

/-- A handler that returns at once. -/
def returning : Machine Memory :=
  powerOn (Bus.store (Bus.store Memory.zeroed 0x9000 [0x40]) 0xFFFE [0x00, 0x90])

/-- A second request is refused and a third one granted: the handler has returned. -/
theorem masked_until_unmasked_returning :
    let request : HostAct Memory := .call .irqIfEnabled
    ∃ x refused rti y,
      returning.moments [request, request, .call .step, request] = [x, refused, rti, y] ∧
      x.Grants ∧ y.Grants ∧ refused.next = refused.machine ∧
      ∃ z ∈ [refused, rti], z.MayUnmask ∧ z.next.masked = false := by
  intro request
  let entered := returning.act request
  let returned := (entered.act request).act (.call .step)
  have first : (⟨returning, request⟩ : Moment Memory).Grants :=
    grants_iff.mpr ⟨rfl, by decide +kernel⟩
  have second : ¬ (⟨entered, request⟩ : Moment Memory).Grants := by
    rw [grants_iff]
    rintro ⟨_, enabled⟩
    exact absurd enabled (by decide +kernel)
  have third : (⟨returned, request⟩ : Moment Memory).Grants :=
    grants_iff.mpr ⟨rfl, by decide +kernel⟩
  obtain ⟨_, between, requests, _⟩ :=
    masked_until_unmasked returning [request, request, .call .step, request]
  have met : (⟨entered, request⟩ : Moment Memory) ∈
      returning.moments [request, request, .call .step, request] := by
    simp [moments, meet, unroll, request, entered]
  obtain ⟨same, _⟩ := (requests _ met rfl).2 second
  exact ⟨_, _, _, _, rfl, first, third, same, between [] _ [_, _] _ [] rfl first third⟩

end Machine

end Core6502
