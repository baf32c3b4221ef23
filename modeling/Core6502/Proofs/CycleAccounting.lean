import Core6502.Proofs.CycleBudget
import Core6502.Proofs.Histories

/-!
# Cycle accounting

The counter is an exact account of a history. Each instruction that is executed is charged the
cycles of its opcode, each branch whose condition holds one more, and each interrupt that the
host enters seven. Nothing else is charged, so the counter is bounded by the numbers of
instructions and interrupts on both sides, and never falls but by a reset.
-/

namespace Core6502

universe u

/-- The interrupt that a program forces costs as much as one by the host, through its opcode. -/
theorem Opcode.cycles_of_forceInterrupt {opcode : Byte} {e : Encoding}
    (h : decode opcode = some e) (brk : e.instruction = .brk) : e.cycles = 7 := by
  have row := of_rows (p := fun e => decide (e.instruction = .brk → e.cycles = 7))
    (by decide +kernel) h
  exact of_decide_eq_true row brk

variable {M : Type u} [Bus M]

namespace Moment

def takesBranch (x : Moment M) : Bool :=
  match x.act with
  | .call .step => x.machine.takesBranch
  | _ => false

def charge (x : Moment M) : Nat :=
  x.encoding?.elim 0 Encoding.cycles + x.takesBranch.toNat + 7 * x.interrupts.toNat

/-- The counter after a single act, modulo its size. -/
theorem next_cycles {x : Moment M} (single : x.act.isSingle = true)
    (stays : x.act ≠ .call .reset) : x.next.cycles = x.machine.cycles + x.charge.toUInt64 := by
  obtain ⟨m, a⟩ := x
  have free : m.cycles = m.cycles + (0 : Nat).toUInt64 := by simp
  cases a with
  | alter change => exact free
  | call call =>
    cases call with
    | step =>
      have cost : (⟨m, .call .step⟩ : Moment M).charge = m.stepCost := (m.stepCost_eq).symm
      rw [cost]
      exact m.step_cycles
    | run count => cases single
    | runForCycles budget => cases single
    | interrupt vector => rfl
    | irqIfEnabled =>
      rw [charge, interrupts_request]
      simp only [next, Machine.act, Machine.perform_irqIfEnabled]
      cases m.regs.status.interruptDisable with
      | true => exact free
      | false => rfl
    | reset => exact absurd rfl stays
    | _ => exact free

/-- An instruction that is executed is charged as a step, and is no interrupt by the host. -/
theorem charge_of_encoding {x : Moment M} {e : Encoding} (h : x.encoding? = some e) :
    x.interrupts = false ∧ x.charge = x.machine.stepCost ∧
      x.charge = e.cycles + (e.instruction.operation.takesBranch x.machine.regs).toNat := by
  obtain ⟨step, he⟩ := encoding?_eq_some_iff.mp h
  obtain ⟨m, a⟩ := x
  cases step
  have cost : (⟨m, .call .step⟩ : Moment M).charge = m.stepCost := m.stepCost_eq.symm
  refine ⟨rfl, cost, ?_⟩
  rw [cost]
  simp only [Machine.stepCost, he, Operation.extraCycles_eq]

theorem charge_of_none {x : Moment M} (h : x.encoding? = none) :
    x.charge = 7 * x.interrupts.toNat := by
  obtain ⟨m, a⟩ := x
  have quiet : (⟨m, a⟩ : Moment M).takesBranch = false := by
    unfold takesBranch
    split
    · rename_i step
      cases step
      have illegal : m.encoding? = none := h
      simp only [Machine.takesBranch, illegal]
    · rfl
  rw [charge, h, quiet, Option.elim_none, Bool.toNat_false]
  omega

theorem charge_bounds (x : Moment M) :
    2 * x.encoding?.isSome.toNat + 7 * x.interrupts.toNat ≤ x.charge ∧
      x.charge ≤ 7 * (x.encoding?.isSome.toNat + x.interrupts.toNat) := by
  cases h : x.encoding? with
  | none =>
    rw [charge_of_none h, Option.isSome_none, Bool.toNat_false]
    omega
  | some e =>
    obtain ⟨quiet, cost, _⟩ := charge_of_encoding h
    have bounds := Machine.stepCost_bounds (encoding?_eq_some_iff.mp h).2
    rw [quiet, cost, Option.isSome_some, Bool.toNat_true, Bool.toNat_false]
    omega

theorem charge_of_forceInterrupt {x : Moment M} (h : x.instruction? = some .brk) :
    x.interrupts = false ∧ x.charge = 7 := by
  obtain ⟨e, he, brk⟩ := Option.map_eq_some_iff.mp h
  obtain ⟨quiet, _, charge⟩ := charge_of_encoding he
  have cycles := Opcode.cycles_of_forceInterrupt (encoding?_eq_some_iff.mp he).2 brk
  refine ⟨quiet, ?_⟩
  rw [charge, cycles, brk]
  rfl

end Moment

/-- Everything that is charged: cycles of opcodes, branches and interrupts. -/
def totalCharge (moments : List (Moment M)) : Nat :=
  ((moments.filterMap Moment.encoding?).map Encoding.cycles).sum +
    moments.countP Moment.takesBranch + 7 * moments.countP Moment.interrupts

theorem countP_cons_toNat {α : Type u} (p : α → Bool) (a : α) (rest : List α) :
    (a :: rest).countP p = (p a).toNat + rest.countP p := by
  rw [List.countP_cons]
  cases p a with
  | true => simp only [if_true, Bool.toNat_true]; omega
  | false => simp

theorem totalCharge_cons (x : Moment M) (rest : List (Moment M)) :
    totalCharge (x :: rest) = x.charge + totalCharge rest := by
  have cycles : (((x :: rest).filterMap Moment.encoding?).map Encoding.cycles).sum =
      x.encoding?.elim 0 Encoding.cycles +
        ((rest.filterMap Moment.encoding?).map Encoding.cycles).sum := by
    cases h : x.encoding? with
    | none => simp [h]
    | some e => simp [h]
  rw [totalCharge, totalCharge, Moment.charge, countP_cons_toNat, countP_cons_toNat, cycles]
  omega

theorem totalCharge_append (front back : List (Moment M)) :
    totalCharge (front ++ back) = totalCharge front + totalCharge back := by
  induction front with
  | nil => simp [totalCharge]
  | cons x rest ih =>
    rw [List.cons_append, totalCharge_cons, totalCharge_cons, ih, Nat.add_assoc]

theorem totalCharge_bounds (moments : List (Moment M)) :
    let executed := moments.filterMap Moment.encoding?
    let interrupts := moments.countP Moment.interrupts
    2 * executed.length + 7 * interrupts ≤ totalCharge moments ∧
      totalCharge moments ≤ 7 * (executed.length + interrupts) := by
  simp only [List.length_filterMap_eq_countP]
  induction moments with
  | nil => simp [totalCharge]
  | cons x rest ih =>
    have first := x.charge_bounds
    rw [totalCharge_cons, countP_cons_toNat, countP_cons_toNat]
    omega

namespace Machine

/-- A machine whose counter was just set to zero: at power on, or after a reset. -/
def Fresh (m : Machine M) : Prop :=
  (∃ bus config, m = powerOn bus config) ∨ ∃ n : Machine M, m = n.reset

omit [Bus M] in
theorem Fresh.cycles {m : Machine M} (h : m.Fresh) : m.cycles.toNat = 0 := by
  rcases h with ⟨bus, config, rfl⟩ | ⟨n, rfl⟩
  · rfl
  · rfl

/-- Moments without a reset leave the counter, modulo its size, at what they are charged. -/
theorem Leads.cycles {m n : Machine M} {moments : List (Moment M)} (h : Leads m moments n)
    (plain : ∀ x ∈ moments, x.act.isSingle = true ∧ x.act ≠ .call .reset) :
    n.cycles = m.cycles + (totalCharge moments).toUInt64 := by
  induction h with
  | nil m => simp [totalCharge]
  | cons x _ ih =>
    obtain ⟨single, stays⟩ := plain x List.mem_cons_self
    rw [ih fun y hy => plain y (List.mem_cons_of_mem x hy), totalCharge_cons,
      Moment.next_cycles single stays, UInt64.add_assoc]
    exact congrArg (x.machine.cycles + ·) (UInt64.ofNat_add ..).symm

/-- The counter is exact as long as it does not overflow. -/
theorem Leads.toNat_cycles {m n : Machine M} {moments : List (Moment M)} (h : Leads m moments n)
    (plain : ∀ x ∈ moments, x.act.isSingle = true ∧ x.act ≠ .call .reset)
    (room : m.cycles.toNat + totalCharge moments < 2 ^ 64) :
    n.cycles.toNat = m.cycles.toNat + totalCharge moments := by
  rw [h.cycles plain, UInt64.toNat_add, UInt64.toNat_ofNat']
  omega

/-- A moment of a history adds exactly its own charge. -/
theorem Leads.toNat_next_cycles {m n : Machine M} {moments : List (Moment M)}
    (h : Leads m moments n)
    (plain : ∀ x ∈ moments, x.act.isSingle = true ∧ x.act ≠ .call .reset)
    (room : m.cycles.toNat + totalCharge moments < 2 ^ 64) {x : Moment M} (hx : x ∈ moments) :
    x.next.cycles.toNat = x.machine.cycles.toNat + x.charge := by
  obtain ⟨early, late, rfl⟩ := List.append_of_mem hx
  rw [totalCharge_append, totalCharge_cons] at room
  obtain ⟨single, stays⟩ := plain x hx
  have before := h.split_cons.1.toNat_cycles
    (fun y hy => plain y (List.mem_append_left _ hy)) (by omega)
  rw [Moment.next_cycles single stays, UInt64.toNat_add, UInt64.toNat_ofNat']
  omega

/-- The moments of a history without resets have none. -/
theorem plain_moments {m : Machine M} {acts : List (HostAct M)}
    (since : ∀ a ∈ acts, a ≠ .call .reset) :
    ∀ x ∈ m.moments acts, x.act.isSingle = true ∧ x.act ≠ .call .reset := by
  intro x hx
  obtain ⟨single, own⟩ := act_of_mem_moments hx
  refine ⟨single, ?_⟩
  intro reset
  exact since x.act (own (by rw [reset]; nofun)) reset

/-- From power on, or from a reset, the counter accounts for every history: cycles of the
opcodes executed, one for each branch whose condition holds, seven for each interrupt. A history
that is a part of another one has a counter no greater. -/
theorem cycles_accounted {start : Machine M} (fresh : start.Fresh) {acts : List (HostAct M)}
    (since : ∀ a ∈ acts, a ≠ .call .reset) :
    let moments := start.moments acts
    let executed := moments.filterMap Moment.encoding?
    let interrupts := moments.countP Moment.interrupts
    let total := (executed.map Encoding.cycles).sum + moments.countP Moment.takesBranch +
      7 * interrupts
    let finish := start.afterActs acts
    total < 2 ^ 64 →
    finish.cycles.toNat = total ∧
    2 * executed.length + 7 * interrupts ≤ finish.cycles.toNat ∧
    finish.cycles.toNat ≤ 7 * (executed.length + interrupts) ∧
    (∀ front back, acts = front ++ back → (start.afterActs front).cycles ≤ finish.cycles) ∧
    ∀ x ∈ moments, x.machine.cycles ≤ x.next.cycles ∧
      (x.encoding? = none → x.interrupts = false → x.next.cycles = x.machine.cycles) ∧
      (x.instruction? = some .brk →
        x.interrupts = false ∧ x.next.cycles.toNat = x.machine.cycles.toNat + 7) := by
  intro moments executed interrupts total finish room
  have plain := start.plain_moments since
  have zero := fresh.cycles
  have leads := start.leads_moments acts
  have fits : start.cycles.toNat + totalCharge moments < 2 ^ 64 := by
    rw [zero, Nat.zero_add]
    exact room
  have counter : finish.cycles.toNat = totalCharge moments := by
    rw [leads.toNat_cycles plain fits, zero, Nat.zero_add]
  obtain ⟨least, greatest⟩ := totalCharge_bounds moments
  refine ⟨counter, ?_, ?_, ?_, ?_⟩
  · rw [counter]
    exact least
  · rw [counter]
    exact greatest
  · rintro front back rfl
    have whole : totalCharge moments = totalCharge (start.moments front) +
        totalCharge ((start.afterActs front).moments back) := by
      rw [← totalCharge_append, ← moments_append]
    have part := (start.leads_moments front).toNat_cycles
      (start.plain_moments fun a ha => since a (List.mem_append_left _ ha)) (by omega)
    rw [UInt64.le_iff_toNat_le]
    omega
  · intro x hx
    have added := leads.toNat_next_cycles plain fits hx
    refine ⟨?_, ?_, ?_⟩
    · rw [UInt64.le_iff_toNat_le]
      omega
    · intro idle quiet
      rw [Moment.charge_of_none idle, quiet] at added
      exact UInt64.toNat_inj.mp added
    · intro brk
      obtain ⟨quiet, charge⟩ := Moment.charge_of_forceInterrupt brk
      exact ⟨quiet, charge ▸ added⟩

/-- A branch to the instruction after it, a forced interrupt, and a handler that does nothing
before it ends in an illegal opcode. -/
def handling : Machine Memory :=
  powerOn (Bus.store (Bus.store (Bus.store Memory.zeroed 0x8000 [0xA9, 0x00, 0xF0, 0x00, 0x00])
    0x9000 [0xEA, 0x02]) 0xFFFA [0x00, 0x90]) { initialPc := 0x8000 }

/-- A run into a fault, a request that is masked, and a budget after the fault was mended. -/
theorem cycles_accounted_handling :
    let acts : List (HostAct Memory) := [.call (.run 9), .call .irqIfEnabled, .call .nmi,
      .alter fun memory => memory.write 0x9001 0xEA, .call (.runForCycles 3)]
    let moments := handling.moments acts
    handling.Fresh ∧ (∀ a ∈ acts, a ≠ .call .reset) ∧
    (moments.filterMap Moment.instruction? = [.lda, .beq, .brk, .nop, .nop, .nop]) ∧
    moments.countP Moment.interrupts = 1 ∧
    (handling.afterActs acts).cycles.toNat = 25 ∧
    (handling.afterActs [.call (.run 9)]).cycles ≤ (handling.afterActs acts).cycles := by
  intro acts moments
  have fresh : handling.Fresh := Or.inl ⟨_, _, rfl⟩
  have since : ∀ a ∈ acts, a ≠ .call .reset := by
    intro a ha
    rintro rfl
    simp [acts, HostCall.nmi] at ha
  have total : (moments.filterMap Moment.encoding?).map Encoding.cycles = [2, 2, 7, 2, 2, 2] ∧
      moments.countP Moment.takesBranch = 1 ∧ moments.countP Moment.interrupts = 1 := by
    decide +kernel
  obtain ⟨cycles, branches, interrupts⟩ := total
  have accounted := cycles_accounted fresh since
  simp only [moments] at cycles branches interrupts
  simp only [cycles, branches, interrupts] at accounted
  obtain ⟨counter, _, _, monotone, _⟩ := accounted (by decide)
  exact ⟨fresh, since, by decide +kernel, interrupts, counter, monotone _ _ rfl⟩

end Machine

end Core6502
