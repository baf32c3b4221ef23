import Core6502.Proofs.CycleBudget
import Core6502.Proofs.Locality

/-!
# Stored flags

Four flags are condition flags, which instructions set and branches look at. The other four and
the cycle counter are only stored: no step looks at them, so two machines that differ in nothing
else stay alike for as long as the status is not pushed. Popping a status makes even these flags
equal. In particular the decimal flag does not matter: addition and subtraction are binary.
-/

namespace Core6502

universe u

/-- Flags that no instruction looks at, other than by pushing the whole status. -/
def Flag.isStored : Flag → Bool
  | .unused | .brk | .decimal | .interruptDisable => true
  | .negative | .overflow | .zero | .carry => false

def Status.conditions (s : Status) : Status :=
  { s with unused := false, brk := false, decimal := false, interruptDisable := false }

theorem Status.get_conditions (s : Status) {flag : Flag} (looked : flag.isStored = false) :
    s.conditions.get flag = s.get flag := by
  cases flag with
  | negative | overflow | zero | carry => rfl
  | unused | brk | decimal | interruptDisable => cases looked

def Operation.ignoresStored : Operation → Bool
  | .branch flag _ => !flag.isStored
  | .pushStatus | .forceInterrupt => false
  | _ => true

theorem Instruction.ignoresStored {i : Instruction} (php : i ≠ .php) (brk : i ≠ .brk) :
    i.operation.ignoresStored = true := by
  cases i with
  | php => exact absurd rfl php
  | brk => exact absurd rfl brk
  | _ => rfl

def Operation.restoresStatus : Operation → Bool
  | .pullStatus | .returnFromInterrupt => true
  | _ => false

namespace Machine

variable {M : Type u}

/-- Machines that differ at most in the stored flags and in the counter. -/
structure SameEssence (m n : Machine M) : Prop where
  a : n.regs.a = m.regs.a
  x : n.regs.x = m.regs.x
  y : n.regs.y = m.regs.y
  sp : n.regs.sp = m.regs.sp
  pc : n.regs.pc = m.regs.pc
  negative : n.regs.status.negative = m.regs.status.negative
  overflow : n.regs.status.overflow = m.regs.status.overflow
  zero : n.regs.status.zero = m.regs.status.zero
  carry : n.regs.status.carry = m.regs.status.carry
  config : n.config = m.config
  bus : n.bus = m.bus

/-- What a machine computes with: everything but the stored flags and the counter. -/
def essence (m : Machine M) : Machine M :=
  { m with regs := { m.regs with status := m.regs.status.conditions }, cycles := 0 }

theorem sameEssence_iff {m n : Machine M} : SameEssence m n ↔ n.essence = m.essence := by
  constructor
  · rintro ⟨a, x, y, sp, pc, negative, overflow, zero, carry, config, bus⟩
    simp only [essence, Status.conditions, a, x, y, sp, pc, negative, overflow, zero, carry,
      config, bus]
  · intro same
    simp only [essence, Status.conditions, Machine.mk.injEq, Registers.mk.injEq,
      Status.mk.injEq] at same
    obtain ⟨⟨a, x, y, sp, pc, negative, overflow, _, _, _, _, zero, carry⟩, _, config, bus⟩ := same
    exact ⟨a, x, y, sp, pc, negative, overflow, zero, carry, config, bus⟩

/-- A branch on a condition flag goes the same way. -/
theorem condition_essence (m : Machine M) {flag : Flag} {wanted : Bool}
    (ignores : (Operation.branch flag wanted).ignoresStored = true) :
    m.essence.regs.status.get flag = m.regs.status.get flag := by
  have looked : flag.isStored = false := by simpa [Operation.ignoresStored] using ignores
  exact m.regs.status.get_conditions looked

theorem extraCycles_essence (m : Machine M) {operation : Operation}
    (ignores : operation.ignoresStored = true) :
    operation.extraCycles m.essence.regs = operation.extraCycles m.regs := by
  cases operation with
  | branch flag wanted => simp only [Operation.extraCycles, m.condition_essence ignores]
  | _ => rfl

variable [Bus M]

/-- Forgetting the stored flags and the counter before an operation has no effect after it. -/
theorem execute_essence (m : Machine M) {operation : Operation}
    (ignores : operation.ignoresStored = true) (operand : Operand) :
    (m.essence.execute operation operand).machine.essence =
      (m.execute operation operand).machine.essence := by
  obtain ⟨value, target, length⟩ := operand
  cases operation with
  | compare register => cases register <;> rfl
  | modify transform => cases target <;> rfl
  | adjust register transform => cases register <;> rfl
  | load register => cases register <;> rfl
  | store register => cases register <;> cases target <;> rfl
  | transfer source destination => cases source <;> cases destination <;> rfl
  | assign flag wanted => cases flag <;> rfl
  | branch flag wanted =>
    cases target with
    | memory address =>
      simp only [execute, Operand.address?, m.condition_essence ignores]
      split <;> rfl
    | accumulator | nowhere => rfl
  | jump => cases target <;> rfl
  | call => cases target <;> rfl
  | pushStatus | forceInterrupt => cases ignores
  | _ => rfl

theorem operand_essence (m : Machine M) (mode : Mode) :
    m.essence.operand mode = m.operand mode := by
  cases mode <;> rfl

def PushesStatus (m : Machine M) : Prop :=
  m.instruction? = some .php ∨ m.instruction? = some .brk

def PopsStatus (m : Machine M) : Prop :=
  m.instruction? = some .plp ∨ m.instruction? = some .rti

theorem ignoresStored_of_encoding {m : Machine M} {e : Encoding} (h : m.encoding? = some e)
    (plain : ¬ m.PushesStatus) : e.instruction.operation.ignoresStored = true := by
  rw [PushesStatus, instruction?_of_encoding? h, not_or] at plain
  exact Instruction.ignoresStored (fun php => plain.1 (congrArg some php))
    fun brk => plain.2 (congrArg some brk)

namespace SameEssence

variable {m n : Machine M}

theorem encoding? (alike : SameEssence m n) : n.encoding? = m.encoding? := by
  rw [Machine.encoding?, Machine.encoding?, alike.pc, alike.bus]

theorem operand (alike : SameEssence m n) (mode : Mode) : n.operand mode = m.operand mode := by
  rw [← operand_essence, sameEssence_iff.mp alike, operand_essence]

omit [Bus M] in
theorem advance (alike : SameEssence m n) (operand : Operand) (e : Encoding) :
    SameEssence (m.advance operand e) (n.advance operand e) := by
  have moved : n.regs.pc + UInt16.ofNat (operand.length + 1) =
      m.regs.pc + UInt16.ofNat (operand.length + 1) := by rw [alike.pc]
  exact { alike with pc := moved }

theorem execute (alike : SameEssence m n) {operation : Operation}
    (ignores : operation.ignoresStored = true) (operand : Operand) :
    SameEssence (m.execute operation operand).machine (n.execute operation operand).machine := by
  rw [sameEssence_iff, ← execute_essence n ignores, sameEssence_iff.mp alike,
    execute_essence m ignores]

theorem step_result (alike : SameEssence m n) : n.step.result = m.step.result := by
  rw [Machine.step_result, Machine.step_result, alike.encoding?, alike.pc, alike.bus]

/-- A step that does not push the status keeps machines alike, for the same cycles. -/
theorem step (alike : SameEssence m n) (plain : ¬ m.PushesStatus) :
    SameEssence m.step.machine n.step.machine ∧ n.stepCost = m.stepCost := by
  cases h : m.encoding? with
  | none =>
    have hn : n.encoding? = none := alike.encoding?.trans h
    rw [step_of_illegal h, step_of_illegal hn]
    refine ⟨alike, ?_⟩
    simp only [stepCost, h, hn]
  | some e =>
    have hn : n.encoding? = some e := alike.encoding?.trans h
    have ignores := ignoresStored_of_encoding h plain
    rw [step_of_encoding h, step_of_encoding hn, alike.operand]
    refine ⟨(alike.advance _ e).execute ignores _, ?_⟩
    simp only [stepCost, h, hn]
    rw [← extraCycles_essence n ignores, sameEssence_iff.mp alike, extraCycles_essence m ignores]

theorem afterSteps (alike : SameEssence m n) {count : Nat}
    (plain : ∀ i, i < count → ¬ (m.afterSteps i).PushesStatus) :
    SameEssence (m.afterSteps count) (n.afterSteps count) ∧ n.spent count = m.spent count := by
  induction count generalizing m n with
  | zero => exact ⟨alike, rfl⟩
  | succ count ih =>
    obtain ⟨next, cost⟩ := alike.step (plain 0 (by omega))
    obtain ⟨rest, costs⟩ := ih next fun i hi => plain (i + 1) (by omega)
    refine ⟨rest, ?_⟩
    rw [spent, spent, cost, costs]

/-- Operations that pop the status leave no difference between the registers. -/
theorem execute_regs (alike : SameEssence m n) {operation : Operation}
    (restores : operation.restoresStatus = true) (operand : Operand) :
    (n.execute operation operand).machine.regs = (m.execute operation operand).machine.regs := by
  cases operation with
  | pullStatus =>
    simp only [execute_pullStatus, alike.a, alike.x, alike.y, alike.sp, alike.pc, alike.bus]
    rfl
  | returnFromInterrupt =>
    simp only [execute_returnFromInterrupt, alike.a, alike.x, alike.y, alike.sp, alike.bus]
    rfl
  | _ => cases restores

theorem step_regs (alike : SameEssence m n) (pops : m.PopsStatus) :
    n.step.machine.regs = m.step.machine.regs := by
  have restores : ∃ e, m.encoding? = some e ∧ e.instruction.operation.restoresStatus = true := by
    rcases pops with plp | rti
    · obtain ⟨e, h, hi⟩ := encoding?_of_instruction? plp
      exact ⟨e, h, by rw [hi]; rfl⟩
    · obtain ⟨e, h, hi⟩ := encoding?_of_instruction? rti
      exact ⟨e, h, by rw [hi]; rfl⟩
  obtain ⟨e, h, restores⟩ := restores
  rw [step_of_encoding h, step_of_encoding (alike.encoding?.trans h), alike.operand]
  exact (alike.advance _ e).execute_regs restores _

/-- Machines that differ in the counter alone take the same step. -/
theorem sameView (alike : SameEssence m n) (regs : n.regs = m.regs) : SameView m n where
  regs := regs
  config := alike.config
  encoding := alike.encoding?
  opcode := by rw [alike.bus]
  target e _ := by rw [alike.operand]
  value e _ _ := by rw [alike.operand]
  pops e _ a _ := by rw [alike.bus]
  vector e _ _ := by rw [SameVector, alike.bus]

theorem afterSteps_regs (alike : SameEssence m n) (regs : n.regs = m.regs) {count : Nat}
    (plain : ∀ i, i < count → ¬ (m.afterSteps i).PushesStatus) :
    (n.afterSteps count).regs = (m.afterSteps count).regs := by
  induction count generalizing m n with
  | zero => exact regs
  | succ count ih =>
    obtain ⟨next, _⟩ := alike.step (plain 0 (by omega))
    exact ih next (alike.sameView regs).sameStep.regs fun i hi => plain (i + 1) (by omega)

end SameEssence

def AddsInBinary (m : Machine M) (value : Byte) : Prop :=
  let total := m.regs.a.toNat + value.toNat + m.regs.status.carry.toNat
  m.step.machine.regs.a.toNat = total % 256 ∧
    m.step.machine.regs.status.carry = decide (256 ≤ total)

/-- The step leaves the binary difference of the accumulator and this byte with the borrow,
which is the opposite of the carry. -/
def SubtractsInBinary (m : Machine M) (value : Byte) : Prop :=
  let taken := value.toNat + (!m.regs.status.carry).toNat
  m.step.machine.regs.a.toNat = (m.regs.a.toNat + 256 - taken) % 256 ∧
    m.step.machine.regs.status.carry = decide (taken ≤ m.regs.a.toNat)

theorem step_addsInBinary {m : Machine M} {e : Encoding} (h : m.encoding? = some e)
    (adc : e.instruction = .adc) : m.AddsInBinary (m.operand e.mode).value := by
  rw [AddsInBinary, step_of_encoding h, adc]
  exact ⟨toNat_addWithCarry _ _ _, carry_addWithCarry _ _ _⟩

theorem step_subtractsInBinary {m : Machine M} {e : Encoding} (h : m.encoding? = some e)
    (sbc : e.instruction = .sbc) : m.SubtractsInBinary (m.operand e.mode).value := by
  rw [SubtractsInBinary, step_of_encoding h, sbc]
  exact ⟨toNat_subtractWithCarry _ _ _, carry_subtractWithCarry _ _ _⟩

/-- As long as the status is not pushed, runs from machines that differ in the stored flags and
the counter stay alike: the same results, the same cycles, the same of everything else. Once a
status is popped they differ in the counter alone. Sums and differences are always binary. -/
theorem stored_flags_inert {m n : Machine M} (alike : SameEssence m n) {count : Nat}
    (plain : ∀ i, i < count → ¬ (m.afterSteps i).PushesStatus) :
    (∀ i, i < count → (n.afterSteps i).step.result = (m.afterSteps i).step.result) ∧
    (∀ i, i ≤ count →
      SameEssence (m.afterSteps i) (n.afterSteps i) ∧
      (n.run i).result = (m.run i).result ∧ SameEssence (m.run i).machine (n.run i).machine ∧
      (m.Fits i → n.Fits i →
        (m.afterSteps i).cycles.toNat = m.cycles.toNat + m.spent i ∧
        (n.afterSteps i).cycles.toNat = n.cycles.toNat + m.spent i)) ∧
    (∀ i j, i < j → j ≤ count → (m.afterSteps i).PopsStatus →
      (n.afterSteps j).regs = (m.afterSteps j).regs) ∧
    ∀ (k : Machine M) (e : Encoding), k.encoding? = some e →
      (e.instruction = .adc → k.AddsInBinary (k.operand e.mode).value) ∧
      (e.instruction = .sbc → k.SubtractsInBinary (k.operand e.mode).value) := by
  have upTo {i : Nat} (hi : i ≤ count) : SameEssence (m.afterSteps i) (n.afterSteps i) ∧
      n.spent i = m.spent i := alike.afterSteps fun j hj => plain j (by omega)
  have results {i : Nat} (hi : i < count) :
      (n.afterSteps i).step.result = (m.afterSteps i).step.result :=
    (upTo (Nat.le_of_lt hi)).1.step_result
  refine ⟨fun i hi => results hi, ?_, ?_, ?_⟩
  · intro i hi
    obtain ⟨result, k, hk, first, second⟩ :=
      run_of_same_results fun j (hj : j < i) => results (by omega)
    refine ⟨(upTo hi).1, result, ?_, ?_⟩
    · rw [first, second]
      exact (upTo (Nat.le_trans hk hi)).1
    · intro fits fits'
      refine ⟨fits.toNat_cycles, ?_⟩
      rw [fits'.toNat_cycles, (upTo hi).2]
  · intro i j lt hj pops
    obtain ⟨d, rfl⟩ : ∃ d, j = i + 1 + d := ⟨j - (i + 1), by omega⟩
    have popped : (n.afterSteps (i + 1)).regs = (m.afterSteps (i + 1)).regs := by
      rw [afterSteps_add, afterSteps_add]
      exact (upTo (Nat.le_of_lt (by omega))).1.step_regs pops
    rw [afterSteps_add m, afterSteps_add n]
    refine (upTo (by omega)).1.afterSteps_regs popped fun k hk => ?_
    rw [← afterSteps_add]
    exact plain _ (by omega)
  · intro k e h
    exact ⟨step_addsInBinary h, step_subtractsInBinary h⟩

/-- Adds 5 to 9, takes the sum for a status, and ends in an illegal opcode. -/
def adding : Machine Memory :=
  powerOn (Bus.store Memory.zeroed 0x8000 [0xA9, 0x09, 0x69, 0x05, 0x48, 0x28, 0x02])
    { initialPc := 0x8000 }

/-- The same with every stored flag the other way and with a counter that has run. -/
def addingDecimal : Machine Memory :=
  { adding with
    regs := { adding.regs with
      status := { unused := false, brk := true, decimal := true, interruptDisable := true } }
    cycles := 1000 }

/-- The sum is binary, and the status that is popped is the same. -/
theorem stored_flags_inert_adding :
    SameEssence adding addingDecimal ∧ (∀ i, i < 5 → ¬ (adding.afterSteps i).PushesStatus) ∧
    (adding.afterSteps 3).PopsStatus ∧ adding.Fits 5 ∧ addingDecimal.Fits 5 ∧
    (addingDecimal.afterSteps 2).regs.a = 14 ∧
    (addingDecimal.afterSteps 2).regs ≠ (adding.afterSteps 2).regs ∧
    (addingDecimal.afterSteps 5).regs = (adding.afterSteps 5).regs ∧
    (addingDecimal.afterSteps 4).step.result = .error (.illegalOpcode 0x02 0x8006) ∧
    (addingDecimal.afterSteps 5).cycles.toNat = 1011 := by
  have alike : SameEssence adding addingDecimal :=
    ⟨rfl, rfl, rfl, rfl, rfl, rfl, rfl, rfl, rfl, rfl, rfl⟩
  have executed : ∀ i : Fin 5, (adding.afterSteps i).instruction? =
      [some .lda, some .adc, some .pha, some .plp, none][i] := by decide +kernel
  have plain : ∀ i, i < 5 → ¬ (adding.afterSteps i).PushesStatus := by
    intro i hi
    rw [PushesStatus, executed ⟨i, hi⟩]
    revert hi
    decide +revert
  have pops : (adding.afterSteps 3).PopsStatus := Or.inl (executed 3)
  have fits : adding.Fits 5 := by
    rw [Fits]
    decide +kernel
  have fits' : addingDecimal.Fits 5 := by
    rw [Fits]
    decide +kernel
  obtain ⟨results, along, popped, _⟩ := stored_flags_inert alike plain
  obtain ⟨_, _, _, counters⟩ := along 5 (by omega)
  have sum : (addingDecimal.afterSteps 2).regs.a = 14 :=
    (along 2 (by omega)).1.a.trans (by decide +kernel)
  have fault : (adding.afterSteps 4).step.result = .error (.illegalOpcode 0x02 0x8006) :=
    step_error_iff.mpr (by decide +kernel)
  refine ⟨alike, plain, pops, fits, fits', sum, by decide +kernel, ?_, ?_, ?_⟩
  · exact popped 3 5 (by omega) (by omega) pops
  · exact (results 4 (by omega)).trans fault
  · rw [(counters fits fits').2]
    decide +kernel

end Machine

end Core6502
