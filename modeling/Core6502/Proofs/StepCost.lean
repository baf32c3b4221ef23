import Core6502.Proofs.Decoding

/-!
# The cost of a step

A step is charged the cycles of its encoding and one more if it is a branch that
is taken. What data costs is a matter of its mode and of whether it is written.
The options of the machine never change.
-/

namespace Core6502

universe u

/-- Cycles beyond those of the encoding: one for a branch that is taken. -/
def Operation.extraCycles (regs : Registers) : Operation → Nat
  | .branch flag value => if regs.status.get flag = value then 1 else 0
  | _ => 0

def Operation.takesBranch (regs : Registers) : Operation → Bool
  | .branch flag value => regs.status.get flag == value
  | _ => false

theorem Operation.extraCycles_eq (regs : Registers) (operation : Operation) :
    operation.extraCycles regs = (operation.takesBranch regs).toNat := by
  cases operation with
  | branch flag value =>
    simp only [extraCycles, takesBranch]
    by_cases taken : regs.status.get flag = value
    · simp [taken]
    · rw [if_neg taken, beq_eq_false_iff_ne.mpr taken]
      rfl
  | _ => rfl

def Operation.usesData : Operation → Bool
  | .add | .subtract | .logic _ | .compare _ | .bitTest | .load _ | .store _ | .modify _ => true
  | _ => false

theorem Operation.extraCycles_of_usesData {operation : Operation}
    (data : operation.usesData = true) (regs : Registers) : operation.extraCycles regs = 0 := by
  cases operation with
  | branch flag value => cases data
  | _ => rfl

def Mode.readCycles : Mode → Nat
  | .immediate => 2
  | .zeroPage => 3
  | .zeroPageX | .zeroPageY | .absolute | .absoluteX | .absoluteY => 4
  | .indirectY => 5
  | .indirectX => 6
  | .accumulator | .implied | .indirect | .relative => 0

def Mode.indexesWord : Mode → Bool
  | .absoluteX | .absoluteY | .indirectY => true
  | _ => false

/-- Writing costs a cycle where an index is added to a word, and a new value costs two. -/
def Operation.accessCycles (mode : Mode) : Operation → Nat
  | .store _ => mode.readCycles + mode.indexesWord.toNat
  | .modify _ => mode.readCycles + mode.indexesWord.toNat + 2
  | _ => mode.readCycles

theorem Opcode.decode_accessCycles {opcode : Byte} {e : Encoding} (h : decode opcode = some e)
    (data : e.instruction.operation.usesData = true) :
    e.cycles = e.instruction.operation.accessCycles e.mode := by
  have row := of_rows (p := fun e => decide (e.instruction.operation.usesData = true →
    e.cycles = e.instruction.operation.accessCycles e.mode)) (by decide +kernel) h
  exact of_decide_eq_true row data

namespace Machine

variable {M : Type u} [Bus M]

def stepCost (m : Machine M) : Nat :=
  match m.encoding? with
  | some e => e.cycles + e.instruction.operation.extraCycles m.regs
  | none => 0

def takesBranch (m : Machine M) : Bool :=
  match m.encoding? with
  | some e => e.instruction.operation.takesBranch m.regs
  | none => false

theorem stepCost_eq (m : Machine M) :
    m.stepCost = m.encoding?.elim 0 Encoding.cycles + m.takesBranch.toNat := by
  cases h : m.encoding? with
  | none => simp only [stepCost, takesBranch, h, Option.elim_none, Bool.toNat_false]
  | some e =>
    simp only [stepCost, takesBranch, h, Option.elim_some, Operation.extraCycles_eq]

theorem execute_config (m : Machine M) (operation : Operation) (operand : Operand) :
    (m.execute operation operand).machine.config = m.config := by
  obtain ⟨value, target, length⟩ := operand
  cases operation with
  | store register => cases target <;> rfl
  | modify transform => cases target <;> rfl
  | branch flag wanted =>
    cases target with
    | memory address =>
      simp only [execute, Operand.address?]
      split <;> rfl
    | accumulator | nowhere => rfl
  | jump => cases target <;> rfl
  | call => cases target <;> rfl
  | _ => rfl

theorem step_config (m : Machine M) : m.step.machine.config = m.config := by
  cases h : m.encoding? with
  | none => rw [step_of_illegal h]
  | some e =>
    rw [step_of_encoding h]
    exact execute_config _ _ _

theorem execute_cycles (m : Machine M) {operation : Operation} {operand : Operand}
    (target : ∀ flag value, operation = .branch flag value → operand.address?.isSome = true) :
    (m.execute operation operand).machine.cycles =
      m.cycles + (operation.extraCycles m.regs).toUInt64 := by
  obtain ⟨value, place, length⟩ := operand
  have free : m.cycles = m.cycles + (0 : Nat).toUInt64 := by simp
  cases operation with
  | store register => cases place <;> exact free
  | modify transform => cases place <;> exact free
  | branch flag wanted =>
    cases place with
    | memory address =>
      simp only [execute, Operand.address?, Operation.extraCycles]
      split
      · rfl
      · exact free
    | accumulator | nowhere => exact absurd (target flag wanted rfl) (by simp [Operand.address?])
  | jump => cases place <;> exact free
  | call => cases place <;> exact free
  | _ => exact free

theorem step_cycles (m : Machine M) :
    m.step.machine.cycles = m.cycles + m.stepCost.toUInt64 := by
  cases h : m.encoding? with
  | none =>
    rw [step_of_illegal h]
    simp [stepCost, h]
  | some e =>
    rw [step_of_encoding h]
    simp only [stepCost, h]
    refine (execute_cycles _ ?_).trans ?_
    · intro flag value branch
      have relative := mode_of_encoding h branch fun _ => rfl
      rw [relative]
      rfl
    · change m.cycles + e.cycles.toUInt64 +
          (e.instruction.operation.extraCycles m.regs).toUInt64 = _
      rw [UInt64.add_assoc]
      exact congrArg (m.cycles + ·) (UInt64.ofNat_add ..).symm

theorem step_cycles_of_encoding {m : Machine M} {e : Encoding} (h : m.encoding? = some e)
    (data : e.instruction.operation.usesData = true) :
    m.step.machine.cycles = m.cycles + UInt64.ofNat e.cycles := by
  rw [step_cycles]
  simp only [stepCost, h, Operation.extraCycles_of_usesData data, Nat.add_zero]

end Machine

end Core6502
