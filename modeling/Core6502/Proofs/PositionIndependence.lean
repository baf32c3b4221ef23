import Core6502.Proofs.Runs
import Core6502.Proofs.StepCost

/-!
# Position independence

Code runs the same wherever it lies, as long as it does not jump, call or return: a step of the
same bytes at another place has the same effect, with the program counter as far away as before.
Branches are relative, so they are no exception. Jumps and returns set the program counter from
bytes alone, and so bring both places together. Addresses wrap, and code may change itself.
-/

namespace Core6502

universe u

theorem Word.add_right_comm (a b c : Word) : a + b + c = a + c + b := by
  rw [UInt16.add_assoc, UInt16.add_comm b, UInt16.add_assoc]

/-- Instructions that set or save an absolute program counter. -/
def Instruction.isAbsolute : Instruction → Bool
  | .jmp | .jsr | .rts | .rti | .brk => true
  | _ => false

theorem Instruction.operation_of_relative {i : Instruction} (relative : i.isAbsolute = false) :
    i.operation.isControlFlow = false ∨ ∃ flag value, i.operation = .branch flag value := by
  cases i with
  | jmp | jsr | rts | rti | brk => cases relative
  | bcc | bcs | beq | bmi | bne | bpl | bvc | bvs => exact Or.inr ⟨_, _, rfl⟩
  | _ => exact Or.inl rfl

/-- Operations that set the program counter and save none. -/
def Operation.forgetsPlace : Operation → Bool
  | .jump | .returnFromCall | .returnFromInterrupt => true
  | _ => false

theorem Operation.branch_of_accepts {operation : Operation}
    (accepts : operation.accepts .relative = true) :
    ∃ flag value, operation = .branch flag value := by
  cases operation with
  | branch flag value => exact ⟨flag, value, rfl⟩
  | modify transform => cases transform <;> cases accepts
  | _ => cases accepts

namespace Machine

section AnyBus

variable {M : Type u}

def shift (m : Machine M) (distance : Word) : Machine M :=
  m.jumpTo (m.regs.pc + distance)

theorem jumpTo_eq_shift (m : Machine M) (place : Word) :
    m.jumpTo place = m.shift (place - m.regs.pc) := by
  rw [shift, UInt16.add_comm, UInt16.sub_add_cancel]

theorem advance_shift (m : Machine M) (distance : Word) (operand : Operand) (e : Encoding) :
    (m.shift distance).advance operand e = (m.advance operand e).shift distance := by
  have moved : m.regs.pc + distance + UInt16.ofNat (operand.length + 1) =
      m.regs.pc + UInt16.ofNat (operand.length + 1) + distance := Word.add_right_comm _ _ _
  simp only [advance, shift, jumpTo, charge, moved]

variable [Bus M]

/-- An operation that does not set the program counter does the same anywhere. -/
theorem execute_shift (m : Machine M) (distance : Word) {operation : Operation}
    (straight : operation.isControlFlow = false) (operand : Operand) :
    ((m.shift distance).execute operation operand).machine =
      (m.execute operation operand).machine.shift distance := by
  obtain ⟨value, target, length⟩ := operand
  cases operation with
  | compare register => cases register <;> rfl
  | modify transform => cases target <;> rfl
  | adjust register transform => cases register <;> rfl
  | load register => cases register <;> rfl
  | store register => cases register <;> cases target <;> rfl
  | transfer source destination => cases source <;> cases destination <;> rfl
  | branch | jump | call | returnFromCall | forceInterrupt | returnFromInterrupt => cases straight
  | _ => rfl

/-- A branch does the same anywhere if its target is as far away as before. -/
theorem execute_branch_shift (m : Machine M) {distance target : Word} {operand other : Operand}
    (near : operand.address? = some target) (far : other.address? = some (target + distance))
    (flag : Flag) (value : Bool) :
    ((m.shift distance).execute (.branch flag value) other).machine =
      (m.execute (.branch flag value) operand).machine.shift distance := by
  simp only [execute, near, far]
  by_cases taken : m.regs.status.get flag = value
  · have taken' : (m.shift distance).regs.status.get flag = value := taken
    rw [if_pos taken, if_pos taken']
    rfl
  · have taken' : ¬ (m.shift distance).regs.status.get flag = value := taken
    rw [if_neg taken, if_neg taken']
    rfl

/-- A jump or a return ends in the same place wherever it comes from. -/
theorem execute_shift_of_forgetsPlace (m : Machine M) (distance : Word) {operation : Operation}
    (forgets : operation.forgetsPlace = true) {operand : Operand}
    (target : operation = .jump → operand.address?.isSome = true) :
    ((m.shift distance).execute operation operand).machine =
      (m.execute operation operand).machine := by
  cases operation with
  | jump =>
    obtain ⟨address, located⟩ := Option.isSome_iff_exists.mp (target rfl)
    simp only [execute, located]
    rfl
  | returnFromCall | returnFromInterrupt => rfl
  | _ => cases forgets

/-- The bytes after the opcode say all about an operand, unless they are an offset. -/
theorem operand_shift {m : Machine M} {distance : Word} {mode : Mode}
    (raw : (m.shift distance).rawOperand mode = m.rawOperand mode) (absolute : mode ≠ .relative) :
    (m.shift distance).operand mode = m.operand mode := by
  rw [operand, operand, raw]
  cases mode with
  | relative => exact absurd rfl absolute
  | _ => rfl

theorem address?_shift {m : Machine M} {distance : Word}
    (raw : (m.shift distance).rawOperand .relative = m.rawOperand .relative) :
    ∃ target, (m.operand .relative).address? = some target ∧
      ((m.shift distance).operand .relative).address? = some (target + distance) := by
  refine ⟨m.regs.pc + 2 + Word.signExtend (Word.low (m.rawOperand .relative)), rfl, ?_⟩
  have moved : m.regs.pc + distance + 2 + Word.signExtend (Word.low (m.rawOperand .relative)) =
      m.regs.pc + 2 + Word.signExtend (Word.low (m.rawOperand .relative)) + distance := by
    rw [Word.add_right_comm m.regs.pc, Word.add_right_comm]
  rw [← moved, ← raw]
  rfl

end AnyBus

def instructionSize (m : Machine Memory) : Nat :=
  m.encoding?.elim 1 Encoding.size

def SameCode (m n : Machine Memory) : Prop :=
  ∀ k, k < m.instructionSize →
    n.bus.read (n.regs.pc + UInt16.ofNat k) = m.bus.read (m.regs.pc + UInt16.ofNat k)

instance (m n : Machine Memory) : Decidable (SameCode m n) :=
  Nat.decidableBallLT m.instructionSize fun k _ =>
    n.bus.read (n.regs.pc + UInt16.ofNat k) = m.bus.read (m.regs.pc + UInt16.ofNat k)

namespace SameCode

variable {m n : Machine Memory}

theorem opcode (code : SameCode m n) : n.bus.read n.regs.pc = m.bus.read m.regs.pc := by
  have positive : 0 < m.instructionSize := by
    rw [instructionSize]
    cases m.encoding? with
    | none => exact Nat.one_pos
    | some e => exact Nat.succ_pos _
  have first := code 0 positive
  simpa using first

theorem encoding? (code : SameCode m n) : n.encoding? = m.encoding? := by
  rw [Machine.encoding?, Machine.encoding?, Memory.bus_read, Memory.bus_read, code.opcode]

theorem rawOperand (code : SameCode m n) {e : Encoding} (h : m.encoding? = some e) :
    n.rawOperand e.mode = m.rawOperand e.mode := by
  have size : m.instructionSize = e.mode.operandLength + 1 := by
    rw [instructionSize, h]
    rfl
  have byte {k : Nat} (hk : k ≤ e.mode.operandLength) :
      n.bus.read (n.regs.pc + UInt16.ofNat k) = m.bus.read (m.regs.pc + UInt16.ofNat k) :=
    code k (by omega)
  have second (pc : Word) : pc + 1 + 1 = pc + 2 := UInt16.add_assoc pc 1 1
  simp only [Machine.rawOperand]
  split
  · rfl
  · exact congrArg UInt8.toUInt16 (byte (k := 1) (by omega))
  · rename_i notZero notOne
    have two : 2 ≤ e.mode.operandLength :=
      Nat.lt_of_le_of_ne (Nat.pos_of_ne_zero notZero) (Ne.symm notOne)
    have low := byte (k := 1) (by omega)
    have high := byte two
    rw [Memory.bus_readWord, Memory.bus_readWord, second, second]
    exact congr (congrArg Word.ofBytes high) low

end SameCode

variable {m : Machine Memory} {distance : Word}

/-- The next instruction, if there is one, sets or saves no absolute program counter. -/
def NextIsRelative (m : Machine Memory) : Prop :=
  ∀ i ∈ m.instruction?, i.isAbsolute = false

instance (m : Machine Memory) : Decidable m.NextIsRelative :=
  inferInstanceAs (Decidable (∀ i ∈ m.instruction?, i.isAbsolute = false))

/-- Only branches take an offset. -/
theorem mode_ne_relative {e : Encoding} (h : m.encoding? = some e)
    (other : ∀ flag value, e.instruction.operation ≠ .branch flag value) : e.mode ≠ .relative := by
  intro offset
  have accepts := accepts_of_encoding h
  rw [offset] at accepts
  obtain ⟨flag, value, branch⟩ := Operation.branch_of_accepts accepts
  exact other flag value branch

theorem takesBranch_shift (code : SameCode m (m.shift distance)) :
    (m.shift distance).takesBranch = m.takesBranch := by
  simp only [takesBranch, code.encoding?]
  cases m.encoding? with
  | none => rfl
  | some e => cases e.instruction.operation <;> rfl

/-- A step of the same bytes at another place has the same effect, as far away as before. -/
theorem step_shift (code : SameCode m (m.shift distance)) (relative : m.NextIsRelative) :
    (m.shift distance).step.machine = m.step.machine.shift distance := by
  cases h : m.encoding? with
  | none => rw [step_of_illegal h, step_of_illegal (code.encoding?.trans h)]
  | some e =>
    have near := relative e.instruction (instruction?_of_encoding? h)
    rw [step_of_encoding h, step_of_encoding (code.encoding?.trans h)]
    rcases Instruction.operation_of_relative near with straight | branch
    · have absolute : e.mode ≠ .relative := by
        refine mode_ne_relative h fun flag value branch => ?_
        rw [branch] at straight
        cases straight
      rw [operand_shift (code.rawOperand h) absolute, advance_shift]
      exact execute_shift _ distance straight _
    · obtain ⟨flag, value, branch⟩ := branch
      have offset := mode_of_encoding h branch fun _ => rfl
      have raw := code.rawOperand h
      rw [offset] at raw
      obtain ⟨target, near, far⟩ := address?_shift raw
      have advanced : (m.shift distance).advance ((m.shift distance).operand .relative) e =
          (m.advance (m.operand .relative) e).shift distance := advance_shift m distance _ e
      rw [branch, offset, advanced]
      exact execute_branch_shift _ near far flag value

/-- A jump or a return by the same bytes ends in the same machine. -/
theorem step_shift_of_forgetsPlace {e : Encoding} (code : SameCode m (m.shift distance))
    (h : m.encoding? = some e) (forgets : e.instruction.operation.forgetsPlace = true) :
    (m.shift distance).step.machine = m.step.machine := by
  have accepts := accepts_of_encoding h
  have absolute : e.mode ≠ .relative := by
    refine mode_ne_relative h fun flag value branch => ?_
    rw [branch] at forgets
    cases forgets
  have target : e.instruction.operation = .jump →
      (m.operand e.mode).address?.isSome = true := by
    intro jump
    rw [jump] at accepts
    rw [operand_address?]
    cases mode : e.mode with
    | absolute | indirect => rfl
    | _ =>
      rw [mode] at accepts
      cases accepts
  rw [step_of_encoding h, step_of_encoding (code.encoding?.trans h),
    operand_shift (code.rawOperand h) absolute, advance_shift]
  exact execute_shift_of_forgetsPlace _ distance forgets target

theorem afterSteps_shift {count : Nat}
    (code : ∀ i, i < count → SameCode (m.afterSteps i) ((m.shift distance).afterSteps i))
    (relative : ∀ i, i < count → (m.afterSteps i).NextIsRelative) :
    (m.shift distance).afterSteps count = (m.afterSteps count).shift distance := by
  induction count generalizing m with
  | zero => rfl
  | succ count ih =>
    have first : (m.shift distance).step.machine = m.step.machine.shift distance :=
      step_shift (code 0 (by omega)) (relative 0 (by omega))
    rw [afterSteps, first]
    refine ih ?_ fun i hi => relative (i + 1) (by omega)
    intro i hi
    have later := code (i + 1) (by omega)
    rw [afterSteps, afterSteps, first] at later
    exact later

theorem step_of_illegal_shift (code : SameCode m (m.shift distance)) (h : m.encoding? = none) :
    ∃ opcode, m.step.result = .error (.illegalOpcode opcode m.regs.pc) ∧
      (m.shift distance).step.result = .error (.illegalOpcode opcode (m.regs.pc + distance)) ∧
      m.step.machine = m ∧ (m.shift distance).step.machine = m.shift distance := by
  refine ⟨m.bus.read m.regs.pc, ?_⟩
  rw [step_of_illegal h, step_of_illegal (code.encoding?.trans h), Memory.bus_read,
    Memory.bus_read, code.opcode]
  exact ⟨rfl, rfl, rfl, rfl⟩

/-- Two runs from machines that differ only in the program counter, through the same code at both
places, differ only in the program counter for as long as no absolute one is set or saved. A jump
or a return then brings them together, and an illegal opcode fails in both. -/
theorem position_independent (m : Machine Memory) (place : Word) {count : Nat}
    (code : ∀ i, i < count → SameCode (m.afterSteps i) ((m.jumpTo place).afterSteps i))
    (relative : ∀ i, i < count → (m.afterSteps i).NextIsRelative) :
    let distance := place - m.regs.pc
    let here := m.afterSteps
    let there := (m.jumpTo place).afterSteps
    (∀ i, i ≤ count → there i = (here i).shift distance) ∧
    (∀ i, i < count → (there i).encoding? = (here i).encoding? ∧
      (there i).takesBranch = (here i).takesBranch) ∧
    (SameCode (here count) (there count) →
      (∀ i, (here count).instruction? = some i → i = .jmp ∨ i = .rts ∨ i = .rti →
        (there count).step.machine = (here count).step.machine) ∧
      ((here count).encoding? = none → ∃ opcode,
        (here count).step.result = .error (.illegalOpcode opcode (here count).regs.pc) ∧
        (there count).step.result =
          .error (.illegalOpcode opcode ((here count).regs.pc + distance)) ∧
        (here count).step.machine = here count ∧ (there count).step.machine = there count)) := by
  intro distance here there
  have shifted {i : Nat} (hi : i ≤ count) : there i = (here i).shift distance := by
    have start : m.jumpTo place = m.shift distance := m.jumpTo_eq_shift place
    simp only [there, start] at code ⊢
    exact afterSteps_shift (fun j hj => code j (by omega)) fun j hj => relative j (by omega)
  refine ⟨fun i hi => shifted hi, ?_, ?_⟩
  · intro i hi
    have same := code i hi
    have far : (m.jumpTo place).afterSteps i = _ := shifted (Nat.le_of_lt hi)
    rw [far] at same
    rw [shifted (Nat.le_of_lt hi)]
    exact ⟨same.encoding?, takesBranch_shift same⟩
  · intro same
    rw [shifted (Nat.le_refl count)] at same ⊢
    refine ⟨?_, step_of_illegal_shift same⟩
    intro i executes which
    obtain ⟨e, h, rfl⟩ := encoding?_of_instruction? executes
    refine step_shift_of_forgetsPlace same h ?_
    rcases which with jmp | rts | rti
    · rw [jmp]; rfl
    · rw [rts]; rfl
    · rw [rti]; rfl

/-- A loop that counts down from 2 and then jumps away, at 0x8000 and across the end of memory. -/
def countdown : Machine Memory :=
  let code : List Byte := [0xA2, 0x02, 0xCA, 0xD0, 0xFD, 0x4C, 0x00, 0x12]
  powerOn (Bus.store (Bus.store Memory.zeroed 0x8000 code) 0xFFFE code) { initialPc := 0x8000 }

/-- The branch is taken once and then not, and the jump meets. -/
theorem position_independent_countdown :
    let there := (countdown.jumpTo 0xFFFE).afterSteps
    (∀ i, i < 5 → SameCode (countdown.afterSteps i) (there i)) ∧
    (∀ i, i < 5 → (countdown.afterSteps i).NextIsRelative) ∧
    (there 2).takesBranch = true ∧ (there 4).takesBranch = false ∧
    (there 3).regs.pc = 0x0000 ∧ (there 5).regs.pc = 0x0003 ∧
    (there 5).step.machine = (countdown.afterSteps 5).step.machine := by
  intro there
  have code : ∀ i, i < 5 → SameCode (countdown.afterSteps i) (there i) := by decide +kernel
  have relative : ∀ i, i < 5 → (countdown.afterSteps i).NextIsRelative := by decide +kernel
  obtain ⟨shifted, branches, meets⟩ := position_independent countdown 0xFFFE code relative
  have jump : (countdown.afterSteps 5).instruction? = some .jmp := by decide +kernel
  have far {i : Nat} (hi : i ≤ 5) : (there i).regs.pc = (countdown.afterSteps i).regs.pc + 0x7FFE :=
    congrArg (fun n => n.regs.pc) (shifted i hi)
  refine ⟨code, relative, ?_, ?_, ?_, ?_, ?_⟩
  · exact (branches 2 (by omega)).2.trans (by decide +kernel)
  · exact (branches 4 (by omega)).2.trans (by decide +kernel)
  · exact (far (by omega)).trans (by decide +kernel)
  · exact (far (by omega)).trans (by decide +kernel)
  · exact (meets (by decide +kernel)).1 _ jump (Or.inl rfl)

end Machine

end Core6502
