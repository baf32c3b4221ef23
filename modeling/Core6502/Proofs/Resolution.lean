import Core6502.Proofs.Decoding

/-!
# Where addressing modes lead

What resolving a mode gives on any bus, with the effective address counted in integers. There are
four ways of wrapping: an index in page zero and the second byte of a pointer there wrap at 256,
other indices and branch offsets wrap at 65536. Modes of one byte look at one byte only, and some
modes coincide with others.
-/

namespace Core6502

universe u

namespace Word

theorem toNat_low_toUInt16 (w : Word) : (low w).toUInt16.toNat = w.toNat % 256 := by
  rw [UInt8.toNat_toUInt16, toNat_low]

theorem low_eq_iff {v w : Word} : low v = low w ↔ v.toNat % 256 = w.toNat % 256 := by
  rw [← UInt8.toNat_inj, toNat_low, toNat_low]

/-- A byte as a signed number is added modulo 65536. -/
theorem toNat_add_signExtend (a : Word) (b : Byte) :
    ((a + signExtend b).toNat : Int) = (a.toNat + Int.bmod b.toNat 256) % 65536 := by
  have extended : ((signExtend b).toNat : Int) = Int.bmod b.toNat 256 % 65536 := by
    revert b
    decide +kernel
  rw [UInt16.toNat_add]
  omega

end Word

variable {M : Type u} [Bus M]

/-- Both bytes of a pointer in page zero are read there. -/
theorem Operand.toNat_zeroPagePointer (bus : M) (place : Byte) :
    (zeroPagePointer bus place).toNat =
      (Bus.read bus (UInt16.ofNat place.toNat)).toNat +
        256 * (Bus.read bus (UInt16.ofNat ((place.toNat + 1) % 256))).toNat := by
  have next : (place.toNat + 1) % 256 = (place + 1).toNat := (UInt8.toNat_add place 1).symm
  have word (b : Byte) : UInt16.ofNat b.toNat = b.toUInt16 := by simp
  rw [next, word, word, zeroPagePointer, Word.toNat_ofBytes, Nat.add_comm]

namespace Mode

def inPageZero : Mode → Bool
  | zeroPage | zeroPageX | zeroPageY => true
  | _ => false

/-- The effective address in integers, with `raw` the number after the opcode. -/
def place? (mode : Mode) (regs : Registers) (bus : M) (raw : Nat) : Option Nat :=
  let low := raw % 256
  let x := regs.x.toNat
  let y := regs.y.toNat
  let byte (place : Nat) := (Bus.read bus (UInt16.ofNat place)).toNat
  let pointer (place : Nat) := byte place + 256 * byte ((place + 1) % 256)
  match mode with
  | accumulator | implied | immediate => none
  | zeroPage => some low
  | zeroPageX => some ((low + x) % 256)
  | zeroPageY => some ((low + y) % 256)
  | absolute => some raw
  | absoluteX => some ((raw + x) % 65536)
  | absoluteY => some ((raw + y) % 65536)
  | indirect => some (Bus.readWord bus (UInt16.ofNat raw)).toNat
  | indirectX => some (pointer ((low + x) % 256))
  | indirectY => some ((pointer low + y) % 65536)
  | relative => some ((regs.pc.toNat + 2 + Int.bmod low 256) % 65536).toNat

theorem toNat_address? (mode : Mode) (regs : Registers) (bus : M) (raw : Word) :
    (mode.resolve regs bus raw).address?.map UInt16.toNat = mode.place? regs bus raw.toNat := by
  have indexed (index : Byte) :
      (Word.low raw + index).toUInt16.toNat = (raw.toNat % 256 + index.toNat) % 256 := by
    rw [UInt8.toNat_toUInt16, UInt8.toNat_add, Word.toNat_low]
  have further (base : Word) (index : Byte) :
      (base + index.toUInt16).toNat = (base.toNat + index.toNat) % 65536 := by
    rw [UInt16.toNat_add, UInt8.toNat_toUInt16]
  cases mode with
  | accumulator | implied | immediate => rfl
  | zeroPage => exact congrArg some raw.toNat_low_toUInt16
  | zeroPageX => exact congrArg some (indexed regs.x)
  | zeroPageY => exact congrArg some (indexed regs.y)
  | absolute => rfl
  | absoluteX => exact congrArg some (further raw regs.x)
  | absoluteY => exact congrArg some (further raw regs.y)
  | indirect =>
    rw [place?, UInt16.ofNat_toNat]
    rfl
  | indirectX =>
    refine congrArg some ((Operand.toNat_zeroPagePointer bus (Word.low raw + regs.x)).trans ?_)
    rw [UInt8.toNat_add, Word.toNat_low]
  | indirectY =>
    refine congrArg some ((further _ regs.y).trans ?_)
    rw [Operand.toNat_zeroPagePointer, Word.toNat_low]
  | relative =>
    have target := Word.toNat_add_signExtend (regs.pc + 2) (Word.low raw)
    have next : (regs.pc + 2).toNat = (regs.pc.toNat + 2) % 65536 := UInt16.toNat_add regs.pc 2
    refine congrArg some ?_
    rw [Word.toNat_low, next] at target
    omega

/-- Modes of one byte lead to the same place whatever the other one is. -/
theorem place?_of_low {mode : Mode} (one : mode.operandLength = 1) (regs : Registers) (bus : M)
    {v w : Nat} (low : v % 256 = w % 256) :
    mode.place? regs bus v = mode.place? regs bus w := by
  cases mode with
  | immediate | zeroPage | zeroPageX | zeroPageY | indirectX | indirectY | relative =>
    simp only [place?, low]
  | _ => cases one

structure Contract (mode : Mode) (regs : Registers) (bus : M) (raw : Word) (operand : Operand) :
    Prop where
  length : operand.length = mode.operandLength
  /-- The machine moves past the whole instruction. -/
  size : ∀ e : Encoding, e.mode = mode → operand.length + 1 = e.size ∧
    ∀ m : Machine M, (m.advance operand e).regs.pc = m.regs.pc + UInt16.ofNat e.size
  unplaced : operand.address? = none ↔
    mode = .accumulator ∨ mode = .implied ∨ mode = .immediate
  place : operand.address?.map UInt16.toNat = mode.place? regs bus raw.toNat
  value : operand.value =
    match operand.address? with
    | some address => Bus.read bus address
    | none => if mode = .immediate then Word.low raw else regs.a
  /-- Modes of one byte ignore the other one. -/
  byte : mode.operandLength = 1 → ∀ other : Word, other.toNat % 256 = raw.toNat % 256 →
    mode.resolve regs bus other = operand
  pageZero : mode.inPageZero = true → ∃ address, operand.address? = some address ∧
    address.toNat < 256

theorem resolve_length (mode : Mode) (regs : Registers) (bus : M) (raw : Word) :
    (mode.resolve regs bus raw).length = mode.operandLength := by
  cases mode <;> rfl

/-- Modes of one byte look at the low byte. -/
theorem resolve_of_low {mode : Mode} (one : mode.operandLength = 1) (regs : Registers) (bus : M)
    {v w : Word} (low : Word.low v = Word.low w) :
    mode.resolve regs bus v = mode.resolve regs bus w := by
  cases mode with
  | immediate => exact congrArg (Operand.mk · .nowhere 1) low
  | zeroPage => exact congrArg (fun b : Byte => Operand.atAddress bus b.toUInt16 1) low
  | zeroPageX => exact congrArg (fun b => Operand.atAddress bus (b + regs.x).toUInt16 1) low
  | zeroPageY => exact congrArg (fun b => Operand.atAddress bus (b + regs.y).toUInt16 1) low
  | indirectX =>
    exact congrArg
      (fun b => Operand.atAddress bus (Operand.zeroPagePointer bus (b + regs.x)) 1) low
  | indirectY =>
    exact congrArg
      (fun b => Operand.atAddress bus (Operand.zeroPagePointer bus b + regs.y.toUInt16) 1) low
  | relative =>
    exact congrArg
      (fun b => Operand.atAddress bus (regs.pc + 2 + Word.signExtend b) 1) low
  | _ => cases one

theorem contract (mode : Mode) (regs : Registers) (bus : M) (raw : Word) :
    mode.Contract regs bus raw (mode.resolve regs bus raw) where
  length := mode.resolve_length regs bus raw
  size := by
    rintro e rfl
    have size : (e.mode.resolve regs bus raw).length + 1 = e.size :=
      congrArg (· + 1) (e.mode.resolve_length regs bus raw)
    exact ⟨size, fun m => congrArg (fun n => m.regs.pc + UInt16.ofNat n) size⟩
  unplaced := by
    constructor
    · intro unplaced
      cases mode with
      | accumulator => exact Or.inl rfl
      | implied => exact Or.inr (Or.inl rfl)
      | immediate => exact Or.inr (Or.inr rfl)
      | _ => cases unplaced
    · rintro (rfl | rfl | rfl) <;> rfl
  place := mode.toNat_address? regs bus raw
  value := by cases mode <;> rfl
  byte one other same := resolve_of_low one regs bus (Word.low_eq_iff.mpr same)
  pageZero zero := by
    have inPage (b : Byte) : b.toUInt16.toNat < 256 := by
      rw [UInt8.toNat_toUInt16]
      exact b.toNat_lt
    cases mode with
    | zeroPage | zeroPageX | zeroPageY => exact ⟨_, rfl, inPage _⟩
    | _ => cases zero

/-- Every mode keeps its contract. An index in page zero is as good as an operand that has it
already, be it an address or the place of a pointer, and with equal indices X and Y do the same. -/
theorem modes_keep_contract (regs : Registers) (bus : M) (raw : Word) :
    (∀ mode : Mode, mode.Contract regs bus raw (mode.resolve regs bus raw)) ∧
    (∀ indexed : Word, indexed.toNat % 256 = (raw.toNat % 256 + regs.x.toNat) % 256 →
      zeroPageX.resolve regs bus raw = zeroPage.resolve regs bus indexed ∧
      (regs.y = 0 → indirectX.resolve regs bus raw = indirectY.resolve regs bus indexed)) ∧
    (regs.x = regs.y → absoluteX.resolve regs bus raw = absoluteY.resolve regs bus raw) := by
  refine ⟨fun mode => mode.contract regs bus raw, ?_, ?_⟩
  · intro indexed same
    have low : Word.low indexed = Word.low raw + regs.x := by
      apply UInt8.toNat_inj.mp
      rw [Word.toNat_low, UInt8.toNat_add, Word.toNat_low]
      exact same
    constructor
    · exact congrArg (fun b : Byte => Operand.atAddress bus b.toUInt16 1) low.symm
    · intro zero
      have base : Operand.zeroPagePointer bus (Word.low indexed) + regs.y.toUInt16 =
          Operand.zeroPagePointer bus (Word.low raw + regs.x) := by
        rw [zero, low]
        exact UInt16.add_zero _
      exact congrArg (Operand.atAddress bus · 1) base.symm
  · intro same
    exact congrArg (fun b : Byte => Operand.atAddress bus (raw + b.toUInt16) 2) same

/-- Memory with a pointer whose second byte wraps in page zero. -/
def wrappingPointer : Memory :=
  Bus.store (Bus.store Memory.zeroed 0x00FF [0xF0]) 0x0000 [0xFF]

/-- The pointer at the end of page zero is met from 0x0F with an index and from 0xFF without. -/
theorem modes_keep_contract_wrapping :
    let regs : Registers := { x := 0xF0, sp := 0xFD, pc := 0x8000 }
    (∃ address, (zeroPageX.resolve regs wrappingPointer 0x1230).address? = some address ∧
      address.toNat < 256) ∧
    zeroPageX.resolve regs wrappingPointer 0x5530 = zeroPageX.resolve regs wrappingPointer 0x1230 ∧
    zeroPageX.resolve regs wrappingPointer 0x000F = zeroPage.resolve regs wrappingPointer 0x00FF ∧
    indirectX.resolve regs wrappingPointer 0x000F = indirectY.resolve regs wrappingPointer 0x00FF ∧
    (indirectX.resolve regs wrappingPointer 0x000F).address? = some 0xFFF0 ∧
    absoluteX.resolve { regs with y := 0xF0 } wrappingPointer 0xFFF0 =
      absoluteY.resolve { regs with y := 0xF0 } wrappingPointer 0xFFF0 := by
  intro regs
  obtain ⟨contracts, _, _⟩ := modes_keep_contract regs wrappingPointer 0x1230
  obtain ⟨_, coincide, _⟩ := modes_keep_contract regs wrappingPointer 0x000F
  obtain ⟨_, _, alike⟩ := modes_keep_contract { regs with y := 0xF0 } wrappingPointer 0xFFF0
  obtain ⟨indexed, pointers⟩ := coincide 0x00FF (by decide)
  refine ⟨(contracts .zeroPageX).pageZero rfl, (contracts .zeroPageX).byte rfl 0x5530 (by decide),
    indexed, pointers rfl, by decide +kernel, alike rfl⟩

end Mode

end Core6502
