import Mathlib.Algebra.Ring.Int.Defs
import Core6502.Proofs.StraightLine

/-!
# Carry chains

Numbers of many bytes are added and subtracted byte by byte, least significant byte first. The
carry takes what does not fit into one byte to the next, and neither loads nor stores touch it. So
the bytes and the last carry are the exact sum, and the flags of the last byte are those of the
whole number: overflow says that the exact signed sum is out of range. Subtraction adds the
complement. The result may take the place of an operand.
-/

namespace Core6502

theorem Flag.isSet_negative (b : Byte) : Flag.negative.isSet b = decide (128 ≤ b.toNat) := by
  revert b
  decide +kernel

theorem Flag.isSet_negative_eq_bit (b : Byte) :
    Flag.negative.isSet b = b.toBitVec.getLsbD 7 := by
  revert b
  decide +kernel

/-- The result and the carry are the whole sum. -/
theorem addWithCarry_exact (a b : Byte) (carry : Bool) :
    (addWithCarry a b carry).result.toNat + 256 * (addWithCarry a b carry).carry.toNat =
      a.toNat + b.toNat + carry.toNat := by
  have ha := a.toNat_lt
  have hb := b.toNat_lt
  have hc := carry.toNat_le
  rw [toNat_addWithCarry, carry_addWithCarry]
  by_cases wraps : 256 ≤ a.toNat + b.toNat + carry.toNat
  · rw [decide_eq_true wraps, Bool.toNat_true]
    omega
  · rw [decide_eq_false wraps, Bool.toNat_false]
    omega

/-- Overflow is a sign of the result that neither summand has. -/
theorem overflow_addWithCarry (a b : Byte) (carry : Bool) :
    (addWithCarry a b carry).overflow =
      ((Flag.negative.isSet a ^^ Flag.negative.isSet (addWithCarry a b carry).result) &&
        (Flag.negative.isSet b ^^ Flag.negative.isSet (addWithCarry a b carry).result)) := by
  have bit : (addWithCarry a b carry).overflow = Flag.negative.isSet
      ((a ^^^ (addWithCarry a b carry).result) &&& (b ^^^ (addWithCarry a b carry).result)) := rfl
  rw [bit]
  simp only [Flag.isSet_negative_eq_bit, UInt8.toBitVec_and, UInt8.toBitVec_xor,
    BitVec.getLsbD_and, BitVec.getLsbD_xor]

def topSet (count value : Nat) : Bool :=
  decide (256 ^ count ≤ 2 * value)

/-- The top bit of a number is that of its last byte. -/
theorem topSet_succ {count low : Nat} (bound : low < 256 ^ count) (top : Byte) :
    topSet (count + 1) (low + 256 ^ count * top.toNat) = Flag.negative.isSet top := by
  rw [topSet, Flag.isSet_negative, decide_eq_decide, Nat.pow_succ]
  constructor
  · intro h
    by_cases small : top.toNat ≤ 127
    · have le : 256 ^ count * top.toNat ≤ 256 ^ count * 127 := Nat.mul_le_mul_left _ small
      omega
    · omega
  · intro h
    have le : 256 ^ count * 128 ≤ 256 ^ count * top.toNat := Nat.mul_le_mul_left _ h
    omega

theorem topSet_eq_testBit {count value : Nat} (pos : 0 < count) (bound : value < 256 ^ count) :
    topSet count value = value.testBit (8 * count - 1) := by
  have half := pow_eq_two_mul pos
  rw [half] at bound
  rw [topSet, Nat.testBit_eq_decide_div_mod_eq, decide_eq_decide, half]
  by_cases small : value < 2 ^ (8 * count - 1)
  · rw [Nat.div_eq_of_lt small]
    omega
  · have one : value / 2 ^ (8 * count - 1) = 1 := Nat.div_eq_of_lt_le (by omega) (by omega)
    rw [one]
    omega

/-- A number in two's complement. -/
theorem bmod_eq {count value : Nat} (pos : 0 < count) (bound : value < 256 ^ count) :
    Int.bmod value (256 ^ count) =
      if topSet count value then (value : Int) - (256 ^ count : Nat) else value := by
  have half := pow_eq_two_mul pos
  have modulo : (value : Int) % (256 ^ count : Nat) = value :=
    Int.emod_eq_of_lt (by omega) (by omega)
  rw [Int.bmod_def, modulo, topSet]
  by_cases top : 256 ^ count ≤ 2 * value
  · rw [if_neg (by omega), decide_eq_true top, if_pos rfl]
  · rw [if_pos (by omega), decide_eq_false top]
    rfl

/-- What `count` bytes hold in two's complement. -/
def SignedRange (count : Nat) (value : Int) : Prop :=
  -2 ^ (8 * count - 1) ≤ value ∧ value ≤ 2 ^ (8 * count - 1) - 1

instance (count : Nat) (value : Int) : Decidable (SignedRange count value) :=
  inferInstanceAs (Decidable (_ ∧ _))

/-- The signs of a sum tell whether the exact signed sum is out of range. -/
theorem signs_iff {count left right result : Nat} {carry carry' : Bool} (pos : 0 < count)
    (hl : left < 256 ^ count) (hr : right < 256 ^ count) (hs : result < 256 ^ count)
    (total : result + 256 ^ count * carry'.toNat = left + right + carry.toNat) :
    ((topSet count left ^^ topSet count result) &&
        (topSet count right ^^ topSet count result)) = true ↔
      ¬ SignedRange count
        (Int.bmod left (256 ^ count) + Int.bmod right (256 ^ count) + carry.toNat) := by
  have bit := carry.toNat_le
  have half := pow_eq_two_mul pos
  have middle : ((2 ^ (8 * count - 1) : Nat) : Int) = 2 ^ (8 * count - 1) := by simp
  rw [bmod_eq pos hl, bmod_eq pos hr, SignedRange, ← middle]
  simp only [topSet, half, decide_eq_true_eq, Bool.and_eq_true, bne_iff_ne, ne_eq,
    decide_eq_decide] at *
  generalize 2 ^ (8 * count - 1) = limit at *
  have sums : result = left + right + carry.toNat ∨
      result + 2 * limit = left + right + carry.toNat := by
    cases carry' with
    | false => exact Or.inl (by simpa using total)
    | true => exact Or.inr (by simpa using total)
  split <;> split <;> omega

/-- The two instructions that take the carry into a sum. -/
inductive Adder
  | add
  | subtract
  deriving DecidableEq

namespace Adder

def opcode : Adder → Byte
  | add => 0x6D
  | subtract => 0xED

def operand : Adder → Byte → Byte
  | add, value => value
  | subtract, value => ~~~value

/-- What is added to the left number, as a number of `count` bytes. -/
def addend (count value : Nat) : Adder → Nat
  | add => value
  | subtract => 256 ^ count - 1 - value

def exact (left right : Int) (carry : Bool) : Adder → Int
  | add => left + right + carry.toNat
  | subtract => left - right - (1 - carry.toNat)

/-- The instructions for one byte: load, add or subtract, store. -/
def column (adder : Adder) (a b r : Word) : List Byte :=
  absolute 0xAD a ++ (absolute adder.opcode b ++ absolute 0x8D r)

theorem addend_lt (adder : Adder) {count value : Nat} (bound : value < 256 ^ count) :
    adder.addend count value < 256 ^ count := by
  cases adder with
  | add => exact bound
  | subtract =>
    simp only [addend]
    omega

theorem addend_succ (adder : Adder) {count low : Nat} (bound : low < 256 ^ count) (top : Byte) :
    adder.addend (count + 1) (low + 256 ^ count * top.toNat) =
      adder.addend count low + 256 ^ count * (adder.operand top).toNat := by
  cases adder with
  | add => rfl
  | subtract =>
    have small := top.toNat_lt
    have complement : (~~~top).toNat = 255 - top.toNat := UInt8.toNat_not top
    have whole : 256 ^ count * (255 - top.toNat) + 256 ^ count * top.toNat = 256 ^ count * 255 := by
      rw [← Nat.mul_add, Nat.sub_add_cancel (by omega)]
    simp only [addend, operand, complement, Nat.pow_succ]
    omega

/-- Adding the addend is adding or subtracting the number that it stands for. -/
theorem exact_eq (adder : Adder) {count right : Nat} (pos : 0 < count)
    (bound : right < 256 ^ count) (left : Int) (carry : Bool) :
    left + Int.bmod (adder.addend count right) (256 ^ count) + carry.toNat =
      adder.exact left (Int.bmod right (256 ^ count)) carry := by
  cases adder with
  | add => rfl
  | subtract =>
    have half := pow_eq_two_mul pos
    have opposite : topSet count (addend count right subtract) = !topSet count right := by
      rw [topSet, topSet, ← decide_not, decide_eq_decide, addend]
      omega
    rw [bmod_eq pos (addend_lt subtract bound), bmod_eq pos bound, opposite]
    cases topSet count right with
    | true =>
      simp only [Bool.not_true, Bool.false_eq_true, if_false, if_true, exact, addend]
      omega
    | false =>
      simp only [Bool.not_false, Bool.false_eq_true, if_false, if_true, exact, addend]
      omega

end Adder

namespace Machine

def sum (m : Machine Memory) (adder : Adder) (a b : Word) : Sum :=
  addWithCarry (m.bus.read a) (adder.operand (m.bus.read b)) m.regs.status.carry

def afterColumn (m : Machine Memory) (adder : Adder) (a b r : Word) : Machine Memory :=
  (((m.withRegs (m.regs.accumulate (m.sum adder a b))).jumpTo (m.regs.pc + 9)).charge 12).withBus
    (m.bus.write r (m.sum adder a b).result)

theorem advances_column {m : Machine Memory} {adder : Adder} {a b r : Word}
    (code : m.bus.Contains m.regs.pc (adder.column a b r)) :
    m.Advances 3 9 12 (m.afterColumn adder a b r) := by
  obtain ⟨load, rest⟩ := Memory.contains_absolute.mp code
  obtain ⟨add, store⟩ := Memory.contains_absolute.mp rest
  have lda : Opcode.decode 0xAD = some ⟨.lda, .absolute, 4⟩ := rfl
  have adc : Opcode.decode 0x6D = some ⟨.adc, .absolute, 4⟩ := rfl
  have sbc : Opcode.decode 0xED = some ⟨.sbc, .absolute, 4⟩ := rfl
  have sta : Opcode.decode 0x8D = some ⟨.sta, .absolute, 4⟩ := rfl
  let loaded := ((m.withRegs (m.regs.load .a (m.bus.read a))).jumpTo (m.regs.pc + 3)).charge 4
  let added := ((loaded.withRegs (loaded.regs.accumulate (m.sum adder a b))).jumpTo
    (loaded.regs.pc + 3)).charge 4
  let stored := ((added.jumpTo (added.regs.pc + 3)).charge 4).withBus
    (m.bus.write r (m.sum adder a b).result)
  have first : m.Arrives 1 loaded := arrives_absolute load lda
  have second : loaded.Arrives 1 added := by
    cases adder with
    | add => exact arrives_absolute (m := loaded) add adc
    | subtract => exact arrives_absolute (m := loaded) add sbc
  have third : added.Arrives 1 stored := arrives_absolute (m := added) store sta
  have same : stored = m.afterColumn adder a b r := by
    have pc : m.regs.pc + 3 + 3 + 3 = m.regs.pc + 9 := by grind
    have cycles : m.cycles + 4 + 4 + 4 = m.cycles + 12 := by grind
    calc stored = { m.afterColumn adder a b r with
          regs := { (m.afterColumn adder a b r).regs with pc := m.regs.pc + 3 + 3 + 3 }
          cycles := m.cycles + 4 + 4 + 4 } := rfl
      _ = m.afterColumn adder a b r := by rw [pc, cycles]; rfl
  exact ⟨same ▸ (first.trans second).trans third, rfl, rfl⟩

/-- A chain lies at the program counter, and no column writes what it or a later one reads, except
that a column may write over its own operands. -/
structure SumLayout (m : Machine Memory) (adder : Adder) (a b r : Word) (count : Nat) : Prop where
  small : 9 * count ≤ 65536
  listed : ∀ i, i < count → m.bus.Contains (m.regs.pc + UInt16.ofNat (9 * i))
    (adder.column (a + UInt16.ofNat i) (b + UInt16.ofNat i) (r + UInt16.ofNat i))
  outside : Apart r count m.regs.pc (9 * count)
  unread : ∀ i, i < count → ∀ j, j < i →
    r + UInt16.ofNat j ≠ a + UInt16.ofNat i ∧ r + UInt16.ofNat j ≠ b + UInt16.ofNat i

/-- After `i` columns the bytes so far and the carry are the sum of the operands so far, and the
signs so far are those of the last byte. -/
structure Summed (m : Machine Memory) (adder : Adder) (a b r : Word) (i : Nat)
    (k : Machine Memory) : Prop extends m.Advances (3 * i) (9 * i) (12 * i) k where
  y : k.regs.y = m.regs.y
  spares : m.Spares k r 0 i
  total : k.bus.number r i + 256 ^ i * k.regs.status.carry.toNat =
    m.bus.number a i + adder.addend i (m.bus.number b i) + m.regs.status.carry.toNat
  negative : 0 < i → k.regs.status.negative = topSet i (k.bus.number r i)
  overflow : 0 < i → k.regs.status.overflow =
    ((topSet i (m.bus.number a i) ^^ topSet i (k.bus.number r i)) &&
      (topSet i (adder.addend i (m.bus.number b i)) ^^ topSet i (k.bus.number r i)))

variable {m k : Machine Memory} {adder : Adder} {a b r : Word} {count i : Nat}

theorem Summed.start (m : Machine Memory) (adder : Adder) (a b r : Word) :
    m.Summed adder a b r 0 m where
  toAdvances := .refl m
  y := rfl
  spares := .refl m r 0 0
  total := by cases adder <;> simp [Memory.number, Memory.slice, littleEndian, Adder.addend]
  negative := fun h => absurd h (Nat.lt_irrefl 0)
  overflow := fun h => absurd h (Nat.lt_irrefl 0)

theorem Summed.next (layout : m.SumLayout adder a b r count) (h : m.Summed adder a b r i k)
    (hi : i < count) :
    m.Summed adder a b r (i + 1) (k.afterColumn adder (a + UInt16.ofNat i) (b + UInt16.ofNat i)
      (r + UInt16.ofNat i)) := by
  have small := layout.small
  let n := k.afterColumn adder (a + UInt16.ofNat i) (b + UInt16.ofNat i) (r + UInt16.ofNat i)
  let new := k.sum adder (a + UInt16.ofNat i) (b + UInt16.ofNat i)
  have code : k.bus.Contains k.regs.pc (adder.column (a + UInt16.ofNat i) (b + UInt16.ofNat i)
      (r + UInt16.ofNat i)) := by
    rw [h.pc]
    refine (layout.listed i hi).congr fun j hj => h.spares.memory _ fun l _ hl => ?_
    have length : j < 9 := hj
    rw [Word.add_ofNat_add_ofNat]
    exact (layout.outside l (by omega) (9 * i + j) (by omega)).symm
  have left : k.bus.read (a + UInt16.ofNat i) = m.bus.read (a + UInt16.ofNat i) :=
    h.spares.memory _ fun j _ hj => (layout.unread i hi j hj).1.symm
  have right : k.bus.read (b + UInt16.ofNat i) = m.bus.read (b + UInt16.ofNat i) :=
    h.spares.memory _ fun j _ hj => (layout.unread i hi j hj).2.symm
  have spares : k.Spares n r i (i + 1) :=
    ⟨rfl, rfl, rfl, rfl, rfl, rfl, rfl, fun p outside =>
      k.bus.read_write_of_ne new.result (outside i (by omega) (by omega)).symm⟩
  have result : n.bus.number r (i + 1) = k.bus.number r i + 256 ^ i * new.result.toNat :=
    k.bus.number_write r (by omega) new.result
  have addend : adder.addend (i + 1) (m.bus.number b (i + 1)) = adder.addend i (m.bus.number b i) +
      256 ^ i * (adder.operand (m.bus.read (b + UInt16.ofNat i))).toNat := by
    rw [m.bus.number_succ, adder.addend_succ (m.bus.number_lt b i)]
  have exact : new.result.toNat + 256 * new.carry.toNat =
      (m.bus.read (a + UInt16.ofNat i)).toNat +
        (adder.operand (m.bus.read (b + UInt16.ofNat i))).toNat + k.regs.status.carry.toNat := by
    rw [← left, ← right]
    exact addWithCarry_exact _ _ _
  have sign : topSet (i + 1) (n.bus.number r (i + 1)) = Flag.negative.isSet new.result := by
    rw [result, topSet_succ (k.bus.number_lt r i)]
  refine ⟨h.toAdvances.trans (advances_column code), h.y,
    h.spares.trans spares (by omega) (by omega) (by omega) (by omega), ?_, ?_, ?_⟩
  · have before := h.total
    change n.bus.number r (i + 1) + 256 ^ (i + 1) * new.carry.toNat = _
    rw [result, addend, m.bus.number_succ a, Nat.pow_succ]
    grind
  · intro _
    exact sign.symm
  · intro _
    rw [sign, addend, m.bus.number_succ a, topSet_succ (m.bus.number_lt a i),
      topSet_succ (adder.addend_lt (m.bus.number_lt b i)), ← left, ← right]
    exact overflow_addWithCarry _ _ _

theorem SumLayout.summed (layout : m.SumLayout adder a b r count) (le : i ≤ count) :
    ∃ k, m.Summed adder a b r i k := by
  induction i with
  | zero => exact ⟨m, .start m adder a b r⟩
  | succ i ih =>
    obtain ⟨k, h⟩ := ih (by omega)
    exact ⟨_, h.next layout (by omega)⟩

/-- A chain computes the exact sum or difference of numbers of any size, with the carry as the
byte above. The last flags describe the whole result: its sign, and whether the exact signed result
is out of range. -/
theorem carry_chain_exact (layout : m.SumLayout adder a b r count) :
    let finish := (m.run (3 * count)).machine
    let left := m.bus.number a count
    let right := m.bus.number b count
    let result := finish.bus.number r count
    let carry := m.regs.status.carry
    let carry' := finish.regs.status.carry
    (m.run (3 * count)).result = .ok (3 * count) ∧
    (match adder with
      | .add => result + 256 ^ count * carry'.toNat = left + right + carry.toNat
      | .subtract => (result + 256 ^ count * carry'.toNat : Int) =
            left - right - (1 - carry.toNat) + 256 ^ count ∧
          (carry' = true ↔ right + (1 - carry.toNat) ≤ left)) ∧
    (0 < count →
      finish.regs.status.negative = result.testBit (8 * count - 1) ∧
      (finish.regs.status.overflow = true ↔ ¬ SignedRange count
        (adder.exact (Int.bmod left (256 ^ count)) (Int.bmod right (256 ^ count)) carry))) ∧
    m.Spares finish r 0 count ∧ finish.regs.y = m.regs.y ∧
    finish.regs.pc = m.regs.pc + UInt16.ofNat (9 * count) ∧
    finish.cycles = m.cycles + UInt64.ofNat (12 * count) := by
  intro finish left right result carry carry'
  obtain ⟨k, h⟩ := layout.summed (Nat.le_refl count)
  obtain ⟨ok, machine⟩ := h.arrives.run
  rw [← machine] at h
  have hl : left < 256 ^ count := m.bus.number_lt a count
  have hr : right < 256 ^ count := m.bus.number_lt b count
  have hs : result < 256 ^ count := finish.bus.number_lt r count
  have total : result + 256 ^ count * carry'.toNat =
    left + adder.addend count right + carry.toNat := h.total
  refine ⟨ok, ?_, ?_, h.spares, h.y, h.pc, h.cycles⟩
  · cases adder with
    | add => exact total
    | subtract =>
      have bit := carry.toNat_le
      have power : ((256 ^ count : Nat) : Int) = 256 ^ count := by simp
      simp only [Adder.addend] at total
      rw [← power]
      cases out : carry' with
      | true =>
        rw [out, Bool.toNat_true] at total
        exact ⟨by rw [Bool.toNat_true]; omega, iff_of_true rfl (by omega)⟩
      | false =>
        rw [out, Bool.toNat_false] at total
        exact ⟨by rw [Bool.toNat_false]; omega, iff_of_false Bool.false_ne_true (by omega)⟩
  · intro pos
    refine ⟨(h.negative pos).trans (topSet_eq_testBit pos hs), ?_⟩
    rw [h.overflow pos, ← adder.exact_eq pos hr]
    exact signs_iff pos hl (adder.addend_lt hr) hs total

/-- A number of two bytes across the end of memory, and a chain that puts its sum or its difference
with the number 0x0001 in its place. -/
def columns (adder : Adder) (low high : Byte) : Machine Memory :=
  { powerOn (Bus.store (Bus.store (Bus.store Memory.zeroed 0x8000
      (adder.column 0xFFFF 0x20 0xFFFF ++ adder.column 0x0000 0x21 0x0000)) 0x20 [0x01, 0x00])
      0xFFFF [low, high]) { initialPc := 0x8000 } with
    regs := { sp := 0xFD, pc := 0x8000, status := { carry := decide (adder = .subtract) } } }

/-- 0x7FFF + 0x0001 and 0x8000 - 0x0001 are out of the signed range. -/
theorem carry_chain_exact_columns :
    let sum := columns .add 0xFF 0x7F
    let difference := columns .subtract 0x00 0x80
    sum.SumLayout .add 0xFFFF 0x20 0xFFFF 2 ∧
    (sum.run 6).machine.bus.number 0xFFFF 2 = 0x8000 ∧
    (sum.run 6).machine.regs.status.overflow = true ∧
    difference.SumLayout .subtract 0xFFFF 0x20 0xFFFF 2 ∧
    (difference.run 6).machine.bus.number 0xFFFF 2 = 0x7FFF ∧
    (difference.run 6).machine.regs.status.carry = true ∧
    (difference.run 6).machine.regs.status.overflow = true := by
  intro sum difference
  have adds : sum.SumLayout .add 0xFFFF 0x20 0xFFFF 2 :=
    ⟨by decide, by decide +kernel, by decide +kernel, by decide +kernel⟩
  have subtracts : difference.SumLayout .subtract 0xFFFF 0x20 0xFFFF 2 :=
    ⟨by decide, by decide +kernel, by decide +kernel, by decide +kernel⟩
  have augend : sum.bus.number 0xFFFF 2 = 0x7FFF := by decide +kernel
  have addend : sum.bus.number 0x20 2 = 0x0001 := by decide +kernel
  have minuend : difference.bus.number 0xFFFF 2 = 0x8000 := by decide +kernel
  have subtrahend : difference.bus.number 0x20 2 = 0x0001 := by decide +kernel
  have clear : sum.regs.status.carry = false := rfl
  have set : difference.regs.status.carry = true := rfl
  obtain ⟨_, total, flags, _⟩ := carry_chain_exact adds
  obtain ⟨_, ⟨exact, borrow⟩, flags', _⟩ := carry_chain_exact subtracts
  simp only [augend, addend, clear] at total flags
  simp only [minuend, subtrahend, set] at exact borrow flags'
  have carry : (difference.run 6).machine.regs.status.carry = true := borrow.mpr (by decide)
  have bit := (sum.run 6).machine.regs.status.carry.toNat_le
  have whole : (sum.run 6).machine.bus.number 0xFFFF 2 +
      65536 * (sum.run 6).machine.regs.status.carry.toNat = 0x8000 := total
  have rest : ((difference.run 6).machine.bus.number 0xFFFF 2 : Int) +
      65536 * (difference.run 6).machine.regs.status.carry.toNat = 0x17FFF := exact
  rw [carry, Bool.toNat_true] at rest
  exact ⟨adds, by omega, (flags (by decide)).2.mpr (by decide), subtracts, by omega, carry,
    (flags' (by decide)).2.mpr (by decide)⟩

end Machine

end Core6502
