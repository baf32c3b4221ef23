import Mathlib.Algebra.Ring.Nat
import Core6502.Bus

/-!
# Slices of memory

The bytes from an address up, as a list: code that lies there, or a number of many bytes, least
significant byte first. Addresses wrap, so a slice may go on at the beginning of memory.
-/

namespace Core6502

namespace Word

theorem add_one_add_ofNat (a : Word) (n : Nat) :
    a + 1 + UInt16.ofNat n = a + UInt16.ofNat (n + 1) := by
  rw [UInt16.ofNat_add]
  grind

theorem add_ofNat_add_ofNat (a : Word) (i j : Nat) :
    a + UInt16.ofNat i + UInt16.ofNat j = a + UInt16.ofNat (i + j) := by
  rw [UInt16.ofNat_add, UInt16.add_assoc]

/-- Places within one turn around memory are different. -/
theorem add_ofNat_ne {a : Word} {i j : Nat} (hi : i < 65536) (hj : j < 65536) (ne : i ≠ j) :
    a + UInt16.ofNat i ≠ a + UInt16.ofNat j := by
  intro h
  have same : UInt16.ofNat i = UInt16.ofNat j := by grind
  have nat := congrArg UInt16.toNat same
  rw [UInt16.toNat_ofNat_of_lt' hi, UInt16.toNat_ofNat_of_lt' hj] at nat
  exact ne nat

end Word

def Apart (a : Word) (m : Nat) (b : Word) (n : Nat) : Prop :=
  ∀ i, i < m → ∀ j, j < n → a + UInt16.ofNat i ≠ b + UInt16.ofNat j

instance (a : Word) (m : Nat) (b : Word) (n : Nat) : Decidable (Apart a m b n) :=
  inferInstanceAs (Decidable (∀ i, i < m → ∀ j, j < n →
    a + UInt16.ofNat i ≠ b + UInt16.ofNat j))

namespace Memory

/-- The bytes from an address up. The address after 0xFFFF is 0x0000. -/
def slice (m : Memory) (address : Word) : Nat → List Byte
  | 0 => []
  | count + 1 => m.read address :: m.slice (address + 1) count

@[simp]
theorem length_slice (m : Memory) (address : Word) (count : Nat) :
    (m.slice address count).length = count := by
  induction count generalizing address with
  | zero => rfl
  | succ count ih => rw [slice, List.length_cons, ih]

theorem slice_add (m : Memory) (address : Word) (i j : Nat) :
    m.slice address (i + j) = m.slice address i ++ m.slice (address + UInt16.ofNat i) j := by
  induction i generalizing address with
  | zero => simp [slice]
  | succ i ih =>
    rw [Nat.succ_add, slice, slice, ih, Word.add_one_add_ofNat, List.cons_append]

/-- A slice grows at its upper end. -/
theorem slice_succ (m : Memory) (address : Word) (count : Nat) :
    m.slice address (count + 1) =
      m.slice address count ++ [m.read (address + UInt16.ofNat count)] :=
  m.slice_add address count 1

theorem slice_congr {m n : Memory} {a b : Word} {count : Nat}
    (h : ∀ i, i < count → n.read (b + UInt16.ofNat i) = m.read (a + UInt16.ofNat i)) :
    n.slice b count = m.slice a count := by
  induction count with
  | zero => rfl
  | succ count ih =>
    rw [slice_succ, slice_succ, ih fun i hi => h i (by omega), h count (by omega)]

def Contains (m : Memory) (address : Word) (bytes : List Byte) : Prop :=
  m.slice address bytes.length = bytes

instance (m : Memory) (address : Word) (bytes : List Byte) :
    Decidable (m.Contains address bytes) :=
  inferInstanceAs (Decidable (m.slice address bytes.length = bytes))

theorem contains_append {m : Memory} {address : Word} {front back : List Byte} :
    m.Contains address (front ++ back) ↔
      m.Contains address front ∧ m.Contains (address + UInt16.ofNat front.length) back := by
  rw [Contains, Contains, Contains, List.length_append, slice_add]
  constructor
  · intro h
    exact List.append_inj h (m.length_slice _ _)
  · rintro ⟨first, second⟩
    rw [first, second]

/-- Copies of the same bytes lie one after another. -/
theorem Contains.copy {m : Memory} {address : Word} {bytes : List Byte} {count i : Nat}
    (h : m.Contains address (List.replicate count bytes).flatten) (hi : i < count) :
    m.Contains (address + UInt16.ofNat (bytes.length * i)) bytes := by
  induction count generalizing address i with
  | zero => exact absurd hi (Nat.not_lt_zero i)
  | succ count ih =>
    rw [List.replicate_succ, List.flatten_cons] at h
    obtain ⟨first, others⟩ := contains_append.mp h
    cases i with
    | zero =>
      have base : address + UInt16.ofNat 0 = address := UInt16.add_zero address
      rwa [Nat.mul_zero, base]
    | succ i =>
      have copy := ih others (Nat.lt_of_succ_lt_succ hi)
      rwa [Word.add_ofNat_add_ofNat, Nat.add_comm, ← Nat.mul_succ] at copy

theorem Contains.congr {m n : Memory} {address : Word} {bytes : List Byte}
    (h : m.Contains address bytes)
    (same : ∀ i, i < bytes.length →
      n.read (address + UInt16.ofNat i) = m.read (address + UInt16.ofNat i)) :
    n.Contains address bytes :=
  (slice_congr same).trans h

end Memory

def littleEndian : List Byte → Nat
  | [] => 0
  | byte :: rest => byte.toNat + 256 * littleEndian rest

theorem littleEndian_append (low high : List Byte) :
    littleEndian (low ++ high) = littleEndian low + 256 ^ low.length * littleEndian high := by
  induction low with
  | nil => simp [littleEndian]
  | cons byte rest ih =>
    rw [List.cons_append, littleEndian, littleEndian, ih, List.length_cons, Nat.pow_succ]
    grind

theorem littleEndian_lt (bytes : List Byte) : littleEndian bytes < 256 ^ bytes.length := by
  induction bytes with
  | nil => decide
  | cons byte rest ih =>
    have bound := byte.toNat_lt
    rw [littleEndian, List.length_cons, Nat.pow_succ]
    omega

theorem littleEndian_inj {xs ys : List Byte} (length : xs.length = ys.length)
    (h : littleEndian xs = littleEndian ys) : xs = ys := by
  induction xs generalizing ys with
  | nil => exact (List.eq_nil_of_length_eq_zero length.symm).symm
  | cons x xs ih =>
    cases ys with
    | nil => cases length
    | cons y ys =>
      have hx := x.toNat_lt
      have hy := y.toNat_lt
      simp only [littleEndian] at h
      have first : x = y := UInt8.toNat_inj.mp (by omega)
      rw [first, ih (Nat.succ.inj length) (by omega)]

/-- Half of the numbers of some bytes have the top bit clear. -/
theorem pow_eq_two_mul {count : Nat} (pos : 0 < count) : 256 ^ count = 2 * 2 ^ (8 * count - 1) := by
  obtain ⟨n, hn⟩ : ∃ n, 8 * count = n + 1 := ⟨8 * count - 1, by omega⟩
  calc 256 ^ count = 2 ^ (8 * count) := (Nat.pow_mul 2 8 count).symm
    _ = 2 * 2 ^ (8 * count - 1) := by rw [hn, Nat.pow_succ, Nat.mul_comm]; rfl

namespace Memory

def number (m : Memory) (address : Word) (count : Nat) : Nat :=
  littleEndian (m.slice address count)

theorem number_lt (m : Memory) (address : Word) (count : Nat) :
    m.number address count < 256 ^ count := by
  have bound := littleEndian_lt (m.slice address count)
  rwa [length_slice] at bound

/-- One more byte at the upper end. -/
theorem number_succ (m : Memory) (address : Word) (count : Nat) :
    m.number address (count + 1) =
      m.number address count + 256 ^ count * (m.read (address + UInt16.ofNat count)).toNat := by
  rw [number, slice_succ, littleEndian_append, length_slice]
  rfl

theorem number_congr {m n : Memory} {address : Word} {count : Nat}
    (h : ∀ i, i < count → n.read (address + UInt16.ofNat i) = m.read (address + UInt16.ofNat i)) :
    n.number address count = m.number address count :=
  congrArg littleEndian (slice_congr h)

/-- Writing the next byte at the upper end. -/
theorem number_write (m : Memory) (address : Word) {count : Nat} (small : count < 65536)
    (value : Byte) :
    (m.write (address + UInt16.ofNat count) value).number address (count + 1) =
      m.number address count + 256 ^ count * value.toNat := by
  have below : (m.write (address + UInt16.ofNat count) value).number address count =
      m.number address count :=
    number_congr fun i hi =>
      m.read_write_of_ne value (Word.add_ofNat_ne small (by omega) (by omega))
  rw [number_succ, below, read_write_self]

/-- One more byte at the lower end. -/
theorem number_succ' (m : Memory) (address : Word) (count : Nat) :
    m.number address (count + 1) =
      (m.read address).toNat + 256 * m.number (address + 1) count :=
  rfl

end Memory

end Core6502
