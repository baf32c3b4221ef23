/-!
# Bytes and words

The processor computes on bytes and addresses memory by words. All arithmetic wraps: a byte modulo
256, a word modulo 65536. A word is stored low byte first. Numbers are printed as a fixed count of
upper-case hexadecimal digits, so a byte is determined by its two digits and a word by its four.
What is claimed of every byte can be tried on all of them.
-/

namespace Core6502

abbrev Byte := UInt8

abbrev Word := UInt16

namespace Byte

instance decidableForall (p : Byte → Prop) [DecidablePred p] : Decidable (∀ b, p b) :=
  decidable_of_iff (∀ i : Fin 256, p (UInt8.ofFin i))
    ⟨fun all b => all b.toFin, fun all i => all (UInt8.ofFin i)⟩

instance decidableExists (p : Byte → Prop) [DecidablePred p] : Decidable (∃ b, p b) :=
  decidable_of_iff (∃ i : Fin 256, p (UInt8.ofFin i))
    ⟨fun ⟨i, found⟩ => ⟨UInt8.ofFin i, found⟩, fun ⟨b, found⟩ => ⟨b.toFin, found⟩⟩

end Byte

namespace Word

def ofBytes (high low : Byte) : Word :=
  high.toUInt16 * 256 + low.toUInt16

def high (w : Word) : Byte :=
  (w / 256).toUInt8

def low (w : Word) : Byte :=
  w.toUInt8

/-- The byte read as a number from -128 to 127, taken modulo 65536. -/
def signExtend (b : Byte) : Word :=
  b.toInt8.toInt16.toUInt16

theorem toNat_ofBytes (high low : Byte) :
    (ofBytes high low).toNat = 256 * high.toNat + low.toNat := by
  have hh := high.toNat_lt
  have hl := low.toNat_lt
  simp [ofBytes]
  omega

theorem toNat_high (w : Word) : (high w).toNat = w.toNat / 256 := by
  have := w.toNat_lt
  simp [high]
  omega

theorem toNat_low (w : Word) : (low w).toNat = w.toNat % 256 := by
  simp [low]

@[simp]
theorem high_ofBytes (high low : Byte) : Word.high (ofBytes high low) = high := by
  have hl := low.toNat_lt
  apply UInt8.toNat_inj.1
  rw [toNat_high, toNat_ofBytes]
  omega

@[simp]
theorem low_ofBytes (high low : Byte) : Word.low (ofBytes high low) = low := by
  have hl := low.toNat_lt
  apply UInt8.toNat_inj.1
  rw [toNat_low, toNat_ofBytes]
  omega

@[simp]
theorem ofBytes_high_low (w : Word) : ofBytes (high w) (low w) = w := by
  apply UInt16.toNat_inj.1
  rw [toNat_ofBytes, toNat_high, toNat_low]
  omega

/-- Words are equal when both of their bytes are. -/
theorem eq_iff_bytes {v w : Word} : v = w ↔ high v = high w ∧ low v = low w := by
  constructor
  · rintro rfl
    exact ⟨rfl, rfl⟩
  · rintro ⟨hh, hl⟩
    rw [← ofBytes_high_low v, hh, hl, ofBytes_high_low]

end Word

namespace Hex

def digit (d : Nat) : Char :=
  if d < 10 then Char.ofNat (48 + d) else Char.ofNat (55 + d)

/-- The last `width` hexadecimal digits of a number, most significant first. -/
def digits : Nat → Nat → List Char
  | 0, _ => []
  | width + 1, n => digits width (n / 16) ++ [digit (n % 16)]

def byte (b : Byte) : String :=
  String.ofList (digits 2 b.toNat)

def word (w : Word) : String :=
  String.ofList (digits 4 w.toNat)

@[simp]
theorem length_digits (width n : Nat) : (digits width n).length = width := by
  induction width generalizing n with
  | zero => rfl
  | succ width ih => simp [digits, ih]

theorem digit_inj {c d : Nat} (hc : c < 16) (hd : d < 16) (h : digit c = digit d) : c = d := by
  have all : ∀ i j : Fin 16, digit i.val = digit j.val → i = j := by decide
  exact congrArg Fin.val (all ⟨c, hc⟩ ⟨d, hd⟩ h)

/-- Equal digits are equal in the last place and in the places before it. -/
theorem digits_succ_inj {width m n : Nat} (h : digits (width + 1) m = digits (width + 1) n) :
    digits width (m / 16) = digits width (n / 16) ∧ m % 16 = n % 16 := by
  have parts := List.append_inj h (by simp)
  exact ⟨parts.1, digit_inj (Nat.mod_lt _ (by decide)) (Nat.mod_lt _ (by decide))
    (List.singleton_inj.1 parts.2)⟩

theorem byte_inj {b c : Byte} (h : byte b = byte c) : b = c := by
  have hb := b.toNat_lt
  have hc := c.toNat_lt
  obtain ⟨first, low⟩ := digits_succ_inj (String.ofList_injective h)
  obtain ⟨_, high⟩ := digits_succ_inj first
  apply UInt8.toNat_inj.1
  omega

theorem word_inj {v w : Word} (h : word v = word w) : v = w := by
  have hv := v.toNat_lt
  have hw := w.toNat_lt
  obtain ⟨third, d⟩ := digits_succ_inj (String.ofList_injective h)
  obtain ⟨second, c⟩ := digits_succ_inj third
  obtain ⟨first, b⟩ := digits_succ_inj second
  obtain ⟨_, a⟩ := digits_succ_inj first
  apply UInt16.toNat_inj.1
  omega

end Hex

end Core6502
