import Core6502.Instruction

/-!
# Byte arithmetic

The functions that the arithmetic unit computes, on bytes and a carry alone.
Addition is always binary. Subtraction is addition of the complement, so that
the carry is the opposite of a borrow.
-/

namespace Core6502

/-- A result with the carry out of bit 7 and the signed overflow. -/
structure Sum where
  result : Byte
  carry : Bool
  overflow : Bool
  deriving DecidableEq

/-- Overflow means that both summands have a sign that the result has not. -/
def addWithCarry (a b : Byte) (carry : Bool) : Sum :=
  let total := a.toNat + b.toNat + carry.toNat
  let result := total.toUInt8
  { result
    carry := 255 < total
    overflow := (a ^^^ result) &&& (b ^^^ result) &&& 0x80 != 0 }

def subtractWithCarry (a b : Byte) (carry : Bool) : Sum :=
  addWithCarry a (~~~b) carry

theorem toNat_addWithCarry (a b : Byte) (carry : Bool) :
    (addWithCarry a b carry).result.toNat = (a.toNat + b.toNat + carry.toNat) % 256 :=
  UInt8.toNat_ofNat'

theorem carry_addWithCarry (a b : Byte) (carry : Bool) :
    (addWithCarry a b carry).carry = decide (256 ≤ a.toNat + b.toNat + carry.toNat) :=
  rfl

theorem toNat_subtractWithCarry (a b : Byte) (carry : Bool) :
    (subtractWithCarry a b carry).result.toNat =
      (a.toNat + 256 - (b.toNat + (!carry).toNat)) % 256 := by
  have bound := b.toNat_lt
  have complement : (~~~b).toNat = 255 - b.toNat := UInt8.toNat_not b
  rw [subtractWithCarry, toNat_addWithCarry, complement]
  cases carry <;> simp only [Bool.not_true, Bool.not_false, Bool.toNat_true, Bool.toNat_false] <;>
    omega

/-- The carry is the opposite of a borrow. -/
theorem carry_subtractWithCarry (a b : Byte) (carry : Bool) :
    (subtractWithCarry a b carry).carry = decide (b.toNat + (!carry).toNat ≤ a.toNat) := by
  have bound := b.toNat_lt
  have complement : (~~~b).toNat = 255 - b.toNat := UInt8.toNat_not b
  rw [subtractWithCarry, carry_addWithCarry, complement, decide_eq_decide]
  cases carry <;> simp only [Bool.not_true, Bool.not_false, Bool.toNat_true, Bool.toNat_false] <;>
    omega

def Logic.apply : Logic → Byte → Byte → Byte
  | .and, a, b => a &&& b
  | .or, a, b => a ||| b
  | .exclusiveOr, a, b => a ^^^ b

/-- The new byte and the new carry. Rotation takes nine bits, the carry being one of them. -/
def Transform.apply (transform : Transform) (carry : Bool) (value : Byte) : Byte × Bool :=
  match transform with
  | .shiftLeft => (value <<< 1, value &&& 0x80 != 0)
  | .shiftRight => (value >>> 1, value &&& 0x01 != 0)
  | .rotateLeft => ((value <<< 1) ||| carry.toUInt8, value &&& 0x80 != 0)
  | .rotateRight => ((value >>> 1) ||| (carry.toUInt8 <<< 7), value &&& 0x01 != 0)
  | .increment => (value + 1, carry)
  | .decrement => (value - 1, carry)

namespace Registers

/-- A byte moves into a register; zero and negative describe it. -/
def load (r : Registers) (register : ByteRegister) (value : Byte) : Registers :=
  (r.set register value).withResult value

def accumulate (r : Registers) (sum : Sum) : Registers :=
  ((r.setFlag .carry sum.carry).setFlag .overflow sum.overflow).load .a sum.result

/-- Describes a difference. Carry says that it needs no borrow. -/
def compare (r : Registers) (left right : Byte) : Registers :=
  (r.setFlag .carry (right ≤ left)).withResult (left - right)

/-- Negative and overflow are bits 7 and 6 of the byte; zero describes its
conjunction with the accumulator. -/
def bitTest (r : Registers) (value : Byte) : Registers :=
  { r with status := { r.status with
      negative := Flag.negative.isSet value
      overflow := Flag.overflow.isSet value
      zero := r.a &&& value == 0 } }

end Registers

end Core6502
