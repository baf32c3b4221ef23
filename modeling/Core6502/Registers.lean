import Core6502.Word

/-!
# Registers and flags

Three byte registers, the stack pointer, the program counter and the status. The status is eight
flags, packed into one byte from bit 7 down as negative, overflow, unused, break, decimal, interrupt
disable, zero, carry. Every byte is the packed form of exactly one set of flags. The printed form
shows every register and all eight flags.
-/

namespace Core6502

inductive Flag
  | negative
  | overflow
  | unused
  | brk
  | decimal
  | interruptDisable
  | zero
  | carry
  deriving DecidableEq

namespace Flag

def mask : Flag → Byte
  | negative => 0x80
  | overflow => 0x40
  | unused => 0x20
  | brk => 0x10
  | decimal => 0x08
  | interruptDisable => 0x04
  | zero => 0x02
  | carry => 0x01

def isSet (flag : Flag) (byte : Byte) : Bool :=
  byte &&& flag.mask != 0

def pack (flag : Flag) (value : Bool) : Byte :=
  if value then flag.mask else 0

end Flag

/-- The flags of the processor. Only the unused flag is set at power on. -/
structure Status where
  negative : Bool := false
  overflow : Bool := false
  unused : Bool := true
  brk : Bool := false
  decimal : Bool := false
  interruptDisable : Bool := false
  zero : Bool := false
  carry : Bool := false
  deriving DecidableEq

namespace Status

def get (s : Status) : Flag → Bool
  | .negative => s.negative
  | .overflow => s.overflow
  | .unused => s.unused
  | .brk => s.brk
  | .decimal => s.decimal
  | .interruptDisable => s.interruptDisable
  | .zero => s.zero
  | .carry => s.carry

def set (s : Status) (flag : Flag) (value : Bool) : Status :=
  match flag with
  | .negative => { s with negative := value }
  | .overflow => { s with overflow := value }
  | .unused => { s with unused := value }
  | .brk => { s with brk := value }
  | .decimal => { s with decimal := value }
  | .interruptDisable => { s with interruptDisable := value }
  | .zero => { s with zero := value }
  | .carry => { s with carry := value }

def toByte (s : Status) : Byte :=
  Flag.negative.pack s.negative ||| Flag.overflow.pack s.overflow
    ||| Flag.unused.pack s.unused ||| Flag.brk.pack s.brk
    ||| Flag.decimal.pack s.decimal ||| Flag.interruptDisable.pack s.interruptDisable
    ||| Flag.zero.pack s.zero ||| Flag.carry.pack s.carry

def ofByte (p : Byte) : Status where
  negative := Flag.negative.isSet p
  overflow := Flag.overflow.isSet p
  unused := Flag.unused.isSet p
  brk := Flag.brk.isSet p
  decimal := Flag.decimal.isSet p
  interruptDisable := Flag.interruptDisable.isSet p
  zero := Flag.zero.isSet p
  carry := Flag.carry.isSet p

/-- Zero and negative describe a result: whether it is 0, and its bit 7. -/
def withResult (s : Status) (result : Byte) : Status :=
  { s with zero := result == 0, negative := Flag.negative.isSet result }

theorem get_set (s : Status) (f g : Flag) (value : Bool) :
    (s.set f value).get g = if f = g then value else s.get g := by
  cases f <;> cases g <;> rfl

@[simp]
theorem ofByte_toByte (s : Status) : ofByte s.toByte = s := by
  have all : ∀ n v u b d i z c,
      ofByte (toByte ⟨n, v, u, b, d, i, z, c⟩) = ⟨n, v, u, b, d, i, z, c⟩ := by
    decide +kernel
  exact all ..

@[simp]
theorem toByte_ofByte (p : Byte) : (ofByte p).toByte = p := by
  revert p
  decide +kernel

theorem toByte_inj {s t : Status} : s.toByte = t.toByte ↔ s = t := by
  constructor
  · intro h
    rw [← ofByte_toByte s, h, ofByte_toByte]
  · rintro rfl
    rfl

end Status

structure Registers where
  a : Byte := 0
  x : Byte := 0
  y : Byte := 0
  sp : Byte
  pc : Word
  status : Status := {}
  deriving DecidableEq

inductive ByteRegister
  | a
  | x
  | y
  | sp
  deriving DecidableEq

namespace Registers

def get (r : Registers) : ByteRegister → Byte
  | .a => r.a
  | .x => r.x
  | .y => r.y
  | .sp => r.sp

def set (r : Registers) (register : ByteRegister) (value : Byte) : Registers :=
  match register with
  | .a => { r with a := value }
  | .x => { r with x := value }
  | .y => { r with y := value }
  | .sp => { r with sp := value }

def setFlag (r : Registers) (flag : Flag) (value : Bool) : Registers :=
  { r with status := r.status.set flag value }

def withResult (r : Registers) (result : Byte) : Registers :=
  { r with status := r.status.withResult result }

/-- Address of the stack slot that the next push fills. -/
def stackAddress (r : Registers) : Word :=
  Word.ofBytes 0x01 r.sp

def text (r : Registers) : String :=
  "PC:" ++ Hex.word r.pc ++ " A:" ++ Hex.byte r.a ++ " X:" ++ Hex.byte r.x
    ++ " Y:" ++ Hex.byte r.y ++ " SP:" ++ Hex.byte r.sp ++ " P:" ++ Hex.byte r.status.toByte

theorem get_set (r : Registers) (p q : ByteRegister) (value : Byte) :
    (r.set p value).get q = if p = q then value else r.get q := by
  cases p <;> cases q <;> rfl

end Registers

end Core6502
