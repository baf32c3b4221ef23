import Core6502.Bus
import Core6502.Registers

/-!
# Addressing modes and operands

A mode says how an instruction finds its operand, and how many bytes after the opcode it takes to
say so. Resolving a mode gives the byte that the instruction works on, the place that a result would
go to, and the count of bytes after the opcode. The registers are those before the instruction, with
the program counter at its opcode. `raw` holds the bytes after the opcode: one-byte modes use its
low byte only. Resolving reads the bus and changes nothing.
-/

namespace Core6502

universe u

inductive Mode
  | accumulator
  | immediate
  | implied
  | zeroPage
  | zeroPageX
  | zeroPageY
  | absolute
  | absoluteX
  | absoluteY
  | indirect
  /-- Through a page-zero pointer, indexed by X before it is followed. -/
  | indirectX
  /-- Through a page-zero pointer, indexed by Y after it is followed. -/
  | indirectY
  | relative
  deriving DecidableEq

namespace Mode

/-- Count of bytes after the opcode. -/
def operandLength : Mode → Nat
  | accumulator | implied => 0
  | immediate | zeroPage | zeroPageX | zeroPageY | indirectX | indirectY | relative => 1
  | absolute | absoluteX | absoluteY | indirect => 2

def name : Mode → String
  | accumulator => "Accumulator"
  | immediate => "Immediate"
  | implied => "Implied"
  | zeroPage => "ZeroPage"
  | zeroPageX => "ZeroPageX"
  | zeroPageY => "ZeroPageY"
  | absolute => "Absolute"
  | absoluteX => "AbsoluteX"
  | absoluteY => "AbsoluteY"
  | indirect => "Indirect"
  | indirectX => "IndirectX"
  | indirectY => "IndirectY"
  | relative => "Relative"

end Mode

inductive Target
  | accumulator
  /-- A result would be dropped. -/
  | nowhere
  | memory (address : Word)
  deriving DecidableEq

structure Operand where
  value : Byte
  target : Target
  length : Nat
  deriving DecidableEq

namespace Operand

def address? (operand : Operand) : Option Word :=
  match operand.target with
  | .memory address => some address
  | .accumulator | .nowhere => none

def accumulator (regs : Registers) : Operand :=
  ⟨regs.a, .accumulator, 0⟩

/-- Instructions of this mode ignore the value. -/
def implied (regs : Registers) : Operand :=
  ⟨regs.a, .nowhere, 0⟩

def immediate (raw : Word) : Operand :=
  ⟨Word.low raw, .nowhere, 1⟩

variable {M : Type u} [Bus M]

def atAddress (bus : M) (address : Word) (length : Nat) : Operand :=
  ⟨Bus.read bus address, .memory address, length⟩

def zeroPage (bus : M) (raw : Word) : Operand :=
  atAddress bus (Word.low raw).toUInt16 1

/-- The index is added within page zero. -/
def zeroPageX (regs : Registers) (bus : M) (raw : Word) : Operand :=
  atAddress bus (Word.low raw + regs.x).toUInt16 1

/-- The index is added within page zero. -/
def zeroPageY (regs : Registers) (bus : M) (raw : Word) : Operand :=
  atAddress bus (Word.low raw + regs.y).toUInt16 1

def absolute (bus : M) (raw : Word) : Operand :=
  atAddress bus raw 2

def absoluteX (regs : Registers) (bus : M) (raw : Word) : Operand :=
  atAddress bus (raw + regs.x.toUInt16) 2

def absoluteY (regs : Registers) (bus : M) (raw : Word) : Operand :=
  atAddress bus (raw + regs.y.toUInt16) 2

def indirect (bus : M) (raw : Word) : Operand :=
  atAddress bus (Bus.readWord bus raw) 2

/-- The word at a place in page zero. Its high byte is in page zero too. -/
def zeroPagePointer (bus : M) (place : Byte) : Word :=
  Word.ofBytes (Bus.read bus (place + 1).toUInt16) (Bus.read bus place.toUInt16)

def indirectX (regs : Registers) (bus : M) (raw : Word) : Operand :=
  atAddress bus (zeroPagePointer bus (Word.low raw + regs.x)) 1

def indirectY (regs : Registers) (bus : M) (raw : Word) : Operand :=
  atAddress bus (zeroPagePointer bus (Word.low raw) + regs.y.toUInt16) 1

/-- The signed offset counts from the instruction after the branch. -/
def relative (regs : Registers) (bus : M) (raw : Word) : Operand :=
  atAddress bus (regs.pc + 2 + Word.signExtend (Word.low raw)) 1

end Operand

def Mode.resolve {M : Type u} [Bus M] (mode : Mode) (regs : Registers) (bus : M) (raw : Word) :
    Operand :=
  match mode with
  | .accumulator => Operand.accumulator regs
  | .immediate => Operand.immediate raw
  | .implied => Operand.implied regs
  | .zeroPage => Operand.zeroPage bus raw
  | .zeroPageX => Operand.zeroPageX regs bus raw
  | .zeroPageY => Operand.zeroPageY regs bus raw
  | .absolute => Operand.absolute bus raw
  | .absoluteX => Operand.absoluteX regs bus raw
  | .absoluteY => Operand.absoluteY regs bus raw
  | .indirect => Operand.indirect bus raw
  | .indirectX => Operand.indirectX regs bus raw
  | .indirectY => Operand.indirectY regs bus raw
  | .relative => Operand.relative regs bus raw

end Core6502
