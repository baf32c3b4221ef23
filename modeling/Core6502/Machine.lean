import Core6502.Bus
import Core6502.Instruction

/-!
# The machine

The state of the processor together with the bus it owns. The cycle counter only grows, except that
a reset sets it to zero. Each interrupt loads the program counter from a word at a fixed address,
its vector. Which vector the force-interrupt instruction uses is an option, as are the program
counter and stack pointer at power on.

The stack lies in page one and grows downward. The stack pointer is the low byte of the next free
slot and wraps within the page, without any guard.

An outcome is what is left after the machine was asked to do something: its state, an answer or a
fault, and the events on the way, each of which is logged as a line. A fault keeps the state that it
was met in.
-/

namespace Core6502

universe u

namespace Vectors

/-- Non-maskable interrupt. -/
def nmi : Word := 0xFFFA

def reset : Word := 0xFFFC

/-- Maskable interrupt request. -/
def irq : Word := 0xFFFE

end Vectors

inductive BrkVector
  | nmi
  | irq
  deriving DecidableEq

def BrkVector.address : BrkVector → Word
  | .nmi => Vectors.nmi
  | .irq => Vectors.irq

/-- The reset vector is not followed at power on; execution starts at `initialPc`. -/
structure Config where
  brkVector : BrkVector := .nmi
  initialSp : Byte := 0xFD
  initialPc : Word := 0xFFFC
  deriving DecidableEq

structure Machine (M : Type u) where
  regs : Registers
  cycles : UInt64
  config : Config
  bus : M

namespace Machine

variable {M : Type u}

def powerOn (bus : M) (config : Config := {}) : Machine M where
  regs := { sp := config.initialSp, pc := config.initialPc }
  cycles := 0
  config := config
  bus := bus

/-- A machine at power on whose memory starts with an image. -/
def ofImage (image : List Byte) : Except Fault (Machine Memory) :=
  (Memory.ofImage image).map fun memory => powerOn memory

/-- Restores the program counter and stack pointer of power on, and restarts the
cycle counter. The other registers and memory stay. -/
def reset (m : Machine M) : Machine M :=
  { m with
    regs := { m.regs with pc := m.config.initialPc, sp := m.config.initialSp }
    cycles := 0 }

def withRegs (m : Machine M) (regs : Registers) : Machine M :=
  { m with regs }

def withBus (m : Machine M) (bus : M) : Machine M :=
  { m with bus }

def jumpTo (m : Machine M) (pc : Word) : Machine M :=
  { m with regs := { m.regs with pc } }

def charge (m : Machine M) (cycles : Nat) : Machine M :=
  { m with cycles := m.cycles + cycles.toUInt64 }

end Machine

namespace Machine

variable {M : Type u} [Bus M]

/-- Fills the free slot, then lowers the stack pointer. -/
def push (m : Machine M) (value : Byte) : Machine M :=
  { m with
    regs := { m.regs with sp := m.regs.sp - 1 }
    bus := Bus.write m.bus m.regs.stackAddress value }

/-- Raises the stack pointer, then reads the slot there. -/
def pop (m : Machine M) : Byte × Machine M :=
  let m := m.withRegs { m.regs with sp := m.regs.sp + 1 }
  (Bus.read m.bus m.regs.stackAddress, m)

/-- The high byte goes first, so that the low byte comes back first. -/
def pushWord (m : Machine M) (value : Word) : Machine M :=
  (m.push (Word.high value)).push (Word.low value)

def popWord (m : Machine M) : Word × Machine M :=
  let low := m.pop
  let high := low.2.pop
  (Word.ofBytes high.1 low.1, high.2)

end Machine

inductive Event
  /-- An instruction is about to run on these registers. -/
  | executing (opcode : Byte) (encoding : Encoding) (regs : Registers)
  /-- An interrupt was entered, with `pc` the address to return to. -/
  | interrupt (vector pc : Word)
  | illegalOpcode (opcode : Byte) (pc : Word)
  deriving DecidableEq

namespace Event

def level : Event → String
  | executing .. => "TRACE"
  | interrupt .. => "DEBUG"
  | illegalOpcode .. => "WARN"

def message : Event → String
  | executing opcode encoding regs =>
    Hex.word regs.pc ++ "  " ++ Hex.byte opcode ++ "  " ++ encoding.text ++ "  " ++ regs.text
  | interrupt vector pc =>
    "interrupt via 0x" ++ Hex.word vector ++ " from PC=0x" ++ Hex.word pc
  | illegalOpcode opcode pc =>
    "illegal opcode 0x" ++ Hex.byte opcode ++ " at 0x" ++ Hex.word pc

def line (event : Event) : String :=
  event.level ++ " " ++ event.message

end Event

structure Outcome (M : Type u) (α : Type) where
  machine : Machine M
  result : Except Fault α
  events : Array Event

namespace Outcome

variable {M : Type u} {α β : Type}

def done (machine : Machine M) (answer : α) : Outcome M α :=
  ⟨machine, .ok answer, #[]⟩

/-- Puts earlier events in front. -/
def after (o : Outcome M α) (events : Array Event) : Outcome M α :=
  { o with events := events ++ o.events }

def map (o : Outcome M α) (f : Machine M → α → β) : Outcome M β :=
  ⟨o.machine, o.result.map (f o.machine), o.events⟩

def andThen (o : Outcome M α) (next : Machine M → Outcome M β) : Outcome M β :=
  match o with
  | ⟨machine, .ok _, events⟩ => (next machine).after events
  | ⟨machine, .error fault, events⟩ => ⟨machine, .error fault, events⟩

end Outcome

end Core6502
