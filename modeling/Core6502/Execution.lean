import Core6502.Arithmetic
import Core6502.Machine

/-!
# Execution

One step fetches the opcode at the program counter, decodes it, resolves its operand and executes
it. An operation starts with the program counter at the next instruction, so only operations that
jump set it. An illegal opcode changes nothing.

Entering an interrupt pushes the program counter and the status, loads the program counter through a
vector, and disables further requests. The vector is read after the pushes.

A run repeats steps, for a count of instructions or for a budget of cycles, and stops at the first
fault.
-/

namespace Core6502

universe u

variable {M : Type u} [Bus M]

namespace Machine

def interruptCycles : Nat := 7

def enterInterrupt (m : Machine M) (vector : Word) : Outcome M Unit :=
  let pushed := (m.pushWord m.regs.pc).push m.regs.status.toByte
  { machine := pushed.withRegs
      { pushed.regs with
        pc := Bus.readWord pushed.bus vector
        status := { pushed.regs.status with interruptDisable := true } }
    result := .ok ()
    events := #[.interrupt vector m.regs.pc] }

/-- An interrupt that is taken whatever the flags say. -/
def interrupt (m : Machine M) (vector : Word) : Outcome M Unit :=
  let entered := m.enterInterrupt vector
  { entered with machine := entered.machine.charge interruptCycles }

/-- An interrupt request, taken unless requests are disabled. Says whether it was. -/
def irqIfEnabled (m : Machine M) : Outcome M Bool :=
  if m.regs.status.interruptDisable then
    .done m false
  else
    (m.interrupt Vectors.irq).map fun _ _ => true

def writeBack (m : Machine M) (target : Target) (value : Byte) : Machine M :=
  match target with
  | .accumulator => m.withRegs { m.regs with a := value }
  | .nowhere => m
  | .memory address => m.withBus (Bus.write m.bus address value)

/-- A call saves the address of its own last byte; force-interrupt saves the
address after the byte that follows it. -/
def execute (m : Machine M) (operation : Operation) (operand : Operand) : Outcome M Unit :=
  let regs := m.regs
  match operation with
  | .add =>
    .done (m.withRegs (regs.accumulate
      (addWithCarry regs.a operand.value regs.status.carry))) ()
  | .subtract =>
    .done (m.withRegs (regs.accumulate
      (subtractWithCarry regs.a operand.value regs.status.carry))) ()
  | .logic function => .done (m.withRegs (regs.load .a (function.apply regs.a operand.value))) ()
  | .compare register => .done (m.withRegs (regs.compare (regs.get register) operand.value)) ()
  | .bitTest => .done (m.withRegs (regs.bitTest operand.value)) ()
  | .modify transform =>
    let new := transform.apply regs.status.carry operand.value
    .done ((m.withRegs ((regs.setFlag .carry new.2).withResult new.1)).writeBack
      operand.target new.1) ()
  | .adjust register transform =>
    let new := transform.apply regs.status.carry (regs.get register)
    .done (m.withRegs ((regs.setFlag .carry new.2).load register new.1)) ()
  | .load register => .done (m.withRegs (regs.load register operand.value)) ()
  | .store register => .done (m.writeBack operand.target (regs.get register)) ()
  | .transfer source destination => .done (m.withRegs (regs.load destination (regs.get source))) ()
  | .assign flag value => .done (m.withRegs (regs.setFlag flag value)) ()
  | .branch flag value =>
    match operand.address? with
    | some target =>
      if regs.status.get flag = value then .done ((m.jumpTo target).charge 1) () else .done m ()
    | none => .done m ()
  | .jump =>
    match operand.address? with
    | some target => .done (m.jumpTo target) ()
    | none => .done m ()
  | .call =>
    match operand.address? with
    | some target => .done ((m.pushWord (regs.pc - 1)).jumpTo target) ()
    | none => .done m ()
  | .returnFromCall =>
    let address := m.popWord
    .done (address.2.jumpTo (address.1 + 1)) ()
  | .forceInterrupt => (m.jumpTo (regs.pc + 1)).enterInterrupt m.config.brkVector.address
  | .returnFromInterrupt =>
    let status := m.pop
    let address := status.2.popWord
    .done (address.2.withRegs
      { address.2.regs with pc := address.1, status := Status.ofByte status.1 }) ()
  | .pushAccumulator => .done (m.push regs.a) ()
  | .pullAccumulator =>
    let value := m.pop
    .done (value.2.withRegs (value.2.regs.load .a value.1)) ()
  | .pushStatus => .done (m.push regs.status.toByte) ()
  | .pullStatus =>
    let value := m.pop
    .done (value.2.withRegs { value.2.regs with status := Status.ofByte value.1 }) ()
  | .idle => .done m ()

/-- The bytes after the opcode, as far as the mode has any. -/
def rawOperand (m : Machine M) (mode : Mode) : Word :=
  match mode.operandLength with
  | 0 => 0
  | 1 => (Bus.read m.bus (m.regs.pc + 1)).toUInt16
  | _ => Bus.readWord m.bus (m.regs.pc + 1)

def operand (m : Machine M) (mode : Mode) : Operand :=
  mode.resolve m.regs m.bus (m.rawOperand mode)

/-- Moves past the instruction and charges for it. -/
def advance (m : Machine M) (operand : Operand) (encoding : Encoding) : Machine M :=
  (m.jumpTo (m.regs.pc + UInt16.ofNat (operand.length + 1))).charge encoding.cycles

def step (m : Machine M) : Outcome M Unit :=
  let pc := m.regs.pc
  let opcode := Bus.read m.bus pc
  match Opcode.decode opcode with
  | none => ⟨m, .error (.illegalOpcode opcode pc), #[.illegalOpcode opcode pc]⟩
  | some encoding =>
    let operand := m.operand encoding.mode
    ((m.advance operand encoding).execute encoding.instruction.operation operand).after
      #[.executing opcode encoding m.regs]

end Machine

/-- Steps until a fault, until `more` no longer holds, or until `fuel` is spent. -/
def Outcome.steps (more : Machine M → Bool) : Nat → Outcome M Unit → Outcome M Unit
  | 0, o => o
  | fuel + 1, o =>
    if o.result.isOk && more o.machine then
      steps more fuel (o.andThen Machine.step)
    else
      o

namespace Machine

def run (m : Machine M) (count : Nat) : Outcome M Nat :=
  ((Outcome.done m ()).steps (fun _ => true) count).map fun _ _ => count

/-- The counter value at which a budget is spent; the counter's greatest value
if the budget reaches beyond it. -/
def cycleTarget (m : Machine M) (budget : UInt64) : UInt64 :=
  (min (m.cycles.toNat + budget.toNat) (UInt64.size - 1)).toUInt64

/-- Executes instructions until the budget is spent. Gives the cycles consumed, which the last
instruction may take past the budget. Every step costs at least two cycles, so the fuel lasts unless
a step takes the counter over its greatest value. The loop then ends when the fuel is spent, with
the counter below its target; without fuel it would go on. -/
def runForCycles (m : Machine M) (budget : UInt64) : Outcome M UInt64 :=
  let target := m.cycleTarget budget
  let fuel := target.toNat - m.cycles.toNat
  ((Outcome.done m ()).steps (fun n => n.cycles < target) fuel).map fun n _ => n.cycles - m.cycles

end Machine

end Core6502
