import Core6502.Execution

/-!
# Host calls

Everything that a host can ask of the machine between two steps, as data, so
that a history is a list of calls.
-/

namespace Core6502

universe u

inductive HostCall
  | step
  | run (count : Nat)
  | runForCycles (budget : UInt64)
  | interrupt (vector : Word)
  | irqIfEnabled
  | push (value : Byte)
  | pushWord (value : Word)
  | pop
  | popWord
  | read (address : Word)
  | readWord (address : Word)
  | write (address : Word) (value : Byte)
  | load (address : Word) (bytes : List Byte)
  | reset
  | clear
  | setRegister (register : ByteRegister) (value : Byte)
  | setPc (value : Word)
  | setStatus (packed : Byte)
  | setFlag (flag : Flag) (value : Bool)
  | setZeroNegative (result : Byte)
  deriving DecidableEq

namespace HostCall

def nmi : HostCall := .interrupt Vectors.nmi

def irq : HostCall := .interrupt Vectors.irq

def rst : HostCall := .interrupt Vectors.reset

end HostCall

inductive Answer
  | nothing
  | taken (value : Bool)
  | byte (value : Byte)
  | word (value : Word)
  | count (value : Nat)
  deriving DecidableEq

namespace Machine

variable {M : Type u} [Bus M]

def perform (m : Machine M) : HostCall → Outcome M Answer
  | .step => m.step.map fun _ _ => .nothing
  | .run count => (m.run count).map fun _ n => .count n
  | .runForCycles budget => (m.runForCycles budget).map fun _ n => .count n.toNat
  | .interrupt vector => (m.interrupt vector).map fun _ _ => .nothing
  | .irqIfEnabled => m.irqIfEnabled.map fun _ taken => .taken taken
  | .push value => .done (m.push value) .nothing
  | .pushWord value => .done (m.pushWord value) .nothing
  | .pop => let popped := m.pop; .done popped.2 (.byte popped.1)
  | .popWord => let popped := m.popWord; .done popped.2 (.word popped.1)
  | .read address => .done m (.byte (Bus.read m.bus address))
  | .readWord address => .done m (.word (Bus.readWord m.bus address))
  | .write address value => .done (m.withBus (Bus.write m.bus address value)) .nothing
  | .load address bytes => .done (m.withBus (Bus.store m.bus address bytes)) .nothing
  | .reset => .done m.reset .nothing
  | .clear => .done (m.withBus (Bus.clear m.bus)) .nothing
  | .setRegister register value => .done (m.withRegs (m.regs.set register value)) .nothing
  | .setPc value => .done (m.jumpTo value) .nothing
  | .setStatus packed =>
    .done (m.withRegs { m.regs with status := Status.ofByte packed }) .nothing
  | .setFlag flag value => .done (m.withRegs (m.regs.setFlag flag value)) .nothing
  | .setZeroNegative result => .done (m.withRegs (m.regs.withResult result)) .nothing

/-- A request is an interrupt unless requests are disabled. -/
theorem perform_irqIfEnabled (m : Machine M) :
    m.perform .irqIfEnabled =
      if m.regs.status.interruptDisable then .done m (.taken false)
      else (m.interrupt Vectors.irq).map fun _ _ => .taken true := by
  rw [perform, irqIfEnabled]
  split <;> rfl

/-- The host is told whether a request was granted. -/
theorem result_irqIfEnabled (m : Machine M) :
    (m.perform .irqIfEnabled).result = .ok (.taken !m.regs.status.interruptDisable) := by
  rw [perform_irqIfEnabled]
  cases m.regs.status.interruptDisable <;> rfl

/-- The machine after calls made one after another. A fault does not stop the host. -/
def performAll (m : Machine M) (calls : List HostCall) : Machine M :=
  calls.foldl (fun m call => (m.perform call).machine) m

@[simp]
theorem performAll_nil (m : Machine M) : m.performAll [] = m :=
  rfl

@[simp]
theorem performAll_cons (m : Machine M) (call : HostCall) (calls : List HostCall) :
    m.performAll (call :: calls) = (m.perform call).machine.performAll calls :=
  rfl

theorem performAll_append (m : Machine M) (front back : List HostCall) :
    m.performAll (front ++ back) = (m.performAll front).performAll back := by
  simp [performAll]

end Machine

end Core6502
