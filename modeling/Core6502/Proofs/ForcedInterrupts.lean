import Core6502.Proofs.Lockstep

/-!
# Forced interrupts

The force-interrupt instruction is an interrupt that returns to the second byte after it. It takes
another way there, with its own charge and its own program counter, but leaves the same machine and
makes the same writes on every bus. The vector is read when everything is pushed. On a bus that
folds addresses onto one another the pushes may therefore decide where the entry leads.
-/

namespace Core6502

universe u

variable {M : Type u} [Bus M]

/-- From now on, addresses with one home share a byte, and words are read as two bytes. -/
structure Bus.Folds (home : Word → Word) (bus : M) : Prop where
  read_write : ∀ writes a b value, Bus.read (Bus.write (Bus.writeAll bus writes) a value) b =
    if home a = home b then value else Bus.read (Bus.writeAll bus writes) b
  readWord_eq : ∀ writes a, Bus.readWord (Bus.writeAll bus writes) a =
    Word.ofBytes (Bus.read (Bus.writeAll bus writes) (a + 1)) (Bus.read (Bus.writeAll bus writes) a)

/-- The last byte that is written to an address with the same home. -/
def lastWritten (home : Word → Word) (a : Word) : List (Word × Byte) → Option Byte
  | [] => none
  | w :: rest => (lastWritten home a rest).or (if home w.1 = home a then some w.2 else none)

namespace Bus.Folds

variable {home : Word → Word} {bus : M}

theorem write (folds : Folds home bus) (a : Word) (value : Byte) :
    Folds home (Bus.write bus a value) :=
  ⟨fun writes => folds.read_write ((a, value) :: writes),
    fun writes => folds.readWord_eq ((a, value) :: writes)⟩

theorem read_writeAll (folds : Folds home bus) (writes : List (Word × Byte)) (a : Word) :
    Bus.read (Bus.writeAll bus writes) a = (lastWritten home a writes).getD (Bus.read bus a) := by
  induction writes generalizing bus with
  | nil => rfl
  | cons w rest ih =>
    have first : Bus.read (Bus.write bus w.1 w.2) a =
        (if home w.1 = home a then some w.2 else none).getD (Bus.read bus a) := by
      have one := folds.read_write [] w.1 a w.2
      by_cases same : home w.1 = home a
      · rwa [if_pos same] at one ⊢
      · rwa [if_neg same] at one ⊢
    rw [Bus.writeAll_cons, ih (folds.write w.1 w.2), lastWritten, first]
    cases lastWritten home a rest <;> rfl

end Bus.Folds

/-- Flat memory folds no address onto another. -/
theorem Memory.folds (memory : Memory) : Bus.Folds id memory where
  read_write _ a b value := Memory.read_write _ a b value
  readWord_eq _ _ := rfl

namespace Status

/-- Each bit of the packed byte is its flag. -/
theorem isSet_toByte (s : Status) (flag : Flag) : flag.isSet s.toByte = s.get flag := by
  have unpacked : (ofByte s.toByte).get flag = s.get flag := by rw [ofByte_toByte]
  cases flag <;> exact unpacked

end Status

namespace Machine

/-- What an interrupt entry that returns to an address makes of the machine before it. -/
structure Entry (m : Machine M) (returns vector : Word) (writes : List (Word × Byte))
    (after : Machine M) : Prop where
  /-- Every flag is pushed as it is. -/
  pushes : ∃ packed, (∀ flag : Flag, flag.isSet packed = m.regs.status.get flag) ∧
    writes = [(stackSlot m.regs.sp, Word.high returns),
      (stackSlot (m.regs.sp - 1), Word.low returns), (stackSlot (m.regs.sp - 2), packed)]
  bus : after.bus = Bus.writeAll m.bus writes
  /-- The vector is read after the pushes. -/
  regs : after.regs =
    { m.regs with
      sp := m.regs.sp - 3
      pc := Bus.readWord (Bus.writeAll m.bus writes) vector
      status := m.regs.status.set .interruptDisable true }
  cycles : after.cycles = m.cycles + 7
  config : after.config = m.config
  /-- Where a push falls on the vector, the pushed byte is taken for it. -/
  folded : ∀ home, Bus.Folds home m.bus → after.regs.pc = Word.ofBytes
    ((lastWritten home (vector + 1) writes).getD (Bus.read m.bus (vector + 1)))
    ((lastWritten home vector writes).getD (Bus.read m.bus vector))

theorem entry_interrupt (m : Machine M) (vector : Word) :
    m.Entry m.regs.pc vector (m.writes (.interrupt vector))
      (m.perform (.interrupt vector)).machine := by
  have writes := m.writes_interrupt vector
  have frame := writes.trans (m.regs.pushWrites_interruptFrame m.regs.pc)
  have entered : (m.perform (.interrupt vector)).machine =
      (m.enterInterrupt vector).machine.charge interruptCycles := rfl
  have regs : (m.perform (.interrupt vector)).machine.regs =
      { m.regs with
        sp := m.regs.sp - 3
        pc := Bus.readWord (Bus.writeAll m.bus (m.writes (.interrupt vector))) vector
        status := m.regs.status.set .interruptDisable true } := by
    rw [entered, enterInterrupt_machine, writes]
    rfl
  refine ⟨⟨_, m.regs.status.isSet_toByte, frame⟩, ?_, regs, ?_, ?_, ?_⟩
  · exact m.perform_bus (Or.inr (Or.inr ⟨vector, rfl⟩))
  · rw [entered, enterInterrupt_machine]
    rfl
  · rw [entered, enterInterrupt_machine]
    rfl
  · intro home folds
    rw [regs, folds.readWord_eq, folds.read_writeAll, folds.read_writeAll]

theorem encoding?_of_zero {m : Machine M} (h : Bus.read m.bus m.regs.pc = 0x00) :
    m.encoding? = some ⟨.brk, .implied, 7⟩ := by
  rw [encoding?, h]
  decide +kernel

/-- Both ways lead to one entry: the charge comes before it in one and after it in the other. -/
theorem step_of_zero {m : Machine M} (h : Bus.read m.bus m.regs.pc = 0x00) :
    m.step.machine =
      m.performAll [.setPc (m.regs.pc + 2), .interrupt m.config.brkVector.address] := by
  have encoding := encoding?_of_zero h
  have saved := saved_of_forceInterrupt encoding rfl
  have prepared : (m.advance (m.operand .implied) ⟨.brk, .implied, 7⟩).jumpTo
      ((m.advance (m.operand .implied) ⟨.brk, .implied, 7⟩).regs.pc + 1) =
        (m.jumpTo (m.regs.pc + 2)).charge interruptCycles :=
    congrArg (m.charge interruptCycles).jumpTo saved
  calc m.step.machine
    _ = ((m.advance (m.operand .implied) ⟨.brk, .implied, 7⟩).execute .forceInterrupt
          (m.operand .implied)).machine := by rw [step_of_encoding encoding]; rfl
    _ = (((m.jumpTo (m.regs.pc + 2)).charge interruptCycles).enterInterrupt
          m.config.brkVector.address).machine := by rw [← prepared]; rfl
    _ = ((m.jumpTo (m.regs.pc + 2)).enterInterrupt m.config.brkVector.address).machine.charge
          interruptCycles := by rw [enterInterrupt_machine, enterInterrupt_machine]; rfl

/-- The writes are the same too, as a recorded bus is a bus like any other. -/
theorem history_of_zero {m : Machine M} (h : Bus.read m.bus m.regs.pc = 0x00) :
    m.history [.step] =
      m.history [.setPc (m.regs.pc + 2), .interrupt m.config.brkVector.address] := by
  have recorded := step_of_zero (m := m.recorded) h
  exact congrArg (fun n : Machine (Recorded M) => n.bus.writes.toList) recorded

/-- A step over a zero byte is an interrupt from the second address after it, and an interrupt
pushes what it finds before it looks at its vector. -/
theorem brk_enters_interrupt (m : Machine M) :
    (∀ vector, m.Entry m.regs.pc vector (m.writes (.interrupt vector))
      (m.perform (.interrupt vector)).machine) ∧
    (Bus.read m.bus m.regs.pc = 0x00 →
      let vector := m.config.brkVector.address
      m.step.result = .ok () ∧
      m.step.machine = m.performAll [.setPc (m.regs.pc + 2), .interrupt vector] ∧
      m.history [.step] = m.history [.setPc (m.regs.pc + 2), .interrupt vector] ∧
      m.Entry (m.regs.pc + 2) vector (m.writes .step) m.step.machine) := by
  refine ⟨m.entry_interrupt, ?_⟩
  intro zero vector
  have machine := step_of_zero zero
  have history := history_of_zero zero
  have entry := (m.jumpTo (m.regs.pc + 2)).entry_interrupt vector
  have writes : (m.jumpTo (m.regs.pc + 2)).writes (.interrupt vector) = m.writes .step :=
    history.symm
  have after : ((m.jumpTo (m.regs.pc + 2)).perform (.interrupt vector)).machine =
      m.step.machine := machine.symm
  rw [writes, after] at entry
  refine ⟨step_ok_of_encoding (encoding?_of_zero zero), machine, history, ?_⟩
  exact ⟨entry.pushes, entry.bus, entry.regs, entry.cycles, entry.config, entry.folded⟩

end Machine

/-- 512 bytes of RAM that every other page shares. -/
structure TwoPages where
  bytes : Memory

namespace TwoPages

def home (a : Word) : Word :=
  a &&& 0x01FF

instance : Bus TwoPages where
  read bus a := bus.bytes.read (home a)
  write bus a value := ⟨bus.bytes.write (home a) value⟩

theorem folds (bus : TwoPages) : Bus.Folds home bus where
  read_write _ a b value := Memory.read_write _ (home a) (home b) value
  readWord_eq _ _ := rfl

end TwoPages

namespace Machine

/-- Zeros everywhere, with the vector on the slots that are pushed to. -/
def foldedVector : Machine TwoPages where
  regs := { sp := 0xFC, pc := 0x8010, status := { brk := true } }
  cycles := 0
  config := {}
  bus := ⟨Memory.zeroed⟩

/-- The vector consists of the flags and of the low byte of the return address. On flat memory a
vector in page one leads back to the interrupted program. -/
theorem brk_enters_interrupt_folded :
    foldedVector.step.machine =
      foldedVector.performAll [.setPc 0x8012, .interrupt Vectors.nmi] ∧
    foldedVector.step.machine.cycles = 7 ∧
    foldedVector.step.machine.regs.pc = 0x1230 ∧
    (ramProgram.perform (.interrupt 0x01FC)).machine.regs.pc = 0x8000 := by
  obtain ⟨_, brk⟩ := brk_enters_interrupt foldedVector
  obtain ⟨_, machine, _, entry⟩ := brk (by decide +kernel)
  obtain ⟨interrupts, _⟩ := brk_enters_interrupt ramProgram
  refine ⟨machine, entry.cycles, ?_, ?_⟩
  · refine (entry.folded TwoPages.home foldedVector.bus.folds).trans ?_
    decide +kernel
  · refine ((interrupts 0x01FC).folded id ramProgram.bus.folds).trans ?_
    decide +kernel

end Machine

end Core6502
