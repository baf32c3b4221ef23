import Core6502.Proofs.Lockstep
import Core6502.Proofs.Resolution

/-!
# Words read from the bus

A bus may read words in a way of its own. Only three things are taken from it as words: the two
bytes after an opcode, the target of an indirect jump, and the vector of an interrupt once
everything is pushed. Two buses that agree on single bytes can be told apart there and nowhere else,
so the stack and the pointers in page zero are the same on both.
-/

namespace Core6502

universe u v

def HostCall.mayReadWord : HostCall → Bool
  | .step | .run _ | .runForCycles _ | .interrupt _ | .irqIfEnabled | .readWord _ => true
  | _ => false

/-- Only a jump goes through a word anywhere in memory. -/
theorem Opcode.jmp_of_indirect {opcode : Byte} {e : Encoding} (h : decode opcode = some e)
    (indirect : e.mode = .indirect) : e.instruction = .jmp := by
  have row := of_rows (p := fun e => decide (e.mode = .indirect → e.instruction = .jmp))
    (by decide +kernel) h
  exact of_decide_eq_true row indirect

section TwoBuses

variable {M : Type u} {N : Type v} [Bus M] [Bus N]

def SameWord (b : M) (c : N) (a : Word) : Prop :=
  Bus.readWord c a = Bus.readWord b a

instance (b : M) (c : N) (a : Word) : Decidable (SameWord b c a) :=
  inferInstanceAs (Decidable (Bus.readWord c a = Bus.readWord b a))

/-- Related buses are read, written and cleared alike. Nothing is said of words. -/
structure Bus.BytesAgree (related : M → N → Prop) : Prop where
  read : ∀ {b c}, related b c → ∀ a, Bus.read c a = Bus.read b a
  write : ∀ {b c}, related b c → ∀ a value, related (Bus.write b a value) (Bus.write c a value)
  clear : ∀ {b c}, related b c → related (Bus.clear b) (Bus.clear c)

namespace Bus.BytesAgree

variable {related : M → N → Prop}

theorem writeAll (agree : BytesAgree related) {b : M} {c : N} (h : related b c)
    (writes : List (Word × Byte)) : related (Bus.writeAll b writes) (Bus.writeAll c writes) := by
  induction writes generalizing b c with
  | nil => exact h
  | cons w rest ih => exact ih (agree.write h w.1 w.2)

theorem store (agree : BytesAgree related) {b : M} {c : N} (h : related b c) (a : Word)
    (bytes : List Byte) : related (Bus.store b a bytes) (Bus.store c a bytes) := by
  rw [store_eq, store_eq]
  exact agree.writeAll h _

variable {m : Machine M} {n : Machine N}

/-- Calls that take no word from the bus. -/
theorem perform (agree : BytesAgree related) (alike : m.Alike related n) {call : HostCall}
    (bytewise : call.mayReadWord = false) :
    (m.perform call).Matches related (n.perform call) := by
  obtain ⟨regs, cycles, config, b⟩ := m
  obtain ⟨regs, cycles, config, c⟩ := n
  obtain ⟨rfl, rfl, rfl, bus⟩ := alike
  dsimp only at bus
  have bytes := agree.read bus
  cases call with
  | step | run | runForCycles | interrupt | irqIfEnabled | readWord => cases bytewise
  | push value => exact ⟨rfl, rfl, rfl, rfl, agree.write bus _ _⟩
  | pushWord value => exact ⟨rfl, rfl, rfl, rfl, agree.write (agree.write bus _ _) _ _⟩
  | write a value => exact ⟨rfl, rfl, rfl, rfl, agree.write bus a value⟩
  | load a values => exact ⟨rfl, rfl, rfl, rfl, agree.store bus a values⟩
  | clear => exact ⟨rfl, rfl, rfl, rfl, agree.clear bus⟩
  | pop =>
    simp only [Machine.perform, Machine.pop_eq, bytes]
    exact ⟨rfl, rfl, rfl, rfl, bus⟩
  | popWord =>
    simp only [Machine.perform, Machine.popWord_eq, bytes]
    exact ⟨rfl, rfl, rfl, rfl, bus⟩
  | read a =>
    simp only [Machine.perform, bytes]
    exact ⟨rfl, rfl, rfl, rfl, bus⟩
  | _ => exact ⟨rfl, rfl, rfl, rfl, bus⟩

/-- A step takes words for an operand of two bytes, for an indirect target and for the vector. -/
theorem step (agree : BytesAgree related) (alike : m.Alike related n)
    (word : ∀ e, m.encoding? = some e → e.mode.operandLength = 2 →
      SameWord m.bus n.bus (m.regs.pc + 1))
    (pointer : ∀ e, m.encoding? = some e → e.mode = .indirect →
      SameWord m.bus n.bus (Bus.readWord m.bus (m.regs.pc + 1)))
    (vector : ∀ e, m.encoding? = some e → e.instruction = .brk →
      SameWord (Bus.writeAll m.bus (m.regs.entryWrites (m.regs.pc + 2)))
        (Bus.writeAll n.bus (m.regs.entryWrites (m.regs.pc + 2))) m.config.brkVector.address) :
    m.step.Matches related n.step := by
  have view : Machine.SameView m n := by
    refine Machine.sameView_of_operand alike (agree.read alike.bus) ?_ ?_
    · intro e h
      exact Machine.operand_of_words alike.regs (agree.read alike.bus) (word e h) (pointer e h)
    · intro e h force
      rw [Machine.SameVector, m.regs.pushWrites_interruptFrame]
      exact vector e h (Instruction.operation_eq_forceInterrupt_iff.mp force)
  exact view.sameStep.matches alike (agree.writeAll alike.bus _)

theorem step_of_illegal (agree : BytesAgree related) (alike : m.Alike related n)
    (illegal : m.encoding? = none) : m.step.Matches related n.step := by
  apply agree.step alike <;> intro e h <;> cases illegal.symm.trans h

theorem step_of_encoding (agree : BytesAgree related) (alike : m.Alike related n) {e : Encoding}
    (h : m.encoding? = some e)
    (word : e.mode.operandLength = 2 → SameWord m.bus n.bus (m.regs.pc + 1))
    (pointer : e.mode = .indirect → SameWord m.bus n.bus (Bus.readWord m.bus (m.regs.pc + 1)))
    (vector : e.instruction = .brk →
      SameWord (Bus.writeAll m.bus (m.regs.entryWrites (m.regs.pc + 2)))
        (Bus.writeAll n.bus (m.regs.entryWrites (m.regs.pc + 2))) m.config.brkVector.address) :
    m.step.Matches related n.step := by
  apply agree.step alike <;> intro e' h' <;> obtain rfl := Option.some.inj (h.symm.trans h')
  · exact word
  · exact pointer
  · exact vector

theorem interrupt (agree : BytesAgree related) (alike : m.Alike related n) {vector : Word}
    (same : SameWord (Bus.writeAll m.bus (m.regs.entryWrites m.regs.pc))
      (Bus.writeAll n.bus (m.regs.entryWrites m.regs.pc)) vector) :
    (m.interrupt vector).Matches related (n.interrupt vector) := by
  rw [← m.regs.pushWrites_interruptFrame] at same
  exact Machine.interrupt_matches
    (Machine.enterInterrupt_matches alike (agree.writeAll alike.bus _) same)

end Bus.BytesAgree

namespace Machine

structure PointsInPageZero (m : Machine M) : Prop where
  indirectX : (m.operand .indirectX).address? = some
    (Operand.zeroPagePointer m.bus (Bus.read m.bus (m.regs.pc + 1) + m.regs.x))
  indirectY : (m.operand .indirectY).address? = some
    (Operand.zeroPagePointer m.bus (Bus.read m.bus (m.regs.pc + 1)) + m.regs.y.toUInt16)
  bytes : ∀ place : Byte, (Operand.zeroPagePointer m.bus place).toNat =
    (Bus.read m.bus (UInt16.ofNat place.toNat)).toNat +
      256 * (Bus.read m.bus (UInt16.ofNat ((place.toNat + 1) % 256))).toNat
  /-- The byte after page zero makes no difference. -/
  beyond : ∀ bus : M, (∀ a, a ≠ 0x0100 → Bus.read bus a = Bus.read m.bus a) →
    ∀ place, Operand.zeroPagePointer bus place = Operand.zeroPagePointer m.bus place

theorem pointsInPageZero (m : Machine M) : m.PointsInPageZero where
  indirectX := m.operand_address? .indirectX
  indirectY := m.operand_address? .indirectY
  bytes := Operand.toNat_zeroPagePointer m.bus
  beyond bus same place := by
    have inside (b : Byte) : b.toUInt16 ≠ 0x0100 := by
      intro h
      have := congrArg UInt16.toNat h
      have := b.toNat_lt
      simp only [UInt8.toNat_toUInt16, UInt16.reduceToNat] at *
      omega
    rw [Operand.zeroPagePointer, same _ (inside _), same _ (inside _), Operand.zeroPagePointer]

/-- On buses that agree on bytes, a call does the same unless the words differ that it takes from
the bus: an operand of two bytes, the target of an indirect jump, a vector after the pushes. -/
theorem words_confined {related : M → N → Prop} (agree : Bus.BytesAgree related) {m : Machine M}
    {n : Machine N} (alike : m.Alike related n) :
    (∀ call : HostCall, call.mayReadWord = false →
      (m.perform call).Matches related (n.perform call)) ∧
    (m.encoding? = none → m.step.Matches related n.step) ∧
    (∀ e, m.encoding? = some e → e.mode.operandLength ≤ 1 → e.instruction ≠ .brk →
      m.step.Matches related n.step) ∧
    (∀ e, m.encoding? = some e → e.mode.operandLength = 2 →
      SameWord m.bus n.bus (m.regs.pc + 1) →
      (e.instruction = .jmp → e.mode = .indirect →
        SameWord m.bus n.bus (Bus.readWord m.bus (m.regs.pc + 1))) →
      m.step.Matches related n.step) ∧
    (∀ e, m.encoding? = some e → e.instruction = .brk →
      SameWord (Bus.writeAll m.bus (m.regs.entryWrites (m.regs.pc + 2)))
        (Bus.writeAll n.bus (m.regs.entryWrites (m.regs.pc + 2))) m.config.brkVector.address →
      m.step.Matches related n.step) ∧
    (∀ vector, SameWord (Bus.writeAll m.bus (m.regs.entryWrites m.regs.pc))
        (Bus.writeAll n.bus (m.regs.entryWrites m.regs.pc)) vector →
      (m.interrupt vector).Matches related (n.interrupt vector)) ∧
    m.PointsInPageZero := by
  refine ⟨fun call => agree.perform alike, agree.step_of_illegal alike, ?_, ?_, ?_,
    fun vector => agree.interrupt alike, m.pointsInPageZero⟩
  · intro e h short other
    refine agree.step_of_encoding alike h ?_ ?_ fun brk => absurd brk other
    · intro two
      omega
    · intro indirect
      rw [indirect] at short
      exact absurd short (by decide)
  · intro e h two word pointer
    refine agree.step_of_encoding alike h (fun _ => word) ?_ ?_
    · intro indirect
      exact pointer (Opcode.jmp_of_indirect h indirect) indirect
    · intro brk
      rw [mode_of_encoding h (congrArg Instruction.operation brk) fun _ => rfl] at two
      cases two
  · intro e h brk vector
    have implied := mode_of_encoding h (congrArg Instruction.operation brk) fun _ => rfl
    refine agree.step_of_encoding alike h ?_ ?_ fun _ => vector
    · rw [implied]
      nofun
    · rw [implied]
      nofun

end Machine

end TwoBuses

/-- Flat memory, but both bytes of a word are read in one page. -/
structure PagedMemory where
  bytes : Memory

namespace PagedMemory

instance : Bus PagedMemory where
  read bus a := bus.bytes.read a
  write bus a value := ⟨bus.bytes.write a value⟩
  readWord bus a :=
    Word.ofBytes (bus.bytes.read (Word.ofBytes (Word.high a) (Word.low a + 1))) (bus.bytes.read a)
  clear _ := ⟨Memory.zeroed⟩

theorem bytesAgree : Bus.BytesAgree fun (b : Memory) (c : PagedMemory) => c.bytes = b where
  read h a := congrArg (Memory.read · a) h
  write h a value := congrArg (Memory.write · a value) h
  clear _ := rfl

end PagedMemory

namespace Machine

/-- A program in flat memory that is not zero at the ends of its pages. -/
def crossing (code : List Byte) : Machine Memory where
  regs := { y := 0x01, sp := 0xFE, pc := 0x8000 }
  cycles := 0
  config := {}
  bus := Bus.store (Bus.store (Memory.zeroed.write 0x0200 0x12) 0x00FF [0x34, 0x56]) 0x8000 code

def pagedCrossing (code : List Byte) : Machine PagedMemory :=
  { crossing code with bus := ⟨(crossing code).bus⟩ }

theorem crossing_alike (code : List Byte) :
    (crossing code).Alike (fun b c => c.bytes = b) (pagedCrossing code) :=
  ⟨rfl, rfl, rfl, rfl⟩

/-- A pointer and a word on the stack that cross a page are the same on both, and so are an illegal
opcode, a jump, a forced interrupt and a request. A jump through the end of a page is not. -/
theorem words_confined_paged :
    let same (b : Memory) (c : PagedMemory) : Prop := c.bytes = b
    ((crossing []).perform .popWord).Matches same ((pagedCrossing []).perform .popWord) ∧
    (crossing [0x02]).step.Matches same (pagedCrossing [0x02]).step ∧
    (crossing [0xB1, 0xFF]).step.Matches same (pagedCrossing [0xB1, 0xFF]).step ∧
    (crossing [0x6C, 0x10, 0x02]).step.Matches same (pagedCrossing [0x6C, 0x10, 0x02]).step ∧
    (crossing [0x00]).step.Matches same (pagedCrossing [0x00]).step ∧
    ((crossing []).interrupt 0x01FD).Matches same ((pagedCrossing []).interrupt 0x01FD) ∧
    (pagedCrossing [0x6C, 0xFF, 0x01]).step.machine.regs.pc ≠
      (crossing [0x6C, 0xFF, 0x01]).step.machine.regs.pc := by
  intro same
  have confined (code : List Byte) :=
    words_confined PagedMemory.bytesAgree (crossing_alike code)
  obtain ⟨calls, _, _, _, _, requests, _⟩ := confined []
  obtain ⟨_, illegal, _⟩ := confined [0x02]
  obtain ⟨_, _, short, _⟩ := confined [0xB1, 0xFF]
  obtain ⟨_, _, _, long, _⟩ := confined [0x6C, 0x10, 0x02]
  obtain ⟨_, _, _, _, forced, _⟩ := confined [0x00]
  refine ⟨calls .popWord rfl, illegal (by decide +kernel), ?_, ?_, ?_, ?_, by decide +kernel⟩
  · exact short ⟨.lda, .indirectY, 5⟩ (by decide +kernel) (by decide) (by decide)
  · exact long ⟨.jmp, .indirect, 5⟩ (by decide +kernel) rfl (by decide +kernel)
      fun _ _ => by decide +kernel
  · exact forced ⟨.brk, .implied, 7⟩ (by decide +kernel) rfl (by decide +kernel)
  · exact requests 0x01FD (by decide +kernel)

end Machine

end Core6502
