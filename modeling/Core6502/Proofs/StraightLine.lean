import Core6502.Proofs.Runs
import Core6502.Proofs.Slices

/-!
# Code in memory

What the machine does with code that lies at its program counter in flat memory. An instruction
is a step whose operand is in the bytes after its opcode, and steps that succeed are put one after
another. Programs state what they leave as it was as a whole: everything but a range of memory,
the accumulator, Y, the condition flags, the program counter and the cycle counter.
-/

namespace Core6502

universe u

/-- Cycles are charged one after another or at once. -/
theorem add_cycles (cycles : UInt64) (a b : Nat) :
    cycles + UInt64.ofNat a + UInt64.ofNat b = cycles + UInt64.ofNat (a + b) := by
  rw [UInt64.ofNat_add, UInt64.add_assoc]

namespace Machine

section AnyBus

variable {M : Type u} [Bus M]

theorem Completes.append {m : Machine M} {a b : Nat} (first : m.Completes a)
    (second : (m.afterSteps a).Completes b) : m.Completes (a + b) := by
  intro i hi
  by_cases early : i < a
  · exact first i early
  · obtain ⟨j, rfl⟩ : ∃ j, i = a + j := ⟨i - a, by omega⟩
    rw [afterSteps_add]
    exact second j (by omega)

/-- The next `count` steps succeed and lead to `n`. -/
structure Arrives (m : Machine M) (count : Nat) (n : Machine M) : Prop where
  completes : m.Completes count
  machine : m.afterSteps count = n

namespace Arrives

variable {m k n : Machine M} {i j : Nat}

theorem refl (m : Machine M) : m.Arrives 0 m :=
  ⟨m.completes_zero, rfl⟩

theorem trans (first : m.Arrives i k) (second : k.Arrives j n) : m.Arrives (i + j) n := by
  obtain ⟨completes, rfl⟩ := first
  refine ⟨completes.append second.completes, ?_⟩
  rw [afterSteps_add, second.machine]

theorem of_encoding {e : Encoding} (h : m.encoding? = some e) : m.Arrives 1 m.step.machine := by
  have ok : m.step.result = .ok () := step_ok_of_encoding h
  exact ⟨completes_succ_iff.mpr ⟨ok, completes_zero _⟩, rfl⟩

/-- A run of these steps succeeds. -/
theorem run (h : m.Arrives i n) : (m.run i).result = .ok i ∧ (m.run i).machine = n := by
  obtain ⟨result, machine⟩ := run_of_completes h.completes
  exact ⟨result, machine.trans h.machine⟩

end Arrives

/-- The next `count` steps succeed and lead to `n`, so many bytes and cycles further on. -/
structure Advances (m : Machine M) (count bytes cycles : Nat) (n : Machine M) : Prop where
  arrives : m.Arrives count n
  pc : n.regs.pc = m.regs.pc + UInt16.ofNat bytes
  cycles : n.cycles = m.cycles + UInt64.ofNat cycles

namespace Advances

variable {m k n : Machine M} {i j a b c d : Nat}

theorem refl (m : Machine M) : m.Advances 0 0 0 m where
  arrives := .refl m
  pc := (UInt16.add_zero _).symm
  cycles := (UInt64.add_zero _).symm

theorem trans (first : m.Advances i a c k) (second : k.Advances j b d n) :
    m.Advances (i + j) (a + b) (c + d) n where
  arrives := first.arrives.trans second.arrives
  pc := by rw [second.pc, first.pc, Word.add_ofNat_add_ofNat]
  cycles := by rw [second.cycles, first.cycles, add_cycles]

end Advances

end AnyBus

def rawBytes : List Byte → Word
  | [] => 0
  | [byte] => byte.toUInt16
  | low :: high :: _ => Word.ofBytes high low

variable {m : Machine Memory}

theorem rawOperand_of_contains {opcode : Byte} {rest : List Byte} {mode : Mode}
    (code : m.bus.Contains m.regs.pc (opcode :: rest)) (size : rest.length = mode.operandLength) :
    m.rawOperand mode = rawBytes rest := by
  have after : m.bus.slice (m.regs.pc + 1) rest.length = rest := (List.cons.inj code).2
  simp only [rawOperand, ← size]
  cases rest with
  | nil => rfl
  | cons low rest =>
    obtain ⟨first, more⟩ := List.cons.inj after
    cases rest with
    | nil => exact congrArg UInt8.toUInt16 first
    | cons high rest => exact congr (congrArg Word.ofBytes (List.cons.inj more).1) first

theorem encoding?_of_contains {opcode : Byte} {rest : List Byte} {e : Encoding}
    (code : m.bus.Contains m.regs.pc (opcode :: rest)) (row : Opcode.decode opcode = some e) :
    m.encoding? = some e := by
  rw [encoding?, Memory.bus_read, (List.cons.inj code).1, row]

/-- An instruction at the program counter is executed with the operand after its opcode. -/
theorem arrives_of_contains {opcode : Byte} {rest : List Byte} {e : Encoding}
    (code : m.bus.Contains m.regs.pc (opcode :: rest)) (row : Opcode.decode opcode = some e)
    (size : rest.length = e.mode.operandLength) :
    m.Arrives 1 (((m.jumpTo (m.regs.pc + UInt16.ofNat e.size)).charge e.cycles).execute
      e.instruction.operation (e.mode.resolve m.regs m.bus (rawBytes rest))).machine := by
  have h := encoding?_of_contains code row
  have operand : m.operand e.mode = e.mode.resolve m.regs m.bus (rawBytes rest) := by
    rw [Machine.operand, rawOperand_of_contains code size]
  have arrives := Arrives.of_encoding h
  rw [step_of_encoding h, advance, operand_length, operand] at arrives
  exact arrives

end Machine

def absolute (opcode : Byte) (address : Word) : List Byte :=
  [opcode, Word.low address, Word.high address]

theorem Memory.contains_absolute {m : Memory} {place address : Word} {opcode : Byte}
    {rest : List Byte} :
    m.Contains place (absolute opcode address ++ rest) ↔
      m.Contains place (absolute opcode address) ∧ m.Contains (place + 3) rest :=
  contains_append

namespace Machine

section Modes

variable {m : Machine Memory} {opcode : Byte} {address : Word} {i : Instruction} {cycles : Nat}

theorem arrives_immediate {value : Byte} (code : m.bus.Contains m.regs.pc [opcode, value])
    (row : Opcode.decode opcode = some ⟨i, .immediate, cycles⟩) :
    m.Arrives 1 (((m.jumpTo (m.regs.pc + 2)).charge cycles).execute i.operation
      ⟨value, .nowhere, 1⟩).machine := by
  have operand : Mode.immediate.resolve m.regs m.bus (rawBytes [value]) = ⟨value, .nowhere, 1⟩ :=
    congrArg (Operand.mk · .nowhere 1) (Word.low_toUInt16 value)
  have arrives := arrives_of_contains code row rfl
  rw [operand] at arrives
  exact arrives

theorem arrives_absolute (code : m.bus.Contains m.regs.pc (absolute opcode address))
    (row : Opcode.decode opcode = some ⟨i, .absolute, cycles⟩) :
    m.Arrives 1 (((m.jumpTo (m.regs.pc + 3)).charge cycles).execute i.operation
      ⟨m.bus.read address, .memory address, 2⟩).machine := by
  have arrives := arrives_of_contains code row rfl
  rw [rawBytes, Word.ofBytes_high_low] at arrives
  exact arrives

theorem arrives_absoluteY (code : m.bus.Contains m.regs.pc (absolute opcode address))
    (row : Opcode.decode opcode = some ⟨i, .absoluteY, cycles⟩) :
    m.Arrives 1 (((m.jumpTo (m.regs.pc + 3)).charge cycles).execute i.operation
      ⟨m.bus.read (address + m.regs.y.toUInt16), .memory (address + m.regs.y.toUInt16),
        2⟩).machine := by
  have arrives := arrives_of_contains code row rfl
  rw [rawBytes, Word.ofBytes_high_low] at arrives
  exact arrives

/-- A branch counts from its end. -/
theorem arrives_branch {offset : Byte} {flag : Flag} {wanted : Bool}
    (code : m.bus.Contains m.regs.pc [opcode, offset])
    (row : Opcode.decode opcode = some ⟨i, .relative, cycles⟩)
    (operation : i.operation = .branch flag wanted) :
    m.Arrives 1 (if m.regs.status.get flag = wanted then
      (m.jumpTo (m.regs.pc + 2 + Word.signExtend offset)).charge (cycles + 1)
      else (m.jumpTo (m.regs.pc + 2)).charge cycles) := by
  have operand : Mode.relative.resolve m.regs m.bus (rawBytes [offset]) =
      Operand.atAddress m.bus (m.regs.pc + 2 + Word.signExtend offset) 1 :=
    congrArg (fun byte => Operand.atAddress m.bus (m.regs.pc + 2 + Word.signExtend byte) 1)
      (Word.low_toUInt16 offset)
  let next := (m.jumpTo (m.regs.pc + 2)).charge cycles
  let target := m.regs.pc + 2 + Word.signExtend offset
  have arrives : m.Arrives 1
      (next.execute (.branch flag wanted) (Operand.atAddress m.bus target 1)).machine := by
    have arrives := arrives_of_contains code row rfl
    rw [operand, operation] at arrives
    exact arrives
  by_cases taken : m.regs.status.get flag = wanted
  · have run : next.execute (.branch flag wanted) (Operand.atAddress m.bus target 1) =
        .done ((next.jumpTo target).charge 1) () := if_pos taken
    have total : (next.jumpTo target).charge 1 = (m.jumpTo target).charge (cycles + 1) :=
      congrArg (Machine.mk _ · _ _) (add_cycles m.cycles cycles 1)
    rw [run, Outcome.done, total] at arrives
    rw [if_pos taken]
    exact arrives
  · have run : next.execute (.branch flag wanted) (Operand.atAddress m.bus target 1) =
        .done next () := if_neg taken
    rw [run] at arrives
    rw [if_neg taken]
    exact arrives

end Modes

/-- The second machine differs from the first one at most in the bytes from `low` to `high` after
an address, the accumulator, Y, the condition flags, the program counter and the counter. -/
structure Spares (m n : Machine Memory) (address : Word) (low high : Nat) : Prop where
  x : n.regs.x = m.regs.x
  sp : n.regs.sp = m.regs.sp
  unused : n.regs.status.unused = m.regs.status.unused
  brk : n.regs.status.brk = m.regs.status.brk
  decimal : n.regs.status.decimal = m.regs.status.decimal
  interruptDisable : n.regs.status.interruptDisable = m.regs.status.interruptDisable
  config : n.config = m.config
  memory : ∀ a, (∀ i, low ≤ i → i < high → a ≠ address + UInt16.ofNat i) →
    n.bus.read a = m.bus.read a

namespace Spares

variable {m k n : Machine Memory} {address : Word}

theorem refl (m : Machine Memory) (address : Word) (low high : Nat) :
    m.Spares m address low high :=
  ⟨rfl, rfl, rfl, rfl, rfl, rfl, rfl, fun _ _ => rfl⟩

theorem trans {a b c d low high : Nat} (first : m.Spares k address a b)
    (second : k.Spares n address c d) (ha : low ≤ a) (hb : b ≤ high) (hc : low ≤ c)
    (hd : d ≤ high) : m.Spares n address low high where
  x := second.x.trans first.x
  sp := second.sp.trans first.sp
  unused := second.unused.trans first.unused
  brk := second.brk.trans first.brk
  decimal := second.decimal.trans first.decimal
  interruptDisable := second.interruptDisable.trans first.interruptDisable
  config := second.config.trans first.config
  memory := by
    intro p outside
    rw [second.memory p fun i hi hi' => outside i (by omega) (by omega),
      first.memory p fun i hi hi' => outside i (by omega) (by omega)]

end Spares

end Machine

end Core6502
