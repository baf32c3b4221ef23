import Mathlib.Logic.Function.Iterate
import Core6502.Proofs.ProgramCounter
import Core6502.Proofs.RegisterFrames
import Core6502.Proofs.StraightLine

/-!
# Repeated transforms

The same read-modify-write instruction again and again. Every copy finds the byte that the one
before it left, for neither the index nor the operand changes, so a byte and the carry go through
one transform as often as there are copies. Counted at once, shifts multiply or divide by a power
of two, increments are additions modulo 256, and rotations go around nine bits, the carry being
the top one.
-/

namespace Core6502

/-- A byte with the carry above it, as nine bits. -/
def nineBits (state : Byte × Bool) : BitVec 9 :=
  BitVec.ofNat 9 (256 * state.2.toNat + state.1.toNat)

theorem nineBits_inj {s t : Byte × Bool} (h : nineBits s = nineBits t) : s = t := by
  have bytes : s.1.toNat < 256 ∧ t.1.toNat < 256 := ⟨s.1.toNat_lt, t.1.toNat_lt⟩
  have carries : s.2.toNat ≤ 1 ∧ t.2.toNat ≤ 1 := ⟨s.2.toNat_le, t.2.toNat_le⟩
  have total := congrArg BitVec.toNat h
  simp only [nineBits, BitVec.toNat_ofNat] at total
  have inj : ∀ b c : Bool, b.toNat = c.toNat → b = c := by decide
  exact Prod.ext (UInt8.toNat_inj.mp (by omega)) (inj _ _ (by omega))

namespace Transform

def turn (transform : Transform) (state : Byte × Bool) : Byte × Bool :=
  transform.apply state.2 state.1

/-- What so many turns make of a byte and the carry. -/
def Repeated (count : Nat) (before after : Byte × Bool) : Transform → Prop
  | rotateLeft => nineBits after = (nineBits before).rotateLeft (count % 9)
  | rotateRight => nineBits after = (nineBits before).rotateRight (count % 9)
  | shiftLeft => after.1.toNat = before.1.toNat * 2 ^ count % 256 ∧
      (0 < count → after.2 = (before.1.toNat * 2 ^ count).testBit 8)
  | shiftRight => after.1.toNat = before.1.toNat / 2 ^ count ∧
      (0 < count → after.2 = (before.1.toNat / 2 ^ (count - 1)).testBit 0)
  | increment => after.1.toNat = (before.1.toNat + count) % 256 ∧ after.2 = before.2
  | decrement => (after.1.toNat : Int) = (before.1.toNat - count) % 256 ∧ after.2 = before.2

instance (transform : Transform) (count : Nat) (before after : Byte × Bool) :
    Decidable (transform.Repeated count before after) :=
  match transform with
  | rotateLeft | rotateRight => inferInstanceAs (Decidable (_ = _))
  | shiftLeft | shiftRight | increment | decrement => inferInstanceAs (Decidable (_ ∧ _))

namespace Repeated

theorem zero (transform : Transform) (state : Byte × Bool) :
    transform.Repeated 0 state state := by
  have bound := state.1.toNat_lt
  cases transform with
  | rotateLeft | rotateRight =>
    apply BitVec.eq_of_getLsbD_eq
    intro i hi
    simp only [BitVec.getLsbD_rotateLeft, BitVec.getLsbD_rotateRight]
    grind
  | shiftLeft | shiftRight => exact ⟨by omega, fun pos => absurd pos (Nat.lt_irrefl 0)⟩
  | increment | decrement => exact ⟨by omega, rfl⟩

theorem turn (transform : Transform) (state : Byte × Bool) :
    transform.Repeated 1 state (transform.turn state) := by
  have all : ∀ (b : Byte) (c : Bool), transform.Repeated 1 (b, c) (transform.turn (b, c)) := by
    cases transform <;> decide +kernel
  exact all state.1 state.2

/-- One more turn. -/
theorem next {transform : Transform} {count : Nat} {before between after : Byte × Bool}
    (h : transform.Repeated count before between) (one : transform.Repeated 1 between after) :
    transform.Repeated (count + 1) before after := by
  cases transform with
  | rotateLeft | rotateRight =>
    simp only [Repeated] at *
    rw [one, h]
    apply BitVec.eq_of_getLsbD_eq
    intro i hi
    simp only [BitVec.getLsbD_rotateLeft, BitVec.getLsbD_rotateRight]
    grind
  | shiftLeft =>
    obtain ⟨value, _⟩ := h
    obtain ⟨twice, carry⟩ := one
    have double : before.1.toNat * 2 ^ (count + 1) = before.1.toNat * 2 ^ count * 2 := by
      rw [Nat.pow_succ, Nat.mul_assoc]
    rw [Nat.pow_one] at twice carry
    refine ⟨by omega, fun _ => (carry Nat.one_pos).trans ?_⟩
    rw [Nat.testBit_eq_decide_div_mod_eq, Nat.testBit_eq_decide_div_mod_eq, decide_eq_decide]
    omega
  | shiftRight =>
    obtain ⟨value, _⟩ := h
    obtain ⟨half, carry⟩ := one
    refine ⟨?_, fun _ => (carry Nat.one_pos).trans ?_⟩
    · rw [half, value, Nat.div_div_eq_div_mul, ← Nat.pow_add]
    · rw [value, Nat.add_sub_cancel, Nat.sub_self, Nat.pow_zero, Nat.div_one]
  | increment =>
    obtain ⟨value, carry⟩ := h
    obtain ⟨more, same⟩ := one
    exact ⟨by omega, same.trans carry⟩
  | decrement =>
    obtain ⟨value, carry⟩ := h
    obtain ⟨less, same⟩ := one
    exact ⟨by omega, same.trans carry⟩

theorem iterate (transform : Transform) (count : Nat) (state : Byte × Bool) :
    transform.Repeated count state (transform.turn^[count] state) := by
  induction count with
  | zero => exact zero transform state
  | succ count ih =>
    rw [Function.iterate_succ_apply']
    exact ih.next (turn transform _)

end Repeated

/-- Nine rotations are a full turn. -/
theorem rotate_cycle {transform : Transform}
    (rotates : transform = rotateLeft ∨ transform = rotateRight) {count : Nat} (full : 9 ∣ count)
    (state : Byte × Bool) : transform.turn^[count] state = state := by
  have around := Repeated.iterate transform count state
  have still := Repeated.zero transform state
  apply nineBits_inj
  rcases rotates with rfl | rfl <;>
    simp only [Repeated, Nat.mod_eq_zero_of_dvd full] at around still <;>
    exact around.trans still.symm

theorem rotateRight_rotateLeft :
    Function.LeftInverse rotateRight.turn rotateLeft.turn := by
  have all : ∀ (b : Byte) (c : Bool), rotateRight.turn (rotateLeft.turn (b, c)) = (b, c) := by
    decide +kernel
  intro state
  exact all state.1 state.2

def modes : Transform → List Mode
  | shiftLeft | shiftRight | rotateLeft | rotateRight =>
    [.accumulator, .zeroPage, .zeroPageX, .absolute, .absoluteX]
  | increment | decrement => [.zeroPage, .zeroPageX, .absolute, .absoluteX]

/-- There is an opcode for each of these modes, and for no other. -/
theorem mem_modes_iff (transform : Transform) (mode : Mode) :
    mode ∈ transform.modes ↔ ∃ opcode e, Opcode.decode opcode = some e ∧
      e.instruction.operation = .modify transform ∧ e.mode = mode := by
  constructor
  · have all : ∀ mode ∈ transform.modes, ∃ opcode, ∃ e ∈ Opcode.decode opcode,
        e.instruction.operation = .modify transform ∧ e.mode = mode := by
      cases transform <;> decide +kernel
    exact all mode
  · rintro ⟨opcode, e, row, operation, rfl⟩
    have listed := Opcode.of_rows (p := fun e => decide (e.instruction.operation =
      .modify transform → e.mode ∈ transform.modes)) (by cases transform <;> decide +kernel) row
    exact of_decide_eq_true listed operation

end Transform

namespace Machine

def target? (m : Machine Memory) (mode : Mode) (rest : List Byte) : Option Word :=
  (mode.resolve m.regs m.bus (rawBytes rest)).address?

/-- The byte at an address, or in the accumulator if there is none, and the carry. -/
def cell (m : Machine Memory) (place : Option Word) : Byte × Bool :=
  (place.elim m.regs.a m.bus.read, m.regs.status.carry)

section Modify

variable {m n : Machine Memory} {transform : Transform} {mode : Mode}

/-- Only the index matters for the place. -/
theorem target?_congr (listed : mode ∈ transform.modes) (x : n.regs.x = m.regs.x)
    (rest : List Byte) : n.target? mode rest = m.target? mode rest := by
  cases mode with
  | accumulator | zeroPage | absolute => rfl
  | zeroPageX => exact congrArg (fun x => some (Word.low (rawBytes rest) + x).toUInt16) x
  | absoluteX => exact congrArg (fun x : Byte => some (rawBytes rest + x.toUInt16)) x
  | _ => exact absurd listed (by cases transform <;> decide)

/-- The operand is what its place holds, and there is a place to put a result. -/
theorem operand_of_mem_modes (listed : mode ∈ transform.modes) :
    (m.operand mode).target ≠ .nowhere ∧
      (m.operand mode).value = (m.cell (m.operand mode).address?).1 := by
  cases mode with
  | accumulator | zeroPage | zeroPageX | absolute | absoluteX => exact ⟨Target.noConfusion, rfl⟩
  | _ => exact absurd listed (by cases transform <;> decide)

theorem execute_modify_cell {operand : Operand} (placed : operand.target ≠ .nowhere)
    (held : operand.value = (m.cell operand.address?).1) :
    (m.execute (.modify transform) operand).machine.cell operand.address? =
        transform.turn (m.cell operand.address?) ∧
      ∀ a, operand.address? ≠ some a →
        (m.execute (.modify transform) operand).machine.bus.read a = m.bus.read a := by
  obtain ⟨value, target, length⟩ := operand
  cases target with
  | accumulator =>
    obtain rfl : value = m.regs.a := held
    exact ⟨rfl, fun _ _ => rfl⟩
  | nowhere => exact absurd rfl placed
  | memory address =>
    obtain rfl : value = m.bus.read address := held
    constructor
    · exact Prod.ext (m.bus.read_write_self address _) rfl
    · intro a other
      exact m.bus.read_write_of_ne _ fun same => other (congrArg some same)

variable {e : Encoding} {opcode : Byte} {rest : List Byte} {count i : Nat}

/-- Copies of one instruction lie at the program counter, and the byte that they read and write
back, if it is in memory, is not one of theirs. -/
structure RepeatLayout (m : Machine Memory) (transform : Transform) (e : Encoding) (opcode : Byte)
    (rest : List Byte) (count : Nat) : Prop where
  row : Opcode.decode opcode = some e
  operation : e.instruction.operation = .modify transform
  size : rest.length = e.mode.operandLength
  code : m.bus.Contains m.regs.pc (List.replicate count (opcode :: rest)).flatten
  outside : ∀ i, i < e.size * count →
    m.target? e.mode rest ≠ some (m.regs.pc + UInt16.ofNat i)

theorem step_of_modify (row : Opcode.decode opcode = some e)
    (operation : e.instruction.operation = .modify transform)
    (size : rest.length = e.mode.operandLength)
    (code : m.bus.Contains m.regs.pc (opcode :: rest)) :
    m.Advances 1 e.size e.cycles m.step.machine ∧
      m.regs.Within m.step.machine.regs ((Operation.modify transform).scope e.mode) ∧
      m.step.machine.cell (m.target? e.mode rest) =
        transform.turn (m.cell (m.target? e.mode rest)) ∧
      ∀ a, m.target? e.mode rest ≠ some a → m.step.machine.bus.read a = m.bus.read a := by
  have h := encoding?_of_contains code row
  have listed := (transform.mem_modes_iff e.mode).mpr ⟨opcode, e, row, operation, rfl⟩
  have target : m.target? e.mode rest = (m.operand e.mode).address? := by
    rw [target?, operand, rawOperand_of_contains code size]
  obtain ⟨placed, held⟩ := m.operand_of_mem_modes listed
  have straight : e.instruction.isControlFlow = false := by
    rw [Instruction.isControlFlow, operation]
    rfl
  have data : e.instruction.operation.usesData = true := by
    rw [operation]
    rfl
  have within := step_within h
  rw [← Instruction.scope_eq (accepts_of_encoding h), operation] at within
  refine ⟨⟨.of_encoding h, step_pc_of_straight h straight, step_cycles_of_encoding h data⟩,
    within, ?_⟩
  rw [target, step_of_encoding h, operation]
  exact (m.advance (m.operand e.mode) e).execute_modify_cell placed held

/-- After `i` copies the byte and the carry have made `i` turns. -/
structure Turning (m : Machine Memory) (transform : Transform) (e : Encoding) (rest : List Byte)
    (i : Nat) (k : Machine Memory) : Prop extends m.Advances i (e.size * i) (e.cycles * i) k where
  within : m.regs.Within k.regs ((Operation.modify transform).scope e.mode)
  cell : k.cell (m.target? e.mode rest) = transform.turn^[i] (m.cell (m.target? e.mode rest))
  memory : ∀ a, m.target? e.mode rest ≠ some a → k.bus.read a = m.bus.read a

variable {k : Machine Memory}

theorem Turning.start (m : Machine Memory) (transform : Transform) (e : Encoding)
    (rest : List Byte) : m.Turning transform e rest 0 m where
  toAdvances := .refl m
  within := ⟨fun _ _ => rfl, fun _ _ => rfl⟩
  cell := rfl
  memory _ _ := rfl

theorem Turning.next (layout : m.RepeatLayout transform e opcode rest count)
    (h : m.Turning transform e rest i k) (hi : i < count) :
    m.Turning transform e rest (i + 1) k.step.machine := by
  have length : (opcode :: rest).length = e.size := congrArg (· + 1) layout.size
  have code : k.bus.Contains k.regs.pc (opcode :: rest) := by
    rw [h.pc, ← length]
    refine (layout.code.copy hi).congr fun j hj => h.memory _ ?_
    rw [length] at hj
    rw [Word.add_ofNat_add_ofNat, length]
    refine layout.outside _ ?_
    calc e.size * i + j < e.size * i + e.size := Nat.add_lt_add_left hj _
      _ = e.size * (i + 1) := (Nat.mul_succ e.size i).symm
      _ ≤ e.size * count := Nat.mul_le_mul_left _ hi
  have x : k.regs.x = m.regs.x := by
    refine h.within.register .x ?_
    rw [Operation.scope]
    split <;> simp
  have listed := (transform.mem_modes_iff e.mode).mpr
    ⟨opcode, e, layout.row, layout.operation, rfl⟩
  have target : k.target? e.mode rest = m.target? e.mode rest := target?_congr listed x rest
  obtain ⟨advances, within, cell, memory⟩ :=
    step_of_modify layout.row layout.operation layout.size code
  rw [target] at cell memory
  refine ⟨h.toAdvances.trans advances, (h.within.andThen within).mono (by simp) (by simp), ?_, ?_⟩
  · rw [cell, h.cell, Function.iterate_succ_apply']
  · intro a other
    exact (memory a other).trans (h.memory a other)

theorem RepeatLayout.turning (layout : m.RepeatLayout transform e opcode rest count)
    (le : i ≤ count) : ∃ k, m.Turning transform e rest i k := by
  induction i with
  | zero => exact ⟨m, .start m transform e rest⟩
  | succ i ih =>
    obtain ⟨k, h⟩ := ih (by omega)
    exact ⟨_, h.next layout (by omega)⟩

/-- Every transform of a byte has its modes, and in each of them copies of the instruction, however
many, run to the end. The byte and the carry are then what so many turns make of them at once. Nine
rotations give them back, and as many rotations to the right undo those to the left, in whatever
mode and place. Nothing else changes, in memory or in the registers, but the flags that describe
the last result. -/
theorem repeated_transforms_exact (layout : m.RepeatLayout transform e opcode rest count) :
    let place := m.target? e.mode rest
    let before := m.cell place
    let finish := (m.run count).machine
    let after := finish.cell place
    (∀ mode, mode ∈ transform.modes ↔ ∃ opcode e, Opcode.decode opcode = some e ∧
      e.instruction.operation = .modify transform ∧ e.mode = mode) ∧
    (m.run count).result = .ok count ∧
    transform.Repeated count before after ∧
    (9 ∣ count → transform = .rotateLeft ∨ transform = .rotateRight → after = before) ∧
    (transform = .rotateLeft → ∀ (n : Machine Memory) {e' opcode' rest'},
      n.RepeatLayout .rotateRight e' opcode' rest' count →
      n.cell (n.target? e'.mode rest') = after →
      (n.run count).machine.cell (n.target? e'.mode rest') = before) ∧
    m.regs.Within finish.regs ((Operation.modify transform).scope e.mode) ∧
    (∀ a, place ≠ some a → finish.bus.read a = m.bus.read a) ∧
    finish.regs.pc = m.regs.pc + UInt16.ofNat (e.size * count) ∧
    finish.cycles = m.cycles + UInt64.ofNat (e.cycles * count) ∧ finish.config = m.config := by
  intro place before finish after
  obtain ⟨k, h⟩ := layout.turning (Nat.le_refl count)
  obtain ⟨ok, machine⟩ := h.arrives.run
  have config : k.config = m.config := by
    rw [← h.arrives.machine]
    exact m.afterSteps_config count
  rw [← machine] at h config
  have turned : after = transform.turn^[count] before := h.cell
  refine ⟨transform.mem_modes_iff, ok, ?_, ?_, ?_, h.within, h.memory, h.pc, h.cycles, config⟩
  · rw [turned]
    exact .iterate transform count before
  · intro full rotates
    rw [turned]
    exact Transform.rotate_cycle rotates full before
  · rintro rfl n e' opcode' rest' other same
    obtain ⟨j, g⟩ := other.turning (Nat.le_refl count)
    rw [g.arrives.run.2, g.cell, same, turned]
    exact (Transform.rotateRight_rotateLeft.iterate count) before

end Modify

/-- Rotates a byte to the left three times. Its address wraps around the end of memory. -/
def rotating : Machine Memory :=
  let code : List Byte := [0x3E, 0xF8, 0xFF, 0x3E, 0xF8, 0xFF, 0x3E, 0xF8, 0xFF]
  { powerOn (Bus.store (Bus.store Memory.zeroed 0x8000 code) 0x0008 [0x81]) with
    regs := { x := 0x10, sp := 0xFD, pc := 0x8000, status := { carry := true } } }

def rotatingBack : Machine Memory :=
  { powerOn (Bus.store Memory.zeroed 0x9000 [0x6A, 0x6A, 0x6A]) with
    regs := { a := 0x0E, sp := 0xFD, pc := 0x9000 } }

/-- 0x81 under a set carry makes 0x0E under a clear one, and back again elsewhere. -/
theorem repeated_transforms_exact_rotating :
    let turned := (rotating.run 3).machine
    let back := (rotatingBack.run 3).machine
    rotating.RepeatLayout .rotateLeft ⟨.rol, .absoluteX, 7⟩ 0x3E [0xF8, 0xFF] 3 ∧
    rotatingBack.RepeatLayout .rotateRight ⟨.ror, .accumulator, 2⟩ 0x6A [] 3 ∧
    turned.bus.read 0x0008 = 0x0E ∧ turned.regs.status.carry = false ∧ turned.regs.x = 0x10 ∧
    back.regs.a = 0x81 ∧ back.regs.status.carry = true := by
  intro turned back
  have left : rotating.RepeatLayout .rotateLeft ⟨.rol, .absoluteX, 7⟩ 0x3E [0xF8, 0xFF] 3 :=
    ⟨rfl, rfl, rfl, by decide +kernel, by decide +kernel⟩
  have right : rotatingBack.RepeatLayout .rotateRight ⟨.ror, .accumulator, 2⟩ 0x6A [] 3 :=
    ⟨rfl, rfl, rfl, by decide +kernel, by decide +kernel⟩
  have place : rotating.target? .absoluteX [0xF8, 0xFF] = some 0x0008 := by decide +kernel
  have before : rotating.cell (some 0x0008) = (0x81, true) := by decide +kernel
  obtain ⟨_, _, rotates, _, undone, within, _⟩ := repeated_transforms_exact left
  simp only [place, before] at rotates undone
  have after : turned.cell (some 0x0008) = (0x0E, false) :=
    nineBits_inj (rotates.trans (by decide))
  have again : back.cell none = (0x81, true) := undone trivial rotatingBack right after.symm
  exact ⟨left, right, congrArg Prod.fst after, congrArg Prod.snd after,
    within.register .x (by decide), congrArg Prod.fst again, congrArg Prod.snd again⟩

end Machine

end Core6502
