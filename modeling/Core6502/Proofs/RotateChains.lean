import Core6502.Proofs.StraightLine

/-!
# Rotate chains

A number of many bytes is doubled by rotating its bytes left, from the least significant one up, and
halved by rotating them right, from the most significant one down: the carry takes the bit that
leaves one byte to the next. A shift in front of the chain clears the carry that goes in. The chain
to the right undoes the one to the left.
-/

namespace Core6502

inductive Turn
  | left
  | right
  deriving DecidableEq

namespace Turn

def transform : Turn → Transform
  | left => .rotateLeft
  | right => .rotateRight

def opcode : Turn → Bool → Byte
  | left, false => 0x2E
  | left, true => 0x0E
  | right, false => 0x6E
  | right, true => 0x4E

/-- The byte that is rotated after `i` others. -/
def index (count i : Nat) : Turn → Nat
  | left => i
  | right => count - 1 - i

/-- The lowest of the first `i` bytes that are rotated. -/
def low (count i : Nat) : Turn → Nat
  | left => 0
  | right => count - i

def line (turn : Turn) (shifts : Bool) (r : Word) (count i : Nat) : List Byte :=
  absolute (turn.opcode (shifts && i == 0)) (r + UInt16.ofNat (turn.index count i))

/-- A number and a carry go in, a number and a carry come out. -/
def Rotates (count : Nat) (carry : Bool) (before after : Nat) (carry' : Bool) : Turn → Prop
  | left => after + 256 ^ count * carry'.toNat = 2 * before + carry.toNat
  | right => 2 * after + carry'.toNat = before + 256 ^ count * carry.toNat

/-- The number with one more byte, at the end where the chain goes on. -/
def extend (count value : Nat) (byte : Byte) : Turn → Nat
  | left => value + 256 ^ count * byte.toNat
  | right => byte.toNat + 256 * value

/-- One byte is rotated as a number of one byte. -/
theorem rotates_byte (turn : Turn) (carry : Bool) (value : Byte) :
    turn.Rotates 1 carry value.toNat (turn.transform.apply carry value).1.toNat
      (turn.transform.apply carry value).2 := by
  have left : ∀ (c : Bool) (b : Byte), let new := Transform.rotateLeft.apply c b
      new.1.toNat + 256 ^ 1 * new.2.toNat = 2 * b.toNat + c.toNat := by
    decide +kernel
  have right : ∀ (c : Bool) (b : Byte), let new := Transform.rotateRight.apply c b
      2 * new.1.toNat + new.2.toNat = b.toNat + 256 ^ 1 * c.toNat := by
    decide +kernel
  cases turn with
  | left => exact left carry value
  | right => exact right carry value

/-- A chain goes on with the carry that came out. -/
theorem Rotates.extend {turn : Turn} {count before after : Nat} {carry between carry' : Bool}
    {old new : Byte} (first : turn.Rotates count carry before after between)
    (next : turn.Rotates 1 between old.toNat new.toNat carry') :
    turn.Rotates (count + 1) carry (turn.extend count before old) (turn.extend count after new)
      carry' := by
  cases turn with
  | left =>
    simp only [Rotates, Turn.extend, Nat.pow_succ] at *
    grind
  | right =>
    simp only [Rotates, Turn.extend, Nat.pow_succ] at *
    grind

/-- Rotating right takes the lowest bit out and puts the carry in at the top. -/
theorem Rotates.halves {count before after : Nat} {carry carry' : Bool}
    (h : Turn.right.Rotates count carry before after carry') (pos : 0 < count) :
    carry'.toNat = before % 2 ∧ after = before / 2 + carry.toNat * 2 ^ (8 * count - 1) := by
  have bit := carry'.toNat_le
  simp only [Rotates, pow_eq_two_mul pos] at h
  cases carry with
  | false =>
    simp only [Bool.toNat_false, Nat.mul_zero, Nat.zero_mul, Nat.add_zero] at h ⊢
    omega
  | true =>
    simp only [Bool.toNat_true, Nat.mul_one, Nat.one_mul] at h ⊢
    omega

/-- Rotating right what was rotated left, with the carry that came out, gives all bits back. -/
theorem Rotates.undo {count before after back : Nat} {carry between carry' : Bool}
    (first : Turn.left.Rotates count carry before after between)
    (second : Turn.right.Rotates count between after back carry') :
    back = before ∧ carry' = carry := by
  have bits : carry.toNat ≤ 1 ∧ carry'.toNat ≤ 1 := ⟨carry.toNat_le, carry'.toNat_le⟩
  have total : 2 * back + carry'.toNat = 2 * before + carry.toNat := second.trans first
  have inj : ∀ b c : Bool, b.toNat = c.toNat → b = c := by decide
  exact ⟨by omega, inj _ _ (by omega)⟩

end Turn

namespace Memory

theorem number_extend (m : Memory) (turn : Turn) (r : Word) {count i : Nat} (hi : i < count) :
    m.number (r + UInt16.ofNat (turn.low count (i + 1))) (i + 1) =
      turn.extend i (m.number (r + UInt16.ofNat (turn.low count i)) i)
        (m.read (r + UInt16.ofNat (turn.index count i))) := by
  cases turn with
  | left =>
    have base : r + UInt16.ofNat 0 = r := UInt16.add_zero r
    simp only [Turn.low, Turn.index, base]
    exact m.number_succ r i
  | right =>
    have above : r + UInt16.ofNat (count - i) = r + UInt16.ofNat (count - (i + 1)) + 1 := by
      have next : count - i = count - (i + 1) + 1 := by omega
      rw [next]
      exact (Word.add_ofNat_add_ofNat r _ 1).symm
    have same : count - 1 - i = count - (i + 1) := by omega
    simp only [Turn.low, Turn.index, above, same]
    exact m.number_succ' _ i

theorem number_write_extend (m : Memory) (turn : Turn) (r : Word) {count i : Nat} (hi : i < count)
    (small : count < 65536) (value : Byte) :
    (m.write (r + UInt16.ofNat (turn.index count i)) value).number
        (r + UInt16.ofNat (turn.low count (i + 1))) (i + 1) =
      turn.extend i (m.number (r + UInt16.ofNat (turn.low count i)) i) value := by
  rw [number_extend _ turn r hi, read_write_self]
  congr 1
  refine number_congr fun j hj => m.read_write_of_ne value ?_
  rw [Word.add_ofNat_add_ofNat]
  refine Word.add_ofNat_ne ?_ ?_ ?_ <;>
    cases turn <;> simp only [Turn.low, Turn.index] <;> omega

end Memory

/-- A shift is a rotation with the carry clear. -/
theorem rotateLeft_clear (carry : Bool) (value : Byte) :
    Transform.rotateLeft.apply false value = Transform.shiftLeft.apply carry value :=
  congrArg (·, value &&& 0x80 != 0) UInt8.or_zero

theorem rotateRight_clear (carry : Bool) (value : Byte) :
    Transform.rotateRight.apply false value = Transform.shiftRight.apply carry value :=
  congrArg (·, value &&& 0x01 != 0) UInt8.or_zero

namespace Machine

def afterTurn (m : Machine Memory) (turn : Turn) (carry : Bool) (address : Word) :
    Machine Memory :=
  let new := turn.transform.apply carry (m.bus.read address)
  (((m.withRegs ((m.regs.setFlag .carry new.2).withResult new.1)).jumpTo
    (m.regs.pc + 3)).charge 6).withBus (m.bus.write address new.1)

theorem advances_turn {m : Machine Memory} {turn : Turn} {shifts : Bool} {address : Word}
    (code : m.bus.Contains m.regs.pc (absolute (turn.opcode shifts) address)) :
    m.Advances 1 3 6 (m.afterTurn turn (m.regs.status.carry && !shifts) address) := by
  have rol : Opcode.decode 0x2E = some ⟨.rol, .absolute, 6⟩ := rfl
  have asl : Opcode.decode 0x0E = some ⟨.asl, .absolute, 6⟩ := rfl
  have ror : Opcode.decode 0x6E = some ⟨.ror, .absolute, 6⟩ := rfl
  have lsr : Opcode.decode 0x4E = some ⟨.lsr, .absolute, 6⟩ := rfl
  refine ⟨?_, rfl, rfl⟩
  cases shifts with
  | false =>
    rw [Bool.not_false, Bool.and_true]
    cases turn with
    | left => exact arrives_absolute code rol
    | right => exact arrives_absolute code ror
  | true =>
    rw [Bool.not_true, Bool.and_false, afterTurn]
    cases turn with
    | left =>
      rw [Turn.transform, rotateLeft_clear m.regs.status.carry]
      exact arrives_absolute code asl
    | right =>
      rw [Turn.transform, rotateRight_clear m.regs.status.carry]
      exact arrives_absolute code lsr

/-- A chain lies at the program counter, and the bytes that it rotates lie elsewhere. -/
structure TurnLayout (m : Machine Memory) (turn : Turn) (shifts : Bool) (r : Word)
    (count : Nat) : Prop where
  listed : ∀ i, i < count → m.bus.Contains (m.regs.pc + UInt16.ofNat (3 * i))
    (turn.line shifts r count i)
  outside : Apart r count m.regs.pc (3 * count)

def carryIn (m : Machine Memory) (shifts : Bool) (i : Nat) : Bool :=
  m.regs.status.carry && !(shifts && i == 0)

theorem carryIn_succ (m : Machine Memory) (shifts : Bool) (i : Nat) :
    m.carryIn shifts (i + 1) = m.regs.status.carry := by
  simp [carryIn]

/-- After `i` instructions of a chain the bytes so far are rotated as a whole. -/
structure Turned (m : Machine Memory) (turn : Turn) (shifts : Bool) (r : Word) (count i : Nat)
    (k : Machine Memory) : Prop extends m.Advances i (3 * i) (6 * i) k where
  a : k.regs.a = m.regs.a
  y : k.regs.y = m.regs.y
  overflow : k.regs.status.overflow = m.regs.status.overflow
  spares : m.Spares k r (turn.low count i) (turn.low count i + i)
  rotates : turn.Rotates i (m.carryIn shifts 0)
    (m.bus.number (r + UInt16.ofNat (turn.low count i)) i)
    (k.bus.number (r + UInt16.ofNat (turn.low count i)) i) (k.carryIn shifts i)

variable {m k : Machine Memory} {turn : Turn} {shifts : Bool} {r : Word} {count i : Nat}

/-- A chain and its bytes do not fit into memory unless there is room for both. -/
theorem TurnLayout.small (layout : m.TurnLayout turn shifts r count) : count < 65536 := by
  by_cases covers : (r - m.regs.pc).toNat < 3 * count
  · have meets := layout.outside 0 (by omega) _ covers
    refine absurd ?_ meets
    rw [UInt16.ofNat_toNat]
    grind
  · have bound := (r - m.regs.pc).toNat_lt
    omega

theorem Turned.start (m : Machine Memory) (turn : Turn) (shifts : Bool) (r : Word) (count : Nat) :
    m.Turned turn shifts r count 0 m where
  toAdvances := .refl m
  a := rfl
  y := rfl
  overflow := rfl
  spares := .refl m r _ _
  rotates := by cases turn <;> simp [Turn.Rotates, Memory.number, Memory.slice, littleEndian]

theorem Turned.next (layout : m.TurnLayout turn shifts r count)
    (h : m.Turned turn shifts r count i k) (hi : i < count) :
    m.Turned turn shifts r count (i + 1)
      (k.afterTurn turn (k.carryIn shifts i) (r + UInt16.ofNat (turn.index count i))) := by
  have small := layout.small
  let place := r + UInt16.ofNat (turn.index count i)
  let n := k.afterTurn turn (k.carryIn shifts i) place
  let new := turn.transform.apply (k.carryIn shifts i) (k.bus.read place)
  have code : k.bus.Contains k.regs.pc (turn.line shifts r count i) := by
    rw [h.pc]
    refine (layout.listed i hi).congr fun j hj => h.spares.memory _ fun l _ hl => ?_
    have length : j < 3 := hj
    have inside : l < count := by
      cases turn <;> simp only [Turn.low] at hl <;> omega
    rw [Word.add_ofNat_add_ofNat]
    exact (layout.outside l inside (3 * i + j) (by omega)).symm
  have unread : k.bus.read place = m.bus.read place := by
    refine h.spares.memory _ fun j hj hj' => Word.add_ofNat_ne ?_ ?_ ?_ <;>
      cases turn <;> simp only [Turn.low, Turn.index] at * <;> omega
  have spares : k.Spares n r (turn.index count i) (turn.index count i + 1) :=
    ⟨rfl, rfl, rfl, rfl, rfl, rfl, rfl, fun p outside =>
      k.bus.read_write_of_ne new.1 (outside _ (by omega) (by omega)).symm⟩
  refine ⟨h.toAdvances.trans (advances_turn code), h.a, h.y, h.overflow, ?_, ?_⟩
  · refine h.spares.trans spares ?_ ?_ ?_ ?_ <;>
      cases turn <;> simp only [Turn.low, Turn.index] <;> omega
  · have bytes : n.bus.number (r + UInt16.ofNat (turn.low count (i + 1))) (i + 1) =
        turn.extend i (k.bus.number (r + UInt16.ofNat (turn.low count i)) i) new.1 :=
      k.bus.number_write_extend turn r hi small new.1
    have rotated : turn.Rotates 1 (k.carryIn shifts i) (m.bus.read place).toNat new.1.toNat
        new.2 := by
      rw [← unread]
      exact turn.rotates_byte _ _
    rw [bytes, m.bus.number_extend turn r hi, carryIn_succ]
    exact h.rotates.extend rotated

theorem TurnLayout.turned (layout : m.TurnLayout turn shifts r count) (le : i ≤ count) :
    ∃ k, m.Turned turn shifts r count i k := by
  induction i with
  | zero => exact ⟨m, .start m turn shifts r count⟩
  | succ i ih =>
    obtain ⟨k, h⟩ := ih (by omega)
    exact ⟨_, h.next layout (by omega)⟩

/-- What a whole chain does with the number and the carry. -/
theorem Turned.whole (h : m.Turned turn shifts r count count k) (pos : 0 < count) :
    m.Spares k r 0 count ∧
      turn.Rotates count (m.carryIn shifts 0) (m.bus.number r count) (k.bus.number r count)
        k.regs.status.carry := by
  have low : turn.low count count = 0 := by
    cases turn with
    | left => rfl
    | right => exact Nat.sub_self count
  have base : r + UInt16.ofNat 0 = r := UInt16.add_zero r
  obtain ⟨i, rfl⟩ : ∃ i, count = i + 1 := ⟨count - 1, by omega⟩
  have spares := h.spares
  have rotates := h.rotates
  rw [low, Nat.zero_add] at spares
  rw [low, base, carryIn_succ] at rotates
  exact ⟨spares, rotates⟩

/-- A chain rotates a number of any size as a whole, with the carry as one more bit. Where the first
instruction is a shift, a clear carry goes in. The chain to the right undoes the one to the left,
wherever it lies. -/
theorem rotate_chain_exact (m : Machine Memory) (r : Word) {count : Nat} (pos : 0 < count) :
    (∀ turn shifts, m.TurnLayout turn shifts r count →
      let finish := (m.run count).machine
      let before := m.bus.number r count
      let after := finish.bus.number r count
      let carry := m.regs.status.carry && !shifts
      let carry' := finish.regs.status.carry
      (m.run count).result = .ok count ∧
      (match turn with
        | .left => after + 256 ^ count * carry'.toNat = 2 * before + carry.toNat
        | .right => carry'.toNat = before % 2 ∧
            after = before / 2 + carry.toNat * 2 ^ (8 * count - 1)) ∧
      m.Spares finish r 0 count ∧ finish.regs.a = m.regs.a ∧ finish.regs.y = m.regs.y ∧
      finish.regs.status.overflow = m.regs.status.overflow ∧
      finish.regs.pc = m.regs.pc + UInt16.ofNat (3 * count) ∧
      ∀ i, i ≤ count → (m.afterSteps i).cycles = m.cycles + UInt64.ofNat (6 * i)) ∧
    ∀ shifts, m.TurnLayout .left shifts r count →
      let turned := (m.run count).machine
      ∀ n : Machine Memory, n.TurnLayout .right false r count →
        n.bus.slice r count = turned.bus.slice r count →
        n.regs.status.carry = turned.regs.status.carry →
        (n.run count).machine.bus.slice r count = m.bus.slice r count ∧
        (n.run count).machine.regs.status.carry = (m.regs.status.carry && !shifts) := by
  refine ⟨?_, ?_⟩
  · intro turn shifts layout finish before after carry carry'
    obtain ⟨k, h⟩ := layout.turned (Nat.le_refl count)
    obtain ⟨result, machine⟩ := h.arrives.run
    obtain ⟨spares, rotates⟩ := h.whole pos
    have into : m.carryIn shifts 0 = carry := by simp [carryIn, carry]
    rw [← machine] at h spares rotates
    rw [into] at rotates
    refine ⟨result, ?_, spares, h.a, h.y, h.overflow, h.pc, ?_⟩
    · cases turn with
      | left => exact rotates
      | right => exact rotates.halves pos
    · intro i hi
      obtain ⟨n, along⟩ := layout.turned hi
      rw [along.arrives.machine]
      exact along.cycles
  · intro shifts layout turned n other bytes carry
    obtain ⟨k, h⟩ := layout.turned (Nat.le_refl count)
    obtain ⟨j, g⟩ := other.turned (Nat.le_refl count)
    have first := (h.whole pos).2
    have second := (g.whole pos).2
    have met : turned = k := h.arrives.run.2
    have number : n.bus.number r count = k.bus.number r count := by
      rw [Memory.number, bytes, met]
      rfl
    rw [number, carryIn, carry, met] at second
    simp only [Bool.false_and, Bool.not_false, Bool.and_true] at second
    obtain ⟨back, out⟩ := first.undo second
    rw [g.arrives.run.2]
    refine ⟨littleEndian_inj (by simp) back, ?_⟩
    rw [out]
    simp [carryIn]

/-- Rotates a number of two bytes across the end of memory to the left and to the right. -/
def turning : Machine Memory :=
  { powerOn (Bus.store (Bus.store Memory.zeroed 0x8000 [0x2E, 0xFF, 0xFF, 0x2E, 0x00, 0x00,
      0x6E, 0x00, 0x00, 0x6E, 0xFF, 0xFF]) 0xFFFF [0x01, 0x80]) { initialPc := 0x8000 } with
    regs := { sp := 0xFD, pc := 0x8000, status := { carry := true } } }

/-- 0x8001 and the carry make 0x0003 and the carry, and back again. -/
theorem rotate_chain_exact_turning :
    let turned := (turning.run 2).machine
    let back := (turned.run 2).machine
    turning.TurnLayout .left false 0xFFFF 2 ∧ turned.TurnLayout .right false 0xFFFF 2 ∧
    turned.bus.number 0xFFFF 2 = 0x0003 ∧ turned.regs.status.carry = true ∧
    back.bus.slice 0xFFFF 2 = [0x01, 0x80] ∧ back.regs.status.carry = true := by
  intro turned back
  have left : turning.TurnLayout .left false 0xFFFF 2 :=
    ⟨by decide +kernel, by decide +kernel⟩
  have right : turned.TurnLayout .right false 0xFFFF 2 :=
    ⟨by decide +kernel, by decide +kernel⟩
  obtain ⟨chains, undone⟩ := rotate_chain_exact turning 0xFFFF (show 0 < 2 by decide)
  obtain ⟨_, doubled, _⟩ := chains .left false left
  obtain ⟨bytes, carry⟩ := undone false left turned right rfl rfl
  have start : turning.bus.number 0xFFFF 2 = 0x8001 := by decide +kernel
  have bound := turned.bus.number_lt 0xFFFF 2
  simp only [start] at doubled
  have total : turned.bus.number 0xFFFF 2 + 65536 * turned.regs.status.carry.toNat = 0x10003 :=
    doubled
  have out : turned.regs.status.carry = true := by
    cases off : turned.regs.status.carry with
    | true => rfl
    | false =>
      rw [off, Bool.toNat_false] at total
      omega
  rw [out, Bool.toNat_true] at total
  refine ⟨left, right, by omega, out, bytes.trans (by decide +kernel), carry.trans rfl⟩

end Machine

end Core6502
