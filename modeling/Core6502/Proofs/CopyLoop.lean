import Core6502.Proofs.StraightLine

/-!
# The copy loop

A loop that counts in Y and copies a byte in each turn copies a block of at most 256 bytes. Source
and destination may overlap as long as no byte is overwritten before it is read. What a turn does
is the same in every turn; only the branch at its end tells the last one, where Y has come to the
count. A count of zero is met after 256 turns, when Y wraps around.
-/

namespace Core6502

/-- Y starts at zero. A turn loads, stores, increments Y and compares it with the count, and the
branch goes back to the load. -/
def copyLoop (src dst : Word) (count : Byte) : List Byte :=
  [0xA0, 0x00] ++ (absolute 0xB9 src ++ (absolute 0x99 dst ++
    ([0xC8] ++ ([0xC0, count] ++ [0xD0, 0xF5]))))

def copyCount (count : Byte) : Nat :=
  if count = 0 then 256 else count.toNat

theorem copyCount_pos (count : Byte) : 0 < copyCount count := by
  by_cases zero : count = 0
  · rw [copyCount, if_pos zero]
    decide
  · rw [copyCount, if_neg zero]
    exact Nat.pos_of_ne_zero fun h => zero (UInt8.toNat_inj.mp h)

theorem copyCount_le (count : Byte) : copyCount count ≤ 256 := by
  have bound := count.toNat_lt
  rw [copyCount]
  split <;> omega

/-- A counter that started at zero meets the count only after the last turn. -/
theorem ofNat_eq_iff {count : Byte} {i : Nat} (pos : 0 < i) (le : i ≤ copyCount count) :
    UInt8.ofNat i = count ↔ i = copyCount count := by
  have bound := count.toNat_lt
  rw [← UInt8.toNat_inj, UInt8.toNat_ofNat', copyCount] at *
  by_cases zero : count = 0
  · rw [if_pos zero] at le ⊢
    rw [zero]
    change i % 256 = 0 ↔ i = 256
    omega
  · rw [if_neg zero] at le ⊢
    rw [Nat.mod_eq_of_lt (by omega)]

/-- The instructions of the loop one by one. -/
theorem Memory.Contains.listing {m : Memory} {place src dst : Word} {count : Byte}
    (code : m.Contains place (copyLoop src dst count)) :
    m.Contains place [0xA0, 0x00] ∧ m.Contains (place + 2) (absolute 0xB9 src) ∧
      m.Contains (place + 5) (absolute 0x99 dst) ∧ m.Contains (place + 8) [0xC8] ∧
      m.Contains (place + 9) [0xC0, count] ∧ m.Contains (place + 11) [0xD0, 0xF5] := by
  simp only [copyLoop, contains_append, Word.add_ofNat_add_ofNat] at code
  exact code

namespace Machine

def afterClearY (m : Machine Memory) : Machine Memory :=
  ((m.withRegs (m.regs.load .y 0)).jumpTo (m.regs.pc + 2)).charge 2

def afterCopy (m : Machine Memory) (src dst : Word) (count : Byte) : Machine Memory :=
  let value := m.bus.read (src + m.regs.y.toUInt16)
  let counted := { m.regs with a := value, y := m.regs.y + 1 }
  (((m.withRegs (counted.compare counted.y count)).jumpTo (m.regs.pc + 9)).charge 13).withBus
    (m.bus.write (dst + m.regs.y.toUInt16) value)

variable {m k : Machine Memory} {src dst place : Word} {count : Byte}

theorem advances_clearY (code : m.bus.Contains m.regs.pc [0xA0, 0x00]) :
    m.Advances 1 2 2 m.afterClearY := by
  have row : Opcode.decode 0xA0 = some ⟨.ldy, .immediate, 2⟩ := rfl
  exact ⟨arrives_immediate code row, rfl, rfl⟩

/-- The byte of a turn is not stored into the loop, so the rest of the turn is still there. -/
theorem advances_copy (code : m.bus.Contains place (copyLoop src dst count))
    (pc : m.regs.pc = place + 2)
    (outside : ∀ j, j < 13 → dst + m.regs.y.toUInt16 ≠ place + UInt16.ofNat j) :
    m.Advances 4 9 13 (m.afterCopy src dst count) := by
  let value := m.bus.read (src + m.regs.y.toUInt16)
  have kept : (m.bus.write (dst + m.regs.y.toUInt16) value).Contains place
      (copyLoop src dst count) :=
    code.congr fun j hj => m.bus.read_write_of_ne value (outside j hj)
  obtain ⟨_, load, store, _⟩ := code.listing
  obtain ⟨_, _, _, increment, compare, _⟩ := kept.listing
  have lda : Opcode.decode 0xB9 = some ⟨.lda, .absoluteY, 4⟩ := rfl
  have sta : Opcode.decode 0x99 = some ⟨.sta, .absoluteY, 5⟩ := rfl
  have iny : Opcode.decode 0xC8 = some ⟨.iny, .implied, 2⟩ := rfl
  have cpy : Opcode.decode 0xC0 = some ⟨.cpy, .immediate, 2⟩ := rfl
  let loading := (m.jumpTo (m.regs.pc + 3)).charge 4
  let loaded := loading.withRegs (loading.regs.load .a value)
  let stored := ((loaded.jumpTo (loaded.regs.pc + 3)).charge 5).withBus
    (m.bus.write (dst + m.regs.y.toUInt16) value)
  let counting := (stored.jumpTo (stored.regs.pc + 1)).charge 2
  let counted := counting.withRegs
    ((counting.regs.setFlag .carry counting.regs.status.carry).load .y (counting.regs.y + 1))
  let comparing := (counted.jumpTo (counted.regs.pc + 2)).charge 2
  let compared := comparing.withRegs (comparing.regs.compare comparing.regs.y count)
  have first : m.Arrives 1 loaded := by
    have arrives := arrives_absoluteY (pc ▸ load) lda
    exact arrives
  have second : loaded.Arrives 1 stored := by
    have there : loaded.regs.pc = place + 5 := by
      change m.regs.pc + 3 = place + 5
      grind
    have arrives := arrives_absoluteY (there ▸ store : loaded.bus.Contains loaded.regs.pc _) sta
    exact arrives
  have third : stored.Arrives 1 counted := by
    have there : stored.regs.pc = place + 8 := by
      change m.regs.pc + 3 + 3 = place + 8
      grind
    have arrives := arrives_of_contains
      (there ▸ increment : stored.bus.Contains stored.regs.pc _) iny rfl
    exact arrives
  have fourth : counted.Arrives 1 compared := by
    have there : counted.regs.pc = place + 9 := by
      change m.regs.pc + 3 + 3 + 1 = place + 9
      grind
    have arrives := arrives_immediate
      (there ▸ compare : counted.bus.Contains counted.regs.pc _) cpy
    exact arrives
  have same : compared = m.afterCopy src dst count := by
    have ahead : m.regs.pc + 3 + 3 + 1 + 2 = m.regs.pc + 9 := by grind
    have cycles : m.cycles + 4 + 5 + 2 + 2 = m.cycles + 13 := by grind
    calc compared = { m.afterCopy src dst count with
          regs := { (m.afterCopy src dst count).regs with pc := m.regs.pc + 3 + 3 + 1 + 2 }
          cycles := m.cycles + 4 + 5 + 2 + 2 } := rfl
      _ = m.afterCopy src dst count := by rw [ahead, cycles]; rfl
  exact ⟨same ▸ ((first.trans second).trans third).trans fourth, rfl, rfl⟩

/-- A loop lies at the program counter, no byte is stored into it, and none to where a later one is
loaded from. -/
structure CopyLayout (m : Machine Memory) (src dst : Word) (count : Byte) : Prop where
  code : m.bus.Contains m.regs.pc (copyLoop src dst count)
  outside : Apart dst (copyCount count) m.regs.pc 13
  unread : ∀ i, i < copyCount count → ∀ j, j < i →
    dst + UInt16.ofNat j ≠ src + UInt16.ofNat i

/-- After some steps the first `i` bytes are copied and Y counts them. -/
structure Copied (m : Machine Memory) (src dst : Word) (i steps bytes cycles : Nat)
    (k : Machine Memory) : Prop extends m.Advances steps bytes cycles k where
  y : k.regs.y = UInt8.ofNat i
  overflow : k.regs.status.overflow = m.regs.status.overflow
  spares : m.Spares k dst 0 i
  copied : ∀ j, j < i → k.bus.read (dst + UInt16.ofNat j) = m.bus.read (src + UInt16.ofNat j)

variable {i steps bytes cycles : Nat}

theorem CopyLayout.start (layout : m.CopyLayout src dst count) :
    m.Copied src dst 0 1 2 2 m.afterClearY where
  toAdvances := advances_clearY layout.code.listing.1
  y := rfl
  overflow := rfl
  spares := ⟨rfl, rfl, rfl, rfl, rfl, rfl, rfl, fun _ _ => rfl⟩
  copied := fun j hj => absurd hj j.not_lt_zero

/-- The loop is still there. -/
theorem Copied.code (h : m.Copied src dst i steps bytes cycles k)
    (layout : m.CopyLayout src dst count) (le : i ≤ copyCount count) :
    k.bus.Contains m.regs.pc (copyLoop src dst count) :=
  layout.code.congr fun j hj => h.spares.memory _ fun l _ hl =>
    (layout.outside l (by omega) j hj).symm

/-- A turn up to its branch copies the next byte. -/
theorem Copied.turn (h : m.Copied src dst i steps 2 cycles k)
    (layout : m.CopyLayout src dst count) (hi : i < copyCount count) :
    m.Copied src dst (i + 1) (steps + 4) 11 (cycles + 13) (k.afterCopy src dst count) := by
  have most := copyCount_le count
  have index : k.regs.y.toUInt16 = UInt16.ofNat i := by
    rw [h.y]
    exact UInt8.toUInt16_ofNat' (Nat.lt_of_lt_of_le hi most)
  let value := k.bus.read (src + UInt16.ofNat i)
  have bus : (k.afterCopy src dst count).bus = k.bus.write (dst + UInt16.ofNat i) value := by
    rw [afterCopy, index]
    rfl
  have unread : value = m.bus.read (src + UInt16.ofNat i) :=
    h.spares.memory _ fun j _ hj => (layout.unread i hi j hj).symm
  have spares : k.Spares (k.afterCopy src dst count) dst i (i + 1) := by
    refine ⟨rfl, rfl, rfl, rfl, rfl, rfl, rfl, fun p outside => ?_⟩
    rw [bus]
    exact k.bus.read_write_of_ne value (outside i (by omega) (by omega)).symm
  refine ⟨h.toAdvances.trans (advances_copy (h.code layout (by omega)) h.pc ?_), ?_, h.overflow,
    h.spares.trans spares (by omega) (by omega) (by omega) (by omega), ?_⟩
  · rw [index]
    exact layout.outside i hi
  · change k.regs.y + 1 = _
    rw [h.y, UInt8.ofNat_add]
    rfl
  · intro j hj
    rw [bus]
    by_cases last : j = i
    · rw [last, Memory.read_write_self, unread]
    · rw [k.bus.read_write_of_ne value (Word.add_ofNat_ne (by omega) (by omega) (Ne.symm last))]
      exact h.copied j (by omega)

/-- A step that only jumps. -/
theorem Copied.jump (h : m.Copied src dst i steps bytes cycles k) {target charged : Nat}
    (arrives : k.Arrives 1 ((k.jumpTo (m.regs.pc + UInt16.ofNat target)).charge charged)) :
    m.Copied src dst i (steps + 1) target (cycles + charged)
      ((k.jumpTo (m.regs.pc + UInt16.ofNat target)).charge charged) where
  arrives := h.arrives.trans arrives
  pc := rfl
  cycles := by
    change k.cycles + UInt64.ofNat charged = _
    rw [h.cycles]
    exact add_cycles _ _ _
  y := h.y
  overflow := h.overflow
  spares := ⟨h.spares.x, h.spares.sp, h.spares.unused, h.spares.brk, h.spares.decimal,
    h.spares.interruptDisable, h.spares.config, h.spares.memory⟩
  copied := h.copied

/-- The branch goes back to the load until Y meets the count. -/
theorem Copied.branch (h : m.Copied src dst i steps 11 cycles k)
    (layout : m.CopyLayout src dst count) (le : i ≤ copyCount count) :
    (k.regs.status.zero = false →
      ∃ n, m.Copied src dst i (steps + 1) 2 (cycles + 3) n) ∧
    (k.regs.status.zero = true →
      ∃ n, m.Copied src dst i (steps + 1) 13 (cycles + 2) n ∧
        n.regs.status = k.regs.status) := by
  have row : Opcode.decode 0xD0 = some ⟨.bne, .relative, 2⟩ := rfl
  obtain ⟨_, _, _, _, _, branch⟩ := (h.code layout le).listing
  have arrives := arrives_branch (h.pc ▸ branch) row rfl
  refine ⟨fun differs => ?_, fun meets => ?_⟩
  · have taken : k.regs.status.get .zero = false := differs
    have target : k.regs.pc + 2 + Word.signExtend 0xF5 = m.regs.pc + 2 := by
      have offset : Word.signExtend 0xF5 = -11 := by decide
      rw [h.pc, offset]
      grind
    rw [if_pos taken, target] at arrives
    exact ⟨_, h.jump arrives⟩
  · have passed : k.regs.status.get .zero ≠ false := by
      change k.regs.status.zero ≠ false
      rw [meets]
      decide
    have target : k.regs.pc + 2 = m.regs.pc + 13 := by
      rw [h.pc]
      grind
    rw [if_neg passed, target] at arrives
    exact ⟨_, h.jump arrives, rfl⟩

/-- A turn leaves zero set when Y has met the count. -/
theorem Copied.zero_eq
    (turned : m.Copied src dst (i + 1) steps bytes cycles (k.afterCopy src dst count))
    (hi : i < copyCount count) :
    (k.afterCopy src dst count).regs.status.zero = decide (i + 1 = copyCount count) := by
  have compared : (k.afterCopy src dst count).regs.status.zero =
      ((k.afterCopy src dst count).regs.y - count == 0) := rfl
  rw [compared, turned.y, Bool.eq_iff_iff, beq_iff_eq, decide_eq_true_iff,
    UInt8.sub_eq_iff_eq_add, UInt8.zero_add, ofNat_eq_iff (by omega) hi]

/-- Before each turn the bytes of the turns so far are copied. -/
theorem CopyLayout.copied (layout : m.CopyLayout src dst count) (hi : i < copyCount count) :
    ∃ k, m.Copied src dst i (1 + 5 * i) 2 (2 + 16 * i) k := by
  induction i with
  | zero => exact ⟨_, layout.start⟩
  | succ i ih =>
    obtain ⟨k, h⟩ := ih (by omega)
    have turned := h.turn layout (by omega)
    have differs : (k.afterCopy src dst count).regs.status.zero = false := by
      rw [turned.zero_eq (by omega), decide_eq_false (by omega)]
    exact (turned.branch layout (by omega)).1 differs

/-- The loop copies as many bytes as the count says, or 256 if it is zero, and leaves the rest of
the memory and the registers that it does not need as they were. The last comparison, of Y with
the count, leaves its flags. -/
theorem copy_loop_copies (layout : m.CopyLayout src dst count) :
    let n := copyCount count
    let finish := (m.run (1 + 5 * n)).machine
    (m.run (1 + 5 * n)).result = .ok (1 + 5 * n) ∧
    (∀ i, i < n → finish.bus.read (dst + UInt16.ofNat i) = m.bus.read (src + UInt16.ofNat i)) ∧
    m.Spares finish dst 0 n ∧
    finish.regs.y = count ∧ finish.regs.pc = m.regs.pc + 13 ∧
    finish.regs.status.zero = true ∧ finish.regs.status.carry = true ∧
    finish.regs.status.negative = false ∧
    finish.regs.status.overflow = m.regs.status.overflow ∧
    (m.cycles.toNat + (16 * n + 1) < 2 ^ 64 →
      finish.cycles.toNat = m.cycles.toNat + (16 * n + 1)) := by
  intro n finish
  have pos := copyCount_pos count
  obtain ⟨k, h⟩ := layout.copied (i := n - 1) (by omega)
  have last : n - 1 + 1 = n := by omega
  have turned := h.turn layout (by omega)
  have zero : (k.afterCopy src dst count).regs.status.zero = true := by
    rw [turned.zero_eq (by omega), decide_eq_true (by omega)]
  have met : k.regs.y + 1 = count :=
    turned.y.trans ((ofNat_eq_iff (by omega) (by omega)).mpr last)
  obtain ⟨e, done, status⟩ := (turned.branch layout (by omega)).2 zero
  have steps : 1 + 5 * (n - 1) + 4 + 1 = 1 + 5 * n := by omega
  have cycles : 2 + 16 * (n - 1) + 13 + 2 = 16 * n + 1 := by omega
  rw [last, steps, cycles] at done
  obtain ⟨result, machine⟩ := done.arrives.run
  change finish = e at machine
  rw [machine]
  refine ⟨result, done.copied, done.spares, ?_, done.pc, ?_, ?_, ?_, done.overflow, ?_⟩
  · rw [done.y, ofNat_eq_iff pos (Nat.le_refl n)]
  · rw [status, zero]
  · rw [status]
    change decide (count ≤ k.regs.y + 1) = true
    rw [met]
    exact decide_eq_true (UInt8.le_refl count)
  · rw [status]
    change Flag.negative.isSet (k.regs.y + 1 - count) = false
    rw [met, UInt8.sub_self]
    rfl
  · intro room
    rw [done.cycles, UInt64.toNat_add, UInt64.toNat_ofNat', Nat.mod_eq_of_lt (by omega),
      Nat.mod_eq_of_lt (by omega)]

/-- Copies three bytes over the end of memory, one place down. -/
def copying : Machine Memory :=
  powerOn (Bus.store (Bus.store Memory.zeroed 0x8000 (copyLoop 0xFFFF 0xFFFE 3))
    0xFFFF [0x11, 0x22, 0x33]) { initialPc := 0x8000 }

/-- The source overlaps the destination, and both wrap. -/
theorem copy_loop_copies_copying :
    copying.CopyLayout 0xFFFF 0xFFFE 3 ∧
    (copying.run 16).machine.bus.slice 0xFFFE 3 = [0x11, 0x22, 0x33] ∧
    (copying.run 16).machine.regs.pc = 0x800D ∧
    (copying.run 16).machine.cycles.toNat = 49 := by
  have layout : copying.CopyLayout 0xFFFF 0xFFFE 3 :=
    ⟨by decide +kernel, by decide +kernel, by decide +kernel⟩
  obtain ⟨_, bytes, _, _, pc, _, _, _, _, cycles⟩ := copy_loop_copies layout
  have source : copying.bus.slice 0xFFFF 3 = [0x11, 0x22, 0x33] := by decide +kernel
  exact ⟨layout, (Memory.slice_congr bytes).trans source, pc, cycles (by decide)⟩

end Machine

end Core6502
