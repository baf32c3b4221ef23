import Core6502.Execution

/-!
# Stack accesses

Pushes are writes to descending slots of page one, pops are reads of ascending
ones, and the stack pointer wraps among the 256 slots. This holds on every bus.
What comes back is another matter, as a bus may ignore a write.
-/

namespace Core6502

universe u

section Bus

variable {M : Type u} [Bus M]

def Bus.writeAll (bus : M) (writes : List (Word × Byte)) : M :=
  writes.foldl (fun bus w => Bus.write bus w.1 w.2) bus

@[simp]
theorem Bus.writeAll_nil (bus : M) : Bus.writeAll bus [] = bus :=
  rfl

@[simp]
theorem Bus.writeAll_cons (bus : M) (w : Word × Byte) (rest : List (Word × Byte)) :
    Bus.writeAll bus (w :: rest) = Bus.writeAll (Bus.write bus w.1 w.2) rest :=
  rfl

end Bus

namespace Memory

theorem read_writeAll_of_notMem (m : Memory) {writes : List (Word × Byte)} {a : Word}
    (h : a ∉ writes.map Prod.fst) : (Bus.writeAll m writes).read a = m.read a := by
  induction writes generalizing m with
  | nil => rfl
  | cons w rest ih =>
    rw [List.map_cons, List.mem_cons, not_or] at h
    rw [Bus.writeAll_cons, ih _ h.2]
    exact m.read_write_of_ne w.2 (Ne.symm h.1)

/-- Where there are writes, the last one decides, whatever was there before. -/
theorem read_writeAll_of_mem {writes : List (Word × Byte)} {a : Word}
    (h : a ∈ writes.map Prod.fst) :
    ∃ value, (a, value) ∈ writes ∧ ∀ m : Memory, (Bus.writeAll m writes).read a = value := by
  induction writes with
  | nil => cases h
  | cons w rest ih =>
    by_cases later : a ∈ rest.map Prod.fst
    · obtain ⟨value, hw, last⟩ := ih later
      exact ⟨value, List.mem_cons_of_mem _ hw, fun m => last _⟩
    · have first : a = w.1 := by
        rw [List.map_cons, List.mem_cons] at h
        exact h.resolve_right later
      refine ⟨w.2, by rw [first]; exact List.mem_cons_self, fun m => ?_⟩
      rw [Bus.writeAll_cons, read_writeAll_of_notMem _ later, first]
      exact m.read_write_self _ _

theorem read_writeAll_congr {m n : Memory} {a : Word} (writes : List (Word × Byte))
    (h : n.read a = m.read a) :
    (Bus.writeAll n writes).read a = (Bus.writeAll m writes).read a := by
  by_cases written : a ∈ writes.map Prod.fst
  · obtain ⟨value, _, last⟩ := read_writeAll_of_mem written
    rw [last, last]
  · rw [read_writeAll_of_notMem _ written, read_writeAll_of_notMem _ written, h]

end Memory

theorem sub_one_sub_ofNat (b : Byte) (n : Nat) :
    b - 1 - UInt8.ofNat n = b - UInt8.ofNat (n + 1) := by
  rw [UInt8.ofNat_add]
  grind

theorem add_one_add_ofNat (b : Byte) (n : Nat) :
    b + 1 + UInt8.ofNat n = b + UInt8.ofNat (n + 1) := by
  rw [UInt8.ofNat_add]
  grind

/-- The slot of page one that a stack pointer is the offset of. -/
def stackSlot (sp : Byte) : Word :=
  0x0100 ||| sp.toUInt16

theorem Registers.stackAddress_eq (r : Registers) : r.stackAddress = stackSlot r.sp := by
  have all : ∀ sp : Byte, Word.ofBytes 0x01 sp = stackSlot sp := by decide +kernel
  exact all r.sp

theorem stackSlot_inj {s t : Byte} (h : stackSlot s = stackSlot t) : s = t := by
  have low : ∀ sp, Word.low (stackSlot sp) = sp := by decide +kernel
  rw [← low s, h, low t]

theorem high_stackSlot (sp : Byte) : Word.high (stackSlot sp) = 0x01 := by
  revert sp
  decide +kernel

/-- The slots above a stack pointer, lowest first. -/
def stackSlots : Byte → Nat → List Word
  | _, 0 => []
  | sp, n + 1 => stackSlot (sp + 1) :: stackSlots (sp + 1) n

@[simp]
theorem length_stackSlots (sp : Byte) (n : Nat) : (stackSlots sp n).length = n := by
  induction n generalizing sp with
  | zero => rfl
  | succ n ih => simp [stackSlots, ih]

theorem mem_stackSlots_iff {sp : Byte} {n : Nat} {a : Word} :
    a ∈ stackSlots sp n ↔ ∃ i, i < n ∧ a = stackSlot (sp + 1 + UInt8.ofNat i) := by
  induction n generalizing sp with
  | zero => simp [stackSlots]
  | succ n ih =>
    rw [stackSlots, List.mem_cons, ih]
    constructor
    · rintro (rfl | ⟨i, hi, rfl⟩)
      · exact ⟨0, by omega, by simp⟩
      · exact ⟨i + 1, by omega, by rw [add_one_add_ofNat (sp + 1)]⟩
    · rintro ⟨i, hi, rfl⟩
      cases i with
      | zero => exact Or.inl (by simp)
      | succ i => exact Or.inr ⟨i, by omega, by rw [add_one_add_ofNat (sp + 1)]⟩

theorem stackSlot_mem {sp : Byte} {i n : Nat} (h : i < n) :
    stackSlot (sp + UInt8.ofNat (i + 1)) ∈ stackSlots sp n :=
  mem_stackSlots_iff.mpr ⟨i, h, by rw [add_one_add_ofNat]⟩

/-- The next free slot holds nothing as long as there is room. -/
theorem stackSlot_notMem {sp : Byte} {n : Nat} (room : n < 256) :
    stackSlot sp ∉ stackSlots sp n := by
  intro h
  obtain ⟨i, hi, same⟩ := mem_stackSlots_iff.mp h
  have wrapped := congrArg UInt8.toNat (stackSlot_inj same)
  have := sp.toNat_lt
  simp only [UInt8.toNat_add, UInt8.toNat_one, UInt8.toNat_ofNat'] at wrapped
  omega

def pushWrites : Byte → List Byte → List (Word × Byte)
  | _, [] => []
  | sp, byte :: rest => (stackSlot sp, byte) :: pushWrites (sp - 1) rest

theorem length_pushWrites (sp : Byte) (bytes : List Byte) :
    (pushWrites sp bytes).length = bytes.length := by
  induction bytes generalizing sp with
  | nil => rfl
  | cons byte rest ih => simp [pushWrites, ih]

theorem high_of_mem_pushWrites {bytes : List Byte} {sp : Byte} {a : Word}
    (h : a ∈ (pushWrites sp bytes).map Prod.fst) : Word.high a = 0x01 := by
  induction bytes generalizing sp with
  | nil => cases h
  | cons byte rest ih =>
    rw [pushWrites, List.map_cons, List.mem_cons] at h
    rcases h with rfl | later
    · exact high_stackSlot sp
    · exact ih later

/-- What is in use after pushes is what they filled and what was in use before. -/
theorem mem_stackSlots_of_pushed {bytes : List Byte} {sp : Byte} {n : Nat} {a : Word}
    (h : a ∈ stackSlots (sp - UInt8.ofNat bytes.length) (bytes.length + n)) :
    a ∈ (pushWrites sp bytes).map Prod.fst ∨ a ∈ stackSlots sp n := by
  induction bytes generalizing sp n with
  | nil =>
    right
    simpa using h
  | cons byte rest ih =>
    have count : rest.length + 1 + n = rest.length + (n + 1) := by omega
    have back : sp - 1 + 1 = sp := UInt8.sub_add_cancel sp 1
    rw [List.length_cons, ← sub_one_sub_ofNat, count] at h
    rw [pushWrites, List.map_cons, List.mem_cons]
    rcases ih h with filled | used
    · exact Or.inl (Or.inr filled)
    · rw [stackSlots, back, List.mem_cons] at used
      rcases used with slot | used
      · exact Or.inl (Or.inl slot)
      · exact Or.inr used

def interruptFrame (pc : Word) (status : Status) : List Byte :=
  [Word.high pc, Word.low pc, status.toByte]

namespace Machine

variable {M : Type u} [Bus M]

def pushAll (m : Machine M) : List Byte → Machine M
  | [] => m
  | byte :: rest => (m.push byte).pushAll rest

theorem pushAll_eq (m : Machine M) (bytes : List Byte) :
    m.pushAll bytes =
      { m with
        regs := { m.regs with sp := m.regs.sp - UInt8.ofNat bytes.length }
        bus := Bus.writeAll m.bus (pushWrites m.regs.sp bytes) } := by
  induction bytes generalizing m with
  | nil => simp [pushAll, pushWrites]
  | cons byte rest ih =>
    simp only [pushAll, ih, push, pushWrites, Bus.writeAll_cons, List.length_cons,
      sub_one_sub_ofNat, Registers.stackAddress_eq]

theorem pop_eq (m : Machine M) :
    m.pop = (Bus.read m.bus (stackSlot (m.regs.sp + 1)),
      m.withRegs { m.regs with sp := m.regs.sp + 1 }) := by
  simp only [pop, withRegs, Registers.stackAddress_eq]

theorem popWord_eq (m : Machine M) :
    m.popWord =
      (Word.ofBytes (Bus.read m.bus (stackSlot (m.regs.sp + 2)))
          (Bus.read m.bus (stackSlot (m.regs.sp + 1))),
        m.withRegs { m.regs with sp := m.regs.sp + 2 }) := by
  have second : m.regs.sp + 1 + 1 = m.regs.sp + 2 := UInt8.add_assoc m.regs.sp 1 1
  simp only [popWord, pop_eq, withRegs, second]

theorem enterInterrupt_machine (m : Machine M) (vector : Word) :
    (m.enterInterrupt vector).machine =
      let bus := Bus.writeAll m.bus (pushWrites m.regs.sp (interruptFrame m.regs.pc m.regs.status))
      { m with
        regs := { m.regs with
          sp := m.regs.sp - 3
          pc := Bus.readWord bus vector
          status := { m.regs.status with interruptDisable := true } }
        bus } := by
  have pushed : (m.pushWord m.regs.pc).push m.regs.status.toByte = _ :=
    m.pushAll_eq (interruptFrame m.regs.pc m.regs.status)
  simp only [enterInterrupt, pushed]
  rfl

theorem execute_pullAccumulator (m : Machine M) (operand : Operand) :
    m.execute .pullAccumulator operand = .done (m.withRegs
      ({ m.regs with sp := m.regs.sp + 1 }.load .a
        (Bus.read m.bus (stackSlot (m.regs.sp + 1))))) () := by
  simp only [execute, pop_eq, withRegs]

theorem execute_pullStatus (m : Machine M) (operand : Operand) :
    m.execute .pullStatus operand = .done (m.withRegs { m.regs with
      sp := m.regs.sp + 1
      status := Status.ofByte (Bus.read m.bus (stackSlot (m.regs.sp + 1))) }) () := by
  simp only [execute, pop_eq, withRegs]

theorem execute_returnFromCall (m : Machine M) (operand : Operand) :
    m.execute .returnFromCall operand = .done (m.withRegs { m.regs with
      sp := m.regs.sp + 2
      pc := Word.ofBytes (Bus.read m.bus (stackSlot (m.regs.sp + 2)))
        (Bus.read m.bus (stackSlot (m.regs.sp + 1))) + 1 }) () := by
  simp only [execute, popWord_eq, withRegs, jumpTo]

theorem execute_returnFromInterrupt (m : Machine M) (operand : Operand) :
    m.execute .returnFromInterrupt operand = .done (m.withRegs { m.regs with
      sp := m.regs.sp + 3
      pc := Word.ofBytes (Bus.read m.bus (stackSlot (m.regs.sp + 3)))
        (Bus.read m.bus (stackSlot (m.regs.sp + 2)))
      status := Status.ofByte (Bus.read m.bus (stackSlot (m.regs.sp + 1))) }) () := by
  have second : m.regs.sp + 1 + 1 = m.regs.sp + 2 := UInt8.add_assoc m.regs.sp 1 1
  have third : m.regs.sp + 1 + 2 = m.regs.sp + 3 := UInt8.add_assoc m.regs.sp 1 2
  simp only [execute, pop_eq, popWord_eq, withRegs, second, third]

end Machine

end Core6502
