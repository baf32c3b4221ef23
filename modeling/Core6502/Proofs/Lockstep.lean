import Core6502.Proofs.BusSimulation

/-!
# Flat memory in place of another bus

A bus may hold some of its bytes fixed, as ROM does. They stay through everything
that the host calls for, and the rest is flat memory: until the first write to a
fixed byte, nothing tells the bus apart from flat memory that started with the
same bytes. If no byte is fixed, this is for ever.
-/

namespace Core6502

universe u

section Retention

variable {M : Type u} [Bus M]

/-- From now on, each address reads as the last byte written there, except that writes to
fixed addresses are ignored. -/
structure Bus.Retains (fixed : Word → Prop) (bus : M) : Prop where
  read_written : ∀ writes a value, ¬ fixed a →
    Bus.read (Bus.write (Bus.writeAll bus writes) a value) a = value
  read_kept : ∀ writes a b value, a ≠ b ∨ fixed a →
    Bus.read (Bus.write (Bus.writeAll bus writes) a value) b =
      Bus.read (Bus.writeAll bus writes) b

namespace Bus.Retains

variable {fixed : Word → Prop} {bus : M}

theorem write (h : Retains fixed bus) (a : Word) (value : Byte) :
    Retains fixed (Bus.write bus a value) :=
  ⟨fun writes => h.read_written ((a, value) :: writes),
    fun writes => h.read_kept ((a, value) :: writes)⟩

theorem writeAll (h : Retains fixed bus) (writes : List (Word × Byte)) :
    Retains fixed (Bus.writeAll bus writes) := by
  induction writes generalizing bus with
  | nil => exact h
  | cons w rest ih => exact ih (h.write w.1 w.2)

theorem read_fixed (h : Retains fixed bus) {a : Word} (ha : fixed a)
    (writes : List (Word × Byte)) : Bus.read (Bus.writeAll bus writes) a = Bus.read bus a := by
  induction writes generalizing bus with
  | nil => rfl
  | cons w rest ih =>
    refine (ih (h.write w.1 w.2)).trans (h.read_kept [] w.1 a w.2 ?_)
    by_cases same : w.1 = a
    · exact Or.inr (same ▸ ha)
    · exact Or.inl same

/-- A write does the same to flat memory, at every address that is not fixed. -/
theorem read_write (h : Retains fixed bus) {a b : Word} (free : ¬ fixed a ∨ ¬ fixed b)
    {memory : Memory} (same : memory.read b = Bus.read bus b) (value : Byte) :
    (memory.write a value).read b = Bus.read (Bus.write bus a value) b := by
  by_cases place : a = b
  · subst place
    rw [memory.read_write_self]
    exact (h.read_written [] a value (free.elim id id)).symm
  · rw [memory.read_write_of_ne value place, same]
    exact (h.read_kept [] a b value (Or.inl place)).symm

theorem read_writeAll (h : Retains fixed bus) {a : Word} (ha : ¬ fixed a) {memory : Memory}
    (same : memory.read a = Bus.read bus a) (writes : List (Word × Byte)) :
    (Bus.writeAll memory writes).read a = Bus.read (Bus.writeAll bus writes) a := by
  induction writes generalizing bus memory with
  | nil => exact same
  | cons w rest ih => exact ih (h.write w.1 w.2) (h.read_write (Or.inr ha) same w.2)

end Bus.Retains

end Retention

namespace Memory

theorem mem_clearWrites (a : Word) : a ∈ clearWrites.map Prod.fst := by
  refine List.mem_map.mpr ⟨(a, 0), List.mem_map.mpr ⟨a.toNat, ?_, ?_⟩, rfl⟩
  · exact List.mem_range.mpr a.toNat_lt
  · simp

theorem writeAll_clearWrites (memory : Memory) : Bus.writeAll memory clearWrites = zeroed := by
  refine ext_read fun a => ?_
  obtain ⟨value, hw, last⟩ := read_writeAll_of_mem (mem_clearWrites a)
  obtain ⟨_, _, zero⟩ := List.mem_map.mp hw
  rw [last, read_zeroed, ← (Prod.mk.inj zero).2]

/-- Filling flat memory at once is the same as clearing it byte by byte. -/
theorem clear_eq (memory : Memory) :
    Bus.clear memory =
      (List.range size).foldl (fun bus a => Bus.write bus a.toUInt16 0) memory := by
  rw [bus_clear, ← writeAll_clearWrites memory, Bus.writeAll, clearWrites, List.foldl_map]
  rfl

instance : Bus.Bytewise Memory where
  readWord_eq := bus_readWord
  clear_eq := clear_eq

/-- Flat memory holds nothing fixed. -/
theorem retains (memory : Memory) : Bus.Retains (fun _ => False) memory where
  read_written _ a value _ := read_write_self _ a value
  read_kept _ _ _ value other := read_write_of_ne _ value (other.resolve_right id)

end Memory

section Retention

variable {M : Type u} [Bus M] [Bus.Bytewise M] {fixed : Word → Prop} {bus : M}

theorem Bus.Retains.read_clear (h : Retains fixed bus) {a : Word} (ha : ¬ fixed a) :
    Bus.read (Bus.clear bus) a = 0 := by
  have flat := h.read_writeAll ha (Memory.read_ofFn (Bus.read bus) a) clearWrites
  rw [Bus.clear_eq_writeAll, ← flat, Memory.writeAll_clearWrites, Memory.read_zeroed]

end Retention

namespace Recorded

variable {M : Type u} [Bus M]

instance [Bus.Bytewise M] : Bus.Bytewise (Recorded M) where
  readWord_eq bus := Bus.Bytewise.readWord_eq bus.inner
  clear_eq _ := rfl

theorem inner_writeAll (record : Recorded M) (writes : List (Word × Byte)) :
    (Bus.writeAll record writes).inner = Bus.writeAll record.inner writes := by
  induction writes generalizing record with
  | nil => rfl
  | cons w rest ih => exact ih _

/-- Keeping a record changes nothing in what is retained. -/
theorem retains {fixed : Word → Prop} {record : Recorded M}
    (h : Bus.Retains fixed record.inner) : Bus.Retains fixed record where
  read_written writes a value free := by
    rw [read_eq, inner_write, inner_writeAll]
    exact h.read_written writes a value free
  read_kept writes a b value other := by
    rw [read_eq, read_eq, inner_write, inner_writeAll]
    exact h.read_kept writes a b value other

/-- The record is of a bus that its writes have led to. -/
def LeadsTo (start : M) (record : Recorded M) (bus : M) : Prop :=
  record.inner = bus ∧ bus = Bus.writeAll start record.writes.toList

theorem leadsTo_tracks (start : M) : Bus.Tracks (LeadsTo start) fun _ => False where
  sameBytes := by
    rintro record bus ⟨rfl, _⟩ a
    rfl
  write := by
    rintro record bus ⟨rfl, led⟩ a value
    refine Or.inl ⟨rfl, ?_⟩
    rw [writes_write, Array.toList_push, Bus.writeAll_append, ← led]
    rfl
  lost_write := fun gone _ _ => gone

/-- Flat memory with the same bytes as a bus that retains them. -/
def Mirrors (fixed : Word → Prop) (record : Recorded M) (memory : Memory) : Prop :=
  Bus.Retains fixed record.inner ∧ SameBytes record memory

def Struck (fixed : Word → Prop) (record : Recorded M) : Prop :=
  ∃ w ∈ record.writes.toList, fixed w.1

theorem mirrors_tracks (fixed : Word → Prop) :
    Bus.Tracks (Mirrors fixed (M := M)) (Struck fixed) where
  sameBytes := And.right
  write := by
    rintro record memory ⟨retains, same⟩ a value
    by_cases ha : fixed a
    · right
      exact ⟨(a, value), by simp, ha⟩
    · left
      exact ⟨retains.write a value, fun b => retains.read_write (Or.inl ha) (same b) value⟩
  lost_write := by
    rintro record ⟨w, mem, hw⟩ a value
    refine ⟨w, ?_, hw⟩
    rw [writes_write, Array.toList_push]
    exact List.mem_append_left _ mem

end Recorded

namespace Machine

variable {M : Type u} [Bus M]

def history (m : Machine M) (calls : List HostCall) : List (Word × Byte) :=
  (m.recorded.performAll calls).bus.writes.toList

variable [Bus.Bytewise M]

theorem recorded_performAll (m : Machine M) (calls : List HostCall) :
    m.answers calls = m.recorded.answers calls ∧
      (m.recorded.performAll calls).Alike (Recorded.LeadsTo m.bus) (m.performAll calls) := by
  have start : m.recorded.Alike (Recorded.LeadsTo m.bus) m := ⟨rfl, rfl, rfl, rfl, rfl⟩
  rcases (Recorded.leadsTo_tracks m.bus).performAll start calls with same | lost
  · exact same
  · cases lost

/-- A history of calls leaves the bus as its writes leave it. -/
theorem performAll_bus (m : Machine M) (calls : List HostCall) :
    (m.performAll calls).bus = Bus.writeAll m.bus (m.history calls) :=
  (m.recorded_performAll calls).2.bus.2

/-- A history that writes to no fixed address is the same over flat memory. -/
theorem performAll_flat {fixed : Word → Prop} {m : Machine M} {f : Machine Memory}
    (retains : Bus.Retains fixed m.bus) (start : m.Alike SameBytes f) {calls : List HostCall}
    (clean : ∀ w ∈ m.history calls, ¬ fixed w.1) :
    f.answers calls = m.answers calls ∧
      (m.performAll calls).Alike SameBytes (f.performAll calls) := by
  have mirrored : m.recorded.Alike (Recorded.Mirrors fixed) f :=
    ⟨start.regs, start.cycles, start.config, retains, start.bus⟩
  obtain ⟨answers, real⟩ := m.recorded_performAll calls
  rcases (Recorded.mirrors_tracks fixed).performAll mirrored calls with ⟨same, flat⟩ | ⟨w, mem, hw⟩
  · refine ⟨same.trans answers.symm, ?_⟩
    refine ⟨flat.regs.trans real.regs.symm, flat.cycles.trans real.cycles.symm,
      flat.config.trans real.config.symm, ?_⟩
    rw [← real.bus.1]
    exact flat.bus.2
  · exact absurd hw (clean w mem)

/-- Any bus of single bytes is flat memory, apart from the bytes that it holds fixed. -/
theorem lockstep {fixed : Word → Prop} {m : Machine M} {f : Machine Memory}
    (retains : Bus.Retains fixed m.bus) (start : m.Alike SameBytes f) (calls : List HostCall) :
    (∀ a, fixed a → Bus.read (m.performAll calls).bus a = Bus.read m.bus a) ∧
    (∀ a, ¬ fixed a → Bus.read (m.performAll (calls ++ [.clear])).bus a = 0) ∧
    ((∀ w ∈ m.history calls, ¬ fixed w.1) →
      f.answers calls = m.answers calls ∧
        (m.performAll calls).Alike SameBytes (f.performAll calls)) ∧
    ((∀ a, ¬ fixed a) →
      f.answers calls = m.answers calls ∧
        (m.performAll calls).Alike SameBytes (f.performAll calls)) ∧
    ∀ memory : Memory, Bus.clear memory =
      (List.range 65536).foldl (fun bus a => Bus.write bus a.toUInt16 0) memory := by
  refine ⟨?_, ?_, performAll_flat retains start, ?_, Memory.clear_eq⟩
  · intro a ha
    rw [performAll_bus]
    exact retains.read_fixed ha _
  · intro a ha
    have later : Bus.Retains fixed (m.performAll calls).bus := by
      rw [performAll_bus]
      exact retains.writeAll _
    rw [performAll_append]
    exact later.read_clear ha
  · intro none
    exact performAll_flat retains start fun w _ => none w.1

end Machine

/-- RAM in the lower half of memory, ROM in the upper one. -/
structure HalfRom where
  bytes : Memory

namespace HalfRom

instance : Bus HalfRom where
  read bus a := bus.bytes.read a
  write bus a value := if a < 0x8000 then ⟨bus.bytes.write a value⟩ else bus

instance : Bus.Bytewise HalfRom where
  readWord_eq _ _ := rfl
  clear_eq _ := rfl

def Rom (a : Word) : Prop :=
  0x8000 ≤ a

instance (a : Word) : Decidable (Rom a) :=
  inferInstanceAs (Decidable (0x8000 ≤ a))

theorem read_write (bus : HalfRom) (a b : Word) (value : Byte) :
    Bus.read (Bus.write bus a value) b =
      if Rom a then Bus.read bus b else (bus.bytes.write a value).read b := by
  simp only [Bus.read, Bus.write, Rom, ← UInt16.not_lt]
  split <;> simp [*]

theorem retains (bus : HalfRom) : Bus.Retains Rom bus where
  read_written writes a value free := by
    rw [read_write, if_neg free, Memory.read_write_self]
  read_kept writes a b value other := by
    rw [read_write]
    split
    · rfl
    · exact Memory.read_write_of_ne _ _ (other.resolve_right ‹_›)

end HalfRom

namespace Machine

/-- A program in ROM that stores a byte, pushes it and ends in an illegal opcode. -/
def romProgram : Machine HalfRom where
  regs := { sp := 0xFD, pc := 0x8000 }
  cycles := 0
  config := {}
  bus := ⟨Bus.store Memory.zeroed 0x8000 [0xA9, 0x42, 0x85, 0x10, 0x48, 0x02]⟩

def ramProgram : Machine Memory where
  regs := romProgram.regs
  cycles := romProgram.cycles
  config := romProgram.config
  bus := romProgram.bus.bytes

theorem lockstep_romProgram :
    let calls := [.run 4, .pop, .load 0x7FFE [0x01, 0x02], .irqIfEnabled, .runForCycles 10]
    ramProgram.answers calls = romProgram.answers calls ∧
    (romProgram.performAll calls).Alike SameBytes (ramProgram.performAll calls) ∧
    Bus.read (romProgram.performAll [.write 0x8000 0xFF]).bus 0x8000 = 0xA9 ∧
    Bus.read (romProgram.performAll (calls ++ [.clear])).bus 0x0010 = 0 ∧
    ramProgram.answers [.clear, .step] = ramProgram.recorded.answers [.clear, .step] := by
  intro calls
  have start : romProgram.Alike SameBytes ramProgram := ⟨rfl, rfl, rfl, fun _ => rfl⟩
  obtain ⟨_, cleared, same, _⟩ := lockstep romProgram.bus.retains start calls
  have recorded : ramProgram.recorded.Alike SameBytes ramProgram :=
    ⟨rfl, rfl, rfl, fun _ => rfl⟩
  have unfixed : Bus.Retains (fun _ => False) ramProgram.recorded.bus :=
    Recorded.retains ramProgram.bus.retains
  obtain ⟨_, _, _, always, _⟩ := lockstep unfixed recorded [.clear, .step]
  obtain ⟨kept, _⟩ := lockstep romProgram.bus.retains start [.write 0x8000 0xFF]
  have clean : (romProgram.history calls).all (fun w => !decide (HalfRom.Rom w.1)) = true := by
    decide +kernel
  have program : Bus.read romProgram.bus 0x8000 = 0xA9 := by decide +kernel
  obtain ⟨answers, alike⟩ := same fun w hw => by simpa using List.all_eq_true.mp clean w hw
  exact ⟨answers, alike, (kept 0x8000 (by decide)).trans program, cleared 0x0010 (by decide),
    (always fun _ => id).1⟩

end Machine

end Core6502
