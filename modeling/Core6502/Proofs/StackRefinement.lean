import Mathlib.Data.List.Infix
import Core6502.Proofs.BusSimulation
import Core6502.Proofs.StackTop

/-!
# The stack as a list

A host that pushes and pops bytes and words in any order is answered as by a list of bytes, as long
as no more is popped than was pushed and at most 256 bytes are there at a time. The stack pointer
counts the bytes, wherever it wraps. Nothing else in the machine changes, and in memory only the
slots that were pushed to.
-/

namespace Core6502

inductive StackCall
  | push (value : Byte)
  | pushWord (value : Word)
  | pop
  | popWord
  deriving DecidableEq

namespace StackCall

def hostCall : StackCall → HostCall
  | push value => .push value
  | pushWord value => .pushWord value
  | pop => .pop
  | popWord => .popWord

/-- The same on a list of bytes, the top one first. A word goes with its high byte first. -/
def onList : StackCall → List Byte → Option (Answer × List Byte)
  | push value, bytes => some (.nothing, value :: bytes)
  | pushWord value, bytes => some (.nothing, Word.low value :: Word.high value :: bytes)
  | pop, byte :: rest => some (.byte byte, rest)
  | popWord, low :: high :: rest => some (.word (Word.ofBytes high low), rest)
  | _, _ => none

def change : StackCall → Int
  | push _ => 1
  | pushWord _ => 2
  | pop => -1
  | popWord => -2

def slots (sp : Byte) : StackCall → List Word
  | push _ => [stackSlot sp]
  | pushWord _ => [stackSlot sp, stackSlot (sp - 1)]
  | pop | popWord => []

theorem high_of_mem_slots {sp : Byte} {call : StackCall} {a : Word} (h : a ∈ call.slots sp) :
    Word.high a = 0x01 := by
  cases call with
  | push value =>
    rw [List.mem_singleton.mp h]
    exact high_stackSlot sp
  | pushWord value =>
    rcases List.mem_cons.mp h with rfl | h
    · exact high_stackSlot sp
    · rw [List.mem_singleton.mp h]
      exact high_stackSlot (sp - 1)
  | pop | popWord => cases h

/-- A list has enough bytes for a call if it would not be shorter than empty. -/
theorem exists_onList {call : StackCall} {bytes : List Byte}
    (enough : 0 ≤ (bytes.length : Int) + call.change) :
    ∃ answer after, call.onList bytes = some (answer, after) ∧
      (after.length : Int) = bytes.length + call.change := by
  cases call with
  | push value => exact ⟨_, _, rfl, rfl⟩
  | pushWord value => exact ⟨_, _, rfl, rfl⟩
  | pop =>
    cases bytes with
    | nil => exact absurd enough (by decide)
    | cons byte rest =>
      refine ⟨_, _, rfl, ?_⟩
      rw [change, List.length_cons]
      omega
  | popWord =>
    cases bytes with
    | nil => exact absurd enough (by decide)
    | cons low bytes =>
      cases bytes with
      | nil =>
        rw [change, List.length_singleton] at enough
        omega
      | cons high rest =>
        refine ⟨_, _, rfl, ?_⟩
        rw [change, List.length_cons, List.length_cons]
        omega

end StackCall

/-- A list of bytes after calls made one after another, with the answers on the way. -/
def allOnList : List StackCall → List Byte → Option (List Answer × List Byte)
  | [], bytes => some ([], bytes)
  | call :: calls, bytes => do
    let (answer, between) ← call.onList bytes
    let (answers, after) ← allOnList calls between
    return (answer :: answers, after)

/-- How many bytes are there after some calls, if there were none before. -/
def depth : List StackCall → Int
  | [] => 0
  | call :: calls => call.change + depth calls

def pushedSlots : Byte → List StackCall → List Word
  | _, [] => []
  | sp, call :: calls => call.slots sp ++ pushedSlots (sp - UInt8.ofInt call.change) calls

theorem high_of_mem_pushedSlots {calls : List StackCall} {sp : Byte} {a : Word}
    (h : a ∈ pushedSlots sp calls) : Word.high a = 0x01 := by
  induction calls generalizing sp with
  | nil => cases h
  | cons call calls ih =>
    rcases List.mem_append.mp h with first | later
    · exact StackCall.high_of_mem_slots first
    · exact ih later

theorem Machine.perform_sp (m : Machine Memory) (call : StackCall) :
    (m.perform call.hostCall).machine.regs.sp = m.regs.sp - UInt8.ofInt call.change := by
  cases call with
  | push value => rfl
  | pushWord value =>
    have twice : m.regs.sp - 1 - 1 = m.regs.sp - 2 := by grind
    exact twice
  | pop =>
    have raised : m.regs.sp + 1 = m.regs.sp - 255 := by grind
    exact raised
  | popWord =>
    have raised : m.regs.sp + 1 + 1 = m.regs.sp - 254 := by grind
    exact raised

/-- The machine when the stack, empty at the start, holds these bytes. -/
structure Stacked (start : Machine Memory) (pushed : List Word) (bytes : List Byte)
    (m : Machine Memory) : Prop where
  regs : m.regs = { start.regs with sp := m.regs.sp }
  sp : m.regs.sp + UInt8.ofNat bytes.length = start.regs.sp
  cycles : m.cycles = start.cycles
  config : m.config = start.config
  top : m.bus.StackTop m.regs.sp bytes
  kept : ∀ a, a ∉ pushed → m.bus.read a = start.bus.read a

namespace Stacked

variable {start m : Machine Memory} {pushed : List Word} {bytes : List Byte}

theorem sp_eq (h : Stacked start pushed bytes m) :
    m.regs.sp = start.regs.sp - UInt8.ofInt (bytes.length : Int) := by
  have bytewise : UInt8.ofInt (bytes.length : Int) = UInt8.ofNat bytes.length :=
    UInt8.intCast_ofNat bytes.length
  rw [bytewise, ← h.sp]
  exact (UInt8.add_sub_cancel _ _).symm

theorem push (h : Stacked start pushed bytes m) (value : Byte) (room : bytes.length < 256) :
    Stacked start (pushed ++ [stackSlot m.regs.sp]) (value :: bytes) (m.push value) where
  regs := by rw [Machine.push, h.regs]
  sp := by
    have back : m.regs.sp - 1 + 1 = m.regs.sp := UInt8.sub_add_cancel m.regs.sp 1
    rw [List.length_cons, ← add_one_add_ofNat]
    change m.regs.sp - 1 + 1 + UInt8.ofNat bytes.length = _
    rw [back, h.sp]
  cycles := h.cycles
  config := h.config
  top := by
    have filled := h.top.push value room
    rwa [← Registers.stackAddress_eq] at filled
  kept a outside := by
    rw [List.mem_append, List.mem_singleton, not_or] at outside
    rw [← h.kept a outside.1]
    refine Memory.read_write_of_ne _ _ ?_
    rw [Registers.stackAddress_eq]
    exact Ne.symm outside.2

/-- What is popped is the first byte of the list. -/
theorem pop {byte : Byte} (h : Stacked start pushed (byte :: bytes) m) :
    m.pop.1 = byte ∧ Stacked start pushed bytes m.pop.2 := by
  rw [Machine.pop_eq]
  refine ⟨h.top.1, ?_, ?_, h.cycles, h.config, h.top.2, h.kept⟩
  · rw [Machine.withRegs, h.regs]
  · have above := h.sp
    rwa [List.length_cons, ← add_one_add_ofNat] at above

/-- A call on the machine is the call on the list. -/
theorem perform (h : Stacked start pushed bytes m) {call : StackCall} {answer : Answer}
    {after : List Byte} (does : call.onList bytes = some (answer, after))
    (room : after.length ≤ 256) :
    (m.perform call.hostCall).result = .ok answer ∧
      Stacked start (pushed ++ call.slots m.regs.sp) after
        (m.perform call.hostCall).machine := by
  cases call with
  | push value =>
    cases does
    exact ⟨rfl, h.push value room⟩
  | pushWord value =>
    cases does
    have twice := (h.push (Word.high value) (Nat.lt_of_succ_lt room)).push (Word.low value) room
    rw [List.append_assoc] at twice
    exact ⟨rfl, twice⟩
  | pop =>
    cases bytes with
    | nil => cases does
    | cons byte rest =>
      cases does
      obtain ⟨popped, machine⟩ := h.pop
      refine ⟨congrArg (fun b => Except.ok (Answer.byte b)) popped, ?_⟩
      rw [StackCall.slots, List.append_nil]
      exact machine
  | popWord =>
    match bytes, does with
    | low :: high :: rest, rfl =>
      obtain ⟨first, machine⟩ := h.pop
      obtain ⟨second, machine⟩ := machine.pop
      rw [StackCall.slots, List.append_nil]
      refine ⟨?_, machine⟩
      rw [← first, ← second]
      rfl

/-- Calls made one after another. The depth counts from the bytes that are there already. -/
theorem performAll (h : Stacked start pushed bytes m) {calls : List StackCall}
    (bounded : ∀ front, front <+: calls →
      0 ≤ (bytes.length : Int) + depth front ∧ (bytes.length : Int) + depth front ≤ 256) :
    ∃ answers after, allOnList calls bytes = some (answers, after) ∧
      (after.length : Int) = bytes.length + depth calls ∧
      m.answers (calls.map StackCall.hostCall) = answers.map Except.ok ∧
      Stacked start (pushed ++ pushedSlots m.regs.sp calls) after
        (m.performAll (calls.map StackCall.hostCall)) := by
  induction calls generalizing m pushed bytes with
  | nil =>
    refine ⟨[], bytes, rfl, (Int.add_zero _).symm, rfl, ?_⟩
    rw [pushedSlots, List.append_nil]
    exact h
  | cons call calls ih =>
    obtain ⟨enough, room⟩ := bounded [call] (List.cons_prefix_cons.mpr ⟨rfl, List.nil_prefix⟩)
    have one : depth [call] = call.change := Int.add_zero _
    rw [one] at enough room
    obtain ⟨answer, between, does, length⟩ := StackCall.exists_onList enough
    obtain ⟨result, next⟩ := h.perform does (by omega)
    have rest : ∀ front, front <+: calls →
        0 ≤ (between.length : Int) + depth front ∧ (between.length : Int) + depth front ≤ 256 := by
      intro front within
      have both := bounded (call :: front) (List.cons_prefix_cons.mpr ⟨rfl, within⟩)
      rwa [depth, ← Int.add_assoc, ← length] at both
    obtain ⟨answers, after, goes, count, told, stacked⟩ := ih next rest
    refine ⟨answer :: answers, after, ?_, ?_, ?_, ?_⟩
    · simp [allOnList, does, goes]
    · rw [count, length, depth, Int.add_assoc]
    · rw [List.map_cons, Machine.answers, result, told]
      rfl
    · rwa [Machine.perform_sp, List.append_assoc] at stacked

end Stacked

/-- While the depth stays between 0 and 256, the stack answers as a list of bytes, the stack pointer
is below its start by the depth, and only the slots that were pushed to have changed. -/
theorem stack_refines_list (m : Machine Memory) {calls : List StackCall}
    (bounded : ∀ front, front <+: calls → 0 ≤ depth front ∧ depth front ≤ 256) :
    ∀ front, front <+: calls → ∃ answers bytes,
      allOnList front [] = some (answers, bytes) ∧
      (bytes.length : Int) = depth front ∧
      m.answers (front.map StackCall.hostCall) = answers.map Except.ok ∧
      let after := m.performAll (front.map StackCall.hostCall)
      after.regs = { m.regs with sp := m.regs.sp - UInt8.ofInt (depth front) } ∧
      after.cycles = m.cycles ∧
      after.config = m.config ∧
      after.bus.StackTop after.regs.sp bytes ∧
      (∀ a, a ∉ pushedSlots m.regs.sp front → after.bus.read a = m.bus.read a) ∧
      ∀ a, Word.high a ≠ 0x01 → after.bus.read a = m.bus.read a := by
  intro front within
  have empty : Stacked m [] [] m := ⟨rfl, UInt8.add_zero _, rfl, rfl, trivial, fun _ _ => rfl⟩
  have shorter : ∀ early, early <+: front →
      0 ≤ (([] : List Byte).length : Int) + depth early ∧
        (([] : List Byte).length : Int) + depth early ≤ 256 := by
    intro early prior
    rw [List.length_nil, Int.natCast_zero, Int.zero_add]
    exact bounded early (prior.trans within)
  obtain ⟨answers, bytes, goes, length, told, stacked⟩ := empty.performAll shorter
  have count : (bytes.length : Int) = depth front := length.trans (Int.zero_add _)
  have regs := stacked.regs
  rw [stacked.sp_eq, count] at regs
  refine ⟨answers, bytes, goes, count, told, regs, stacked.cycles, stacked.config, stacked.top,
    stacked.kept, ?_⟩
  intro a outside
  exact stacked.kept a fun pushed => outside (high_of_mem_pushedSlots pushed)

def wrappingStack : Machine Memory where
  regs := { sp := 0x01, pc := 0x8000 }
  cycles := 0
  config := {}
  bus := Memory.zeroed

/-- A word is popped as two bytes, and two bytes as a word. -/
def mixedCalls : List StackCall :=
  [.push 0x11, .pushWord 0xAABB, .pop, .popWord, .pushWord 0x1234, .pop, .pop]

/-- A stack that is filled to the last slot. -/
def fillingCalls : List StackCall :=
  List.replicate 128 (.pushWord 0xAABB) ++ [.popWord]

/-- Words and bytes are taken for one another where the stack wraps, and from a full stack. -/
theorem stack_refines_list_wrapping :
    wrappingStack.answers (mixedCalls.map StackCall.hostCall) =
      [.nothing, .nothing, .byte 0xBB, .word 0x11AA, .nothing, .byte 0x34, .byte 0x12].map
        Except.ok ∧
    (wrappingStack.answers (fillingCalls.map StackCall.hostCall)).getLast? =
      some (.ok (.word 0xAABB)) := by
  have within (calls : List StackCall)
      (all : ∀ front ∈ calls.inits, 0 ≤ depth front ∧ depth front ≤ 256) :
      ∀ front, front <+: calls → 0 ≤ depth front ∧ depth front ≤ 256 :=
    fun front prior => all front ((List.mem_inits _ _).mpr prior)
  have mixed := stack_refines_list wrappingStack (within mixedCalls (by decide +kernel))
  have filled := stack_refines_list wrappingStack (within fillingCalls (by decide +kernel))
  constructor
  · obtain ⟨answers, bytes, goes, _, told, _⟩ := mixed mixedCalls List.prefix_rfl
    have listed : (allOnList mixedCalls []).map Prod.fst = some
        [.nothing, .nothing, .byte 0xBB, .word 0x11AA, .nothing, .byte 0x34, .byte 0x12] := by
      decide +kernel
    rw [goes] at listed
    rw [told, ← Option.some.inj listed]
  · obtain ⟨answers, bytes, goes, _, told, _⟩ := filled fillingCalls List.prefix_rfl
    have listed : (allOnList fillingCalls []).bind (fun step => step.1.getLast?) =
        some (.word 0xAABB) := by
      decide +kernel
    rw [goes] at listed
    have last : answers.getLast? = some (.word 0xAABB) := listed
    rw [told, List.getLast?_map, last]
    rfl

end Core6502
