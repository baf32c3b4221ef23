import Mathlib.Data.List.Induction
import Mathlib.Order.Bounds.Basic
import Core6502.Proofs.StackAccess
import Core6502.Host

/-!
# Memory images

Memory starts as an image followed by zeros, and the bytes of any memory are an image of it. Bytes
that are loaded from an address up may turn around memory more than once, and where several fall on
one address the last one stays. Starting from an image is the same as loading it at the beginning of
fresh memory.
-/

namespace Core6502

theorem Word.toNat_add_ofNat (a : Word) (n : Nat) :
    (a + UInt16.ofNat n).toNat = (a.toNat + n) % 65536 := by
  rw [UInt16.toNat_add, UInt16.toNat_ofNat']
  omega

namespace Memory

/-- The places of a list of bytes that fall on an address when it is stored from another one up. -/
def places (start : Word) (count : Nat) (a : Word) : Set Nat :=
  {i | i < count ∧ (start.toNat + i) % 65536 = a.toNat}

/-- A byte that falls elsewhere adds no place. -/
theorem places_succ_of_ne {start a : Word} {count : Nat}
    (elsewhere : start + UInt16.ofNat count ≠ a) :
    places start (count + 1) a = places start count a := by
  ext i
  constructor
  · rintro ⟨bound, falls⟩
    refine ⟨Nat.lt_of_le_of_ne (Nat.le_of_lt_succ bound) ?_, falls⟩
    rintro rfl
    exact elsewhere (UInt16.toNat_inj.mp ((Word.toNat_add_ofNat start _).trans falls))
  · rintro ⟨bound, falls⟩
    exact ⟨Nat.lt_succ_of_lt bound, falls⟩

/-- Each address holds the last of the bytes that fall on it, or what was there before. -/
def Stored (before : Memory) (start : Word) (bytes : List Byte) (after : Memory) : Prop :=
  ∀ a, (∃ j, IsGreatest (places start bytes.length a) j ∧ bytes[j]? = some (after.read a)) ∨
    (places start bytes.length a = ∅ ∧ after.read a = before.read a)

/-- One more byte comes after all the others. -/
theorem Stored.snoc {before after : Memory} {start : Word} {front : List Byte}
    (stored : before.Stored start front after) (byte : Byte) :
    before.Stored start (front ++ [byte])
      (after.write (start + UInt16.ofNat front.length) byte) := by
  intro a
  rw [List.length_append, List.length_singleton]
  by_cases last : start + UInt16.ofNat front.length = a
  · left
    refine ⟨front.length, ⟨⟨Nat.lt_succ_self _, ?_⟩, ?_⟩, ?_⟩
    · rw [← last, Word.toNat_add_ofNat]
    · rintro i ⟨bound, _⟩
      exact Nat.le_of_lt_succ bound
    · rw [← last, read_write_self, List.getElem?_append_right (Nat.le_refl _), Nat.sub_self]
      rfl
  · rw [places_succ_of_ne last, read_write_of_ne _ _ last]
    rcases stored a with ⟨j, greatest, found⟩ | untouched
    · left
      refine ⟨j, greatest, ?_⟩
      rw [List.getElem?_append_left greatest.1.1]
      exact found
    · exact Or.inr untouched

theorem stored_store (memory : Memory) (start : Word) (bytes : List Byte) :
    memory.Stored start bytes (Bus.store memory start bytes) := by
  induction bytes using List.reverseRecOn with
  | nil =>
    intro a
    refine Or.inr ⟨Set.eq_empty_of_forall_notMem ?_, rfl⟩
    rintro i ⟨bound, _⟩
    exact Nat.not_lt_zero i bound
  | append_singleton front byte ih =>
    rw [Bus.store_append]
    exact ih.snoc byte

theorem ofImage_eq_error_iff {image : List Byte} {fault : Fault} :
    ofImage image = .error fault ↔ size < image.length ∧ fault = .imageTooLarge image.length := by
  rw [ofImage]
  by_cases fits : image.length ≤ size
  · rw [if_pos fits]
    constructor
    · nofun
    · rintro ⟨large, _⟩
      exact absurd fits (Nat.not_le.mpr large)
  · rw [if_neg fits]
    constructor
    · intro failed
      exact ⟨Nat.not_le.mp fits, (Except.error.inj failed).symm⟩
    · rintro ⟨_, rfl⟩
      rfl

/-- An image that fits is met from address 0x0000 up, with zeros after it. -/
theorem ofImage_of_fits {image : List Byte} (fits : image.length ≤ size) :
    ∃ memory, ofImage image = .ok memory ∧ ∀ a, memory.read a = image.getD a.toNat 0 := by
  refine ⟨_, if_pos fits, fun a => ?_⟩
  rw [read_ofFn]
  simp

/-- The bytes of memory are an image of it. -/
theorem ofImage_toList (memory : Memory) : ofImage memory.toList = .ok memory := by
  obtain ⟨copy, made, holds⟩ := ofImage_of_fits (Nat.le_of_eq memory.length_toList)
  have same : copy = memory := by
    refine ext_read fun a => ?_
    rw [holds, List.getD_eq_getElem?_getD, getElem?_toList]
    rfl
  rw [made, same]

/-- Memory made from an image lists the image and zeros after it. -/
theorem toList_of_holds {memory : Memory} {image : List Byte} (fits : image.length ≤ size)
    (holds : ∀ a, memory.read a = image.getD a.toNat 0) :
    memory.toList = image ++ List.replicate (size - image.length) 0 := by
  apply List.ext_getElem?
  intro i
  by_cases inside : i < size
  · have place : (UInt16.ofNat i).toNat = i := UInt16.toNat_ofNat_of_lt' inside
    have listed := memory.getElem?_toList (UInt16.ofNat i)
    rw [holds, place, List.getD_eq_getElem?_getD] at listed
    rw [listed]
    by_cases imaged : i < image.length
    · rw [List.getElem?_append_left imaged, List.getElem?_eq_getElem imaged]
      rfl
    · have beyond := Nat.le_of_not_lt imaged
      rw [List.getElem?_append_right beyond, List.getElem?_eq_none beyond,
        List.getElem?_replicate_of_lt (Nat.sub_lt_sub_right beyond inside)]
      rfl
  · have length : (image ++ List.replicate (size - image.length) 0).length = size := by
      rw [List.length_append, List.length_replicate, Nat.add_sub_cancel' fits]
    have beyond := Nat.le_of_not_lt inside
    rw [List.getElem?_eq_none (memory.length_toList.symm ▸ beyond),
      List.getElem?_eq_none (length.symm ▸ beyond)]

/-- Bytes that fit in memory are met from address 0x0000 up if they are stored there. -/
theorem read_store_zeroed {image : List Byte} (fits : image.length ≤ size) (a : Word) :
    (Bus.store zeroed 0x0000 image).read a = image.getD a.toNat 0 := by
  rw [List.getD_eq_getElem?_getD]
  rcases zeroed.stored_store 0x0000 image a with ⟨j, ⟨falls, _⟩, found⟩ | ⟨none, untouched⟩
  · have place : j = a.toNat := by
      have small : j < 65536 := Nat.lt_of_lt_of_le falls.1 fits
      have same : (0 + j) % 65536 = a.toNat := falls.2
      omega
    rw [← place, found]
    rfl
  · have outside : ¬ a.toNat < image.length := by
      intro bound
      have same : (0 + a.toNat) % 65536 = a.toNat := by
        rw [Nat.zero_add]
        exact Nat.mod_eq_of_lt a.toNat_lt
      have falls : a.toNat ∈ places 0x0000 image.length a := ⟨bound, same⟩
      rw [none] at falls
      exact falls
    rw [untouched, read_zeroed, List.getElem?_eq_none (Nat.le_of_not_lt outside)]
    rfl

end Memory

namespace Machine

/-- Starting from an image is loading it into fresh memory. -/
theorem ofImage_of_fits {image : List Byte} (fits : image.length ≤ Memory.size) :
    ofImage image = .ok ((powerOn Memory.zeroed).perform (.load 0x0000 image)).machine := by
  obtain ⟨memory, made, holds⟩ := Memory.ofImage_of_fits fits
  have loaded : memory = Bus.store Memory.zeroed 0x0000 image :=
    Memory.ext_read fun a => (holds a).trans (Memory.read_store_zeroed fits a).symm
  rw [ofImage, made, loaded]
  rfl

theorem ofImage_eq_error_iff {image : List Byte} {fault : Fault} :
    ofImage image = .error fault ↔
      Memory.size < image.length ∧ fault = .imageTooLarge image.length := by
  rw [← Memory.ofImage_eq_error_iff, ofImage]
  cases Memory.ofImage image with
  | ok memory => constructor <;> nofun
  | error found =>
    constructor
    · exact fun failed => congrArg Except.error (Except.error.inj failed)
    · exact fun failed => congrArg Except.error (Except.error.inj failed)

/-- An image is refused if it does not fit and otherwise lies at the beginning of memory, as if it
were loaded there. Loading leaves the last byte for each address, does nothing else to the machine,
and can be done in pieces. -/
theorem images_are_loads :
    (∀ image : List Byte,
      (∀ fault, Memory.ofImage image = .error fault ↔
        65536 < image.length ∧ fault = .imageTooLarge image.length) ∧
      (∀ fault, ofImage image = .error fault ↔
        65536 < image.length ∧ fault = .imageTooLarge image.length) ∧
      (image.length ≤ 65536 → ∃ memory, Memory.ofImage image = .ok memory ∧
        memory.toList.length = 65536 ∧
        memory.toList = image ++ List.replicate (65536 - image.length) 0 ∧
        ofImage image = .ok (powerOn memory) ∧
        ofImage image = .ok ((powerOn Memory.zeroed).perform (.load 0x0000 image)).machine)) ∧
    (∀ memory : Memory, ∃ copy, Memory.ofImage memory.toList = .ok copy ∧
      ∀ a, copy.read a = memory.read a) ∧
    (∀ (m : Machine Memory) start bytes, ∃ after,
      m.perform (.load start bytes) = .done (m.withBus after) .nothing ∧
      m.bus.Stored start bytes after) ∧
    (∀ (m : Machine Memory) start front back,
      (m.perform (.load start (front ++ back))).machine =
        m.performAll [.load start front, .load (start + UInt16.ofNat front.length) back]) := by
  refine ⟨?_, ?_, ?_, ?_⟩
  · intro image
    refine ⟨fun _ => Memory.ofImage_eq_error_iff, fun _ => ofImage_eq_error_iff, ?_⟩
    intro fits
    obtain ⟨memory, made, holds⟩ := Memory.ofImage_of_fits fits
    refine ⟨memory, made, memory.length_toList, Memory.toList_of_holds fits holds, ?_,
      ofImage_of_fits fits⟩
    rw [ofImage, made]
    rfl
  · intro memory
    exact ⟨memory, memory.ofImage_toList, fun _ => rfl⟩
  · intro m start bytes
    exact ⟨_, rfl, m.bus.stored_store start bytes⟩
  · intro m start front back
    exact congrArg m.withBus (Bus.store_append m.bus start front back)

/-- Bytes that are loaded around the end of memory, and images on both sides of the limit. -/
theorem images_are_loads_wrapping :
    let m := powerOn Memory.zeroed
    ofImage (List.replicate 65537 0xEA) = .error (.imageTooLarge 65537) ∧
    ofImage [0xA9, 0x42] = .ok (m.perform (.load 0x0000 [0xA9, 0x42])).machine ∧
    (m.perform (.load 0xFFFF ([0x11] ++ [0x22]))).machine =
      m.performAll [.load 0xFFFF [0x11], .load 0x0000 [0x22]] := by
  intro m
  obtain ⟨images, _, _, appended⟩ := images_are_loads
  obtain ⟨_, large, _⟩ := images (List.replicate 65537 0xEA)
  obtain ⟨_, _, small⟩ := images [0xA9, 0x42]
  obtain ⟨_, _, _, _, _, loaded⟩ := small (by decide)
  refine ⟨?_, loaded, appended m 0xFFFF [0x11] [0x22]⟩
  refine (large _).mpr ⟨?_, ?_⟩ <;> rw [List.length_replicate]
  decide

end Machine

end Core6502
