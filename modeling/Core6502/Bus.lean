import Core6502.Word

/-!
# Memory buses

The processor sees memory only through a bus: bytes are read and written at 16-bit addresses, and
neither can fail. A bus may ignore writes, and may replace the word read and the clearing that are
given here in terms of bytes.

Flat memory is 65536 bytes of RAM, kept as 256 pages of 256 bytes: the high byte of an address
selects the page, the low byte the place in it. It is determined by what is read at each address.
What can fail is making memory from an image, and going on at a byte that is no opcode.
-/

namespace Core6502

universe u

class Bus (M : Type u) where
  read : M → Word → Byte
  write : M → Word → Byte → M
  /-- Reads a word, low byte first. The byte after 0xFFFF is at 0x0000. -/
  readWord (bus : M) (address : Word) : Word :=
    Word.ofBytes (read bus (address + 1)) (read bus address)
  /-- Zero-fills memory, from address 0x0000 up. -/
  clear (bus : M) : M :=
    (List.range 65536).foldl (fun bus address => write bus address.toUInt16 0) bus

namespace Bus

variable {M : Type u} [Bus M]

/-- Writes bytes from an address up. The address after 0xFFFF is 0x0000. -/
def store (bus : M) (address : Word) : List Byte → M
  | [] => bus
  | byte :: rest => store (write bus address byte) (address + 1) rest

/-- Storing a list piecewise is storing it at once. -/
theorem store_append (bus : M) (address : Word) (front back : List Byte) :
    store bus address (front ++ back) =
      store (store bus address front) (address + UInt16.ofNat front.length) back := by
  induction front generalizing bus address with
  | nil => simp [store]
  | cons byte rest ih =>
    simp only [List.cons_append, store, ih, List.length_cons]
    congr 1
    rw [UInt16.ofNat_add, UInt16.add_assoc, UInt16.add_comm 1]
    rfl

end Bus

inductive Fault
  /-- The byte at `pc` encodes no instruction. -/
  | illegalOpcode (opcode : Byte) (pc : Word)
  /-- A memory image has more bytes than there are addresses. -/
  | imageTooLarge (size : Nat)
  deriving DecidableEq

def Fault.message : Fault → String
  | .illegalOpcode opcode pc =>
    "Illegal opcode 0x" ++ Hex.byte opcode ++ " at 0x" ++ Hex.word pc
  | .imageTooLarge size =>
    "Memory image of " ++ toString size ++ " bytes exceeds the 65536 byte address space"

structure Memory where
  pages : Vector (Vector Byte 256) 256

namespace Memory

def size : Nat := 65536

def read (m : Memory) (address : Word) : Byte :=
  have := (Word.high address).toNat_lt
  have := (Word.low address).toNat_lt
  m.pages[(Word.high address).toNat][(Word.low address).toNat]

def write (m : Memory) (address : Word) (value : Byte) : Memory :=
  have := (Word.high address).toNat_lt
  have := (Word.low address).toNat_lt
  let page := m.pages[(Word.high address).toNat]
  ⟨m.pages.set (Word.high address).toNat (page.set (Word.low address).toNat value)⟩

def ofFn (f : Word → Byte) : Memory :=
  ⟨Vector.ofFn fun high => Vector.ofFn fun low =>
    f (Word.ofBytes (UInt8.ofFin high) (UInt8.ofFin low))⟩

def zeroed : Memory :=
  ⟨Vector.replicate 256 (Vector.replicate 256 0)⟩

/-- The memory that starts with an image and continues with zeros. -/
def ofImage (image : List Byte) : Except Fault Memory :=
  if image.length ≤ size then
    let bytes := image.toArray
    .ok (ofFn fun address => bytes.getD address.toNat 0)
  else
    .error (.imageTooLarge image.length)

def toList (m : Memory) : List Byte :=
  (List.range size).map fun address => m.read address.toUInt16

instance : Bus Memory where
  read := read
  write := write
  clear _ := zeroed

@[simp]
theorem bus_read (m : Memory) (a : Word) : Bus.read m a = m.read a :=
  rfl

@[simp]
theorem bus_write (m : Memory) (a : Word) (value : Byte) : Bus.write m a value = m.write a value :=
  rfl

@[simp]
theorem bus_readWord (m : Memory) (a : Word) :
    Bus.readWord m a = Word.ofBytes (m.read (a + 1)) (m.read a) :=
  rfl

@[simp]
theorem bus_clear (m : Memory) : Bus.clear m = zeroed :=
  rfl

theorem read_write (m : Memory) (a b : Word) (value : Byte) :
    (m.write a value).read b = if a = b then value else m.read b := by
  by_cases hh : Word.high a = Word.high b
  · by_cases hl : Word.low a = Word.low b
    · have h : a = b := Word.eq_iff_bytes.2 ⟨hh, hl⟩
      simp [read, write, h]
    · have h : a ≠ b := fun e => hl (by rw [e])
      have hl : (Word.low a).toNat ≠ (Word.low b).toNat := fun e => hl (UInt8.toNat_inj.1 e)
      simp [read, write, hh, h, hl]
  · have h : a ≠ b := fun e => hh (by rw [e])
    have hh : (Word.high a).toNat ≠ (Word.high b).toNat := fun e => hh (UInt8.toNat_inj.1 e)
    simp [read, write, h, hh]

@[simp]
theorem read_write_self (m : Memory) (a : Word) (value : Byte) :
    (m.write a value).read a = value := by
  simp [read_write]

theorem read_write_of_ne (m : Memory) {a b : Word} (value : Byte) (h : a ≠ b) :
    (m.write a value).read b = m.read b := by
  simp [read_write, h]

@[simp]
theorem read_ofFn (f : Word → Byte) (a : Word) : (ofFn f).read a = f a := by
  simp [read, ofFn]

@[simp]
theorem read_zeroed (a : Word) : zeroed.read a = 0 := by
  simp [read, zeroed]

/-- Memories are equal when every address reads the same. -/
theorem ext_read {m n : Memory} (h : ∀ a, m.read a = n.read a) : m = n := by
  obtain ⟨p⟩ := m
  obtain ⟨q⟩ := n
  refine congrArg Memory.mk (Vector.ext fun i hi => Vector.ext fun j hj => ?_)
  have := h (Word.ofBytes (UInt8.ofNat i) (UInt8.ofNat j))
  simpa [read, Nat.mod_eq_of_lt hi, Nat.mod_eq_of_lt hj] using this

@[simp]
theorem length_toList (m : Memory) : m.toList.length = size := by
  simp [toList]

theorem getElem?_toList (m : Memory) (a : Word) : m.toList[a.toNat]? = some (m.read a) := by
  have := a.toNat_lt
  simp [toList, size, this]

end Memory

end Core6502
