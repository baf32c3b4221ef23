import Core6502.Bus

/-!
# Recorded buses

A bus that behaves as the one inside it and keeps every write that it receives,
also those that the inner bus ignores. Clearing goes through the writes.
-/

namespace Core6502

universe u

structure Recorded (M : Type u) where
  inner : M
  /-- Oldest first. -/
  writes : Array (Word × Byte) := #[]

namespace Recorded

variable {M : Type u} [Bus M]

instance : Bus (Recorded M) where
  read bus address := Bus.read bus.inner address
  write bus address value :=
    ⟨Bus.write bus.inner address value, bus.writes.push (address, value)⟩
  readWord bus address := Bus.readWord bus.inner address

@[simp]
theorem read_eq (bus : Recorded M) (a : Word) : Bus.read bus a = Bus.read bus.inner a :=
  rfl

@[simp]
theorem readWord_eq (bus : Recorded M) (a : Word) : Bus.readWord bus a = Bus.readWord bus.inner a :=
  rfl

@[simp]
theorem inner_write (bus : Recorded M) (a : Word) (value : Byte) :
    (Bus.write bus a value).inner = Bus.write bus.inner a value :=
  rfl

@[simp]
theorem writes_write (bus : Recorded M) (a : Word) (value : Byte) :
    (Bus.write bus a value).writes = bus.writes.push (a, value) :=
  rfl

end Recorded

end Core6502
