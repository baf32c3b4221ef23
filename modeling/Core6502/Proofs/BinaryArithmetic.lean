import Core6502.Proofs.CarryChains
import Core6502.Proofs.ProgramCounter
import Core6502.Proofs.Resolution
import Core6502.Proofs.ResultFlags

/-!
# Addition and subtraction of bytes

What the two adding instructions compute, in integers. The operand is the byte that the mode
leads to, the result is the exact sum or difference modulo 256, the carry says whether the unsigned
one fits into a byte and overflow whether the signed one does not. The decimal flag plays no part.
-/

namespace Core6502

universe u

/-- The byte at an address that is counted modulo 65536. -/
def Memory.byteAt (m : Memory) (address : Nat) : Nat :=
  (m.read (UInt16.ofNat address)).toNat

theorem Memory.byteAt_toNat (m : Memory) (a : Word) : m.byteAt a.toNat = (m.read a).toNat := by
  rw [byteAt, UInt16.ofNat_toNat]

theorem Memory.byteAt_add (m : Memory) (a : Word) (i : Nat) :
    m.byteAt (a.toNat + i) = (m.read (a + UInt16.ofNat i)).toNat := by
  rw [byteAt, UInt16.ofNat_add, UInt16.ofNat_toNat]

theorem Mode.operandLength_of_inMemory {mode : Mode} (memory : mode.inMemory = true) :
    mode.operandLength = 1 ∨ mode.operandLength = 2 := by
  cases mode with
  | zeroPage | zeroPageX | zeroPageY | indirectX | indirectY => exact Or.inl rfl
  | absolute | absoluteX | absoluteY => exact Or.inr rfl
  | accumulator | immediate | implied | indirect | relative => cases memory

namespace Machine

/-- Both bytes after the opcode, as one number. -/
def rawNumber (m : Machine Memory) : Nat :=
  256 * m.bus.byteAt (m.regs.pc.toNat + 2) + m.bus.byteAt (m.regs.pc.toNat + 1)

/-- Where the data of an instruction lies, for the modes that have any: after the opcode, or where
the mode leads. Modes of one byte look at the low byte of the raw operand only. -/
def dataAddress? (m : Machine Memory) (mode : Mode) : Option Nat :=
  if mode = .immediate then some (m.regs.pc.toNat + 1)
  else if mode.inMemory then mode.place? m.regs m.bus m.rawNumber
  else none

theorem place?_rawNumber (m : Machine Memory) {mode : Mode} (memory : mode.inMemory = true) :
    mode.place? m.regs m.bus m.rawNumber =
      mode.place? m.regs m.bus (m.rawOperand mode).toNat := by
  have byte : m.bus.byteAt (m.regs.pc.toNat + 1) = (m.bus.read (m.regs.pc + 1)).toNat :=
    m.bus.byteAt_add m.regs.pc 1
  have high : m.bus.byteAt (m.regs.pc.toNat + 2) = (m.bus.read (m.regs.pc + 1 + 1)).toNat := by
    rw [UInt16.add_assoc]
    exact m.bus.byteAt_add m.regs.pc 2
  rcases Mode.operandLength_of_inMemory memory with one | two
  · refine Mode.place?_of_low one _ _ ?_
    rw [rawNumber, byte, Nat.mul_add_mod, rawOperand, one]
    exact congrArg (· % 256) (UInt8.toNat_toUInt16 _).symm
  · rw [rawNumber, byte, high, rawOperand, two]
    exact congrArg (mode.place? m.regs m.bus) (Word.toNat_ofBytes _ _).symm

theorem toNat_effectiveAddress (m : Machine Memory) {mode : Mode}
    (memory : mode.inMemory = true) :
    m.dataAddress? mode = (m.effectiveAddress? mode).map UInt16.toNat := by
  have data : mode ≠ .immediate := by
    rintro rfl
    cases memory
  rw [dataAddress?, if_neg data, if_pos memory, m.place?_rawNumber memory,
    ← Mode.toNat_address?, ← m.operand_address? mode]
  rfl

/-- Every mode of data leads to the byte of data. -/
theorem exists_dataAddress (m : Machine Memory) {mode : Mode}
    (data : (mode.inMemory || mode == .immediate) = true) :
    ∃ address, m.dataAddress? mode = some address ∧
      (m.datum mode).toNat = m.bus.byteAt address := by
  rcases Bool.or_eq_true_iff.mp data with memory | immediate
  · obtain ⟨address, located⟩ := m.address_of_inMemory memory
    refine ⟨address.toNat, ?_, ?_⟩
    · rw [toNat_effectiveAddress m memory, located, Option.map_some]
    · rw [Memory.byteAt_toNat, datum, located]
      rfl
  · obtain rfl := eq_of_beq immediate
    exact ⟨m.regs.pc.toNat + 1, rfl, (m.bus.byteAt_add m.regs.pc 1).symm⟩

end Machine

theorem topSet_one (b : Byte) : topSet 1 b.toNat = Flag.negative.isSet b := by
  rw [topSet, Flag.isSet_negative, decide_eq_decide]
  omega

namespace Adder

def instruction : Adder → Instruction
  | add => .adc
  | subtract => .sbc

/-- Whether an exact result sets the carry: a sum above 255, a difference that needs no borrow. -/
def carries (total : Int) : Adder → Prop
  | add => 255 < total
  | subtract => 0 ≤ total

instance (total : Int) : (adder : Adder) → Decidable (adder.carries total)
  | add => inferInstanceAs (Decidable (255 < total))
  | subtract => inferInstanceAs (Decidable (0 ≤ total))

/-- What an adder leaves in the accumulator and in the flags that describe it, in integers. -/
structure Computes (adder : Adder) (before : Registers) (value : Nat) (after : Registers) :
    Prop where
  result : (after.a.toNat : Int) =
    adder.exact before.a.toNat value before.status.carry % 256
  carry : after.status.carry = true ↔
    adder.carries (adder.exact before.a.toNat value before.status.carry)
  overflow : after.status.overflow = true ↔ ¬ SignedRange 1
    (adder.exact (Int.bmod before.a.toNat 256) (Int.bmod value 256) before.status.carry)
  describes : after.status.Describes after.a

section Bytes

variable (adder : Adder) (a value : Byte) (carry : Bool)

theorem toNat_operand : (adder.operand value).toNat = adder.addend 1 value.toNat := by
  cases adder with
  | add => rfl
  | subtract => exact UInt8.toNat_not value

theorem result_exact : ((addWithCarry a (adder.operand value) carry).result.toNat : Int) =
    adder.exact a.toNat value.toNat carry % 256 := by
  have bound := value.toNat_lt
  have bit := carry.toNat_le
  rw [toNat_addWithCarry, toNat_operand]
  cases adder with
  | add =>
    simp only [addend, exact]
    omega
  | subtract =>
    simp only [addend, exact]
    omega

theorem carry_exact : (addWithCarry a (adder.operand value) carry).carry = true ↔
    adder.carries (adder.exact a.toNat value.toNat carry) := by
  have bound := value.toNat_lt
  have bit := carry.toNat_le
  rw [carry_addWithCarry, toNat_operand, decide_eq_true_iff]
  cases adder with
  | add =>
    simp only [addend, exact, carries]
    omega
  | subtract =>
    simp only [addend, exact, carries]
    omega

theorem overflow_exact : (addWithCarry a (adder.operand value) carry).overflow = true ↔
    ¬ SignedRange 1 (adder.exact (Int.bmod a.toNat 256) (Int.bmod value.toNat 256) carry) := by
  have total := addWithCarry_exact a (adder.operand value) carry
  rw [toNat_operand] at total
  rw [overflow_addWithCarry, ← topSet_one, ← topSet_one, ← topSet_one, toNat_operand]
  exact (signs_iff Nat.one_pos a.toNat_lt (adder.addend_lt value.toNat_lt)
    (UInt8.toNat_lt _) total).trans (by rw [adder.exact_eq Nat.one_pos value.toNat_lt]; rfl)

end Bytes

theorem computes (adder : Adder) (r : Registers) (value : Byte) :
    adder.Computes r value.toNat
      (r.accumulate (addWithCarry r.a (adder.operand value) r.status.carry)) where
  result := adder.result_exact r.a value r.status.carry
  carry := adder.carry_exact r.a value r.status.carry
  overflow := adder.overflow_exact r.a value r.status.carry
  describes := Registers.describes_load _ .a _

/-- A difference without a borrow compares its operands, as unsigned and as signed numbers. -/
theorem Computes.compares {before after : Registers} {value : Nat}
    (h : subtract.Computes before value after) (bound : value < 256)
    (set : before.status.carry = true) :
    (after.status.carry = true ↔ value ≤ before.a.toNat) ∧
    (after.status.negative ≠ after.status.overflow ↔
      Int.bmod before.a.toNat 256 < Int.bmod value 256) := by
  obtain ⟨result, carry, overflow, _, negative⟩ := h
  have small := before.a.toNat_lt
  have byte := after.a.toNat_lt
  have sign : after.status.negative = true ↔ 128 ≤ after.a.toNat := by
    rw [negative, Nat.testBit_eq_decide_div_mod_eq, decide_eq_true_iff]
    omega
  have ne_iff : after.status.negative ≠ after.status.overflow ↔
      ¬ (after.status.negative = true ↔ after.status.overflow = true) :=
    not_congr Bool.eq_iff_iff
  rw [ne_iff, sign, overflow]
  rw [set] at result carry overflow
  rw [set]
  simp only [carries, exact, SignedRange, Bool.toNat_true, Int.bmod_def] at result carry ⊢
  refine ⟨carry.trans (by omega), ?_⟩
  split <;> split <;> omega

end Adder

namespace Machine

section AnyBus

variable {M : Type u} [Bus M] {m : Machine M} {e : Encoding} {adder : Adder}

theorem accepts_of_adder (h : m.encoding? = some e) (op : e.instruction = adder.instruction) :
    (e.mode.inMemory || e.mode == .immediate) = true := by
  have suits := accepts_of_encoding h
  rw [op] at suits
  cases adder <;> exact suits

theorem step_of_adder (h : m.encoding? = some e) (op : e.instruction = adder.instruction) :
    m.step.machine = (m.advance (m.operand e.mode) e).withRegs
      ((m.advance (m.operand e.mode) e).regs.accumulate
        (addWithCarry m.regs.a (adder.operand (m.datum e.mode)) m.regs.status.carry)) := by
  rw [step_of_encoding h, op, ← operand_value (accepts_of_adder h op)]
  cases adder <;> rfl

/-- The decimal flag only stays what it is. -/
theorem step_setFlag_decimal (h : m.encoding? = some e) (op : e.instruction = adder.instruction)
    (decimal : Bool) :
    (m.withRegs (m.regs.setFlag .decimal decimal)).step.machine =
      m.step.machine.withRegs (m.step.machine.regs.setFlag .decimal decimal) := by
  have encoding : (m.withRegs (m.regs.setFlag .decimal decimal)).encoding? = some e := h
  have datum : (m.withRegs (m.regs.setFlag .decimal decimal)).datum e.mode = m.datum e.mode := by
    cases e.mode <;> rfl
  have length : ∀ n : Machine M, (n.operand e.mode).length = e.mode.operandLength :=
    fun n => n.operand_length e.mode
  rw [step_of_adder encoding op, step_of_adder h op, datum]
  simp only [advance, length]
  rfl

end AnyBus

variable {m : Machine Memory} {e : Encoding} {adder : Adder}

/-- An adding instruction computes the exact result of the accumulator, the carry and the byte that
its mode leads to, modulo 256. Carry says whether the result fits as an unsigned number, overflow
whether it does not fit as a signed one. After a subtraction that begins with the carry set these
flags compare the operands. The decimal flag plays no part. -/
theorem accumulates_exactly (h : m.encoding? = some e) (op : e.instruction = adder.instruction) :
    ∃ address, m.dataAddress? e.mode = some address ∧
      let value := m.bus.byteAt address
      let after := m.step.machine.regs
      m.step.result = .ok () ∧
      adder.Computes m.regs value after ∧
      after.pc = m.regs.pc + UInt16.ofNat e.size ∧
      (adder = .subtract → m.regs.status.carry = true →
        (after.status.carry = true ↔ value ≤ m.regs.a.toNat) ∧
        (after.status.negative ≠ after.status.overflow ↔
          Int.bmod m.regs.a.toNat 256 < Int.bmod value 256)) ∧
      ∀ decimal, (m.withRegs (m.regs.setFlag .decimal decimal)).step.machine =
        m.step.machine.withRegs (after.setFlag .decimal decimal) := by
  obtain ⟨address, located, datum⟩ := m.exists_dataAddress (accepts_of_adder h op)
  refine ⟨address, located, ?_⟩
  intro value after
  have computes : adder.Computes m.regs value after := by
    change adder.Computes m.regs (m.bus.byteAt address) m.step.machine.regs
    rw [← datum, step_of_adder h op]
    obtain ⟨result, carry, overflow, describes⟩ := adder.computes m.regs (m.datum e.mode)
    exact ⟨result, carry, overflow, describes⟩
  have straight : e.instruction.isControlFlow = false := by
    rw [op]
    cases adder <;> rfl
  refine ⟨step_ok_of_encoding h, computes, step_pc_of_straight h straight, ?_,
    step_setFlag_decimal h op⟩
  rintro rfl set
  exact computes.compares (UInt8.toNat_lt _) set

/-- An adder that begins with a carry or a borrow. The pointer to its byte wraps in page zero and
the index at the end of memory. -/
def wrapping (adder : Adder) (a value : Byte) : Machine Memory :=
  let opcode : Byte := match adder with
    | .add => 0x71
    | .subtract => 0xF1
  let code := Bus.store Memory.zeroed 0x8000 [opcode, 0xFF]
  { powerOn (Bus.store (Bus.store (Bus.store code 0x00FF [0xF0]) 0x0000 [0xFF]) 0x0010 [value]) with
    regs := { a := a, y := 0x20, sp := 0xFD, pc := 0x8000,
              status := { carry := decide (adder = .add), decimal := true } } }

/-- The carry brings -128 - 1 + 1 back into range, the borrow takes -127 - 1 - 1 out of it. -/
theorem accumulates_exactly_wrapping :
    let sum := wrapping .add 0x80 0xFF
    let difference := wrapping .subtract 0x81 0x01
    sum.encoding? = some ⟨.adc, .indirectY, 5⟩ ∧
    sum.step.machine.regs.a = 0x80 ∧
    sum.step.machine.regs.status.carry = true ∧
    ¬ sum.step.machine.regs.status.overflow = true ∧
    difference.encoding? = some ⟨.sbc, .indirectY, 5⟩ ∧
    difference.step.machine.regs.a = 0x7F ∧
    difference.step.machine.regs.status.carry = true ∧
    difference.step.machine.regs.status.overflow = true := by
  intro sum difference
  have adc : sum.encoding? = some ⟨.adc, .indirectY, 5⟩ := by decide +kernel
  have sbc : difference.encoding? = some ⟨.sbc, .indirectY, 5⟩ := by decide +kernel
  have place : sum.dataAddress? .indirectY = some 0x0010 := by decide +kernel
  have place' : difference.dataAddress? .indirectY = some 0x0010 := by decide +kernel
  have addend : sum.bus.byteAt 0x0010 = 255 := by decide +kernel
  have subtrahend : difference.bus.byteAt 0x0010 = 1 := by decide +kernel
  have adding : Instruction.adc = Adder.add.instruction := rfl
  have subtracting : Instruction.sbc = Adder.subtract.instruction := rfl
  obtain ⟨address, located, _, adds, _⟩ := accumulates_exactly adc adding
  obtain ⟨address', located', _, subtracts, _⟩ := accumulates_exactly sbc subtracting
  obtain rfl := Option.some.inj (located.symm.trans place)
  obtain rfl := Option.some.inj (located'.symm.trans place')
  rw [addend] at adds
  rw [subtrahend] at subtracts
  have total : Adder.add.exact sum.regs.a.toNat (255 : Nat) sum.regs.status.carry = 384 := rfl
  have total' : Adder.subtract.exact difference.regs.a.toNat (1 : Nat)
    difference.regs.status.carry = 127 := rfl
  obtain ⟨result, carry, overflow, _⟩ := adds
  obtain ⟨result', carry', overflow', _⟩ := subtracts
  rw [total] at result carry
  rw [total'] at result' carry'
  refine ⟨adc, UInt8.toNat_inj.1 (Int.ofNat.inj result), carry.mpr (by decide), ?_, sbc,
    UInt8.toNat_inj.1 (Int.ofNat.inj result'), carry'.mpr (by decide), ?_⟩
  · exact fun set => overflow.mp set (by decide)
  · exact overflow'.mpr (by decide)

end Machine

end Core6502
