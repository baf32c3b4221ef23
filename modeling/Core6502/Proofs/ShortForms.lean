import Core6502.Proofs.Locality
import Core6502.Proofs.PositionIndependence
import Core6502.Proofs.Resolution

/-!
# Short and long forms

An address in page zero can be given by one byte or by a word whose high byte is 0. Both forms of an
instruction do the same with the byte there, the short one in a byte less and mostly in a cycle
less. They part company where an index leads out of page zero: the short form wraps around to its
beginning, the long one goes on.
-/

namespace Core6502

/-- The mode that says in a word what this one says in a byte. -/
def Mode.wide? : Mode → Option Mode
  | .zeroPage => some .absolute
  | .zeroPageX => some .absoluteX
  | .zeroPageY => some .absoluteY
  | _ => none

def Mode.pageIndex (regs : Registers) : Mode → Byte
  | .zeroPageX => regs.x
  | .zeroPageY => regs.y
  | _ => 0

theorem Mode.wide?_cases {short wide : Mode} (h : short.wide? = some wide) :
    (short = .zeroPage ∧ wide = .absolute) ∨ (short = .zeroPageX ∧ wide = .absoluteX) ∨
      (short = .zeroPageY ∧ wide = .absoluteY) := by
  cases short with
  | zeroPage => exact Or.inl ⟨rfl, (Option.some.inj h).symm⟩
  | zeroPageX => exact Or.inr (Or.inl ⟨rfl, (Option.some.inj h).symm⟩)
  | zeroPageY => exact Or.inr (Or.inr ⟨rfl, (Option.some.inj h).symm⟩)
  | _ => cases h

/-- Only data is encoded in page zero. -/
theorem Operation.usesData_of_inPageZero {operation : Operation} {mode : Mode}
    (suits : operation.accepts mode = true) (page : mode.inPageZero = true) :
    operation.usesData = true := by
  cases operation with
  | add | subtract | logic | compare | bitTest | load | store | modify => rfl
  | _ =>
    cases mode with
    | zeroPage | zeroPageX | zeroPageY => cases suits
    | _ => cases page

/-- What works on data goes straight on, pops nothing and enters no interrupt. -/
theorem Operation.straight_of_usesData {operation : Operation}
    (data : operation.usesData = true) :
    operation.isControlFlow = false ∧ operation.popCount = 0 ∧ operation ≠ .forceInterrupt := by
  cases operation with
  | add | subtract | logic | compare | bitTest | load | store | modify =>
    exact ⟨rfl, rfl, Operation.noConfusion⟩
  | _ => cases data

/-- Operations on data do not depend on where the next instruction is. -/
theorem Operation.writes_of_usesData {operation : Operation} (data : operation.usesData = true)
    (r : Registers) (pc : Word) (operand : Operand) :
    operation.writes { r with pc } operand = operation.writes r operand := by
  cases operation with
  | store register => cases register <;> rfl
  | add | subtract | logic | compare | bitTest | load | modify => rfl
  | _ => cases data

/-- The long form costs a cycle more, unless both forms add an index and the data is only read. -/
theorem Operation.accessCycles_wide (operation : Operation) {short wide : Mode}
    (h : short.wide? = some wide) :
    (short = .zeroPage → operation.accessCycles wide = operation.accessCycles short + 1) ∧
    (short ≠ .zeroPage → operation.accessCycles wide = operation.accessCycles short ∨
      operation.accessCycles wide = operation.accessCycles short + 1) := by
  rcases Mode.wide?_cases h with ⟨rfl, rfl⟩ | ⟨rfl, rfl⟩ | ⟨rfl, rfl⟩
  · exact ⟨fun _ => by cases operation <;> rfl, fun other => absurd rfl other⟩
  all_goals
    refine ⟨Mode.noConfusion, fun _ => ?_⟩
    cases operation with
    | store | modify => exact Or.inr rfl
    | _ => exact Or.inl rfl

namespace Machine

def codeAddresses (m : Machine Memory) : List Word :=
  [m.regs.pc, m.regs.pc + 1, m.regs.pc + 2]

/-- Two machines that differ only in the form of the next instruction. -/
structure ShortAndLong (m n : Machine Memory) (e e' : Encoding) (b : Byte) : Prop where
  short : m.encoding? = some e
  long : n.encoding? = some e'
  instruction : e'.instruction = e.instruction
  wide : e.mode.wide? = some e'.mode
  regs : n.regs = m.regs
  config : n.config = m.config
  byte : m.bus.read (m.regs.pc + 1) = b
  low : n.bus.read (m.regs.pc + 1) = b
  high : n.bus.read (m.regs.pc + 2) = 0
  memory : ∀ a, a ∉ m.codeAddresses → n.bus.read a = m.bus.read a

variable {m n : Machine Memory} {e e' : Encoding} {b : Byte}

namespace ShortAndLong

theorem usesData (h : m.ShortAndLong n e e' b) : e.instruction.operation.usesData = true := by
  refine Operation.usesData_of_inPageZero (accepts_of_encoding h.short) ?_
  rcases Mode.wide?_cases h.wide with ⟨short, _⟩ | ⟨short, _⟩ | ⟨short, _⟩ <;> rw [short] <;> rfl

theorem operandLength (h : m.ShortAndLong n e e' b) :
    e.mode.operandLength = 1 ∧ e'.mode.operandLength = 2 := by
  rcases Mode.wide?_cases h.wide with ⟨short, wide⟩ | ⟨short, wide⟩ | ⟨short, wide⟩ <;>
    rw [short, wide] <;> exact ⟨rfl, rfl⟩

/-- The short form adds the index to a byte. -/
theorem near (h : m.ShortAndLong n e e' b) :
    ∃ address, m.effectiveAddress? e.mode = some address ∧
      address.toNat = (b.toNat + (e.mode.pageIndex m.regs).toNat) % 256 := by
  refine ⟨(b + e.mode.pageIndex m.regs).toUInt16, ?_, ?_⟩
  · have plain : b.toUInt16 = (b + 0).toUInt16 := congrArg UInt8.toUInt16 (UInt8.add_zero b).symm
    simp only [effectiveAddress?, Memory.bus_read, h.byte]
    rcases Mode.wide?_cases h.wide with ⟨short, _⟩ | ⟨short, _⟩ | ⟨short, _⟩ <;> rw [short]
    · exact congrArg some plain
    · rfl
    · rfl
  · rw [UInt8.toNat_toUInt16, UInt8.toNat_add]

/-- The long form adds it to a word. -/
theorem far (h : m.ShortAndLong n e e' b) :
    ∃ address, n.effectiveAddress? e'.mode = some address ∧
      address.toNat = b.toNat + (e.mode.pageIndex m.regs).toNat := by
  refine ⟨b.toUInt16 + (e.mode.pageIndex m.regs).toUInt16, ?_, ?_⟩
  · have next : m.regs.pc + 1 + 1 = m.regs.pc + 2 := UInt16.add_assoc m.regs.pc 1 1
    have word : Word.ofBytes 0 b = b.toUInt16 := UInt16.zero_add b.toUInt16
    have plain : b.toUInt16 = b.toUInt16 + 0 := (UInt16.add_zero b.toUInt16).symm
    simp only [effectiveAddress?, h.regs, Memory.bus_readWord, next, h.low, h.high, word]
    rcases Mode.wide?_cases h.wide with ⟨short, wide⟩ | ⟨short, wide⟩ | ⟨short, wide⟩ <;>
      rw [short, wide]
    · exact congrArg some plain
    · rfl
    · rfl
  · have byte := b.toNat_lt
    have index := (e.mode.pageIndex m.regs).toNat_lt
    rw [UInt16.toNat_add, UInt8.toNat_toUInt16, UInt8.toNat_toUInt16]
    omega

/-- Both forms take the same byte from the same place. -/
theorem operand (h : m.ShortAndLong n e e' b) {address : Word}
    (near : m.effectiveAddress? e.mode = some address)
    (far : n.effectiveAddress? e'.mode = some address) (apart : address ∉ m.codeAddresses) :
    (n.operand e'.mode).target = (m.operand e.mode).target ∧
      (n.operand e'.mode).value = (m.operand e.mode).value := by
  rw [operand_of_address near, operand_of_address far]
  exact ⟨rfl, h.memory address apart⟩

/-- After both forms the registers are the same, the program counter apart. -/
theorem regs_step (h : m.ShortAndLong n e e' b)
    (target : (n.operand e'.mode).target = (m.operand e.mode).target)
    (value : (n.operand e'.mode).value = (m.operand e.mode).value) :
    n.step.machine.regs = (m.step.machine.shift 1).regs := by
  obtain ⟨straight, noPops, noEntry⟩ := Operation.straight_of_usesData h.usesData
  let before := m.advance (m.operand e.mode) e
  let before' := n.advance (n.operand e'.mode) e'
  have moved : before'.regs = (before.shift 1).regs := by
    obtain ⟨one, two⟩ := h.operandLength
    have pc : m.regs.pc + 3 = m.regs.pc + 2 + 1 := (UInt16.add_assoc m.regs.pc 2 1).symm
    rw [advance_regs, h.regs, two, shift, jumpTo, advance_regs, one]
    exact congrArg (fun pc => { m.regs with pc }) pc
  have pops : SamePops (before.shift 1) before' e.instruction.operation.popCount := by
    rw [noPops]
    intro a none
    cases none
  obtain ⟨_, _, executed⟩ := execute_congr moved h.config target (fun _ => value) pops
    fun entry => absurd entry noEntry
  have shifted := before.execute_shift 1 straight (m.operand e.mode)
  rw [step_of_encoding h.short, step_of_encoding h.long, h.instruction]
  exact executed.trans (congrArg Machine.regs shifted)

theorem stepWrites (h : m.ShortAndLong n e e' b)
    (target : (n.operand e'.mode).target = (m.operand e.mode).target)
    (value : (n.operand e'.mode).value = (m.operand e.mode).value) :
    n.stepWrites = m.stepWrites := by
  let operation := e.instruction.operation
  have placeless (pc : Word) (operand : Operand) :
      operation.writes { m.regs with pc } operand = operation.writes m.regs operand :=
    Operation.writes_of_usesData h.usesData m.regs pc operand
  rw [stepWrites_of_encoding h.short, stepWrites_of_encoding h.long, h.instruction, h.regs]
  calc operation.writes _ (n.operand e'.mode)
    _ = operation.writes m.regs (n.operand e'.mode) := placeless _ _
    _ = operation.writes m.regs (m.operand e.mode) :=
      writes_congr m.regs target fun _ => value
    _ = operation.writes _ (m.operand e.mode) := (placeless _ _).symm

end ShortAndLong

/-- What the two forms of an instruction do alike, and what the long one costs. -/
structure SameByForm (m n : Machine Memory) (e e' : Encoding) : Prop where
  results : m.step.result = .ok () ∧ n.step.result = .ok ()
  regs : n.step.machine.regs =
    { m.step.machine.regs with pc := m.step.machine.regs.pc + 1 }
  memory : ∀ a, a ∉ m.codeAddresses → n.step.machine.bus.read a = m.step.machine.bus.read a
  cycles : m.step.machine.cycles = m.cycles + UInt64.ofNat e.cycles ∧
    n.step.machine.cycles = n.cycles + UInt64.ofNat e'.cycles
  plain : e.mode = .zeroPage → e'.cycles = e.cycles + 1
  indexed : e.mode ≠ .zeroPage → e'.cycles = e.cycles ∨ e'.cycles = e.cycles + 1

theorem ShortAndLong.sameByForm (h : m.ShortAndLong n e e' b) {address : Word}
    (near : m.effectiveAddress? e.mode = some address)
    (far : n.effectiveAddress? e'.mode = some address) (apart : address ∉ m.codeAddresses) :
    m.SameByForm n e e' := by
  have data := h.usesData
  have data' : e'.instruction.operation.usesData = true := by rwa [h.instruction]
  obtain ⟨target, value⟩ := h.operand near far apart
  have short := Opcode.decode_accessCycles h.short data
  have long := Opcode.decode_accessCycles h.long data'
  obtain ⟨plain, indexed⟩ := e.instruction.operation.accessCycles_wide h.wide
  refine ⟨⟨step_ok_of_encoding h.short, step_ok_of_encoding h.long⟩,
    h.regs_step target value, ?_,
    ⟨step_cycles_of_encoding h.short data, step_cycles_of_encoding h.long data'⟩, ?_, ?_⟩
  · intro a outside
    rw [step_bus, step_bus, h.stepWrites target value]
    exact Memory.read_writeAll_congr _ (h.memory a outside)
  · rw [short, long, h.instruction]
    exact plain
  · rw [short, long, h.instruction]
    exact indexed

/-- Where the index stays in page zero and the byte is not one of the instruction, both forms do
the same but for the program counter and the cycles. Where it leads out of page zero, the short
form is one page short of the long one. -/
theorem forms_interchangeable (h : m.ShortAndLong n e e' b) :
    let place := b.toNat + (e.mode.pageIndex m.regs).toNat
    ∃ near far, m.effectiveAddress? e.mode = some near ∧ n.effectiveAddress? e'.mode = some far ∧
      (place ≤ 255 → near.toNat = place ∧ far = near ∧
        (near ∉ m.codeAddresses → m.SameByForm n e e')) ∧
      (255 < place → near.toNat + 0x100 = far.toNat) := by
  intro place
  obtain ⟨near, located, short⟩ := h.near
  obtain ⟨far, located', long⟩ := h.far
  refine ⟨near, far, located, located', ?_, ?_⟩
  · intro inside
    have same : far = near := UInt16.toNat_inj.mp (by omega)
    rw [same] at located'
    exact ⟨by omega, same, fun apart => h.sameByForm located located' apart⟩
  · intro outside
    have byte := b.toNat_lt
    have index := (e.mode.pageIndex m.regs).toNat_lt
    omega

/-- Memory with an increment of the byte at 0xF8 and an index, in the short form. -/
def shortIncrement : Memory :=
  Bus.store (Bus.store Memory.zeroed 0x8000 [0xF6, 0xF8]) 0x00FF [0x7F]

def longIncrement : Memory :=
  Bus.store shortIncrement 0x8000 [0xFE, 0xF8, 0x00]

def incrementing (memory : Memory) (x : Byte) : Machine Memory :=
  { powerOn memory with regs := { x := x, sp := 0xFD, pc := 0x8000 } }

theorem incrementing_forms (x : Byte) :
    (incrementing shortIncrement x).ShortAndLong (incrementing longIncrement x)
      ⟨.inc, .zeroPageX, 6⟩ ⟨.inc, .absoluteX, 7⟩ 0xF8 := by
  have short : Opcode.decode (shortIncrement.read 0x8000) = some ⟨.inc, .zeroPageX, 6⟩ := by
    decide +kernel
  have long : Opcode.decode (longIncrement.read 0x8000) = some ⟨.inc, .absoluteX, 7⟩ := by
    decide +kernel
  have byte : shortIncrement.read 0x8001 = 0xF8 := by decide +kernel
  have word : longIncrement.read 0x8001 = 0xF8 ∧ longIncrement.read 0x8002 = 0 := by
    decide +kernel
  have regs (memory : Memory) :
      (incrementing memory x).regs = { x := x, sp := 0xFD, pc := 0x8000 } := rfl
  have config (memory : Memory) : (incrementing memory x).config = {} := rfl
  refine ⟨short, long, rfl, rfl, (regs _).trans (regs _).symm, (config _).trans (config _).symm,
    byte, word.1, word.2, ?_⟩
  intro a outside
  have apart : a ≠ 0x8000 ∧ a ≠ 0x8001 ∧ a ≠ 0x8002 := by
    simpa [codeAddresses, incrementing] using outside
  obtain ⟨first, second, third⟩ := apart
  exact ((Memory.read_write_of_ne _ _ third.symm).trans
    (Memory.read_write_of_ne _ _ second.symm)).trans (Memory.read_write_of_ne _ _ first.symm)

/-- At the end of page zero both forms make 0x80 of 0x7F. One byte further they part. -/
theorem forms_interchangeable_incrementing :
    (incrementing shortIncrement 0x07).ShortAndLong (incrementing longIncrement 0x07)
      ⟨.inc, .zeroPageX, 6⟩ ⟨.inc, .absoluteX, 7⟩ 0xF8 ∧
    (incrementing shortIncrement 0x07).step.machine.bus.read 0x00FF = 0x80 ∧
    (incrementing longIncrement 0x07).step.machine.bus.read 0x00FF = 0x80 ∧
    (incrementing longIncrement 0x07).step.machine.regs.pc =
      (incrementing shortIncrement 0x07).step.machine.regs.pc + 1 ∧
    ∃ near far, (incrementing shortIncrement 0x08).effectiveAddress? .zeroPageX = some near ∧
      (incrementing longIncrement 0x08).effectiveAddress? .absoluteX = some far ∧
      near.toNat + 0x100 = far.toNat := by
  obtain ⟨near, _, located, _, alike, _⟩ := forms_interchangeable (incrementing_forms 0x07)
  obtain ⟨near', far', short, long, _, part⟩ := forms_interchangeable (incrementing_forms 0x08)
  have place : (incrementing shortIncrement 0x07).effectiveAddress? .zeroPageX = some 0x00FF := by
    decide +kernel
  obtain rfl := Option.some.inj (located.symm.trans place)
  have same := (alike (by decide)).2.2 (by decide)
  have stored : (incrementing shortIncrement 0x07).step.machine.bus.read 0x00FF = 0x80 := by
    decide +kernel
  refine ⟨incrementing_forms 0x07, stored, ?_, congrArg Registers.pc same.regs, ?_⟩
  · exact (same.memory 0x00FF (by decide)).trans stored
  · exact ⟨near', far', short, long, part (by decide)⟩

end Machine

end Core6502
