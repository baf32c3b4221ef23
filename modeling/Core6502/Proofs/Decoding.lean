import Core6502.Execution

/-!
# Decoding a step

What a step is, by the byte at the program counter. An illegal byte ends in a
fault. A legal one gives an encoding whose mode suits its operation, so every
store has an address, every jump a target, and no result is dropped. The
effective address is computed here from the registers and the bus alone.
-/

namespace Core6502

universe u

/-- Modes whose operand is a byte of data in memory. -/
def Mode.inMemory : Mode → Bool
  | .zeroPage | .zeroPageX | .zeroPageY | .absolute | .absoluteX | .absoluteY
  | .indirectX | .indirectY => true
  | .accumulator | .immediate | .implied | .indirect | .relative => false

def Operation.accepts (mode : Mode) : Operation → Bool
  | .add | .subtract | .logic _ | .compare _ | .bitTest | .load _ =>
    mode.inMemory || mode == .immediate
  | .store _ | .modify .increment | .modify .decrement => mode.inMemory
  | .modify _ => mode.inMemory || mode == .accumulator
  | .branch .. => mode == .relative
  | .jump => mode == .absolute || mode == .indirect
  | .call => mode == .absolute
  | .adjust .. | .transfer .. | .assign .. | .returnFromCall | .forceInterrupt
  | .returnFromInterrupt | .pushAccumulator | .pullAccumulator | .pushStatus | .pullStatus
  | .idle => mode == .implied

namespace Opcode

/-- What is so in every row of the opcode matrix is so of every encoding. -/
theorem of_rows {p : Encoding → Bool}
    (rows : ∀ opcode, (decode opcode).all p = true) {opcode : Byte} {e : Encoding}
    (h : decode opcode = some e) : p e = true := by
  have row := rows opcode
  rw [h] at row
  exact row

/-- The opcode matrix pairs operations only with modes that they accept. -/
theorem decode_accepts {opcode : Byte} {e : Encoding} (h : decode opcode = some e) :
    e.instruction.operation.accepts e.mode = true :=
  of_rows (p := fun e => e.instruction.operation.accepts e.mode) (by decide +kernel) h

end Opcode

theorem Instruction.operation_eq_forceInterrupt_iff {i : Instruction} :
    i.operation = .forceInterrupt ↔ i = .brk := by
  constructor
  · cases i with
    | brk => exact fun _ => rfl
    | _ => nofun
  · rintro rfl
    rfl

theorem Word.low_toUInt16 (b : Byte) : Word.low b.toUInt16 = b := by
  simp [Word.low]

namespace Machine

variable {M : Type u} [Bus M]

/-- What the byte at the program counter encodes. -/
def encoding? (m : Machine M) : Option Encoding :=
  Opcode.decode (Bus.read m.bus m.regs.pc)

def instruction? (m : Machine M) : Option Instruction :=
  m.encoding?.map Encoding.instruction

def effectiveAddress? (m : Machine M) (mode : Mode) : Option Word :=
  let byte := Bus.read m.bus (m.regs.pc + 1)
  let word := Bus.readWord m.bus (m.regs.pc + 1)
  let pointer (place : Byte) : Word :=
    Word.ofBytes (Bus.read m.bus (place + 1).toUInt16) (Bus.read m.bus place.toUInt16)
  match mode with
  | .accumulator | .immediate | .implied => none
  | .zeroPage => some byte.toUInt16
  | .zeroPageX => some (byte + m.regs.x).toUInt16
  | .zeroPageY => some (byte + m.regs.y).toUInt16
  | .absolute => some word
  | .absoluteX => some (word + m.regs.x.toUInt16)
  | .absoluteY => some (word + m.regs.y.toUInt16)
  | .indirect => some (Bus.readWord m.bus word)
  | .indirectX => some (pointer (byte + m.regs.x))
  | .indirectY => some (pointer byte + m.regs.y.toUInt16)
  | .relative => some (m.regs.pc + 2 + Word.signExtend byte)

theorem encoding?_of_instruction? {m : Machine M} {i : Instruction}
    (h : m.instruction? = some i) : ∃ e, m.encoding? = some e ∧ e.instruction = i :=
  Option.map_eq_some_iff.mp h

theorem instruction?_of_encoding? {m : Machine M} {e : Encoding} (h : m.encoding? = some e) :
    m.instruction? = some e.instruction :=
  Option.map_eq_some_iff.mpr ⟨e, h, rfl⟩

theorem step_of_illegal {m : Machine M} (h : m.encoding? = none) :
    m.step = ⟨m, .error (.illegalOpcode (Bus.read m.bus m.regs.pc) m.regs.pc),
      #[.illegalOpcode (Bus.read m.bus m.regs.pc) m.regs.pc]⟩ := by
  rw [encoding?] at h
  simp only [step, h]

theorem step_of_encoding {m : Machine M} {e : Encoding} (h : m.encoding? = some e) :
    m.step = ((m.advance (m.operand e.mode) e).execute e.instruction.operation
      (m.operand e.mode)).after #[.executing (Bus.read m.bus m.regs.pc) e m.regs] := by
  rw [encoding?] at h
  simp only [step, h]

theorem accepts_of_encoding {m : Machine M} {e : Encoding} (h : m.encoding? = some e) :
    e.instruction.operation.accepts e.mode = true :=
  Opcode.decode_accepts h

/-- An operation that accepts a single mode is encoded with it. -/
theorem mode_of_encoding {m : Machine M} {e : Encoding} {operation : Operation} {mode : Mode}
    (h : m.encoding? = some e) (op : e.instruction.operation = operation)
    (only : ∀ other, operation.accepts other = (other == mode)) : e.mode = mode := by
  have suits := accepts_of_encoding h
  rw [op, only] at suits
  exact eq_of_beq suits

theorem operand_length (m : Machine M) (mode : Mode) :
    (m.operand mode).length = mode.operandLength := by
  cases mode <;> rfl

theorem operand_address? (m : Machine M) (mode : Mode) :
    (m.operand mode).address? = m.effectiveAddress? mode := by
  cases mode <;>
    simp [operand, rawOperand, Mode.resolve, Mode.operandLength, effectiveAddress?,
      Operand.address?, Operand.accumulator, Operand.immediate, Operand.implied,
      Operand.zeroPage, Operand.zeroPageX, Operand.zeroPageY, Operand.absolute,
      Operand.absoluteX, Operand.absoluteY, Operand.indirect, Operand.indirectX,
      Operand.indirectY, Operand.relative, Operand.zeroPagePointer, Operand.atAddress,
      Word.low_toUInt16]

/-- The operand of a mode with an effective address is the byte there. -/
theorem operand_of_address {m : Machine M} {mode : Mode} {address : Word}
    (h : m.effectiveAddress? mode = some address) :
    m.operand mode =
      ⟨Bus.read m.bus address, .memory address, mode.operandLength⟩ := by
  rw [← operand_address?] at h
  cases mode <;> cases h <;> rfl

/-- Data in memory always has an address. -/
theorem address_of_inMemory (m : Machine M) {mode : Mode} (h : mode.inMemory = true) :
    ∃ address, m.effectiveAddress? mode = some address := by
  cases mode <;> simp [Mode.inMemory] at h <;> exact ⟨_, rfl⟩

/-- The byte of data that an operation works on: the one after the opcode or one in memory. -/
def datum (m : Machine M) (mode : Mode) : Byte :=
  match m.effectiveAddress? mode with
  | some address => Bus.read m.bus address
  | none => Bus.read m.bus (m.regs.pc + 1)

theorem operand_value {m : Machine M} {mode : Mode}
    (data : (mode.inMemory || mode == .immediate) = true) :
    (m.operand mode).value = m.datum mode := by
  rcases Bool.or_eq_true_iff.mp data with memory | immediate
  · obtain ⟨address, located⟩ := m.address_of_inMemory memory
    rw [operand_of_address located, datum, located]
  · rw [eq_of_beq immediate]
    exact Word.low_toUInt16 _

theorem value_of_encoding {m : Machine M} {e : Encoding} {operation : Operation}
    (h : m.encoding? = some e) (op : e.instruction.operation = operation)
    (data : ∀ mode, operation.accepts mode = (mode.inMemory || mode == .immediate)) :
    (m.operand e.mode).value = m.datum e.mode := by
  have suits := accepts_of_encoding h
  rw [op, data] at suits
  exact operand_value suits

theorem advance_regs (m : Machine M) (mode : Mode) (e : Encoding) :
    (m.advance (m.operand mode) e).regs =
      { m.regs with pc := m.regs.pc + UInt16.ofNat (mode.operandLength + 1) } := by
  simp only [advance, charge, jumpTo, operand_length]

/-- Force-interrupt saves the address after the byte that follows it. -/
theorem saved_of_forceInterrupt {m : Machine M} {e : Encoding} (h : m.encoding? = some e)
    (op : e.instruction.operation = .forceInterrupt) :
    (m.advance (m.operand e.mode) e).regs.pc + 1 = m.regs.pc + 2 := by
  have implied := mode_of_encoding h op fun _ => rfl
  rw [advance_regs, implied]
  exact UInt16.add_assoc m.regs.pc 1 1

end Machine

end Core6502
