import Core6502.Operand

/-!
# Instructions

The 56 instructions by mnemonic, and the operation each one performs. Several instructions share an
operation that differs only in a register, a flag or a byte function, so what holds of every
instruction is shown operation by operation. The opcode matrix says which instruction and addressing
mode each byte encodes, and the cycles it costs. 151 of the 256 bytes encode an instruction.
-/

namespace Core6502

inductive Instruction
  | adc | and | asl | bcc | bcs | beq | bit | bmi
  | bne | bpl | brk | bvc | bvs | clc | cld | cli
  | clv | cmp | cpx | cpy | dec | dex | dey | eor
  | inc | inx | iny | jmp | jsr | lda | ldx | ldy
  | lsr | nop | ora | pha | php | pla | plp | rol
  | ror | rti | rts | sbc | sec | sed | sei | sta
  | stx | sty | tax | tay | tsx | txa | txs | tya
  deriving DecidableEq

/-- A bytewise function of the accumulator and the operand. -/
inductive Logic
  | and
  | or
  | exclusiveOr
  deriving DecidableEq

/-- A function of one byte that may take and give the carry. -/
inductive Transform
  | shiftLeft
  | shiftRight
  | rotateLeft
  | rotateRight
  | increment
  | decrement
  deriving DecidableEq

inductive Operation
  | add
  | subtract
  | logic (function : Logic)
  | compare (register : ByteRegister)
  | bitTest
  /-- Applies a transform where the operand came from. -/
  | modify (transform : Transform)
  /-- Applies a transform to a register. -/
  | adjust (register : ByteRegister) (transform : Transform)
  | load (register : ByteRegister)
  | store (register : ByteRegister)
  | transfer (source destination : ByteRegister)
  | assign (flag : Flag) (value : Bool)
  /-- Jumps if the flag has the value. -/
  | branch (flag : Flag) (value : Bool)
  | jump
  | call
  | returnFromCall
  | forceInterrupt
  | returnFromInterrupt
  | pushAccumulator
  | pullAccumulator
  | pushStatus
  | pullStatus
  | idle
  deriving DecidableEq

/-- Whether the operation may set the program counter itself. -/
def Operation.isControlFlow : Operation → Bool
  | branch .. | jump | call | returnFromCall | forceInterrupt | returnFromInterrupt => true
  | _ => false

namespace Instruction

def mnemonic : Instruction → String
  | adc => "ADC"
  | and => "AND"
  | asl => "ASL"
  | bcc => "BCC"
  | bcs => "BCS"
  | beq => "BEQ"
  | bit => "BIT"
  | bmi => "BMI"
  | bne => "BNE"
  | bpl => "BPL"
  | brk => "BRK"
  | bvc => "BVC"
  | bvs => "BVS"
  | clc => "CLC"
  | cld => "CLD"
  | cli => "CLI"
  | clv => "CLV"
  | cmp => "CMP"
  | cpx => "CPX"
  | cpy => "CPY"
  | dec => "DEC"
  | dex => "DEX"
  | dey => "DEY"
  | eor => "EOR"
  | inc => "INC"
  | inx => "INX"
  | iny => "INY"
  | jmp => "JMP"
  | jsr => "JSR"
  | lda => "LDA"
  | ldx => "LDX"
  | ldy => "LDY"
  | lsr => "LSR"
  | nop => "NOP"
  | ora => "ORA"
  | pha => "PHA"
  | php => "PHP"
  | pla => "PLA"
  | plp => "PLP"
  | rol => "ROL"
  | ror => "ROR"
  | rti => "RTI"
  | rts => "RTS"
  | sbc => "SBC"
  | sec => "SEC"
  | sed => "SED"
  | sei => "SEI"
  | sta => "STA"
  | stx => "STX"
  | sty => "STY"
  | tax => "TAX"
  | tay => "TAY"
  | tsx => "TSX"
  | txa => "TXA"
  | txs => "TXS"
  | tya => "TYA"

def operation : Instruction → Operation
  | adc => .add
  | sbc => .subtract
  | and => .logic .and
  | ora => .logic .or
  | eor => .logic .exclusiveOr
  | cmp => .compare .a
  | cpx => .compare .x
  | cpy => .compare .y
  | bit => .bitTest
  | asl => .modify .shiftLeft
  | lsr => .modify .shiftRight
  | rol => .modify .rotateLeft
  | ror => .modify .rotateRight
  | inc => .modify .increment
  | dec => .modify .decrement
  | inx => .adjust .x .increment
  | iny => .adjust .y .increment
  | dex => .adjust .x .decrement
  | dey => .adjust .y .decrement
  | lda => .load .a
  | ldx => .load .x
  | ldy => .load .y
  | sta => .store .a
  | stx => .store .x
  | sty => .store .y
  | tax => .transfer .a .x
  | tay => .transfer .a .y
  | txa => .transfer .x .a
  | tya => .transfer .y .a
  | tsx => .transfer .sp .x
  | txs => .transfer .x .sp
  | clc => .assign .carry false
  | sec => .assign .carry true
  | cli => .assign .interruptDisable false
  | sei => .assign .interruptDisable true
  | cld => .assign .decimal false
  | sed => .assign .decimal true
  | clv => .assign .overflow false
  | bcc => .branch .carry false
  | bcs => .branch .carry true
  | bne => .branch .zero false
  | beq => .branch .zero true
  | bpl => .branch .negative false
  | bmi => .branch .negative true
  | bvc => .branch .overflow false
  | bvs => .branch .overflow true
  | jmp => .jump
  | jsr => .call
  | rts => .returnFromCall
  | brk => .forceInterrupt
  | rti => .returnFromInterrupt
  | pha => .pushAccumulator
  | pla => .pullAccumulator
  | php => .pushStatus
  | plp => .pullStatus
  | nop => .idle

def isControlFlow (instruction : Instruction) : Bool :=
  instruction.operation.isControlFlow

end Instruction

structure Encoding where
  instruction : Instruction
  mode : Mode
  /-- Charged on every execution. A branch that is taken costs one more. -/
  cycles : Nat
  deriving DecidableEq

namespace Encoding

/-- Count of bytes, the opcode included. -/
def size (e : Encoding) : Nat :=
  e.mode.operandLength + 1

def text (e : Encoding) : String :=
  e.instruction.mnemonic ++ " " ++ e.mode.name

end Encoding

namespace Opcode

def op (instruction : Instruction) (mode : Mode) (cycles : Nat) : Option Encoding :=
  some ⟨instruction, mode, cycles⟩

/-- One row for each high digit of the opcode, one column for each low digit. -/
def matrix : Vector (Vector (Option Encoding) 16) 16 := #v[
  #v[op .brk .implied 7, op .ora .indirectX 6, none, none, none, op .ora .zeroPage 3,
     op .asl .zeroPage 5, none, op .php .implied 3, op .ora .immediate 2, op .asl .accumulator 2,
     none, none, op .ora .absolute 4, op .asl .absolute 6, none],
  #v[op .bpl .relative 2, op .ora .indirectY 5, none, none, none, op .ora .zeroPageX 4,
     op .asl .zeroPageX 6, none, op .clc .implied 2, op .ora .absoluteY 4, none, none, none,
     op .ora .absoluteX 4, op .asl .absoluteX 7, none],
  #v[op .jsr .absolute 6, op .and .indirectX 6, none, none, op .bit .zeroPage 3,
     op .and .zeroPage 3, op .rol .zeroPage 5, none, op .plp .implied 4, op .and .immediate 2,
     op .rol .accumulator 2, none, op .bit .absolute 4, op .and .absolute 4, op .rol .absolute 6,
     none],
  #v[op .bmi .relative 2, op .and .indirectY 5, none, none, none, op .and .zeroPageX 4,
     op .rol .zeroPageX 6, none, op .sec .implied 2, op .and .absoluteY 4, none, none, none,
     op .and .absoluteX 4, op .rol .absoluteX 7, none],
  #v[op .rti .implied 6, op .eor .indirectX 6, none, none, none, op .eor .zeroPage 3,
     op .lsr .zeroPage 5, none, op .pha .implied 3, op .eor .immediate 2, op .lsr .accumulator 2,
     none, op .jmp .absolute 3, op .eor .absolute 4, op .lsr .absolute 6, none],
  #v[op .bvc .relative 2, op .eor .indirectY 5, none, none, none, op .eor .zeroPageX 4,
     op .lsr .zeroPageX 6, none, op .cli .implied 2, op .eor .absoluteY 4, none, none, none,
     op .eor .absoluteX 4, op .lsr .absoluteX 7, none],
  #v[op .rts .implied 6, op .adc .indirectX 6, none, none, none, op .adc .zeroPage 3,
     op .ror .zeroPage 5, none, op .pla .implied 4, op .adc .immediate 2, op .ror .accumulator 2,
     none, op .jmp .indirect 5, op .adc .absolute 4, op .ror .absolute 6, none],
  #v[op .bvs .relative 2, op .adc .indirectY 5, none, none, none, op .adc .zeroPageX 4,
     op .ror .zeroPageX 6, none, op .sei .implied 2, op .adc .absoluteY 4, none, none, none,
     op .adc .absoluteX 4, op .ror .absoluteX 7, none],
  #v[none, op .sta .indirectX 6, none, none, op .sty .zeroPage 3, op .sta .zeroPage 3,
     op .stx .zeroPage 3, none, op .dey .implied 2, none, op .txa .implied 2, none,
     op .sty .absolute 4, op .sta .absolute 4, op .stx .absolute 4, none],
  #v[op .bcc .relative 2, op .sta .indirectY 6, none, none, op .sty .zeroPageX 4,
     op .sta .zeroPageX 4, op .stx .zeroPageY 4, none, op .tya .implied 2, op .sta .absoluteY 5,
     op .txs .implied 2, none, none, op .sta .absoluteX 5, none, none],
  #v[op .ldy .immediate 2, op .lda .indirectX 6, op .ldx .immediate 2, none, op .ldy .zeroPage 3,
     op .lda .zeroPage 3, op .ldx .zeroPage 3, none, op .tay .implied 2, op .lda .immediate 2,
     op .tax .implied 2, none, op .ldy .absolute 4, op .lda .absolute 4, op .ldx .absolute 4,
     none],
  #v[op .bcs .relative 2, op .lda .indirectY 5, none, none, op .ldy .zeroPageX 4,
     op .lda .zeroPageX 4, op .ldx .zeroPageY 4, none, op .clv .implied 2, op .lda .absoluteY 4,
     op .tsx .implied 2, none, op .ldy .absoluteX 4, op .lda .absoluteX 4, op .ldx .absoluteY 4,
     none],
  #v[op .cpy .immediate 2, op .cmp .indirectX 6, none, none, op .cpy .zeroPage 3,
     op .cmp .zeroPage 3, op .dec .zeroPage 5, none, op .iny .implied 2, op .cmp .immediate 2,
     op .dex .implied 2, none, op .cpy .absolute 4, op .cmp .absolute 4, op .dec .absolute 6,
     none],
  #v[op .bne .relative 2, op .cmp .indirectY 5, none, none, none, op .cmp .zeroPageX 4,
     op .dec .zeroPageX 6, none, op .cld .implied 2, op .cmp .absoluteY 4, none, none, none,
     op .cmp .absoluteX 4, op .dec .absoluteX 7, none],
  #v[op .cpx .immediate 2, op .sbc .indirectX 6, none, none, op .cpx .zeroPage 3,
     op .sbc .zeroPage 3, op .inc .zeroPage 5, none, op .inx .implied 2, op .sbc .immediate 2,
     op .nop .implied 2, none, op .cpx .absolute 4, op .sbc .absolute 4, op .inc .absolute 6,
     none],
  #v[op .beq .relative 2, op .sbc .indirectY 5, none, none, none, op .sbc .zeroPageX 4,
     op .inc .zeroPageX 6, none, op .sed .implied 2, op .sbc .absoluteY 4, none, none, none,
     op .sbc .absoluteX 4, op .inc .absoluteX 7, none]]

def decode (opcode : Byte) : Option Encoding :=
  have := opcode.toNat_lt
  matrix[opcode.toNat / 16][opcode.toNat % 16]

example : ((List.range 256).countP fun i => (decode i.toUInt8).isSome) = 151 := by
  decide +kernel

end Opcode

end Core6502
