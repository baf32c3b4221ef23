import Core6502.Proofs.StepCost
import Core6502.Proofs.WriteTrace

/-!
# Locality of a step

A step depends on the bus only through what it takes in: the opcode, the place of
its operand, the operand itself if the operation works on it, the bytes that it
pops and the vector that it follows. Two machines for which these are the same
take the same step, on whatever buses. Over flat memory they are the bytes at no
more than five addresses. The byte at the target of a store or a jump is not one
of them, although resolving the operand reads it.
-/

namespace Core6502

universe u v

/-- Whether the value of the operand matters, not only its place. -/
def Operation.readsOperand : Operation → Bool
  | .add | .subtract | .logic _ | .compare _ | .bitTest | .modify _ | .load _ => true
  | _ => false

def Operation.onlyLocates : Operation → Bool
  | .store _ | .branch .. | .jump | .call => true
  | _ => false

def Operation.popCount : Operation → Nat
  | .pullAccumulator | .pullStatus => 1
  | .returnFromCall => 2
  | .returnFromInterrupt => 3
  | _ => 0

namespace Machine

section TwoBuses

variable {M : Type u} {N : Type v} [Bus M] [Bus N]

/-- The same bytes come back when `count` bytes are popped. -/
def SamePops (m : Machine M) (n : Machine N) (count : Nat) : Prop :=
  ∀ a, a ∈ stackSlots m.regs.sp count → Bus.read n.bus a = Bus.read m.bus a

def SameVector (m : Machine M) (n : Machine N) (frame : List Byte) : Prop :=
  let vector := m.config.brkVector.address
  Bus.readWord (Bus.writeAll n.bus (pushWrites m.regs.sp frame)) vector =
    Bus.readWord (Bus.writeAll m.bus (pushWrites m.regs.sp frame)) vector

theorem writes_congr (regs : Registers) {operation : Operation} {operand other : Operand}
    (target : other.target = operand.target)
    (value : operation.readsOperand = true → other.value = operand.value) :
    operation.writes regs other = operation.writes regs operand := by
  have address : other.address? = operand.address? := by
    rw [Operand.address?, target, Operand.address?]
  cases operation with
  | modify transform => simp only [Operation.writes, address, value rfl]
  | _ => simp only [Operation.writes, address]

/-- An operation does the same on any two machines for which what it takes in is the same. -/
theorem execute_congr {m : Machine M} {n : Machine N} {operation : Operation}
    {operand other : Operand} (regs : n.regs = m.regs) (config : n.config = m.config)
    (target : other.target = operand.target)
    (value : operation.readsOperand = true → other.value = operand.value)
    (pops : SamePops m n operation.popCount)
    (vector : operation = .forceInterrupt →
      SameVector m n (interruptFrame (m.regs.pc + 1) m.regs.status)) :
    (n.execute operation other).result = (m.execute operation operand).result ∧
      (n.execute operation other).events = (m.execute operation operand).events ∧
      (n.execute operation other).machine.regs = (m.execute operation operand).machine.regs := by
  obtain ⟨r, c, options, bus⟩ := m
  obtain ⟨r', c', options', bus'⟩ := n
  obtain ⟨datum, place, length⟩ := operand
  obtain ⟨datum', place', length'⟩ := other
  dsimp only at regs config target value pops vector
  subst regs config target
  cases operation with
  | add | subtract | logic | compare | bitTest | load =>
    obtain rfl := value rfl
    exact ⟨rfl, rfl, rfl⟩
  | modify transform =>
    obtain rfl := value rfl
    cases place' <;> exact ⟨rfl, rfl, rfl⟩
  | store register => cases place' <;> exact ⟨rfl, rfl, rfl⟩
  | branch flag wanted =>
    cases place' with
    | memory address =>
      simp only [execute, Operand.address?]
      split <;> exact ⟨rfl, rfl, rfl⟩
    | accumulator | nowhere => exact ⟨rfl, rfl, rfl⟩
  | jump => cases place' <;> exact ⟨rfl, rfl, rfl⟩
  | call => cases place' <;> exact ⟨rfl, rfl, rfl⟩
  | returnFromCall =>
    have low := pops (stackSlot (r'.sp + 1)) (stackSlot_mem (i := 0) (by decide))
    have high := pops (stackSlot (r'.sp + 2)) (stackSlot_mem (i := 1) (by decide))
    dsimp only at low high
    simp only [execute_returnFromCall, low, high]
    exact ⟨rfl, rfl, rfl⟩
  | forceInterrupt =>
    have entry := vector rfl
    simp only [SameVector] at entry
    refine ⟨rfl, rfl, ?_⟩
    simp only [execute, enterInterrupt_machine, jumpTo, entry]
  | returnFromInterrupt =>
    have status := pops (stackSlot (r'.sp + 1)) (stackSlot_mem (i := 0) (by decide))
    have low := pops (stackSlot (r'.sp + 2)) (stackSlot_mem (i := 1) (by decide))
    have high := pops (stackSlot (r'.sp + 3)) (stackSlot_mem (i := 2) (by decide))
    dsimp only at status low high
    simp only [execute_returnFromInterrupt, status, low, high]
    exact ⟨rfl, rfl, rfl⟩
  | pullAccumulator =>
    have byte := pops (stackSlot (r'.sp + 1)) (stackSlot_mem (i := 0) (by decide))
    dsimp only at byte
    simp only [execute_pullAccumulator, byte]
    exact ⟨rfl, rfl, rfl⟩
  | pullStatus =>
    have byte := pops (stackSlot (r'.sp + 1)) (stackSlot_mem (i := 0) (by decide))
    dsimp only at byte
    simp only [execute_pullStatus, byte]
    exact ⟨rfl, rfl, rfl⟩
  | _ => exact ⟨rfl, rfl, rfl⟩

/-- Everything that a step of `m` takes in is the same for `n`. -/
structure SameView (m : Machine M) (n : Machine N) : Prop where
  regs : n.regs = m.regs
  config : n.config = m.config
  encoding : n.encoding? = m.encoding?
  opcode : Bus.read n.bus m.regs.pc = Bus.read m.bus m.regs.pc
  target : ∀ e, m.encoding? = some e → (n.operand e.mode).target = (m.operand e.mode).target
  value : ∀ e, m.encoding? = some e → e.instruction.operation.readsOperand = true →
    (n.operand e.mode).value = (m.operand e.mode).value
  pops : ∀ e, m.encoding? = some e → SamePops m n e.instruction.operation.popCount
  vector : ∀ e, m.encoding? = some e → e.instruction.operation = .forceInterrupt →
    SameVector m n (interruptFrame (m.regs.pc + 2) m.regs.status)

structure SameStep (m : Machine M) (n : Machine N) : Prop where
  result : n.step.result = m.step.result
  events : n.step.events = m.step.events
  regs : n.step.machine.regs = m.step.machine.regs
  config : n.step.machine.config = m.step.machine.config
  cost : n.stepCost = m.stepCost
  writes : n.stepWrites = m.stepWrites

theorem SameView.sameStep {m : Machine M} {n : Machine N} (view : SameView m n) :
    SameStep m n := by
  have config : n.step.machine.config = m.step.machine.config := by
    rw [step_config, step_config, view.config]
  have cost : n.stepCost = m.stepCost := by
    rw [stepCost, stepCost, view.encoding, view.regs]
  cases h : m.encoding? with
  | none =>
    have hn : n.encoding? = none := view.encoding.trans h
    refine ⟨?_, ?_, ?_, config, cost, ?_⟩
    · rw [step_of_illegal h, step_of_illegal hn, view.regs, view.opcode]
    · rw [step_of_illegal h, step_of_illegal hn, view.regs, view.opcode]
    · rw [step_of_illegal h, step_of_illegal hn, view.regs]
    · rw [stepWrites, stepWrites, h, hn]
  | some e =>
    have hn : n.encoding? = some e := view.encoding.trans h
    have advanced : (n.advance (n.operand e.mode) e).regs =
        (m.advance (m.operand e.mode) e).regs := by
      rw [advance_regs, advance_regs, view.regs]
    have pops : SamePops (m.advance (m.operand e.mode) e) (n.advance (n.operand e.mode) e)
        e.instruction.operation.popCount := view.pops e h
    have vector : e.instruction.operation = .forceInterrupt →
        SameVector (m.advance (m.operand e.mode) e) (n.advance (n.operand e.mode) e)
          (interruptFrame ((m.advance (m.operand e.mode) e).regs.pc + 1) m.regs.status) := by
      intro brk
      rw [saved_of_forceInterrupt h brk]
      exact view.vector e h brk
    obtain ⟨result, events, regs⟩ :=
      execute_congr advanced view.config (view.target e h) (view.value e h) pops vector
    refine ⟨?_, ?_, ?_, config, cost, ?_⟩
    · rw [step_of_encoding h, step_of_encoding hn]
      exact result
    · rw [step_of_encoding h, step_of_encoding hn, view.regs, view.opcode]
      exact congrArg (#[Event.executing (Bus.read m.bus m.regs.pc) e m.regs] ++ ·) events
    · rw [step_of_encoding h, step_of_encoding hn]
      exact regs
    · rw [stepWrites_of_encoding h, stepWrites_of_encoding hn, view.regs]
      exact writes_congr _ (view.target e h) (view.value e h)

end TwoBuses

section FlatMemory

def operandAddresses (m : Machine Memory) (mode : Mode) : List Word :=
  (List.range mode.operandLength).map fun i => m.regs.pc + 1 + UInt16.ofNat i

/-- The addresses of the pointer that a mode follows. Pointers in page zero wrap there. -/
def pointerAddresses (m : Machine Memory) (mode : Mode) : List Word :=
  let byte := m.bus.read (m.regs.pc + 1)
  let word := Word.ofBytes (m.bus.read (m.regs.pc + 2)) byte
  match mode with
  | .indirect => [word, word + 1]
  | .indirectX => [(byte + m.regs.x).toUInt16, (byte + m.regs.x + 1).toUInt16]
  | .indirectY => [byte.toUInt16, (byte + 1).toUInt16]
  | _ => []

def dataAddresses (m : Machine Memory) (e : Encoding) : List Word :=
  if e.instruction.operation.readsOperand then (m.effectiveAddress? e.mode).toList else []

def vectorAddresses (m : Machine Memory) : Operation → List Word
  | .forceInterrupt => [m.config.brkVector.address, m.config.brkVector.address + 1]
  | _ => []

def dependencies (m : Machine Memory) : List Word :=
  m.regs.pc ::
    match m.encoding? with
    | none => []
    | some e =>
      m.operandAddresses e.mode ++ m.pointerAddresses e.mode ++ m.dataAddresses e ++
        stackSlots m.regs.sp e.instruction.operation.popCount ++
        m.vectorAddresses e.instruction.operation

def AgreeOn (m n : Machine Memory) (addresses : List Word) : Prop :=
  ∀ a, a ∈ addresses → n.bus.read a = m.bus.read a

instance (m n : Machine Memory) (addresses : List Word) : Decidable (AgreeOn m n addresses) :=
  List.decidableBAll (fun a => n.bus.read a = m.bus.read a) addresses

theorem AgreeOn.mono {m n : Machine Memory} {some more : List Word} (h : AgreeOn m n more)
    (sub : ∀ a, a ∈ some → a ∈ more) : AgreeOn m n some :=
  fun a ha => h a (sub a ha)

theorem operand_byte_agree {m n : Machine Memory} {mode : Mode}
    (operands : AgreeOn m n (m.operandAddresses mode)) (length : 0 < mode.operandLength) :
    n.bus.read (m.regs.pc + 1) = m.bus.read (m.regs.pc + 1) := by
  apply operands
  exact List.mem_map.mpr ⟨0, List.mem_range.mpr length, by simp⟩

theorem operand_word_agree {m n : Machine Memory} {mode : Mode}
    (operands : AgreeOn m n (m.operandAddresses mode)) (length : 1 < mode.operandLength) :
    Bus.readWord n.bus (m.regs.pc + 1) = Bus.readWord m.bus (m.regs.pc + 1) := by
  have low := operand_byte_agree operands (by omega)
  have high : n.bus.read (m.regs.pc + 1 + 1) = m.bus.read (m.regs.pc + 1 + 1) := by
    apply operands
    exact List.mem_map.mpr ⟨1, List.mem_range.mpr length, rfl⟩
  rw [Memory.bus_readWord, Memory.bus_readWord, low, high]

theorem effectiveAddress?_congr {m n : Machine Memory} {mode : Mode}
    (regs : n.regs = m.regs) (operands : AgreeOn m n (m.operandAddresses mode))
    (pointers : AgreeOn m n (m.pointerAddresses mode)) :
    n.effectiveAddress? mode = m.effectiveAddress? mode := by
  cases mode with
  | accumulator | immediate | implied => rfl
  | zeroPage | zeroPageX | zeroPageY | relative =>
    have byte := operand_byte_agree operands (by decide)
    simp only [effectiveAddress?, Memory.bus_read, regs, byte]
  | absolute | absoluteX | absoluteY =>
    have word := operand_word_agree operands (by decide)
    simp only [effectiveAddress?, regs, word]
  | indirect =>
    have word := operand_word_agree operands (by decide)
    have second : m.regs.pc + 1 + 1 = m.regs.pc + 2 := UInt16.add_assoc m.regs.pc 1 1
    have pointer : Bus.readWord n.bus (Bus.readWord m.bus (m.regs.pc + 1)) =
        Bus.readWord m.bus (Bus.readWord m.bus (m.regs.pc + 1)) := by
      have low := pointers _ List.mem_cons_self
      have high := pointers _ (List.mem_cons_of_mem _ List.mem_cons_self)
      simp only [Memory.bus_readWord, second, low, high]
    simp only [effectiveAddress?, regs, word, pointer]
  | indirectX =>
    have byte := operand_byte_agree operands (by decide)
    have low := pointers _ List.mem_cons_self
    have high := pointers _ (List.mem_cons_of_mem _ List.mem_cons_self)
    simp only [effectiveAddress?, Memory.bus_read, regs, byte, low, high]
  | indirectY =>
    have byte := operand_byte_agree operands (by decide)
    have low := pointers _ List.mem_cons_self
    have high := pointers _ (List.mem_cons_of_mem _ List.mem_cons_self)
    simp only [effectiveAddress?, Memory.bus_read, regs, byte, low, high]

/-- The operand has the same place, and the same value if it is data that agrees. -/
theorem operand_congr {m n : Machine Memory} {mode : Mode} (regs : n.regs = m.regs)
    (operands : AgreeOn m n (m.operandAddresses mode))
    (pointers : AgreeOn m n (m.pointerAddresses mode)) :
    (n.operand mode).target = (m.operand mode).target ∧
      (AgreeOn m n (m.effectiveAddress? mode).toList →
        (n.operand mode).value = (m.operand mode).value) := by
  have same := effectiveAddress?_congr regs operands pointers
  cases h : m.effectiveAddress? mode with
  | some address =>
    rw [operand_of_address h, operand_of_address (same.trans h)]
    exact ⟨rfl, fun agree => agree address (List.mem_singleton.mpr rfl)⟩
  | none =>
    cases mode with
    | accumulator | implied =>
      rw [operand, operand, regs]
      exact ⟨rfl, fun _ => rfl⟩
    | immediate =>
      have byte := operand_byte_agree operands (by decide)
      refine ⟨rfl, fun _ => ?_⟩
      simp only [operand, rawOperand, Mode.operandLength, Mode.resolve, Operand.immediate,
        Memory.bus_read, regs, byte]
    | _ => cases h

theorem dependencies_of_encoding {m : Machine Memory} {e : Encoding}
    (h : m.encoding? = some e) :
    m.dependencies = m.regs.pc ::
      (m.operandAddresses e.mode ++ m.pointerAddresses e.mode ++ m.dataAddresses e ++
        stackSlots m.regs.sp e.instruction.operation.popCount ++
        m.vectorAddresses e.instruction.operation) := by
  simp only [dependencies, h]

theorem sameView_of_agree {m n : Machine Memory} (regs : n.regs = m.regs)
    (config : n.config = m.config) (agree : AgreeOn m n m.dependencies) : SameView m n := by
  have opcode : n.bus.read m.regs.pc = m.bus.read m.regs.pc := agree _ List.mem_cons_self
  have encoding : n.encoding? = m.encoding? := by
    simp only [encoding?, Memory.bus_read, regs, opcode]
  have parts {e : Encoding} (h : m.encoding? = some e) :
      AgreeOn m n (m.operandAddresses e.mode) ∧ AgreeOn m n (m.pointerAddresses e.mode) ∧
      AgreeOn m n (m.dataAddresses e) ∧
      AgreeOn m n (stackSlots m.regs.sp e.instruction.operation.popCount) ∧
      AgreeOn m n (m.vectorAddresses e.instruction.operation) := by
    rw [dependencies_of_encoding h] at agree
    refine ⟨?_, ?_, ?_, ?_, ?_⟩ <;>
    · apply agree.mono
      intro a ha
      simp [ha]
  refine ⟨regs, config, encoding, opcode, ?_, ?_, ?_, ?_⟩
  · intro e h
    obtain ⟨operands, pointers, _⟩ := parts h
    exact (operand_congr regs operands pointers).1
  · intro e h reads
    obtain ⟨operands, pointers, data, _⟩ := parts h
    rw [dataAddresses, if_pos reads] at data
    exact (operand_congr regs operands pointers).2 data
  · intro e h
    exact (parts h).2.2.2.1
  · intro e h brk
    have vector := (parts h).2.2.2.2
    rw [brk] at vector
    have low := vector _ List.mem_cons_self
    have high := vector _ (List.mem_cons_of_mem _ List.mem_cons_self)
    simp only [SameVector, Memory.bus_readWord, Memory.read_writeAll_congr _ low,
      Memory.read_writeAll_congr _ high]

theorem SameStep.cycles {m n : Machine Memory} (same : SameStep m n) :
    n.step.machine.cycles = n.cycles + m.stepCost.toUInt64 := by
  rw [step_cycles, same.cost]

/-- The effect of a step on memory, address by address. -/
theorem SameStep.memory {m n : Machine Memory} (same : SameStep m n) (a : Word) :
    (∃ value, (a, value) ∈ m.stepWrites ∧ m.step.machine.bus.read a = value ∧
        n.step.machine.bus.read a = value) ∨
      (a ∉ m.stepWrites.map Prod.fst ∧ m.step.machine.bus.read a = m.bus.read a ∧
        n.step.machine.bus.read a = n.bus.read a) := by
  rw [step_bus, step_bus, same.writes]
  by_cases written : a ∈ m.stepWrites.map Prod.fst
  · obtain ⟨value, mem, last⟩ := Memory.read_writeAll_of_mem written
    exact Or.inl ⟨value, mem, last _, last _⟩
  · exact Or.inr ⟨written, Memory.read_writeAll_of_notMem _ written,
      Memory.read_writeAll_of_notMem _ written⟩

/-- A data operand takes at most three bytes to find, a pointer included; jumps and
branches take at most four, but no data. -/
theorem fetch_length_le {operation : Operation} {mode : Mode} (m : Machine Memory)
    (suits : operation.accepts mode = true) :
    (m.operandAddresses mode).length + (m.pointerAddresses mode).length +
      operation.readsOperand.toNat ≤ 4 := by
  have bytes : (m.operandAddresses mode).length = mode.operandLength := by
    simp [operandAddresses]
  rw [bytes]
  cases mode with
  | indirect =>
    cases operation with
    | jump => simp [Mode.operandLength, pointerAddresses, Operation.readsOperand]
    | modify transform => cases transform <;> cases suits
    | _ => cases suits
  | _ =>
    have := operation.readsOperand.toNat_le
    simp [Mode.operandLength, pointerAddresses]
    omega

/-- Only operations without an operand pop bytes or follow a vector. -/
theorem operandless {operation : Operation} {mode : Mode} (m : Machine Memory)
    (suits : operation.accepts mode = true) :
    operation.popCount = 0 ∧ m.vectorAddresses operation = [] ∨
      mode = .implied ∧ operation.readsOperand = false ∧
        operation.popCount + (m.vectorAddresses operation).length ≤ 3 := by
  cases operation with
  | returnFromCall | forceInterrupt | returnFromInterrupt | pullAccumulator | pullStatus =>
    refine Or.inr ⟨by simpa [Operation.accepts] using suits, rfl, ?_⟩
    simp [Operation.popCount, vectorAddresses]
  | _ => exact Or.inl ⟨rfl, rfl⟩

/-- A step depends on no more than five addresses. -/
theorem length_dependencies (m : Machine Memory) : m.dependencies.length ≤ 5 := by
  cases h : m.encoding? with
  | none => simp [dependencies, h]
  | some e =>
    have suits := accepts_of_encoding h
    have data : (m.dataAddresses e).length ≤ e.instruction.operation.readsOperand.toNat := by
      cases reads : e.instruction.operation.readsOperand with
      | false => simp [dataAddresses, reads]
      | true => cases ha : m.effectiveAddress? e.mode <;> simp [dataAddresses, reads, ha]
    rw [dependencies_of_encoding h]
    simp only [List.length_cons, List.length_append, length_stackSlots]
    rcases operandless m suits with ⟨pops, vector⟩ | ⟨implied, reads, rest⟩
    · have fetch := fetch_length_le m suits
      rw [pops, vector, List.length_nil]
      omega
    · rw [reads] at data
      rw [implied]
      simp only [operandAddresses, pointerAddresses, Mode.operandLength, List.range_zero,
        List.map_nil, List.length_nil]
      simp only [Bool.toNat_false] at data
      omega

/-- Two steps with one effect: each byte is written the same by both or changed by neither. -/
structure SameEffect (m n : Machine Memory) : Prop where
  result : n.step.result = m.step.result
  events : n.step.events = m.step.events
  regs : n.step.machine.regs = m.step.machine.regs
  cycles : n.step.machine.cycles = m.step.machine.cycles
  memory : ∀ a,
    (∃ value, (a, value) ∈ m.writes .step ∧ (a, value) ∈ n.writes .step ∧
      m.step.machine.bus.read a = value ∧ n.step.machine.bus.read a = value) ∨
    (m.step.machine.bus.read a = m.bus.read a ∧ n.step.machine.bus.read a = n.bus.read a)

theorem sameEffect_of_agree {m n : Machine Memory} (regs : n.regs = m.regs)
    (config : n.config = m.config) (cycles : n.cycles = m.cycles)
    (agree : AgreeOn m n m.dependencies) : SameEffect m n := by
  have same := (sameView_of_agree regs config agree).sameStep
  refine ⟨same.result, same.events, same.regs, ?_, ?_⟩
  · rw [same.cycles, cycles, step_cycles]
  · intro a
    rw [writes_step, writes_step, same.writes]
    rcases same.memory a with ⟨value, mem, hm, hn⟩ | ⟨_, hm, hn⟩
    · exact Or.inl ⟨value, mem, mem, hm, hn⟩
    · exact Or.inr ⟨hm, hn⟩

theorem dependencies_of_onlyLocates {m : Machine Memory} {e : Encoding}
    (h : m.encoding? = some e) (locates : e.instruction.operation.onlyLocates = true) :
    m.dependencies =
      m.regs.pc :: (m.operandAddresses e.mode ++ m.pointerAddresses e.mode) := by
  rw [dependencies_of_encoding h]
  cases op : e.instruction.operation with
  | store | branch | jump | call =>
    simp [dataAddresses, op, Operation.readsOperand, Operation.popCount, stackSlots,
      vectorAddresses]
  | _ => simp [op, Operation.onlyLocates] at locates

/-- A step over flat memory depends on five addresses at most: machines that agree there take
the same step. The target of a store, a jump, a call or a branch is not one of them, unless
the instruction or its pointer lies there. -/
theorem step_local (m : Machine Memory) :
    m.dependencies.length ≤ 5 ∧
    (∀ n : Machine Memory, n.regs = m.regs → n.config = m.config → n.cycles = m.cycles →
      AgreeOn m n m.dependencies → SameEffect m n) ∧
    ∀ e target value, m.encoding? = some e → e.instruction.operation.onlyLocates = true →
      m.effectiveAddress? e.mode = some target →
      target ∉ m.regs.pc :: (m.operandAddresses e.mode ++ m.pointerAddresses e.mode) →
      SameEffect m (m.withBus (m.bus.write target value)) := by
  refine ⟨m.length_dependencies, fun _ => sameEffect_of_agree, ?_⟩
  intro e target value h locates _ apart
  refine sameEffect_of_agree (n := m.withBus (m.bus.write target value)) rfl rfl rfl ?_
  rw [dependencies_of_onlyLocates h locates]
  intro a ha
  apply m.bus.read_write_of_ne
  rintro rfl
  exact apart ha

/-- A store to page zero, with a byte at its target. -/
def storing (byte : Byte) : Machine Memory where
  regs := { a := 0x42, sp := 0xFD, pc := 0x8000 }
  cycles := 0
  config := {}
  bus := ((Memory.zeroed.write 0x8000 0x85).write 0x8001 0x10).write 0x0010 byte

/-- The byte that a store overwrites makes no difference to it. -/
theorem step_local_storing :
    AgreeOn (storing 0x00) (storing 0x77) (storing 0x00).dependencies ∧
    (storing 0x77).bus.read 0x0010 ≠ (storing 0x00).bus.read 0x0010 ∧
    0x0010 ∉ (storing 0x00).dependencies ∧
    SameEffect (storing 0x00) (storing 0x77) ∧
    SameEffect (storing 0x00) ((storing 0x00).withBus ((storing 0x00).bus.write 0x0010 0x99)) := by
  have encoding : (storing 0x00).encoding? = some ⟨.sta, .zeroPage, 3⟩ := by decide +kernel
  have target : (storing 0x00).effectiveAddress? .zeroPage = some 0x0010 := by decide +kernel
  have agree : AgreeOn (storing 0x00) (storing 0x77) (storing 0x00).dependencies := by
    decide +kernel
  obtain ⟨_, alike, untouched⟩ := step_local (storing 0x00)
  exact ⟨agree, by decide +kernel, by decide +kernel, alike (storing 0x77) rfl rfl rfl agree,
    untouched _ 0x0010 0x99 encoding rfl target (by decide +kernel)⟩

end FlatMemory

end Machine

end Core6502
