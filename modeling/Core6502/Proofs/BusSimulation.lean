import Core6502.Proofs.Locality
import Core6502.Proofs.Runs

/-!
# Simulation between buses

A bus that gives only the reading and the writing of single bytes is changed by
writes alone, whatever the host calls for. So two such buses can be compared
write by write: if related buses read the same, and a write to both keeps them
related or loses something for good, then machines on them answer a whole history
of calls alike, unless something was lost on the way.
-/

namespace Core6502

universe u v

/-- A bus that reads words and clears memory one byte after another. -/
class Bus.Bytewise (M : Type u) [Bus M] : Prop where
  readWord_eq : ∀ (bus : M) (a : Word),
    Bus.readWord bus a = Word.ofBytes (Bus.read bus (a + 1)) (Bus.read bus a)
  clear_eq : ∀ bus : M,
    Bus.clear bus = (List.range 65536).foldl (fun bus a => Bus.write bus a.toUInt16 0) bus

def clearWrites : List (Word × Byte) :=
  (List.range 65536).map fun a => (a.toUInt16, 0)

def storeWrites : Word → List Byte → List (Word × Byte)
  | _, [] => []
  | a, byte :: rest => (a, byte) :: storeWrites (a + 1) rest

section OneBus

variable {M : Type u} [Bus M]

namespace Bus

theorem writeAll_append (bus : M) (front back : List (Word × Byte)) :
    writeAll bus (front ++ back) = writeAll (writeAll bus front) back :=
  List.foldl_append

theorem store_eq (bus : M) (a : Word) (bytes : List Byte) :
    store bus a bytes = writeAll bus (storeWrites a bytes) := by
  induction bytes generalizing bus a with
  | nil => rfl
  | cons byte rest ih => exact ih _ _

theorem clear_eq_writeAll [Bytewise M] (bus : M) : clear bus = writeAll bus clearWrites := by
  rw [Bytewise.clear_eq, writeAll, clearWrites, List.foldl_map]

/-- The second bus is the first one after some writes. -/
def Reaches (before after : M) : Prop :=
  ∃ writes, after = writeAll before writes

theorem Reaches.refl (bus : M) : Reaches bus bus :=
  ⟨[], rfl⟩

theorem Reaches.write (bus : M) (a : Word) (value : Byte) :
    Reaches bus (Bus.write bus a value) :=
  ⟨[(a, value)], rfl⟩

theorem Reaches.trans {before between after : M} (first : Reaches before between)
    (second : Reaches between after) : Reaches before after := by
  obtain ⟨front, rfl⟩ := first
  obtain ⟨back, rfl⟩ := second
  exact ⟨front ++ back, (writeAll_append _ _ _).symm⟩

end Bus

theorem Outcome.steps_reaches (more : Machine M → Bool) (fuel : Nat) (o : Outcome M Unit) :
    Bus.Reaches o.machine.bus (o.steps more fuel).machine.bus := by
  induction fuel generalizing o with
  | zero => exact .refl _
  | succ fuel ih =>
    rw [steps]
    split
    · refine Bus.Reaches.trans ?_ (ih _)
      obtain ⟨m, fault | answer, events⟩ := o
      · exact .refl _
      · exact ⟨m.stepWrites, m.step_bus⟩
    · exact .refl _

namespace Machine

/-- No call changes a bus but by writes. -/
theorem perform_reaches [Bus.Bytewise M] (m : Machine M) (call : HostCall) :
    Bus.Reaches m.bus (m.perform call).machine.bus := by
  cases call with
  | step => exact ⟨m.stepWrites, m.step_bus⟩
  | run count => exact Outcome.steps_reaches _ _ _
  | runForCycles budget => exact Outcome.steps_reaches _ _ _
  | interrupt vector => exact ⟨_, m.enterInterrupt_bus vector⟩
  | irqIfEnabled => exact ⟨_, m.perform_bus (Or.inr (Or.inl rfl))⟩
  | push value => exact .write _ _ _
  | pushWord value => exact .trans (.write _ _ _) (.write _ _ _)
  | write a value => exact .write _ _ _
  | load a bytes => exact ⟨_, Bus.store_eq _ _ _⟩
  | clear => exact ⟨_, Bus.clear_eq_writeAll _⟩
  | _ => exact .refl _

theorem performAll_reaches [Bus.Bytewise M] (m : Machine M) (calls : List HostCall) :
    Bus.Reaches m.bus (m.performAll calls).bus := by
  induction calls generalizing m with
  | nil => exact .refl _
  | cons call calls ih => exact (m.perform_reaches call).trans (ih _)

def answers (m : Machine M) : List HostCall → List (Except Fault Answer)
  | [] => []
  | call :: calls => (m.perform call).result :: (m.perform call).machine.answers calls

end Machine

end OneBus

variable {M : Type u} {N : Type v} [Bus M] [Bus N]

def SameBytes (b : M) (c : N) : Prop :=
  ∀ a, Bus.read c a = Bus.read b a

theorem SameBytes.readWord [Bus.Bytewise M] [Bus.Bytewise N] {b : M} {c : N}
    (same : SameBytes b c) (a : Word) : Bus.readWord c a = Bus.readWord b a := by
  rw [Bus.Bytewise.readWord_eq, Bus.Bytewise.readWord_eq, same, same]

/-- Machines that differ at most in buses that are related. -/
structure Machine.Alike (related : M → N → Prop) (m : Machine M) (n : Machine N) : Prop where
  regs : n.regs = m.regs
  cycles : n.cycles = m.cycles
  config : n.config = m.config
  bus : related m.bus n.bus

/-- The same result, from machines that are left alike. -/
def Outcome.Matches {α : Type} (related : M → N → Prop) (o : Outcome M α) (p : Outcome N α) :
    Prop :=
  p.result = o.result ∧ o.machine.Alike related p.machine

namespace Machine

variable {related : M → N → Prop} {m : Machine M} {n : Machine N}

/-- Machines find the same operand if they read the same bytes, and the same words where the mode
takes a word from the bus. -/
theorem operand_of_words (regs : n.regs = m.regs) (bytes : SameBytes m.bus n.bus) {mode : Mode}
    (word : mode.operandLength = 2 →
      Bus.readWord n.bus (m.regs.pc + 1) = Bus.readWord m.bus (m.regs.pc + 1))
    (pointer : mode = .indirect →
      Bus.readWord n.bus (Bus.readWord m.bus (m.regs.pc + 1)) =
        Bus.readWord m.bus (Bus.readWord m.bus (m.regs.pc + 1))) :
    n.operand mode = m.operand mode := by
  simp only [SameBytes] at bytes
  cases mode with
  | absolute | absoluteX | absoluteY =>
    have word := word rfl
    simp only [operand, rawOperand, Mode.resolve, Mode.operandLength, Operand.absolute,
      Operand.absoluteX, Operand.absoluteY, Operand.atAddress, regs, bytes, word]
  | indirect =>
    have word := word rfl
    have pointer := pointer rfl
    simp only [operand, rawOperand, Mode.resolve, Mode.operandLength, Operand.indirect,
      Operand.atAddress, regs, bytes, word, pointer]
  | _ =>
    simp only [operand, rawOperand, Mode.resolve, Mode.operandLength, Operand.accumulator,
      Operand.immediate, Operand.implied, Operand.zeroPage, Operand.zeroPageX, Operand.zeroPageY,
      Operand.indirectX, Operand.indirectY, Operand.relative, Operand.zeroPagePointer,
      Operand.atAddress, regs, bytes]

/-- On buses with the same bytes a step takes in the same if it finds the same operand and the
same vector. -/
theorem sameView_of_operand (alike : m.Alike related n) (bytes : SameBytes m.bus n.bus)
    (operand : ∀ e, m.encoding? = some e → n.operand e.mode = m.operand e.mode)
    (vector : ∀ e, m.encoding? = some e → e.instruction.operation = .forceInterrupt →
      SameVector m n (interruptFrame (m.regs.pc + 2) m.regs.status)) : SameView m n where
  regs := alike.regs
  config := alike.config
  encoding := by rw [encoding?, encoding?, alike.regs, bytes]
  opcode := bytes _
  target e h := by rw [operand e h]
  value e h _ := by rw [operand e h]
  pops _ _ _ _ := bytes _
  vector := vector

/-- The same step leaves machines alike if its writes leave their buses related. -/
theorem SameStep.matches (same : SameStep m n) (alike : m.Alike related n)
    (kept : related (Bus.writeAll m.bus m.stepWrites) (Bus.writeAll n.bus m.stepWrites)) :
    m.step.Matches related n.step := by
  refine ⟨same.result, same.regs, ?_, same.config, ?_⟩
  · rw [step_cycles, step_cycles, same.cost, alike.cycles]
  · rw [step_bus, step_bus, same.writes]
    exact kept

/-- An entry leaves machines alike if the vector leads to the same place after the pushes. -/
theorem enterInterrupt_matches (alike : m.Alike related n) {vector : Word}
    (kept : related
      (Bus.writeAll m.bus (pushWrites m.regs.sp (interruptFrame m.regs.pc m.regs.status)))
      (Bus.writeAll n.bus (pushWrites m.regs.sp (interruptFrame m.regs.pc m.regs.status))))
    (entry : Bus.readWord (Bus.writeAll n.bus
        (pushWrites m.regs.sp (interruptFrame m.regs.pc m.regs.status))) vector =
      Bus.readWord (Bus.writeAll m.bus
        (pushWrites m.regs.sp (interruptFrame m.regs.pc m.regs.status))) vector) :
    (m.enterInterrupt vector).Matches related (n.enterInterrupt vector) := by
  refine ⟨rfl, ?_, ?_, ?_, ?_⟩
  · simp only [enterInterrupt_machine, alike.regs, entry]
  · simp only [enterInterrupt_machine, alike.cycles]
  · simp only [enterInterrupt_machine, alike.config]
  · simp only [enterInterrupt_machine, alike.regs]
    exact kept

/-- The charge for an entry is the same. -/
theorem interrupt_matches {vector : Word}
    (entered : (m.enterInterrupt vector).Matches related (n.enterInterrupt vector)) :
    (m.interrupt vector).Matches related (n.interrupt vector) := by
  obtain ⟨result, machine⟩ := entered
  refine ⟨result, machine.regs, ?_, machine.config, machine.bus⟩
  exact congrArg (· + interruptCycles.toUInt64) machine.cycles

end Machine

/-- The same result, from machines that are left alike, unless something was lost. -/
def Outcome.Alike {α : Type} (related : M → N → Prop) (lost : M → Prop) (o : Outcome M α)
    (p : Outcome N α) : Prop :=
  (p.result = o.result ∧ o.machine.Alike related p.machine) ∨ lost o.machine.bus

omit [Bus M] [Bus N] in
theorem Outcome.Alike.map {α β : Type} {related : M → N → Prop} {lost : M → Prop}
    {o : Outcome M α} {p : Outcome N α} (alike : o.Alike related lost p)
    {f : Machine M → α → β} {g : Machine N → α → β}
    (same : ∀ m n answer, Machine.Alike related m n → g n answer = f m answer) :
    (o.map f).Alike related lost (p.map g) := by
  rcases alike with ⟨result, machine⟩ | gone
  · left
    refine ⟨?_, machine⟩
    have agree : g p.machine = f o.machine := funext fun answer => same _ _ answer machine
    rw [Outcome.map, Outcome.map, result, agree]
  · exact Or.inr gone

/-- Related buses read the same. They stay related under the same writes until one of these
loses something, and nothing lost is ever regained. -/
structure Bus.Tracks (related : M → N → Prop) (lost : M → Prop) : Prop where
  sameBytes : ∀ {b c}, related b c → SameBytes b c
  write : ∀ {b c}, related b c → ∀ a value,
    related (Bus.write b a value) (Bus.write c a value) ∨ lost (Bus.write b a value)
  lost_write : ∀ {b}, lost b → ∀ a value, lost (Bus.write b a value)

namespace Bus.Tracks

variable {related : M → N → Prop} {lost : M → Prop}

theorem lost_writeAll (tracks : Tracks related lost) {b : M} (gone : lost b)
    (writes : List (Word × Byte)) : lost (writeAll b writes) := by
  induction writes generalizing b with
  | nil => exact gone
  | cons w rest ih => exact ih (tracks.lost_write gone _ _)

theorem lost_of_reaches (tracks : Tracks related lost) {b d : M} (gone : lost b)
    (reaches : Reaches b d) : lost d := by
  obtain ⟨writes, rfl⟩ := reaches
  exact tracks.lost_writeAll gone writes

theorem writeAll (tracks : Tracks related lost) {b : M} {c : N} (h : related b c)
    (writes : List (Word × Byte)) :
    related (Bus.writeAll b writes) (Bus.writeAll c writes) ∨ lost (Bus.writeAll b writes) := by
  induction writes generalizing b c with
  | nil => exact Or.inl h
  | cons w rest ih =>
    rcases tracks.write h w.1 w.2 with kept | gone
    · exact ih kept
    · exact Or.inr (tracks.lost_writeAll gone rest)

variable [Bytewise M] [Bytewise N]

/-- Machines alike find the same operand. -/
theorem operand (tracks : Tracks related lost) {m : Machine M} {n : Machine N}
    (alike : m.Alike related n) (mode : Mode) : n.operand mode = m.operand mode := by
  have bytes := tracks.sameBytes alike.bus
  exact Machine.operand_of_words alike.regs bytes (fun _ => bytes.readWord _)
    fun _ => bytes.readWord _

theorem step (tracks : Tracks related lost) {m : Machine M} {n : Machine N}
    (alike : m.Alike related n) : m.step.Alike related lost n.step := by
  have bytes := tracks.sameBytes alike.bus
  rcases tracks.writeAll alike.bus m.stepWrites with kept | gone
  · have view : Machine.SameView m n := by
      refine Machine.sameView_of_operand alike bytes (fun _ _ => tracks.operand alike _) ?_
      intro e h brk
      rw [Machine.stepWrites_forceInterrupt h brk, ← Registers.pushWrites_interruptFrame] at kept
      exact (tracks.sameBytes kept).readWord _
    exact Or.inl (view.sameStep.matches alike kept)
  · rw [← m.step_bus] at gone
    exact Or.inr gone

theorem steps (tracks : Tracks related lost) {more : Machine M → Bool} {goes : Machine N → Bool}
    (same : ∀ m n, Machine.Alike related m n → goes n = more m) (fuel : Nat)
    {o : Outcome M Unit} {p : Outcome N Unit} (alike : o.Alike related lost p) :
    (o.steps more fuel).Alike related lost (p.steps goes fuel) := by
  induction fuel generalizing o p with
  | zero => exact alike
  | succ fuel ih =>
    rcases alike with ⟨result, machine⟩ | gone
    · rw [Outcome.steps, Outcome.steps, result, same _ _ machine]
      split
      · apply ih
        obtain ⟨m, answer, events⟩ := o
        obtain ⟨n, other, reports⟩ := p
        obtain rfl : other = answer := result
        cases other with
        | error fault => exact Or.inl ⟨rfl, machine⟩
        | ok answer => exact tracks.step machine
      · exact Or.inl ⟨result, machine⟩
    · exact Or.inr (tracks.lost_of_reaches gone (Outcome.steps_reaches _ _ _))

theorem run (tracks : Tracks related lost) {m : Machine M} {n : Machine N}
    (alike : m.Alike related n) (count : Nat) :
    (m.run count).Alike related lost (n.run count) := by
  refine (tracks.steps ?_ count (Or.inl ⟨rfl, alike⟩)).map ?_
  · exact fun _ _ _ => rfl
  · exact fun _ _ _ _ => rfl

theorem runForCycles (tracks : Tracks related lost) {m : Machine M} {n : Machine N}
    (alike : m.Alike related n) (budget : UInt64) :
    (m.runForCycles budget).Alike related lost (n.runForCycles budget) := by
  have target : n.cycleTarget budget = m.cycleTarget budget := by
    rw [Machine.cycleTarget, Machine.cycleTarget, alike.cycles]
  rw [Machine.runForCycles, Machine.runForCycles, target, alike.cycles]
  refine (tracks.steps ?_ _ (Or.inl ⟨rfl, alike⟩)).map ?_
  · intro m n later
    rw [later.cycles]
  · intro m n _ later
    rw [later.cycles]

theorem enterInterrupt (tracks : Tracks related lost) {m : Machine M} {n : Machine N}
    (alike : m.Alike related n) (vector : Word) :
    (m.enterInterrupt vector).Alike related lost (n.enterInterrupt vector) := by
  rcases tracks.writeAll alike.bus
    (pushWrites m.regs.sp (interruptFrame m.regs.pc m.regs.status)) with kept | gone
  · exact Or.inl (Machine.enterInterrupt_matches alike kept ((tracks.sameBytes kept).readWord _))
  · rw [← m.enterInterrupt_bus vector] at gone
    exact Or.inr gone

theorem interrupt (tracks : Tracks related lost) {m : Machine M} {n : Machine N}
    (alike : m.Alike related n) (vector : Word) :
    (m.interrupt vector).Alike related lost (n.interrupt vector) := by
  rcases tracks.enterInterrupt alike vector with entered | gone
  · exact Or.inl (Machine.interrupt_matches entered)
  · exact Or.inr gone

omit [Bytewise M] [Bytewise N] in
/-- Calls that change the bus by some writes only. -/
theorem done_writeAll (tracks : Tracks related lost) {b : M} {c : N} (h : related b c)
    (writes : List (Word × Byte)) (regs : Registers) (cycles : UInt64) (config : Config)
    (answer : Answer) :
    Outcome.Alike related lost (.done ⟨regs, cycles, config, Bus.writeAll b writes⟩ answer)
      (.done ⟨regs, cycles, config, Bus.writeAll c writes⟩ answer) := by
  rcases tracks.writeAll h writes with kept | gone
  · exact Or.inl ⟨rfl, rfl, rfl, rfl, kept⟩
  · exact Or.inr gone

/-- Every call does the same on machines alike, unless it loses something. -/
theorem perform (tracks : Tracks related lost) {m : Machine M} {n : Machine N}
    (alike : m.Alike related n) (call : HostCall) :
    (m.perform call).Alike related lost (n.perform call) := by
  have byte := tracks.sameBytes alike.bus
  have word := byte.readWord
  obtain ⟨regs, cycles, config, b⟩ := m
  obtain ⟨regs, cycles, config, c⟩ := n
  obtain ⟨rfl, rfl, rfl, bus⟩ := alike
  have start : Machine.Alike related ⟨regs, cycles, config, b⟩ ⟨regs, cycles, config, c⟩ :=
    ⟨rfl, rfl, rfl, bus⟩
  cases call with
  | step => exact (tracks.step start).map fun _ _ _ _ => rfl
  | run count => exact (tracks.run start count).map fun _ _ _ _ => rfl
  | runForCycles budget => exact (tracks.runForCycles start budget).map fun _ _ _ _ => rfl
  | interrupt vector => exact (tracks.interrupt start vector).map fun _ _ _ _ => rfl
  | irqIfEnabled =>
    simp only [Machine.perform, Machine.irqIfEnabled]
    split
    · exact Or.inl ⟨rfl, start⟩
    · exact ((tracks.interrupt start Vectors.irq).map fun _ _ _ _ => rfl).map fun _ _ _ _ => rfl
  | push value => exact tracks.done_writeAll bus [(_, value)] _ _ _ _
  | pushWord value =>
    exact tracks.done_writeAll bus [(_, Word.high value), (_, Word.low value)] _ _ _ _
  | write a value => exact tracks.done_writeAll bus [(a, value)] _ _ _ _
  | load a bytes =>
    simp only [Machine.perform, Machine.withBus, Bus.store_eq]
    exact tracks.done_writeAll bus (storeWrites a bytes) _ _ _ _
  | clear =>
    simp only [Machine.perform, Machine.withBus, Bus.clear_eq_writeAll]
    exact tracks.done_writeAll bus clearWrites _ _ _ _
  | pop =>
    simp only [Machine.perform, Machine.pop_eq, byte _]
    exact Or.inl ⟨rfl, rfl, rfl, rfl, bus⟩
  | popWord =>
    simp only [Machine.perform, Machine.popWord_eq, byte _]
    exact Or.inl ⟨rfl, rfl, rfl, rfl, bus⟩
  | read a =>
    simp only [Machine.perform, byte _]
    exact Or.inl ⟨rfl, start⟩
  | readWord a =>
    simp only [Machine.perform, word]
    exact Or.inl ⟨rfl, start⟩
  | _ => exact Or.inl ⟨rfl, rfl, rfl, rfl, bus⟩

/-- A whole history of calls. -/
theorem performAll (tracks : Tracks related lost) {m : Machine M} {n : Machine N}
    (alike : m.Alike related n) (calls : List HostCall) :
    (n.answers calls = m.answers calls ∧
        (m.performAll calls).Alike related (n.performAll calls)) ∨
      lost (m.performAll calls).bus := by
  induction calls generalizing m n with
  | nil => exact Or.inl ⟨rfl, alike⟩
  | cons call calls ih =>
    rw [Machine.answers, Machine.answers, Machine.performAll_cons, Machine.performAll_cons]
    rcases tracks.perform alike call with ⟨result, machine⟩ | gone
    · rcases ih machine with ⟨answers, later⟩ | gone
      · rw [result, answers]
        exact Or.inl ⟨rfl, later⟩
      · exact Or.inr gone
    · exact Or.inr (tracks.lost_of_reaches gone (Machine.performAll_reaches _ _))

end Bus.Tracks

end Core6502
