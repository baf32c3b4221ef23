import Core6502.Proofs.Histories

/-!
# The log

What the machine reports along a history, line by line. Each step that succeeds leaves a line with
the registers before it, and a second one if it forces an interrupt; a step that fails leaves a
warning, and an interrupt of the host's a line of its own. Nothing else is reported. Numbers are
written with fixed widths and each level has its own first letter, so a line tells which event it
is, and the log which instructions were executed on which registers.
-/

namespace Core6502

universe u v

/-- Texts of the same length in the same place are equal. -/
theorem append_inj_left {s s' t t' : String} (length : s.length = s'.length)
    (h : s ++ t = s' ++ t') : s = s' ∧ t = t' := by
  have chars := congrArg String.toList h
  rw [String.toList_append, String.toList_append] at chars
  obtain ⟨front, back⟩ := List.append_inj chars (by simpa only [String.length_toList] using length)
  exact ⟨String.toList_inj.mp front, String.toList_inj.mp back⟩

theorem append_inj_right {s s' t t' : String} (length : t.length = t'.length)
    (h : s ++ t = s' ++ t') : s = s' ∧ t = t' := by
  have chars := congrArg String.toList h
  rw [String.toList_append, String.toList_append] at chars
  obtain ⟨front, back⟩ := List.append_inj' chars (by simpa only [String.length_toList] using length)
  exact ⟨String.toList_inj.mp front, String.toList_inj.mp back⟩

namespace Hex

@[simp]
theorem length_byte (b : Byte) : (byte b).length = 2 := by
  simp [byte]

@[simp]
theorem length_word (w : Word) : (word w).length = 4 := by
  simp [word]

end Hex

/-- A byte at the end of a text, after a label. -/
theorem field_inj {front front' label : String} {b c : Byte}
    (h : front ++ label ++ Hex.byte b = front' ++ label ++ Hex.byte c) : front = front' ∧ b = c := by
  obtain ⟨before, digits⟩ := append_inj_right (by simp) h
  exact ⟨(append_inj_right rfl before).1, Hex.byte_inj digits⟩

namespace Registers

@[simp]
theorem length_text (r : Registers) : r.text.length = 33 := by
  delta text
  simp only [String.length_append, Hex.length_byte, Hex.length_word]
  rfl

/-- The text of a register file shows all of it: each field has a text of fixed width behind its
label. -/
theorem text_inj {r s : Registers} (h : r.text = s.text) : r = s := by
  obtain ⟨h, status⟩ := field_inj h
  obtain ⟨h, sp⟩ := field_inj h
  obtain ⟨h, y⟩ := field_inj h
  obtain ⟨h, x⟩ := field_inj h
  obtain ⟨h, a⟩ := field_inj h
  have pc := Hex.word_inj (append_inj_left rfl h).2
  have flags := Status.toByte_inj.mp status
  cases r
  cases s
  cases pc
  cases a
  cases x
  cases y
  cases sp
  cases flags
  rfl

end Registers

namespace Event

def Sound : Event → Prop
  | executing opcode encoding _ => Opcode.decode opcode = some encoding
  | interrupt .. | illegalOpcode .. => True

def letter : Event → Char
  | executing .. => 'T'
  | interrupt .. => 'D'
  | illegalOpcode .. => 'W'

theorem head_line (e : Event) : e.line.toList.head? = some e.letter := by
  cases e <;> rw [line, level, String.toList_append, String.toList_append] <;> rfl

/-- A line of an instruction shows its opcode and all registers, whatever the width of the
encoding between them. -/
theorem executing_inj {b c : Byte} {d e : Encoding} {r s : Registers}
    (h : (executing b d r).line = (executing c e s).line) : b = c ∧ r = s := by
  have message := (String.append_right_inj ("TRACE" ++ " ")).mp h
  obtain ⟨front, regs⟩ := append_inj_right (by simp) message
  simp only [String.append_assoc] at front
  have opcode := (String.append_right_inj "  ").mp (append_inj_left (by simp) front).2
  exact ⟨Hex.byte_inj (append_inj_left (by simp) opcode).1, Registers.text_inj regs⟩

theorem interrupt_inj {v w p q : Word} (h : (interrupt v p).line = (interrupt w q).line) :
    v = w ∧ p = q := by
  have message := (String.append_right_inj ("DEBUG" ++ " ")).mp h
  obtain ⟨front, pc⟩ := append_inj_right (by simp) message
  have vector := (String.append_right_inj _).mp ((String.append_left_inj _).mp front)
  exact ⟨Hex.word_inj vector, Hex.word_inj pc⟩

theorem illegalOpcode_inj {b c : Byte} {p q : Word}
    (h : (illegalOpcode b p).line = (illegalOpcode c q).line) : b = c ∧ p = q := by
  have message := (String.append_right_inj ("WARN" ++ " ")).mp h
  obtain ⟨front, pc⟩ := append_inj_right (by simp) message
  have opcode := (String.append_right_inj _).mp ((String.append_left_inj _).mp front)
  exact ⟨Hex.byte_inj opcode, Hex.word_inj pc⟩

/-- A line tells which event it reports. -/
theorem line_inj {d e : Event} (hd : d.Sound) (he : e.Sound) (h : d.line = e.line) : d = e := by
  have letters : some d.letter = some e.letter := by
    rw [← head_line, ← head_line, h]
  cases d with
  | executing b f r =>
    cases e with
    | executing c g s =>
      obtain ⟨rfl, rfl⟩ := executing_inj h
      have same : some f = some g := hd.symm.trans he
      cases same
      rfl
    | interrupt | illegalOpcode => cases letters
  | interrupt v p =>
    cases e with
    | interrupt w q =>
      obtain ⟨rfl, rfl⟩ := interrupt_inj h
      rfl
    | executing | illegalOpcode => cases letters
  | illegalOpcode b p =>
    cases e with
    | illegalOpcode c q =>
      obtain ⟨rfl, rfl⟩ := illegalOpcode_inj h
      rfl
    | executing | interrupt => cases letters

theorem lines_inj {ds es : List Event} (hd : ∀ d ∈ ds, d.Sound) (he : ∀ e ∈ es, e.Sound)
    (h : ds.map line = es.map line) : ds = es := by
  induction ds generalizing es with
  | nil => exact (List.map_eq_nil_iff.mp h.symm).symm
  | cons d ds ih =>
    cases es with
    | nil => cases h
    | cons e es =>
      obtain ⟨first, rest⟩ := List.cons.inj h
      rw [line_inj (hd d List.mem_cons_self) (he e List.mem_cons_self) first,
        ih (fun x hx => hd x (List.mem_cons_of_mem d hx))
          (fun x hx => he x (List.mem_cons_of_mem e hx)) rest]

end Event

variable {M : Type u} {N : Type v} [Bus M] [Bus N]

/-- What a step should report. -/
def Machine.stepEvents (m : Machine M) : List Event :=
  match m.encoding? with
  | some e =>
    .executing (Bus.read m.bus m.regs.pc) e m.regs ::
      if e.instruction = .brk then [.interrupt m.config.brkVector.address (m.regs.pc + 2)] else []
  | none => [.illegalOpcode (Bus.read m.bus m.regs.pc) m.regs.pc]

def Moment.events (x : Moment M) : List Event :=
  match x.act with
  | .call .step => x.machine.stepEvents
  | .call (.interrupt vector) => [.interrupt vector x.machine.regs.pc]
  | .call .irqIfEnabled =>
    if x.machine.regs.status.interruptDisable then []
    else [.interrupt Vectors.irq x.machine.regs.pc]
  | _ => []

/-- Encodings that are reported are those of their opcodes. -/
theorem Machine.sound_of_mem_stepEvents {m : Machine M} {event : Event}
    (h : event ∈ m.stepEvents) : event.Sound := by
  rw [stepEvents] at h
  split at h
  · rename_i e decoded
    rcases List.mem_cons.mp h with rfl | h
    · exact decoded
    · split at h
      · rw [List.mem_singleton.mp h]
        trivial
      · cases h
  · rw [List.mem_singleton.mp h]
    trivial

theorem Moment.sound_of_mem_events {x : Moment M} {event : Event} (h : event ∈ x.events) :
    event.Sound := by
  rw [events] at h
  split at h
  · exact Machine.sound_of_mem_stepEvents h
  · rw [List.mem_singleton.mp h]
    trivial
  · split at h
    · cases h
    · rw [List.mem_singleton.mp h]
      trivial
  · cases h

namespace Machine

/-- What an act reports. The host's changes to the bus are not reported. -/
def emitted (m : Machine M) : HostAct M → List Event
  | .call call => (m.perform call).events.toList
  | .alter _ => []

def log (m : Machine M) : List (HostAct M) → List String
  | [] => []
  | a :: acts => (m.emitted a).map Event.line ++ (m.act a).log acts

/-- Only a forced interrupt reports anything while it is executed. -/
theorem execute_events (m : Machine M) (operation : Operation) (operand : Operand) :
    (m.execute operation operand).events =
      if operation = .forceInterrupt then
        #[.interrupt m.config.brkVector.address (m.regs.pc + 1)]
      else #[] := by
  obtain ⟨value, target, length⟩ := operand
  cases operation with
  | branch flag wanted =>
    cases target with
    | memory address =>
      simp only [execute, Operand.address?]
      split <;> rfl
    | accumulator | nowhere => rfl
  | jump => cases target <;> rfl
  | call => cases target <;> rfl
  | _ => rfl

theorem step_events (m : Machine M) : m.step.events.toList = m.stepEvents := by
  cases h : m.encoding? with
  | none =>
    rw [step_of_illegal h]
    simp only [stepEvents, h]
  | some e =>
    have brk := Instruction.operation_eq_forceInterrupt_iff (i := e.instruction)
    rw [step_of_encoding h]
    simp only [Outcome.after, execute_events, stepEvents, h, brk]
    by_cases forced : e.instruction = .brk
    · have saved := saved_of_forceInterrupt h (brk.mpr forced)
      rw [if_pos forced, if_pos forced, saved]
      rfl
    · rw [if_neg forced, if_neg forced]
      rfl

/-- A loop reports what the steps that it begins report. -/
theorem steps_events (more : Machine M → Bool) (fuel : Nat) (m : Machine M) :
    ((Outcome.done m ()).steps more fuel).events.toList =
      (m.meet (List.replicate (stepsBegun more fuel m) (.call .step))).flatMap Moment.events := by
  induction fuel generalizing m with
  | zero => rfl
  | succ fuel ih =>
    rw [Outcome.steps_done_succ, stepsBegun]
    by_cases going : more m = true
    · cases result : m.step.result with
      | error fault =>
        simp only [going, if_true, Outcome.bind_of_error result]
        exact (step_events m).trans (List.append_nil _).symm
      | ok answer =>
        simp only [going, if_true, Outcome.bind_of_ok result]
        rw [Outcome.after, Array.toList_append, step_events, ih]
        rfl
    · simp only [going]
      rfl

theorem emitted_eq (m : Machine M) (a : HostAct M) :
    m.emitted a = (m.meet (m.unroll a)).flatMap Moment.events := by
  cases a with
  | alter change => rfl
  | call call =>
    cases call with
    | run count => exact steps_events _ _ m
    | runForCycles budget => exact steps_events _ _ m
    | step => exact (step_events m).trans (List.append_nil _).symm
    | irqIfEnabled =>
      rw [emitted, perform_irqIfEnabled]
      change _ = Moment.events ⟨m, .call .irqIfEnabled⟩ ++ []
      rw [List.append_nil, Moment.events]
      cases m.regs.status.interruptDisable <;> rfl
    | _ => rfl

theorem log_eq (m : Machine M) (acts : List (HostAct M)) :
    m.log acts = (m.moments acts).flatMap fun x => x.events.map Event.line := by
  induction acts generalizing m with
  | nil => rfl
  | cons a acts ih =>
    rw [log, emitted_eq, ih, moments, List.flatMap_append, List.map_flatMap]

theorem sound_of_mem_moments {m : Machine M} {acts : List (HostAct M)} :
    ∀ event ∈ (m.moments acts).flatMap Moment.events, event.Sound := by
  intro event h
  obtain ⟨x, _, reported⟩ := List.mem_flatMap.mp h
  exact Moment.sound_of_mem_events reported

/-- The log has a line for each instruction executed, with the registers before it, a line for
each interrupt, forced or by the host, with its vector and the address to return to, a warning for
each step that fails, and no other line. Equal logs, of any machines, report the same events. In
particular the line of an instruction tells its opcode and all registers and flags before it. -/
theorem log_faithful (m : Machine M) (acts : List (HostAct M)) :
    m.log acts = ((m.moments acts).flatMap fun x => x.events.map Event.line) ∧
    (∀ (n : Machine N) (others : List (HostAct N)), n.log others = m.log acts →
      (n.moments others).flatMap Moment.events = (m.moments acts).flatMap Moment.events) ∧
    (∀ (b c : Byte) (d e : Encoding) (r s : Registers),
      (Event.executing b d r).line = (Event.executing c e s).line → b = c ∧ r = s) ∧
    ∀ r s : Registers, r.text = s.text → r = s := by
  refine ⟨m.log_eq acts, ?_, fun _ _ _ _ _ _ => Event.executing_inj, fun _ _ => Registers.text_inj⟩
  intro n others same
  rw [log_eq, log_eq, ← List.map_flatMap, ← List.map_flatMap] at same
  exact Event.lines_inj sound_of_mem_moments sound_of_mem_moments same

/-- A forced interrupt at the end of memory that leads to an illegal opcode. -/
def reporting : Machine Memory :=
  powerOn (Bus.store Memory.zeroed 0xFFFA [0xFA, 0xFF]) { initialPc := 0xFFFE }

/-- A run that fails, a request while requests are disabled, and an interrupt, with the same log as
the steps one by one, between which the host writes to memory. -/
theorem log_faithful_reporting :
    let run : List (HostAct Memory) :=
      [.call (.run 3), .call .irqIfEnabled, .call HostCall.nmi]
    let steps : List (HostAct Memory) :=
      [.call .step, .call (.write 0x10 0x01), .call .step, .call HostCall.nmi]
    ((reporting.moments run).flatMap fun x => x.events.map Event.line) =
      ["TRACE FFFE  00  BRK Implied  PC:FFFE A:00 X:00 Y:00 SP:FD P:20",
        "DEBUG interrupt via 0xFFFA from PC=0x0000",
        "WARN illegal opcode 0xFA at 0xFFFA",
        "DEBUG interrupt via 0xFFFA from PC=0xFFFA"] ∧
    reporting.log steps = reporting.log run ∧
    (reporting.moments steps).flatMap Moment.events =
      (reporting.moments run).flatMap Moment.events := by
  intro run steps
  obtain ⟨lines, events, _⟩ := log_faithful (N := Memory) reporting run
  have same : reporting.log steps = reporting.log run := by decide +kernel
  exact ⟨lines.symm.trans (by decide +kernel), same, events reporting steps same⟩

end Machine

end Core6502
