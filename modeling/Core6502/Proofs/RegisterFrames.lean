import Core6502.Proofs.Histories
import Core6502.Proofs.StackTop
import Core6502.Proofs.StepCost

/-!
# What a step leaves in the registers

Every instruction has a scope: the registers and flags that it may change. All others are as before
after a step, on any bus, apart from the program counter. The stack pointer moves by as many bytes
as are pushed or popped. Interrupts change the stack pointer and one flag. The options of the
machine stay what they were at power on.
-/

namespace Core6502

universe u

def Flag.all : List Flag :=
  [.negative, .overflow, .unused, .brk, .decimal, .interruptDisable, .zero, .carry]

theorem Flag.mem_all (f : Flag) : f ∈ Flag.all := by
  cases f <;> decide

structure Scope where
  registers : List ByteRegister
  flags : List Flag
  deriving DecidableEq

/-- What an instruction may change. A shift changes the accumulator only if it is its operand. -/
def Instruction.scope (mode : Mode) : Instruction → Scope
  | .adc | .sbc => ⟨[.a], [.negative, .overflow, .zero, .carry]⟩
  | .and | .ora | .eor | .lda | .txa | .tya => ⟨[.a], [.negative, .zero]⟩
  | .cmp | .cpx | .cpy => ⟨[], [.negative, .zero, .carry]⟩
  | .bit => ⟨[], [.negative, .overflow, .zero]⟩
  | .asl | .lsr | .rol | .ror =>
    ⟨if mode = .accumulator then [.a] else [], [.negative, .zero, .carry]⟩
  | .inc | .dec => ⟨[], [.negative, .zero]⟩
  | .ldx | .inx | .dex | .tax | .tsx => ⟨[.x], [.negative, .zero]⟩
  | .ldy | .iny | .dey | .tay => ⟨[.y], [.negative, .zero]⟩
  | .txs => ⟨[.sp], [.negative, .zero]⟩
  | .sta | .stx | .sty | .jmp | .nop
  | .bcc | .bcs | .beq | .bmi | .bne | .bpl | .bvc | .bvs => ⟨[], []⟩
  | .pha | .php | .jsr | .rts => ⟨[.sp], []⟩
  | .pla => ⟨[.sp, .a], [.negative, .zero]⟩
  | .plp | .rti => ⟨[.sp], Flag.all⟩
  | .brk => ⟨[.sp], [.interruptDisable]⟩
  | .clc | .sec => ⟨[], [.carry]⟩
  | .cli | .sei => ⟨[], [.interruptDisable]⟩
  | .cld | .sed => ⟨[], [.decimal]⟩
  | .clv => ⟨[], [.overflow]⟩

def Instruction.spChange : Instruction → Byte
  | .pha | .php => -1
  | .pla | .plp => 1
  | .jsr => -2
  | .rts => 2
  | .brk => -3
  | .rti => 3
  | _ => 0

namespace Registers

structure Within (before after : Registers) (scope : Scope) : Prop where
  register : ∀ r, r ∉ scope.registers → after.get r = before.get r
  flag : ∀ f, f ∉ scope.flags → after.status.get f = before.status.get f

namespace Within

variable {before between after : Registers} {first second : Scope} {flags : List Flag}

theorem andThen (h : before.Within between first) (h' : between.Within after second) :
    before.Within after ⟨first.registers ++ second.registers, first.flags ++ second.flags⟩ where
  register r hr := by
    obtain ⟨notFirst, notSecond⟩ := not_or.mp (mt List.mem_append.mpr hr)
    exact (h'.register r notSecond).trans (h.register r notFirst)
  flag f hf := by
    obtain ⟨notFirst, notSecond⟩ := not_or.mp (mt List.mem_append.mpr hf)
    exact (h'.flag f notSecond).trans (h.flag f notFirst)

theorem mono (h : before.Within after first) (registers : first.registers ⊆ second.registers)
    (flags : first.flags ⊆ second.flags) : before.Within after second where
  register r hr := h.register r fun mem => hr (registers mem)
  flag f hf := h.flag f fun mem => hf (flags mem)

/-- The program counter is in no scope. -/
theorem of_pc (same : ∀ r, after.get r = before.get r) (status : after.status = before.status) :
    before.Within after ⟨[], []⟩ where
  register r _ := same r
  flag f _ := by rw [status]

theorem of_sp (a : after.a = before.a) (x : after.x = before.x) (y : after.y = before.y)
    (flag : ∀ f, f ∉ flags → after.status.get f = before.status.get f) :
    before.Within after ⟨[.sp], flags⟩ where
  register r hr := by
    cases r with
    | a => exact a
    | x => exact x
    | y => exact y
    | sp => exact absurd (List.mem_singleton_self _) hr
  flag := flag

end Within

variable (r : Registers)

theorem within_set (register : ByteRegister) (value : Byte) :
    r.Within (r.set register value) ⟨[register], []⟩ where
  register q hq := by
    have other : register ≠ q := fun same => hq (List.mem_singleton.mpr same.symm)
    rw [get_set, if_neg other]
  flag f _ := by cases register <;> rfl

theorem within_setFlag (flag : Flag) (value : Bool) :
    r.Within (r.setFlag flag value) ⟨[], [flag]⟩ where
  register q _ := by cases q <;> rfl
  flag f hf := by
    have other : flag ≠ f := fun same => hf (List.mem_singleton.mpr same.symm)
    rw [setFlag, Status.get_set, if_neg other]

theorem within_withResult (result : Byte) :
    r.Within (r.withResult result) ⟨[], [.negative, .zero]⟩ where
  register q _ := by cases q <;> rfl
  flag f hf := by
    cases f with
    | negative | zero => exact absurd (by decide) hf
    | _ => rfl

theorem within_bitTest (value : Byte) :
    r.Within (r.bitTest value) ⟨[], [.negative, .overflow, .zero]⟩ where
  register q _ := by cases q <;> rfl
  flag f hf := by
    cases f with
    | negative | overflow | zero => exact absurd (by decide) hf
    | _ => rfl

theorem load_eq (register : ByteRegister) (value : Byte) :
    r.load register value = (r.withResult value).set register value := by
  cases register <;> rfl

theorem within_load (register : ByteRegister) (value : Byte) :
    r.Within (r.load register value) ⟨[register], [.negative, .zero]⟩ := by
  rw [load_eq]
  exact (r.within_withResult value).andThen (within_set _ register value)

theorem within_compare (left right : Byte) :
    r.Within (r.compare left right) ⟨[], [.negative, .zero, .carry]⟩ :=
  ((r.within_setFlag .carry _).andThen (within_withResult _ _)).mono (by simp) (by simp)

theorem within_accumulate (sum : Sum) :
    r.Within (r.accumulate sum) ⟨[.a], [.negative, .overflow, .zero, .carry]⟩ := by
  have carry := r.within_setFlag .carry sum.carry
  have overflow := (r.setFlag .carry sum.carry).within_setFlag .overflow sum.overflow
  have load := within_load ((r.setFlag .carry sum.carry).setFlag .overflow sum.overflow) .a
    sum.result
  exact ((carry.andThen overflow).andThen load).mono (by simp) (by simp)

end Registers

def Transform.flags : Transform → List Flag
  | .increment | .decrement => [.negative, .zero]
  | .shiftLeft | .shiftRight | .rotateLeft | .rotateRight => [.negative, .zero, .carry]

/-- What a transform does to the flags. -/
theorem Registers.within_transform (r : Registers) (transform : Transform) (value : Byte) :
    r.Within ((r.setFlag .carry (transform.apply r.status.carry value).2).withResult
      (transform.apply r.status.carry value).1) ⟨[], transform.flags⟩ := by
  cases transform with
  | increment | decrement => exact r.within_withResult _
  | shiftLeft | shiftRight | rotateLeft | rotateRight =>
    exact ((r.within_setFlag .carry _).andThen (within_withResult _ _)).mono (by simp)
      (by simp [Transform.flags])

def Operation.scope (mode : Mode) : Operation → Scope
  | .add | .subtract => ⟨[.a], [.negative, .overflow, .zero, .carry]⟩
  | .logic _ => ⟨[.a], [.negative, .zero]⟩
  | .compare _ => ⟨[], [.negative, .zero, .carry]⟩
  | .bitTest => ⟨[], [.negative, .overflow, .zero]⟩
  | .modify transform => ⟨if mode = .accumulator then [.a] else [], transform.flags⟩
  | .adjust register transform => ⟨[register], transform.flags⟩
  | .load register | .transfer _ register => ⟨[register], [.negative, .zero]⟩
  | .assign flag _ => ⟨[], [flag]⟩
  | .store _ | .branch .. | .jump | .idle => ⟨[], []⟩
  | .call | .returnFromCall | .pushAccumulator | .pushStatus => ⟨[.sp], []⟩
  | .forceInterrupt => ⟨[.sp], [.interruptDisable]⟩
  | .returnFromInterrupt | .pullStatus => ⟨[.sp], Flag.all⟩
  | .pullAccumulator => ⟨[.sp, .a], [.negative, .zero]⟩

theorem Instruction.scope_eq {i : Instruction} {mode : Mode}
    (suits : i.operation.accepts mode = true) : i.operation.scope mode = i.scope mode := by
  cases i with
  | inc | dec =>
    have memory : mode ≠ .accumulator := by
      rintro rfl
      cases suits
    simp only [Instruction.operation, Operation.scope, if_neg memory]
    rfl
  | _ => rfl

theorem Instruction.spChange_eq (i : Instruction) : i.operation.spChange = i.spChange := by
  cases i <;> rfl

theorem Instruction.assignsSp_eq_false {i : Instruction} (other : i ≠ .txs) :
    i.operation.assignsSp = false := by
  cases i with
  | txs => exact absurd rfl other
  | _ => rfl

namespace Machine

variable {M : Type u} [Bus M]

theorem operand_target_accumulator {m : Machine M} {mode : Mode}
    (h : (m.operand mode).target = .accumulator) : mode = .accumulator := by
  cases mode with
  | accumulator => rfl
  | _ => cases h

theorem enterInterrupt_within (m : Machine M) (vector : Word) :
    m.regs.Within (m.enterInterrupt vector).machine.regs ⟨[.sp], [.interruptDisable]⟩ := by
  rw [enterInterrupt_machine]
  exact .of_sp rfl rfl rfl (m.regs.within_setFlag .interruptDisable true).flag

/-- An operation keeps to its scope. -/
theorem execute_within (m : Machine M) {operation : Operation} {operand : Operand} {mode : Mode}
    (suits : operation.accepts mode = true)
    (shifts : operand.target = .accumulator → mode = .accumulator) :
    m.regs.Within (m.execute operation operand).machine.regs (operation.scope mode) := by
  obtain ⟨value, target, length⟩ := operand
  cases operation with
  | add | subtract => exact m.regs.within_accumulate _
  | logic function => exact m.regs.within_load .a _
  | compare register => exact m.regs.within_compare _ _
  | bitTest => exact m.regs.within_bitTest _
  | modify transform =>
    have flags := m.regs.within_transform transform value
    rw [Operation.scope]
    cases target with
    | accumulator =>
      rw [if_pos (shifts rfl)]
      exact (flags.andThen (Registers.within_set _ .a _)).mono (by simp) (by simp)
    | nowhere | memory => exact flags.mono (by simp) (by simp)
  | adjust register transform =>
    have flags := m.regs.within_transform transform (m.regs.get register)
    rw [Operation.scope]
    simp only [execute, Outcome.done, withRegs, Registers.load_eq]
    exact (flags.andThen (Registers.within_set _ register _)).mono (by simp) (by simp)
  | load register => exact m.regs.within_load register _
  | store register =>
    cases target with
    | accumulator =>
      obtain rfl := shifts rfl
      cases suits
    | nowhere | memory => exact .of_pc (fun _ => rfl) rfl
  | transfer source destination => exact m.regs.within_load destination _
  | assign flag value => exact m.regs.within_setFlag flag value
  | branch flag wanted =>
    cases target with
    | memory address =>
      simp only [execute, Operand.address?]
      split <;> exact .of_pc (fun r => by cases r <;> rfl) rfl
    | accumulator | nowhere => exact .of_pc (fun _ => rfl) rfl
  | jump => cases target <;> exact .of_pc (fun r => by cases r <;> rfl) rfl
  | call => cases target <;> exact .of_sp rfl rfl rfl fun _ _ => rfl
  | returnFromCall | pushAccumulator | pushStatus => exact .of_sp rfl rfl rfl fun _ _ => rfl
  | forceInterrupt =>
    have moved : m.regs.Within (m.jumpTo (m.regs.pc + 1)).regs ⟨[], []⟩ :=
      .of_pc (fun r => by cases r <;> rfl) rfl
    exact moved.andThen (enterInterrupt_within _ _)
  | returnFromInterrupt =>
    rw [execute_returnFromInterrupt]
    exact .of_sp rfl rfl rfl fun f hf => absurd f.mem_all hf
  | pullStatus =>
    rw [execute_pullStatus]
    exact .of_sp rfl rfl rfl fun f hf => absurd f.mem_all hf
  | pullAccumulator =>
    have popped : m.regs.Within { m.regs with sp := m.regs.sp + 1 } ⟨[.sp], []⟩ :=
      .of_sp rfl rfl rfl fun _ _ => rfl
    rw [execute_pullAccumulator]
    exact popped.andThen (Registers.within_load _ .a _)
  | idle => exact .of_pc (fun _ => rfl) rfl

theorem step_within {m : Machine M} {e : Encoding} (h : m.encoding? = some e) :
    m.regs.Within m.step.machine.regs (e.instruction.scope e.mode) := by
  have suits := accepts_of_encoding h
  rw [step_of_encoding h, ← Instruction.scope_eq suits]
  have moved : m.regs.Within (m.advance (m.operand e.mode) e).regs ⟨[], []⟩ :=
    .of_pc (fun r => by cases r <;> rfl) rfl
  exact moved.andThen (execute_within _ suits operand_target_accumulator)

theorem afterSteps_config (m : Machine M) (count : Nat) :
    (m.afterSteps count).config = m.config := by
  induction count generalizing m with
  | zero => rfl
  | succ count ih => exact (ih m.step.machine).trans m.step_config

theorem perform_config (m : Machine M) (call : HostCall) :
    (m.perform call).machine.config = m.config := by
  cases call with
  | step => exact m.step_config
  | run count =>
    have machine := steps_machine (fun _ => true) count m
    exact (congrArg Machine.config machine).trans (m.afterSteps_config _)
  | runForCycles budget =>
    have machine := steps_machine (fun n => n.cycles < m.cycleTarget budget)
      ((m.cycleTarget budget).toNat - m.cycles.toNat) m
    exact (congrArg Machine.config machine).trans (m.afterSteps_config _)
  | irqIfEnabled =>
    rw [perform_irqIfEnabled]
    split <;> rfl
  | _ => rfl

theorem performAll_config (m : Machine M) (calls : List HostCall) :
    (m.performAll calls).config = m.config := by
  induction calls generalizing m with
  | nil => rfl
  | cons call calls ih => exact (ih (m.perform call).machine).trans (m.perform_config call)

/-- A step keeps to the scope of its instruction and moves the stack pointer by what it pops or
pushes, unless it assigns to it. An interrupt pushes three bytes and disables requests, and a
request that is masked does nothing. Whatever the host calls for, the options stay. -/
theorem registers_framed (m : Machine M) :
    (∀ e, m.encoding? = some e →
      m.step.result = .ok () ∧
      m.regs.Within m.step.machine.regs (e.instruction.scope e.mode) ∧
      (e.instruction ≠ .txs →
        m.step.machine.regs.sp = m.regs.sp + e.instruction.spChange)) ∧
    (∀ vector,
      m.regs.Within (m.perform (.interrupt vector)).machine.regs ⟨[.sp], [.interruptDisable]⟩ ∧
      (m.perform (.interrupt vector)).machine.regs.sp = m.regs.sp - 3) ∧
    (m.perform .irqIfEnabled).machine =
      (if m.regs.status.interruptDisable then m else (m.perform .irq).machine) ∧
    ∀ calls, (m.performAll calls).config = m.config := by
  refine ⟨?_, ?_, ?_, m.performAll_config⟩
  · intro e h
    refine ⟨step_ok_of_encoding h, step_within h, ?_⟩
    intro other
    rw [step_sp h (Instruction.assignsSp_eq_false other), Instruction.spChange_eq]
  · intro vector
    refine ⟨m.enterInterrupt_within vector, ?_⟩
    exact congrArg (fun n : Machine M => n.regs.sp) (m.enterInterrupt_machine vector)
  · rw [perform_irqIfEnabled]
    split <;> rfl

/-- A software interrupt with the stack pointer near its lower end. -/
def interrupting : Machine Memory where
  regs := { a := 0x42, sp := 0x01, pc := 0x8000, status := { decimal := true, carry := true } }
  cycles := 0
  config := {}
  bus := Memory.zeroed

/-- The stack pointer wraps, and the accumulator and the other flags stay. -/
theorem registers_framed_interrupting :
    interrupting.encoding? = some ⟨.brk, .implied, 7⟩ ∧
    interrupting.step.machine.regs.sp = 0xFE ∧
    interrupting.step.machine.regs.a = 0x42 ∧
    interrupting.step.machine.regs.status.decimal = true ∧
    interrupting.step.machine.regs.status.carry = true := by
  have encoding : interrupting.encoding? = some ⟨.brk, .implied, 7⟩ := by decide +kernel
  obtain ⟨_, within, sp⟩ := interrupting.registers_framed.1 _ encoding
  have kept (flag : Flag) (other : flag ≠ .interruptDisable) :
      interrupting.step.machine.regs.status.get flag = interrupting.regs.status.get flag :=
    within.flag flag (by simpa [Instruction.scope] using other)
  refine ⟨encoding, (sp (by decide)).trans rfl, within.register .a (by decide), ?_, ?_⟩
  · exact kept .decimal (by decide)
  · exact kept .carry (by decide)

end Machine

end Core6502
