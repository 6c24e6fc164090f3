import Breadboard.Host.Silent
import Breadboard.Proofs.Machine.Execution

namespace Breadboard

def Flag.isSetIn (f : Flag) (b : UInt8) : Bool :=
  b.toNat.testBit f.bit

namespace Status

variable {p : Status}

private theorem isSetIn_eq_get_ofByte (f : Flag) (b : UInt8) :
    f.isSetIn b = (ofByte b).get f := by
  cases f <;> rfl

@[simp] theorem isSetIn_toByte (p : Status) (f : Flag) :
    f.isSetIn p.toByte = p.get f := by
  rw [isSetIn_eq_get_ofByte, ofByte_toByte]

private theorem get_pushed (p : Status) (f : Flag) :
    p.pushed.get f = if f = .brk ∨ f = .unused then true else p.get f := by
  cases f <;> rfl

structure Live (p : Status) : Prop where
  unused : p.unused = true
  brk : p.brk = false

private theorem live_reset : reset.Live :=
  ⟨rfl, rfl⟩

private theorem live_pulled (b : UInt8) : (pulled b).Live :=
  ⟨rfl, rfl⟩

private theorem Live.setCarry (h : p.Live) (on : Bool) : (p.set .carry on).Live :=
  ⟨h.unused, h.brk⟩

theorem Live.add (h : p.Live) (decimal : Bool) (a v : UInt8) :
    (p.add decimal a v).2.Live := by
  unfold Status.add
  dsimp only
  split
  · exact ⟨h.unused, h.brk⟩
  · exact ⟨h.unused, h.brk⟩

theorem Live.sub (h : p.Live) (decimal : Bool) (a v : UInt8) :
    (p.sub decimal a v).2.Live := by
  unfold Status.sub
  dsimp only
  split
  · exact ⟨h.unused, h.brk⟩
  · exact ⟨h.unused, h.brk⟩

end Status

namespace Operation

variable {op : Operation} {s : Settings} {o : Operand} {base : UInt16} {r : Registers}
    {m : Memory} {effect : Effect}

private theorem live_of_branch (h : op.branch s o r = some effect) (hr : r.status.Live) :
    effect.registers.status.Live := by
  unfold branch at h
  split at h
  · cases o with
    | address a =>
        cases h
        exact hr
    | _ => cases h
  · cases h
    exact hr

private theorem live_of_perform (h : op.perform s o base r m = some effect)
    (hr : r.status.Live) :
    effect.registers.status.Live := by
  cases op with
  | PLP | RTI =>
      cases h
      exact Status.live_pulled _
  | ADC =>
      cases o <;> first
        | (cases h; exact hr.add _ _ _)
        | cases h
  | SBC =>
      cases o <;> first
        | (cases h; exact hr.sub _ _ _)
        | cases h
  | BCC | BCS | BEQ | BMI | BNE | BPL | BVC | BVS => exact live_of_branch h hr
  | _ => first
    | (cases h; exact ⟨hr.unused, hr.brk⟩)
    | (cases o <;> first | (cases h; exact ⟨hr.unused, hr.brk⟩) | cases h)

end Operation

private theorem OpcodeEntry.exists_perform_of_effect? {e : OpcodeEntry} {s : Settings}
    {r : Registers} {m : Memory} {effect : Effect} (h : e.effect? s r m = some effect) :
    ∃ o performed, e.op.perform s o r.pc (r.jump (r.pc + e.size.toUInt16)) m =
      some performed ∧
      effect.registers = performed.registers ∧ effect.writes = performed.writes := by
  unfold effect? at h
  obtain ⟨performed, hperform, heffect⟩ := Option.bind_eq_some_iff.1 h
  cases heffect
  exact ⟨_, performed, hperform, rfl, rfl⟩

namespace Machine

variable {δ : Type} {m m' : Machine δ}

private theorem executeInstruction_cases (m : Machine δ) :
    (∃ e, m.executeInstruction = m.failed e) ∨
      ∃ e effect, opcodes.decode? (m.memory.get m.registers.pc) = some e ∧
        e.effect? m.settings m.registers m.memory = some effect ∧
        m.executeInstruction = (m.applyEffect effect).finished := by
  rw [executeInstruction_eq]
  generalize opcodes.decode? (m.memory.get m.registers.pc) = decoded
  cases decoded with
  | none => exact .inl ⟨_, rfl⟩
  | some e =>
      unfold executeDecoded
      dsimp only
      cases heffect : e.effect? m.settings m.registers m.memory with
      | none => exact .inl ⟨_, rfl⟩
      | some effect => exact .inr ⟨e, effect, rfl, heffect, rfl⟩

private theorem live_executeInstruction (h : m.registers.status.Live) :
    m.executeInstruction.1.registers.status.Live := by
  obtain ⟨e, hfailed⟩ | ⟨e, effect, -, heffect, hfinished⟩ := m.executeInstruction_cases
  · rw [hfailed]
    exact h
  · obtain ⟨o, performed, hperform, hregisters, -⟩ :=
      OpcodeEntry.exists_perform_of_effect? heffect
    rw [hfinished]
    change (m.applyEffect effect).registers.status.Live
    rw [registers_applyEffect, hregisters]
    exact Operation.live_of_perform hperform h

private theorem live_callTrap [Host δ] (h : m.registers.status.Live) (t : Trap) :
    (m.callTrap t).1.registers.status.Live := by
  obtain ⟨carry, hstatus⟩ := (served_ready m t).serves.status
  have hserved := h.setCarry carry
  rw [← hstatus] at hserved
  rw [callTrap_eq]
  generalize (m.ready t).serve t = o at hserved ⊢
  obtain ⟨m₁, halt⟩ := o
  cases halt with
  | none => exact hserved
  | some halt => exact hserved

/-- A machine some time after a run has begun. Between the instructions and the traps the
host may do to it whatever it likes, except to the registers. -/
inductive Begun [Host δ] : Machine δ → Prop
  | start (m : Machine δ) : Begun m.beginRun
  | instruction {m : Machine δ} (begun : Begun m) : Begun m.executeInstruction.1
  | trap {m : Machine δ} (begun : Begun m) (t : Trap) : Begun (m.callTrap t).1
  | meanwhile {m m' : Machine δ} (begun : Begun m) (same : m'.registers =
    m.registers) : Begun m'

variable [Host δ]

namespace Begun

theorem advance (h : m.Begun) : m.advance.1.Begun := by
  have hexecute := h.instruction
  unfold Machine.advance
  generalize m.executeInstruction = o at hexecute ⊢
  obtain ⟨m₁, halt⟩ := o
  split
  · exact h.trap _
  · cases halt with
    | some halt => exact hexecute
    | none =>
        dsimp only
        split
        · exact hexecute.trap _
        · exact hexecute

theorem step (h : m.Begun) : m.step.1.Begun := by
  unfold Machine.step
  dsimp only
  split
  · exact h.advance.meanwhile rfl
  · exact h.advance

theorem periodicTurn (h : m.Begun) (n : Nat) : (m.periodicTurn n).1.Begun := by
  unfold Machine.periodicTurn
  split
  · exact h.meanwhile rfl
  · exact h

theorem round (h : m.Begun) (plan : RunPlan) (n : Nat) : (m.round plan n).1.Begun := by
  have hstep := h.step
  unfold Machine.round
  split
  · exact h
  · split
    · rename_i heq
      rw [heq] at hstep
      exact hstep
    · rename_i heq
      rw [heq] at hstep
      exact hstep
    · rename_i m₁ heq
      rw [heq] at hstep
      have hturn := hstep.periodicTurn (n + 1)
      dsimp only
      split
      · exact hturn
      · exact hturn

theorem runRounds {plan : RunPlan} {fuel n : Nat} {result : RunResult} (h : m.Begun)
    (hrun : Machine.runRounds plan fuel m n = some (m', result)) : m'.Begun := by
  induction fuel generalizing m n with
  | zero => cases hrun
  | succ fuel ih =>
      have hround := h.round plan n
      unfold Machine.runRounds at hrun
      split at hrun
      · rename_i heq
        cases hrun
        rw [heq] at hround
        exact hround
      · rename_i heq
        rw [heq] at hround
        exact ih hround hrun

theorem execute {fuel : Nat} {mode : RunMode} {result : RunResult}
    (h : m.state ≠ .notRunning → m.Begun)
    (hrun : Machine.execute fuel m mode = some (m', result)) : m'.Begun := by
  obtain ⟨⟨m₁, result⟩, hrounds, hend⟩ := Option.map_eq_some_iff.1 hrun
  cases hend
  have hstart : (m.startRun mode).Begun := by
    unfold startRun
    dsimp only
    split
    · exact (Begun.start m).meanwhile rfl
    · rename_i hstate
      exact (h hstate).meanwhile rfl
  exact (hstart.runRounds hrounds).meanwhile rfl

private theorem live (h : m.Begun) : m.registers.status.Live := by
  induction h with
  | start m =>
      rw [registers_beginRun]
      exact Status.live_reset
  | instruction _ ih => exact live_executeInstruction ih
  | trap _ t ih => exact live_callTrap ih t
  | meanwhile _ same ih =>
      rw [same]
      exact ih

end Begun

omit [Host δ] in
private theorem pushed_of_executeInstruction {e : OpcodeEntry}
    (hdecoded : opcodes.decode? (m.memory.get m.registers.pc) = some e)
    (hop : e.op = .PHP ∨ e.op = .BRK) :
    ∃ m', m.executeInstruction = (m', none) ∧
      m'.memory.get (stackAddress (m'.registers.sp + 1)) =
        m.registers.status.pushed.toByte := by
  rw [executeInstruction_eq, hdecoded]
  obtain ⟨opcode, size, cycles, op, mode⟩ := e
  dsimp only at hop
  obtain rfl | rfl := hop
  · refine ⟨_, rfl, ?_⟩
    rw [registers_applyEffect, memory_applyEffect]
    change (m.memory.set (stackAddress m.registers.sp) _).get
      (stackAddress (m.registers.sp - 1 + 1)) = _
    rw [UInt8.sub_add_cancel, Memory.get_set_self]
    rfl
  · refine ⟨_, rfl, ?_⟩
    rw [registers_applyEffect, memory_applyEffect]
    change (Memory.set _ (stackAddress (m.registers.sp - 1 - 1)) _).get
      (stackAddress (m.registers.sp - 1 - 1 - 1 + 1)) = _
    rw [UInt8.sub_add_cancel, Memory.get_set_self]
    rfl

/-- At any time after a run has begun the status register has its unused bit set and its
break bit clear, and an instruction that pushes the status pushes a copy that has both
bits set and all others as the register has them. -/
theorem status_of_begun (h : m.Begun) :
    Flag.unused.isSetIn m.registers.status.toByte = true ∧
      Flag.brk.isSetIn m.registers.status.toByte = false ∧
      ∀ e, opcodes.decode? (m.memory.get m.registers.pc) = some e → e.op = .PHP ∨
        e.op = .BRK →
        ∃ m', m.executeInstruction = (m', none) ∧
          ∀ f : Flag, f.isSetIn (m'.memory.get (stackAddress (m'.registers.sp + 1))) =
            if f = .brk ∨ f =
              .unused then true else f.isSetIn m.registers.status.toByte := by
  have hlive := h.live
  refine ⟨?_, ?_, fun e hdecoded hop => ?_⟩
  · rw [Status.isSetIn_toByte]
    exact hlive.unused
  · rw [Status.isSetIn_toByte]
    exact hlive.brk
  · obtain ⟨m', hexecute, hpushed⟩ := pushed_of_executeInstruction hdecoded hop
    refine ⟨m', hexecute, fun f => ?_⟩
    rw [hpushed, Status.isSetIn_toByte, Status.isSetIn_toByte, Status.get_pushed]

/-- `PLP` and then `PHP`. The byte that is pulled is the low one of the address that the
run is to return to, $DF, where the break bit is set and the unused bit clear. -/
def pulling : Machine Silent :=
  beginRun
    { memory := (Memory.filled 0).writeAll [(0x0200, 0x28), (0x0201, 0x08)]
      host := {} }

theorem status_of_begun_pulling :
    pulling.executeInstruction.1.Begun ∧
      Flag.unused.isSetIn pulling.executeInstruction.1.registers.status.toByte = true ∧
      Flag.brk.isSetIn pulling.executeInstruction.1.registers.status.toByte = false ∧
      ∃ m', pulling.executeInstruction.1.executeInstruction = (m', none) ∧
        ∀ f : Flag, f.isSetIn (m'.memory.get (stackAddress (m'.registers.sp + 1))) =
          if f = .brk ∨ f = .unused then true
          else f.isSetIn pulling.executeInstruction.1.registers.status.toByte := by
  have hpushes : (opcodes.decode? (pulling.executeInstruction.1.memory.get
      pulling.executeInstruction.1.registers.pc)).any (·.op = .PHP) = true := by
    decide +kernel
  obtain ⟨e, hdecoded, hop⟩ := (Option.any_eq_true _ _).1 hpushes
  have hbegun : pulling.executeInstruction.1.Begun := (Begun.start _).instruction
  obtain ⟨hunused, hbrk, hpushed⟩ := status_of_begun hbegun
  exact ⟨hbegun, hunused, hbrk, hpushed e hdecoded (.inl (of_decide_eq_true hop))⟩

end Machine

end Breadboard
