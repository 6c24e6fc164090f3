import Breadboard.Machine.Run
import Breadboard.Proofs.Machine.Reply

namespace Breadboard.Machine

variable {δ : Type}

def Outcome.EndsRun (o : Outcome δ) : Prop :=
  ∀ reason, o.2 = some (.stop reason) → reason.endsRun = true

/-- All that the service of a trap may have done when it leaves `m'`. -/
structure Serves (m m' : Machine δ) : Prop where
  frame : m' = { m with
    registers := m'.registers
    cycles := m'.cycles
    file := m'.file
    host := m'.host
    stopRequested := m'.stopRequested }
  sp : m'.registers.sp = m.registers.sp
  pc : m'.registers.pc = m.registers.pc
  status : ∃ carry, m'.registers.status = m.registers.status.set .carry carry

namespace Serves

variable {m m' m'' : Machine δ}

theorem refl (m : Machine δ) : Serves m m :=
  ⟨rfl, rfl, rfl, m.registers.status.carry, rfl⟩

theorem trans (h : Serves m m') (h' : Serves m' m'') : Serves m m'' := by
  refine ⟨?_, h'.sp.trans h.sp, h'.pc.trans h.pc, ?_⟩
  · rw [h'.frame, h.frame]
  · obtain ⟨carry, hcarry⟩ := h.status
    obtain ⟨carry', hcarry'⟩ := h'.status
    exact ⟨carry', by rw [hcarry', hcarry]; rfl⟩

private theorem of_registers (hframe : m' = { m with
    cycles := m'.cycles, file := m'.file, host := m'.host,
    stopRequested := m'.stopRequested }) :
    Serves m m' := by
  have hregisters : m'.registers = m.registers := by rw [hframe]
  refine ⟨?_, by rw [hregisters], by rw [hregisters], m.registers.status.carry,
    by rw [hregisters]; rfl⟩
  rw [hregisters]
  exact hframe

theorem after (m : Machine δ) (t : Turn δ) : Serves m (m.after t) :=
  .of_registers rfl

theorem answer (m : Machine δ) (r : Reply) : Serves m (m.answer r).1 := by
  refine ⟨rfl, rfl, rfl, ?_⟩
  cases hcarry : r.carry with
  | none => exact ⟨m.registers.status.carry, by simp [Machine.answer, hcarry, Status.set]⟩
  | some carry => exact ⟨carry, by simp [Machine.answer, hcarry]⟩

end Serves

/-- A service that leaves `o`. -/
structure Served (m : Machine δ) (o : Outcome δ) : Prop where
  serves : Serves m o.1
  endsRun : o.EndsRun

variable [Host δ]

theorem Serves.asked (m : Machine δ) (t : Trap) : Serves m (m.asked t) := by
  cases t with
  | brkHandler | outCh | outStr | getCh | getChTimeout | processEvents => exact .after m _
  | elapsedMs | wallClock => exact .of_registers rfl
  | _ => exact .refl m

theorem served_ready (m : Machine δ) (t : Trap) : Served m ((m.ready t).serve t) := by
  have hready : Serves m (m.ready t) := by
    unfold ready
    split
    · exact .after m _
    · exact .refl m
  obtain ⟨r, hfits, hserve⟩ := (m.ready t).exists_serve_eq t
  rw [hserve]
  exact ⟨(hready.trans (.asked _ t)).trans (.answer _ r),
    fun _ => r.endsRun_of_fits hfits⟩

theorem exists_lookup?_RTS :
    ∃ rts, opcodes.lookup? .RTS .implied = some rts ∧
      returnCycles = rts.cycles.toUInt64 :=
  ⟨⟨0x60, 1, 6, .RTS, .implied⟩, by decide +kernel⟩

/-- A machine as it stays while it runs. -/
structure Steered (m m' : Machine δ) : Prop where
  state : m'.state = m.state
  breakpoints : m'.breakpoints = m.breakpoints
  changes : m.isTracking = false → m'.changes = m.changes

section Steered

variable {m m' m'' : Machine δ}

omit [Host δ] in
theorem Steered.refl (m : Machine δ) : Steered m m :=
  ⟨rfl, rfl, fun _ => rfl⟩

omit [Host δ] in
theorem isTracking_congr (h : m'.state = m.state) : m'.isTracking = m.isTracking := by
  unfold isTracking
  rw [h]

omit [Host δ] in
theorem Steered.trans (h : Steered m m') (h' : Steered m' m'') : Steered m m'' where
  state := h'.state.trans h.state
  breakpoints := h'.breakpoints.trans h.breakpoints
  changes := fun hm =>
    (h'.changes ((isTracking_congr h.state).trans hm)).trans (h.changes hm)

omit [Host δ] in
theorem Serves.steered (h : Serves m m') : Steered m m' := by
  rw [h.frame]
  exact ⟨rfl, rfl, fun _ => rfl⟩

omit [Host δ] in
theorem steered_recordWrites (m : Machine δ) (writes : List Write) :
    Steered m (m.recordWrites writes) := by
  unfold recordWrites
  split
  · rename_i htracking
    exact ⟨rfl, rfl, fun hm => absurd htracking (by simp [hm])⟩
  · exact .refl m

omit [Host δ] in
private theorem steered_applyEffect (m : Machine δ) (e : Effect) :
    Steered m (m.applyEffect e) := by
  unfold applyEffect
  split
  · exact ⟨rfl, rfl, fun _ => rfl⟩
  · refine Steered.trans ?_ (steered_recordWrites _ _)
    exact ⟨rfl, rfl, fun _ => rfl⟩

omit [Host δ] in
private theorem steered_executeDecoded (m : Machine δ) (opcode : UInt8)
    (decoded : Option OpcodeEntry) :
    Steered m (m.executeDecoded opcode decoded).1 := by
  unfold executeDecoded
  split
  · exact .refl m
  · split
    · exact .refl m
    · exact steered_applyEffect m _

omit [Host δ] in
private theorem steered_executeInstruction (m : Machine δ) :
    Steered m m.executeInstruction.1 := by
  unfold executeInstruction
  exact steered_executeDecoded m _ _

private theorem steered_callTrap (m : Machine δ) (t : Trap) :
    Steered m (m.callTrap t).1 := by
  have hserve := (served_ready m t).serves.steered
  rw [callTrap_eq]
  generalize (m.ready t).serve t = o at hserve ⊢
  obtain ⟨m₁, halt⟩ := o
  cases halt with
  | none => exact hserve.trans ⟨rfl, rfl, fun _ => rfl⟩
  | some halt => exact hserve

theorem steered_advance (m : Machine δ) : Steered m m.advance.1 := by
  have hexecute := steered_executeInstruction m
  unfold advance
  generalize m.executeInstruction = o at hexecute ⊢
  obtain ⟨m₁, halt⟩ := o
  split
  · exact steered_callTrap m _
  · cases halt with
    | some halt => exact hexecute
    | none =>
        dsimp only
        split
        · exact hexecute.trans (steered_callTrap m₁ _)
        · exact hexecute

theorem steered_step (m : Machine δ) : Steered m m.step.1 := by
  have hadvance := steered_advance m
  unfold step
  dsimp only
  split
  · rename_i hnotes
    have htracking : m.advance.1.isTracking = true := (Bool.and_eq_true_iff.1 hnotes).1
    refine ⟨hadvance.state, hadvance.breakpoints, fun hm => ?_⟩
    rw [isTracking_congr hadvance.state, hm] at htracking
    cases htracking
  · exact hadvance

theorem steered_periodicTurn (m : Machine δ) (n : Nat) :
    Steered m (m.periodicTurn n).1 := by
  unfold periodicTurn
  split
  · exact ⟨rfl, rfl, fun _ => rfl⟩
  · exact .refl m

end Steered

end Breadboard.Machine
