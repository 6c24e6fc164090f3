import Breadboard.Host.Silent
import Breadboard.Machine.Run
import Breadboard.Proofs.Machine.Service

namespace Breadboard

/-! Writes and the record of them. -/

theorem Memory.mem_of_get_writeAll_ne {m : Memory} {writes : List Write} {a : UInt16}
    (h : (m.writeAll writes).get a ≠ m.get a) : a ∈ writes.map Prod.fst := by
  induction writes generalizing m with
  | nil => exact absurd rfl h
  | cons w writes ih =>
      by_cases hlater : ((m.set w.1 w.2).writeAll writes).get a = (m.set w.1 w.2).get a
      · have hset : (m.set w.1 w.2).get a ≠ m.get a := by
          rw [← hlater]
          exact h
        have haddr : w.1 = a :=
          Decidable.byContradiction fun hne => hset (get_set_ne m w.2 hne)
        exact List.mem_cons.2 (.inl haddr.symm)
      · exact List.mem_cons_of_mem _ (ih hlater)

theorem Changes.foldl_recordWrite (c : Changes) (writes : List Write) :
    writes.foldl (fun c w => c.recordWrite w.1) c =
      { c with written := c.written.addAll (writes.map Prod.fst) } := by
  induction writes generalizing c with
  | nil => rfl
  | cons w writes ih => exact ih (c.recordWrite w.1)

theorem Changes.mem_takeWritten {c : Changes} {a : UInt16} :
    a ∈ c.takeWritten.1 ↔ a ∈ c.written :=
  Std.ExtTreeSet.mem_toList

namespace Machine

variable {δ : Type}

structure Untouched (m m' : Machine δ) : Prop where
  memory : m'.memory = m.memory
  changes : m'.changes = m.changes
  state : m'.state = m.state

/-- What `m'` has new in memory is noted in it, and nothing noted before is lost. -/
structure Noted (m m' : Machine δ) : Prop where
  state : m'.state = m.state
  untracked : m'.changes.untracked = m.changes.untracked
  written : ∀ a ∈ m.changes.written, a ∈ m'.changes.written
  flag : m.changes.registers = true → m'.changes.registers = true
  memory : ∀ a, m'.memory.get a ≠ m.memory.get a → a ∈ m'.changes.written

theorem Untouched.refl (m : Machine δ) : Untouched m m :=
  ⟨rfl, rfl, rfl⟩

theorem Untouched.trans {m₁ m₂ m₃ : Machine δ} (h : Untouched m₁ m₂)
    (h' : Untouched m₂ m₃) :
    Untouched m₁ m₃ :=
  ⟨h'.memory.trans h.memory, h'.changes.trans h.changes, h'.state.trans h.state⟩

theorem Untouched.noted {m m' : Machine δ} (h : Untouched m m') : Noted m m' where
  state := h.state
  untracked := by rw [h.changes]
  written := by
    rw [h.changes]
    exact fun _ ha => ha
  flag := by
    rw [h.changes]
    exact id
  memory := by
    rw [h.memory]
    exact fun _ hne => absurd rfl hne

theorem Noted.trans {m₁ m₂ m₃ : Machine δ} (h : Noted m₁ m₂) (h' : Noted m₂ m₃) :
    Noted m₁ m₃ where
  state := h'.state.trans h.state
  untracked := h'.untracked.trans h.untracked
  written := fun a ha => h'.written a (h.written a ha)
  flag := fun hflag => h'.flag (h.flag hflag)
  memory := by
    intro a hne
    by_cases hlast : m₃.memory.get a = m₂.memory.get a
    · exact h'.written a (h.memory a fun heq => hne (hlast.trans heq))
    · exact h'.memory a hlast

/-- A step notes all that it changes, the registers included. -/
structure FullyNoted (m m' : Machine δ) : Prop extends Noted m m' where
  registers : m'.registers ≠ m.registers → m'.changes.registers = true

theorem FullyNoted.refl (m : Machine δ) : FullyNoted m m :=
  ⟨(Untouched.refl m).noted, fun hne => absurd rfl hne⟩

theorem FullyNoted.trans {m₁ m₂ m₃ : Machine δ} (h : FullyNoted m₁ m₂)
    (h' : FullyNoted m₂ m₃) :
    FullyNoted m₁ m₃ := by
  refine ⟨h.toNoted.trans h'.toNoted, fun hne => ?_⟩
  by_cases hlast : m₃.registers = m₂.registers
  · exact h'.flag (h.registers fun heq => hne (hlast.trans heq))
  · exact h'.registers hlast

/-! Services change neither memory nor what is noted. -/

theorem Serves.untouched {m m' : Machine δ} (h : Serves m m') : Untouched m m' := by
  rw [h.frame]
  exact ⟨rfl, rfl, rfl⟩

/-! Instructions note what they write. -/

theorem noted_recordWrites {m m₁ : Machine δ} {writes : List Write}
    (h : m.isTracking = true) (hstate : m₁.state = m.state)
    (hchanges : m₁.changes = m.changes) (hmemory : m₁.memory = m.memory.writeAll writes) :
    Noted m (m₁.recordWrites writes) := by
  rw [recordWrites, if_pos ((isTracking_congr hstate).trans h),
    Changes.foldl_recordWrite, hchanges]
  refine ⟨hstate, rfl, ?_, id, ?_⟩
  · intro a ha
    exact AddressSet.mem_addAll.2 (.inl ha)
  · intro a hne
    rw [hmemory] at hne
    exact AddressSet.mem_addAll.2 (.inr (Memory.mem_of_get_writeAll_ne hne))

private theorem noted_applyEffect {m : Machine δ} (e : Effect) (h : m.isTracking = true) :
    Noted m (m.applyEffect e) := by
  unfold applyEffect
  split
  · exact Untouched.noted ⟨rfl, rfl, rfl⟩
  · exact noted_recordWrites h rfl rfl rfl

private theorem noted_executeDecoded {m : Machine δ} (h : m.isTracking = true)
    (opcode : UInt8) (decoded : Option OpcodeEntry) :
    Noted m (m.executeDecoded opcode decoded).1 := by
  cases decoded with
  | none => exact (Untouched.refl m).noted
  | some e =>
      unfold executeDecoded
      dsimp only
      split
      · exact (Untouched.refl m).noted
      · exact noted_applyEffect _ h

private theorem noted_executeInstruction {m : Machine δ} (h : m.isTracking = true) :
    Noted m m.executeInstruction.1 := by
  have hexecute : m.executeInstruction = m.executeDecoded (m.memory.get m.registers.pc)
      (opcodes.decode? (m.memory.get m.registers.pc)) := rfl
  rw [hexecute]
  exact noted_executeDecoded h _ _

/-! What a host learns of a run. -/

/-- What a host takes from `m'` tells it all that is new since `m`. -/
def Informs (m m' : Machine δ) : Prop :=
  m'.changes.takeUntracked.1 = true ∨
    (∀ a, m'.memory.get a ≠ m.memory.get a → a ∈ m'.changes.takeWritten.1) ∧
      (m'.registers ≠ m.registers → m'.changes.takeRegisters.1 = true)

theorem changes_endRun (m : Machine δ) {mode : RunMode} (result : RunResult)
    (hmode : mode ≠ .turbo) :
    (m.endRun mode result).changes.written = m.changes.written ∧
      (m.endRun mode result).changes.registers = m.changes.registers ∧
      (m.endRun mode result).changes.untracked = m.changes.untracked := by
  unfold endRun
  rw [if_neg hmode]
  cases result <;> exact ⟨rfl, rfl, rfl⟩

private theorem informs_endRun_iff {m m₂ : Machine δ} {mode : RunMode}
    (result : RunResult) (hmode : mode ≠ .turbo)
    (huntracked : m₂.changes.untracked = false) :
    Informs m (m₂.endRun mode result) ↔
      (∀ a, m₂.memory.get a ≠ m.memory.get a → a ∈ m₂.changes.written) ∧
        (m₂.registers ≠ m.registers → m₂.changes.registers = true) := by
  obtain ⟨hwritten, hregisters, huntracked'⟩ := m₂.changes_endRun result hmode
  unfold Informs
  simp only [Changes.mem_takeWritten, Changes.takeUntracked, Changes.takeRegisters,
    huntracked', huntracked, hwritten, hregisters, Bool.false_eq_true, false_or]
  exact .rfl

private theorem informs_turbo (m m₂ : Machine δ) (result : RunResult) :
    Informs m (m₂.endRun .turbo result) := by
  refine .inl ?_
  unfold endRun
  rw [if_pos rfl]
  cases result <;> rfl

/-! What a run that starts over begins with. -/

/-- The return address that a run which starts over pushes, and the
registers that it starts with. -/
def freshStart (m : Machine δ) : List Write × Registers :=
  (Registers.initial.jump m.entryPoint).pushWord (Trap.terminate.address - 1)

private theorem writes_freshStart (m : Machine δ) :
    m.freshStart.1 = [(0x01FF, 0xFF), (0x01FE, 0xDF)] := by
  unfold freshStart
  with_unfolding_all rfl

private theorem get_of_mem_freshStart {m : Machine δ} {w : Write}
    (h : w ∈ m.freshStart.1) :
    (m.memory.writeAll m.freshStart.1).get w.1 = w.2 := by
  rw [writes_freshStart] at h ⊢
  change ((m.memory.set 0x01FF 0xFF).set 0x01FE 0xDF).get w.1 = w.2
  rcases List.mem_cons.1 h with rfl | h
  · rw [Memory.get_set_ne _ _ (by decide), Memory.get_set_self]
  · rw [List.mem_singleton.1 h, Memory.get_set_self]

private theorem Noted.memory_iff {m m₁ m₂ : Machine δ} (h : Noted m₁ m₂)
    (hmemory : m₁.memory = m.memory.writeAll m.freshStart.1) :
    (∀ a, m₂.memory.get a ≠ m.memory.get a → a ∈ m₂.changes.written) ↔
      ∀ w ∈ m.freshStart.1, m.memory.get w.1 = w.2 ∨ w.1 ∈ m₂.changes.written := by
  constructor
  · intro hinforms w hw
    by_cases hnoted : w.1 ∈ m₂.changes.written
    · exact .inr hnoted
    · have hkept : m₂.memory.get w.1 = m₁.memory.get w.1 :=
        Decidable.byContradiction fun hne => hnoted (h.memory w.1 hne)
      have hold : m₂.memory.get w.1 = m.memory.get w.1 :=
        Decidable.byContradiction fun hne => hnoted (hinforms w.1 hne)
      rw [hmemory, get_of_mem_freshStart hw] at hkept
      exact .inl (hold.symm.trans hkept)
  · intro hreset a hne
    by_cases hkept : m₂.memory.get a = m₁.memory.get a
    · rw [hkept, hmemory] at hne
      obtain ⟨w, hw, rfl⟩ := List.mem_map.1 (Memory.mem_of_get_writeAll_ne hne)
      rcases hreset w hw with hold | hnoted
      · exact absurd ((get_of_mem_freshStart hw).trans hold.symm) hne
      · exact hnoted
    · exact h.memory a hkept

private theorem FullyNoted.registers_iff {m m₁ m₂ : Machine δ} (h : FullyNoted m₁ m₂) :
    (m₂.registers ≠ m.registers → m₂.changes.registers = true) ↔
      m.registers = m₁.registers ∨ m₂.changes.registers = true := by
  by_cases hflag : m₂.changes.registers = true
  · exact iff_of_true (fun _ => hflag) (.inr hflag)
  · have hkept : m₂.registers = m₁.registers :=
      Decidable.byContradiction fun hne => hflag (h.registers hne)
    rw [hkept]
    constructor
    · intro hinforms
      exact .inl (Decidable.byContradiction fun hne => hflag
        (hinforms fun heq => hne heq.symm))
    · rintro (heq | hflag') hne
      · exact absurd heq.symm hne
      · exact hflag'

variable [Host δ]

theorem untouched_callTrap (m : Machine δ) (t : Trap) : Untouched m (m.callTrap t).1 := by
  have hserve := (served_ready m t).serves.untouched
  rw [callTrap_eq]
  generalize (m.ready t).serve t = o at hserve ⊢
  obtain ⟨m₁, halt⟩ := o
  cases halt with
  | none => exact hserve.trans ⟨rfl, rfl, rfl⟩
  | some halt => exact hserve

/-! Steps. -/

theorem noted_advance {m : Machine δ} (h : m.isTracking = true) :
    Noted m m.advance.1 := by
  have hexecute := noted_executeInstruction h
  unfold advance
  generalize m.executeInstruction = outcome at hexecute ⊢
  obtain ⟨m₁, halt⟩ := outcome
  split
  · exact (untouched_callTrap m _).noted
  · cases halt with
    | some halt => exact hexecute
    | none =>
        dsimp only
        split
        · exact hexecute.trans (untouched_callTrap m₁ _).noted
        · exact hexecute

private theorem fullyNoted_step {m : Machine δ} (h : m.isTracking = true) :
    FullyNoted m m.step.1 := by
  have hadvance := noted_advance h
  have htracking := (isTracking_congr hadvance.state).trans h
  unfold step
  dsimp only
  split
  · exact ⟨⟨hadvance.state, hadvance.untracked, hadvance.written, fun _ => rfl,
      hadvance.memory⟩, fun _ => rfl⟩
  · rename_i hsame
    refine ⟨hadvance, fun hne => absurd ?_ hsame⟩
    simp [htracking, hne]

/-! Runs. -/

theorem untouched_periodicTurn (m : Machine δ) (n : Nat) :
    Untouched m (m.periodicTurn n).1 := by
  unfold periodicTurn
  split
  · exact ⟨rfl, rfl, rfl⟩
  · exact .refl m

private theorem fullyNoted_periodicTurn (m : Machine δ) (n : Nat) :
    FullyNoted m (m.periodicTurn n).1 := by
  refine ⟨(untouched_periodicTurn m n).noted, fun hne => absurd ?_ hne⟩
  unfold periodicTurn
  split <;> rfl

private theorem fullyNoted_round {m : Machine δ} (plan : RunPlan) (n : Nat)
    (h : m.isTracking = true) :
    FullyNoted m (m.round plan n).1 := by
  have hstep := fullyNoted_step h
  unfold round
  split
  · exact .refl m
  · split
    · rename_i heq
      rw [heq] at hstep
      exact hstep
    · rename_i heq
      rw [heq] at hstep
      exact hstep
    · rename_i m₁ heq
      rw [heq] at hstep
      have hturn := hstep.trans (fullyNoted_periodicTurn m₁ (n + 1))
      dsimp only
      split
      · exact hturn
      · exact hturn

private theorem fullyNoted_runRounds {m m' : Machine δ} {plan : RunPlan} {fuel n : Nat}
    {result : RunResult} (h : m.isTracking = true)
    (hrun : runRounds plan fuel m n = some (m', result)) :
    FullyNoted m m' := by
  induction fuel generalizing m n with
  | zero => cases hrun
  | succ fuel ih =>
      have hround := fullyNoted_round plan n h
      unfold runRounds at hrun
      split at hrun
      · rename_i heq
        cases hrun
        rw [heq] at hround
        exact hround
      · rename_i heq
        rw [heq] at hround
        exact hround.trans (ih ((isTracking_congr hround.state).trans h) hrun)

/-! A whole run. -/

theorem memory_beginRun (m : Machine δ) :
    m.beginRun.memory = m.memory.writeAll m.freshStart.1 := by
  unfold beginRun recordWrites
  dsimp only
  split <;> rfl

theorem registers_beginRun (m : Machine δ) : m.beginRun.registers = m.freshStart.2 := by
  unfold beginRun recordWrites
  dsimp only
  split <;> rfl

theorem changes_startRun (m : Machine δ) (mode : RunMode) :
    (m.startRun mode).changes.written = ∅ ∧ (m.startRun mode).changes.registers = false ∧
      (m.startRun mode).changes.untracked = false :=
  ⟨rfl, rfl, rfl⟩

theorem isTracking_startRun (m : Machine δ) {mode : RunMode} (h : mode ≠ .turbo) :
    (m.startRun mode).isTracking = true := by
  unfold isTracking startRun
  simpa using h

/-- A run tells its host all that is new, except that one which starts over from a
stop and is not a turbo run misses what the reset pushes and sets, unless the run
notes the same places itself. -/
theorem execute_informs_iff {fuel : Nat} {m m' : Machine δ} {mode : RunMode}
    {result : RunResult} (h : execute fuel m mode = some (m', result)) :
    Informs m m' ↔
      m.state ≠ .notRunning ∨ mode = .turbo ∨
        (∀ w ∈ m.freshStart.1, m.memory.get w.1 = w.2 ∨ w.1 ∈ m'.changes.takeWritten.1) ∧
          (m.registers = m.freshStart.2 ∨ m'.changes.takeRegisters.1 = true) := by
  obtain ⟨⟨m₂, result⟩, hrun, hend⟩ := Option.map_eq_some_iff.1 h
  cases hend
  by_cases hmode : mode = .turbo
  · subst hmode
    exact iff_of_true (informs_turbo m m₂ result) (.inr (.inl rfl))
  · obtain ⟨hwritten₀, hregisters₀, huntracked₀⟩ := m.changes_startRun mode
    have hnoted := fullyNoted_runRounds (m.isTracking_startRun hmode) hrun
    have huntracked := hnoted.untracked.trans huntracked₀
    obtain ⟨hwritten, hflag, -⟩ := m₂.changes_endRun result hmode
    rw [informs_endRun_iff result hmode huntracked]
    by_cases hstate : m.state = .notRunning
    · have hmemory : (m.startRun mode).memory = m.memory.writeAll m.freshStart.1 := by
        unfold startRun
        rw [if_pos hstate]
        exact m.memory_beginRun
      have hregisters : (m.startRun mode).registers = m.freshStart.2 := by
        unfold startRun
        rw [if_pos hstate]
        exact m.registers_beginRun
      rw [hnoted.memory_iff hmemory, hnoted.registers_iff, hregisters]
      simp only [Changes.mem_takeWritten, Changes.takeRegisters, hwritten, hflag,
        hstate, hmode, ne_eq, not_true_eq_false, false_or]
    · have hsame : (m.startRun mode).memory = m.memory ∧
          (m.startRun mode).registers = m.registers := by
        unfold startRun
        rw [if_neg hstate]
        exact ⟨rfl, rfl⟩
      refine iff_of_true ⟨?_, ?_⟩ (.inl hstate)
      · rw [← hsame.1]
        exact hnoted.memory
      · rw [← hsame.2]
        exact hnoted.registers

def idle : Machine Silent :=
  { memory := .filled 0, entryPoint := Trap.terminate.address, host := {} }

private theorem execute_idle_isSome : (execute 1 idle .run).isSome = true := by
  decide +kernel

theorem execute_informs_iff_idle : ∃ m' result, execute 1 idle .run = some (m', result) ∧
    (Informs idle m' ↔
      idle.state ≠ .notRunning ∨ RunMode.run = .turbo ∨
        (∀ w ∈ idle.freshStart.1, idle.memory.get w.1 = w.2 ∨
          w.1 ∈ m'.changes.takeWritten.1) ∧
          (idle.registers = idle.freshStart.2 ∨ m'.changes.takeRegisters.1 = true)) := by
  obtain ⟨⟨m', result⟩, hrun⟩ := Option.isSome_iff_exists.1 execute_idle_isSome
  exact ⟨m', result, hrun, execute_informs_iff hrun⟩

/-- The reset pushes `0xFF` over a zero at the top of the stack, and the host is not
told. -/
theorem not_informs_idle : ∃ m' result, execute 1 idle .run = some (m', result) ∧
    ¬ Informs idle m' := by
  have hmissed : ∀ run ∈ execute 1 idle .run,
      run.1.memory.get 0x01FF ≠ idle.memory.get 0x01FF ∧ run.1.changes.untracked = false ∧
        run.1.changes.written.contains 0x01FF = false := by
    decide +kernel
  obtain ⟨⟨m', result⟩, hrun⟩ := Option.isSome_iff_exists.1 execute_idle_isSome
  obtain ⟨hnew, huntracked, hwritten⟩ := hmissed (m', result) hrun
  refine ⟨m', result, hrun, ?_⟩
  rintro (hflag | ⟨hmemory, -⟩)
  · exact Bool.false_ne_true (huntracked.symm.trans hflag)
  · have hmem := Changes.mem_takeWritten.1 (hmemory 0x01FF hnew)
    rw [← Std.ExtTreeSet.contains_iff_mem, hwritten] at hmem
    exact Bool.false_ne_true hmem

end Machine

end Breadboard
