import Breadboard.Proofs.Machine.Likeness
import Breadboard.Proofs.Machine.Notification
import Mathlib.Control.Monad.Basic

namespace Breadboard

def Halt.result : Halt → RunResult
  | .stop reason => .ok reason
  | .error e => .error e

namespace Machine

variable {δ : Type}

/-! What a step writes. -/

def stored (m : Machine δ) : List UInt16 :=
  if (Trap.at? m.registers.pc).isSome then []
  else
    match opcodes.decode? (m.memory.get m.registers.pc) with
    | none => []
    | some e =>
        match e.effect? m.settings m.registers m.memory with
        | none => []
        | some effect => effect.writes.map Prod.fst

theorem Matched.stored_eq {R : Turn δ → Turn δ → Prop} {m m' : Machine δ}
    (h : Matched R m m') :
    m'.stored = m.stored := by
  unfold stored
  rw [h.registers, h.memory, h.settings]

private theorem changes_recordWrites {m m₁ : Machine δ} (h : m.isTracking = true)
    (hstate : m₁.state = m.state) (hchanges : m₁.changes = m.changes)
    (writes : List Write) :
    (m₁.recordWrites writes).changes =
      { m.changes with written := m.changes.written.addAll (writes.map Prod.fst) } := by
  rw [recordWrites, if_pos ((isTracking_congr hstate).trans h),
    Changes.foldl_recordWrite, hchanges]

private theorem changes_applyEffect {m : Machine δ} (h : m.isTracking = true)
    (e : Effect) :
    (m.applyEffect e).changes =
      { m.changes with written := m.changes.written.addAll (e.writes.map Prod.fst) } := by
  unfold applyEffect
  split
  · rename_i hwrites
    rw [hwrites]
    rfl
  · refine changes_recordWrites h ?_ ?_ _
    · rfl
    · rfl

private theorem changes_executeInstruction {m : Machine δ} (h : m.isTracking = true)
    (htrap : Trap.at? m.registers.pc = none) :
    m.executeInstruction.1.changes =
      { m.changes with written := m.changes.written.addAll m.stored } := by
  rw [executeInstruction_eq]
  unfold stored
  rw [htrap]
  cases opcodes.decode? (m.memory.get m.registers.pc) with
  | none => rfl
  | some e =>
      unfold executeDecoded
      dsimp only
      cases e.effect? m.settings m.registers m.memory with
      | none => rfl
      | some effect => exact changes_applyEffect h effect

variable [Host δ]

private theorem changes_advance {m : Machine δ} (h : m.isTracking = true) :
    m.advance.1.changes =
      { m.changes with written := m.changes.written.addAll m.stored } := by
  unfold advance
  cases htrap : Trap.at? m.registers.pc with
  | some t =>
      dsimp only
      rw [(untouched_callTrap m t).changes]
      unfold stored
      rw [htrap]
      rfl
  | none =>
      have hexecute := changes_executeInstruction h htrap
      generalize m.executeInstruction = outcome at hexecute ⊢
      obtain ⟨m₁, halt⟩ := outcome
      cases halt with
      | some halt => exact hexecute
      | none =>
          dsimp only
          split
          · rw [(untouched_callTrap m₁ _).changes]
            exact hexecute
          · exact hexecute

private theorem registers_step (m : Machine δ) :
    m.step.1.registers = m.advance.1.registers := by
  unfold step
  dsimp only
  split
  · rfl
  · rfl

theorem changes_step {m : Machine δ} (h : m.isTracking = true) :
    m.step.1.changes = { m.changes with
      written := m.changes.written.addAll m.stored
      registers := m.changes.registers ||
        decide (m.step.1.registers ≠ m.registers) } := by
  have hadvance := changes_advance h
  have htracking := (isTracking_congr (steered_advance m).state).trans h
  rw [registers_step]
  unfold step
  dsimp only
  rw [htracking]
  by_cases hregisters : m.advance.1.registers = m.registers
  · simp [hregisters, hadvance]
  · simp [hregisters, hadvance, Changes.recordRegisters]

private theorem written_step {m : Machine δ} (h : m.isTracking = true) :
    m.step.1.changes.written = m.changes.written.addAll m.stored := by
  rw [changes_step h]

/-! Where a step ends up. -/

theorem advance_of_caller {m : Machine δ} {t : Trap}
    (h : Trap.at? m.registers.pc = some t) :
    m.trapCalled? = some t ∧ m.advance = m.callTrap t := by
  unfold advance trapCalled?
  rw [h]
  exact ⟨rfl, rfl⟩

theorem advance_of_halt {m m₁ : Machine δ} {halt : Halt}
    (hbefore : Trap.at? m.registers.pc = none)
    (h : m.executeInstruction = (m₁, some halt)) :
    m.trapCalled? = none ∧ m.advance = (m₁, some halt) := by
  unfold advance trapCalled?
  rw [hbefore, h]
  exact ⟨rfl, rfl⟩

theorem advance_of_trap {m m₁ : Machine δ} {t : Trap}
    (hbefore : Trap.at? m.registers.pc = none) (h : m.executeInstruction = (m₁, none))
    (hafter : Trap.at? m₁.registers.pc = some t) :
    m.trapCalled? = some t ∧ m.advance = m₁.callTrap t := by
  unfold advance trapCalled?
  rw [hbefore, h]
  simp only [hafter, and_self]

theorem advance_of_finished {m m₁ : Machine δ} (hbefore : Trap.at? m.registers.pc = none)
    (h : m.executeInstruction = (m₁, none)) (hafter : Trap.at? m₁.registers.pc = none) :
    m.trapCalled? = none ∧ m.advance = m₁.finished := by
  unfold advance trapCalled?
  rw [hbefore, h]
  simp only [hafter, and_self]

/-! What a step stops with ends the run. -/

theorem endsRun_callTrap (m : Machine δ) (t : Trap) : (m.callTrap t).EndsRun := by
  have hserve := (served_ready m t).endsRun
  rw [callTrap_eq]
  generalize (m.ready t).serve t = o at hserve ⊢
  obtain ⟨m₁, halt⟩ := o
  cases halt with
  | none => exact nofun
  | some halt => exact hserve

omit [Host δ] in
private theorem endsRun_executeDecoded (m : Machine δ) (opcode : UInt8)
    (decoded : Option OpcodeEntry) :
    (m.executeDecoded opcode decoded).EndsRun := by
  unfold executeDecoded
  split
  · rintro _ ⟨⟩
  · split
    · rintro _ ⟨⟩
    · rintro _ ⟨⟩

private theorem endsRun_advance (m : Machine δ) : m.advance.EndsRun := by
  have hexecute : m.executeInstruction.EndsRun := by
    rw [executeInstruction_eq]
    exact endsRun_executeDecoded m _ _
  unfold advance
  generalize m.executeInstruction = outcome at hexecute ⊢
  obtain ⟨m₁, halt⟩ := outcome
  split
  · exact endsRun_callTrap m _
  · cases halt with
    | some halt => exact hexecute
    | none =>
        dsimp only
        split
        · exact endsRun_callTrap m₁ _
        · rintro _ ⟨⟩

theorem endsRun_step (m : Machine δ) : m.step.EndsRun := by
  have hadvance := endsRun_advance m
  unfold step
  dsimp only
  split
  · exact hadvance
  · exact hadvance

/-! Rounds. -/

theorem round_of_stopped {m : Machine δ} (plan : RunPlan) (n : Nat)
    (h : m.stopRequested = true) :
    m.round plan n = (m, .inl (.ok .cancelled)) := by
  unfold round
  rw [if_pos h]

theorem round_of_halt {m m₁ : Machine δ} {halt : Halt} (plan : RunPlan) (n : Nat)
    (hstop : m.stopRequested = false) (h : m.step = (m₁, some halt)) :
    m.round plan n = (m₁, .inl halt.result) := by
  have hgoes : ¬m.stopRequested = true := by
    rw [hstop]
    exact Bool.false_ne_true
  unfold round
  rw [if_neg hgoes, h]
  cases halt with
  | stop reason => rfl
  | error e => rfl

theorem round_of_finished {m m₁ : Machine δ} (plan : RunPlan) (n : Nat)
    (hstop : m.stopRequested = false) (h : m.step = (m₁, none)) :
    m.round plan n =
      match (m₁.periodicTurn (n + 1)).1.pauses? plan with
      | some reason => ((m₁.periodicTurn (n + 1)).1, .inl (.ok reason))
      | none => ((m₁.periodicTurn (n + 1)).1, .inr (m₁.periodicTurn (n + 1)).2) := by
  have hgoes : ¬m.stopRequested = true := by
    rw [hstop]
    exact Bool.false_ne_true
  unfold round
  rw [if_neg hgoes]
  exact h ▸ rfl

theorem runRounds_of_inl {m m₁ : Machine δ} {plan : RunPlan} {n : Nat}
    {result : RunResult} (h : m.round plan n = (m₁, .inl result)) (fuel : Nat) :
    runRounds plan (fuel + 1) m n = some (m₁, result) := by
  unfold runRounds
  rw [h]

theorem runRounds_of_inr {m m₁ : Machine δ} {plan : RunPlan} {n n₁ : Nat}
    (h : m.round plan n = (m₁, .inr n₁)) (fuel : Nat) :
    runRounds plan (fuel + 1) m n = runRounds plan fuel m₁ n₁ := by
  rw [runRounds, h]

/-! Stepping by hand. -/

def stepIn (m : Machine δ) : Machine δ × RunResult :=
  (execute 1 m .stepInto).getD (m, .ok .step)

def stepsIn : Nat → Machine δ → Machine δ
  | 0, m => m
  | n + 1, m => stepsIn n m.stepIn.1

private theorem stepsIn_succ (m : Machine δ) (n : Nat) :
    m.stepsIn (n + 1) = (m.stepsIn n).stepIn.1 := by
  induction n generalizing m with
  | zero => rfl
  | succ n ih => exact ih m.stepIn.1

theorem execute_stepInto_of_halt {m m₁ : Machine δ} {halt : Halt}
    (h : (m.startRun .stepInto).step = (m₁, some halt)) (fuel : Nat) :
    execute (fuel + 1) m .stepInto =
      some (m₁.endRun .stepInto halt.result, halt.result) := by
  unfold execute
  dsimp only
  rw [runRounds_of_inl (round_of_halt _ 0 rfl h)]
  rfl

theorem execute_stepInto_of_finished {m m₁ : Machine δ}
    (h : (m.startRun .stepInto).step = (m₁, none)) (fuel : Nat) :
    execute (fuel + 1) m .stepInto =
      some ((m₁.periodicTurn 1).1.endRun .stepInto (.ok .step), .ok .step) := by
  have hround := round_of_finished ((m.startRun .stepInto).plan .stepInto) 0 rfl h
  have hpauses : (m₁.periodicTurn 1).1.pauses? ((m.startRun .stepInto).plan .stepInto) =
      some .step := by
    simp [pauses?, plan]
  rw [hpauses] at hround
  unfold execute
  dsimp only
  rw [runRounds_of_inl hround]
  rfl

private theorem execute_stepInto (m : Machine δ) (fuel : Nat) :
    execute (fuel + 1) m .stepInto = some m.stepIn := by
  unfold stepIn
  cases h : (m.startRun .stepInto).step with
  | mk m₁ halt =>
      cases halt with
      | some halt =>
          rw [execute_stepInto_of_halt h, execute_stepInto_of_halt h]
          rfl
      | none =>
          rw [execute_stepInto_of_finished h, execute_stepInto_of_finished h]
          rfl

private theorem stepIn_of_halt {m m₁ : Machine δ} {halt : Halt}
    (h : (m.startRun .stepInto).step = (m₁, some halt)) :
    m.stepIn = (m₁.endRun .stepInto halt.result, halt.result) :=
  Option.some.inj ((execute_stepInto m 0).symm.trans (execute_stepInto_of_halt h 0))

private theorem stepIn_of_finished {m m₁ : Machine δ}
    (h : (m.startRun .stepInto).step = (m₁, none)) :
    m.stepIn = ((m₁.periodicTurn 1).1.endRun .stepInto (.ok .step), .ok .step) :=
  Option.some.inj ((execute_stepInto m 0).symm.trans (execute_stepInto_of_finished h 0))

/-- What ends a run at a step made by hand: that the step did not finish, or a
breakpoint. -/
def endOf? : Machine δ × RunResult → Option RunResult
  | (m, .ok .step) =>
      if m.breakpoints.contains m.registers.pc
        then some (.ok (.breakpoint m.registers.pc)) else none
  | (_, result) => some result

omit [Host δ] in
private theorem endOf?_result {m : Machine δ} {halt : Halt}
    (h : ∀ reason, some halt = some (.stop reason) → reason.endsRun = true) :
    endOf? (m, halt.result) = some halt.result := by
  cases halt with
  | error e => rfl
  | stop reason =>
      cases reason with
      | step => cases h _ rfl
      | _ => rfl

def stopAt? (m : Machine δ) : Nat → Option RunResult
  | 0 => none
  | n + 1 => endOf? (m.stepsIn n).stepIn

/-- The `n`th step made by hand is the first that would end a run. -/
def FirstStop (m : Machine δ) (n : Nat) (result : RunResult) : Prop :=
  m.stopAt? n = some result ∧ ∀ k < n, m.stopAt? k = none

/-! Alike machines, of which one is stepped by hand and the other runs. -/

section Placid

variable {like : δ → δ → Prop} {m m' m₁ m₂ m₃ : Machine δ}

omit [Host δ] in
theorem Alike.endRun (h : Alike like m m') (mode : RunMode) (result : RunResult) :
    Alike like (m.endRun mode result) m' :=
  { h with }

omit [Host δ] in
private theorem Alike.after_endRun (h : Alike like m m') (mode : RunMode)
    (result : RunResult) :
    Alike like m (m'.endRun mode result) :=
  { h with }

/-- Between two steps made by hand, `s` is where the run is at `r`. -/
structure Beside (like : δ → δ → Prop) (s r : Machine δ) : Prop where
  alike : Alike like (s.startRun .stepInto) r
  tracking : r.isTracking = true

def runPlan : RunPlan :=
  { mode := .run, single := false, target := none }

omit [Host δ] in
theorem pauses?_runPlan (m : Machine δ) : m.pauses? runPlan =
    if m.breakpoints.contains m.registers.pc then some (.breakpoint m.registers.pc)
      else none := by
  simp [pauses?, runPlan]

private theorem Beside.mem_written_step {s r : Machine δ} (h : Beside like s r)
    {a : UInt16} :
    a ∈ r.step.1.changes.written ↔
      a ∈ r.changes.written ∨ a ∈ (s.startRun .stepInto).step.1.changes.written := by
  have htracking : (s.startRun .stepInto).isTracking = true :=
    s.isTracking_startRun (by decide)
  rw [written_step h.tracking, written_step htracking, h.alike.matched.stored_eq,
    (s.changes_startRun _).1, AddressSet.mem_addAll, AddressSet.mem_addAll]
  simp

theorem Beside.round {s r : Machine δ} (hlike : Placid like) (h : Beside like s r)
    (hclock : ¬(s.startRun .stepInto).ReadsClock) (n : Nat) :
    ∃ r', Alike like s.stepIn.1 r' ∧
      (∀ a, a ∈ r'.changes.written ↔
        a ∈ r.changes.written ∨ a ∈ s.stepIn.1.changes.written) ∧
      ((∃ result, endOf? s.stepIn = some result ∧ r.round runPlan n = (r', .inl result)) ∨
        endOf? s.stepIn = none ∧ Beside like s.stepIn.1 r' ∧
          ∃ n', r.round runPlan n = (r', .inr n')) := by
  have hstop : r.stopRequested = false := h.alike.quiet'
  have hstep := h.alike.step hlike hclock
  have hends := endsRun_step (s.startRun .stepInto)
  have htracking := (isTracking_congr (steered_step r).state).trans h.tracking
  have hwritten := fun a => h.mem_written_step (a := a)
  cases hs : (s.startRun .stepInto).step with
  | mk s₁ halt =>
      cases hr : r.step with
      | mk r₁ halt' =>
          rw [hs, hr] at hstep hwritten
          rw [hs] at hends
          rw [hr] at htracking
          obtain ⟨hmachine, rfl⟩ := hstep
          change Alike like s₁ r₁ at hmachine
          cases halt' with
          | some halt =>
              rw [stepIn_of_halt hs]
              refine ⟨r₁, hmachine.endRun _ _, ?_, .inl ⟨halt.result, ?_, ?_⟩⟩
              · rw [(s₁.changes_endRun halt.result (by decide)).1]
                exact hwritten
              · exact endOf?_result hends
              · exact round_of_halt runPlan n hstop hr
          | none =>
              have hturn := hmachine.periodicTurn hlike 1 (n + 1)
              have hround := round_of_finished runPlan n hstop hr
              rw [pauses?_runPlan, hturn.breakpoints, hturn.registers] at hround
              rw [stepIn_of_finished hs]
              refine ⟨(r₁.periodicTurn (n + 1)).1,
                hturn.endRun .stepInto (.ok .step), ?_, ?_⟩
              · rw [(changes_endRun _ _ (by decide)).1,
                  (untouched_periodicTurn s₁ 1).changes,
                  (untouched_periodicTurn r₁ (n + 1)).changes]
                exact hwritten
              · generalize (s₁.periodicTurn 1).1 = s₂ at hturn hround ⊢
                by_cases hbreak : s₂.breakpoints.contains s₂.registers.pc = true
                · rw [if_pos hbreak] at hround
                  exact .inl ⟨_, if_pos hbreak, hround⟩
                · rw [if_neg hbreak] at hround
                  refine .inr ⟨if_neg hbreak,
                    ⟨{ hturn with quiet := rfl }, ?_⟩, _, hround⟩
                  exact (isTracking_congr (steered_periodicTurn r₁ (n + 1)).state).trans
                    htracking

/-- No step made by hand up to the first that would end a run reads the clock. -/
def Clockless (m : Machine δ) : Prop :=
  ∀ n, (∀ k ≤ n, m.stopAt? k = none) → ¬((m.stepsIn n).startRun .stepInto).ReadsClock

theorem Clockless.start (h : Clockless m) : ¬(m.startRun .stepInto).ReadsClock := by
  apply h 0
  intro k hk
  rw [Nat.le_zero.1 hk]
  rfl

theorem Clockless.stepIn (h : Clockless m) (hgoes : endOf? m.stepIn = none) :
    Clockless m.stepIn.1 := by
  intro n hn
  apply h (n + 1)
  intro k hk
  cases k with
  | zero => rfl
  | succ k =>
      cases k with
      | zero => exact hgoes
      | succ k => exact hn (k + 1) (Nat.le_of_succ_le_succ hk)

theorem FirstStop.stepIn {n : Nat} {result : RunResult} (h : FirstStop m (n + 2) result) :
    FirstStop m.stepIn.1 (n + 1) result := by
  refine ⟨h.1, fun k hk => ?_⟩
  cases k with
  | zero => rfl
  | succ k => exact h.2 (k + 2) (Nat.succ_lt_succ hk)

private theorem FirstStop.not_mem_breakpoints {n k : Nat} {result : RunResult}
    (h : FirstStop m n result) (hk : k < n) (hpos : 0 < k) :
    (m.stepsIn k).registers.pc ∉ (m.stepsIn k).breakpoints := by
  cases k with
  | zero => cases hpos
  | succ k =>
      have hgoes : endOf? (m.stepsIn k).stepIn = none := h.2 (k + 1) hk
      rw [stepsIn_succ]
      intro hbreak
      unfold endOf? at hgoes
      split at hgoes
      · rename_i heq
        rw [heq] at hbreak
        simp [hbreak] at hgoes
      · cases hgoes

/-- A run whose `n`th step by hand would be the first to end it makes `n` rounds. -/
theorem Beside.runRounds_of_firstStop {s r : Machine δ} {n : Nat} {result : RunResult}
    (hlike : Placid like) (h : Beside like s r) (hclock : Clockless s)
    (hstop : FirstStop s (n + 1) result) (count : Nat) :
    ∃ r', (∀ fuel, runRounds runPlan fuel r count =
        if n + 1 ≤ fuel then some (r', result) else none) ∧
      Alike like (s.stepsIn (n + 1)) r' ∧
      ∀ a, a ∈ r'.changes.written ↔
        a ∈ r.changes.written ∨ ∃ k < n + 1, a ∈ (s.stepsIn (k + 1)).changes.written := by
  -- By the steps that remain: after each of them the run and the steps stand beside each
  -- other again.
  induction n generalizing s r count with
  | zero =>
      have hend : endOf? s.stepIn = some result := hstop.1
      obtain ⟨r', halike, hwritten, ⟨result', hend', hround⟩ | ⟨hgoes, -⟩⟩ :=
        h.round hlike hclock.start count
      · cases hend.symm.trans hend'
        refine ⟨r', fun fuel => ?_, halike, fun a => ?_⟩
        · cases fuel with
          | zero => rfl
          | succ fuel => simp [runRounds_of_inl hround]
        · simpa [stepsIn] using hwritten a
      · cases hend.symm.trans hgoes
  | succ n ih =>
      have hgoes : endOf? s.stepIn = none := hstop.2 1 (by omega)
      obtain ⟨r', halike, hwritten, ⟨result', hend, -⟩ | ⟨-, hbeside, count', hround⟩⟩ :=
        h.round hlike hclock.start count
      · cases hgoes.symm.trans hend
      · obtain ⟨r'', hrun, halike', hwritten'⟩ :=
          ih hbeside (hclock.stepIn hgoes) hstop.stepIn count'
        refine ⟨r'', fun fuel => ?_, halike', fun a => ?_⟩
        · cases fuel with
          | zero => rfl
          | succ fuel =>
              rw [runRounds_of_inr hround, hrun]
              simp
        · rw [hwritten', hwritten, or_assoc]
          apply or_congr_right
          exact (Nat.exists_lt_succ_left (p := fun k =>
            a ∈ (s.stepsIn (k + 1)).changes.written)).symm

/-- A run that no step by hand would end does not end. -/
theorem Beside.runRounds_of_never {s r : Machine δ} (hlike : Placid like)
    (h : Beside like s r) (hclock : Clockless s) (hnever : ∀ n, s.stopAt? n = none)
    (fuel count : Nat) :
    runRounds runPlan fuel r count = none := by
  induction fuel generalizing s r count with
  | zero => rfl
  | succ fuel ih =>
      have hgoes : endOf? s.stepIn = none := hnever 1
      obtain ⟨r', -, -, ⟨result', hend, -⟩ | ⟨-, hbeside, count', hround⟩⟩ :=
        h.round hlike hclock.start count
      · cases hgoes.symm.trans hend
      · rw [runRounds_of_inr hround]
        apply ih hbeside (hclock.stepIn hgoes)
        intro n
        cases n with
        | zero => rfl
        | succ n => exact hnever (n + 2)

theorem host_beginRun (m : Machine δ) : m.beginRun.host = (Host.readClock m.host).2 := by
  unfold beginRun recordWrites
  dsimp only
  split <;> rfl

private theorem beside_startRun (hlike : Placid like) (hhost : like m.host m.host) :
    Beside like m (m.startRun .run) := by
  refine ⟨?_, m.isTracking_startRun (by decide)⟩
  have hstart : like (m.startRun .run).host (m.startRun .run).host := by
    unfold startRun
    dsimp only
    split
    · rw [host_beginRun]
      exact hlike.readClock hhost
    · exact hhost
  exact ⟨rfl, rfl, rfl, rfl, rfl, rfl, rfl, rfl, rfl, rfl, hstart⟩

theorem execute_run_eq (m : Machine δ) (fuel : Nat) :
    execute fuel m .run =
      (runRounds runPlan fuel (m.startRun .run) 0).map fun (m, result) =>
      (m.endRun .run result, result) := by
  have hplan : (m.startRun .run).plan .run = runPlan := by simp [plan, runPlan]
  unfold execute
  dsimp only
  rw [hplan]

private theorem exists_firstStop {n : Nat} (h : m.stopAt? n ≠ none) :
    ∃ n result, FirstStop m n result := by
  induction n using Nat.strongRecOn with
  | ind n ih =>
      by_cases hearlier : ∃ k < n, m.stopAt? k ≠ none
      · obtain ⟨k, hk, hstop⟩ := hearlier
        exact ih k hk hstop
      · obtain ⟨result, hresult⟩ := Option.ne_none_iff_exists'.1 h
        exact ⟨n, result, hresult, fun k hk =>
          Decidable.byContradiction fun hstop => hearlier ⟨k, hk, hstop⟩⟩

/-- A run ends as stepping by hand first would, with the same machine and a host that is
alike, and tells of all writes that the steps tell of. It goes on for ever if stepping by
hand would never end it. -/
theorem execute_run_eq_stepsIn (hlike : Placid like) (hhost : like m.host m.host)
    (hclock : Clockless m) :
    (∀ n result, FirstStop m n result →
      0 < n ∧
      (∀ k < n, 0 < k → (m.stepsIn k).registers.pc ∉ (m.stepsIn k).breakpoints) ∧
      ∃ m', (∀ fuel, execute fuel m .run = if n ≤ fuel then some (m', result) else none) ∧
        Alike like (m.stepsIn n) m' ∧
        ∀ a, a ∈ m'.changes.takeWritten.1 ↔
          ∃ k < n, a ∈ (m.stepsIn (k + 1)).changes.takeWritten.1) ∧
    ((∀ fuel, execute fuel m .run = none) ↔ ∀ n, m.stopAt? n = none) := by
  have hbeside := beside_startRun hlike hhost
  have hends : ∀ n result, FirstStop m (n + 1) result →
      ∃ m', (∀ fuel, execute fuel m .run =
        if n + 1 ≤ fuel then some (m', result) else none) ∧
        Alike like (m.stepsIn (n + 1)) m' ∧
        ∀ a, a ∈ m'.changes.takeWritten.1 ↔
          ∃ k < n + 1, a ∈ (m.stepsIn (k + 1)).changes.takeWritten.1 := by
    intro n result hstop
    obtain ⟨r, hrun, halike, hwritten⟩ :=
      hbeside.runRounds_of_firstStop hlike hclock hstop 0
    refine ⟨r.endRun .run result, fun fuel => ?_, halike.after_endRun _ _, fun a => ?_⟩
    · rw [execute_run_eq, hrun]
      split
      · rfl
      · rfl
    · obtain ⟨hkept, -⟩ := r.changes_endRun result (show RunMode.run ≠ .turbo by decide)
      obtain ⟨hempty, -⟩ := m.changes_startRun .run
      simp only [Changes.mem_takeWritten, hkept, hwritten, hempty,
        Std.ExtTreeSet.not_mem_empty, false_or]
  refine ⟨fun n result hstop => ?_, fun hnever n => ?_, fun hnever fuel => ?_⟩
  · cases n with
    | zero => cases hstop.1
    | succ n =>
        exact ⟨n.succ_pos, fun k hk hpos => hstop.not_mem_breakpoints hk hpos,
          hends n result hstop⟩
  · apply Decidable.byContradiction
    intro hne
    obtain ⟨n, result, hstop⟩ := exists_firstStop hne
    cases n with
    | zero => cases hstop.1
    | succ n =>
        obtain ⟨m', hrun, -⟩ := hends n result hstop
        have hsome := hrun (n + 1)
        rw [hnever, if_pos (Nat.le_refl _)] at hsome
        cases hsome
  · rw [execute_run_eq, hbeside.runRounds_of_never hlike hclock hnever]
    rfl

end Placid

end Machine

/-- A host without input that counts its turns. -/
structure Ticker where
  turns : Nat := 0
deriving DecidableEq, Repr, Inhabited

instance : Host Ticker where
  writeByte host _ := { host }
  readByte host _ _ := (.closed, { host })
  processEvents host := { host := ⟨host.turns + 1⟩ }
  close host := host
  readClock host := ({}, host)

theorem placid_ticker : Placid fun _ _ : Ticker => True where
  symm := fun _ => trivial
  writeByte := fun _ _ => ⟨trivial, rfl, rfl⟩
  readByte := fun _ _ => ⟨rfl, trivial, rfl, rfl⟩
  processEvents := fun _ => ⟨trivial, rfl, rfl⟩
  readClock := fun _ => trivial

namespace Machine

/-- Two calls of a trap, by the return addresses on the stack, and then the end. -/
def ticking : Machine Ticker :=
  { memory := (Memory.filled 0).writeAll
      [(0x01FC, 0xE8), (0x01FD, 0xFF), (0x01FE, 0xDF), (0x01FF, 0xFF)]
    registers := { Registers.initial with pc := Trap.clearCycles.address, sp := 0xFB }
    state := .paused
    settings := { yieldInterval := 2 }
    host := {} }

theorem firstStop_ticking : FirstStop ticking 3 (.ok .terminated) := by
  refine ⟨by decide +kernel, fun k hk => ?_⟩
  obtain rfl | rfl | rfl : k = 0 ∨ k = 1 ∨ k = 2 := by omega
  · rfl
  · decide +kernel
  · decide +kernel

private theorem trapCalled?_ticking {n : Nat} (h : n < 3) :
    ((ticking.stepsIn n).startRun .stepInto).trapCalled? =
      some (if n = 2 then .terminate else .clearCycles) := by
  obtain rfl | rfl | rfl : n = 0 ∨ n = 1 ∨ n = 2 := by omega
  · decide +kernel
  · decide +kernel
  · decide +kernel

theorem clockless_ticking : Clockless ticking := by
  intro n hn
  have hlt : n < 3 := by
    apply Decidable.byContradiction
    intro hge
    have hend := firstStop_ticking.1
    rw [hn 3 (by omega)] at hend
    cases hend
  rintro ⟨t, ht, hclock⟩
  rw [trapCalled?_ticking hlt] at ht
  cases ht
  split at hclock
  · cases hclock
  · cases hclock

theorem execute_run_eq_stepsIn_ticking :
    Placid (fun _ _ : Ticker => True) ∧ Clockless ticking ∧
    FirstStop ticking 3 (.ok .terminated) ∧
      ∃ m', execute 3 ticking .run = some (m', .ok .terminated) ∧
        Alike (fun _ _ => True) (ticking.stepsIn 3) m' := by
  obtain ⟨-, -, m', hrun, halike, -⟩ :=
    (execute_run_eq_stepsIn placid_ticker trivial clockless_ticking).1 3 _
      firstStop_ticking
  exact ⟨placid_ticker, clockless_ticking, firstStop_ticking, m', hrun 3, halike⟩

/-- A run gives the host a turn after two steps, and stepping by hand gives it none. -/
theorem execute_run_ticks :
    Placid (fun _ _ : Ticker => True) ∧ Clockless ticking ∧
    FirstStop ticking 3 (.ok .terminated) ∧
      ∃ m', execute 3 ticking .run = some (m', .ok .terminated) ∧
        m'.host ≠ (ticking.stepsIn 3).host := by
  have hticks : ∀ run ∈ execute 3 ticking .run,
      run.2 = .ok .terminated ∧ run.1.host ≠ (ticking.stepsIn 3).host := by
    decide +kernel
  have hends : (execute 3 ticking .run).isSome = true := by
    decide +kernel
  obtain ⟨⟨m', result⟩, hrun⟩ := Option.isSome_iff_exists.1 hends
  obtain ⟨hresult, hhost⟩ := hticks (m', result) hrun
  cases hresult
  exact ⟨placid_ticker, clockless_ticking, firstStop_ticking, m', hrun, hhost⟩

end Machine

end Breadboard
