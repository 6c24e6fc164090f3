import Breadboard.Proofs.Machine.Stepping

namespace Breadboard.Machine

variable {δ : Type}

/-- The machine that the next round of a run steps, if it comes to that: the run has not
ended and no stop is requested. -/
def stepping? (stage : Machine δ × (RunResult ⊕ Nat)) : Option (Machine δ) :=
  match stage.2 with
  | .inl _ => none
  | .inr _ => if stage.1.stopRequested then none else some stage.1

theorem stepping?_eq_some {m : Machine δ} (n : Nat) (hstop : m.stopRequested = false) :
    stepping? (m, .inr n) = some m := by
  simp [stepping?, hstop]

theorem stepping?_eq_none {stage : Machine δ × (RunResult ⊕ Nat)}
    (hstop : stage.1.stopRequested = true) :
    stepping? stage = none := by
  unfold stepping?
  split
  · rfl
  · exact if_pos hstop

theorem of_stepping?_eq_some {stage : Machine δ × (RunResult ⊕ Nat)} {m : Machine δ}
    (h : stepping? stage = some m) :
    ∃ n, stage = (m, .inr n) ∧ m.stopRequested = false := by
  obtain ⟨m₁, end?⟩ := stage
  cases end? with
  | inl result => cases h
  | inr n =>
      unfold stepping? at h
      dsimp only at h
      split at h
      · cases h
      · rename_i hstop
        cases h
        exact ⟨n, rfl, Bool.eq_false_iff.2 hstop⟩

variable [Host δ]

def rounds (plan : RunPlan) (m : Machine δ) (n : Nat) :
    Nat → Machine δ × (RunResult ⊕ Nat)
  | 0 => (m, .inr n)
  | k + 1 =>
      match m.rounds plan n k with
      | (m, .inl result) => (m, .inl result)
      | (m, .inr n) => m.round plan n

def course (m : Machine δ) (mode : RunMode) (k : Nat) : Machine δ × (RunResult ⊕ Nat) :=
  (m.startRun mode).rounds ((m.startRun mode).plan mode) 0 k

private theorem rounds_succ_of_inl {m m₁ : Machine δ} {plan : RunPlan} {n : Nat}
    {result : RunResult} (h : m.round plan n = (m₁, .inl result)) (k : Nat) :
    m.rounds plan n (k + 1) = (m₁, .inl result) := by
  induction k with
  | zero => exact h
  | succ k ih =>
      rw [rounds, ih]

private theorem rounds_succ_of_inr {m m₁ : Machine δ} {plan : RunPlan} {n n₁ : Nat}
    (h : m.round plan n = (m₁, .inr n₁)) (k : Nat) :
    m.rounds plan n (k + 1) = m₁.rounds plan n₁ k := by
  induction k with
  | zero => exact h
  | succ k ih =>
      rw [rounds, ih]
      rfl

theorem rounds_succ_of_stepping {m m₁ : Machine δ} {plan : RunPlan} {n n₁ k : Nat}
    (h : m.rounds plan n k = (m₁, .inr n₁)) :
    m.rounds plan n (k + 1) = m₁.round plan n₁ := by
  rw [rounds, h]

theorem rounds_succ_of_idle {m : Machine δ} {plan : RunPlan} {n k : Nat}
    (h : stepping? (m.rounds plan n k) = none) :
    ∃ result, m.rounds plan n (k + 1) = ((m.rounds plan n k).1, .inl result) := by
  unfold stepping? at h
  rw [rounds]
  generalize m.rounds plan n k = stage at h ⊢
  obtain ⟨m₁, end?⟩ := stage
  cases end? with
  | inl result => exact ⟨result, rfl⟩
  | inr n =>
      refine ⟨.ok .cancelled, round_of_stopped plan n ?_⟩
      dsimp only at h
      split at h
      · assumption
      · cases h

theorem rounds_of_inl {m m₁ : Machine δ} {plan : RunPlan} {n k l : Nat}
    {result : RunResult} (h : m.rounds plan n k = (m₁, .inl result)) (hle : k ≤ l) :
    m.rounds plan n l = (m₁, .inl result) := by
  induction hle with
  | refl => exact h
  | step _ ih => rw [rounds, ih]

private theorem runRounds_eq_rounds (plan : RunPlan) (fuel : Nat)
    (m : Machine δ) (n : Nat) :
    runRounds plan fuel m n =
      match m.rounds plan n fuel with
      | (m, .inl result) => some (m, result)
      | (_, .inr _) => none := by
  induction fuel generalizing m n with
  | zero => rfl
  | succ fuel ih =>
      cases h : m.round plan n with
      | mk m₁ o =>
          cases o with
          | inl result => rw [runRounds_of_inl h, rounds_succ_of_inl h]
          | inr n₁ => rw [runRounds_of_inr h, rounds_succ_of_inr h, ih]

/-- A run ends as its course does within the rounds that the fuel allows. -/
theorem execute_eq_course (m : Machine δ) (mode : RunMode) (fuel : Nat) :
    execute fuel m mode =
      match m.course mode fuel with
      | (m, .inl result) => some (m.endRun mode result, result)
      | (_, .inr _) => none := by
  unfold execute course
  dsimp only
  rw [runRounds_eq_rounds]
  split
  · rfl
  · rfl

/-- What makes two runs by the same plan keep step with each other. Only steps at which
the guard holds need to keep the machines related. -/
structure Lockstep (plan : RunPlan) (guard related : Machine δ → Machine δ → Prop)
    (counts : Nat → Nat → Prop) : Prop where
  stopRequested : ∀ {m m' : Machine δ}, related m m' → m'.stopRequested = m.stopRequested
  step : ∀ {m m' : Machine δ}, related m m' → guard m m' →
    related m.step.1 m'.step.1 ∧ m'.step.2 = m.step.2
  periodicTurn : ∀ {m m' : Machine δ} {n n' : Nat}, related m m' → counts n n' →
    related (m.periodicTurn (n + 1)).1 (m'.periodicTurn (n' + 1)).1 ∧
      counts (m.periodicTurn (n + 1)).2 (m'.periodicTurn (n' + 1)).2
  pauses? : ∀ {m m' : Machine δ}, related m m' → m'.pauses? plan = m.pauses? plan

namespace Lockstep

variable {plan : RunPlan} {guard related : Machine δ → Machine δ → Prop}
  {counts : Nat → Nat → Prop} {m m' : Machine δ} {n n' : Nat}

theorem round (h : Lockstep plan guard related counts) (hm : related m m')
    (hn : counts n n')
    (hguard : m.stopRequested = false → m'.stopRequested = false → guard m m') :
    related (m.round plan n).1 (m'.round plan n').1 ∧
      Sum.LiftRel Eq counts (m.round plan n).2 (m'.round plan n').2 := by
  have hstops := h.stopRequested hm
  cases hstop : m.stopRequested with
  | true =>
      unfold Machine.round
      rw [if_pos hstop, if_pos (hstops.trans hstop)]
      exact ⟨hm, .inl rfl⟩
  | false =>
      have hstep := h.step hm (hguard hstop (hstops.trans hstop))
      cases hs : m.step with
      | mk m₁ halt =>
          cases hs' : m'.step with
          | mk m₁' halt' =>
              rw [hs, hs'] at hstep
              obtain ⟨hm₁, rfl⟩ := hstep
              cases halt' with
              | some halt =>
                  rw [round_of_halt plan n hstop hs,
                    round_of_halt plan n' (hstops.trans hstop) hs']
                  exact ⟨hm₁, .inl rfl⟩
              | none =>
                  obtain ⟨hm₂, hcounts⟩ := h.periodicTurn hm₁ hn
                  rw [round_of_finished plan n hstop hs,
                    round_of_finished plan n' (hstops.trans hstop) hs', h.pauses? hm₂]
                  cases (m₁.periodicTurn (n + 1)).1.pauses? plan with
                  | some reason => exact ⟨hm₂, .inl rfl⟩
                  | none => exact ⟨hm₂, .inr hcounts⟩

/-- Runs that start related stay so for as many rounds as the guard holds,
and end in the same one. -/
theorem rounds (h : Lockstep plan guard related counts) (hm : related m m')
    (hn : counts n n') {k : Nat} (hguard : ∀ j < k, ∀ m₁ ∈ stepping? (m.rounds plan n j),
      ∀ m₁' ∈ stepping? (m'.rounds plan n' j), guard m₁ m₁') :
    related (m.rounds plan n k).1 (m'.rounds plan n' k).1 ∧
      Sum.LiftRel Eq counts (m.rounds plan n k).2 (m'.rounds plan n' k).2 := by
  induction k with
  | zero => exact ⟨hm, .inr hn⟩
  | succ k ih =>
      obtain ⟨hmachines, hends⟩ := ih fun j hj => hguard j (Nat.lt_succ_of_lt hj)
      have hlast := hguard k (Nat.lt_succ_self k)
      unfold Machine.rounds
      generalize m.rounds plan n k = stage at hmachines hends hlast ⊢
      generalize m'.rounds plan n' k = stage' at hmachines hends hlast ⊢
      obtain ⟨m₁, o⟩ := stage
      obtain ⟨m₁', o'⟩ := stage'
      cases hends with
      | inl hresult => exact ⟨hmachines, .inl hresult⟩
      | inr hcounts =>
          refine h.round hmachines hcounts fun hstop hstop' => ?_
          exact hlast m₁ (stepping?_eq_some _ hstop) m₁' (stepping?_eq_some _ hstop')

theorem course {mode : RunMode} (h : ∀ plan, Lockstep plan guard related counts)
    (hstart : related (m.startRun mode) (m'.startRun mode))
    (hplan : (m'.startRun mode).plan mode = (m.startRun mode).plan mode)
    (hcounts : counts 0 0) {k : Nat}
    (hguard : ∀ j < k, ∀ m₁ ∈ stepping? (m.course mode j),
      ∀ m₁' ∈ stepping? (m'.course mode j),
      guard m₁ m₁') :
    related (m.course mode k).1 (m'.course mode k).1 ∧
      Sum.LiftRel Eq counts (m.course mode k).2 (m'.course mode k).2 := by
  unfold Machine.course at hguard ⊢
  rw [hplan] at hguard ⊢
  exact (h _).rounds hstart hcounts hguard

end Lockstep

end Breadboard.Machine
