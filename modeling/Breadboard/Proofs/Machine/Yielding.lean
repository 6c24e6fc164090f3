import Breadboard.Host.Probe
import Breadboard.Proofs.Host.Watched

namespace Breadboard

namespace Sighting

def isTurn : Sighting → Bool
  | .turn _ => true
  | .read .. => false

def isRead : Sighting → Bool
  | .turn _ => false
  | .read .. => true

end Sighting

/-- Each read comes right after a turn. -/
inductive Ushered : List Sighting → Prop
  | nil : Ushered []
  | turn {seen : List Sighting} (stops : Bool) (h : Ushered seen) :
    Ushered (.turn stops :: seen)
  | read {seen : List Sighting} (timeout : Option Nat) (stopping stops : Bool)
    (h : Ushered seen) :
      Ushered (.read timeout stopping :: .turn stops :: seen)

theorem Ushered.append {new seen : List Sighting} (h : Ushered new)
    (hseen : Ushered seen) :
    Ushered (new ++ seen) := by
  induction h with
  | nil => exact hseen
  | turn stops _ ih => exact .turn stops ih
  | read timeout stopping stops _ ih => exact .read timeout stopping stops ih

/-- What is seen of the host in a step, by the trap that the step calls. -/
inductive SeenOf : Option Trap → List Sighting → Prop
  | waits {t : Trap} (hblocking : t.isBlocking = true) (timeout : Option Nat)
    (stopping stops : Bool) :
      SeenOf (some t) [.read timeout stopping, .turn stops]
  | turns (stops : Bool) : SeenOf (some .processEvents) [.turn stops]
  | nothing {t : Trap} (hblocking : t.isBlocking = false) (hne : t ≠ .processEvents) :
    SeenOf (some t) []
  | calm : SeenOf none []

namespace SeenOf

variable {called : Option Trap} {new : List Sighting}

theorem ushered (h : SeenOf called new) : Ushered new := by
  cases h with
  | waits _ timeout stopping stops => exact .read timeout stopping stops .nil
  | turns stops => exact .turn stops .nil
  | nothing | calm => exact .nil

private theorem countP_isTurn (h : SeenOf called new) : new.countP Sighting.isTurn =
    (if called.any Trap.isBlocking = true then 1 else 0) +
      (if (called == some .processEvents) = true then 1 else 0) := by
  cases h with
  | @waits t hblocking timeout stopping stops =>
      have hne : t ≠ .processEvents := by
        rintro rfl
        cases hblocking
      simp [hblocking, hne, Sighting.isTurn]
  | turns stops => rfl
  | nothing hblocking hne => simp [hblocking, hne]
  | calm => rfl

private theorem countP_isRead (h : SeenOf called new) : new.countP Sighting.isRead =
    if called.any Trap.isBlocking = true then 1 else 0 := by
  cases h with
  | waits hblocking timeout stopping stops => rw [Option.any_some, if_pos hblocking]; rfl
  | turns stops => rfl
  | nothing hblocking hne => simp [hblocking]
  | calm => rfl

end SeenOf

namespace Machine

variable {δ : Type}

/-- `new` is seen of the host on the way from `m` to `m'`. A stop that has
been asked for stays so. -/
structure Shows (m m' : Machine (Watched δ)) (new : List Sighting) : Prop where
  seen : m'.host.seen = new ++ m.host.seen
  settings : m'.settings = m.settings
  stays : m.stopRequested = true → m'.stopRequested = true
  asked : .turn true ∈ new → m'.stopRequested = true

namespace Shows

variable {m m' m'' : Machine (Watched δ)} {new new' : List Sighting}

theorem of_seen (hseen : m'.host.seen = m.host.seen)
    (hsettings : m'.settings = m.settings)
    (hstop : m.stopRequested = true → m'.stopRequested = true) : Shows m m' [] :=
  ⟨hseen, hsettings, hstop, nofun⟩

theorem trans (h : Shows m m' new) (h' : Shows m' m'' new') :
    Shows m m'' (new' ++ new) where
  seen := by rw [h'.seen, h.seen, List.append_assoc]
  settings := h'.settings.trans h.settings
  stays := fun hstop => h'.stays (h.stays hstop)
  asked := by
    intro hmem
    obtain hmem | hmem := List.mem_append.1 hmem
    · exact h'.asked hmem
    · exact h'.stays (h.asked hmem)

theorem quiet (h : Shows m m' new) (hseen : m''.host.seen = m'.host.seen)
    (hsettings : m''.settings = m'.settings)
    (hstop : m'.stopRequested = true → m''.stopRequested = true) : Shows m m'' new :=
  h.trans (of_seen hseen hsettings hstop)

variable [Host δ]

theorem giveTurn (m : Machine (Watched δ)) :
    Shows m m.giveTurn [.turn (Host.processEvents m.host.device).stops] where
  seen := rfl
  settings := rfl
  stays := fun hstop => by
    change (m.stopRequested || _) = true
    rw [hstop, Bool.true_or]
  asked := fun hmem => by
    change (m.stopRequested || (Host.processEvents m.host.device).stops) = true
    simp only [List.mem_singleton, Sighting.turn.injEq] at hmem
    rw [← hmem, Bool.or_true]

theorem output (m : Machine (Watched δ)) (bytes : List UInt8) :
    Shows m (m.output bytes) [] := by
  unfold Machine.output
  rw [Watched.writeAll]
  refine .of_seen rfl rfl fun hstop => ?_
  change (m.stopRequested || _) = true
  rw [hstop, Bool.true_or]

theorem input (m : Machine (Watched δ)) (timeout : Option Nat) :
    Shows m (m.input timeout).2 [.read timeout m.stopRequested] where
  seen := rfl
  settings := rfl
  stays := fun hstop => by
    change (m.stopRequested || _) = true
    rw [hstop, Bool.true_or]
  asked := fun hmem => by simp at hmem

end Shows

/-! Steps. -/

section Services

variable (m : Machine (Watched δ))

private theorem shows_recordWrites {m m' : Machine (Watched δ)} {new : List Sighting}
    (h : Shows m m' new) (writes : List Write) :
    Shows m (m'.recordWrites writes) new := by
  unfold recordWrites
  split
  · exact h.quiet rfl rfl id
  · exact h

private theorem shows_applyEffect (e : Effect) : Shows m (m.applyEffect e) [] := by
  unfold applyEffect
  split
  · exact .of_seen rfl rfl id
  · refine shows_recordWrites ?_ _
    exact .of_seen rfl rfl id

private theorem shows_executeDecoded (opcode : UInt8) (decoded : Option OpcodeEntry) :
    Shows m (m.executeDecoded opcode decoded).1 [] := by
  unfold executeDecoded
  split
  · exact .of_seen rfl rfl id
  · split
    · exact .of_seen rfl rfl id
    · exact shows_applyEffect m _

private theorem shows_executeInstruction : Shows m m.executeInstruction.1 [] := by
  rw [executeInstruction_eq]
  exact shows_executeDecoded m _ _

variable [Host δ]

theorem Shows.callTrap {t : Trap} {new : List Sighting}
    (h : Shows m ((m.ready t).asked t) new) :
    Shows m (m.callTrap t).1 new := by
  obtain ⟨r, -, hserve⟩ := (m.ready t).exists_serve_eq t
  rw [callTrap_eq, hserve]
  have hanswer : Shows m (((m.ready t).asked t).answer r).1 new := h.quiet rfl rfl id
  generalize ((m.ready t).asked t).answer r = o at hanswer ⊢
  obtain ⟨m₁, halt⟩ := o
  cases halt with
  | none => exact hanswer.quiet rfl rfl id
  | some halt => exact hanswer

private theorem exists_shows_callTrap (t : Trap) :
    ∃ new, SeenOf (some t) new ∧ Shows m (m.callTrap t).1 new := by
  cases t with
  | getCh =>
      have hread := (Shows.giveTurn m).trans (.input m.giveTurn none)
      exact ⟨_, .waits rfl _ _ _, .callTrap m hread⟩
  | getChTimeout =>
      have hread := (Shows.giveTurn m).trans
        (.input m.giveTurn (some m.giveTurn.pointer.toNat))
      exact ⟨_, .waits rfl _ _ _, .callTrap m hread⟩
  | processEvents => exact ⟨_, .turns _, .callTrap m (.giveTurn m)⟩
  | brkHandler | outCh | outStr =>
    exact ⟨_, .nothing rfl nofun, .callTrap m (.output m _)⟩
  | _ => exact ⟨_, .nothing rfl nofun, .callTrap m (.of_seen rfl rfl id)⟩

private theorem exists_shows_advance : ∃ new, SeenOf m.trapCalled? new ∧
    Shows m m.advance.1 new := by
  have hexecute := shows_executeInstruction m
  cases hbefore : Trap.at? m.registers.pc with
  | some t =>
      obtain ⟨hcalled, hadvance⟩ := advance_of_caller hbefore
      rw [hcalled, hadvance]
      exact exists_shows_callTrap m t
  | none =>
      cases hm : m.executeInstruction with
      | mk m₁ halt =>
          rw [hm] at hexecute
          cases halt with
          | some halt =>
              obtain ⟨hcalled, hadvance⟩ := advance_of_halt hbefore hm
              rw [hcalled, hadvance]
              exact ⟨[], .calm, hexecute⟩
          | none =>
              cases hafter : Trap.at? m₁.registers.pc with
              | some t =>
                  obtain ⟨hcalled, hadvance⟩ := advance_of_trap hbefore hm hafter
                  rw [hcalled, hadvance]
                  obtain ⟨new, hseen, hcall⟩ := exists_shows_callTrap m₁ t
                  exact ⟨new ++ [], by rwa [List.append_nil], hexecute.trans hcall⟩
              | none =>
                  obtain ⟨hcalled, hadvance⟩ := advance_of_finished hbefore hm hafter
                  rw [hcalled, hadvance]
                  exact ⟨[], .calm, hexecute⟩

theorem exists_shows_step : ∃ new, SeenOf m.trapCalled? new ∧ Shows m m.step.1 new := by
  obtain ⟨new, hseen, hadvance⟩ := exists_shows_advance m
  refine ⟨new, hseen, ?_⟩
  unfold step
  dsimp only
  split
  · exact hadvance.quiet rfl rfl id
  · exact hadvance

private theorem exists_shows_periodicTurn {interval : Nat}
    (hinterval : max m.settings.yieldInterval.toNat 1 = interval) (n : Nat) :
    ∃ new, Shows m (m.periodicTurn n).1 new ∧
      (interval ≤ n ∧ (m.periodicTurn n).2 = 0 ∧ (∃ stops, new = [.turn stops]) ∨
        n < interval ∧ (m.periodicTurn n).2 = n ∧ new = []) := by
  unfold periodicTurn
  rw [hinterval]
  split
  · exact ⟨_, .giveTurn m, .inl ⟨‹_›, rfl, _, rfl⟩⟩
  · exact ⟨[], .of_seen rfl rfl id, .inr ⟨Nat.lt_of_not_le ‹_›, rfl, rfl⟩⟩

end Services

/-! Runs. -/

def completes [Host δ] (m : Machine δ) : Bool :=
  m.step.2.isNone

def waits (m : Machine δ) : Bool :=
  m.trapCalled?.any Trap.isBlocking

def yields (m : Machine δ) : Bool :=
  m.trapCalled? == some .processEvents

def countSteps (kind : Machine δ → Bool) (stages : Nat → Machine δ × (RunResult ⊕ Nat))
    (k : Nat) : Nat :=
  (List.range k).countP fun j => (stepping? (stages j)).any kind

theorem countSteps_succ (kind : Machine δ → Bool)
    (stages : Nat → Machine δ × (RunResult ⊕ Nat)) (k : Nat) :
    countSteps kind stages (k + 1) =
      countSteps kind stages k + if (stepping? (stages k)).any kind then 1 else 0 := by
  simp [countSteps, List.range_succ, List.countP_append, List.countP_singleton]

variable [Host δ]

/-- The count of a run after some rounds: its periodic turns, and the steps
since the last of them. -/
structure Tally (stages : Nat → Machine (Watched δ) × (RunResult ⊕ Nat))
    (k period given since : Nat) :
    Prop where
  settings : max (stages k).1.settings.yieldInterval.toNat 1 = period
  turns : (stages k).1.host.seen.countP Sighting.isTurn =
    given + countSteps waits stages k + countSteps yields stages k
  reads : (stages k).1.host.seen.countP Sighting.isRead = countSteps waits stages k
  ushered : Ushered (stages k).1.host.seen
  completed : countSteps completes stages k = given * period + since
  since_lt : since < period
  count : ∀ n, (stages k).2 = .inr n → n = since

theorem Tally.idle {stages : Nat → Machine (Watched δ) × (RunResult ⊕ Nat)}
    {k period given since : Nat} (h : Tally stages k period given since)
    (hidle : stepping? (stages k) = none) (hmachine : (stages (k + 1)).1 = (stages k).1)
    (hends : ∀ n, (stages (k + 1)).2 ≠ .inr n) :
    Tally stages (k + 1) period given since where
  settings := by rw [hmachine, h.settings]
  turns := by rw [hmachine, h.turns, countSteps_succ, countSteps_succ, hidle]; rfl
  reads := by rw [hmachine, h.reads, countSteps_succ, hidle]; rfl
  ushered := by rw [hmachine]; exact h.ushered
  completed := by rw [countSteps_succ, hidle]; exact h.completed
  since_lt := h.since_lt
  count := fun n hn => absurd hn (hends n)

theorem Tally.next {stages : Nat → Machine (Watched δ) × (RunResult ⊕ Nat)}
    {k period given since given' since' : Nat} {m m' : Machine (Watched δ)}
    {new new' : List Sighting} (h : Tally stages k period given since)
    (hm : stepping? (stages k) = some m) (hseen : SeenOf m.trapCalled? new)
    (hshows : Shows m m' (new' ++ new)) (hmachine : (stages (k + 1)).1 = m')
    (hnew : Ushered new') (hturns : given' = given + new'.countP Sighting.isTurn)
    (hreads : new'.countP Sighting.isRead = 0)
    (hcompleted : given * period + since + (if m.completes = true then 1 else 0) =
      given' * period + since') (hlt : since' < period)
    (hcount : ∀ n, (stages (k + 1)).2 = .inr n → n = since') :
    Tally stages (k + 1) period given' since' := by
  have hsame : (stages k).1 = m := by
    obtain ⟨n, hstage, -⟩ := of_stepping?_eq_some hm
    rw [hstage]
  have hnewTurns : new.countP Sighting.isTurn =
      (if m.waits = true then 1 else 0) + if m.yields = true then 1 else 0 :=
        hseen.countP_isTurn
  have hnewReads : new.countP Sighting.isRead =
    if m.waits = true then 1 else 0 := hseen.countP_isRead
  refine ⟨?_, ?_, ?_, ?_, ?_, hlt, hcount⟩
  · rw [hmachine, hshows.settings, ← hsame, h.settings]
  · rw [hmachine, hshows.seen, ← hsame, List.countP_append, List.countP_append, h.turns,
      countSteps_succ, countSteps_succ, hm, hturns]
    simp only [Option.any_some]
    omega
  · rw [hmachine, hshows.seen, ← hsame, List.countP_append, List.countP_append, h.reads,
      countSteps_succ, hm]
    simp only [Option.any_some]
    omega
  · rw [hmachine, hshows.seen, ← hsame]
    exact (hnew.append hseen.ushered).append h.ushered
  · rw [countSteps_succ, hm, h.completed, ← hcompleted]
    rfl

private theorem tally_zero {m : Machine (Watched δ)} (hseen : m.host.seen = [])
    (plan : RunPlan) :
    Tally (m.rounds plan 0) 0 (max m.settings.yieldInterval.toNat 1) 0 0 := by
  have hnone : (m.rounds plan 0 0).1.host.seen = [] := hseen
  refine ⟨rfl, ?_, ?_, ?_, ?_, by omega, fun n hn => (Sum.inr.inj hn).symm⟩
  · rw [hnone]
    rfl
  · rw [hnone]
    rfl
  · rw [hnone]
    exact .nil
  · rw [Nat.zero_mul]
    rfl

section Rounds

variable {m m₁ m₂ : Machine (Watched δ)} {plan : RunPlan} {n k period given : Nat}

private theorem Tally.of_halt (h : Tally (m.rounds plan 0) k period given n)
    (hstage : m.rounds plan 0 k = (m₁, .inr n)) (hstop : m₁.stopRequested = false)
    {halt : Halt} (hstep : m₁.step = (m₂, some halt)) :
    Tally (m.rounds plan 0) (k + 1) period given n := by
  have hm : stepping? (m.rounds plan 0 k) = some m₁ := by
    rw [hstage, stepping?_eq_some n hstop]
  have hround := rounds_succ_of_stepping hstage
  rw [round_of_halt plan n hstop hstep] at hround
  have hcompletes : m₁.completes = false := by
    unfold completes
    rw [hstep]
    rfl
  obtain ⟨new, hseen, hshows⟩ := exists_shows_step m₁
  rw [hstep] at hshows
  have hnothing : Shows m₁ m₂ ([] ++ new) := hshows
  exact h.next hm hseen hnothing (by rw [hround]) .nil rfl rfl
    (by simp [hcompletes]) h.since_lt (by rw [hround]; nofun)

private theorem Tally.of_finished (h : Tally (m.rounds plan 0) k period given n)
    (hstage : m.rounds plan 0 k = (m₁, .inr n)) (hstop : m₁.stopRequested = false)
    (hstep : m₁.step = (m₂, none)) :
    ∃ given' since', Tally (m.rounds plan 0) (k + 1) period given' since' := by
  have hm : stepping? (m.rounds plan 0 k) = some m₁ := by
    rw [hstage, stepping?_eq_some n hstop]
  have hround := rounds_succ_of_stepping hstage
  rw [round_of_finished plan n hstop hstep] at hround
  have hcompletes : m₁.completes = true := by
    unfold completes
    rw [hstep]
    rfl
  have hmachine : (m.rounds plan 0 (k + 1)).1 = (m₂.periodicTurn (n + 1)).1 := by
    rw [hround]
    split
    · rfl
    · rfl
  have hcount : ∀ n', (m.rounds plan 0 (k + 1)).2 = .inr n' →
    n' = (m₂.periodicTurn (n + 1)).2 := by
    rw [hround]
    split
    · nofun
    · exact fun n' hn => (Sum.inr.inj hn).symm
  obtain ⟨new, hseen, hshows⟩ := exists_shows_step m₁
  rw [hstep] at hshows
  have hperiod : max m₂.settings.yieldInterval.toNat 1 = period := by
    rw [hshows.settings, ← h.settings, hstage]
  obtain ⟨new', hturn, hcase⟩ := exists_shows_periodicTurn m₂ hperiod (n + 1)
  have hlt := h.since_lt
  obtain ⟨hle, hrest, stops, rfl⟩ | ⟨hless, hrest, rfl⟩ := hcase
  · refine ⟨given + 1, 0,
      h.next hm hseen (hshows.trans hturn) hmachine (.turn stops .nil) rfl rfl ?_
      (by omega) (by rwa [hrest] at hcount)⟩
    rw [if_pos hcompletes, Nat.succ_mul]
    omega
  · refine ⟨given, n + 1,
      h.next hm hseen (hshows.trans hturn) hmachine .nil rfl rfl ?_ hless
      (by rwa [hrest] at hcount)⟩
    rw [if_pos hcompletes, Nat.add_assoc]

end Rounds

private theorem exists_tally_rounds {m : Machine (Watched δ)} (hseen : m.host.seen = [])
    (plan : RunPlan) (k : Nat) :
    ∃ given since, Tally (m.rounds plan 0) k (max m.settings.yieldInterval.toNat 1)
      given since := by
  induction k with
  | zero => exact ⟨0, 0, tally_zero hseen plan⟩
  | succ k ih =>
      obtain ⟨given, since, h⟩ := ih
      cases hm : stepping? (m.rounds plan 0 k) with
      | none =>
          obtain ⟨result, hround⟩ := rounds_succ_of_idle hm
          exact ⟨given, since, h.idle hm (by rw [hround]) (by rw [hround]; nofun)⟩
      | some m₁ =>
          obtain ⟨n, hstage, hstop⟩ := of_stepping?_eq_some hm
          obtain rfl : n = since := h.count n (by rw [hstage])
          cases hstep : m₁.step with
          | mk m₂ halt =>
              cases halt with
              | some halt => exact ⟨given, n, h.of_halt hstage hstop hstep⟩
              | none => exact h.of_finished hstage hstop hstep

theorem countSteps_watched {kind : Machine δ → Bool} {kind' : Machine (Watched δ) → Bool}
    (hkind : ∀ w, kind w.bare = kind' w) (m : Machine δ) (mode : RunMode) (k : Nat) :
    countSteps kind' (m.watched.course mode) k = countSteps kind (m.course mode) k := by
  unfold countSteps
  congr 1
  funext j
  rw [stepping?_course_watched m, Option.any_map]
  congr 1
  funext w
  exact (hkind w).symm

private theorem startRun_watched (m : Machine δ) (mode : RunMode) :
    (m.watched.startRun mode).host.seen = [] ∧ (m.watched.startRun mode).settings =
      m.settings := by
  unfold startRun beginRun recordWrites
  dsimp only
  split
  · split
    · exact ⟨rfl, rfl⟩
    · exact ⟨rfl, rfl⟩
  · exact ⟨rfl, rfl⟩

def sightings (m : Machine δ) (mode : RunMode) (k : Nat) : List Sighting :=
  (m.watched.course mode k).1.host.seen

/-! Requests to stop. -/

/-- The step that a run makes in round `i` is its last one, and the run ends as the step
does, or pauses after it, or else is cancelled. -/
structure LastStep (m : Machine δ) (mode : RunMode) (i : Nat) (m₁ : Machine δ) :
    Prop where
  steps : stepping? (m.course mode i) = some m₁
  idle : ∀ j, i < j → stepping? (m.course mode j) = none
  halts : ∀ halt, m₁.step.2 = some halt → ∀ fuel, i < fuel →
    ∃ m', execute fuel m mode = some (m', halt.result)
  pauses : m₁.step.2 = none → ∀ reason,
    (m.course mode (i + 1)).1.pauses? ((m.startRun mode).plan mode) = some reason →
      ∀ fuel, i < fuel →
      ∃ m', execute fuel m mode = some (m', .ok reason)
  cancels : m₁.step.2 = none →
    (m.course mode (i + 1)).1.pauses? ((m.startRun mode).plan mode) = none →
      ∀ fuel, i + 1 < fuel →
      ∃ m', execute fuel m mode = some (m', .ok .cancelled) ∧ m'.state = .notRunning

variable {m m₁ : Machine δ} {mode : RunMode} {i : Nat}

theorem execute_of_course {k fuel : Nat} {result : RunResult}
    (h : m.course mode k = (m₁, .inl result)) (hle : k ≤ fuel) :
    execute fuel m mode = some (m₁.endRun mode result, result) := by
  have hcourse : m.course mode fuel = (m₁, .inl result) := rounds_of_inl h hle
  rw [execute_eq_course, hcourse]

private theorem stepping?_of_stopRequested {k j : Nat}
    (hstop : (m.course mode k).1.stopRequested = true) (hle : k ≤ j) :
    stepping? (m.course mode j) = none := by
  have hstill : (m.course mode j).1.stopRequested = true := by
    induction hle with
    | refl => exact hstop
    | step _ ih =>
        obtain ⟨result, hidle⟩ := rounds_succ_of_idle (stepping?_eq_none ih)
        exact (congrArg (fun stage => stage.1.stopRequested) hidle).trans ih
  exact stepping?_eq_none hstill

section Ends

variable {plan : RunPlan} {n : Nat}

private theorem end_round_of_halt (hgoes : m.stopRequested = false) {halt : Halt}
    (hhalt : m.step.2 = some halt) :
    (m.round plan n).2 = .inl halt.result := by
  have hstep : m.step = (m.step.1, some halt) := Prod.ext rfl hhalt
  rw [round_of_halt plan n hgoes hstep]

private theorem end_round_of_pauses (hgoes : m.stopRequested = false)
    (hfinishes : m.step.2 = none) {reason : StopReason}
    (hpauses : (m.round plan n).1.pauses? plan = some reason) :
    (m.round plan n).2 = .inl (.ok reason) := by
  have hstep : m.step = (m.step.1, none) := Prod.ext rfl hfinishes
  rw [round_of_finished plan n hgoes hstep] at hpauses ⊢
  split at hpauses
  · rename_i hreason
    rw [hreason] at hpauses
    cases hpauses
    rfl
  · rename_i hnone
    rw [hnone] at hpauses
    cases hpauses

private theorem exists_end_round (hgoes : m.stopRequested = false)
    (hfinishes : m.step.2 = none) (hpauses : (m.round plan n).1.pauses? plan = none) :
    ∃ n', (m.round plan n).2 = .inr n' := by
  have hstep : m.step = (m.step.1, none) := Prod.ext rfl hfinishes
  rw [round_of_finished plan n hgoes hstep] at hpauses ⊢
  split at hpauses
  · rename_i hreason
    rw [hreason] at hpauses
    cases hpauses
  · exact ⟨_, rfl⟩

end Ends

private theorem lastStep_of_stopRequested (hstep : stepping? (m.course mode i) = some m₁)
    (hstop : (m.course mode (i + 1)).1.stopRequested = true) : m.LastStep mode i m₁ := by
  obtain ⟨n, hstage, hgoes⟩ := of_stepping?_eq_some hstep
  have hround : m.course mode (i + 1) = m₁.round ((m.startRun mode).plan mode) n :=
    rounds_succ_of_stepping hstage
  refine ⟨hstep, fun j hj => stepping?_of_stopRequested hstop hj, ?_, ?_, ?_⟩
  · intro halt hhalt fuel hlt
    have hend : (m.course mode (i + 1)).2 = .inl halt.result := by
      rw [hround, end_round_of_halt hgoes hhalt]
    exact ⟨_, execute_of_course (Prod.ext rfl hend) hlt⟩
  · intro hfinishes reason hreason fuel hlt
    have hend : (m.course mode (i + 1)).2 = .inl (.ok reason) := by
      rw [hround] at hreason ⊢
      exact end_round_of_pauses hgoes hfinishes hreason
    exact ⟨_, execute_of_course (Prod.ext rfl hend) hlt⟩
  · intro hfinishes hnone fuel hlt
    obtain ⟨n', hend⟩ : ∃ n', (m.course mode (i + 1)).2 = .inr n' := by
      rw [hround] at hnone ⊢
      exact exists_end_round hgoes hfinishes hnone
    have hcancelled : m.course mode (i + 2) =
      ((m.course mode (i + 1)).1, .inl (.ok .cancelled)) :=
      (rounds_succ_of_stepping (Prod.ext rfl hend)).trans (round_of_stopped _ n' hstop)
    exact ⟨_, execute_of_course hcancelled hlt, rfl⟩

private theorem exists_round_of_asked {k : Nat} (h : .turn true ∈ m.sightings mode k) :
    ∃ i < k, .turn true ∉ m.sightings mode i ∧ .turn true ∈ m.sightings mode (i + 1) := by
  induction k with
  | zero =>
      have hnone : m.sightings mode 0 = [] := (startRun_watched m mode).1
      rw [hnone] at h
      cases h
  | succ k ih =>
      by_cases hbefore : .turn true ∈ m.sightings mode k
      · obtain ⟨i, hi, hasked⟩ := ih hbefore
        exact ⟨i, Nat.lt_succ_of_lt hi, hasked⟩
      · exact ⟨k, Nat.lt_succ_self k, hbefore, h⟩

private theorem exists_shows_round (w : Machine (Watched δ)) (plan : RunPlan) (n : Nat) :
    ∃ new, Shows w (w.round plan n).1 new := by
  cases hstop : w.stopRequested with
  | true =>
      rw [round_of_stopped plan n hstop]
      exact ⟨[], .of_seen rfl rfl id⟩
  | false =>
      obtain ⟨new, -, hshows⟩ := exists_shows_step w
      cases hstep : w.step with
      | mk w₁ halt =>
          rw [hstep] at hshows
          cases halt with
          | some halt =>
              rw [round_of_halt plan n hstop hstep]
              exact ⟨new, hshows⟩
          | none =>
              obtain ⟨new', hturn, -⟩ := exists_shows_periodicTurn w₁ rfl (n + 1)
              rw [round_of_finished plan n hstop hstep]
              refine ⟨new' ++ new, ?_⟩
              split
              · exact hshows.trans hturn
              · exact hshows.trans hturn

private theorem exists_lastStep_of_asked {k : Nat} (h : .turn true ∈ m.sightings mode k) :
    ∃ i < k, ∃ m₁, m.LastStep mode i m₁ ∧
      .turn true ∉ m.sightings mode i ∧ .turn true ∈ m.sightings mode (i + 1) := by
  obtain ⟨i, hi, hbefore, hasked⟩ := exists_round_of_asked h
  refine ⟨i, hi, ?_⟩
  have hstill := hasked
  cases hw : stepping? (m.watched.course mode i) with
  | none =>
      obtain ⟨result, hidle⟩ := rounds_succ_of_idle hw
      have hsame : m.sightings mode (i + 1) = m.sightings mode i :=
        congrArg (fun stage => stage.1.host.seen) hidle
      rw [hsame] at hasked
      exact absurd hasked hbefore
  | some w =>
      obtain ⟨n, hstage, -⟩ := of_stepping?_eq_some hw
      have hround := rounds_succ_of_stepping hstage
      obtain ⟨new, hshows⟩ := exists_shows_round w ((m.watched.startRun mode).plan mode) n
      have hafter : m.watched.course mode (i + 1) =
        w.round ((m.watched.startRun mode).plan mode) n := hround
      rw [← hafter] at hshows
      have hnew : .turn true ∈ new := by
        have hseen : m.sightings mode (i + 1) = new ++ m.sightings mode i := by
          unfold sightings
          rw [hshows.seen, hstage]
        rw [hseen] at hasked
        exact (List.mem_append.1 hasked).resolve_right hbefore
      have hstop : (m.course mode (i + 1)).1.stopRequested = true := by
        rw [course_watched]
        exact hshows.asked hnew
      have hstep : stepping? (m.course mode i) = some w.bare := by
        rw [stepping?_course_watched, hw]
        rfl
      exact ⟨w.bare, lastStep_of_stopRequested hstep hstop, hbefore, hstill⟩

/-! Counts. -/

theorem completes_bare (w : Machine (Watched δ)) : w.bare.completes = w.completes := by
  unfold completes
  rw [step_bare]
  rfl

private theorem waits_bare (w : Machine (Watched δ)) : w.bare.waits = w.waits := by
  unfold waits
  rw [trapCalled?_bare]

private theorem yields_bare (w : Machine (Watched δ)) : w.bare.yields = w.yields := by
  unfold yields
  rw [trapCalled?_bare]

/-- A run does the same with its host watched, and what is seen of the host then is what
is seen in its rounds. -/
theorem execute_watched (m : Machine δ) (mode : RunMode) (fuel : Nat) :
    execute fuel m mode =
      (execute fuel m.watched mode).map (fun (w, result) => (w.bare, result)) ∧
      ∀ w result, execute fuel m.watched mode = some (w, result) →
        w.host.seen = m.sightings mode fuel := by
  have hcourse := course_watched m mode fuel
  unfold sightings
  rw [execute_eq_course, execute_eq_course, hcourse]
  generalize m.watched.course mode fuel = stage
  obtain ⟨w, end?⟩ := stage
  cases end? with
  | inl result =>
      refine ⟨rfl, fun w' result' hend => ?_⟩
      cases hend
      rfl
  | inr n =>
      refine ⟨rfl, fun w' result' hend => ?_⟩
      cases hend

/-- The host is given a turn each time the steps made come to the interval in the
settings, one for each trap that waits for it, right before the read, and one for
each trap that asks for it. If it asks for a stop in one of them, the step at hand
is the last of the run. -/
theorem countP_isTurn_sightings (m : Machine δ) (mode : RunMode) (k : Nat) :
    (execute k m mode = (execute k m.watched mode).map
      (fun (w, result) => (w.bare, result)) ∧
      ∀ w result, execute k m.watched mode = some (w, result) →
        w.host.seen = m.sightings mode k) ∧
    (m.sightings mode k).countP Sighting.isTurn =
      countSteps completes (m.course mode) k / max m.settings.yieldInterval.toNat 1 +
        countSteps waits (m.course mode) k + countSteps yields (m.course mode) k ∧
    (m.sightings mode k).countP Sighting.isRead = countSteps waits (m.course mode) k ∧
    Ushered (m.sightings mode k) ∧
    (.turn true ∈ m.sightings mode k → ∃ i < k, ∃ m₁, m.LastStep mode i m₁ ∧
      .turn true ∉ m.sightings mode i ∧ .turn true ∈ m.sightings mode (i + 1)) := by
  obtain ⟨hseen, hsettings⟩ := startRun_watched m mode
  obtain ⟨given, since, htally⟩ :=
    exists_tally_rounds hseen ((m.watched.startRun mode).plan mode) k
  change Tally (m.watched.course mode) k _ given since at htally
  rw [hsettings] at htally
  have hgiven : countSteps completes (m.course mode) k /
    max m.settings.yieldInterval.toNat 1 = given := by
    rw [← countSteps_watched completes_bare, htally.completed]
    exact Nat.div_eq_of_lt_le (by omega)
      (by have := htally.since_lt; rw [Nat.succ_mul]; omega)
  refine ⟨execute_watched m mode k, ?_, ?_, htally.ushered, exists_lastStep_of_asked⟩
  · rw [hgiven, ← countSteps_watched waits_bare, ← countSteps_watched yields_bare]
    exact htally.turns
  · rw [← countSteps_watched waits_bare]
    exact htally.reads

/-- The turn after two steps, in which the host asks for a stop, leaves no third step. -/
example :
    let m := (ticking.setHost ({ device := {}, limit := 1 } : Probe Ticker)).2
    m.sightings .run 3 = [.turn true] ∧ countSteps completes (m.course .run) 3 = 2 ∧
      (execute 3 m .run).map Prod.snd = some (.ok .cancelled) := by
  decide +kernel

end Machine

end Breadboard
