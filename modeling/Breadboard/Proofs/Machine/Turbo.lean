import Breadboard.Proofs.Machine.Stepping

namespace Breadboard

/-- Turns that leave hosts that are alike, and in both or neither of
which a stop is asked for. -/
structure Turn.Agree {δ : Type} (like : δ → δ → Prop) (t t' : Turn δ) : Prop where
  host : like t.host t'.host
  stops : t'.stops = t.stops

theorem Turn.Agree.andThen {δ : Type} {like : δ → δ → Prop} {t t' u u' : Turn δ}
    (h : t.Agree like t') (hu : u.Agree like u') :
    (t.andThen u).Agree like (t'.andThen u') where
  host := hu.host
  stops := by simp [Turn.andThen, h.stops, hu.stops]

/-- Hosts that are alike do the same on every call and stay alike. Only their
clocks need not agree. -/
structure Accord {δ : Type} [Host δ] (like : δ → δ → Prop) : Prop where
  writeByte : ∀ {d d' : δ}, like d d' → ∀ b,
    Turn.Agree like (Host.writeByte d b) (Host.writeByte d' b)
  readByte : ∀ {d d' : δ}, like d d' → ∀ timeout stopping,
    (Host.readByte d' timeout stopping).1 = (Host.readByte d timeout stopping).1 ∧
      Turn.Agree like (Host.readByte d timeout stopping).2
        (Host.readByte d' timeout stopping).2
  processEvents : ∀ {d d' : δ}, like d d' →
    Turn.Agree like (Host.processEvents d) (Host.processEvents d')
  readClock : ∀ {d d' : δ}, like d d' → like (Host.readClock d).2 (Host.readClock d').2

theorem Accord.congruence {δ : Type} [Host δ] {like : δ → δ → Prop} (h : Accord like) :
    Congruence (Turn.Agree like) where
  writeByte := fun ht b => ht.andThen (h.writeByte ht.host b)
  readByte := by
    intro t t' ht timeout
    obtain ⟨hevent, hturn⟩ := h.readByte ht.host timeout t.stops
    rw [ht.stops]
    exact ⟨hevent, ht.andThen hturn⟩
  processEvents := fun ht => ht.andThen (h.processEvents ht.host)

namespace Machine

variable {δ : Type} [Host δ] {like : δ → δ → Prop} {m p t : Machine δ}

def Timeless (plan : RunPlan) : Nat → Machine δ → Nat → Prop
  | 0, _, _ => True
  | fuel + 1, m, n =>
      (m.stopRequested = false → ¬m.ReadsClock) ∧
        match m.round plan n with
        | (_, .inl _) => True
        | (m, .inr n) => Timeless plan fuel m n

omit [Host δ] in
instance decidableReadsClock (m : Machine δ) : Decidable m.ReadsClock :=
  inferInstanceAs (Decidable (∃ t ∈ m.trapCalled?, t.isClock = true))

instance decidableTimeless (plan : RunPlan) :
    ∀ (fuel : Nat) (m : Machine δ) (n : Nat), Decidable (Timeless plan fuel m n)
  | 0, _, _ => .isTrue trivial
  | fuel + 1, m, n =>
      let rest : Decidable (match m.round plan n with
          | (_, .inl _) => True
          | (m, .inr n) => Timeless plan fuel m n) :=
        match m.round plan n with
        | (_, .inl _) => .isTrue trivial
        | (m, .inr n) => decidableTimeless plan fuel m n
      let first : Decidable (m.stopRequested = false → ¬m.ReadsClock) := inferInstance
      @instDecidableAnd _ _ first rest

private theorem Timeless.of_inr {plan : RunPlan} {fuel n n₁ : Nat} {m₁ : Machine δ}
    (h : Timeless plan (fuel + 1) m n) (hround : m.round plan n = (m₁, .inr n₁)) :
    Timeless plan fuel m₁ n₁ := by
  have hnext := h.2
  rw [hround] at hnext
  exact hnext

def turboPlan : RunPlan :=
  { mode := .turbo, single := false, target := none }

omit [Host δ] in
private theorem plan_turbo (m : Machine δ) : m.plan .turbo = turboPlan := by
  simp [plan, turboPlan]

/-- `t` is where a run in turbo mode is when a plain run without breakpoints is at `p`. -/
structure Racing (like : δ → δ → Prop) (p t : Machine δ) : Prop where
  matched : Matched (Turn.Agree like) p t
  unstopped : p.breakpoints = ∅
  blind : t.isTracking = false

omit [Host δ] in
theorem Racing.pauses?_eq (h : Racing like p t) :
    p.pauses? runPlan = none ∧ t.pauses? turboPlan = none := by
  rw [pauses?_runPlan, h.unstopped]
  exact ⟨rfl, by simp [pauses?, turboPlan]⟩

omit [Host δ] in
theorem Racing.next {p' t' : Machine δ} (h : Racing like p t)
    (hmatched : Matched (Turn.Agree like) p' t') (hp : Steered p p') (ht : Steered t t') :
    Racing like p' t' where
  matched := hmatched
  unstopped := hp.breakpoints.trans h.unstopped
  blind := (isTracking_congr ht.state).trans h.blind

/-- What a round of either run gives. -/
structure RoundsOf (like : δ → δ → Prop) (p t : Machine δ)
    (o o' : Machine δ × (RunResult ⊕ Nat)) :
    Prop where
  racing : Racing like o.1 o'.1
  steered : Steered t o'.1
  result : o'.2 = o.2
  ends : ∀ reason, o.2 = .inl (.ok reason) → reason.endsRun = true

theorem Racing.round (hlike : Accord like) (h : Racing like p t)
    (hclock : p.stopRequested = false → ¬p.ReadsClock) (n : Nat) :
    RoundsOf like p t (p.round runPlan n) (t.round turboPlan n) := by
  have hstops : t.stopRequested = p.stopRequested := h.matched.contact.stops
  cases hstop : p.stopRequested with
  | true =>
      unfold Machine.round
      rw [if_pos hstop, if_pos (hstops.trans hstop)]
      exact ⟨h, .refl t, rfl, by rintro _ ⟨⟩; rfl⟩
  | false =>
      have hstep := h.matched.step hlike.congruence (hclock hstop)
      have hends := endsRun_step p
      have hp := steered_step p
      have ht := steered_step t
      cases hpstep : p.step with
      | mk p₁ halt =>
          cases htstep : t.step with
          | mk t₁ halt' =>
              rw [hpstep, htstep] at hstep
              rw [hpstep] at hends hp
              rw [htstep] at ht
              obtain ⟨hmachine, rfl⟩ := hstep
              have hracing := h.next hmachine hp ht
              cases halt' with
              | some halt =>
                  rw [round_of_halt runPlan n hstop hpstep,
                    round_of_halt turboPlan n (hstops.trans hstop) htstep]
                  refine ⟨hracing, ht, rfl, fun reason hreason => hends reason ?_⟩
                  cases halt with
                  | stop _ => cases hreason; rfl
                  | error _ => cases hreason
              | none =>
                  obtain ⟨hturn, hcount⟩ := hmachine.periodicTurn hlike.congruence (n + 1)
                  have hafter := hracing.next hturn (steered_periodicTurn p₁ (n + 1))
                    (steered_periodicTurn t₁ (n + 1))
                  obtain ⟨hpgoes, htgoes⟩ := hafter.pauses?_eq
                  rw [round_of_finished runPlan n hstop hpstep,
                    round_of_finished turboPlan n (hstops.trans hstop) htstep, hpgoes,
                    htgoes, hcount]
                  exact ⟨hafter, ht.trans (steered_periodicTurn t₁ (n + 1)),
                    rfl, by rintro _ ⟨⟩⟩

/-- What either run has come to when it ends. -/
structure Ran (like : δ → δ → Prop) (t : Machine δ) (r r' : Machine δ × RunResult) :
    Prop where
  racing : Racing like r.1 r'.1
  steered : Steered t r'.1
  result : r'.2 = r.2
  ends : ∀ reason, r.2 = .ok reason → reason.endsRun = true

theorem Racing.runRounds (hlike : Accord like) (h : Racing like p t) {fuel n : Nat}
    (hclock : Timeless runPlan fuel p n) :
    Option.Rel (Ran like t) (runRounds runPlan fuel p n)
      (runRounds turboPlan fuel t n) := by
  induction fuel generalizing p t n with
  | zero => exact .none
  | succ fuel ih =>
      have hrounds := h.round hlike hclock.1 n
      cases hpround : p.round runPlan n with
      | mk p₁ o =>
          cases htround : t.round turboPlan n with
          | mk t₁ o' =>
              rw [hpround, htround] at hrounds
              obtain ⟨hracing, hsteered, rfl, hends⟩ := hrounds
              cases o' with
              | inl result =>
                  rw [runRounds_of_inl hpround, runRounds_of_inl htround]
                  exact .some ⟨hracing, hsteered, rfl, fun reason hreason =>
                    hends reason (congrArg Sum.inl hreason)⟩
              | inr n₁ =>
                  rw [runRounds_of_inr hpround, runRounds_of_inr htround]
                  have hran := ih hracing (hclock.of_inr hpround)
                  dsimp only at hran ⊢
                  generalize runRounds runPlan fuel p₁ n₁ = r at hran ⊢
                  generalize runRounds turboPlan fuel t₁ n₁ = r' at hran ⊢
                  cases hran with
                  | none => exact .none
                  | some hran =>
                    exact .some { hran with steered := hsteered.trans hran.steered }

def unbroken (m : Machine δ) (d : δ) : Machine δ :=
  { m with breakpoints := ∅, host := d }

theorem Matched.beginRun (hlike : Accord like) {d : δ} (hhost : like d m.host) :
    Matched (Turn.Agree like) (m.unbroken d).beginRun m.beginRun := by
  unfold Machine.beginRun
  refine Matched.recordWrites ?_ _ _
  exact ⟨rfl, rfl, rfl, rfl, rfl, rfl, rfl, hlike.readClock hhost, rfl⟩

private theorem racing_startRun (hlike : Accord like) {d : δ} (hhost : like d m.host) :
    Racing like ((m.unbroken d).startRun .run) (m.startRun .turbo) := by
  have hbreakpoints : (m.unbroken d).beginRun.breakpoints = ∅ :=
    (steered_recordWrites _ _).breakpoints
  unfold startRun
  by_cases hstate : m.state = .notRunning
  · have hbegin := Matched.beginRun hlike hhost
    rw [if_pos hstate, if_pos (show (m.unbroken d).state = .notRunning from hstate)]
    exact ⟨{ hbegin with contact := ⟨hbegin.contact.host, rfl⟩ }, hbreakpoints, rfl⟩
  · rw [if_neg hstate, if_neg (show (m.unbroken d).state ≠ .notRunning from hstate)]
    exact ⟨⟨rfl, rfl, rfl, rfl, rfl, rfl, rfl, hhost, rfl⟩, rfl, rfl⟩

/-- A turbo run has ended as a plain one has, and has recorded nothing but that
there may be changes. -/
structure TurboOf (like : δ → δ → Prop) (plain turbo : Machine δ × RunResult) : Prop where
  result : turbo.2 = plain.2
  registers : turbo.1.registers = plain.1.registers
  memory : turbo.1.memory = plain.1.memory
  cycles : turbo.1.cycles = plain.1.cycles
  instructions : turbo.1.instructions = plain.1.instructions
  file : turbo.1.file = plain.1.file
  state : turbo.1.state = plain.1.state
  host : like plain.1.host turbo.1.host
  ended : turbo.1.state = .notRunning
  unwritten : turbo.1.changes.takeWritten.1 = []
  unnoted : turbo.1.changes.takeRegisters.1 = false
  untracked : turbo.1.changes.takeUntracked.1 = true

omit [Host δ] in
private theorem state_endRun_of_ends (m : Machine δ) (mode : RunMode) {result : RunResult}
    (h : ∀ reason, result = .ok reason → reason.endsRun = true) :
    (m.endRun mode result).state = .notRunning := by
  unfold endRun
  cases result with
  | ok reason =>
      dsimp only
      rw [if_pos (h reason rfl)]
  | error e => rfl

omit [Host δ] in
private theorem changes_endRun_turbo (m : Machine δ) (result : RunResult) :
    (m.endRun .turbo result).changes.written = m.changes.written ∧
      (m.endRun .turbo result).changes.registers = m.changes.registers ∧
      (m.endRun .turbo result).changes.untracked = true := by
  unfold endRun
  rw [if_pos rfl]
  cases result <;> exact ⟨rfl, rfl, rfl⟩

omit [Host δ] in
private theorem Ran.turboOf {r r' : Machine δ × RunResult} (h : Ran like t r r')
    (hblind : t.isTracking = false) (hwritten : t.changes.written = ∅)
    (hregisters : t.changes.registers = false) :
    TurboOf like (r.1.endRun .run r.2, r.2) (r'.1.endRun .turbo r'.2, r'.2) := by
  have hmatched := h.racing.matched
  have hchanges := h.steered.changes hblind
  have hends := r.1.state_endRun_of_ends .run h.ends
  have hends' := r'.1.state_endRun_of_ends .turbo (h.result ▸ h.ends)
  obtain ⟨hwritten', hregisters', huntracked⟩ := r'.1.changes_endRun_turbo r'.2
  refine ⟨h.result, hmatched.registers, hmatched.memory, hmatched.cycles,
    hmatched.instructions,
    hmatched.file, hends'.trans hends.symm, hmatched.contact.host, hends', ?_, ?_, ?_⟩
  · rw [Changes.takeWritten, hwritten', hchanges, hwritten]
    rfl
  · exact hregisters'.trans (hchanges ▸ hregisters)
  · exact huntracked

/-- For the same fuel a turbo run and a plain run without breakpoints both end or both
do not, and they end alike, at hosts that are alike: so do the records that hosts keep
of the calls they got. -/
theorem execute_turbo_eq_run (hlike : Accord like) {d : δ} (hhost : like d m.host)
    {fuel : Nat} (hclock : Timeless runPlan fuel ((m.unbroken d).startRun .run) 0) :
    Option.Rel (TurboOf like) (execute fuel (m.unbroken d) .run)
      (execute fuel m .turbo) := by
  have hran := (racing_startRun hlike hhost).runRounds hlike hclock
  obtain ⟨hwritten, hregisters, -⟩ := m.changes_startRun .turbo
  rw [execute_run_eq]
  unfold execute
  dsimp only
  rw [plan_turbo]
  generalize runRounds runPlan fuel ((m.unbroken d).startRun .run) 0 = r at hran ⊢
  generalize runRounds turboPlan fuel (m.startRun .turbo) 0 = r' at hran ⊢
  cases hran with
  | none => exact .none
  | some hran => exact .some (hran.turboOf rfl hwritten hregisters)

end Machine

structure Printer where
  printed : List UInt8 := []
  time : Nat := 0
deriving DecidableEq, Repr, Inhabited

instance : Host Printer where
  writeByte host b := { host := { host with printed := b :: host.printed } }
  readByte host _ _ := (.closed, { host })
  processEvents host := { host }
  close host := host
  readClock host := ({ uptime := host.time }, { host with time := host.time + 1 })

theorem accord_printer : Accord fun d d' : Printer => d'.printed = d.printed where
  writeByte := fun h b => ⟨congrArg (b :: ·) h, rfl⟩
  readByte := fun h _ _ => ⟨rfl, h, rfl⟩
  processEvents := fun h => ⟨h, rfl⟩
  readClock := fun h => h

namespace Machine

/-- The program is the call of a trap that prints A. There is a
breakpoint where it returns to. -/
def printing : Machine Printer :=
  { memory := .filled 0
    entryPoint := Trap.outCh.address
    breakpoints := .ofList [Trap.terminate.address]
    host := {} }

/-- A plain run would pause at the breakpoint. -/
theorem execute_turbo_eq_run_printing :
    Accord (fun d d' : Printer => d'.printed = d.printed) ∧
      Timeless runPlan 2 ((printing.unbroken { time := 7 }).startRun .run) 0 ∧
      ((execute 2 printing .run).map Prod.snd =
        some (.ok (.breakpoint Trap.terminate.address))) ∧
      ∃ plain turbo, execute 2 (printing.unbroken { time := 7 }) .run = some plain ∧
        execute 2 printing .turbo = some turbo ∧ turbo.2 = .ok .terminated ∧
        turbo.1.host.printed = [0] ∧ turbo.1.host ≠ plain.1.host ∧
        TurboOf (fun d d' => d'.printed = d.printed) plain turbo := by
  have hclock :
      Timeless runPlan 2 ((printing.unbroken { time := 7 }).startRun .run) 0 := by
    decide +kernel
  have hpauses : (execute 2 printing .run).map Prod.snd =
      some (.ok (.breakpoint Trap.terminate.address)) := by
    decide +kernel
  have hends : ∃ plain ∈ execute 2 (printing.unbroken { time := 7 }) .run,
      ∃ turbo ∈ execute 2 printing .turbo, turbo.2 = .ok .terminated ∧
        turbo.1.host.printed = [0] ∧ turbo.1.host ≠ plain.1.host := by
    decide +kernel
  obtain ⟨plain, hplain, turbo, hturbo, hresult, hprinted, hhosts⟩ := hends
  have hrel := execute_turbo_eq_run accord_printer (m := printing)
    (d := { time := 7 }) rfl hclock
  rw [Option.mem_def.1 hplain, Option.mem_def.1 hturbo] at hrel
  cases hrel with
  | some hrel =>
      exact ⟨accord_printer, hclock, hpauses, plain, turbo, hplain, hturbo, hresult,
        hprinted, hhosts, hrel⟩

end Machine

end Breadboard
