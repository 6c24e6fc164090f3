import Breadboard.Proofs.Host.Recorded
import Breadboard.Proofs.Machine.Course
import Breadboard.Proofs.Machine.Reconfiguration

namespace Breadboard.Machine

variable {δ : Type} {R : Turn δ → Turn δ → Prop} {s s' : Settings} {m m' : Machine δ}

/-- `m'` is where a run under `s'` is when one under `s` is at `m`. -/
structure Configured (R : Turn δ → Turn δ → Prop) (s s' : Settings) (m m' : Machine δ) :
    Prop where
  matched : Matched R (m.reconfigured s' m'.cycles) m'
  settings : m.settings = s
  state : m'.state = m.state
  changes : m'.changes = m.changes
  breakpoints : m'.breakpoints = m.breakpoints
  cycles : s'.pageCrossPenalty = s.pageCrossPenalty → m'.cycles = m.cycles

/-- Nothing in which the settings differ shows in the step, nor does the clock. -/
structure Heedless (s s' : Settings) (m : Machine δ) : Prop where
  clock : ¬m.ReadsClock
  decimal : s'.decimalMode = s.decimalMode ∨ ¬m.AddsInDecimal
  cycles : s'.pageCrossPenalty = s.pageCrossPenalty ∨ m.trapCalled? ≠ some .cycles

private theorem Matched.trapCalled?_eq (h : Matched R m m') :
    m'.trapCalled? = m.trapCalled? := by
  have hexecute := h.executeInstruction
  unfold trapCalled?
  rw [h.registers]
  generalize m.executeInstruction = o at hexecute ⊢
  generalize m'.executeInstruction = o' at hexecute ⊢
  obtain ⟨m₁, halt⟩ := o
  obtain ⟨m₁', halt'⟩ := o'
  obtain ⟨hmachine, rfl⟩ := hexecute
  cases halt' with
  | some halt => rfl
  | none =>
      dsimp only
      rw [hmachine.registers]

theorem Configured.pauses?_eq (h : Configured R s s' m m') (plan : RunPlan) :
    m'.pauses? plan = m.pauses? plan := by
  have hregisters : m'.registers = m.registers := h.matched.registers
  unfold pauses?
  rw [hregisters, h.breakpoints]

private theorem Configured.plan_eq (h : Configured R s s' m m') (mode : RunMode) :
    m'.plan mode = m.plan mode := by
  have hregisters : m'.registers = m.registers := h.matched.registers
  have hmemory : m'.memory = m.memory := h.matched.memory
  unfold plan callReturn?
  rw [hregisters, hmemory]

variable [Host δ]

private theorem Matched.changes_step_eq (h : Matched R m m')
    (hstep : Matched R m.step.1 m'.step.1) (hstate : m'.state = m.state)
    (hchanges : m'.changes = m.changes) :
    m'.step.1.changes = m.step.1.changes := by
  cases htracking : m.isTracking with
  | true =>
      rw [changes_step htracking,
        changes_step ((isTracking_congr hstate).trans htracking), hchanges, h.stored_eq,
        hstep.registers, h.registers]
  | false =>
      rw [(steered_step m).changes htracking,
        (steered_step m').changes ((isTracking_congr hstate).trans htracking), hchanges]

theorem Configured.step (hR : Congruence R) (h : Configured R s s' m m')
    (hm : Heedless s s' m) :
    ∃ q : Charge, q.cycles + q.crossings ≤ 515 ∧
      (q.clears = true ↔ m'.trapCalled? = some .clearCycles) ∧
      m.step.1.cycles = q.count s m.cycles ∧ m'.step.1.cycles = q.count s' m'.cycles ∧
      Configured R s s' m.step.1 m'.step.1 ∧ m'.step.2 = m.step.2 := by
  obtain ⟨q, hsmall, hclears, hstep⟩ := m.exists_charge_step
  obtain ⟨-, hown⟩ := hstep m.settings m.cycles ⟨.inl rfl, .inl ⟨rfl, rfl⟩⟩
  have hblind : m.Blind s' m'.cycles := by
    refine ⟨?_, hm.cycles.imp_left fun hpenalty => ⟨?_, h.cycles hpenalty⟩⟩
    · rw [h.settings]
      exact hm.decimal
    · rw [h.settings]
      exact hpenalty
  obtain ⟨hcalled, hother⟩ := hstep s' m'.cycles hblind
  have hclock : ¬(m.reconfigured s' m'.cycles).ReadsClock := by
    unfold ReadsClock
    rw [hcalled]
    exact hm.clock
  have hmatched := h.matched.step hR hclock
  have hchanges := h.matched.changes_step_eq hmatched.machine h.state h.changes
  have hstate := (steered_step m').state
  have hbreakpoints := (steered_step m').breakpoints
  rw [hother] at hmatched hchanges
  rw [reconfigured_self] at hown
  have hcycles : m.step.1.cycles = q.count s m.cycles := by
    rw [hown, Outcome.cycles_reconfigured, h.settings]
  have hcycles' : m'.step.1.cycles = q.count s' m'.cycles := hmatched.machine.cycles
  refine ⟨q, hsmall, hclears.trans ?_, hcycles, hcycles', ⟨?_, ?_, ?_, hchanges, ?_, ?_⟩,
    hmatched.halt⟩
  · rw [h.matched.trapCalled?_eq, hcalled]
  · rw [hcycles']
    exact hmatched.machine
  · rw [hown]
    exact h.settings
  · rw [hstate, (steered_step m).state, h.state]
  · rw [hbreakpoints, (steered_step m).breakpoints, h.breakpoints]
  · intro hpenalty
    rw [hcycles, hcycles', h.cycles hpenalty, Charge.count_congr hpenalty]

theorem Configured.giveTurn (hR : Congruence R) (h : Configured R s s' m m') :
    Configured R s s' m.giveTurn m'.giveTurn :=
  { h with matched := h.matched.giveTurn hR }

theorem Configured.periodicTurn (hR : Congruence R) (h : Configured R s s' m m')
    (hinterval : s'.yieldInterval = s.yieldInterval) (n : Nat) :
    Configured R s s' (m.periodicTurn n).1 (m'.periodicTurn n).1 ∧
      (m'.periodicTurn n).2 = (m.periodicTurn n).2 := by
  have hsettings : m'.settings = s' := h.matched.settings
  unfold Machine.periodicTurn
  rw [h.settings, hsettings, hinterval]
  split
  · exact ⟨h.giveTurn hR, rfl⟩
  · exact ⟨h, rfl⟩

private theorem Configured.periodicTurn_placid {like : δ → δ → Prop} (hlike : Placid like)
    (h : Configured (Turn.Alike like) s s' m m') (n n' : Nat) :
    Configured (Turn.Alike like) s s' (m.periodicTurn n).1 (m'.periodicTurn n').1 := by
  have halike := h.matched.alike h.breakpoints
  have hturn := halike.giveTurn hlike
  have hturn' := (((halike.symm hlike).giveTurn hlike).symm hlike).matched
  unfold Machine.periodicTurn
  split
  · split
    · exact h.giveTurn hlike.congruence
    · exact { h with matched := hturn' }
  · split
    · exact { h with matched := hturn.matched }
    · exact h

def equipped (m : Machine δ) (s : Settings) (d : δ) : Machine δ :=
  { m with settings := s, host := d }

omit [Host δ] in
theorem recordWrites_eq (m : Machine δ) (writes : List Write) :
    m.recordWrites writes = { m with changes :=
      if m.isTracking then writes.foldl (fun c w => c.recordWrite w.1) m.changes
        else m.changes } := by
  cases htracking : m.isTracking with
  | true => simp [recordWrites, htracking]
  | false => simp [recordWrites, htracking]

private theorem beginRun_equipped (m : Machine δ) (s : Settings) (d : δ) :
    (m.equipped s d).beginRun = { m.beginRun with
      settings := s
      startedAt := (Host.readClock d).1.uptime
      host := (Host.readClock d).2 } := by
  unfold beginRun
  dsimp only
  rw [recordWrites_eq, recordWrites_eq]
  rfl

private theorem settings_beginRun (m : Machine δ) : m.beginRun.settings = m.settings := by
  unfold beginRun
  dsimp only
  rw [recordWrites_eq]
  rfl

private theorem cycles_startRun_equipped (m : Machine δ) (s : Settings) (d : δ)
    (mode : RunMode) :
    ((m.equipped s d).startRun mode).cycles = (m.startRun mode).cycles := by
  unfold startRun
  by_cases hstate : m.state = .notRunning
  · rw [if_pos hstate, if_pos (show (m.equipped s d).state = .notRunning from hstate),
      beginRun_equipped]
  · rw [if_neg hstate, if_neg (show (m.equipped s d).state ≠ .notRunning from hstate)]
    rfl

private theorem configured_startRun (s' : Settings) {d : δ} (mode : RunMode)
    (hhost : R { host := m.host } { host := d })
    (hclock : R { host := (Host.readClock m.host).2 } { host := (Host.readClock d).2 }) :
    Configured R m.settings s' (m.startRun mode) ((m.equipped s' d).startRun mode) := by
  unfold startRun
  by_cases hstate : m.state = .notRunning
  · rw [if_pos hstate, if_pos (show (m.equipped s' d).state = .notRunning from hstate),
      beginRun_equipped]
    rw [← host_beginRun] at hclock
    exact ⟨⟨rfl, rfl, rfl, rfl, rfl, rfl, rfl, hclock⟩, settings_beginRun m, rfl, rfl,
      rfl, fun _ => rfl⟩
  · rw [if_neg hstate, if_neg (show (m.equipped s' d).state ≠ .notRunning from hstate)]
    exact ⟨⟨rfl, rfl, rfl, rfl, rfl, rfl, rfl, hhost⟩, rfl, rfl, rfl, rfl, fun _ => rfl⟩

/-! Whole runs. -/

/-- The step does not make the cycle count wrap, though it may clear it. -/
def CountsOn (m : Machine δ) : Prop :=
  m.trapCalled? = some .clearCycles ∨ m.cycles ≤ m.step.1.cycles

instance (m : Machine δ) : Decidable m.CountsOn :=
  inferInstanceAs (Decidable (m.trapCalled? = some .clearCycles ∨
    m.cycles ≤ m.step.1.cycles))

private theorem lockstep_accord {like : δ → δ → Prop} (hlike : Accord like)
    (hinterval : s'.yieldInterval = s.yieldInterval) (plan : RunPlan) :
    Lockstep plan (fun m _ => Heedless s s' m)
      (Configured (Turn.Agree like) s s') Eq where
  stopRequested := fun h => h.matched.contact.stops
  step := by
    intro m m' h hm
    obtain ⟨q, -, -, -, -, hstep⟩ := h.step hlike.congruence hm
    exact hstep
  periodicTurn := by
    rintro m m' n _ h rfl
    obtain ⟨hturn, hcount⟩ := h.periodicTurn hlike.congruence hinterval (n + 1)
    exact ⟨hturn, hcount.symm⟩
  pauses? := fun h => h.pauses?_eq plan

private theorem cycles_periodicTurn (m : Machine δ) (n : Nat) :
    (m.periodicTurn n).1.cycles = m.cycles := by
  unfold periodicTurn
  split
  · rfl
  · rfl

private theorem lockstep_cycles {like : δ → δ → Prop} (hlike : Accord like)
    (hinterval : s'.yieldInterval = s.yieldInterval)
    (hpenalty : s.pageCrossPenalty = false) (plan : RunPlan) :
    Lockstep plan (fun m m' => Heedless s s' m ∧ m'.CountsOn)
      (fun m m' => Configured (Turn.Agree like) s s' m m' ∧ m.cycles ≤ m'.cycles) Eq where
  stopRequested := fun h => h.1.matched.contact.stops
  step := by
    rintro m m' ⟨h, hle⟩ ⟨hm, hwrap⟩
    obtain ⟨q, hsmall, hclears, hcount, hcount', hstep, hhalt⟩ :=
      h.step hlike.congruence hm
    refine ⟨⟨hstep, ?_⟩, hhalt⟩
    rw [hcount, hcount']
    refine Charge.count_le (Nat.lt_of_le_of_lt hsmall (by decide)) hpenalty hle ?_
    exact hwrap.imp hclears.2 fun hstays => hcount' ▸ hstays
  periodicTurn := by
    rintro m m' n _ ⟨h, hle⟩ rfl
    obtain ⟨hturn, hcount⟩ := h.periodicTurn hlike.congruence hinterval (n + 1)
    refine ⟨⟨hturn, ?_⟩, hcount.symm⟩
    rw [cycles_periodicTurn, cycles_periodicTurn]
    exact hle
  pauses? := fun h => h.1.pauses?_eq plan

private theorem lockstep_placid {like : δ → δ → Prop} (hlike : Placid like)
    (plan : RunPlan) :
    Lockstep plan (fun m _ => Heedless s s' m) (Configured (Turn.Alike like) s s')
      fun _ _ => True where
  stopRequested := fun h => h.matched.contact.quiet'.trans h.matched.contact.quiet.symm
  step := by
    intro m m' h hm
    obtain ⟨q, -, -, -, -, hstep⟩ := h.step hlike.congruence hm
    exact hstep
  periodicTurn := fun h _ => ⟨h.periodicTurn_placid hlike _ _, trivial⟩
  pauses? := fun h => h.pauses?_eq plan

/-- Two runs are at the same point but for what they have counted in cycles, and at
hosts that are alike. -/
structure Unmoved (like : δ → δ → Prop) (stage stage' : Machine δ × (RunResult ⊕ Nat)) :
    Prop where
  registers : stage'.1.registers = stage.1.registers
  memory : stage'.1.memory = stage.1.memory
  instructions : stage'.1.instructions = stage.1.instructions
  file : stage'.1.file = stage.1.file
  disk : stage'.1.disk = stage.1.disk
  state : stage'.1.state = stage.1.state
  changes : stage'.1.changes = stage.1.changes
  breakpoints : stage'.1.breakpoints = stage.1.breakpoints
  stopRequested : stage'.1.stopRequested = stage.1.stopRequested
  host : like stage.1.host stage'.1.host
  ended : stage'.2.getLeft? = stage.2.getLeft?

omit [Host δ] in
private theorem Configured.unmoved {like : δ → δ → Prop} {counts : Nat → Nat → Prop}
    {stage stage' : Machine δ × (RunResult ⊕ Nat)}
    (h : Configured R s s' stage.1 stage'.1) (hhost : like stage.1.host stage'.1.host)
    (hstops : stage'.1.stopRequested = stage.1.stopRequested)
    (hends : Sum.LiftRel Eq counts stage.2 stage'.2) : Unmoved like stage stage' where
  registers := h.matched.registers
  memory := h.matched.memory
  instructions := h.matched.instructions
  file := h.matched.file
  disk := h.matched.disk
  state := h.state
  changes := h.changes
  breakpoints := h.breakpoints
  stopRequested := hstops
  host := hhost
  ended := by
    generalize stage.2 = o at hends ⊢
    generalize stage'.2 = o' at hends ⊢
    cases hends with
    | inl hresult => rw [hresult]
    | inr _ => rfl

private theorem configured_course_accord {like : δ → δ → Prop}
    (hlike : Accord like) {d : δ} (hhost : like m.host d) (mode : RunMode) {k : Nat}
    (hguard : ∀ j < k, ∀ m₁ ∈ stepping? (m.course mode j), Heedless m.settings s' m₁)
    (hinterval : s'.yieldInterval = m.settings.yieldInterval) :
    Unmoved like (m.course mode k) ((m.equipped s' d).course mode k) ∧
      (s'.pageCrossPenalty = m.settings.pageCrossPenalty →
        ((m.equipped s' d).course mode k).1.cycles = (m.course mode k).1.cycles) ∧
      (m.settings.pageCrossPenalty = false →
        (∀ j < k, ∀ m₁ ∈ stepping? ((m.equipped s' d).course mode j), m₁.CountsOn) →
        (m.course mode k).1.cycles ≤ ((m.equipped s' d).course mode k).1.cycles) := by
  have hstart : Configured (Turn.Agree like) m.settings s' (m.startRun mode)
      ((m.equipped s' d).startRun mode) :=
    configured_startRun s' mode ⟨hhost, rfl⟩ ⟨hlike.readClock hhost, rfl⟩
  have hplan := hstart.plan_eq mode
  obtain ⟨hconfigured, hends⟩ :=
    Lockstep.course (lockstep_accord hlike hinterval) hstart hplan rfl
    fun j hj m₁ hm₁ _ _ => hguard j hj m₁ hm₁
  refine ⟨hconfigured.unmoved hconfigured.matched.contact.host
    hconfigured.matched.contact.stops hends, hconfigured.cycles, fun hpenalty hwrap => ?_⟩
  have hcycles := UInt64.le_of_eq (m.cycles_startRun_equipped s' d mode).symm
  obtain ⟨⟨-, hle⟩, -⟩ :=
    Lockstep.course (lockstep_cycles hlike hinterval hpenalty) ⟨hstart, hcycles⟩
    hplan rfl fun j hj m₁ hm₁ m₁' hm₁' => ⟨hguard j hj m₁ hm₁, hwrap j hj m₁' hm₁'⟩
  exact hle

private theorem configured_course_placid {like : δ → δ → Prop} (hlike : Placid like)
    (hhost : like m.host m.host) (mode : RunMode) {k : Nat}
    (hguard : ∀ j < k, ∀ m₁ ∈ stepping? (m.course mode j), Heedless m.settings s' m₁) :
    Unmoved like (m.course mode k) ((m.equipped s' m.host).course mode k) ∧
      (s'.pageCrossPenalty = m.settings.pageCrossPenalty →
        ((m.equipped s' m.host).course mode k).1.cycles =
          (m.course mode k).1.cycles) := by
  have hstart : Configured (Turn.Alike like) m.settings s' (m.startRun mode)
      ((m.equipped s' m.host).startRun mode) :=
    configured_startRun s' mode ⟨hhost, rfl, rfl⟩ ⟨hlike.readClock hhost, rfl, rfl⟩
  obtain ⟨hconfigured, hends⟩ :=
    Lockstep.course (lockstep_placid hlike) hstart (hstart.plan_eq mode)
    trivial fun j hj m₁ hm₁ _ _ => hguard j hj m₁ hm₁
  have hcontact := hconfigured.matched.contact
  exact ⟨hconfigured.unmoved hcontact.host
    (hcontact.quiet'.trans hcontact.quiet.symm) hends,
    hconfigured.cycles⟩

/-- What a flag of the settings reaches in runs that do not read the clock. With another
penalty for leaving a page a run that does not ask for the cycle count goes the same way
at hosts that get the same calls, and counts no fewer cycles if it charges more. In
another decimal mode a run that never adds or subtracts with the decimal flag set does not
change at all. With another interval between the host's turns nothing changes to a host
that does not mind them. -/
theorem unmoved_course (m : Machine δ) (mode : RunMode) (k : Nat) :
    (∀ s', s' = { m.settings with pageCrossPenalty := s'.pageCrossPenalty } →
      ∀ like, Accord like → ∀ d, like m.host d →
      (∀ j < k, ∀ m₁ ∈ stepping? (m.course mode j),
        ¬m₁.ReadsClock ∧ m₁.trapCalled? ≠ some .cycles) →
      Unmoved like (m.course mode k) ((m.equipped s' d).course mode k) ∧
        (m.settings.pageCrossPenalty = false →
          (∀ j < k, ∀ m₁ ∈ stepping? ((m.equipped s' d).course mode j), m₁.CountsOn) →
          (m.course mode k).1.cycles ≤ ((m.equipped s' d).course mode k).1.cycles)) ∧
    (∀ s', s' = { m.settings with decimalMode := s'.decimalMode } →
      ∀ like, Accord like → ∀ d, like m.host d →
      (∀ j < k, ∀ m₁ ∈ stepping? (m.course mode j), ¬m₁.ReadsClock ∧ ¬m₁.AddsInDecimal) →
      Unmoved like (m.course mode k) ((m.equipped s' d).course mode k) ∧
        ((m.equipped s' d).course mode k).1.cycles = (m.course mode k).1.cycles) ∧
    (∀ s', s' = { m.settings with yieldInterval := s'.yieldInterval } →
      ∀ like, Placid like → like m.host m.host →
      (∀ j < k, ∀ m₁ ∈ stepping? (m.course mode j), ¬m₁.ReadsClock) →
      Unmoved like (m.course mode k) ((m.equipped s' m.host).course mode k) ∧
        ((m.equipped s' m.host).course mode k).1.cycles =
          (m.course mode k).1.cycles) := by
  refine ⟨fun s' hs like hlike d hhost hsteps => ?_,
    fun s' hs like hlike d hhost hsteps => ?_,
    fun s' hs like hlike hhost hsteps => ?_⟩
  · have hdecimal : s'.decimalMode = m.settings.decimalMode := by rw [hs]
    have hinterval : s'.yieldInterval = m.settings.yieldInterval := by rw [hs]
    have hguard : ∀ j < k, ∀ m₁ ∈ stepping? (m.course mode j),
      Heedless m.settings s' m₁ :=
      fun j hj m₁ hm₁ =>
        ⟨(hsteps j hj m₁ hm₁).1, .inl hdecimal, .inr (hsteps j hj m₁ hm₁).2⟩
    obtain ⟨hunmoved, -, hcycles⟩ :=
      configured_course_accord hlike hhost mode hguard hinterval
    exact ⟨hunmoved, hcycles⟩
  · have hpenalty : s'.pageCrossPenalty = m.settings.pageCrossPenalty := by rw [hs]
    have hinterval : s'.yieldInterval = m.settings.yieldInterval := by rw [hs]
    have hguard : ∀ j < k, ∀ m₁ ∈ stepping? (m.course mode j),
      Heedless m.settings s' m₁ :=
      fun j hj m₁ hm₁ =>
        ⟨(hsteps j hj m₁ hm₁).1, .inr (hsteps j hj m₁ hm₁).2, .inl hpenalty⟩
    obtain ⟨hunmoved, hcycles, -⟩ :=
      configured_course_accord hlike hhost mode hguard hinterval
    exact ⟨hunmoved, hcycles hpenalty⟩
  · have hpenalty : s'.pageCrossPenalty = m.settings.pageCrossPenalty := by rw [hs]
    have hdecimal : s'.decimalMode = m.settings.decimalMode := by rw [hs]
    have hguard : ∀ j < k, ∀ m₁ ∈ stepping? (m.course mode j),
      Heedless m.settings s' m₁ :=
      fun j hj m₁ hm₁ => ⟨hsteps j hj m₁ hm₁, .inl hdecimal, .inl hpenalty⟩
    obtain ⟨hunmoved, hcycles⟩ := configured_course_placid hlike hhost mode hguard
    exact ⟨hunmoved, hcycles hpenalty⟩

def forgiving : Settings :=
  { yieldInterval := 2, pageCrossPenalty := false }

def strict : Settings :=
  { yieldInterval := 2 }

def binary : Settings :=
  { yieldInterval := 2, decimalMode := false, pageCrossPenalty := false }

def patient : Settings :=
  { yieldInterval := 3, pageCrossPenalty := false }

/-- The program loads a byte from another page, prints it, adds to it, and returns. -/
def tabulating : Machine (Recorded Printer) :=
  { memory := (Memory.filled 0).load 0x0200
      [0xA2, 0x10, 0xBD, 0xF8, 0x02, 0x20, 0xE2, 0xFF, 0x69, 0x01, 0x60]
    settings := forgiving
    host := { device := {} } }

/-- An equal printer with another time on its clock. -/
def later : Recorded Printer :=
  { device := { time := 7 } }

/-- Only the strict settings count more cycles, and only the patient ones give
the host other turns. -/
theorem unmoved_course_tabulating :
    (∀ j < 5, ∀ m₁ ∈ stepping? (tabulating.course .run j),
      ¬m₁.ReadsClock ∧ m₁.trapCalled? ≠ some .cycles ∧ ¬m₁.AddsInDecimal) ∧
    (tabulating.course .run 5).2 = .inl (.ok .terminated) ∧
    (Unmoved (fun r r' => r'.device.printed = r.device.printed ∧ r'.calls = r.calls)
        (tabulating.course .run 5) ((tabulating.equipped strict later).course .run 5) ∧
      (tabulating.course .run 5).1.cycles <
        ((tabulating.equipped strict later).course .run 5).1.cycles) ∧
    Unmoved (fun r r' => r'.device.printed = r.device.printed ∧ r'.calls = r.calls)
      (tabulating.course .run 5) ((tabulating.equipped binary later).course .run 5) ∧
    (Unmoved (fun r r' => r'.device.printed = r.device.printed ∧ r'.demands = r.demands)
        (tabulating.course .run 5)
          ((tabulating.equipped patient tabulating.host).course .run 5) ∧
      ((tabulating.equipped patient tabulating.host).course .run 5).1.host.calls ≠
        (tabulating.course .run 5).1.host.calls) := by
  have hruns : (∀ j < 5, ∀ m₁ ∈ stepping? (tabulating.course .run j),
        ¬m₁.ReadsClock ∧ m₁.trapCalled? ≠ some .cycles ∧ ¬m₁.AddsInDecimal) ∧
      (∀ j < 5, ∀ m₁ ∈ stepping? ((tabulating.equipped strict later).course .run j),
        m₁.CountsOn) ∧
      (tabulating.course .run 5).2 = .inl (.ok .terminated) ∧
      (tabulating.course .run 5).1.cycles ≠
        ((tabulating.equipped strict later).course .run 5).1.cycles ∧
      ((tabulating.equipped patient tabulating.host).course .run 5).1.host.calls ≠
        (tabulating.course .run 5).1.host.calls := by
    decide +kernel
  obtain ⟨hsteps, hwrap, hends, hcounts, hturns⟩ := hruns
  obtain ⟨hpenalty, hdecimal, hinterval⟩ := unmoved_course tabulating .run 5
  obtain ⟨hunmoved, hle⟩ := hpenalty strict rfl _ accord_printer.recorded later ⟨rfl, rfl⟩
    fun j hj m₁ hm₁ => ⟨(hsteps j hj m₁ hm₁).1, (hsteps j hj m₁ hm₁).2.1⟩
  obtain ⟨hunmoved', -⟩ := hdecimal binary rfl _ accord_printer.recorded later ⟨rfl, rfl⟩
    fun j hj m₁ hm₁ => ⟨(hsteps j hj m₁ hm₁).1, (hsteps j hj m₁ hm₁).2.2⟩
  obtain ⟨hunmoved'', -⟩ := hinterval patient rfl _ placid_printer.recorded ⟨rfl, rfl⟩
    fun j hj m₁ hm₁ => (hsteps j hj m₁ hm₁).1
  exact ⟨hsteps, hends, ⟨hunmoved, UInt64.lt_of_le_of_ne (hle rfl hwrap) hcounts⟩,
    hunmoved', hunmoved'', hturns⟩

end Breadboard.Machine
