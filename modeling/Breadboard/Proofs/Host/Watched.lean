import Breadboard.Proofs.Machine.Course

namespace Breadboard

inductive Sighting
  | turn (stops : Bool)
  | read (timeout : Option Nat) (stopping : Bool)
deriving DecidableEq, Repr, Inhabited

/-- A device with what has been seen of it, the latest first. -/
structure Watched (δ : Type) where
  device : δ
  seen : List Sighting := []

namespace Watched

variable {δ : Type}

def after (w : Watched δ) (t : Turn δ) : Turn (Watched δ) :=
  { host := { w with device := t.host }, stops := t.stops }

def note (w : Watched δ) (s : Sighting) : Watched δ :=
  { w with seen := s :: w.seen }

end Watched

variable {δ : Type} [Host δ]

instance : Host (Watched δ) where
  writeByte w b := w.after (Host.writeByte w.device b)
  readByte w timeout stopping :=
    let (event, t) := Host.readByte w.device timeout stopping
    (event, (w.note (.read timeout stopping)).after t)
  processEvents w :=
    let t := Host.processEvents w.device
    (w.note (.turn t.stops)).after t
  close w := { w with device := Host.close w.device }
  readClock w :=
    let (reading, device) := Host.readClock w.device
    (reading, { w with device })

theorem Watched.writeAll (w : Watched δ) (bytes : List UInt8) :
    Host.writeAll w bytes = w.after (Host.writeAll w.device bytes) := by
  have hwrites : ∀ t : Turn δ,
      bytes.foldl (fun (u : Turn (Watched δ)) b =>
        let v := Host.writeByte u.host b
        { v with stops := u.stops || v.stops }) (w.after t) =
      w.after (bytes.foldl (fun u b =>
        let v := Host.writeByte u.host b
        { v with stops := u.stops || v.stops }) t) := by
    induction bytes with
    | nil => exact fun t => rfl
    | cons b bytes ih => exact fun t => ih (t.andThen (Host.writeByte t.host b))
  exact hwrites { host := w.device }

namespace Machine

def watched (m : Machine δ) : Machine (Watched δ) :=
  (m.setHost ({ device := m.host } : Watched δ)).2

def bare (m : Machine (Watched δ)) : Machine δ :=
  (m.setHost m.host.device).2

def Outcome.bare (o : Outcome (Watched δ)) : Outcome δ :=
  (o.1.bare, o.2)

private theorem bare_watched (m : Machine δ) : m.watched.bare = m :=
  rfl

section Services

variable (m : Machine (Watched δ))

private theorem output_bare (bytes : List UInt8) :
    m.bare.output bytes = (m.output bytes).bare := by
  unfold output
  rw [Watched.writeAll]
  rfl

private theorem asked_bare (t : Trap) : m.bare.asked t = (m.asked t).bare := by
  cases t with
  | brkHandler | outCh | outStr => exact output_bare m _
  | _ => rfl

private theorem heard_bare (t : Trap) : m.bare.heard t = m.heard t := by
  cases t with
  | _ => rfl

private theorem serve_bare (t : Trap) : m.bare.serve t = (m.serve t).bare := by
  have halike : ServedAlike t m m.bare :=
    ⟨rfl, rfl, rfl, rfl, fun _ => rfl, fun _ => rfl, heard_bare m t⟩
  obtain ⟨r, -, hserve⟩ := m.exists_reply t
  rw [hserve m (.refl t m), hserve _ halike, asked_bare]
  rfl

private theorem callTrap_bare (t : Trap) : m.bare.callTrap t = (m.callTrap t).bare := by
  have hready : m.bare.ready t = (m.ready t).bare := by
    unfold ready
    split
    · rfl
    · rfl
  rw [callTrap_eq, callTrap_eq, hready, serve_bare]
  generalize (m.ready t).serve t = outcome
  obtain ⟨m₁, halt⟩ := outcome
  cases halt with
  | none => rfl
  | some halt => rfl

private theorem recordWrites_bare (writes : List Write) :
    m.bare.recordWrites writes = (m.recordWrites writes).bare := by
  unfold recordWrites
  by_cases htracking : m.isTracking = true
  · rw [if_pos htracking, if_pos (show m.bare.isTracking = true from htracking)]
    rfl
  · rw [if_neg htracking, if_neg (show ¬m.bare.isTracking = true from htracking)]

private theorem applyEffect_bare (e : Effect) :
    m.bare.applyEffect e = (m.applyEffect e).bare := by
  unfold applyEffect
  split
  · rfl
  · exact recordWrites_bare { m with
      registers := e.registers
      memory := m.memory.writeAll e.writes
      cycles := m.cycles + UInt64.ofNat e.cycles
      instructions := m.instructions + 1 } e.writes

private theorem executeDecoded_bare (opcode : UInt8) (decoded : Option OpcodeEntry) :
    m.bare.executeDecoded opcode decoded = (m.executeDecoded opcode decoded).bare := by
  unfold executeDecoded
  dsimp only [bare, setHost]
  split
  · rfl
  · split
    · rfl
    · exact congrArg finished (applyEffect_bare m _)

private theorem executeInstruction_bare :
    m.bare.executeInstruction = m.executeInstruction.bare := by
  have hmemory : m.bare.memory = m.memory := rfl
  have hregisters : m.bare.registers = m.registers := rfl
  rw [executeInstruction_eq, executeInstruction_eq, hmemory, hregisters]
  exact executeDecoded_bare m _ _

theorem trapCalled?_bare : m.bare.trapCalled? = m.trapCalled? := by
  unfold trapCalled?
  rw [executeInstruction_bare]
  cases hbefore : Trap.at? m.registers.pc with
  | some t =>
      rw [show Trap.at? m.bare.registers.pc = some t from hbefore]
  | none =>
      rw [show Trap.at? m.bare.registers.pc = none from hbefore]
      generalize m.executeInstruction = outcome
      obtain ⟨m₁, halt⟩ := outcome
      cases halt with
      | none => rfl
      | some halt => rfl

private theorem advance_bare : m.bare.advance = m.advance.bare := by
  unfold advance
  rw [executeInstruction_bare]
  cases hbefore : Trap.at? m.registers.pc with
  | some t =>
      rw [show Trap.at? m.bare.registers.pc = some t from hbefore]
      exact callTrap_bare m t
  | none =>
      rw [show Trap.at? m.bare.registers.pc = none from hbefore]
      generalize m.executeInstruction = outcome
      obtain ⟨m₁, halt⟩ := outcome
      cases halt with
      | some halt => rfl
      | none =>
          dsimp only [Outcome.bare]
          cases hafter : Trap.at? m₁.registers.pc with
          | some t =>
              rw [show Trap.at? m₁.bare.registers.pc = some t from hafter]
              exact callTrap_bare m₁ t
          | none =>
              rw [show Trap.at? m₁.bare.registers.pc = none from hafter]
              rfl

theorem step_bare : m.bare.step = m.step.bare := by
  unfold step
  rw [advance_bare]
  generalize m.advance = outcome
  obtain ⟨m₁, halt⟩ := outcome
  dsimp only [Outcome.bare]
  by_cases hnotes : (m₁.isTracking && m₁.registers ≠ m.registers) = true
  · rw [if_pos hnotes]
    exact if_pos hnotes
  · rw [if_neg hnotes]
    exact if_neg hnotes

private theorem periodicTurn_bare (n : Nat) :
    m.bare.periodicTurn n = ((m.periodicTurn n).1.bare, (m.periodicTurn n).2) := by
  unfold periodicTurn
  split
  · rename_i h
    rw [if_pos (show max m.settings.yieldInterval.toNat 1 ≤ n from h)]
    rfl
  · rename_i h
    rw [if_neg (show ¬max m.settings.yieldInterval.toNat 1 ≤ n from h)]

private theorem round_bare (plan : RunPlan) (n : Nat) :
    m.bare.round plan n = ((m.round plan n).1.bare, (m.round plan n).2) := by
  cases hstop : m.stopRequested with
  | true =>
      unfold round
      rw [if_pos hstop, if_pos (show m.bare.stopRequested = true from hstop)]
  | false =>
      have hstop' : m.bare.stopRequested = false := hstop
      cases hstep : m.step with
      | mk m₁ halt =>
          have hstep' : m.bare.step = (m₁.bare, halt) := by
            rw [step_bare, hstep]
            rfl
          cases halt with
          | some halt =>
              rw [round_of_halt plan n hstop hstep, round_of_halt plan n hstop' hstep']
          | none =>
              rw [round_of_finished plan n hstop hstep,
                round_of_finished plan n hstop' hstep', periodicTurn_bare]
              rw [show (m₁.periodicTurn (n + 1)).1.bare.pauses? plan =
                (m₁.periodicTurn (n + 1)).1.pauses? plan from rfl]
              cases (m₁.periodicTurn (n + 1)).1.pauses? plan with
              | none => rfl
              | some reason => rfl

private theorem rounds_bare (plan : RunPlan) (n k : Nat) :
    m.bare.rounds plan n k = ((m.rounds plan n k).1.bare, (m.rounds plan n k).2) := by
  induction k with
  | zero => rfl
  | succ k ih =>
      rw [rounds, rounds, ih]
      generalize m.rounds plan n k = stage
      obtain ⟨m₁, end?⟩ := stage
      cases end? with
      | inl result => rfl
      | inr n => exact round_bare m₁ plan n

private theorem beginRun_bare : m.bare.beginRun = m.beginRun.bare := by
  unfold beginRun
  dsimp only
  rw [← recordWrites_bare]
  rfl

private theorem startRun_bare (mode : RunMode) :
    m.bare.startRun mode = (m.startRun mode).bare := by
  unfold startRun
  by_cases hstate : m.state = .notRunning
  · rw [if_pos hstate, if_pos (show m.bare.state = .notRunning from hstate),
      beginRun_bare]
    rfl
  · rw [if_neg hstate, if_neg (show m.bare.state ≠ .notRunning from hstate)]
    rfl

private theorem plan_bare (mode : RunMode) : m.bare.plan mode = m.plan mode := by
  have hmemory : m.bare.memory = m.memory := rfl
  have hregisters : m.bare.registers = m.registers := rfl
  unfold plan callReturn?
  rw [hmemory, hregisters]

private theorem course_bare (mode : RunMode) (k : Nat) :
    m.bare.course mode k = ((m.course mode k).1.bare, (m.course mode k).2) := by
  unfold course
  rw [startRun_bare, plan_bare]
  exact rounds_bare _ _ _ _

end Services

/-- A run goes as it does when the host is watched. -/
theorem course_watched (m : Machine δ) (mode : RunMode) (k : Nat) :
    m.course mode k =
      ((m.watched.course mode k).1.bare, (m.watched.course mode k).2) := by
  rw [← course_bare, bare_watched]

theorem stepping?_course_watched (m : Machine δ) (mode : RunMode) (k : Nat) :
    stepping? (m.course mode k) = (stepping? (m.watched.course mode k)).map bare := by
  rw [course_watched]
  generalize m.watched.course mode k = stage
  obtain ⟨m₁, end?⟩ := stage
  cases end? with
  | inl result => rfl
  | inr n =>
      cases hstop : m₁.stopRequested with
      | true => simp [stepping?, hstop, show m₁.bare.stopRequested = true from hstop]
      | false =>
          rw [stepping?_eq_some n hstop,
            stepping?_eq_some n (show m₁.bare.stopRequested = false from hstop)]
          rfl

end Machine

end Breadboard
