import Breadboard.Machine.Run
import Breadboard.Proofs.Machine.Reply

namespace Breadboard

namespace Turn

variable {δ : Type}

def andThen (t u : Turn δ) : Turn δ :=
  { u with stops := t.stops || u.stops }

private theorem andThen_assoc (t u v : Turn δ) :
    (t.andThen u).andThen v = t.andThen (u.andThen v) := by
  unfold andThen
  rw [Bool.or_assoc]

end Turn

/-- Hosts in this relation, of which it is known whether they have asked for a stop,
answer alike and stay in it. Nothing is said of the clock. -/
structure Congruence {δ : Type} [Host δ] (R : Turn δ → Turn δ → Prop) : Prop where
  writeByte : ∀ {t t' : Turn δ}, R t t' → ∀ b,
    R (t.andThen (Host.writeByte t.host b)) (t'.andThen (Host.writeByte t'.host b))
  readByte : ∀ {t t' : Turn δ}, R t t' → ∀ timeout,
    (Host.readByte t'.host timeout t'.stops).1 =
      (Host.readByte t.host timeout t.stops).1 ∧
      R (t.andThen (Host.readByte t.host timeout t.stops).2)
        (t'.andThen (Host.readByte t'.host timeout t'.stops).2)
  processEvents : ∀ {t t' : Turn δ}, R t t' →
    R (t.andThen (Host.processEvents t.host)) (t'.andThen (Host.processEvents t'.host))

theorem Congruence.writeAll {δ : Type} [Host δ] {R : Turn δ → Turn δ → Prop}
    (hR : Congruence R) {t t' : Turn δ} (h : R t t') (bytes : List UInt8) :
    R (t.andThen (Host.writeAll t.host bytes))
      (t'.andThen (Host.writeAll t'.host bytes)) := by
  -- By the bytes that remain: what the hosts have done so far is a turn after the one
  -- they started with.
  have hwrites : ∀ u u' : Turn δ, R (t.andThen u) (t'.andThen u') →
      R (t.andThen (bytes.foldl (fun u b => u.andThen (Host.writeByte u.host b)) u))
        (t'.andThen (bytes.foldl (fun u b => u.andThen (Host.writeByte u.host b))
          u')) := by
    induction bytes with
    | nil => exact fun u u' hu => hu
    | cons b bytes ih =>
        intro u u' hu
        apply ih
        rw [← Turn.andThen_assoc, ← Turn.andThen_assoc]
        exact hR.writeByte hu b
  apply hwrites { host := t.host } { host := t'.host }
  simpa [Turn.andThen] using h

def Trap.isClock : Trap → Bool
  | .elapsedMs | .wallClock => true
  | _ => false

namespace Machine

variable {δ : Type} {R : Turn δ → Turn δ → Prop} {m m' : Machine δ}

def contact (m : Machine δ) : Turn δ :=
  { host := m.host, stops := m.stopRequested }

/-- The machines agree on all that a program can see but for the host, and on their hosts
as far as the relation tells. -/
structure Matched (R : Turn δ → Turn δ → Prop) (m m' : Machine δ) : Prop where
  memory : m'.memory = m.memory
  registers : m'.registers = m.registers
  cycles : m'.cycles = m.cycles
  instructions : m'.instructions = m.instructions
  file : m'.file = m.file
  settings : m'.settings = m.settings
  disk : m'.disk = m.disk
  contact : R m.contact m'.contact

structure MatchedOutcome (R : Turn δ → Turn δ → Prop) (o o' : Outcome δ) : Prop where
  machine : Matched R o.1 o'.1
  halt : o'.2 = o.2

theorem executeInstruction_eq (m : Machine δ) :
    m.executeInstruction = m.executeDecoded (m.memory.get m.registers.pc)
      (opcodes.decode? (m.memory.get m.registers.pc)) :=
  rfl

namespace Matched

theorem pointer_eq (h : Matched R m m') : m'.pointer = m.pointer := by
  simp [Machine.pointer, h.registers]

theorem returnToCaller (h : Matched R m m') :
    Matched R m.returnToCaller m'.returnToCaller :=
  { h with
    registers := by simp [Machine.returnToCaller, h.registers, h.memory]
    cycles := by simp [Machine.returnToCaller, h.cycles] }

theorem answer (h : Matched R m m') (r : Reply) :
    MatchedOutcome R (m.answer r) (m'.answer r) where
  machine := { h with
    registers := by simp [Machine.answer, h.registers]
    cycles := by simp [Machine.answer, h.cycles]
    file := by simp [Machine.answer, h.file] }
  halt := rfl

theorem recordWrites (h : Matched R m m') (writes writes' : List Write) :
    Matched R (m.recordWrites writes) (m'.recordWrites writes') := by
  unfold Machine.recordWrites
  split
  · split
    · exact { h with }
    · exact { h with }
  · split
    · exact { h with }
    · exact { h with }

theorem applyEffect (h : Matched R m m') (e : Effect) :
    Matched R (m.applyEffect e) (m'.applyEffect e) := by
  unfold Machine.applyEffect
  split
  · exact { h with
      registers := rfl
      cycles := by simp [h.cycles]
      instructions := by simp [h.instructions] }
  · refine recordWrites ?_ _ _
    exact { h with
      registers := rfl
      memory := by simp [h.memory]
      cycles := by simp [h.cycles]
      instructions := by simp [h.instructions] }

theorem executeDecoded (h : Matched R m m') (opcode : UInt8)
    (decoded : Option OpcodeEntry) :
    MatchedOutcome R (m.executeDecoded opcode decoded)
      (m'.executeDecoded opcode decoded) := by
  cases decoded with
  | none => exact ⟨h, by simp [Machine.executeDecoded, failed, h.registers]⟩
  | some e =>
      simp only [Machine.executeDecoded, h.settings, h.registers, h.memory]
      cases e.effect? m.settings m.registers m.memory with
      | none => exact ⟨h, rfl⟩
      | some effect => exact ⟨h.applyEffect effect, rfl⟩

theorem executeInstruction (h : Matched R m m') :
    MatchedOutcome R m.executeInstruction m'.executeInstruction := by
  rw [executeInstruction_eq, executeInstruction_eq, h.memory, h.registers]
  exact h.executeDecoded _ _

variable [Host δ]

theorem output (hR : Congruence R) (h : Matched R m m') (bytes : List UInt8) :
    Matched R (m.output bytes) (m'.output bytes) :=
  { h with contact := hR.writeAll h.contact bytes }

theorem giveTurn (hR : Congruence R) (h : Matched R m m') :
    Matched R m.giveTurn m'.giveTurn :=
  { h with contact := hR.processEvents h.contact }

theorem input (hR : Congruence R) (h : Matched R m m') (timeout : Option Nat) :
    (m'.input timeout).1 = (m.input timeout).1 ∧
      Matched R (m.input timeout).2 (m'.input timeout).2 := by
  obtain ⟨hevent, hturn⟩ := hR.readByte h.contact timeout
  exact ⟨hevent, { h with contact := hturn }⟩

theorem asked (hR : Congruence R) (h : Matched R m m') {t : Trap}
    (ht : t.isClock = false) :
    m'.heard t = m.heard t ∧ Matched R (m.asked t) (m'.asked t) := by
  cases t with
  | elapsedMs | wallClock => cases ht
  | brkHandler =>
      refine ⟨rfl, ?_⟩
      unfold Machine.asked
      rw [h.registers, h.memory]
      exact h.output hR _
  | outCh =>
      refine ⟨rfl, ?_⟩
      unfold Machine.asked
      rw [h.registers]
      exact h.output hR _
  | outStr =>
      refine ⟨rfl, ?_⟩
      unfold Machine.asked
      rw [h.memory, h.pointer_eq]
      exact h.output hR _
  | getCh =>
      obtain ⟨hevent, hinput⟩ := h.input hR none
      exact ⟨congrArg Heard.event hevent, hinput⟩
  | getChTimeout =>
      obtain ⟨hevent, hinput⟩ := h.input hR (some m.pointer.toNat)
      unfold Machine.asked Machine.heard
      rw [h.pointer_eq]
      exact ⟨congrArg Heard.event hevent, hinput⟩
  | processEvents => exact ⟨rfl, h.giveTurn hR⟩
  | _ => exact ⟨rfl, h⟩

theorem serve (hR : Congruence R) (h : Matched R m m') {t : Trap}
    (ht : t.isClock = false) :
    MatchedOutcome R (m.serve t) (m'.serve t) := by
  obtain ⟨hheard, hasked⟩ := h.asked hR ht
  have halike : ServedAlike t m m' := by
    refine ⟨h.memory, h.registers, h.file, h.disk, fun _ => h.cycles,
      fun hclock => ?_, hheard⟩
    rw [hclock] at ht
    cases ht
  obtain ⟨r, -, hserve⟩ := m.exists_reply t
  rw [hserve m (.refl t m), hserve m' halike]
  exact hasked.answer r

theorem callTrap (hR : Congruence R) (h : Matched R m m') {t : Trap}
    (ht : t.isClock = false) :
    MatchedOutcome R (m.callTrap t) (m'.callTrap t) := by
  have hready : Matched R (m.ready t) (m'.ready t) := by
    unfold ready
    split
    · exact h.giveTurn hR
    · exact h
  have hserve := hready.serve hR ht
  rw [callTrap_eq, callTrap_eq]
  generalize (m.ready t).serve t = o at hserve ⊢
  generalize (m'.ready t).serve t = o' at hserve ⊢
  obtain ⟨m₁, halt⟩ := o
  obtain ⟨m₁', halt'⟩ := o'
  obtain ⟨hmachine, rfl⟩ := hserve
  cases halt' with
  | none => exact ⟨hmachine.returnToCaller, rfl⟩
  | some halt => exact ⟨hmachine, rfl⟩

end Matched

def trapCalled? (m : Machine δ) : Option Trap :=
  match Trap.at? m.registers.pc with
  | some t => some t
  | none =>
      match m.executeInstruction with
      | (_, some _) => none
      | (m, none) => Trap.at? m.registers.pc

def ReadsClock (m : Machine δ) : Prop :=
  ∃ t ∈ m.trapCalled?, t.isClock = true

namespace Matched

variable [Host δ]

theorem advance (hR : Congruence R) (h : Matched R m m') (hclock : ¬m.ReadsClock) :
    MatchedOutcome R m.advance m'.advance := by
  have hexecute := h.executeInstruction
  unfold ReadsClock trapCalled? at hclock
  unfold Machine.advance
  rw [h.registers]
  generalize m.executeInstruction = o at hexecute hclock ⊢
  generalize m'.executeInstruction = o' at hexecute ⊢
  obtain ⟨m₁, halt⟩ := o
  obtain ⟨m₁', halt'⟩ := o'
  obtain ⟨hmachine, rfl⟩ := hexecute
  cases hbefore : Trap.at? m.registers.pc with
  | some t =>
      simp only [hbefore, Option.mem_some_iff, exists_eq_left',
        Bool.not_eq_true] at hclock
      exact h.callTrap hR hclock
  | none =>
      cases halt' with
      | some halt => exact ⟨hmachine, rfl⟩
      | none =>
          dsimp only
          rw [hmachine.registers]
          cases hafter : Trap.at? m₁.registers.pc with
          | some t =>
              simp only [hbefore, hafter, Option.mem_some_iff, exists_eq_left',
                Bool.not_eq_true] at hclock
              exact hmachine.callTrap hR hclock
          | none => exact ⟨hmachine, rfl⟩

theorem step (hR : Congruence R) (h : Matched R m m') (hclock : ¬m.ReadsClock) :
    MatchedOutcome R m.step m'.step := by
  have hadvance := h.advance hR hclock
  unfold Machine.step
  dsimp only
  split
  · split
    · exact ⟨{ hadvance.machine with }, hadvance.halt⟩
    · exact ⟨{ hadvance.machine with }, hadvance.halt⟩
  · split
    · exact ⟨{ hadvance.machine with }, hadvance.halt⟩
    · exact hadvance

theorem periodicTurn (hR : Congruence R) (h : Matched R m m') (n : Nat) :
    Matched R (m.periodicTurn n).1 (m'.periodicTurn n).1 ∧
      (m'.periodicTurn n).2 = (m.periodicTurn n).2 := by
  unfold Machine.periodicTurn
  rw [h.settings]
  split
  · exact ⟨h.giveTurn hR, rfl⟩
  · exact ⟨h, rfl⟩

end Matched

end Machine

end Breadboard
