import Breadboard.Proofs.Machine.Correspondence
import Breadboard.Proofs.Machine.Service

namespace Breadboard

/-- Turns in which no stop is asked for, and that leave hosts that are alike. -/
structure Turn.Alike {δ : Type} (like : δ → δ → Prop) (t t' : Turn δ) : Prop where
  host : like t.host t'.host
  quiet : t.stops = false
  quiet' : t'.stops = false

theorem Turn.Alike.andThen {δ : Type} {like : δ → δ → Prop} {t t' u u' : Turn δ}
    (h : t.Alike like t') (hu : u.Alike like u') :
    (t.andThen u).Alike like (t'.andThen u') where
  host := hu.host
  quiet := by simp [Turn.andThen, h.quiet, hu.quiet]
  quiet' := by simp [Turn.andThen, h.quiet', hu.quiet']

/-- Hosts that are alike never ask for a stop. They give the same when they are read
and stay alike whatever call they get, and that one of them was given its periodic
turn makes no difference. -/
structure Placid {δ : Type} [Host δ] (like : δ → δ → Prop) : Prop where
  symm : ∀ {d d' : δ}, like d d' → like d' d
  writeByte : ∀ {d d' : δ}, like d d' → ∀ b,
    Turn.Alike like (Host.writeByte d b) (Host.writeByte d' b)
  readByte : ∀ {d d' : δ}, like d d' → ∀ timeout,
    (Host.readByte d' timeout false).1 = (Host.readByte d timeout false).1 ∧
      Turn.Alike like (Host.readByte d timeout false).2 (Host.readByte d' timeout false).2
  processEvents : ∀ {d d' : δ}, like d d' →
    Turn.Alike like { host := d } (Host.processEvents d')
  readClock : ∀ {d : δ}, like d d → like (Host.readClock d).2 (Host.readClock d).2

namespace Placid

variable {δ : Type} [Host δ] {like : δ → δ → Prop}

private theorem processEvents_both (h : Placid like) {d d' : δ} (hd : like d d') :
    Turn.Alike like (Host.processEvents d) (Host.processEvents d') where
  host := (h.processEvents (h.symm (h.processEvents (h.symm hd)).host)).host
  quiet := (h.processEvents (h.symm hd)).quiet'
  quiet' := (h.processEvents hd).quiet'

theorem congruence (h : Placid like) : Congruence (Turn.Alike like) where
  writeByte := fun ht b => ht.andThen (h.writeByte ht.host b)
  readByte := by
    intro t t' ht timeout
    obtain ⟨hevent, hturn⟩ := h.readByte ht.host timeout
    rw [ht.quiet, ht.quiet']
    exact ⟨hevent, ht.andThen hturn⟩
  processEvents := fun ht => ht.andThen (h.processEvents_both ht.host)

end Placid

namespace Machine

variable {δ : Type} {like : δ → δ → Prop} {m m' : Machine δ}

/-- The machines agree on all that a program can see. -/
structure Alike (like : δ → δ → Prop) (m m' : Machine δ) : Prop where
  memory : m'.memory = m.memory
  registers : m'.registers = m.registers
  cycles : m'.cycles = m.cycles
  instructions : m'.instructions = m.instructions
  file : m'.file = m.file
  settings : m'.settings = m.settings
  breakpoints : m'.breakpoints = m.breakpoints
  disk : m'.disk = m.disk
  quiet : m.stopRequested = false
  quiet' : m'.stopRequested = false
  host : like m.host m'.host

/-- Machines that are alike, and of which the same is said. -/
structure AlikeOutcome (like : δ → δ → Prop) (o o' : Outcome δ) : Prop where
  machine : Alike like o.1 o'.1
  halt : o'.2 = o.2

theorem Alike.matched (h : Alike like m m') : Matched (Turn.Alike like) m m' :=
  { h with contact := ⟨h.host, h.quiet, h.quiet'⟩ }

theorem Matched.alike (h : Matched (Turn.Alike like) m m')
    (hbreakpoints : m'.breakpoints = m.breakpoints) : Alike like m m' :=
  { h with
    breakpoints := hbreakpoints
    quiet := h.contact.quiet
    quiet' := h.contact.quiet'
    host := h.contact.host }

namespace Alike

variable [Host δ]

theorem giveTurn (hlike : Placid like) (h : Alike like m m') : Alike like m m'.giveTurn :=
  { h with
    host := (hlike.processEvents h.host).host
    quiet' := by
      simp [Machine.giveTurn, Machine.after, h.quiet',
        (hlike.processEvents h.host).quiet'] }

theorem symm (hlike : Placid like) (h : Alike like m m') : Alike like m' m where
  memory := h.memory.symm
  registers := h.registers.symm
  cycles := h.cycles.symm
  instructions := h.instructions.symm
  file := h.file.symm
  settings := h.settings.symm
  breakpoints := h.breakpoints.symm
  disk := h.disk.symm
  quiet := h.quiet'
  quiet' := h.quiet
  host := hlike.symm h.host

theorem periodicTurn (hlike : Placid like) (h : Alike like m m') (n n' : Nat) :
    Alike like (m.periodicTurn n).1 (m'.periodicTurn n').1 := by
  have hturn : Alike like m.giveTurn m' := ((h.symm hlike).giveTurn hlike).symm hlike
  unfold Machine.periodicTurn
  split
  · split
    · exact hturn.giveTurn hlike
    · exact hturn
  · split
    · exact h.giveTurn hlike
    · exact h

theorem step (hlike : Placid like) (h : Alike like m m') (hclock : ¬m.ReadsClock) :
    AlikeOutcome like m.step m'.step := by
  have hstep := h.matched.step hlike.congruence hclock
  refine ⟨hstep.machine.alike ?_, hstep.halt⟩
  rw [(steered_step m').breakpoints, (steered_step m).breakpoints, h.breakpoints]

end Alike

end Machine

end Breadboard
