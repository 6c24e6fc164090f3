import Breadboard.Host.Channel

namespace Breadboard

namespace Channel

/-! What no step changes. -/

def pending (c : Channel) : List UInt8 :=
  c.incoming.toList ++ c.held.toList ++ c.script

def accepted (c : Channel) : List UInt8 :=
  c.written.toList ++ c.outgoing.toList

/-- The number of the call at which the writer stops, counted from the first one. -/
def lastCall (c : Channel) : Option Nat :=
  c.writerLimit.map (· + c.written.toList.length)

/-- A reader that has stopped has nothing left to hand over. -/
def Settled (c : Channel) : Prop :=
  c.readerStopped = true → c.held = none ∧ c.script = []

/-- The writer has ended, once no more can be sent to it. -/
def Flushed (c : Channel) : Prop :=
  c.writerLimit = some 0 ∨ c.outgoing.toList = []

private theorem frame_readerStep (c : Channel) : c.readerStep = { c with
    script := c.readerStep.script
    held := c.readerStep.held
    incoming := c.readerStep.incoming
    readerStopped := c.readerStep.readerStopped } := by
  unfold readerStep
  split
  · split
    · rfl
    · rfl
  · split
    · rfl
    · rfl

private theorem pending_readerStep (c : Channel) : c.readerStep.pending = c.pending := by
  unfold readerStep pending
  cases hheld : c.held with
  | some b =>
      cases hincoming : c.incoming with
      | none => simp
      | some a => simp [hincoming, hheld]
  | none =>
      cases hscript : c.script with
      | nil => simp
      | cons b rest => simp

private theorem settled_readerStep {c : Channel} (h : c.Settled) :
    c.readerStep.Settled := by
  unfold readerStep
  cases hheld : c.held with
  | some b =>
      dsimp only
      split
      · intro hstopped
        cases (hheld.symm.trans (h hstopped).1)
      · exact h
  | none =>
      cases hscript : c.script with
      | nil => exact fun _ => ⟨rfl, rfl⟩
      | cons b rest =>
          intro hstopped
          cases (hscript.symm.trans (h hstopped).2)

/-- What a step of the writer leaves alone, and what it keeps in sum. -/
structure Writes (c c' : Channel) : Prop where
  frame : c' = { c with
    outgoing := c'.outgoing
    written := c'.written
    writerLimit := c'.writerLimit }
  accepted : c'.accepted = c.accepted
  lastCall : c'.lastCall = c.lastCall

theorem writes_writerStep (c : Channel) : Writes c c.writerStep := by
  unfold writerStep
  split
  · exact ⟨rfl, rfl, rfl⟩
  · rename_i hgoes
    cases hpop : c.outgoing.pop? with
    | none => exact ⟨rfl, rfl, rfl⟩
    | some popped =>
        obtain ⟨b, rest⟩ := popped
        refine ⟨rfl, ?_, ?_⟩
        · simp [accepted, Queue.toList_of_pop? hpop]
        · unfold lastCall
          cases hlimit : c.writerLimit with
          | none => rfl
          | some n =>
              have hpos : n ≠ 0 := fun hzero => hgoes (hlimit.trans (congrArg some hzero))
              simp
              omega

theorem frame_of_receive? {c c' : Channel} {event : InputEvent}
    (h : c.receive? = some (event, c')) : c' = { c with incoming := c'.incoming } := by
  unfold receive? at h
  split at h
  · cases h
    rfl
  · split at h
    · cases h
      rfl
    · cases h

private theorem pending_of_receive? {c c' : Channel} {event : InputEvent}
    (h : c.receive? = some (event, c')) :
    (∃ b, event = .byte b ∧ c.pending = b :: c'.pending) ∨
      event = .closed ∧ c' = c ∧ c.incoming = none ∧ c.readerStopped = true := by
  unfold receive? at h
  cases hincoming : c.incoming with
  | some b =>
      rw [hincoming] at h
      cases h
      exact .inl ⟨b, rfl, by simp [pending, hincoming]⟩
  | none =>
      rw [hincoming] at h
      cases hstopped : c.readerStopped with
      | true =>
          simp only [hstopped, if_true, Option.some.injEq, Prod.mk.injEq] at h
          exact .inr ⟨h.1.symm, h.2.symm, rfl, rfl⟩
      | false => simp [hstopped] at h

private theorem settled_of_receive? {c c' : Channel} {event : InputEvent} (hc : c.Settled)
    (h : c.receive? = some (event, c')) : c'.Settled := by
  rw [frame_of_receive? h]
  exact hc

/-! Sessions. -/

/-- The call that the caller is in. -/
inductive Activity
  | idle
  | reading (timeout : Option Nat)
  | closing

/-- A channel host in use. A stop has been requested, or a wake-up waits for the next read
to notice it, independently of each other. -/
structure Session where
  channel : Channel
  activity : Activity := .idle
  stopRequested : Bool := false
  woken : Bool := false

inductive Event
  | reader
  | writer
  | signal (stopRequested woken : Bool)
  | write (b : UInt8)
  | beginRead (timeout : Option Nat)
  | endRead (event : InputEvent)
  | beginClose
  | endClose

/-- What may happen next. The reader, the writer and those that request or withdraw a stop
may go on at any time, and the caller makes one call after the other. -/
inductive Step : Session → Event → Session → Prop
  | reader (s : Session) : Step s .reader { s with channel := s.channel.readerStep }
  | writer (s : Session) : Step s .writer { s with channel := s.channel.writerStep }
  | signal (s : Session) (stopRequested woken : Bool) :
      Step s (.signal stopRequested woken) { s with stopRequested, woken }
  | write {s : Session} (h : s.activity = .idle) (b : UInt8) :
      Step s (.write b) { s with channel := s.channel.send b }
  | refuse {s : Session} (h : s.activity = .idle) (hstop : s.stopRequested = true) :
      Step s (.endRead .cancelled) s
  | beginRead {s : Session} (h : s.activity = .idle) (hgoes : s.stopRequested = false)
      (timeout : Option Nat) :
      Step s (.beginRead timeout) { s with activity := .reading timeout }
  | receive {s : Session} {timeout : Option Nat} {event : InputEvent} {channel : Channel}
      (h : s.activity = .reading timeout) (hreceive : s.channel.receive? =
        some (event, channel)) :
      Step s (.endRead event) { s with channel, activity := .idle }
  | wake {s : Session} {timeout : Option Nat} (h : s.activity = .reading timeout)
      (hwoken : s.woken = true) :
      Step s (.endRead .cancelled) { s with activity := .idle, woken := false }
  | expire {s : Session} {timeout : Nat} (h : s.activity = .reading (some timeout)) :
      Step s (.endRead .timeout) { s with activity := .idle }
  | beginClose {s : Session} (h : s.activity = .idle) :
      Step s .beginClose
        { s with channel := { s.channel with isOpen := false }, activity := .closing }
  | endClose {s : Session} (h : s.activity = .closing) (hflushed : s.channel.Flushed) :
      Step s .endClose { s with activity := .idle }

inductive Runs : Session → List Event → Session → Prop
  | nil (s : Session) : Runs s [] s
  | cons {s s' s'' : Session} {e : Event} {events : List Event} (h : Step s e s')
      (hrest : Runs s' events s'') : Runs s (e :: events) s''

def returned : List Event → List UInt8
  | [] => []
  | .endRead (.byte b) :: events => b :: returned events
  | _ :: events => returned events

def sent : List Event → List UInt8
  | [] => []
  | .write b :: events => b :: sent events
  | .beginClose :: _ => []
  | _ :: events => sent events

/-! What one step keeps, and what a run keeps by it. -/

variable {s s' s'' : Session} {e : Event} {events : List Event}

theorem Step.pending (h : Step s e s') :
    s.channel.pending = returned [e] ++ s'.channel.pending := by
  cases h with
  | reader => exact s.channel.pending_readerStep.symm
  | writer =>
      rw [(writes_writerStep s.channel).frame]
      rfl
  | write h b =>
      dsimp only [send]
      split
      · rfl
      · rfl
  | receive h hreceive =>
      obtain ⟨b, rfl, hpending⟩ | ⟨rfl, hsame, -, -⟩ := pending_of_receive? hreceive
      · exact hpending
      · rw [hsame]
        rfl
  | _ => rfl

theorem Step.settled (h : Step s e s') (hs : s.channel.Settled) : s'.channel.Settled := by
  cases h with
  | reader => exact settled_readerStep hs
  | writer =>
      rw [(writes_writerStep s.channel).frame]
      exact hs
  | write h b =>
      dsimp only [send]
      split
      · exact hs
      · exact hs
  | receive h hreceive => exact settled_of_receive? hs hreceive
  | _ => exact hs

private theorem returned_cons (e : Event) (events : List Event) :
    returned (e :: events) = returned [e] ++ returned events := by
  cases e with
  | endRead event =>
      cases event with
      | byte b => rfl
      | _ => rfl
  | _ => rfl

theorem Runs.pending (h : Runs s events s') :
    s.channel.pending = returned events ++ s'.channel.pending := by
  induction h with
  | nil => rfl
  | cons hstep _ ih => rw [returned_cons, hstep.pending, ih, List.append_assoc]

theorem Runs.settled (h : Runs s events s') (hs : s.channel.Settled) :
    s'.channel.Settled := by
  induction h with
  | nil => exact hs
  | cons hstep _ ih => exact ih (hstep.settled hs)

/-- The output taken so far and what the events to come will add to it. A step moves bytes
from the second part to the first, so both together stay what they are. -/
def Session.output (s : Session) (events : List Event) : List UInt8 :=
  s.channel.accepted ++ if s.channel.isOpen then sent events else []

theorem Step.output (h : Step s e s') (events : List Event) :
    s'.output events = s.output (e :: events) := by
  unfold Session.output
  cases h with
  | reader =>
      rw [frame_readerStep]
      rfl
  | writer =>
      have hwrites := writes_writerStep s.channel
      have hopen : s.channel.writerStep.isOpen = s.channel.isOpen := by rw [hwrites.frame]
      rw [hwrites.accepted, hopen]
      rfl
  | write h b =>
      by_cases hopen : s.channel.isOpen = true
      · simp [send, accepted, sent, hopen]
      · simp [send, hopen]
  | receive h hreceive =>
      rw [frame_of_receive? hreceive]
      rfl
  | beginClose h => cases s.channel.isOpen <;> rfl
  | _ => rfl

theorem Runs.output (h : Runs s events s') : s'.channel.accepted = s.output events := by
  have hnone : ∀ s : Session, s.output [] = s.channel.accepted := by
    intro s
    unfold Session.output
    split
    · exact List.append_nil _
    · exact List.append_nil _
  rw [← hnone]
  induction h with
  | nil => rfl
  | cons hstep _ ih => exact ih.trans (hstep.output _)

theorem Step.lastCall (h : Step s e s') : s'.channel.lastCall = s.channel.lastCall := by
  cases h with
  | reader =>
      rw [frame_readerStep]
      rfl
  | writer => exact (writes_writerStep s.channel).lastCall
  | write h b =>
      dsimp only [send]
      split
      · rfl
      · rfl
  | receive h hreceive =>
      rw [frame_of_receive? hreceive]
      rfl
  | _ => rfl

theorem Runs.lastCall (h : Runs s events s') :
    s'.channel.lastCall = s.channel.lastCall := by
  induction h with
  | nil => rfl
  | cons hstep _ ih => exact ih.trans hstep.lastCall

private theorem written_of_flushed {c : Channel} (h : c.Flushed) :
    c.written.toList = c.lastCall.elim c.accepted c.accepted.take := by
  unfold lastCall accepted
  obtain hlimit | hout := h
  · simp [hlimit]
  · cases c.writerLimit with
    | none => simp [hout]
    | some n => simp [hout, List.take_of_length_le]

theorem Runs.trans {events' : List Event} (h : Runs s events s')
    (h' : Runs s' events' s'') :
    Runs s (events ++ events') s'' := by
  induction h with
  | nil => exact h'
  | cons hstep _ ih => exact .cons hstep (ih h')

theorem Runs.exists_last (h : Runs s (events ++ [e]) s'') :
    ∃ s', Runs s events s' ∧ Step s' e s'' := by
  induction events generalizing s with
  | nil =>
      cases h with
      | cons hstep hrest =>
          cases hrest
          exact ⟨s, .nil s, hstep⟩
  | cons e' events ih =>
      cases h with
      | cons hstep hrest =>
          obtain ⟨s', hruns, hlast⟩ := ih hrest
          exact ⟨s', .cons hstep hruns, hlast⟩

/-- What has been returned and what is still to come are always the whole input.
A read finds the input closed only when nothing is to come, and closing returns
only when the writer has been called on all that was written before, up to the
call at which it stopped. -/
theorem delivered_of_runs {script : List UInt8} {writerLimit : Option Nat}
    (h : Runs { channel := { script, writerLimit } } events s) :
    returned events ++ s.channel.pending = script ∧
      (∀ earlier, events = earlier ++ [.endRead .closed] →
        returned events = script ∧ s.channel.readerStopped = true) ∧
      ∀ earlier, events = earlier ++ [.endClose] →
        s.channel.written.toList = writerLimit.elim (sent events) (sent events).take := by
  have hpending : script = returned events ++ s.channel.pending := h.pending
  have hsettled : s.channel.Settled := h.settled nofun
  refine ⟨hpending.symm, ?_, ?_⟩
  · rintro earlier rfl
    obtain ⟨s', -, hlast⟩ := h.exists_last
    cases hlast with
    | receive hreading hreceive =>
        obtain ⟨b, hbyte, -⟩ | ⟨-, rfl, hincoming, hstopped⟩ :=
          pending_of_receive? hreceive
        · cases hbyte
        · obtain ⟨hheld, hscript⟩ := hsettled hstopped
          have hnone : Channel.pending s'.channel = [] := by
            simp [Channel.pending, hincoming, show s'.channel.held = none from hheld,
              show s'.channel.script = [] from hscript]
          exact ⟨by rw [hpending, hnone, List.append_nil], hstopped⟩
  · rintro earlier rfl
    obtain ⟨s', -, hlast⟩ := h.exists_last
    cases hlast with
    | endClose hclosing hflushed =>
        have houtput : s'.channel.accepted = sent (earlier ++ [.endClose]) := h.output
        have hlimit : s'.channel.lastCall = writerLimit := by
          refine h.lastCall.trans ?_
          cases writerLimit with
          | none => rfl
          | some n => rfl
        rw [written_of_flushed hflushed, houtput, hlimit]

/-- Two bytes are read between reads that time out or are cancelled, and then the end. -/
def racing : List Event :=
  [.write 0x6F, .write 0x6B, .write 0x21, .beginRead (some 5), .endRead .timeout,
    .reader, .reader, .beginRead none, .endRead (.byte 0x68), .signal true true,
    .endRead .cancelled, .signal false true,
    .beginRead none, .endRead .cancelled, .reader, .reader, .reader, .beginRead none,
    .endRead (.byte 0x69), .beginRead none, .endRead .closed]

/-- The writer stops at its second call and does not get the third byte. -/
theorem delivered_of_runs_racing :
    ∃ s s', Runs { channel := { script := [0x68, 0x69], writerLimit := some 2 } } racing
      s ∧
      returned racing = [0x68, 0x69] ∧ s.channel.readerStopped = true ∧
      Runs s [.writer, .beginClose, .writer, .endClose] s' ∧
      s'.channel.written.toList = [0x6F, 0x6B] := by
  have hruns : ∃ s,
    Runs { channel := { script := [0x68, 0x69], writerLimit := some 2 } } racing s ∧
      ∃ s', Runs s [.writer, .beginClose, .writer, .endClose] s' :=
    ⟨_, .cons (.write rfl _) <| .cons (.write rfl _) <| .cons (.write rfl _) <|
      .cons (.beginRead rfl rfl _) <| .cons (.expire rfl) <| .cons (.reader _) <|
        .cons (.reader _) <|
      .cons (.beginRead rfl rfl _) <| .cons (.receive rfl rfl) <| .cons (.signal _ _ _) <|
      .cons (.refuse rfl rfl) <| .cons (.signal _ _ _) <| .cons (.beginRead rfl rfl _) <|
      .cons (.wake rfl rfl) <| .cons (.reader _) <| .cons (.reader _) <|
        .cons (.reader _) <|
      .cons (.beginRead rfl rfl _) <| .cons (.receive rfl rfl) <|
        .cons (.beginRead rfl rfl _) <|
      .cons (.receive rfl rfl) <| .nil _,
    _, .cons (.writer _) <| .cons (.beginClose rfl) <| .cons (.writer _) <|
      .cons (.endClose rfl (.inl rfl)) <| .nil _⟩
  obtain ⟨s, hracing, s', hclosing⟩ := hruns
  obtain ⟨hreturned, hstopped⟩ := (delivered_of_runs hracing).2.1 racing.dropLast rfl
  have hwritten := (delivered_of_runs (hracing.trans hclosing)).2.2
    (racing ++ [.writer, .beginClose, .writer]) rfl
  exact ⟨s, s', hracing, hreturned, hstopped, hclosing, hwritten⟩

/-! The calls of the host are runs. -/

theorem runs_writeByte (c : Channel) (b : UInt8) :
    Runs { channel := c } [.write b] { channel := (Host.writeByte c b).host } :=
  .cons (.write rfl b) (.nil _)

private theorem exists_receive? (c : Channel) :
    ∃ event c', c.readerStep.readerStep.receive? = some (event, c') := by
  obtain ⟨script, held, incoming, readerStopped, outgoing, writerLimit, written,
    isOpen⟩ := c
  cases held with
  | some b =>
      cases incoming with
      | some a => exact ⟨_, _, rfl⟩
      | none =>
          cases script with
          | nil => exact ⟨_, _, rfl⟩
          | cons a rest => exact ⟨_, _, rfl⟩
  | none =>
      cases script with
      | nil =>
          cases incoming with
          | some a => exact ⟨_, _, rfl⟩
          | none => exact ⟨_, _, rfl⟩
      | cons b rest =>
          cases incoming with
          | some a => exact ⟨_, _, rfl⟩
          | none => exact ⟨_, _, rfl⟩

theorem runs_readByte (c : Channel) (timeout : Option Nat) (stopping : Bool) :
    ∃ events, returned events = [] ∧
      Runs { channel := c, stopRequested := stopping }
        (events ++ [.endRead (Host.readByte c timeout stopping).1])
        { channel := (Host.readByte c timeout stopping).2.host
          stopRequested := stopping } := by
  cases stopping with
  | true => exact ⟨[], rfl, .cons (.refuse rfl rfl) (.nil _)⟩
  | false =>
      obtain ⟨event, c', hreceive⟩ := c.exists_receive?
      have hread : Host.readByte c timeout false = (event, { host := c' }) := by
        simp [Host.readByte, hreceive]
      rw [hread]
      exact ⟨[.reader, .reader, .beginRead timeout], rfl,
        .cons (.reader _) <| .cons (.reader _) <|
        .cons (.beginRead rfl rfl _) <| .cons (.receive rfl hreceive) <| .nil _⟩

private theorem writerStep_of_flushed {c : Channel} (h : c.Flushed) :
    c.writerStep = c := by
  unfold writerStep
  obtain hlimit | hempty := h
  · rw [if_pos hlimit]
  · rw [Queue.pop?_eq_none_iff.2 hempty]
    split
    · rfl
    · rfl

private theorem length_outgoing_writerStep {c : Channel} (h : ¬c.Flushed) :
    c.writerStep.outgoing.toList.length + 1 = c.outgoing.toList.length := by
  unfold writerStep
  rw [if_neg fun hlimit => h (.inl hlimit)]
  cases hpop : c.outgoing.pop? with
  | none => exact absurd (.inr (Queue.pop?_eq_none_iff.1 hpop)) h
  | some popped =>
      rw [Queue.toList_of_pop? hpop]
      rfl

private theorem flushed_foldl (bytes : List UInt8) {c : Channel}
    (h : c.Flushed ∨ c.outgoing.toList.length ≤ bytes.length) :
    (bytes.foldl (fun c _ => c.writerStep) c).Flushed := by
  induction bytes generalizing c with
  | nil =>
    exact h.elim id fun hempty => .inr (List.length_eq_zero_iff.1 (Nat.le_zero.1 hempty))
  | cons _ bytes ih =>
      apply ih
      dsimp only
      by_cases hflushed : c.Flushed
      · rw [writerStep_of_flushed hflushed]
        exact .inl hflushed
      · have hlength := length_outgoing_writerStep hflushed
        have hle : c.outgoing.toList.length ≤ bytes.length + 1 := h.resolve_left hflushed
        exact .inr (by omega)

private theorem runs_writer (bytes : List UInt8) (s : Session) :
    Runs s (bytes.map fun _ => .writer)
      { s with channel := bytes.foldl (fun c _ => c.writerStep) s.channel } := by
  induction bytes generalizing s with
  | nil => exact .nil s
  | cons _ bytes ih => exact .cons (.writer s) (ih _)

private theorem drain_closed (c : Channel) :
    Channel.drain { c with isOpen := false } = { c.drain with isOpen := false } := by
  have hstep : ∀ c : Channel,
      Channel.writerStep { c with isOpen := false } =
        { c.writerStep with isOpen := false } := by
    intro c
    unfold writerStep
    dsimp only
    split
    · rfl
    · cases c.outgoing.pop? with
      | none => rfl
      | some popped => rfl
  have hsteps : ∀ (bytes : List UInt8) (c : Channel),
      bytes.foldl (fun c _ => c.writerStep) { c with isOpen := false } =
        { bytes.foldl (fun c _ => c.writerStep) c with isOpen := false } := by
    intro bytes
    induction bytes with
    | nil => exact fun _ => rfl
    | cons _ bytes ih =>
        intro c
        rw [List.foldl_cons, hstep, ih]
        rfl
  exact hsteps c.outgoing.toList c

theorem runs_close (c : Channel) :
    Runs { channel := c }
      (.beginClose :: ((c.outgoing.toList.map fun _ => .writer) ++ [.endClose]))
      { channel := Host.close c } := by
  have hflushed : (Channel.drain { c with isOpen := false }).Flushed :=
    flushed_foldl _ (.inr (Nat.le_refl _))
  have hclose : Host.close c = Channel.drain { c with isOpen := false } :=
    (drain_closed c).symm
  rw [hclose]
  refine .cons (.beginClose rfl) ((runs_writer _ _).trans ?_)
  exact .cons (.endClose rfl hflushed) (.nil _)

end Channel

end Breadboard
