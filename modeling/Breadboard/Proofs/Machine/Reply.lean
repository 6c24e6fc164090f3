import Breadboard.Machine.Service

namespace Breadboard

/-- Where a service may leave its answer. -/
inductive Place
  | a
  | x
  | y
  | carry
deriving DecidableEq, Repr, Inhabited

def Trap.results : Trap → List Place
  | .getCh => [.a]
  | .getChTimeout | .fileRead => [.a, .carry]
  | .elapsedMs | .wallClock | .cycles => [.a, .x, .y]
  | .fileOpen => [.carry]
  | _ => []

def Trap.isFile : Trap → Bool
  | .fileOpen | .fileClose | .fileRewind | .fileRead => true
  | _ => false

def MachineError.isOfFile : MachineError → Bool
  | .badFilename _ | .fileAlreadyOpen | .fileNotOpen | .fileFault _ => true
  | .illegalOpcode .. | .unimplementedMode .. => false

/-- What a service does to a machine, but for its host. -/
structure Reply where
  a : Option UInt8 := none
  x : Option UInt8 := none
  y : Option UInt8 := none
  carry : Option Bool := none
  file : Option (Option Reader) := none
  clears : Bool := false
  halt : Option Halt := none

private def Reply.count (n : Nat) : Reply where
  a := some (UInt8.ofNat n)
  x := some (UInt8.ofNat (n / 256))
  y := some (UInt8.ofNat (n / 65536))

/-- What a trap may reply: an answer in its places, a change of the open file if it is a
trap for files, and a stop that ends the run or an error to do with files. -/
def Reply.fits (r : Reply) (t : Trap) : Bool :=
  (t.results.contains .a || r.a.isNone) && (t.results.contains .x || r.x.isNone) &&
    (t.results.contains .y || r.y.isNone) &&
      (t.results.contains .carry || r.carry.isNone) &&
    (t.isFile || r.file.isNone) && r.clears == (t == .clearCycles) &&
    match r.halt with
    | none => true
    | some (.stop reason) => reason.endsRun
    | some (.error e) => e.isOfFile

namespace Reply

variable {r : Reply} {t : Trap}

theorem of_fits (h : r.fits t = true) :
    (.a ∉ t.results → r.a = none) ∧ (.x ∉ t.results → r.x = none) ∧
      (.y ∉ t.results → r.y = none) ∧ (.carry ∉ t.results → r.carry = none) ∧
      (t.isFile = false → r.file = none) ∧ r.clears = decide (t = .clearCycles) := by
  simp only [fits, Bool.and_eq_true, Bool.or_eq_true, List.contains_iff_mem,
    Option.isNone_iff_eq_none, beq_iff_eq] at h
  obtain ⟨⟨⟨⟨⟨⟨ha, hx⟩, hy⟩, hcarry⟩, hfile⟩, hclears⟩, -⟩ := h
  refine ⟨ha.resolve_left, hx.resolve_left, hy.resolve_left,
    hcarry.resolve_left, fun hnot => ?_, hclears⟩
  exact hfile.resolve_left (by simp [hnot])

theorem endsRun_of_fits {reason : StopReason} (h : r.fits t = true)
    (hhalt : r.halt = some (.stop reason)) : reason.endsRun = true := by
  unfold fits at h
  rw [hhalt] at h
  exact (Bool.and_eq_true_iff.1 h).2

theorem isOfFile_of_fits {e : MachineError} (h : r.fits t = true)
    (hhalt : r.halt = some (.error e)) : e.isOfFile = true := by
  unfold fits at h
  rw [hhalt] at h
  exact (Bool.and_eq_true_iff.1 h).2

end Reply

namespace Machine

variable {δ δ' : Type} {m : Machine δ}

def answer (m : Machine δ) (r : Reply) : Outcome δ :=
  ({ m with
      registers := { m.registers with
        a := r.a.getD m.registers.a
        x := r.x.getD m.registers.x
        y := r.y.getD m.registers.y
        status := r.carry.elim m.registers.status (m.registers.status.set .carry) }
      cycles := if r.clears then 0 else m.cycles
      file := r.file.getD m.file }, r.halt)

inductive Heard
  | nothing
  | event (event : InputEvent)
  | clock (reading : ClockReading)

section Host

variable [Host δ]

def heard (m : Machine δ) : Trap → Heard
  | .getCh => .event (m.input none).1
  | .getChTimeout => .event (m.input (some m.pointer.toNat)).1
  | .elapsedMs | .wallClock => .clock m.now.1
  | _ => .nothing

def asked (m : Machine δ) : Trap → Machine δ
  | .brkHandler =>
      m.output (m.memory.string (m.memory.getWord (m.registers.peekWord m.memory 2 - 1)))
  | .outCh => m.output [m.registers.a]
  | .outStr => m.output (m.memory.string m.pointer)
  | .getCh => (m.input none).2
  | .getChTimeout => (m.input (some m.pointer.toNat)).2
  | .elapsedMs | .wallClock => m.now.2
  | .processEvents => m.giveTurn
  | _ => m

end Host

/-- A machine, perhaps with another host, that makes no difference to the service of a
trap. -/
structure ServedAlike [Host δ] [Host δ'] (t : Trap) (m : Machine δ) (m' : Machine δ') :
    Prop where
  memory : m'.memory = m.memory
  registers : m'.registers = m.registers
  file : m'.file = m.file
  disk : m'.disk = m.disk
  cycles : t = .cycles → m'.cycles = m.cycles
  startedAt : t = .elapsedMs → m'.startedAt = m.startedAt
  heard : m'.heard t = m.heard t

theorem ServedAlike.refl [Host δ] (t : Trap) (m : Machine δ) : ServedAlike t m m :=
  ⟨rfl, rfl, rfl, rfl, fun _ => rfl, fun _ => rfl, rfl⟩

theorem ServedAlike.pointer_eq [Host δ] [Host δ'] {t : Trap} {m' : Machine δ'}
    (h : ServedAlike t m m') :
    m'.pointer = m.pointer := by
  rw [pointer, h.registers]
  rfl

private theorem exists_reply_openFile (file : Option Reader) (d : Disk)
    (raw : List UInt8) :
    ∃ r : Reply, r.fits .fileOpen = true ∧ ∀ {δ : Type} (m : Machine δ), m.file = file →
      m.disk = d → m.memory.string m.pointer = raw → m.openFile = m.answer r := by
  cases file with
  | some reader =>
      refine ⟨{ halt := some (.error .fileAlreadyOpen) }, rfl, fun m hfile _ _ => ?_⟩
      simp only [openFile, hfile]
      rfl
  | none =>
      cases hname : Text.decodeUtf8? raw with
      | none =>
          refine ⟨{ halt := some (.error (.badFilename (Text.decodeUtf8Lossy raw))) },
            rfl, fun m hfile _ hraw => ?_⟩
          simp only [openFile, hfile, hraw, hname]
          rfl
      | some name =>
          by_cases hempty : name = ""
          · refine ⟨{ halt := some (.error (.badFilename "")) },
              rfl, fun m hfile _ hraw => ?_⟩
            simp only [openFile, hfile, hraw, hname, hempty]
            rfl
          · cases hopen : d.open? ⟨name⟩ with
            | ok place =>
                refine ⟨{ carry := some false, file := some (some { place }) }, rfl,
                  fun m hfile hd hraw => ?_⟩
                subst hd
                simp only [openFile, hfile, hraw, hname, hopen]
                rfl
            | error e =>
                refine ⟨{ carry := some true }, rfl, fun m hfile hd hraw => ?_⟩
                subst hd
                simp only [openFile, hfile, hraw, hname, hopen]
                rfl

private theorem exists_reply_closeFile (file : Option Reader) :
    ∃ r : Reply, r.fits .fileClose = true ∧
      ∀ {δ : Type} (m : Machine δ), m.file = file → m.closeFile = m.answer r := by
  cases file with
  | none =>
      refine ⟨{ halt := some (.error .fileNotOpen) }, rfl, fun m hfile => ?_⟩
      simp only [closeFile, hfile]
      rfl
  | some reader =>
      refine ⟨{ file := some none }, rfl, fun m hfile => ?_⟩
      simp only [closeFile, hfile]
      rfl

private theorem exists_reply_rewindFile (file : Option Reader) :
    ∃ r : Reply, r.fits .fileRewind = true ∧
      ∀ {δ : Type} (m : Machine δ), m.file = file → m.rewindFile = m.answer r := by
  cases file with
  | none =>
      refine ⟨{ halt := some (.error .fileNotOpen) }, rfl, fun m hfile => ?_⟩
      simp only [rewindFile, hfile]
      rfl
  | some reader =>
      refine ⟨{ file := some (some reader.rewind) }, rfl, fun m hfile => ?_⟩
      simp only [rewindFile, hfile]
      rfl

private theorem exists_reply_readFile (file : Option Reader) (d : Disk) :
    ∃ r : Reply, r.fits .fileRead = true ∧ ∀ {δ : Type} (m : Machine δ), m.file = file →
      m.disk = d → m.readFile = m.answer r := by
  cases file with
  | none =>
      refine ⟨{ halt := some (.error .fileNotOpen) }, rfl, fun m hfile _ => ?_⟩
      simp only [readFile, hfile]
      rfl
  | some reader =>
      cases hnext : reader.next d with
      | error e =>
          refine ⟨{ halt := some (.error (.fileFault e.message)) },
            rfl, fun m hfile hd => ?_⟩
          subst hd
          simp only [readFile, hfile, hnext]
          rfl
      | ok read =>
          obtain ⟨b?, reader'⟩ := read
          cases b? with
          | none =>
              refine ⟨{ carry := some true, file := some (some reader') }, rfl,
                fun m hfile hd => ?_⟩
              subst hd
              simp only [readFile, hfile, hnext]
              rfl
          | some b =>
              refine ⟨{ a := some b, carry := some false, file := some (some reader') },
                rfl, fun m hfile hd => ?_⟩
              subst hd
              simp only [readFile, hfile, hnext]
              rfl

variable [Host δ]

private theorem exists_reply_readInput (event : InputEvent) :
    ∃ r : Reply, r.fits .getCh = true ∧ ∀ {δ : Type} [Host δ] (m : Machine δ),
      (m.input none).1 = event → m.readInput = (m.input none).2.answer r := by
  cases event with
  | byte b =>
      by_cases hinterrupt : b = interruptByte
      · refine ⟨{ halt := some (.stop .interrupted) }, rfl, fun m hevent => ?_⟩
        simp only [readInput, hevent, accept, if_pos hinterrupt]
        rfl
      · refine ⟨{ a := some b }, rfl, fun m hevent => ?_⟩
        simp only [readInput, hevent, accept, if_neg hinterrupt]
        rfl
  | cancelled =>
      refine ⟨{ halt := some (.stop .cancelled) }, rfl, fun m hevent => ?_⟩
      simp only [readInput, hevent]
      rfl
  | timeout | closed =>
      refine ⟨{ halt := some (.stop .inputClosed) }, rfl, fun m hevent => ?_⟩
      simp only [readInput, hevent]
      rfl

private theorem exists_reply_readInputFor (event : InputEvent) :
    ∃ r : Reply, r.fits .getChTimeout = true ∧
      ∀ {δ : Type} [Host δ] (m : Machine δ) (timeout : Nat),
        (m.input (some timeout)).1 = event →
        m.readInputFor timeout = (m.input (some timeout)).2.answer r := by
  cases event with
  | byte b =>
      by_cases hinterrupt : b = interruptByte
      · refine ⟨{ halt := some (.stop .interrupted) }, rfl, fun m timeout hevent => ?_⟩
        simp only [readInputFor, hevent, accept, if_pos hinterrupt]
        rfl
      · refine ⟨{ a := some b, carry := some false }, rfl, fun m timeout hevent => ?_⟩
        simp only [readInputFor, hevent, accept, if_neg hinterrupt]
        rfl
  | timeout =>
      refine ⟨{ carry := some true }, rfl, fun m timeout hevent => ?_⟩
      simp only [readInputFor, hevent]
      rfl
  | cancelled =>
      refine ⟨{ halt := some (.stop .cancelled) }, rfl, fun m timeout hevent => ?_⟩
      simp only [readInputFor, hevent]
      rfl
  | closed =>
      refine ⟨{ halt := some (.stop .inputClosed) }, rfl, fun m timeout hevent => ?_⟩
      simp only [readInputFor, hevent]
      rfl

/-- A service depends on no more of the machine than that what makes no difference to it
leaves its reply the same. -/
theorem exists_reply (m : Machine δ) (t : Trap) :
    ∃ r : Reply, r.fits t = true ∧ ∀ {δ' : Type} [Host δ'] (m' : Machine δ'),
      ServedAlike t m m' →
      m'.serve t = (m'.asked t).answer r := by
  cases t with
  | terminate => exact ⟨{ halt := some (.stop .terminated) }, rfl, fun _ _ => rfl⟩
  | brkHandler =>
      let ret := m.registers.peekWord m.memory 2
      let message := m.memory.string (m.memory.getWord (ret - 1))
      refine ⟨{ halt := some (.stop (.brk (ret - 2) (Text.decodeUtf8Lossy message))) },
        rfl, fun m' h => ?_⟩
      rw [serve, handleBreak, asked, h.registers, h.memory]
      rfl
  | outCh | outStr | processEvents => exact ⟨{}, rfl, fun _ _ => rfl⟩
  | getCh =>
      obtain ⟨r, hfits, hserve⟩ := exists_reply_readInput (m.input none).1
      exact ⟨r, hfits, fun m' h => hserve m' (Heard.event.inj h.heard)⟩
  | getChTimeout =>
      obtain ⟨r, hfits, hserve⟩ :=
        exists_reply_readInputFor (m.input (some m.pointer.toNat)).1
      exact ⟨r, hfits, fun m' h => hserve m' _ (Heard.event.inj h.heard)⟩
  | elapsedMs =>
      refine ⟨.count (m.now.1.uptime - m.startedAt), rfl, fun m' h => ?_⟩
      have hreading : m'.now.1 = m.now.1 := Heard.clock.inj h.heard
      have hstarted : m'.now.2.startedAt = m.startedAt := h.startedAt rfl
      simp only [serve, hreading, hstarted]
      rfl
  | wallClock =>
      let second := m.now.1.secondOfDay % 86400
      refine ⟨{
        a := some (UInt8.ofNat (second / 3600))
        x := some (UInt8.ofNat (second / 60 % 60))
        y := some (UInt8.ofNat (second % 60)) }, rfl, fun m' h => ?_⟩
      have hreading : m'.now.1 = m.now.1 := Heard.clock.inj h.heard
      simp only [serve, hreading]
      rfl
  | cycles =>
      refine ⟨.count m.cycles.toNat, rfl, fun m' h => ?_⟩
      rw [serve, h.cycles rfl]
      rfl
  | clearCycles => exact ⟨{ clears := true }, rfl, fun _ _ => rfl⟩
  | fileOpen =>
      obtain ⟨r, hfits, hserve⟩ :=
        exists_reply_openFile m.file m.disk (m.memory.string m.pointer)
      exact ⟨r, hfits, fun m' h => hserve m' h.file h.disk
        (by rw [h.memory, h.pointer_eq])⟩
  | fileClose =>
      obtain ⟨r, hfits, hserve⟩ := exists_reply_closeFile m.file
      exact ⟨r, hfits, fun m' h => hserve m' h.file⟩
  | fileRewind =>
      obtain ⟨r, hfits, hserve⟩ := exists_reply_rewindFile m.file
      exact ⟨r, hfits, fun m' h => hserve m' h.file⟩
  | fileRead =>
      obtain ⟨r, hfits, hserve⟩ := exists_reply_readFile m.file m.disk
      exact ⟨r, hfits, fun m' h => hserve m' h.file h.disk⟩

theorem exists_serve_eq (m : Machine δ) (t : Trap) :
    ∃ r : Reply, r.fits t = true ∧ m.serve t = (m.asked t).answer r := by
  obtain ⟨r, hfits, hserve⟩ := m.exists_reply t
  exact ⟨r, hfits, hserve m (.refl t m)⟩

def ready (m : Machine δ) (t : Trap) : Machine δ :=
  if t.isBlocking then m.giveTurn else m

def Outcome.returning : Outcome δ → Outcome δ
  | (m, none) => m.returnToCaller.finished
  | (m, some halt) => (m, some halt)

theorem callTrap_eq (m : Machine δ) (t : Trap) :
    m.callTrap t = ((m.ready t).serve t).returning :=
  rfl

end Machine

end Breadboard
