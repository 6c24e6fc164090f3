import Breadboard.Host.Silent
import Breadboard.Proofs.Machine.Course
import Breadboard.Proofs.Machine.TrapCall

namespace Breadboard

/-! Readers. -/

namespace Reader

/-- What a reader has fetched, with what it has still to fetch, is the
file from a position on. -/
structure StandsAt (r : Reader) (d : Disk) (content : List UInt8) (position : Nat) :
    Prop where
  node : d.node? r.place = some (.file content)
  rest : r.buffer ++ content.drop r.offset = content.drop position

variable {r : Reader} {d : Disk} {content : List UInt8} {position : Nat}

private theorem standsAt_opened {place : List String}
    (h : d.node? place = some (.file content)) :
    StandsAt { place } d content 0 :=
  ⟨h, rfl⟩

private theorem next_of_cons {b : UInt8} {rest : List UInt8}
    (hbuffer : r.buffer = b :: rest) :
    r.next d = .ok (some b, { r with buffer := rest }) := by
  unfold next
  rw [hbuffer]

private theorem next_of_nil (hbuffer : r.buffer = [])
    (hnode : d.node? r.place = some (.file content))
    (hblock : (content.drop r.offset).take blockSize = []) :
    r.next d = .ok (none, r) := by
  unfold next Disk.contentAt
  rw [hbuffer, hnode]
  dsimp only [bind, Except.bind]
  rw [hblock]

private theorem next_of_block {b : UInt8} {rest : List UInt8} (hbuffer : r.buffer = [])
    (hnode : d.node? r.place = some (.file content))
    (hblock : (content.drop r.offset).take blockSize = b :: rest) :
    r.next d = .ok (some b,
      { r with offset := r.offset + (rest.length + 1), buffer := rest }) := by
  unfold next Disk.contentAt
  rw [hbuffer, hnode]
  dsimp only [bind, Except.bind]
  rw [hblock]

namespace StandsAt

theorem rewind (h : r.StandsAt d content position) : r.rewind.StandsAt d content 0 :=
  ⟨h.node, rfl⟩

theorem next (h : r.StandsAt d content position) :
    ∃ r', r.next d = .ok (content[position]?, r') ∧
      r'.StandsAt d content (position + 1) := by
  have hbyte : content[position]? = (r.buffer ++ content.drop r.offset).head? := by
    rw [h.rest, List.head?_drop]
  have hrest : content.drop (position + 1) =
    (r.buffer ++ content.drop r.offset).tail := by
    rw [h.rest, List.tail_drop]
  rw [hbyte]
  cases hbuffer : r.buffer with
  | cons b rest =>
      rw [hbuffer] at hrest
      exact ⟨_, next_of_cons hbuffer, h.node, hrest.symm⟩
  | nil =>
      rw [hbuffer, List.nil_append] at hrest
      rw [List.nil_append]
      cases hblock : (content.drop r.offset).take blockSize with
      | nil =>
          have hend : content.drop r.offset = [] :=
            (List.take_eq_nil_iff.1 hblock).resolve_left (by decide)
          rw [hend] at hrest ⊢
          refine ⟨r, next_of_nil hbuffer h.node hblock, h.node, ?_⟩
          rw [hrest, hbuffer, hend]
          rfl
      | cons b rest =>
          -- The block is the beginning of what was still to be fetched.
          have hbegins : b :: rest <+: content.drop r.offset :=
            hblock ▸ List.take_prefix _ _
          rw [List.prefix_iff_eq_append, List.drop_drop] at hbegins
          rw [← hbegins] at hrest ⊢
          exact ⟨_, next_of_block hbuffer h.node hblock, h.node, hrest.symm⟩

end StandsAt

end Reader

/-! Calls. -/

inductive FileCall
  | opened (content : List UInt8)
  /-- The file could not be opened. -/
  | refused
  | read
  | rewound
  | closed
deriving DecidableEq, Repr, Inhabited

namespace FileCall

def openContent? : List FileCall → Option (List UInt8)
  | [] | .closed :: _ => none
  | .opened content :: _ => some content
  | _ :: calls => openContent? calls

def readsSince : List FileCall → Nat
  | [] | .opened _ :: _ | .rewound :: _ => 0
  | .read :: calls => readsSince calls + 1
  | _ :: calls => readsSince calls

end FileCall

namespace Machine

open FileCall

variable {δ : Type} {m m' m₁ : Machine δ} {t : Trap} {call : FileCall}
    {calls : List FileCall}

/-- A step of `m` calls a trap, and the machine is `m₁` as it does. -/
def CallsTrap (m : Machine δ) (t : Trap) (m₁ : Machine δ) : Prop :=
  m.trapCaller? = some m₁ ∧ m₁.registers.pc = t.address

/-- What a call of a file trap that finishes has done. Files that are
opened are regular ones. -/
inductive Makes (m₁ : Machine δ) : Trap → FileCall → Prop
  | opened {name : String} {place : List String} {content : List UInt8}
      (hname : Text.decodeUtf8? (m₁.memory.string m₁.pointer) = some name)
      (hopen : m₁.disk.open? ⟨name⟩ = .ok place) (hnode : m₁.disk.node? place =
        some (.file content)) :
      Makes m₁ .fileOpen (.opened content)
  | refused {name : String} {e : DiskError}
      (hname : Text.decodeUtf8? (m₁.memory.string m₁.pointer) = some name)
      (hopen : m₁.disk.open? ⟨name⟩ = .error e) : Makes m₁ .fileOpen .refused
  | read : Makes m₁ .fileRead .read
  | rewound : Makes m₁ .fileRewind .rewound
  | closed : Makes m₁ .fileClose .closed

/-- The open file and its position are as the calls leave them. -/
structure Tracks (calls : List FileCall) (m : Machine δ) : Prop where
  closed : openContent? calls = none → m.file = none
  opened : ∀ content, openContent? calls = some content →
    ∃ r, m.file = some r ∧ r.StandsAt m.disk content (readsSince calls)

/-- How a file trap responds after some calls. -/
structure Responds (calls : List FileCall) (t : Trap) (m₁ : Machine δ) (o : Outcome δ) :
    Prop where
  alreadyOpen : o.2 = some (.error .fileAlreadyOpen) ↔
    t = .fileOpen ∧ (openContent? calls).isSome = true
  notOpen : o.2 = some (.error .fileNotOpen) ↔ t ≠ .fileOpen ∧ openContent? calls = none
  kept : o.2 = some (.error .fileAlreadyOpen) ∨ o.2 = some (.error .fileNotOpen) →
    o.1 = { m₁ with changes := o.1.changes }
  finishes : t ≠ .fileOpen → (openContent? calls).isSome = true → o.2 = none
  opens : t = .fileOpen → openContent? calls = none → ∀ name place,
    Text.decodeUtf8? (m₁.memory.string m₁.pointer) = some name → name ≠ "" →
    m₁.disk.open? ⟨name⟩ = .ok place →
    o.2 = none ∧ o.1.registers.status.carry = false ∧ o.1.file.isSome = true
  refuses : t = .fileOpen → openContent? calls = none → ∀ name e,
    Text.decodeUtf8? (m₁.memory.string m₁.pointer) = some name → name ≠ "" →
    m₁.disk.open? ⟨name⟩ = .error e →
    o.2 = none ∧ o.1.registers.status.carry = true ∧ o.1.file = none
  reads : t = .fileRead → ∀ content, openContent? calls = some content →
    (∀ b, content[readsSince calls]? = some b →
      o.1.registers.a = b ∧ o.1.registers.status.carry = false) ∧
    (content.length ≤ readsSince calls →
      o.1.registers.a = m₁.registers.a ∧ o.1.registers.status.carry = true)

/-! What leaves the open file alone. -/

theorem file_applyEffect (m : Machine δ) (e : Effect) :
    (m.applyEffect e).file = m.file ∧ (m.applyEffect e).disk = m.disk := by
  unfold applyEffect recordWrites
  split
  · exact ⟨rfl, rfl⟩
  · dsimp only
    split
    · exact ⟨rfl, rfl⟩
    · exact ⟨rfl, rfl⟩

private theorem file_executeDecoded (m : Machine δ) (opcode : UInt8)
    (decoded : Option OpcodeEntry) :
    (m.executeDecoded opcode decoded).1.file = m.file ∧
      (m.executeDecoded opcode decoded).1.disk = m.disk := by
  unfold executeDecoded
  split
  · exact ⟨rfl, rfl⟩
  · split
    · exact ⟨rfl, rfl⟩
    · exact file_applyEffect m _

private theorem file_executeInstruction (m : Machine δ) :
    m.executeInstruction.1.file = m.file ∧ m.executeInstruction.1.disk = m.disk := by
  rw [executeInstruction_eq]
  exact file_executeDecoded m _ _

theorem CallsTrap.file (h : m.CallsTrap t m₁) : m₁.file = m.file ∧ m₁.disk = m.disk := by
  obtain ⟨hcaller, -⟩ := h
  have hexecute := file_executeInstruction m
  unfold trapCaller? at hcaller
  split at hcaller
  · cases hcaller
    exact ⟨rfl, rfl⟩
  · generalize m.executeInstruction = outcome at hexecute hcaller
    obtain ⟨m₂, halt⟩ := outcome
    cases halt with
    | some halt => cases hcaller
    | none =>
        dsimp only at hcaller
        split at hcaller
        · cases hcaller
          exact hexecute
        · cases hcaller

private theorem disk_of_serves (h : Serves m m₁) : m₁.disk = m.disk := by
  rw [h.frame]

theorem Tracks.congr (h : Tracks calls m) (hfile : m'.file = m.file)
    (hdisk : m'.disk = m.disk) :
    Tracks calls m' where
  closed := fun hcalls => hfile.trans (h.closed hcalls)
  opened := by
    intro content hcalls
    obtain ⟨r, hr, hstands⟩ := h.opened content hcalls
    rw [hfile, hdisk]
    exact ⟨r, hr, hstands⟩

/-! Services. -/

theorem Responds.of_changes {halt : Option Halt} (h : Responds calls t m₁ (m', halt))
    (changes : Changes) : Responds calls t m₁ ({ m' with changes }, halt) where
  alreadyOpen := h.alreadyOpen
  notOpen := h.notOpen
  kept := by
    intro hhalt
    have hkept := h.kept hhalt
    dsimp only at hkept ⊢
    rw [hkept]
  finishes := h.finishes
  opens := h.opens
  refuses := h.refuses
  reads := h.reads

private theorem responds_alreadyOpen (hopen : (openContent? calls).isSome = true) :
    Responds calls .fileOpen m (m.failed .fileAlreadyOpen) where
  alreadyOpen := iff_of_true rfl ⟨rfl, hopen⟩
  notOpen := iff_of_false nofun fun h => h.1 rfl
  kept := fun _ => rfl
  finishes := fun hne => absurd rfl hne
  opens := fun _ hnone => by rw [hnone] at hopen; cases hopen
  refuses := fun _ hnone => by rw [hnone] at hopen; cases hopen
  reads := nofun

private theorem responds_notOpen (hne : t ≠ .fileOpen)
    (hnone : openContent? calls = none) :
    Responds calls t m (m.failed .fileNotOpen) where
  alreadyOpen := iff_of_false nofun fun h => hne h.1
  notOpen := iff_of_true rfl ⟨hne, hnone⟩
  kept := fun _ => rfl
  finishes := fun _ hopen => by rw [hnone] at hopen; cases hopen
  opens := fun h => absurd h hne
  refuses := fun h => absurd h hne
  reads := fun _ content hopen => by rw [hnone] at hopen; cases hopen

theorem responds_opening {o : Outcome δ} (hcalls : openContent? calls = none)
    (hopen : o.2 ≠ some (.error .fileAlreadyOpen))
    (hclosed : o.2 ≠ some (.error .fileNotOpen))
    (hopens : ∀ name place, Text.decodeUtf8? (m.memory.string m.pointer) = some name →
      name ≠ "" →
      m.disk.open? ⟨name⟩ = .ok place →
      o.2 = none ∧ o.1.registers.status.carry = false ∧ o.1.file.isSome = true)
    (hrefuses : ∀ name e, Text.decodeUtf8? (m.memory.string m.pointer) = some name →
      name ≠ "" →
      m.disk.open? ⟨name⟩ = .error e →
      o.2 = none ∧ o.1.registers.status.carry = true ∧ o.1.file = none) :
    Responds calls .fileOpen m o where
  alreadyOpen := iff_of_false hopen (by simp [hcalls])
  notOpen := iff_of_false hclosed fun h => h.1 rfl
  kept := fun h => (h.elim hopen hclosed).elim
  finishes := fun hne => absurd rfl hne
  opens := fun _ _ => hopens
  refuses := fun _ _ => hrefuses
  reads := nofun

private theorem responds_finished (hne : t ≠ .fileOpen) {content : List UInt8}
    (hopen : openContent? calls = some content)
    (hreads : t = .fileRead →
      (∀ b, content[readsSince calls]? = some b →
        m'.registers.a = b ∧ m'.registers.status.carry = false) ∧
      (content.length ≤ readsSince calls →
        m'.registers.a = m.registers.a ∧ m'.registers.status.carry = true)) :
    Responds calls t m m'.finished where
  alreadyOpen := iff_of_false nofun fun h => hne h.1
  notOpen := iff_of_false nofun fun h => by rw [hopen] at h; cases h.2
  kept := nofun
  finishes := fun _ _ => rfl
  opens := fun h => absurd h hne
  refuses := fun h => absurd h hne
  reads := by
    intro h other hother
    rw [hopen] at hother
    cases hother
    exact hreads h

variable [Host δ]

private theorem file_serve (m : Machine δ) (ht : t.isFile = false) :
    (m.serve t).1.file = m.file := by
  obtain ⟨r, hfits, hserve⟩ := m.exists_serve_eq t
  obtain ⟨-, -, -, -, hfile, -⟩ := r.of_fits hfits
  have hasked : (m.asked t).file = m.file := by
    cases t with
    | _ => rfl
  rw [hserve]
  simp [answer, hfile ht, hasked]

private theorem file_callTrap (m : Machine δ) (ht : t.isFile = false) :
    (m.callTrap t).1.file = m.file ∧ (m.callTrap t).1.disk = m.disk := by
  have hdisk := disk_of_serves (served_ready m t).serves
  have hfile : ((m.ready t).serve t).1.file = m.file := by
    rw [file_serve _ ht, ready]
    split
    · rfl
    · rfl
  rw [callTrap_eq]
  generalize (m.ready t).serve t = outcome at hdisk hfile ⊢
  obtain ⟨m₁, halt⟩ := outcome
  cases halt with
  | none => exact ⟨hfile, hdisk⟩
  | some halt => exact ⟨hfile, hdisk⟩

theorem callTrap_of_finished (hblocking : t.isBlocking = false)
    (h : m.serve t = m'.finished) :
    m.callTrap t = m'.returnToCaller.finished := by
  unfold callTrap
  rw [if_neg (by simp [hblocking])]
  dsimp only
  rw [h]
  rfl

theorem callTrap_of_failed (hblocking : t.isBlocking = false) {e : MachineError}
    (h : m.serve t = m'.failed e) : m.callTrap t = m'.failed e := by
  unfold callTrap
  rw [if_neg (by simp [hblocking])]
  dsimp only
  rw [h]
  rfl

omit [Host δ] in
private theorem readFile_of_byte {r r' : Reader} {b : UInt8} (hfile : m.file = some r)
    (hnext : r.next m.disk = .ok (some b, r')) :
    m.readFile = ((setA { m with file := some r' } b).setFlag .carry false).finished := by
  unfold readFile
  rw [hfile]
  dsimp only
  rw [hnext]

omit [Host δ] in
private theorem readFile_of_end {r r' : Reader} (hfile : m.file = some r)
    (hnext : r.next m.disk = .ok (none, r')) :
    m.readFile = (setFlag { m with file := some r' } .carry true).finished := by
  unfold readFile
  rw [hfile]
  dsimp only
  rw [hnext]

omit [Host δ] in
private theorem openFile_of_open (h : m.file.isSome = true) :
    m.openFile = m.failed .fileAlreadyOpen := by
  unfold openFile
  rw [if_pos h]

omit [Host δ] in
private theorem openFile_cases (hfile : m.file = none) :
    (∃ bad, m.openFile = m.failed (.badFilename bad) ∧
      ∀ name, Text.decodeUtf8? (m.memory.string m.pointer) = some name → name = "") ∨
    ∃ name, Text.decodeUtf8? (m.memory.string m.pointer) = some name ∧
      ((∃ place, m.disk.open? ⟨name⟩ = .ok place ∧
        m.openFile = (setFlag { m with file := some { place } } .carry false).finished) ∨
      ∃ e, m.disk.open? ⟨name⟩ = .error e ∧
        m.openFile = (m.setFlag .carry true).finished) := by
  unfold openFile
  rw [hfile, if_neg (by simp)]
  dsimp only
  split
  · rename_i hname
    exact .inl ⟨_, rfl, fun name h => by rw [hname] at h; cases h⟩
  · rename_i hname
    exact .inl ⟨_, rfl, fun name h => by rw [hname] at h; cases h; rfl⟩
  · rename_i name _ hname
    refine .inr ⟨name, hname, ?_⟩
    split
    · rename_i place hopen
      exact .inl ⟨place, hopen, rfl⟩
    · rename_i e hopen
      exact .inr ⟨e, hopen, rfl⟩

omit [Host δ] in
theorem openFile_finished (h : m.openFile = (m', none)) :
    m.file = none ∧ ∃ name, Text.decodeUtf8? (m.memory.string m.pointer) = some name ∧
      ((∃ place, m.disk.open? ⟨name⟩ = .ok place ∧
        m' = setFlag { m with file := some { place } } .carry false) ∨
      ∃ e, m.disk.open? ⟨name⟩ = .error e ∧ m' = m.setFlag .carry true) := by
  cases hfile : m.file with
  | some r =>
      rw [openFile_of_open (by rw [hfile]; rfl)] at h
      cases h
  | none =>
      obtain ⟨bad, hfails, -⟩ | ⟨name, hname, ⟨place, hopen, hm⟩ | ⟨e, hopen, hm⟩⟩ :=
        openFile_cases hfile
      · rw [hfails] at h
        cases h
      · rw [hm] at h
        cases h
        exact ⟨rfl, name, hname, .inl ⟨place, hopen, rfl⟩⟩
      · rw [hm] at h
        cases h
        exact ⟨rfl, name, hname, .inr ⟨e, hopen, rfl⟩⟩

private theorem responds_openFile (h : Tracks calls m) :
    Responds calls .fileOpen m (m.callTrap .fileOpen) := by
  cases hcalls : openContent? calls with
  | some content =>
      obtain ⟨r, hr, -⟩ := h.opened content hcalls
      have hopen : m.file.isSome = true := by rw [hr]; rfl
      rw [callTrap_of_failed (t := .fileOpen) rfl (openFile_of_open hopen)]
      exact responds_alreadyOpen (by rw [hcalls]; rfl)
  | none =>
      have hfile := h.closed hcalls
      obtain ⟨bad, hfails, hbad⟩ | ⟨name, hname, ⟨place, hopen, hfinishes⟩ | ⟨e, hopen,
        hfinishes⟩⟩ :=
        openFile_cases hfile
      · rw [callTrap_of_failed (t := .fileOpen) rfl hfails]
        exact responds_opening hcalls nofun nofun
          (fun name _ hname hne => absurd (hbad name hname) hne)
          (fun name _ hname hne => absurd (hbad name hname) hne)
      · rw [callTrap_of_finished (t := .fileOpen) rfl hfinishes]
        refine responds_opening hcalls nofun nofun (fun _ _ _ _ _ => ⟨rfl, rfl, rfl⟩) ?_
        intro name' e hname' _ hfails
        rw [hname] at hname'
        cases hname'
        rw [hopen] at hfails
        cases hfails
      · rw [callTrap_of_finished (t := .fileOpen) rfl hfinishes]
        refine responds_opening hcalls nofun nofun ?_ (fun _ _ _ _ _ => ⟨rfl, rfl, hfile⟩)
        intro name' place hname' _ hopens
        rw [hname] at hname'
        cases hname'
        rw [hopen] at hopens
        cases hopens

theorem responds_of_serve (h : Tracks calls m) (hblocking : t.isBlocking = false)
    (hne : t ≠ .fileOpen) (hfails : m.file = none → m.serve t = m.failed .fileNotOpen)
    (hserves : ∀ content r, m.file = some r →
      r.StandsAt m.disk content (readsSince calls) →
      ∃ m' : Machine δ, m.serve t = m'.finished ∧ (t = .fileRead →
        (∀ b, content[readsSince calls]? = some b →
          m'.registers.a = b ∧ m'.registers.status.carry = false) ∧
        (content.length ≤ readsSince calls →
          m'.registers.a = m.registers.a ∧ m'.registers.status.carry = true))) :
    Responds calls t m (m.callTrap t) := by
  cases hcalls : openContent? calls with
  | none =>
      rw [callTrap_of_failed hblocking (hfails (h.closed hcalls))]
      exact responds_notOpen hne hcalls
  | some content =>
      obtain ⟨r, hr, hstands⟩ := h.opened content hcalls
      obtain ⟨m', hserve, hreads⟩ := hserves content r hr hstands
      rw [callTrap_of_finished hblocking hserve]
      exact responds_finished hne hcalls hreads

private theorem responds_callTrap (h : Tracks calls m) (ht : t.isFile = true) :
    Responds calls t m (m.callTrap t) := by
  cases t with
  | fileOpen => exact responds_openFile h
  | fileClose =>
      refine responds_of_serve h rfl nofun (fun hfile => ?_) fun content r hr _ => ?_
      · unfold serve closeFile
        rw [hfile]
      · refine ⟨{ m with file := none }, ?_, nofun⟩
        unfold serve closeFile
        rw [hr]
  | fileRewind =>
      refine responds_of_serve h rfl nofun (fun hfile => ?_) fun content r hr _ => ?_
      · unfold serve rewindFile
        rw [hfile]
      · refine ⟨{ m with file := some r.rewind }, ?_, nofun⟩
        unfold serve rewindFile
        rw [hr]
  | fileRead =>
      refine responds_of_serve h rfl nofun (fun hfile => ?_) fun content r hr hstands =>
        ?_
      · unfold serve readFile
        rw [hfile]
      · obtain ⟨r', hnext, -⟩ := hstands.next
        cases hbyte : content[readsSince calls]? with
        | some b =>
            rw [hbyte] at hnext
            refine ⟨_, readFile_of_byte hr hnext, fun _ => ⟨?_, fun hle => ?_⟩⟩
            · rintro _ ⟨⟩
              exact ⟨rfl, rfl⟩
            · rw [List.getElem?_eq_none hle] at hbyte
              cases hbyte
        | none =>
            rw [hbyte] at hnext
            exact ⟨_, readFile_of_end hr hnext, fun _ => ⟨nofun, fun _ => ⟨rfl, rfl⟩⟩⟩
  | _ => cases ht

/-! Calls within a run. -/

/-- A machine in a run after some calls of file traps, the latest first. What is not a
step leaves the open file and the disk alone. -/
inductive Underway : List FileCall → Machine δ → Prop
  | begun {m : Machine δ} (hfile : m.file = none) : Underway [] m
  | called {calls : List FileCall} {call : FileCall} {m m' m₁ : Machine δ} {t : Trap}
      (h : Underway calls m) (hcalls : m.CallsTrap t m₁) (hmakes : m₁.Makes t call)
      (hstep : m.step = (m', none)) : Underway (call :: calls) m'
  | passed {calls : List FileCall} {m m' : Machine δ} (h : Underway calls m)
      (hpasses : ∀ t m₁, m.CallsTrap t m₁ →
        t.isFile = false) (hstep : m.step = (m', none)) :
      Underway calls m'
  | between {calls : List FileCall} {m m' : Machine δ} (h : Underway calls m)
      (hfile : m'.file = m.file) (hdisk : m'.disk = m.disk) : Underway calls m'

omit [Host δ] in
theorem callsTrap_of_caller (h : Trap.at? m.registers.pc = some t) : m.CallsTrap t m := by
  refine ⟨if_pos ?_, Trap.at?_eq_some_iff.1 h⟩
  rw [h]
  rfl

omit [Host δ] in
private theorem callsTrap_of_instruction (hbefore : Trap.at? m.registers.pc = none)
    (hexecute : m.executeInstruction = (m₁, none))
    (hafter : Trap.at? m₁.registers.pc = some t) :
    m.CallsTrap t m₁ := by
  refine ⟨?_, Trap.at?_eq_some_iff.1 hafter⟩
  unfold trapCaller?
  rw [if_neg (by simp [hbefore]), hexecute]
  dsimp only
  rw [if_pos (by simp [hafter])]

private theorem advance_of_callsTrap (h : m.CallsTrap t m₁) :
    m.advance = m₁.callTrap t := by
  obtain ⟨hcaller, hpc⟩ := h
  have htrap := Trap.at?_eq_some_iff.2 hpc
  unfold trapCaller? at hcaller
  split at hcaller
  · cases hcaller
    exact (advance_of_caller htrap).2
  · rename_i hbefore
    cases hexecute : m.executeInstruction with
    | mk m₂ halt =>
        rw [hexecute] at hcaller
        cases halt with
        | some halt => cases hcaller
        | none =>
            dsimp only at hcaller
            split at hcaller
            · cases hcaller
              exact (advance_of_trap (by simpa using hbefore) hexecute htrap).2
            · cases hcaller

theorem step_of_callsTrap (h : m.CallsTrap t m₁) :
    ∃ changes, m.step = ({ (m₁.callTrap t).1 with changes }, (m₁.callTrap t).2) := by
  have hstep : m.step = (m.step.1, m.step.2) := rfl
  obtain ⟨m₂, hadvance, hframe⟩ := advance_of_step hstep
  rw [advance_of_callsTrap h] at hadvance
  refine ⟨m.step.1.changes, ?_⟩
  rw [hadvance, ← hframe]

private theorem file_step (hpasses : ∀ t m₁, m.CallsTrap t m₁ → t.isFile = false) :
    m.step.1.file = m.file ∧ m.step.1.disk = m.disk := by
  have hadvance : m.advance.1.file = m.file ∧ m.advance.1.disk = m.disk := by
    have hexecute := file_executeInstruction m
    cases hbefore : Trap.at? m.registers.pc with
    | some t =>
        rw [(advance_of_caller hbefore).2]
        exact file_callTrap m (hpasses t m (callsTrap_of_caller hbefore))
    | none =>
        cases hm : m.executeInstruction with
        | mk m₁ halt =>
            rw [hm] at hexecute
            cases halt with
            | some halt =>
                rw [(advance_of_halt hbefore hm).2]
                exact hexecute
            | none =>
                cases hafter : Trap.at? m₁.registers.pc with
                | some t =>
                    rw [(advance_of_trap hbefore hm hafter).2]
                    obtain ⟨hfile, hdisk⟩ :=
                      file_callTrap m₁
                        (hpasses t m₁ (callsTrap_of_instruction hbefore hm hafter))
                    exact ⟨hfile.trans hexecute.1, hdisk.trans hexecute.2⟩
                | none =>
                    rw [(advance_of_finished hbefore hm hafter).2]
                    exact hexecute
  have hstep : m.step = (m.step.1, m.step.2) := rfl
  obtain ⟨m₂, hm₂, hframe⟩ := advance_of_step hstep
  rw [hm₂] at hadvance
  rw [hframe]
  exact hadvance

private theorem exists_serve_of_callTrap (hblocking : t.isBlocking = false)
    (h : m.callTrap t = (m', none)) :
    ∃ m₁ : Machine δ, m.serve t = (m₁, none) ∧ m' = m₁.returnToCaller := by
  unfold callTrap at h
  rw [if_neg (by simp [hblocking])] at h
  dsimp only at h
  split at h
  · rename_i m₁ hserve
    cases h
    exact ⟨m₁, hserve, rfl⟩
  · cases h

omit [Host δ] in
theorem tracks_of_opened {r : Reader} {content : List UInt8}
    (hcalls : openContent? calls = some content) (hfile : m.file = some r)
    (hstands : r.StandsAt m.disk content (readsSince calls)) :
    Tracks calls m where
  closed := fun hnone => by rw [hcalls] at hnone; cases hnone
  opened := by
    intro other hother
    rw [hcalls] at hother
    cases hother
    exact ⟨r, hfile, hstands⟩

omit [Host δ] in
private theorem tracks_of_closed (hcalls : openContent? calls = none)
    (hfile : m.file = none) :
    Tracks calls m where
  closed := fun _ => hfile
  opened := fun _ hopen => by rw [hcalls] at hopen; cases hopen

omit [Host δ] in
private theorem Tracks.opened_of_isSome (h : Tracks calls m)
    (hfile : m.file.isSome = true) :
    ∃ content r, openContent? calls = some content ∧ m.file = some r ∧
      r.StandsAt m.disk content (readsSince calls) := by
  cases hcalls : openContent? calls with
  | none =>
      rw [h.closed hcalls] at hfile
      cases hfile
  | some content =>
      obtain ⟨r, hr, hstands⟩ := h.opened content hcalls
      exact ⟨content, r, rfl, hr, hstands⟩

/-- What a service does to the open file is what the call does to the cursor. -/
theorem Tracks.serve (h : Tracks calls m) (hmakes : m.Makes t call)
    (hserve : m.serve t = (m', none)) :
    Tracks (call :: calls) m' := by
  cases hmakes with
  | opened hname hopen hnode =>
      obtain ⟨-, name, hname', ⟨place, hopen', rfl⟩ | ⟨e, hopen', -⟩⟩ :=
        openFile_finished hserve
      · rw [hname] at hname'
        cases hname'
        rw [hopen] at hopen'
        cases hopen'
        exact tracks_of_opened rfl rfl (Reader.standsAt_opened hnode)
      · rw [hname] at hname'
        cases hname'
        rw [hopen] at hopen'
        cases hopen'
  | refused hname hopen =>
      obtain ⟨-, name, hname', ⟨place, hopen', -⟩ | ⟨e, -, rfl⟩⟩ :=
        openFile_finished hserve
      · rw [hname] at hname'
        cases hname'
        rw [hopen] at hopen'
        cases hopen'
      · exact ⟨h.closed, h.opened⟩
  | read =>
      change m.readFile = (m', none) at hserve
      cases hfile : m.file with
      | none =>
          unfold readFile at hserve
          rw [hfile] at hserve
          cases hserve
      | some _ =>
          obtain ⟨content, r, hcalls, hr, hstands⟩ :=
            h.opened_of_isSome (by rw [hfile]; rfl)
          obtain ⟨r', hnext, hstands'⟩ := hstands.next
          have hreads : openContent? (.read :: calls) = some content := hcalls
          cases hbyte : content[readsSince calls]? with
          | some b =>
              rw [hbyte] at hnext
              rw [readFile_of_byte hr hnext] at hserve
              cases hserve
              exact tracks_of_opened hreads rfl hstands'
          | none =>
              rw [hbyte] at hnext
              rw [readFile_of_end hr hnext] at hserve
              cases hserve
              exact tracks_of_opened hreads rfl hstands'
  | rewound =>
      change m.rewindFile = (m', none) at hserve
      cases hfile : m.file with
      | none =>
          unfold rewindFile at hserve
          rw [hfile] at hserve
          cases hserve
      | some _ =>
          obtain ⟨content, r, hcalls, hr, hstands⟩ :=
            h.opened_of_isSome (by rw [hfile]; rfl)
          unfold rewindFile at hserve
          rw [hr] at hserve
          cases hserve
          have hrewound : openContent? (.rewound :: calls) = some content := hcalls
          exact tracks_of_opened hrewound rfl hstands.rewind
  | closed =>
      change m.closeFile = (m', none) at hserve
      unfold closeFile at hserve
      split at hserve
      · cases hserve
      · cases hserve
        exact tracks_of_closed rfl rfl

omit [Host δ] in
theorem Makes.isBlocking (h : m.Makes t call) : t.isBlocking = false := by
  cases h with
  | _ => rfl

private theorem Underway.tracks (h : Underway calls m) : Tracks calls m := by
  induction h with
  | begun hfile => exact tracks_of_closed rfl hfile
  | called _ hcalls hmakes hstep ih =>
      obtain ⟨changes, heq⟩ := step_of_callsTrap hcalls
      rw [hstep, Prod.mk.injEq] at heq
      obtain ⟨rfl, hhalt⟩ := heq
      obtain ⟨m₂, hserve, hreturns⟩ :=
        exists_serve_of_callTrap hmakes.isBlocking (Prod.ext rfl hhalt.symm)
      have hserved := (ih.congr hcalls.file.1 hcalls.file.2).serve hmakes hserve
      have hfile := congrArg Machine.file hreturns
      have hdisk := congrArg Machine.disk hreturns
      exact hserved.congr hfile hdisk
  | passed _ hpasses hstep ih =>
      obtain ⟨hfile, hdisk⟩ := file_step hpasses
      rw [hstep] at hfile hdisk
      exact ih.congr hfile hdisk
  | between _ hfile hdisk ih => exact ih.congr hfile hdisk

/-- The file traps are a cursor over the open file. -/
theorem responds_of_underway (h : Underway calls m) (hcalls : m.CallsTrap t m₁)
    (ht : t.isFile = true) : Responds calls t m₁ m.step := by
  obtain ⟨changes, hstep⟩ := step_of_callsTrap hcalls
  rw [hstep]
  exact (responds_callTrap (h.tracks.congr hcalls.file.1 hcalls.file.2) ht).of_changes
    changes

/-- A program that opens a file of one byte and reads it twice. -/
def reading : Machine Silent :=
  { memory := (Memory.filled 0).writeAll
      [(0x0000, 0x2F), (0x0001, 0x66), (0x01FC, 0xED), (0x01FD, 0xFF), (0x01FE, 0xED),
        (0x01FF, 0xFF)]
    registers := ⟨0, 0, 7, 0xFB, 0xFFEB, .reset⟩
    state := .paused
    host := {}
    disk := { Disk.empty with nodes := [(["f"], .file [0x41])] } }

private theorem underway_reading :
    Underway [.read, .opened [0x41]] reading.step.1.step.1 ∧
      Trap.at? reading.step.1.step.1.registers.pc = some .fileRead := by
  have hopens : Text.decodeUtf8? (reading.memory.string reading.pointer) = some "/f" ∧
      reading.disk.open? ⟨"/f"⟩ = .ok ["f"] := by
    decide +kernel
  have hruns : (reading.step.2 = none ∧ reading.step.1.step.2 = none) ∧
      Trap.at? reading.step.1.registers.pc = some .fileRead ∧
      Trap.at? reading.step.1.step.1.registers.pc = some .fileRead := by
    decide +kernel
  obtain ⟨⟨hfirst, hsecond⟩, hread, hagain⟩ := hruns
  have hopened : Underway [.opened [0x41]] reading.step.1 :=
    .called (.begun rfl) (callsTrap_of_caller rfl) (.opened hopens.1 hopens.2 rfl)
      (eq_finished_of_halt hfirst)
  exact ⟨.called hopened (callsTrap_of_caller hread) .read (eq_finished_of_halt hsecond),
    hagain⟩

/-- The second read finds the file at its end. -/
theorem responds_of_underway_reading :
    ∃ m : Machine Silent, Underway [.read, .opened [0x41]] m ∧ m.CallsTrap .fileRead m ∧
      Trap.fileRead.isFile = true ∧
      Responds [.read, .opened [0x41]] .fileRead m m.step := by
  obtain ⟨hunderway, htrap⟩ := underway_reading
  have hcalls := callsTrap_of_caller htrap
  exact ⟨_, hunderway, hcalls, rfl, responds_of_underway hunderway hcalls rfl⟩

/-! Runs. -/

/-- What the step opens, if it opens something, is a regular file. -/
def OpensRegular (m : Machine δ) : Prop :=
  ∀ m₁ name place, m.CallsTrap .fileOpen m₁ →
    Text.decodeUtf8? (m₁.memory.string m₁.pointer) = some name →
      m₁.disk.open? ⟨name⟩ = .ok place →
    ∃ content, m₁.disk.node? place = some (.file content)

theorem Underway.step (h : Underway calls m) (hregular : m.OpensRegular)
    (hstep : m.step = (m', none)) : ∃ calls', Underway calls' m' := by
  by_cases hfile : ∃ t m₁, m.CallsTrap t m₁ ∧ t.isFile = true
  · obtain ⟨t, m₁, hcalls, ht⟩ := hfile
    have hmakes : ∃ call, m₁.Makes t call := by
      cases t with
      | fileOpen =>
          obtain ⟨changes, heq⟩ := step_of_callsTrap hcalls
          rw [hstep, Prod.mk.injEq] at heq
          obtain ⟨m₂, hserve, -⟩ :=
            exists_serve_of_callTrap (t := .fileOpen) rfl (Prod.ext rfl heq.2.symm)
          obtain ⟨-, name, hname, ⟨place, hopen, -⟩ | ⟨e, hopen, -⟩⟩ :=
            openFile_finished hserve
          · obtain ⟨content, hnode⟩ := hregular m₁ name place hcalls hname hopen
            exact ⟨_, .opened hname hopen hnode⟩
          · exact ⟨_, .refused hname hopen⟩
      | fileClose => exact ⟨_, .closed⟩
      | fileRewind => exact ⟨_, .rewound⟩
      | fileRead => exact ⟨_, .read⟩
      | _ => cases ht
    obtain ⟨call, hmakes⟩ := hmakes
    exact ⟨_, .called h hcalls hmakes hstep⟩
  · refine ⟨calls, .passed h (fun t m₁ hcalls => ?_) hstep⟩
    exact Bool.eq_false_iff.2 fun ht => hfile ⟨t, m₁, hcalls, ht⟩

private theorem file_beginRun (m : Machine δ) : m.beginRun.file = none := by
  unfold beginRun recordWrites
  dsimp only
  split
  · rfl
  · rfl

theorem Underway.periodicTurn (h : Underway calls m) (n : Nat) :
    Underway calls (m.periodicTurn n).1 := by
  unfold Machine.periodicTurn
  split
  · exact .between h rfl rfl
  · exact h

/-- What ends a round without ending the run. -/
def GoesOn (end? : RunResult ⊕ Nat) : Prop :=
  ∀ result, end? = .inl result → ∃ reason, result = .ok reason ∧ reason.endsRun = false

theorem Underway.round {plan : RunPlan} {n : Nat} (h : Underway calls m)
    (hregular : m.stopRequested = false → m.OpensRegular)
    (hgoes : GoesOn (m.round plan n).2) :
    ∃ calls', Underway calls' (m.round plan n).1 := by
  cases hstop : m.stopRequested with
  | true =>
      rw [round_of_stopped plan n hstop] at hgoes
      obtain ⟨_, ⟨⟩, hends⟩ := hgoes _ rfl
      cases hends
  | false =>
      cases hstep : m.step with
      | mk m₁ halt =>
          cases halt with
          | some halt =>
              rw [round_of_halt plan n hstop hstep] at hgoes
              obtain ⟨reason, hreason, hends⟩ := hgoes _ rfl
              have hstops := endsRun_step m
              rw [hstep] at hstops
              cases halt with
              | error e => cases hreason
              | stop reason' =>
                  cases hreason
                  rw [hstops reason rfl] at hends
                  cases hends
          | none =>
              obtain ⟨calls', hcalls'⟩ := h.step (hregular hstop) hstep
              refine ⟨calls', ?_⟩
              rw [round_of_finished plan n hstop hstep]
              cases (m₁.periodicTurn (n + 1)).1.pauses? plan with
              | some reason => exact hcalls'.periodicTurn _
              | none => exact hcalls'.periodicTurn _

theorem Underway.rounds {plan : RunPlan} {n : Nat} (h : Underway calls m) {k : Nat}
    (hregular : ∀ j < k, ∀ m₁ ∈ stepping? (m.rounds plan n j), m₁.OpensRegular)
    (hgoes : GoesOn (m.rounds plan n k).2) :
    ∃ calls', Underway calls' (m.rounds plan n k).1 := by
  induction k with
  | zero => exact ⟨calls, h⟩
  | succ k ih =>
      have hlast := hregular k (Nat.lt_succ_self k)
      have hbefore := ih fun j hj => hregular j (Nat.lt_succ_of_lt hj)
      unfold Machine.rounds at hgoes ⊢
      generalize m.rounds plan n k = stage at hlast hbefore hgoes ⊢
      obtain ⟨m₁, end?⟩ := stage
      cases end? with
      | inl result => exact hbefore hgoes
      | inr n =>
          have hon : GoesOn (.inr n) := by
            intro result heq
            cases heq
          obtain ⟨calls', hcalls'⟩ := hbefore hon
          exact hcalls'.round (fun hstop => hlast m₁ (stepping?_eq_some n hstop)) hgoes

/-- A run that starts over, or goes on after some calls, is underway for as long as it is
not over, if the files that it opens are regular ones. -/
theorem exists_underway_course {mode : RunMode}
    (h : m.state = .notRunning ∨ ∃ calls, Underway calls m) {k : Nat}
    (hregular : ∀ j < k, ∀ m₁ ∈ stepping? (m.course mode j), m₁.OpensRegular)
    (hgoes : GoesOn (m.course mode k).2) :
    ∃ calls, Underway calls (m.course mode k).1 := by
  have hstart : ∃ calls, Underway calls (m.startRun mode) := by
    unfold startRun
    dsimp only
    split
    · exact ⟨[], .begun (file_beginRun m)⟩
    · rename_i hstate
      obtain ⟨calls, hcalls⟩ := h.resolve_left hstate
      exact ⟨calls, .between hcalls rfl rfl⟩
  obtain ⟨calls, hcalls⟩ := hstart
  exact hcalls.rounds hregular hgoes

/-- A run that pauses is underway for the next one to go on. -/
theorem exists_underway_execute {mode : RunMode} {fuel : Nat} {reason : StopReason}
    (h : m.state = .notRunning ∨ ∃ calls, Underway calls m)
    (hregular : ∀ j < fuel, ∀ m₁ ∈ stepping? (m.course mode j), m₁.OpensRegular)
    (hrun : execute fuel m mode = some (m', .ok reason))
    (hpauses : reason.endsRun = false) :
    ∃ calls, Underway calls m' := by
  rw [execute_eq_course] at hrun
  have hcourse := exists_underway_course h hregular
  generalize m.course mode fuel = stage at hcourse hrun
  obtain ⟨m₁, end?⟩ := stage
  cases end? with
  | inr n => cases hrun
  | inl result =>
      cases hrun
      obtain ⟨calls, hcalls⟩ := hcourse fun _ heq =>
        ⟨reason, (Sum.inl.inj heq).symm, hpauses⟩
      exact ⟨calls, .between hcalls rfl rfl⟩

end Machine

end Breadboard
