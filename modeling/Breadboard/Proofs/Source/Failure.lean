import Breadboard.Proofs.Source.Rereading
import Mathlib.Logic.Relation

namespace Breadboard

theorem Source.load_eq_error_iff {d : Disk} {s : Source} {path : Path}
    {reason : DiskError} (hpath : s.path? = some path) :
    s.load d = .error reason ↔ s.lines? = none ∧ d.readText path = .error reason := by
  unfold load
  rw [hpath]
  cases s.lines? with
  | some lines => simp
  | none =>
      cases htext : d.readText path with
      | ok text => simp [htext, Except.map]
      | error reason' => simp [htext, Except.map]

namespace Library

open Relation (ReflTransGen)

variable {d : Disk} {lib lib' : Library} {file : FileId} {name : String}
    {path attempted : Path} {s : Source} {reason : DiskError} {lines : List String}

/-- What can be done with a library, whatever the disk holds at the time. -/
inductive Step : Library → Library → Prop
  | searchIn (lib : Library) (dirs : List Path) : Step lib { lib with searchDirs := dirs }
  | addText (lib : Library) (name text : String) : Step lib (lib.addText name text).2
  | addFile (lib : Library) (d : Disk) (path : Path) : Step lib (lib.addFile d path).2
  | reset (lib : Library) : Step lib lib.reset
  | start (lib : Library) (d : Disk) (root : FileId) : Step lib (lib.start d root).2
  | next (lib : Library) : Step lib lib.next.2
  | includeFile (lib : Library) (d : Disk) (name : String) :
    Step lib (lib.includeFile d name).2

def Reachable (lib : Library) : Prop :=
  ReflTransGen Step {} lib

def Recalls (lib : Library) : Prop :=
  ∀ path ∈ lib.opened, ∃ s ∈ lib.sources, s.path? = some path ∧ s.lines?.isSome

structure Sound (lib : Library) : Prop where
  registered : lib.Registered
  recalls : lib.Recalls

theorem Sound.push (h : lib.Sound) (s : Source) : (lib.push s).2.Sound := by
  refine ⟨fun frame hframe => ?_, fun path hpath => ?_⟩
  · obtain ⟨s', hs'⟩ := Option.isSome_iff_exists.1 (h.registered frame hframe)
    obtain ⟨s'', hs'', -⟩ := (grown_push (d := .empty) s).source hs'
    rw [hs'']
    rfl
  · obtain ⟨s', hs', hknown⟩ := h.recalls path hpath
    exact ⟨s', List.mem_append_left _ hs', hknown⟩

theorem Sound.register (h : lib.Sound) (path : Path) : (lib.register path).2.Sound := by
  unfold Library.register
  split
  · exact h
  · exact h.push _

theorem sound_reset (lib : Library) : lib.reset.Sound :=
  ⟨fun _ hframe => absurd hframe List.not_mem_nil,
    fun _ hpath => absurd hpath List.not_mem_nil⟩

theorem Sound.enter (h : lib.Sound) (hs : lib.source? file = some s)
    (lines : List String) :
    (lib.enter file s lines).Sound := by
  have hentered := source?_enter hs lines
  refine ⟨fun frame hframe => ?_, fun path hpath => ?_⟩
  · by_cases hfile : file = frame.file
    · rw [← hfile, hentered]
      rfl
    · obtain rfl | hframe := List.mem_cons.1 hframe
      · contradiction
      · rw [source?_enter_ne hfile]
        exact h.registered frame hframe
  · obtain hpath | hpath := List.mem_append.1 hpath
    · exact ⟨_, List.mem_of_getElem? hentered, Option.mem_toList.1 hpath, rfl⟩
    · obtain ⟨s', hs', hknown⟩ := h.recalls path hpath
      obtain ⟨file', hfile'⟩ := List.getElem?_of_mem hs'
      by_cases hfile : file = file'
      · subst hfile
        cases hs.symm.trans hfile'
        exact ⟨_, List.mem_of_getElem? hentered, hknown.1, rfl⟩
      · rw [← source?, ← source?_enter_ne hfile] at hfile'
        exact ⟨s', List.mem_of_getElem? hfile', hknown⟩

private theorem Sound.of_open? (h : lib.Sound) (hopen : lib.open? d file = .ok lib') :
    lib'.Sound := by
  obtain ⟨s, lines, hs, -, rfl⟩ := open?_eq_ok_iff.1 hopen
  exact h.enter hs lines

theorem Sound.step (h : lib.Sound) (hstep : Step lib lib') : lib'.Sound := by
  cases hstep with
  | searchIn dirs => exact ⟨h.registered, h.recalls⟩
  | addText name text => exact h.push _
  | addFile d path => exact h.register _
  | reset => exact sound_reset lib
  | start d root =>
      unfold Library.start
      split
      · rename_i hopen
        exact (sound_reset lib).of_open? hopen
      · exact sound_reset lib
  | next => exact ⟨h.registered.next, h.recalls⟩
  | includeFile d name =>
      rw [includeFile_eq]
      dsimp only
      split
      · exact h
      · split
        · rename_i hopen
          exact (h.register _).of_open? hopen
        · exact h.register _

theorem Sound.run (h : lib.Sound) (hrun : ReflTransGen Step lib lib') : lib'.Sound := by
  induction hrun with
  | refl => exact h
  | tail _ hstep ih => exact ih.step hstep

private theorem Reachable.sound (h : lib.Reachable) : lib.Sound :=
  (sound_reset {}).run h

/-- The source that is registered under a path, or that will be. -/
def sourceFor (lib : Library) (path : Path) : Source :=
  ((lib.find? path).bind lib.source?).getD ⟨path.text, some path, none⟩

theorem source?_register (path : Path) :
    (lib.register path).2.source? (lib.register path).1 = some (lib.sourceFor path) := by
  unfold register sourceFor
  split
  · rename_i file hfind
    obtain ⟨⟨s, hs, -⟩, -⟩ := find?_eq_some_iff.1 hfind
    rw [hfind, Option.bind_some, hs]
    rfl
  · rename_i hfind
    rw [hfind]
    exact List.getElem?_concat_length

private theorem exists_path?_sourceFor (lib : Library) (path : Path) :
    ∃ q, (lib.sourceFor path).path? = some q ∧ path.same q := by
  obtain ⟨⟨s, hs, hsame⟩, -⟩ := find?_eq_some_iff.1 (lib.find?_register path)
  cases (source?_register path).symm.trans hs
  exact (Option.any_eq_true _ _).1 hsame

/-- A file is to be read for an include, and cannot be. It was not opened since reading
started, its lines are not known, and the disk does not give its text under the path that
it is registered under. -/
structure Fails (lib : Library) (d : Disk) (name : String) (attempted : Path)
    (reason : DiskError) :
    Prop where
  new : ¬ lib.opened.any (lib.included d name).same
  unread : (lib.sourceFor (lib.included d name)).lines? = none
  path : (lib.sourceFor (lib.included d name)).path? = some attempted
  unreadable : d.readText attempted = .error reason

private theorem open?_register (hpath : (lib.sourceFor path).path? = some attempted) :
    (lib.register path).2.open? d (lib.register path).1 =
      match (lib.sourceFor path).load d with
      | .error reason => .error ⟨attempted, reason⟩
      | .ok lines =>
        .ok ((lib.register path).2.enter (lib.register path).1 (lib.sourceFor path)
          lines) := by
  have hattempted : (lib.sourceFor path).attemptedPath = attempted := by
    rw [Source.attemptedPath, hpath]
    rfl
  cases hload : (lib.sourceFor path).load d with
  | error reason => simp only [open?, source?_register, hload, hattempted]
  | ok lines => simp only [open?, source?_register, hload]

private theorem includeFile_eq_error_iff :
    lib.includeFile d name = (.error ⟨attempted, reason⟩, lib') ↔
    Fails lib d name attempted reason ∧
    lib' = (lib.register (lib.included d name)).2 := by
  obtain ⟨q, hq, -⟩ := lib.exists_path?_sourceFor (lib.included d name)
  rw [includeFile_eq]
  dsimp only
  rw [open?_register hq]
  by_cases hopened : lib.opened.any (lib.included d name).same
  · rw [if_pos hopened]
    exact iff_of_false (by simp) fun ⟨hfails, _⟩ => hfails.new hopened
  · rw [if_neg hopened]
    cases hload : (lib.sourceFor (lib.included d name)).load d with
    | ok lines =>
        refine iff_of_false (by simp) fun ⟨hfails, _⟩ => ?_
        rw [(Source.load_eq_error_iff hfails.path).2 ⟨hfails.unread, hfails.unreadable⟩]
          at hload
        cases hload
    | error reason' =>
        obtain ⟨hunread, hunreadable⟩ := (Source.load_eq_error_iff hq).1 hload
        constructor
        · intro h
          cases h
          exact ⟨⟨hopened, hunread, hq, hunreadable⟩, rfl⟩
        · rintro ⟨hfails, rfl⟩
          cases hq.symm.trans hfails.path
          cases hunreadable.symm.trans hfails.unreadable
          rfl

def after (lib : Library) : Nat → Library
  | 0 => lib
  | n + 1 => lib.next.2.after n

theorem Twin.after (h : Twin d lib lib') (hregistered : Registered lib) (n : Nat) :
    (lib'.after n).next.1 = (lib.after n).next.1 := by
  induction n generalizing lib lib' with
  | zero => exact (h.next hregistered).1
  | succ n ih => exact ih (h.next hregistered).2 hregistered.next

private theorem twin_register (lib : Library) (path : Path) :
    Twin .empty lib (lib.register path).2 :=
  ⟨stack_register path, opened_register path, grown_register path⟩

private theorem sources_register (lib : Library) (path : Path) :
    (lib.register path).2.sources = lib.sources ∨
      (lib.register path).2.sources = lib.sources ++ [⟨path.text, some path, none⟩] := by
  unfold register
  split
  · exact .inl rfl
  · exact .inr rfl

def Readable (lib : Library) (d : Disk) (path : Path) : Prop :=
  ∃ q text, (lib.sourceFor path).path? = some q ∧ d.readText q = .ok text

/-- The include succeeds: the lines of the file are read next, unless they have been read
since reading started. -/
def Succeeds (lib : Library) (d : Disk) (name : String) : Prop :=
  if lib.opened.any (lib.included d name).same then
    lib.includeFile d name = (.ok false, lib) ∧
      ∃ s ∈ lib.sources, s.path?.any (lib.included d name).same ∧ s.lines?.isSome
  else ∃ file lines lib', lib.includeFile d name = (.ok true, lib') ∧
    (lib.sourceFor (lib.included d name)).load d = .ok lines ∧
    lib'.stack = ⟨file, 0, lines⟩ :: lib.stack

private theorem Readable.exists_load (h : lib.Readable d path) :
    ∃ lines, (lib.sourceFor path).load d = .ok lines := by
  obtain ⟨q, text, hq, htext⟩ := h
  cases hload : (lib.sourceFor path).load d with
  | ok lines => exact ⟨lines, rfl⟩
  | error reason =>
      have hunreadable := ((Source.load_eq_error_iff hq).1 hload).2
      rw [htext] at hunreadable
      cases hunreadable

private theorem includeFile_of_load (hnew : ¬ lib.opened.any (lib.included d name).same)
    (hload : (lib.sourceFor (lib.included d name)).load d = .ok lines) :
    lib.includeFile d name = (.ok true, (lib.register (lib.included d name)).2.enter
      (lib.register (lib.included d name)).1 (lib.sourceFor (lib.included d name))
        lines) := by
  rw [includeFile_eq_ok_iff, if_neg hnew]
  exact ⟨rfl, _, lines, source?_register _, hload, rfl⟩

private theorem Sound.succeeds (h : lib.Sound)
    (hreadable : lib.Readable d (lib.included d name)) :
    lib.Succeeds d name := by
  unfold Succeeds
  split
  · rename_i hopened
    obtain ⟨path, hpath, hsame⟩ := List.any_eq_true.1 hopened
    obtain ⟨s, hs, hsource, hknown⟩ := h.recalls path hpath
    have hany : s.path?.any (lib.included d name).same := by
      rw [hsource]
      exact hsame
    refine ⟨?_, s, hs, hany, hknown⟩
    rw [includeFile_eq_ok_iff, if_pos hopened]
    exact ⟨rfl, rfl⟩
  · rename_i hopened
    obtain ⟨lines, hload⟩ := hreadable.exists_load
    have hinclude := includeFile_of_load hopened hload
    refine ⟨(lib.register (lib.included d name)).1, lines, _, hinclude, hload, ?_⟩
    change _ :: (lib.register _).2.stack = _
    rw [stack_register]

/-- What an include that fails leaves of a library: what is being read, what is
remembered, and the sources, with at most one that is not read registered after them. The
lines that come are those that would have come, and whatever is done with the library, the
include succeeds as soon as the file can be read. -/
structure Unfazed (name : String) (lib lib' : Library) : Prop where
  stack : lib'.stack = lib.stack
  opened : lib'.opened = lib.opened
  searchDirs : lib'.searchDirs = lib.searchDirs
  sources : lib'.sources = lib.sources ∨
    ∃ path, lib'.sources = lib.sources ++ [⟨path.text, some path, none⟩]
  lines : ∀ n, (lib'.after n).next.1 = (lib.after n).next.1
  later : ∀ later, ReflTransGen Step lib' later → ∀ d,
    later.Readable d (later.included d name) → later.Succeeds d name

/-- An include that fails names the path that could not be read, and leaves no
trace in what is read. -/
theorem unfazed_of_includeFile (h : lib.Reachable)
    (hfails : Fails lib d name attempted reason) :
    ∃ lib', lib.includeFile d name = (.error ⟨attempted, reason⟩, lib') ∧
      (lib.included d name).same attempted ∧ Unfazed name lib lib' := by
  obtain ⟨q, hq, hsame⟩ := lib.exists_path?_sourceFor (lib.included d name)
  cases hq.symm.trans hfails.path
  refine ⟨_, includeFile_eq_error_iff.2 ⟨hfails, rfl⟩, hsame, {
    stack := stack_register _
    opened := opened_register _
    searchDirs := (twin_register lib _).grown.searchDirs
    sources := (sources_register lib _).imp_right fun hsources => ⟨_, hsources⟩
    lines := (twin_register lib _).after h.sound.registered
    later := fun later hrun d hreadable => ?_ }⟩
  exact ((h.sound.register _).run hrun).succeeds hreadable

def holding (bytes : List UInt8) : Disk :=
  { Disk.empty with
    nodes := [(["a.asm"], .file bytes), (["b.asm"], .file "b0\nb1".toUTF8.toList)] }

def including (d : Disk) (name : String) : Library :=
  ((({} : Library).addText "main" "m0\nm1").2.start d 0).2.includeFile d name |>.2

private theorem reachable_including (d : Disk) (name : String) :
    (including d name).Reachable :=
  .tail (.tail (.single (.addText _ "main" "m0\nm1")) (.start _ d 0))
    (.includeFile _ d name)

/-- An include out of a file that is itself included fails, as the bytes of the file are
not text. Once they are, it succeeds. -/
theorem unfazed_of_includeFile_notUtf8 :
    Fails (including (holding [0xFF]) "b.asm") (holding [0xFF]) "a.asm"
      ⟨"/a.asm"⟩ .notUtf8 ∧
      ∃ lib', (including (holding [0xFF]) "b.asm").includeFile (holding [0xFF]) "a.asm" =
          (.error ⟨⟨"/a.asm"⟩, .notUtf8⟩, lib') ∧
        Unfazed "a.asm" (including (holding [0xFF]) "b.asm") lib' ∧
        lib'.Succeeds (holding [0x61]) "a.asm" := by
  have hfails : Fails (including (holding [0xFF]) "b.asm") (holding [0xFF])
    "a.asm" ⟨"/a.asm"⟩
      .notUtf8 := by
    constructor <;> decide +kernel
  obtain ⟨lib', hinclude, -, hunfazed⟩ :=
    unfazed_of_includeFile (reachable_including _ _) hfails
  obtain rfl : ((including (holding [0xFF]) "b.asm").includeFile (holding [0xFF])
    "a.asm").2 = lib' :=
    congrArg Prod.snd hinclude
  refine ⟨hfails, _, hinclude, hunfazed, hunfazed.later _ .refl _ ⟨⟨"/a.asm"⟩,
    "a", ?_, ?_⟩⟩
  · decide +kernel
  · decide +kernel

/-- A file that was included is not read again, even if by now it could not be read. -/
theorem includeFile_of_unreadable_remembered :
    ¬ ∀ (lib : Library) (d : Disk) (name : String)
    (reason : DiskError), lib.Reachable →
    d.readText (lib.included d name) = .error reason →
      ∃ e lib', lib.includeFile d name = (.error e, lib') := by
  intro h
  obtain ⟨e, lib', hinclude⟩ :=
    h (including (holding [0x61]) "a.asm") (holding [0xFF]) "a.asm" .notUtf8
    (reachable_including _ _) (by decide +kernel)
  have hskipped : ((including (holding [0x61]) "a.asm").includeFile (holding [0xFF])
    "a.asm").1.toOption = some false := by
    decide +kernel
  rw [hinclude] at hskipped
  cases hskipped

end Library

end Breadboard
