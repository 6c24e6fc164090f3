import Breadboard.Proofs.Source.Growth

namespace Breadboard

private theorem Source.Grown.lines?_eq {d : Disk} {s s' : Source} {lines : List String}
    (h : Grown d s s') (hlines : s.lines? = some lines) : s'.lines? = some lines := by
  obtain rfl | ⟨lines', hload, rfl⟩ := h
  · exact hlines
  · rw [load_of_lines? hlines] at hload
    cases hload
    rfl

namespace Library

variable {d : Disk} {lib lib' lib₁ lib₁' lib₂ : Library} {file : FileId} {s : Source}

def Registered (lib : Library) : Prop :=
  ∀ frame ∈ lib.stack, (lib.source? frame.file).isSome

/-- `lib₂` is being read as `lib₁` is, and may know more. -/
structure Twin (d : Disk) (lib₁ lib₂ : Library) : Prop where
  stack : lib₂.stack = lib₁.stack
  opened : lib₂.opened = lib₁.opened
  grown : Grown d lib₁ lib₂

theorem mem_nextOf {frames : List Frame} {frame : Frame} (h : frame ∈ (nextOf frames).2) :
    ∃ frame' ∈ frames, frame'.file = frame.file := by
  induction frames with
  | nil => cases h
  | cons top below ih =>
      obtain ⟨topFile, n, rest⟩ := top
      cases rest with
      | nil =>
          obtain ⟨frame', hmem, hfile⟩ := ih h
          exact ⟨frame', List.mem_cons_of_mem _ hmem, hfile⟩
      | cons text rest =>
          rcases List.mem_cons.1 h with rfl | h
          · exact ⟨_, List.mem_cons_self, rfl⟩
          · exact ⟨frame, List.mem_cons_of_mem _ h, rfl⟩

private theorem mem_of_nextOf_eq {frames frames' : List Frame} {n : Nat} {text : String}
    (h : nextOf frames = (some (file, n, text), frames')) :
    ∃ frame ∈ frames, frame.file = file := by
  induction frames with
  | nil => cases h
  | cons top below ih =>
      obtain ⟨topFile, m, rest⟩ := top
      cases rest with
      | nil =>
          obtain ⟨frame, hmem, hfile⟩ := ih h
          exact ⟨frame, List.mem_cons_of_mem _ hmem, hfile⟩
      | cons text' rest =>
          cases h
          exact ⟨_, List.mem_cons_self, rfl⟩

theorem Registered.next (h : Registered lib) : Registered lib.next.2 := by
  intro frame hframe
  obtain ⟨frame', hmem, hfile⟩ := mem_nextOf hframe
  have := h frame' hmem
  rwa [hfile] at this

theorem Registered.of_next {line? : Option (Location × String)} (h : Registered lib)
    (hnext : lib.next = (line?, lib')) : Registered lib' := by
  obtain rfl : lib.next.2 = lib' := congrArg Prod.snd hnext
  exact h.next

private theorem Grown.nameOf_eq (h : Grown d lib₁ lib₂)
    (hfile : (lib₁.source? file).isSome) :
    lib₂.nameOf file = lib₁.nameOf file := by
  obtain ⟨s, hs⟩ := Option.isSome_iff_exists.1 hfile
  obtain ⟨s', hs', hgrown⟩ := h.source hs
  simp [nameOf, name?, hs, hs', hgrown.name_eq]

theorem Twin.next (h : Twin d lib₁ lib₂) (hregistered : Registered lib₁) :
    lib₂.next.1 = lib₁.next.1 ∧ Twin d lib₁.next.2 lib₂.next.2 := by
  unfold Library.next
  rw [h.stack]
  cases hnext : nextOf lib₁.stack with
  | mk line stack =>
      refine ⟨?_, rfl, h.opened, h.grown.searchDirs, h.grown.source⟩
      cases line with
      | none => rfl
      | some line =>
          obtain ⟨file, n, text⟩ := line
          obtain ⟨frame, hframe, rfl⟩ := mem_of_nextOf_eq hnext
          have hname := h.grown.nameOf_eq (hregistered frame hframe)
          change some _ = some _
          rw [nameOf, nameOf] at hname
          simpa [nameOf, name?, source?] using hname

theorem Twin.exists_next {line? : Option (Location × String)} (h : Twin d lib₁ lib₂)
    (hregistered : Registered lib₁) (hnext : lib₁.next = (line?, lib₁')) :
    ∃ lib₂', lib₂.next = (line?, lib₂') ∧ Twin d lib₁' lib₂' := by
  obtain ⟨hline, htwin⟩ := h.next hregistered
  rw [hnext] at hline htwin
  exact ⟨lib₂.next.2, Prod.ext hline rfl, htwin⟩

theorem Registered.includeFile {name : String} {entered : Bool} (h : Registered lib)
    (hinclude : lib.includeFile d name = (.ok entered, lib')) : Registered lib' := by
  have hgrown := grown_includeFile hinclude
  rw [includeFile_eq_ok_iff] at hinclude
  split at hinclude
  · rw [hinclude.2]
    exact h
  · obtain ⟨-, s, lines, hs, -, rfl⟩ := hinclude
    intro frame hframe
    rcases List.mem_cons.1 hframe with rfl | hframe
    · rw [source?_enter hs]
      rfl
    · rw [stack_register] at hframe
      obtain ⟨s', hs'⟩ := Option.isSome_iff_exists.1 (h frame hframe)
      obtain ⟨s'', hs'', -⟩ := hgrown.source hs'
      rw [hs'']
      rfl

theorem Twin.included_eq (h : Twin d lib₁ lib₂) (hregistered : Registered lib₁)
    (name : String) :
    lib₂.included d name = lib₁.included d name := by
  have hpath : lib₂.current?.bind lib₂.path? = lib₁.current?.bind lib₁.path? := by
    unfold current?
    rw [h.stack]
    cases hstack : lib₁.stack with
    | nil => rfl
    | cons frame below =>
        obtain ⟨s, hs⟩ :=
          Option.isSome_iff_exists.1 (hregistered frame (hstack ▸ List.mem_cons_self))
        obtain ⟨s', hs', hgrown⟩ := h.grown.source hs
        simp [path?, hs, hs', hgrown.path?_eq]
  unfold included resolveInclude
  rw [hpath, h.grown.searchDirs]

private theorem sources_enter {lines : List String} (hs : lib.source? file = some s)
    (hlines : s.lines? = some lines) :
    (lib.enter file s lines).sources = lib.sources := by
  obtain ⟨hfile, rfl⟩ := List.getElem?_eq_some_iff.1 hs
  change lib.sources.set file { lib.sources[file] with lines? := some lines } =
    lib.sources
  rw [← hlines]
  exact List.set_getElem_self hfile

private theorem twin_enter {lines : List String} (hstack : lib₂.stack = lib₁.stack)
    (hopened : lib₂.opened = lib₁.opened) (hs : lib₁.source? file = some s)
    (hfuture : Grown d (lib₁.enter file s lines) lib₂) :
    ∃ s', lib₂.source? file = some s' ∧ s'.load d = .ok lines ∧
      Twin d (lib₁.enter file s lines) (lib₂.enter file s' lines) := by
  obtain ⟨s', hs', hgrown⟩ := hfuture.source (source?_enter hs lines)
  have hlines := hgrown.lines?_eq rfl
  have hsources := sources_enter hs' hlines
  refine ⟨s', hs', Source.load_of_lines? hlines, ?_, ?_, ?_⟩
  · change _ :: lib₂.stack = _ :: lib₁.stack
    rw [hstack]
  · change s'.path?.toList ++ lib₂.opened = s.path?.toList ++ lib₁.opened
    rw [hopened, hgrown.path?_eq]
  · exact hfuture.trans (.of_sources rfl hsources)

theorem Twin.includeFile {name : String} {entered : Bool} (h : Twin d lib₁ lib₂)
    (hregistered : Registered lib₁)
    (hinclude : lib₁.includeFile d name = (.ok entered, lib₁'))
    (hfuture : Grown d lib₁' lib₂) :
    ∃ lib₂', lib₂.includeFile d name = (.ok entered, lib₂') ∧ Twin d lib₁' lib₂' := by
  rw [includeFile_eq_ok_iff] at hinclude
  simp only [includeFile_eq_ok_iff, h.included_eq hregistered name, h.opened]
  split at hinclude
  · rename_i hopened
    obtain ⟨rfl, rfl⟩ := hinclude
    refine ⟨lib₂, ?_, h⟩
    rw [if_pos hopened]
    exact ⟨rfl, rfl⟩
  · rename_i hopened
    obtain ⟨rfl, s, lines, hs, hload, rfl⟩ := hinclude
    simp only [if_neg hopened]
    rw [((grown_enter hs hload).trans hfuture).register_eq]
    obtain ⟨s', hs', hload', htwin⟩ := twin_enter
      (h.stack.trans (stack_register _).symm)
        (h.opened.trans (opened_register _).symm) hs hfuture
    exact ⟨_, ⟨trivial, s', lines, hs', hload', rfl⟩, htwin⟩

theorem Twin.includeFile_error {name : String} {e : OpenError} (h : Twin d lib₁ lib₂)
    (hregistered : Registered lib₁)
    (hinclude : lib₁.includeFile d name = (.error e, lib₁'))
    (hfuture : Grown d lib₁' lib₂) :
    ∃ lib₂', lib₂.includeFile d name = (.error e, lib₂') := by
  rw [includeFile_eq] at hinclude ⊢
  dsimp only at hinclude ⊢
  rw [h.included_eq hregistered name, h.opened]
  split at hinclude
  · cases hinclude
  · rename_i hopened
    rw [if_neg hopened]
    split at hinclude
    · cases hinclude
    · rename_i herror
      cases hinclude
      obtain ⟨⟨s, hs, -⟩, -⟩ :=
        find?_eq_some_iff.1 (lib₁.find?_register (lib₁.included d name))
      rw [hfuture.register_eq]
      dsimp only
      rw [hfuture.open?_eq_error hs herror]
      exact ⟨lib₂, rfl⟩

theorem Goes.registered {file? : Option String} (h : Goes d lib file? lib')
    (hregistered : Registered lib) : Registered lib' := by
  cases h with
  | on => exact hregistered
  | into inclusion => exact hregistered.includeFile inclusion

theorem Twin.goes {file? : Option String} (h : Twin d lib₁ lib₂)
    (hregistered : Registered lib₁) (hgoes : Goes d lib₁ file? lib₁')
    (hfuture : Grown d lib₁' lib₂) :
    ∃ lib₂', Goes d lib₂ file? lib₂' ∧ Twin d lib₁' lib₂' := by
  cases hgoes with
  | on => exact ⟨lib₂, .on, h⟩
  | into inclusion =>
      obtain ⟨lib₂', hinclusion, htwin⟩ := h.includeFile hregistered inclusion hfuture
      exact ⟨lib₂', .into hinclusion, htwin⟩

theorem start_eq_ok_iff : lib.start d file = (.ok (), lib') ↔
    ∃ s lines, lib.source? file = some s ∧ s.load d = .ok lines ∧
      lib' = lib.reset.enter file s lines := by
  unfold start
  split
  · rename_i opened hopen
    obtain ⟨s, lines, hs, hload, rfl⟩ := open?_eq_ok_iff.1 hopen
    constructor
    · intro h
      cases h
      exact ⟨s, lines, hs, hload, rfl⟩
    · rintro ⟨s', lines', hs', hload', rfl⟩
      change lib.source? file = some s at hs
      rw [hs] at hs'
      cases hs'
      rw [hload] at hload'
      cases hload'
      rfl
  · rename_i e herror
    constructor
    · intro h
      cases h
    · rintro ⟨s, lines, hs, hload, rfl⟩
      have hs' : lib.reset.source? file = some s := hs
      rw [open?_eq_ok_iff.2 ⟨s, lines, hs', hload, rfl⟩] at herror
      contradiction

theorem registered_start (h : lib.start d file = (.ok (), lib')) : Registered lib' := by
  obtain ⟨s, lines, hs, -, rfl⟩ := start_eq_ok_iff.1 h
  have hs' : lib.reset.source? file = some s := hs
  intro frame hframe
  rw [List.mem_singleton.1 hframe, source?_enter hs']
  rfl

theorem grown_start {result : Except OpenError Unit}
    (h : lib.start d file = (result, lib')) :
    Grown d lib lib' := by
  obtain rfl : (lib.start d file).2 = lib' := congrArg Prod.snd h
  have hreset : Grown d lib lib.reset := .of_sources rfl rfl
  unfold start
  split
  · rename_i hopen
    obtain ⟨s, lines, hs, hload, rfl⟩ := open?_eq_ok_iff.1 hopen
    exact hreset.trans (grown_enter hs hload)
  · exact hreset

theorem twin_start (h : lib.start d file = (.ok (), lib₁)) (hfuture : Grown d lib₁ lib') :
    ∃ lib₂, lib'.start d file = (.ok (), lib₂) ∧ Twin d lib₁ lib₂ := by
  obtain ⟨s, lines, hs, hload, rfl⟩ := start_eq_ok_iff.1 h
  have hreset : Grown d lib' lib'.reset := .of_sources rfl rfl
  have hreset' : lib.reset.source? file = some s := hs
  have hstack : lib'.reset.stack = lib.reset.stack := rfl
  obtain ⟨s', hs', hload', htwin⟩ :=
    twin_enter hstack rfl hreset' (hfuture.trans hreset)
  exact ⟨_, start_eq_ok_iff.2 ⟨s', lines, hs', hload', rfl⟩, htwin⟩

theorem start_eq_error {e : OpenError} (h : lib.start d file = (.error e, lib₁))
    (hs : lib.source? file = some s) (hgrown : Grown d lib lib') :
    lib'.start d file = (.error e, lib'.reset) := by
  have hreset : Grown d lib.reset lib'.reset := ⟨hgrown.searchDirs, hgrown.source⟩
  unfold start at h ⊢
  cases hopen : lib.reset.open? d file with
  | ok opened =>
      rw [hopen] at h
      cases h
  | error e' =>
      rw [hopen] at h
      cases h
      have hreset' : lib.reset.source? file = some s := hs
      rw [hreset.open?_eq_error hreset' hopen]

end Library

end Breadboard
