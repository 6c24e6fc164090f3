import Breadboard.Proofs.Disk.Canonical
import Breadboard.Source.Library

namespace Breadboard

theorem Path.same_iff {p q : Path} : p.same q ↔ p.components = q.components :=
  beq_iff_eq

theorem Path.same_refl (p : Path) : p.same p :=
  same_iff.2 rfl

namespace Source

def Grown (d : Disk) (s s' : Source) : Prop :=
  s' = s ∨ ∃ lines, s.load d = .ok lines ∧ s' = { s with lines? := some lines }

variable {d : Disk} {s s' s'' : Source}

theorem Grown.refl (d : Disk) (s : Source) : Grown d s s :=
  .inl rfl

theorem Grown.load_eq (h : Grown d s s') : s'.load d = s.load d := by
  obtain rfl | ⟨lines, hload, rfl⟩ := h
  · rfl
  · exact hload.symm

theorem Grown.name_eq (h : Grown d s s') : s'.name = s.name := by
  obtain rfl | ⟨lines, -, rfl⟩ := h
  · rfl
  · rfl

theorem Grown.path?_eq (h : Grown d s s') : s'.path? = s.path? := by
  obtain rfl | ⟨lines, -, rfl⟩ := h
  · rfl
  · rfl

theorem Grown.trans (h : Grown d s s') (h' : Grown d s' s'') : Grown d s s'' := by
  have hload := h.load_eq
  obtain rfl | ⟨lines, hlines, rfl⟩ := h'
  · exact h
  · refine .inr ⟨lines, hload.symm.trans hlines, ?_⟩
    obtain rfl | ⟨_, -, rfl⟩ := h
    · rfl
    · rfl

private theorem Grown.attemptedPath_eq (h : Grown d s s') :
    s'.attemptedPath = s.attemptedPath := by
  unfold attemptedPath
  rw [h.path?_eq, h.name_eq]

theorem load_of_lines? {lines : List String} (h : s.lines? = some lines) :
    s.load d = .ok lines := by
  unfold load
  rw [h]

end Source

namespace Library

variable {d : Disk} {lib lib' lib'' : Library} {file : FileId} {s : Source} {path : Path}

structure Grown (d : Disk) (lib lib' : Library) : Prop where
  searchDirs : lib'.searchDirs = lib.searchDirs
  source : ∀ {file s}, lib.source? file = some s →
    ∃ s', lib'.source? file = some s' ∧ s.Grown d s'

theorem Grown.refl (d : Disk) (lib : Library) : Grown d lib lib :=
  ⟨rfl, fun hs => ⟨_, hs, .refl d _⟩⟩

theorem Grown.trans (h : Grown d lib lib') (h' : Grown d lib' lib'') :
    Grown d lib lib'' := by
  refine ⟨h'.searchDirs.trans h.searchDirs, fun hs => ?_⟩
  obtain ⟨s', hs', hgrown⟩ := h.source hs
  obtain ⟨s'', hs'', hgrown'⟩ := h'.source hs'
  exact ⟨s'', hs'', hgrown.trans hgrown'⟩

theorem Grown.of_sources (hdirs : lib'.searchDirs = lib.searchDirs)
    (hsources : lib'.sources = lib.sources) : Grown d lib lib' := by
  refine ⟨hdirs, fun {file s} hs => ⟨s, ?_, .refl d s⟩⟩
  rw [source?, hsources]
  exact hs

theorem grown_push (s : Source) : Grown d lib (lib.push s).2 := by
  refine ⟨rfl, fun {file s'} hs => ⟨s', ?_, .refl d s'⟩⟩
  obtain ⟨hfile, -⟩ := List.getElem?_eq_some_iff.1 hs
  rw [source?, push, List.getElem?_append_left hfile]
  exact hs

theorem source?_enter (hs : lib.source? file = some s) (lines : List String) :
    (lib.enter file s lines).source? file = some { s with lines? := some lines } := by
  obtain ⟨hfile, -⟩ := List.getElem?_eq_some_iff.1 hs
  exact List.getElem?_set_self hfile

theorem source?_enter_ne {file' : FileId} (hne : file ≠ file') (lines : List String) :
    (lib.enter file s lines).source? file' = lib.source? file' :=
  List.getElem?_set_ne hne

theorem grown_enter {lines : List String} (hs : lib.source? file = some s)
    (hload : s.load d = .ok lines) : Grown d lib (lib.enter file s lines) := by
  refine ⟨rfl, fun {file' s'} hs' => ?_⟩
  by_cases hfile : file = file'
  · subst hfile
    rw [hs] at hs'
    cases hs'
    exact ⟨_, source?_enter hs lines, .inr ⟨lines, hload, rfl⟩⟩
  · rw [source?_enter_ne hfile]
    exact ⟨s', hs', .refl d s'⟩

private theorem grown_next (lib : Library) : Grown d lib lib.next.2 :=
  .of_sources rfl rfl

theorem grown_of_next {line? : Option (Location × String)}
    (h : lib.next = (line?, lib')) :
    Grown d lib lib' := by
  obtain rfl : lib.next.2 = lib' := congrArg Prod.snd h
  exact grown_next lib

theorem find?_eq_some_iff : lib.find? path = some file ↔
    (∃ s, lib.source? file = some s ∧ s.path?.any path.same) ∧
      ∀ earlier < file, ∀ s, lib.source? earlier = some s → ¬ s.path?.any path.same := by
  unfold find? source?
  rw [List.findIdx?_eq_some_iff_getElem]
  constructor
  · rintro ⟨hfile, hsame, hearlier⟩
    refine ⟨⟨_, List.getElem?_eq_getElem hfile, hsame⟩, fun earlier hlt s hs => ?_⟩
    obtain ⟨_, rfl⟩ := List.getElem?_eq_some_iff.1 hs
    exact hearlier earlier hlt
  · rintro ⟨⟨s, hs, hsame⟩, hearlier⟩
    obtain ⟨hfile, rfl⟩ := List.getElem?_eq_some_iff.1 hs
    exact ⟨hfile, hsame, fun earlier hlt => hearlier earlier hlt _
      (List.getElem?_eq_getElem _)⟩

theorem find?_eq_none_iff : lib.find? path = none ↔
    ∀ file s, lib.source? file = some s → ¬ s.path?.any path.same := by
  unfold find? source?
  rw [List.findIdx?_eq_none_iff]
  constructor
  · intro hnone file s hs
    rw [hnone s (List.mem_of_getElem? hs)]
    exact Bool.false_ne_true
  · intro hnone s hs
    obtain ⟨file, hfile⟩ := List.getElem?_of_mem hs
    exact Bool.not_eq_true _ ▸ hnone file s hfile

private theorem Grown.source_back {s' : Source} (h : Grown d lib lib')
    (hs' : lib'.source? file = some s') (hfile : file < lib.sources.length) :
    ∃ s, lib.source? file = some s ∧ s.Grown d s' := by
  obtain ⟨s'', hs'', hgrown⟩ := h.source (List.getElem?_eq_getElem hfile)
  rw [hs'] at hs''
  cases hs''
  exact ⟨_, List.getElem?_eq_getElem hfile, hgrown⟩

theorem Grown.find? (h : Grown d lib lib') (hfind : lib.find? path = some file) :
    lib'.find? path = some file := by
  obtain ⟨⟨s, hs, hsame⟩, hearlier⟩ := find?_eq_some_iff.1 hfind
  obtain ⟨hfile, -⟩ := List.getElem?_eq_some_iff.1 hs
  obtain ⟨s', hs', hgrown⟩ := h.source hs
  refine find?_eq_some_iff.2 ⟨⟨s', hs', hgrown.path?_eq ▸ hsame⟩,
    fun earlier hlt e' he' => ?_⟩
  obtain ⟨e, he, hback⟩ := h.source_back he' (Nat.lt_trans hlt hfile)
  rw [hback.path?_eq]
  exact hearlier earlier hlt e he

theorem grown_register (path : Path) : Grown d lib (lib.register path).2 := by
  unfold register
  split
  · exact .refl d lib
  · exact grown_push _

theorem find?_register (path : Path) :
    (lib.register path).2.find? path = some (lib.register path).1 := by
  unfold register
  split
  · assumption
  · rename_i hnone
    refine find?_eq_some_iff.2 ⟨⟨⟨path.text, some path, none⟩, ?_, ?_⟩,
      fun earlier hlt s hs => ?_⟩
    · exact List.getElem?_concat_length
    · exact path.same_refl
    · rw [source?, push, List.getElem?_append_left hlt] at hs
      exact find?_eq_none_iff.1 hnone earlier s hs

theorem stack_register (path : Path) : (lib.register path).2.stack = lib.stack := by
  unfold register
  split <;> rfl

theorem opened_register (path : Path) : (lib.register path).2.opened = lib.opened := by
  unfold register
  split <;> rfl

theorem open?_eq_ok_iff : lib.open? d file = .ok lib' ↔
    ∃ s lines, lib.source? file = some s ∧ s.load d = .ok lines ∧
      lib' = lib.enter file s lines := by
  unfold open?
  cases lib.source? file with
  | none => simp
  | some s =>
      cases hload : s.load d with
      | error e => simp [hload]
      | ok lines => simp [hload, eq_comm]

theorem Grown.open?_eq_error {e : OpenError} (h : Grown d lib lib')
    (hs : lib.source? file = some s) (herror : lib.open? d file = .error e) :
    lib'.open? d file = .error e := by
  obtain ⟨s', hs', hgrown⟩ := h.source hs
  unfold open? at herror ⊢
  rw [hs] at herror
  rw [hs']
  dsimp only at herror ⊢
  rw [hgrown.load_eq, hgrown.attemptedPath_eq]
  cases hload : s.load d with
  | ok lines =>
      rw [hload] at herror
      cases herror
  | error reason =>
      rw [hload] at herror
      exact herror

theorem Grown.register_eq (h : Grown d (lib.register path).2 lib') :
    lib'.register path = ((lib.register path).1, lib') := by
  have hfind := h.find? (find?_register path)
  rw [register, hfind]

def included (lib : Library) (d : Disk) (name : String) : Path :=
  d.canonical (lib.resolveInclude d name)

theorem includeFile_eq (lib : Library) (d : Disk) (name : String) :
    lib.includeFile d name =
      let path := lib.included d name
      if lib.opened.any path.same then (.ok false, lib)
      else
        let (file, registered) := lib.register path
        match registered.open? d file with
        | .ok lib => (.ok true, lib)
        | .error e => (.error e, registered) := by
  unfold includeFile addFile included
  dsimp only
  rw [d.canonical_canonical]
  unfold register
  cases lib.find? (d.canonical (lib.resolveInclude d name)) <;> rfl

theorem includeFile_eq_ok_iff {name : String} {entered : Bool} :
    lib.includeFile d name = (.ok entered, lib') ↔
      if lib.opened.any (lib.included d name).same then entered = false ∧ lib' = lib
      else entered = true ∧ ∃ s lines,
        (lib.register (lib.included d name)).2.source?
          (lib.register (lib.included d name)).1 = some s ∧ s.load d = .ok lines ∧
        lib' = (lib.register (lib.included d name)).2.enter
          (lib.register (lib.included d name)).1 s lines := by
  rw [includeFile_eq]
  dsimp only
  split
  · simp [eq_comm]
  · split
    · rename_i opened hopen
      obtain ⟨s, lines, hs, hload, rfl⟩ := open?_eq_ok_iff.1 hopen
      constructor
      · intro h
        cases h
        exact ⟨rfl, s, lines, hs, hload, rfl⟩
      · rintro ⟨rfl, s', lines', hs', hload', rfl⟩
        rw [hs] at hs'
        cases hs'
        rw [hload] at hload'
        cases hload'
        rfl
    · rename_i e herror
      constructor
      · intro h
        cases h
      · rintro ⟨rfl, s, lines, hs, hload, rfl⟩
        rw [open?_eq_ok_iff.2 ⟨s, lines, hs, hload, rfl⟩] at herror
        contradiction

theorem grown_includeFile {name : String} {result : Except OpenError Bool}
    (h : lib.includeFile d name = (result, lib')) : Grown d lib lib' := by
  obtain rfl : (lib.includeFile d name).2 = lib' := congrArg Prod.snd h
  rw [includeFile_eq]
  dsimp only
  split
  · exact .refl d lib
  · split
    · rename_i hopen
      obtain ⟨s, lines, hs, hload, rfl⟩ := open?_eq_ok_iff.1 hopen
      exact (grown_register _).trans (grown_enter hs hload)
    · exact grown_register _

/-- How reading goes on after a line that may include a file. -/
inductive Goes (d : Disk) (lib : Library) : Option String → Library → Prop
  | on : Goes d lib none lib
  | into {name : String} {entered : Bool} {lib' : Library}
      (inclusion : lib.includeFile d name = (.ok entered, lib')) :
        Goes d lib (some name) lib'

variable {file? : Option String}

theorem Goes.unique (h : Goes d lib file? lib') (h' : Goes d lib file? lib'') :
    lib'' = lib' := by
  cases h with
  | on =>
      cases h'
      rfl
  | into inclusion =>
      cases h' with
      | into inclusion' =>
          cases inclusion.symm.trans inclusion'
          rfl

theorem Goes.grown (h : Goes d lib file? lib') : Grown d lib lib' := by
  cases h with
  | on => exact .refl d lib
  | into inclusion => exact grown_includeFile inclusion

end Library

end Breadboard
