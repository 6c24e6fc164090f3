import Breadboard.Proofs.Source.Rereading

namespace Breadboard

namespace Library

variable {d : Disk} {lib lib' : Library} {file : FileId} {s : Source} {l : Location}
    {text : String}

def Entered (lib : Library) (file : FileId) : Prop :=
  ∃ s, lib.source? file = some s ∧ ∀ path ∈ s.path?, lib.opened.any path.same

/-- What is being read was entered, each source once. -/
structure Orderly (lib : Library) : Prop where
  nodup : (lib.stack.map Frame.file).Nodup
  entered : ∀ frame ∈ lib.stack, lib.Entered frame.file

/-- Of a source that was entered, only lines from `line` on remain to be read. -/
structure Ahead (lib : Library) (file : FileId) (line : Nat) : Prop where
  entered : lib.Entered file
  frames : ∀ frame ∈ lib.stack, frame.file = file → line ≤ frame.next

private theorem exists_of_nextOf {frames frames' : List Frame} {n : Nat}
    (h : nextOf frames = (some (file, n, text), frames')) :
    ∃ rest below, ⟨file, n, text :: rest⟩ :: below <:+ frames ∧
      frames' = ⟨file, n + 1, rest⟩ :: below := by
  induction frames with
  | nil => cases h
  | cons top below ih =>
      obtain ⟨topFile, m, rest⟩ := top
      cases rest with
      | nil =>
          obtain ⟨rest, below', hsuffix, hframes⟩ := ih h
          exact ⟨rest, below', hsuffix.trans (List.suffix_cons _ _), hframes⟩
      | cons text' rest =>
          cases h
          exact ⟨rest, below, List.suffix_rfl, rfl⟩

theorem exists_of_next (h : lib.next = (some (l, text), lib')) :
    ∃ rest below, ⟨l.file, l.line, text :: rest⟩ :: below <:+ lib.stack ∧
      lib' = { lib with stack := ⟨l.file, l.line + 1, rest⟩ :: below } := by
  unfold next at h
  cases hnext : nextOf lib.stack with
  | mk found stack =>
      rw [hnext] at h
      cases found with
      | none => cases h
      | some found =>
          obtain ⟨file, n, text'⟩ := found
          cases h
          obtain ⟨rest, below, hsuffix, rfl⟩ := exists_of_nextOf hnext
          exact ⟨rest, below, hsuffix, rfl⟩

theorem Orderly.next (h : Orderly lib) (hnext : lib.next = (some (l, text), lib')) :
    Orderly lib' := by
  obtain ⟨rest, below, hsuffix, rfl⟩ := exists_of_next hnext
  refine ⟨h.nodup.sublist (hsuffix.map Frame.file).sublist, fun frame hframe => ?_⟩
  rcases List.mem_cons.1 hframe with rfl | hframe
  · exact h.entered ⟨l.file, l.line, text :: rest⟩ (hsuffix.subset List.mem_cons_self)
  · exact h.entered frame (hsuffix.subset (List.mem_cons_of_mem _ hframe))

theorem Orderly.ahead (h : Orderly lib) (hnext : lib.next = (some (l, text), lib')) :
    Ahead lib' l.file (l.line + 1) := by
  obtain ⟨rest, below, hsuffix, rfl⟩ := exists_of_next hnext
  have hnodup := h.nodup.sublist (hsuffix.map Frame.file).sublist
  have htop := hsuffix.subset List.mem_cons_self
  refine ⟨h.entered _ htop, fun frame hframe hfile => ?_⟩
  rcases List.mem_cons.1 hframe with rfl | hframe
  · exact Nat.le_refl _
  · exact absurd (List.mem_map.2 ⟨frame, hframe, hfile⟩) (List.nodup_cons.1 hnodup).1

theorem Ahead.le {n : Nat} (h : Ahead lib file n)
    (hnext : lib.next = (some (l, text), lib')) (hfile : l.file = file) : n ≤ l.line := by
  obtain ⟨rest, below, hsuffix, rfl⟩ := exists_of_next hnext
  exact h.frames ⟨l.file, l.line, text :: rest⟩ (hsuffix.subset List.mem_cons_self) hfile

theorem Ahead.next {n : Nat} (h : Ahead lib file n)
    (hnext : lib.next = (some (l, text), lib')) :
    Ahead lib' file n := by
  have hle := h.le hnext
  obtain ⟨rest, below, hsuffix, rfl⟩ := exists_of_next hnext
  refine ⟨h.entered, fun frame hframe hfile => ?_⟩
  rcases List.mem_cons.1 hframe with rfl | hframe
  · exact Nat.le_succ_of_le (hle hfile)
  · exact h.frames frame (hsuffix.subset (List.mem_cons_of_mem _ hframe)) hfile

theorem Entered.grown (h : lib.Entered file) (hgrown : Grown d lib lib')
    (hopened : lib.opened ⊆ lib'.opened) : lib'.Entered file := by
  obtain ⟨s, hs, hpath⟩ := h
  obtain ⟨s', hs', hsource⟩ := hgrown.source hs
  refine ⟨s', hs', fun path hmem => ?_⟩
  rw [hsource.path?_eq] at hmem
  obtain ⟨q, hq, hsame⟩ := List.any_eq_true.1 (hpath path hmem)
  exact List.any_eq_true.2 ⟨q, hopened hq, hsame⟩

private theorem entered_enter (hs : lib.source? file = some s) (lines : List String) :
    (lib.enter file s lines).Entered file := by
  refine ⟨_, source?_enter hs lines, fun path hpath => ?_⟩
  refine List.any_eq_true.2 ⟨path, ?_, path.same_refl⟩
  exact List.mem_append_left _ (Option.mem_toList.2 hpath)

/-- A source that was not entered before is put on top of those being read. -/
structure Enters (d : Disk) (lib lib' : Library) (file : FileId) (lines : List String) :
    Prop where
  new : ¬ lib.Entered file
  grown : Grown d lib lib'
  opened : lib.opened ⊆ lib'.opened
  stack : lib'.stack = ⟨file, 0, lines⟩ :: lib.stack
  entered : lib'.Entered file

private theorem not_entered_of_find? {path : Path} (hfind : lib'.find? path = some file)
    (hgrown : Grown d lib lib') (hopened : ¬ lib.opened.any path.same) :
    ¬ lib.Entered file := by
  rintro ⟨s, hs, hpath⟩
  obtain ⟨s', hs', hsource⟩ := hgrown.source hs
  obtain ⟨⟨s'', hs'', hsame⟩, -⟩ := find?_eq_some_iff.1 hfind
  cases hs'.symm.trans hs''
  obtain ⟨q, hq, hpathq⟩ := (Option.any_eq_true _ _).1 hsame
  rw [hsource.path?_eq] at hq
  obtain ⟨r, hr, hqr⟩ := List.any_eq_true.1 (hpath q hq)
  refine hopened (List.any_eq_true.2 ⟨r, hr, ?_⟩)
  exact Path.same_iff.2 ((Path.same_iff.1 hpathq).trans (Path.same_iff.1 hqr))

private theorem enters_of_includeFile {name : String} {entered : Bool}
    (h : lib.includeFile d name = (.ok entered, lib')) :
    lib' = lib ∨ ∃ file lines, Enters d lib lib' file lines := by
  have hgrown := grown_includeFile h
  rw [includeFile_eq_ok_iff] at h
  split at h
  · exact .inl h.2
  · rename_i hopened
    obtain ⟨-, s, lines, hs, -, rfl⟩ := h
    refine .inr ⟨_, lines, ?_, hgrown, ?_, ?_, entered_enter hs lines⟩
    · exact not_entered_of_find? (find?_register _) (grown_register (d := d) _) hopened
    · intro path hpath
      refine List.mem_append_right _ ?_
      rwa [opened_register]
    · change _ :: (lib.register _).2.stack = _
      rw [stack_register]

theorem Orderly.includeFile {name : String} {entered : Bool} (h : Orderly lib)
    (hinclude : lib.includeFile d name = (.ok entered, lib')) : Orderly lib' := by
  obtain rfl | ⟨file, lines, henters⟩ := enters_of_includeFile hinclude
  · exact h
  · constructor
    · rw [henters.stack, List.map_cons, List.nodup_cons]
      refine ⟨fun hmem => ?_, h.nodup⟩
      obtain ⟨frame, hframe, hfile⟩ := List.mem_map.1 hmem
      have := h.entered frame hframe
      rw [hfile] at this
      exact henters.new this
    · intro frame hframe
      rw [henters.stack] at hframe
      rcases List.mem_cons.1 hframe with rfl | hframe
      · exact henters.entered
      · exact (h.entered frame hframe).grown henters.grown henters.opened

theorem Ahead.includeFile {name : String} {entered : Bool} {n : Nat}
    (h : Ahead lib file n) (hinclude : lib.includeFile d name = (.ok entered, lib')) :
    Ahead lib' file n := by
  obtain rfl | ⟨file', lines, henters⟩ := enters_of_includeFile hinclude
  · exact h
  · refine ⟨h.entered.grown henters.grown henters.opened, fun frame hframe hfile => ?_⟩
    rw [henters.stack] at hframe
    rcases List.mem_cons.1 hframe with rfl | hframe
    · subst hfile
      exact absurd h.entered henters.new
    · exact h.frames frame hframe hfile

theorem Goes.orderly {file? : Option String} (h : Goes d lib file? lib')
    (horderly : Orderly lib) :
    Orderly lib' := by
  cases h with
  | on => exact horderly
  | into inclusion => exact horderly.includeFile inclusion

theorem Goes.ahead {file? : Option String} {n : Nat} (h : Goes d lib file? lib')
    (hahead : Ahead lib file n) : Ahead lib' file n := by
  cases h with
  | on => exact hahead
  | into inclusion => exact hahead.includeFile inclusion

theorem orderly_start (h : lib.start d file = (.ok (), lib')) : Orderly lib' := by
  obtain ⟨s, lines, hs, -, rfl⟩ := start_eq_ok_iff.1 h
  have hreset : lib.reset.source? file = some s := hs
  refine ⟨List.pairwise_singleton _ _, fun frame hframe => ?_⟩
  rw [List.mem_singleton.1 hframe]
  exact entered_enter hreset lines

end Library

end Breadboard
