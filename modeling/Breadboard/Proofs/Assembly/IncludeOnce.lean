import Breadboard.Proofs.Assembly.Expansion
import Mathlib.Data.List.Nodup

namespace Breadboard

namespace Library

variable {d : Disk} {lib lib' lib₁ lib₂ : Library} {file : FileId} {s : Source}

def sourceLine (lib : Library) (line : Location × String) : Assembly.SourceLine :=
  ⟨lib.path? line.1.file, line.1.line, line.2⟩

def remainder (lib : Library) (frame : Frame) : Option Path × Nat × List String :=
  (lib.path? frame.file, frame.next, frame.rest)

theorem Grown.path?_eq (h : Grown d lib lib') (hfile : (lib.source? file).isSome) :
    lib'.path? file = lib.path? file := by
  obtain ⟨s, hs⟩ := Option.isSome_iff_exists.1 hfile
  obtain ⟨s', hs', hgrown⟩ := h.source hs
  simp [path?, hs, hs', hgrown.path?_eq]

private theorem Grown.remainder_eq (h : Grown d lib lib') (hregistered : lib.Registered)
    {frame : Frame} (hframe : frame ∈ lib.stack) :
    lib'.remainder frame = lib.remainder frame := by
  unfold remainder
  rw [h.path?_eq (hregistered frame hframe)]

end Library

namespace Assembly

variable {d : Disk} {dirs : List Path} {here? : Option Path} {n : Nat} {text : String}
  {lines : List String} {opened : List Path} {out : List SourceLine}
  {remainders : List (Option Path × Nat × List String)}

/-- The expansion of what remains of several sources, one after another. -/
inductive ExpandsAll (d : Disk) (dirs : List Path) :
    List (Option Path × Nat × List String) → List Path → List SourceLine → Prop
  | nil {opened : List Path} : ExpandsAll d dirs [] opened []
  | cons {here? : Option Path} {n : Nat} {lines : List String}
      {remainders : List (Option Path × Nat × List String)} {opened opened' : List Path}
      {out out' : List SourceLine} (top : Expands d dirs here? n lines opened out opened')
      (below : ExpandsAll d dirs remainders opened' out') :
      ExpandsAll d dirs ((here?, n, lines) :: remainders) opened (out ++ out')

private theorem ExpandsAll.of_nil
    (h : ExpandsAll d dirs ((here?, n, []) :: remainders) opened out) :
    ExpandsAll d dirs remainders opened out := by
  cases h with
  | cons top below =>
      cases top
      exact below

theorem ExpandsAll.eq_nil {lib : Library} {frames frames' : List Frame}
    (h : ExpandsAll d dirs (frames.map lib.remainder) opened out)
    (hnext : Library.nextOf frames = (none, frames')) : out = [] := by
  induction frames with
  | nil =>
      cases h
      rfl
  | cons top below ih =>
      obtain ⟨file, n, rest⟩ := top
      cases rest with
      | nil => exact ih h.of_nil hnext
      | cons text rest => cases hnext

private theorem ExpandsAll.of_nextOf {lib : Library} {frames frames' : List Frame}
    {file : FileId} (h : ExpandsAll d dirs (frames.map lib.remainder) opened out)
    (hnext : Library.nextOf frames = (some (file, n, text), frames')) :
    ∃ rest below, frames' = ⟨file, n + 1, rest⟩ :: below ∧
      ExpandsAll d dirs ((lib.path? file, n, text :: rest) :: below.map lib.remainder)
        opened out := by
  induction frames with
  | nil => cases hnext
  | cons top below ih =>
      obtain ⟨topFile, m, rest⟩ := top
      cases rest with
      | nil => exact ih h.of_nil hnext
      | cons text rest =>
          cases hnext
          exact ⟨rest, below, rfl, h⟩

private theorem ExpandsAll.exists_cons
    (h : ExpandsAll d dirs ((here?, n, text :: lines) :: remainders) opened out) :
    ∃ out', out = ⟨here?, n, text⟩ :: out' := by
  cases h with
  | cons top below => cases top <;> exact ⟨_, rfl⟩

variable {lib lib' lib₁ lib₂ : Library} {p : Pass} {l : Location} {r : PassResult}
  {read : List (Location × String)}

/-- What is open is the expansion that remains. -/
def Remains (d : Disk) (lib : Library) (out : List SourceLine) : Prop :=
  ExpandsAll d lib.searchDirs (lib.stack.map lib.remainder) lib.opened out

theorem Remains.of_next (h : Remains d lib out)
    (hnext : lib.next = (some (l, text), lib₁)) :
    ∃ rest below, lib₁.stack = ⟨l.file, l.line + 1, rest⟩ :: below ∧
      ExpandsAll d lib₁.searchDirs
        ((lib₁.path? l.file, l.line, text :: rest) :: below.map lib₁.remainder)
          lib₁.opened out := by
  unfold Library.next at hnext
  cases hframes : Library.nextOf lib.stack with
  | mk found stack =>
      rw [hframes] at hnext
      cases found with
      | none => cases hnext
      | some found =>
          obtain ⟨file, n, text⟩ := found
          cases hnext
          exact h.of_nextOf hframes

theorem Remains.eq_nil (h : Remains d lib out) (hnext : lib.next = (none, lib')) :
    out = [] := by
  unfold Library.next at hnext
  cases hframes : Library.nextOf lib.stack with
  | mk found stack =>
      rw [hframes] at hnext
      cases found with
      | none => exact ExpandsAll.eq_nil h hframes
      | some found => cases hnext

theorem included_eq {frame : Frame} {below : List Frame}
    (hstack : lib.stack = frame :: below) (name : String) :
    lib.included d name = d.includePath lib.searchDirs (lib.path? frame.file) name := by
  unfold Library.included Library.resolveInclude Library.current?
  rw [hstack]
  rfl

private theorem remains_of_includeFile {name : String} {entered : Bool} {path : Path}
    {inner : List SourceLine} {opened₁ : List Path} (hfaithful : lib.Faithful d)
    (hregistered : lib.Registered)
    (inclusion : lib.includeFile d name = (.ok entered, lib'))
    (new : ¬ lib.opened.any (lib.included d name).same = true)
    (holds : d.Holds (lib.included d name) path lines)
    (into : Expands d lib.searchDirs (some path) 0 lines (path :: lib.opened)
      inner opened₁)
    (after : ExpandsAll d lib.searchDirs (lib.stack.map lib.remainder) opened₁ out) :
    Remains d lib' (inner ++ out) := by
  obtain ⟨included, path', lines', hholds, hpath, hstack, hopened⟩ :=
    hfaithful.holds_of_includeFile inclusion new
  obtain ⟨rfl, rfl⟩ := holds.unique hholds
  have hgrown := Library.grown_includeFile inclusion
  have hremainders : lib'.stack.map lib'.remainder =
      (some path', 0, lines') :: lib.stack.map lib.remainder := by
    rw [hstack, List.map_cons, Library.remainder, hpath]
    exact congrArg _ (List.map_congr_left fun frame hframe =>
      hgrown.remainder_eq hregistered hframe)
  rw [Remains, hremainders, hopened, hgrown.searchDirs]
  exact .cons into after

private theorem remains_of_goes {file : FileId} {rest : List String} {below : List Frame}
    (hstack : lib.stack = ⟨file, n + 1, rest⟩ :: below)
    (hexpands : ExpandsAll d lib.searchDirs
      ((lib.path? file, n, text :: rest) :: below.map lib.remainder) lib.opened out)
    (hfaithful : lib.Faithful d) (hregistered : lib.Registered)
    (hgoes : lib.Goes d (includedName? (.ofString text)) lib') :
    ∃ out', out = ⟨lib.path? file, n, text⟩ :: out' ∧ Remains d lib' out' := by
  have hincluded := included_eq (d := d) hstack
  have hrest : lib.stack.map lib.remainder =
      (lib.path? file, n + 1, rest) :: below.map lib.remainder := by
    rw [hstack]
    rfl
  generalize hname : includedName? (.ofString text) = name? at hgoes
  cases hexpands with
  | cons top after =>
      cases top with
      | plain no_name expands =>
          cases no_name.symm.trans hname
          cases hgoes
          refine ⟨_, rfl, ?_⟩
          rw [Remains, hrest]
          exact .cons expands after
      | again name_eq old expands =>
          cases name_eq.symm.trans hname
          cases hgoes with
          | into inclusion =>
              rw [Library.includeFile_eq_ok_iff, hincluded, if_pos old] at inclusion
              obtain ⟨-, rfl⟩ := inclusion
              refine ⟨_, rfl, ?_⟩
              rw [Remains, hrest]
              exact .cons expands after
      | into name_eq new holds inner expands =>
          cases name_eq.symm.trans hname
          cases hgoes with
          | into inclusion =>
              rw [← hincluded] at new holds
              refine ⟨_, congrArg (_ :: ·) (List.append_assoc _ _ _), ?_⟩
              exact remains_of_includeFile hfaithful hregistered inclusion new holds inner
                (hrest ▸ .cons expands after)
      | missing name_eq new no_file expands =>
          cases name_eq.symm.trans hname
          cases hgoes with
          | into inclusion =>
              obtain ⟨_, path, lines, hholds, -⟩ :=
                hfaithful.holds_of_includeFile inclusion (by rwa [hincluded])
              rw [hincluded] at hholds
              exact absurd hholds (no_file path lines)

/-! Runs. -/

theorem Runs.grown (h : Runs d lib p read r) : Library.Grown d lib r.library := by
  induction h with
  | done next | refused next => exact Library.grown_of_next next
  | unopened next _ inclusion =>
      exact (Library.grown_of_next next).trans (Library.grown_includeFile inclusion)
  | line next _ goes _ ih =>
    exact (Library.grown_of_next next).trans (goes.grown.trans ih)

theorem Runs.faithful (h : Runs d lib p read r) (hfaithful : lib.Faithful d) :
    r.library.Faithful d := by
  induction h with
  | done next | refused next => exact hfaithful.of_next next
  | unopened next _ inclusion => exact (hfaithful.of_next next).of_includeFile inclusion
  | line next _ goes _ ih => exact ih ((hfaithful.of_next next).of_goes goes)

private theorem sourceLine_eq {frame : Frame} {below : List Frame}
    (hgrown : Library.Grown d lib lib') (hregistered : lib.Registered)
    (hstack : lib.stack = frame :: below) (hfile : frame.file = l.file) :
    lib'.sourceLine (l, text) = ⟨lib.path? l.file, l.line, text⟩ := by
  have hmem : frame ∈ lib.stack := hstack ▸ List.mem_cons_self
  rw [Library.sourceLine, hgrown.path?_eq (hfile ▸ hregistered frame hmem)]

theorem Remains.head (h : Remains d lib out) (hregistered : lib.Registered)
    (hnext : lib.next = (some (l, text), lib₁)) (hgrown : Library.Grown d lib₁ lib') :
    [lib'.sourceLine (l, text)] <+: out := by
  obtain ⟨rest, below, hstack, hexpands⟩ := h.of_next hnext
  obtain ⟨out', rfl⟩ := hexpands.exists_cons
  rw [sourceLine_eq hgrown (hregistered.of_next hnext) hstack rfl]
  exact List.prefix_append _ _

/-- The run lemma: what is read is the expansion that remains. -/
theorem Runs.follows (h : Runs d lib p read r) (hfaithful : lib.Faithful d)
    (hregistered : lib.Registered) (hremains : Remains d lib out) :
    read.map r.library.sourceLine <+: out ∧
      (r.error? = none → read.map r.library.sourceLine = out) := by
  induction h generalizing out with
  | done next =>
      rw [hremains.eq_nil next]
      exact ⟨List.prefix_rfl, fun _ => rfl⟩
  | refused next => exact ⟨hremains.head hregistered next (.refl d _), nofun⟩
  | unopened next _ inclusion =>
      exact ⟨hremains.head hregistered next (Library.grown_includeFile inclusion), nofun⟩
  | line next read goes rest ih =>
      obtain ⟨_, below, hstack, hexpands⟩ := hremains.of_next next
      have hfaithful₁ := hfaithful.of_next next
      have hregistered₁ := hregistered.of_next next
      obtain ⟨out', rfl, hremains'⟩ :=
        remains_of_goes hstack hexpands hfaithful₁ hregistered₁
        (included_of_assembleLine read ▸ goes)
      obtain ⟨hpart, hall⟩ :=
        ih (hfaithful₁.of_goes goes) (goes.registered hregistered₁) hremains'
      rw [List.map_cons,
        sourceLine_eq (goes.grown.trans rest.grown) hregistered₁ hstack rfl]
      exact ⟨List.cons_prefix_cons.2 ⟨rfl, hpart⟩, fun hnone => congrArg _ (hall hnone)⟩

/-! The root is the only text that is read: what is included is a file. -/

def Rooted (root : FileId) (lib : Library) : Prop :=
  ∀ frame ∈ lib.stack, lib.path? frame.file = none → frame.file = root

theorem Rooted.of_next {root : FileId} {line? : Option (Location × String)}
    (h : Rooted root lib) (hnext : lib.next = (line?, lib₁)) : Rooted root lib₁ := by
  obtain rfl : lib.next.2 = lib₁ := congrArg Prod.snd hnext
  intro frame hframe hpath
  obtain ⟨frame', hmem, hfile⟩ := Library.mem_nextOf hframe
  exact hfile ▸ h frame' hmem (hfile ▸ hpath)

theorem Rooted.of_goes {root : FileId} {file? : Option String} (h : Rooted root lib)
    (hfaithful : lib.Faithful d) (hregistered : lib.Registered)
    (hgoes : lib.Goes d file? lib') :
    Rooted root lib' := by
  cases hgoes with
  | on => exact h
  | @into name _ _ inclusion =>
      by_cases hopened : lib.opened.any (lib.included d name).same
      · rw [Library.includeFile_eq_ok_iff, if_pos hopened] at inclusion
        rw [inclusion.2]
        exact h
      · obtain ⟨file, path, lines, -, hpath, hstack, -⟩ :=
          hfaithful.holds_of_includeFile inclusion hopened
        intro frame hframe hnone
        rw [hstack] at hframe
        rcases List.mem_cons.1 hframe with rfl | hframe
        · cases hnone.symm.trans hpath
        · have hgrown := Library.grown_includeFile inclusion
          exact h frame hframe
            ((hgrown.path?_eq (hregistered frame hframe)).symm.trans hnone)

private theorem Runs.eq_root {root : FileId} (h : Runs d lib p read r)
    (hrooted : Rooted root lib) (hfaithful : lib.Faithful d)
    (hregistered : lib.Registered) {line : Location × String} (hline : line ∈ read)
    (hpath : r.library.path? line.1.file = none) : line.1.file = root := by
  have hfirst : ∀ {lib lib₁ lib' : Library} {l : Location} {text : String},
    Rooted root lib →
      lib.Registered → lib.next = (some (l, text), lib₁) → Library.Grown d lib₁ lib' →
      lib'.path? l.file = none → l.file = root := by
    intro lib lib₁ lib' l text hrooted hregistered hnext hgrown hpath
    obtain ⟨rest, below, -, rfl⟩ := Library.exists_of_next hnext
    have hframe : (⟨l.file, l.line + 1, rest⟩ : Frame) ∈ _ :: below := List.mem_cons_self
    refine hrooted.of_next hnext _ hframe ?_
    exact (hgrown.path?_eq (hregistered.of_next hnext _ hframe)).symm.trans hpath
  induction h with
  | done => cases hline
  | refused next =>
      obtain rfl := List.mem_singleton.1 hline
      exact hfirst hrooted hregistered next (.refl d _) hpath
  | unopened next _ inclusion =>
      obtain rfl := List.mem_singleton.1 hline
      exact hfirst hrooted hregistered next (Library.grown_includeFile inclusion) hpath
  | line next _ goes rest ih =>
      rcases List.mem_cons.1 hline with rfl | hline
      · exact hfirst hrooted hregistered next (goes.grown.trans rest.grown) hpath
      · have hfaithful₁ := hfaithful.of_next next
        have hregistered₁ := hregistered.of_next next
        exact ih ((hrooted.of_next next).of_goes hfaithful₁ hregistered₁ goes)
          (hfaithful₁.of_goes goes) (goes.registered hregistered₁) hline hpath

/-! Passes. -/

/-- A pass reads an expansion: all of it, or all up to the line that it fails at. -/
structure Follows (d : Disk) (root : FileId) (lib : Library) (p : Pass) (r : PassResult)
    (read : List (Location × String)) (expansion : List SourceLine) : Prop where
  passes : Passes d root lib p read r
  agrees : read.map r.library.sourceLine <+: expansion
  complete : r.error? = none → read.map r.library.sourceLine = expansion
  fails : ∀ e, r.error? = some e → e.location? = read.getLast?.map Prod.fst
  once : (read.map fun line => (line.1.file, line.1.line)).Nodup
  eq_root : ∀ line ∈ read, r.library.path? line.1.file = none → line.1.file = root

theorem Passes.grown {root : FileId} (h : Passes d root lib p read r) :
    Library.Grown d lib r.library := by
  cases h with
  | unopened start => exact Library.grown_start start
  | opened start runs => exact (Library.grown_start start).trans runs.grown

theorem Passes.faithful {root : FileId} (h : Passes d root lib p read r)
    (hfaithful : lib.Faithful d) : r.library.Faithful d := by
  cases h with
  | unopened start => exact hfaithful.of_start start
  | opened start runs => exact runs.faithful (hfaithful.of_start start)

private theorem once_of_agrees {lib : Library} (h : read.map lib.sourceLine <+: out)
    (hnodup : (out.map SourceLine.key).Nodup) :
    (read.map fun line => (line.1.file, line.1.line)).Nodup := by
  refine List.Nodup.of_map (Prod.map lib.path? id) ?_
  have hkeys := hnodup.sublist (h.sublist.map SourceLine.key)
  rw [List.map_map] at hkeys ⊢
  exact hkeys

theorem Passes.follows {root : FileId} {s : Source} (h : Passes d root lib p read r)
    (hfaithful : lib.Faithful d) (hs : lib.source? root = some s)
    (hexpands : ExpandsFrom d lib.searchDirs s out) :
    Follows d root lib p r read out := by
  have hnodup := hexpands.nodup
  cases h with
  | unopened start =>
      cases hexpands with
      | readable load =>
          cases start.symm.trans (Library.start_eq_ok_iff.2 ⟨s, _, hs, load, rfl⟩)
      | unreadable =>
          refine ⟨.unopened start, List.prefix_rfl, nofun, fun e he => ?_,
            List.nodup_nil, nofun⟩
          cases he
          rfl
  | opened start runs =>
      have hfaithful₀ := hfaithful.of_start start
      have hregistered := Library.registered_start start
      obtain ⟨s', lines, hs', hload, rfl⟩ := Library.start_eq_ok_iff.1 start
      cases hs.symm.trans hs'
      have hreset : lib.reset.source? root = some s := hs
      have hpath : (lib.reset.enter root s lines).path? root = s.path? := by
        rw [Library.path?, Library.source?_enter hreset]
        rfl
      cases hexpands with
      | unreadable load => cases hload.symm.trans load
      | @readable lines' out opened load expands =>
          cases hload.symm.trans load
          have hremains : Remains d (lib.reset.enter root s lines) (out ++ []) := by
            unfold Remains
            change ExpandsAll d lib.searchDirs
              [((lib.reset.enter root s lines).path? root, 0, lines)]
              (s.path?.toList ++ []) (out ++ [])
            rw [hpath, List.append_nil s.path?.toList]
            exact .cons expands .nil
          rw [List.append_nil] at hremains
          obtain ⟨hpart, hall⟩ := runs.follows hfaithful₀ hregistered hremains
          refine ⟨.opened start runs, hpart, hall, fun e he => ?_,
            once_of_agrees hpart hnodup, fun line hline => ?_⟩
          · obtain ⟨before, last, rfl, hlocation⟩ := runs.exists_last he
            rw [hlocation, List.getLast?_concat]
            rfl
          · refine runs.eq_root (fun frame hframe _ => ?_) hfaithful₀ hregistered hline
            rw [List.mem_singleton.1 hframe]

end Assembly

namespace Assembler

open Assembly

variable {a : Assembler} {d : Disk} {root : FileId} {s : Source}

/-- An assembler as it can come about while the disk stays as it is. -/
inductive Reached (d : Disk) : Assembler → Prop
  | new (flags : Flags) : Reached d { flags }
  | configure {a : Assembler} (before : Reached d a) (flags : Flags) :
    Reached d { a with flags }
  | addText {a : Assembler} (before : Reached d a) (name text : String) :
      Reached d (a.addText name text).2
  | addFile {a : Assembler} (before : Reached d a) (path : Path) :
    Reached d (a.addFile d path).2
  | assemble {a : Assembler} (before : Reached d a) (root : FileId) (m : Memory) :
      Reached d (a.assemble d root m).2.1

theorem faithful_runPass {lib : Library} {p : Pass} (h : lib.Faithful d) :
    (runPass d root lib p).library.Faithful d := by
  obtain ⟨read, hpasses⟩ := exists_passes d root lib p
  exact hpasses.faithful h

theorem Reached.faithful (h : a.Reached d) : a.library.Faithful d := by
  induction h with
  | new => exact fun s hs => by cases hs
  | configure _ _ ih => exact ih
  | addText _ name text ih => exact ih.addText name text
  | addFile _ path ih => exact ih.addFile path
  | assemble _ root m ih =>
      unfold Assembler.assemble
      dsimp only
      split
      · exact faithful_runPass ih
      · exact faithful_runPass (faithful_runPass ih)

/-- Both passes read the expansion of the program, which neither depends on what is
registered besides the root nor contains any line twice. -/
theorem passes_follow_expansion (h : a.Reached d) (hs : a.library.source? root = some s) :
    ∃ expansion, ExpandsFrom d a.flags.includeDirs s expansion ∧
      (∀ other, ExpandsFrom d a.flags.includeDirs s other → other = expansion) ∧
      (expansion.map SourceLine.key).Nodup ∧
      (∃ read, Follows d root a.prepared (.initial a.flags) (a.firstPass d root) read
        expansion) ∧
      ∃ read, Follows d root (a.firstPass d root).library (a.firstPass d root).pass.next
        (secondPass d root (a.firstPass d root)) read expansion := by
  obtain ⟨expansion, hexpands⟩ := exists_expandsFrom d a.flags.includeDirs s
  obtain ⟨read, hpasses⟩ := exists_passes d root a.prepared (.initial a.flags)
  have hfaithful : a.prepared.Faithful d := h.faithful
  have hgrown := hpasses.grown
  obtain ⟨s', hs', hsource⟩ := hgrown.source hs
  refine ⟨expansion, hexpands, fun other hother => hexpands.unique hother, hexpands.nodup,
    ⟨read, hpasses.follows hfaithful hs hexpands⟩, ?_⟩
  obtain ⟨reread, hpasses'⟩ := exists_passes d root (a.firstPass d root).library
    (a.firstPass d root).pass.next
  have hdirs : (a.firstPass d root).library.searchDirs = a.flags.includeDirs :=
    hgrown.searchDirs
  refine ⟨reread, hpasses'.follows (hpasses.faithful hfaithful) hs' ?_⟩
  rw [hdirs]
  exact hexpands.of_grown hsource

/-- Two files that include each other, and one of them itself. -/
def entwined : Disk :=
  (Disk.empty.put ⟨"/a"⟩ (.file (Text.encodeUtf8 " .include \"b\"\n .byte 1\n"))).put
    ⟨"/b"⟩ (.file (Text.encodeUtf8 "x: .include \"a\"\n .include \"b\"\n"))

def entwining : Assembler :=
  (addFile {} entwined ⟨"/a"⟩).2

private theorem expandsFrom_entwined : ExpandsFrom entwined [] ⟨"/a", some ⟨"/a"⟩, none⟩
    [⟨some ⟨"/a"⟩, 0, " .include \"b\""⟩, ⟨some ⟨"/b"⟩, 0, "x: .include \"a\""⟩,
      ⟨some ⟨"/b"⟩, 1, " .include \"b\""⟩, ⟨some ⟨"/a"⟩, 1, " .byte 1"⟩] := by
  have hload : (⟨"/a", some ⟨"/a"⟩, none⟩ : Source).load entwined =
      .ok [" .include \"b\"", " .byte 1"] := by decide +kernel
  have hfile : entwined.Holds (entwined.includePath [] (some ⟨"/a"⟩) "b") ⟨"/b"⟩
      ["x: .include \"a\"", " .include \"b\""] :=
    ⟨by decide +kernel, by decide +kernel, by decide +kernel⟩
  have ha : includedName? (.ofString "x: .include \"a\"") = some "a" := by decide +kernel
  have hb : includedName? (.ofString " .include \"b\"") = some "b" := by decide +kernel
  have hinner : Expands entwined [] (some ⟨"/b"⟩) 0 ["x: .include \"a\"",
    " .include \"b\""] [⟨"/b"⟩, ⟨"/a"⟩]
      [⟨some ⟨"/b"⟩, 0, "x: .include \"a\""⟩, ⟨some ⟨"/b"⟩, 1, " .include \"b\""⟩]
      [⟨"/b"⟩, ⟨"/a"⟩] :=
    .again ha (by decide +kernel) (.again hb (by decide +kernel) .nil)
  have hrest : Expands entwined [] (some ⟨"/a"⟩) 1 [" .byte 1"] [⟨"/b"⟩, ⟨"/a"⟩]
      [⟨some ⟨"/a"⟩, 1, " .byte 1"⟩] [⟨"/b"⟩, ⟨"/a"⟩] :=
    .plain (by decide +kernel) .nil
  exact .readable hload (.into hb (by decide +kernel) hfile hinner hrest)

/-- Each file includes the other, and both passes read each of the four lines once. -/
theorem passes_follow_expansion_entwined :
    entwining.Reached entwined ∧
      entwining.library.source? 0 = some ⟨"/a", some ⟨"/a"⟩, none⟩ ∧
      (secondPass entwined 0 (entwining.firstPass entwined 0)).error? = none ∧
      ∃ read, Follows entwined 0 (entwining.firstPass entwined 0).library
        (entwining.firstPass entwined 0).pass.next
        (secondPass entwined 0 (entwining.firstPass entwined 0)) read
        [⟨some ⟨"/a"⟩, 0, " .include \"b\""⟩, ⟨some ⟨"/b"⟩, 0, "x: .include \"a\""⟩,
          ⟨some ⟨"/b"⟩, 1, " .include \"b\""⟩, ⟨some ⟨"/a"⟩, 1, " .byte 1"⟩] := by
  have hreached : entwining.Reached entwined := .addFile (.new {}) _
  have hs : entwining.library.source? 0 = some ⟨"/a", some ⟨"/a"⟩, none⟩ := by
    decide +kernel
  obtain ⟨expansion, -, hunique, -, -, hsecond⟩ := passes_follow_expansion hreached hs
  refine ⟨hreached, hs, by decide +kernel, ?_⟩
  rw [hunique _ expandsFrom_entwined]
  exact hsecond

end Assembler

end Breadboard
