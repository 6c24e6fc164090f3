import Breadboard.Proofs.Source.Extent
import Breadboard.Proofs.Token.LetterCase

namespace Breadboard

/-! Lines. -/

namespace Text

private theorem linesOf_cons {c : Char} {cs : List Char} (hfeed : c ≠ '\n')
    (hreturn : c = '\r' → cs.head? ≠ some '\n') :
    linesOf (c :: cs) =
      match linesOf cs with
      | [] => [[c]]
      | line :: lines => (c :: line) :: lines := by
  rw [linesOf.eq_def (c :: cs)]
  split
  · rename_i hnil
    cases hnil
  · rename_i hcons
    cases hcons
    exact absurd rfl hfeed
  · rename_i hcons
    cases hcons
    exact absurd rfl (hreturn rfl)
  · rename_i hcons
    cases hcons
    rfl

/-- The first line goes on from where the text is, and every other one
starts outside of literals. -/
def uncasedLines (s : LexState) : List (List Char) → List (List Char)
  | [] => []
  | line :: lines => uncasedFrom s line :: lines.map (uncasedFrom .code)

theorem uncasedLines_code (lines : List (List Char)) :
    uncasedLines .code lines = lines.map (uncasedFrom .code) := by
  cases lines <;> rfl

private theorem linesOf_uncasedFrom (s : LexState) (cs : List Char) :
    linesOf (uncasedFrom s cs) = uncasedLines s (linesOf cs) := by
  have hfeed : ∀ {s : LexState} {c : Char}, s.uncased c = '\n' ↔ c = '\n' :=
    LexState.uncased_eq_iff rfl
  have hreturn : ∀ {s : LexState} {c : Char}, s.uncased c = '\r' ↔ c = '\r' :=
    LexState.uncased_eq_iff rfl
  have hhead : ∀ (s : LexState) (cs : List Char),
      (uncasedFrom s cs).head? = some '\n' ↔ cs.head? = some '\n' := by
    rintro s (_ | ⟨c, cs⟩)
    · rfl
    · simp [uncasedFrom_cons, hfeed]
  have hbreak : ∀ (s : LexState) (c : Char) (rest : List Char),
      (∀ rest', c = '\r' → rest = '\n' :: rest' → False) →
      s.uncased c = '\r' → (uncasedFrom (s.after c) rest).head? ≠ some '\n' := by
    intro s c rest hnone hc hfirst
    obtain ⟨rest', hrest⟩ := List.head?_eq_some_iff.1 ((hhead _ _).1 hfirst)
    exact hnone rest' (hreturn.1 hc) hrest
  fun_induction linesOf cs generalizing s with
  | case1 => rfl
  | case2 rest ih =>
      rw [uncasedFrom_cons, hfeed.2 rfl, linesOf]
      exact congrArg ([] :: ·) ((ih .code).trans (uncasedLines_code _))
  | case3 rest ih =>
      rw [uncasedFrom_cons, hreturn.2 rfl, uncasedFrom_cons, hfeed.2 rfl, linesOf]
      exact congrArg ([] :: ·) ((ih .code).trans (uncasedLines_code _))
  | case4 c rest hnofeed hnoreturn hnone ih =>
      rw [uncasedFrom_cons, linesOf_cons (mt hfeed.1 hnofeed) (hbreak s c rest hnoreturn),
        ih, hnone]
      rfl
  | case5 c rest hnofeed hnoreturn line lines hsome ih =>
      rw [uncasedFrom_cons, linesOf_cons (mt hfeed.1 hnofeed) (hbreak s c rest hnoreturn),
        ih, hsome]
      rfl

theorem splitLines_uncased (text : String) :
    splitLines (uncased text) = (splitLines text).map uncased := by
  have hlines := linesOf_uncasedFrom .code text.toList
  rw [uncasedLines_code] at hlines
  unfold splitLines Breadboard.uncased
  rw [String.toList_ofList, hlines, List.map_map, List.map_map]
  apply List.map_congr_left
  intro line _
  simp

end Text

/-- Both give something, which is the same under `f`, or both fail for the same reason. -/
inductive SameUnder {ε α β : Type} (f : α → β) : Except ε α → Except ε α → Prop
  | ok {a a' : α} (same : f a' = f a) : SameUnder f (.ok a) (.ok a')
  | error (e : ε) : SameUnder f (.error e) (.error e)

/-! Disks. -/

/-- What may be at one place of two trees that differ only in the case of letters. -/
inductive DiskNode.Recased : Option DiskNode → Option DiskNode → Prop
  | nothing : Recased none none
  | directory : Recased (some .directory) (some .directory)
  | file {content content' : List UInt8}
      (text : (Text.decodeUtf8? content').map uncased =
        (Text.decodeUtf8? content).map uncased) :
      Recased (some (.file content)) (some (.file content'))

private theorem DiskNode.Recased.isSome_eq {node? node'? : Option DiskNode}
    (h : Recased node? node'?) :
    node'?.isSome = node?.isSome := by
  cases h with
  | _ => rfl

/-- The same directories, and files that differ only in the case of
letters outside of literals. -/
structure Disk.Recased (d d' : Disk) : Prop where
  workingDirectory : d'.workingDirectory = d.workingDirectory
  nodes : ∀ place, DiskNode.Recased (d.node? place) (d'.node? place)

namespace Disk.Recased

variable {d d' : Disk}

theorem refl (d : Disk) : Recased d d := by
  refine ⟨rfl, fun place => ?_⟩
  cases d.node? place with
  | none => exact .nothing
  | some node =>
      cases node with
      | directory => exact .directory
      | file content => exact .file rfl

theorem walk_eq (h : Recased d d') (place pieces : List String) :
    d'.walk place pieces = d.walk place pieces := by
  induction pieces generalizing place with
  | nil => rfl
  | cons piece rest ih =>
      have hhere := h.nodes place
      have hthere := (h.nodes (place ++ [piece])).isSome_eq
      unfold walk
      generalize d.node? place = node?, d'.node? place = node'? at hhere ⊢
      cases hhere with
      | nothing => rfl
      | file => rfl
      | directory =>
          dsimp only
          rw [hthere, ih, ih, ih]

theorem resolve_eq (h : Recased d d') (p : Path) : d'.resolve p = d.resolve p := by
  unfold resolve startOf
  rw [h.workingDirectory]
  exact congrArg (piecesToWalk p >>= ·) (funext (h.walk_eq _))

private theorem canonical_eq (h : Recased d d') (p : Path) :
    d'.canonical p = d.canonical p := by
  unfold canonical
  rw [h.resolve_eq]

private theorem isFile_eq (h : Recased d d') (p : Path) : d'.isFile p = d.isFile p := by
  unfold isFile
  rw [h.resolve_eq]
  cases d.resolve p with
  | error e => rfl
  | ok place =>
      have hnodes := h.nodes place
      dsimp only
      generalize d.node? place = node?, d'.node? place = node'? at hnodes ⊢
      cases hnodes with
      | _ => rfl

theorem readText (h : Recased d d') (p : Path) :
    SameUnder uncased (d.readText p) (d'.readText p) := by
  unfold Disk.readText open?
  rw [h.resolve_eq]
  cases d.resolve p with
  | error e => exact .error e
  | ok place =>
      have hnodes := h.nodes place
      simp only [bind, Except.bind, contentAt]
      generalize d.node? place = node?, d'.node? place = node'? at hnodes ⊢
      cases hnodes with
      | nothing => exact .error _
      | directory => exact .error _
      | @file content content' htext =>
          dsimp only
          cases hd : Text.decodeUtf8? content with
          | none =>
              rw [hd] at htext
              rw [Option.map_eq_none_iff.1 htext]
              exact .error _
          | some text =>
              rw [hd] at htext
              obtain ⟨text', hd', htext⟩ := Option.map_eq_some_iff.1 htext
              rw [hd']
              exact .ok htext

end Disk.Recased

/-! Sources. -/

def Source.folded (s : Source) : Source :=
  { s with lines? := s.lines?.map (List.map uncased) }

def Frame.folded (frame : Frame) : Frame :=
  { frame with rest := frame.rest.map uncased }

theorem Source.name_eq {s s' : Source} (h : s'.folded = s.folded) : s'.name = s.name := by
  have hname : s'.folded.name = s.folded.name := by rw [h]
  exact hname

theorem Source.path?_eq {s s' : Source} (h : s'.folded = s.folded) :
    s'.path? = s.path? := by
  have hpath : s'.folded.path? = s.folded.path? := by rw [h]
  exact hpath

private theorem Source.load_recased {d d' : Disk} {s s' : Source} (hdisk : d.Recased d')
    (h : s'.folded = s.folded) :
    SameUnder (List.map uncased) (s.load d) (s'.load d') := by
  have hlines : s'.lines?.map (List.map uncased) = s.lines?.map (List.map uncased) := by
    change s'.folded.lines? = s.folded.lines?
    rw [h]
  unfold load
  rw [Source.path?_eq h]
  cases hs : s.lines? with
  | some lines =>
      rw [hs] at hlines
      obtain ⟨lines', hs', hlines⟩ := Option.map_eq_some_iff.1 hlines
      rw [hs']
      exact .ok hlines
  | none =>
      rw [hs] at hlines
      rw [Option.map_eq_none_iff.1 hlines]
      cases s.path? with
      | none => exact .error _
      | some path =>
          have hread := hdisk.readText path
          dsimp only
          generalize d.readText path = read, d'.readText path = read' at hread ⊢
          cases hread with
          | error e => exact .error e
          | ok htext =>
              refine .ok ?_
              rw [← Text.splitLines_uncased, ← Text.splitLines_uncased, htext]

namespace Library

def folded (lib : Library) : Library :=
  { lib with
    sources := lib.sources.map Source.folded, stack := lib.stack.map Frame.folded }

def Recased (lib lib' : Library) : Prop :=
  lib'.folded = lib.folded

variable {d d' : Disk} {lib lib' : Library}

theorem source?_folded (lib : Library) (file : FileId) :
    lib.folded.source? file = (lib.source? file).map Source.folded :=
  List.getElem?_map

private theorem nameOf_folded (lib : Library) (file : FileId) :
    lib.folded.nameOf file = lib.nameOf file := by
  unfold nameOf name?
  rw [source?_folded]
  cases lib.source? file <;> rfl

private theorem path?_folded (lib : Library) (file : FileId) :
    lib.folded.path? file = lib.path? file := by
  unfold path?
  rw [source?_folded]
  cases lib.source? file <;> rfl

private theorem find?_folded (lib : Library) (path : Path) :
    lib.folded.find? path = lib.find? path := by
  unfold find? folded
  rw [List.findIdx?_map]
  rfl

private theorem included_folded (lib : Library) (d : Disk) (name : String) :
    lib.folded.included d name = lib.included d name := by
  have hcurrent : lib.folded.current? = lib.current? := by
    unfold current? folded
    cases lib.stack <;> rfl
  have hpath : lib.folded.path? = lib.path? := funext lib.path?_folded
  unfold included resolveInclude
  rw [hcurrent, hpath]
  rfl

theorem folded_push (lib : Library) (s : Source) :
    (lib.push s).2.folded = (lib.folded.push s.folded).2 := by
  unfold push folded
  simp

private theorem folded_enter (lib : Library) (file : FileId) (s : Source)
    (lines : List String) :
    (lib.enter file s lines).folded =
      lib.folded.enter file s.folded (lines.map uncased) := by
  unfold enter folded
  simp [Source.folded, Frame.folded]

private theorem nextOf_folded (frames : List Frame) :
    nextOf (frames.map Frame.folded) =
      ((nextOf frames).1.map fun r => (r.1, r.2.1, uncased r.2.2),
        (nextOf frames).2.map Frame.folded) := by
  induction frames with
  | nil => rfl
  | cons frame frames ih =>
      obtain ⟨file, n, rest⟩ := frame
      cases rest with
      | nil => exact ih
      | cons text rest => rfl

private theorem next_folded (lib : Library) :
    lib.folded.next = (lib.next.1.map (Prod.map id uncased), lib.next.2.folded) := by
  have hnext := nextOf_folded lib.stack
  unfold next
  rw [show lib.folded.stack = lib.stack.map Frame.folded from rfl, hnext]
  dsimp only
  cases (nextOf lib.stack).1 with
  | none => rfl
  | some r =>
      obtain ⟨file, n, text⟩ := r
      have hname := nameOf_folded { lib with stack := (nextOf lib.stack).2 } file
      exact Prod.ext (congrArg (fun name => some (Location.mk file name n, uncased text))
        hname) rfl

private theorem folded_register (lib : Library) (path : Path) :
    (lib.register path).1 = (lib.folded.register path).1 ∧
      (lib.register path).2.folded = (lib.folded.register path).2 := by
  unfold register
  rw [find?_folded]
  cases lib.find? path with
  | some file => exact ⟨rfl, rfl⟩
  | none => exact ⟨(List.length_map _).symm, folded_push lib _⟩

namespace Recased

theorem open? (h : lib.Recased lib') (hdisk : d.Recased d') (file : FileId) :
    SameUnder folded (lib.open? d file) (lib'.open? d' file) := by
  have hsource : (lib'.source? file).map Source.folded =
    (lib.source? file).map Source.folded := by
    rw [← source?_folded, ← source?_folded, h]
  unfold Library.open?
  cases hs : lib.source? file with
  | none =>
      rw [hs] at hsource
      rw [Option.map_eq_none_iff.1 hsource]
      exact .error _
  | some s =>
      rw [hs] at hsource
      obtain ⟨s', hs', hsame⟩ := Option.map_eq_some_iff.1 hsource
      have hload := Source.load_recased hdisk hsame
      rw [hs']
      dsimp only
      generalize s.load d = lines, s'.load d' = lines' at hload ⊢
      cases hload with
      | error reason =>
          have hpath : s'.attemptedPath = s.attemptedPath := by
            unfold Source.attemptedPath
            rw [Source.path?_eq hsame, Source.name_eq hsame]
          dsimp only
          rw [hpath]
          exact .error _
      | ok hlines =>
          refine .ok ?_
          rw [folded_enter, folded_enter, hsame, hlines, h]

theorem start (h : lib.Recased lib') (hdisk : d.Recased d') (root : FileId) :
    (lib'.start d' root).1 = (lib.start d root).1 ∧
      (lib.start d root).2.Recased (lib'.start d' root).2 := by
  have hreset : lib.reset.Recased lib'.reset := congrArg reset h
  have hopen := hreset.open? hdisk root
  unfold Library.start
  generalize lib.reset.open? d root = opened, lib'.reset.open? d' root =
    opened' at hopen ⊢
  cases hopen with
  | error e => exact ⟨rfl, hreset⟩
  | ok hopen => exact ⟨rfl, hopen⟩

theorem next (h : lib.Recased lib') :
    lib'.next.1.map (Prod.map id uncased) = lib.next.1.map (Prod.map id uncased) ∧
      lib.next.2.Recased lib'.next.2 := by
  have hnext : lib'.folded.next = lib.folded.next := by rw [h]
  rw [next_folded, next_folded] at hnext
  exact Prod.mk.inj hnext

theorem included_eq (h : lib.Recased lib') (hdisk : d.Recased d') (name : String) :
    lib'.included d' name = lib.included d name := by
  have hfile : d'.isFile = d.isFile := funext hdisk.isFile_eq
  have hcanonical : d'.canonical = d.canonical := funext hdisk.canonical_eq
  have hincluded : lib'.folded.included d name = lib.folded.included d name := by rw [h]
  rw [included_folded, included_folded] at hincluded
  rw [← hincluded]
  unfold included resolveInclude
  rw [hfile, hcanonical]

theorem register (h : lib.Recased lib') (path : Path) :
    (lib'.register path).1 = (lib.register path).1 ∧
      (lib.register path).2.Recased (lib'.register path).2 := by
  obtain ⟨hfile, hlib⟩ := lib.folded_register path
  obtain ⟨hfile', hlib'⟩ := lib'.folded_register path
  rw [h] at hfile' hlib'
  exact ⟨hfile'.trans hfile.symm, hlib'.trans hlib.symm⟩

theorem push (h : lib.Recased lib') {s s' : Source} (hs : s'.folded = s.folded) :
    (lib'.push s').1 = (lib.push s).1 ∧ (lib.push s).2.Recased (lib'.push s').2 := by
  have hlength : lib'.folded.sources.length = lib.folded.sources.length := by rw [h]
  unfold folded at hlength
  rw [List.length_map, List.length_map] at hlength
  refine ⟨hlength, ?_⟩
  change (lib'.push s').2.folded = (lib.push s).2.folded
  rw [folded_push, folded_push, h, hs]

theorem addText (h : lib.Recased lib') (name : String) {text text' : String}
    (htext : uncased text' = uncased text) :
    (lib'.addText name text').1 = (lib.addText name text).1 ∧
      (lib.addText name text).2.Recased (lib'.addText name text').2 := by
  have hlines : (Text.splitLines text').map uncased =
    (Text.splitLines text).map uncased := by
    rw [← Text.splitLines_uncased, ← Text.splitLines_uncased, htext]
  exact h.push (congrArg (fun lines => Source.mk name none (some lines)) hlines)

theorem addFile (h : lib.Recased lib') (hdisk : d.Recased d') (path : Path) :
    (lib'.addFile d' path).1 = (lib.addFile d path).1 ∧
      (lib.addFile d path).2.Recased (lib'.addFile d' path).2 := by
  unfold Library.addFile
  rw [hdisk.canonical_eq]
  exact h.register _

theorem includeFile (h : lib.Recased lib') (hdisk : d.Recased d') (name : String) :
    (lib'.includeFile d' name).1 = (lib.includeFile d name).1 ∧
      (lib.includeFile d name).2.Recased (lib'.includeFile d' name).2 := by
  have hopened : lib'.opened = lib.opened := by
    change lib'.folded.opened = lib.folded.opened
    rw [h]
  rw [includeFile_eq, includeFile_eq, h.included_eq hdisk]
  dsimp only
  rw [hopened]
  split
  · exact ⟨rfl, h⟩
  · obtain ⟨hfile, hregistered⟩ := h.register (lib.included d name)
    have hopen := hregistered.open? hdisk (lib.register (lib.included d name)).1
    rw [hfile]
    generalize (lib.register (lib.included d name)).2.open? d _ = opened,
      (lib'.register (lib.included d name)).2.open? d' _ = opened' at hopen ⊢
    cases hopen with
    | error e => exact ⟨rfl, hregistered⟩
    | ok hopen => exact ⟨rfl, hopen⟩

theorem exists_next {line? : Option (Location × String)} {lib₁ : Library}
    (h : lib.Recased lib') (hnext : lib.next = (line?, lib₁)) :
    ∃ line'? lib₁', lib'.next = (line'?, lib₁') ∧
      line'?.map (Prod.map id uncased) = line?.map (Prod.map id uncased) ∧
      lib₁.Recased lib₁' := by
  obtain ⟨hline, hlib⟩ := h.next
  rw [hnext] at hline hlib
  exact ⟨_, _, rfl, hline, hlib⟩

theorem exists_includeFile {name : String} {result : Except OpenError Bool}
    {lib₁ : Library} (h : lib.Recased lib') (hdisk : d.Recased d')
    (hinclude : lib.includeFile d name = (result, lib₁)) :
    ∃ lib₁', lib'.includeFile d' name = (result, lib₁') ∧ lib₁.Recased lib₁' := by
  obtain ⟨hresult, hlib⟩ := h.includeFile hdisk name
  rw [hinclude] at hresult hlib
  exact ⟨(lib'.includeFile d' name).2, Prod.ext hresult rfl, hlib⟩

theorem exists_start {root : FileId} {result : Except OpenError Unit} {lib₁ : Library}
    (h : lib.Recased lib') (hdisk : d.Recased d')
    (hstart : lib.start d root = (result, lib₁)) :
    ∃ lib₁', lib'.start d' root = (result, lib₁') ∧ lib₁.Recased lib₁' := by
  obtain ⟨hresult, hlib⟩ := h.start hdisk root
  rw [hstart] at hresult hlib
  exact ⟨(lib'.start d' root).2, Prod.ext hresult rfl, hlib⟩

theorem goes {file? : Option String} {lib₁ : Library} (h : lib.Recased lib')
    (hdisk : d.Recased d') (hgoes : lib.Goes d file? lib₁) :
    ∃ lib₁', lib'.Goes d' file? lib₁' ∧ lib₁.Recased lib₁' := by
  cases hgoes with
  | on => exact ⟨_, .on, h⟩
  | into inclusion =>
      obtain ⟨_, hinclude, hlib⟩ := h.exists_includeFile hdisk inclusion
      exact ⟨_, .into hinclude, hlib⟩

end Recased

end Library

end Breadboard
