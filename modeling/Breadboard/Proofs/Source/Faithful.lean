import Breadboard.Proofs.Source.Extent
import Breadboard.Proofs.Source.Order

namespace Breadboard

namespace Disk

variable {d : Disk} {p q q' : Path} {lines lines' : List String}

private theorem components_absolutePath {place : List String} (h : Stands d place) :
    (absolutePath place).components = "/" :: place := by
  have htext : (absolutePath place).text.toList =
    '/' :: ("/".intercalate place).toList := by
    rw [absolutePath, String.toList_append]
    rfl
  have hsplit : (absolutePath place).splitHead = ("/", "/".intercalate place) := by
    unfold Path.splitHead
    rw [htext]
    exact congrArg _ (String.ofList_toList)
  have hpieces : (Path.pieces ("/".intercalate place)).filter (!Path.isEmptyPiece ·) =
    place := by
    cases place with
    | nil => decide
    | cons name names =>
        have hall := pieces_absolutePath h (List.cons_ne_nil _ _)
        unfold Path.pieces at hall ⊢
        rw [htext, Path.piecesOf, List.map_cons] at hall
        rw [(List.cons.inj hall).2, List.filter_eq_self]
        intro piece hpiece
        have hname := h.isName hpiece
        simp only [Path.isName, Bool.and_eq_true] at hname
        exact hname.1.1.1.1
  unfold Path.components
  rw [hsplit]
  exact congrArg _ hpieces

private theorem exists_place_of_readText {text : String} (hcanonical : d.canonical q = q)
    (h : d.readText q = .ok text) : ∃ place content,
      Stands d place ∧ (place, .file content) ∈ d.nodes ∧ q = absolutePath place := by
  obtain ⟨place, content, hresolve, hnode, -⟩ := exists_of_readText h
  refine ⟨place, content, stands_of_resolve hresolve, hnode, ?_⟩
  have hresolve' : d.resolve (d.canonical q) = .ok place := by rwa [hcanonical]
  rw [← canonical_of_resolve hresolve', hcanonical]

/-- The file that a path is written for: its canonical path, and its lines. -/
structure Holds (d : Disk) (p q : Path) (lines : List String) : Prop where
  same : p.same q
  canonical : d.canonical q = q
  readable : (d.readText q).map Text.splitLines = .ok lines

theorem Holds.exists_place (h : d.Holds p q lines) : ∃ place content,
    Stands d place ∧ (place, .file content) ∈ d.nodes ∧ q = absolutePath place := by
  cases htext : d.readText q with
  | error e =>
      have := h.readable
      rw [htext] at this
      cases this
  | ok text => exact exists_place_of_readText h.canonical htext

theorem Holds.unique (h : d.Holds p q lines) (h' : d.Holds p q' lines') :
    q' = q ∧ lines' = lines := by
  obtain ⟨place, _, hstands, -, rfl⟩ := h.exists_place
  obtain ⟨place', _, hstands', -, rfl⟩ := h'.exists_place
  have hcomponents := (Path.same_iff.1 h'.same).symm.trans (Path.same_iff.1 h.same)
  rw [components_absolutePath hstands, components_absolutePath hstands'] at hcomponents
  cases hcomponents
  cases h.readable.symm.trans h'.readable
  exact ⟨rfl, rfl⟩

end Disk

/-- A source that is registered under its canonical path if it is a file, with the lines
that the disk holds under it. -/
def Source.Faithful (d : Disk) (s : Source) : Prop :=
  ∀ path ∈ s.path?, d.canonical path = path ∧
    s.load d = (d.readText path).map Text.splitLines

theorem Source.Grown.faithful {d : Disk} {s s' : Source} (hgrown : s.Grown d s')
    (h : s.Faithful d) :
    s'.Faithful d := by
  intro path hpath
  rw [hgrown.path?_eq] at hpath
  rw [hgrown.load_eq]
  exact h path hpath

namespace Library

variable {d : Disk} {lib lib' : Library} {file : FileId} {s : Source} {name : String}

def Faithful (d : Disk) (lib : Library) : Prop :=
  ∀ s ∈ lib.sources, s.Faithful d

theorem Faithful.push (h : lib.Faithful d) (hs : s.Faithful d) :
    (lib.push s).2.Faithful d := by
  intro t ht
  rcases List.mem_append.1 ht with ht | ht
  · exact h t ht
  · rwa [List.mem_singleton.1 ht]

theorem Faithful.addText (h : lib.Faithful d) (name text : String) :
    (lib.addText name text).2.Faithful d :=
  h.push fun _ hpath => by cases hpath

theorem Faithful.register {path : Path} (h : lib.Faithful d)
    (hcanonical : d.canonical path = path) :
    (lib.register path).2.Faithful d := by
  unfold Library.register
  split
  · exact h
  · refine h.push fun q hq => ?_
    cases hq
    exact ⟨hcanonical, rfl⟩

theorem Faithful.addFile (h : lib.Faithful d) (path : Path) :
    (lib.addFile d path).2.Faithful d :=
  h.register (d.canonical_canonical path)

theorem Faithful.enter {lines : List String} (h : lib.Faithful d)
    (hs : lib.source? file = some s) (hload : s.load d = .ok lines) :
    (lib.enter file s lines).Faithful d := by
  intro t ht
  rcases List.mem_or_eq_of_mem_set ht with ht | rfl
  · exact h t ht
  · exact Source.Grown.faithful (.inr ⟨lines, hload, rfl⟩) (h s (List.mem_of_getElem? hs))

theorem Faithful.of_next {line? : Option (Location × String)} (h : lib.Faithful d)
    (hnext : lib.next = (line?, lib')) : lib'.Faithful d := by
  obtain rfl : lib.next.2 = lib' := congrArg Prod.snd hnext
  exact h

theorem Faithful.of_includeFile {result : Except OpenError Bool} (h : lib.Faithful d)
    (hinclude : lib.includeFile d name = (result, lib')) : lib'.Faithful d := by
  obtain rfl : (lib.includeFile d name).2 = lib' := congrArg Prod.snd hinclude
  have hregister : (lib.register (lib.included d name)).2.Faithful d :=
    h.register (d.canonical_canonical _)
  rw [includeFile_eq]
  dsimp only
  split
  · exact h
  · split
    · rename_i hopen
      obtain ⟨s, lines, hs, hload, rfl⟩ := open?_eq_ok_iff.1 hopen
      exact hregister.enter hs hload
    · exact hregister

theorem Faithful.of_goes {file? : Option String} (h : lib.Faithful d)
    (hgoes : lib.Goes d file? lib') : lib'.Faithful d := by
  cases hgoes with
  | on => exact h
  | into inclusion => exact h.of_includeFile inclusion

theorem Faithful.of_start {root : FileId} {result : Except OpenError Unit}
    (h : lib.Faithful d) (hstart : lib.start d root = (result, lib')) :
    lib'.Faithful d := by
  obtain rfl : (lib.start d root).2 = lib' := congrArg Prod.snd hstart
  have hreset : lib.reset.Faithful d := h
  unfold Library.start
  split
  · rename_i hopen
    obtain ⟨s, lines, hs, hload, rfl⟩ := open?_eq_ok_iff.1 hopen
    exact hreset.enter hs hload
  · exact hreset

theorem Faithful.holds_of_includeFile {entered : Bool} (h : lib.Faithful d)
    (hinclude : lib.includeFile d name = (.ok entered, lib'))
    (hnew : ¬ lib.opened.any (lib.included d name).same) :
    ∃ file path lines, d.Holds (lib.included d name) path lines ∧
      lib'.path? file = some path ∧
      lib'.stack = ⟨file, 0, lines⟩ :: lib.stack ∧ lib'.opened = path :: lib.opened := by
  have hregister : (lib.register (lib.included d name)).2.Faithful d :=
    h.register (d.canonical_canonical _)
  rw [includeFile_eq_ok_iff, if_neg hnew] at hinclude
  obtain ⟨-, s, lines, hs, hload, rfl⟩ := hinclude
  obtain ⟨⟨s', hs', hsame⟩, -⟩ :=
    find?_eq_some_iff.1 (find?_register (lib.included d name))
  cases hs.symm.trans hs'
  obtain ⟨path, hpath, hsame⟩ := (Option.any_eq_true _ _).1 hsame
  obtain ⟨hcanonical, hlines⟩ := hregister s (List.mem_of_getElem? hs) path hpath
  refine ⟨(lib.register (lib.included d name)).1, path, lines,
    ⟨hsame, hcanonical, hlines.symm.trans hload⟩, ?_, ?_, ?_⟩
  · rw [path?, source?_enter hs]
    exact hpath
  · change _ :: (lib.register _).2.stack = _
    rw [stack_register]
  · change s.path?.toList ++ (lib.register _).2.opened = _
    rw [opened_register, hpath]
    rfl

end Library

end Breadboard
