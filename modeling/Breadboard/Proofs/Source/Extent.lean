import Breadboard.Proofs.Source.Rereading
import Mathlib.Algebra.GroupWithZero.Nat
import Mathlib.Algebra.Order.BigOperators.Group.List
import Mathlib.Algebra.Order.Group.Nat

namespace Breadboard

namespace Text

private theorem length_linesOf_le (cs : List Char) : (linesOf cs).length ≤ cs.length := by
  fun_induction linesOf cs with
  | case1 => exact Nat.le_refl _
  | case2 rest ih => exact Nat.succ_le_succ ih
  | case3 rest ih => exact Nat.le_trans (Nat.succ_le_succ ih) (Nat.le_succ _)
  | case4 c rest _ _ hlines ih => exact Nat.succ_le_succ (Nat.zero_le _)
  | case5 c rest _ _ line lines hlines ih =>
      rw [hlines] at ih
      exact Nat.le_trans ih (Nat.le_succ _)

private theorem length_splitLines_le (text : String) :
    (splitLines text).length ≤ text.toList.length := by
  rw [splitLines, List.length_map]
  exact length_linesOf_le _

private theorem length_units_le (bytes : List UInt8) :
    (units bytes).length ≤ bytes.length := by
  fun_induction units bytes with
  | case1 => exact Nat.le_refl _
  | case2 b rest unit ih =>
    exact Nat.succ_le_succ (Nat.le_trans ih (length_readUnit_le b rest))

private theorem length_of_mapM_id {α : Type} {l : List (Option α)} {l' : List α}
    (h : l.mapM id = some l') : l'.length = l.length := by
  induction l generalizing l' with
  | nil =>
      cases h
      rfl
  | cons a l ih =>
      rw [List.mapM_cons] at h
      cases a with
      | none => cases h
      | some a =>
          cases hrest : l.mapM id with
          | none =>
              rw [hrest] at h
              cases h
          | some rest =>
              rw [hrest] at h
              cases h
              rw [List.length_cons, List.length_cons, ih hrest]

private theorem length_le_of_decodeUtf8? {bytes : List UInt8} {text : String}
    (h : decodeUtf8? bytes = some text) : text.toList.length ≤ bytes.length := by
  obtain ⟨chars, hchars, rfl⟩ := Option.map_eq_some_iff.1 h
  rw [String.toList_ofList, length_of_mapM_id hchars]
  exact length_units_le bytes

end Text

theorem sum_map_add_le {α : Type} {l : List α} {f g : α → Nat} {a : α} {n : Nat}
    (ha : a ∈ l) (h : ∀ a, g a ≤ f a) (hn : g a + n ≤ f a) :
    (l.map g).sum + n ≤ (l.map f).sum := by
  induction l with
  | nil => cases ha
  | cons b l ih =>
      simp only [List.map_cons, List.sum_cons]
      rcases List.mem_cons.1 ha with rfl | ha
      · have := List.sum_le_sum (l := l) fun a _ => h a
        omega
      · have := ih ha
        have := h b
        omega

private theorem sum_map_set_add_le {α : Type} {l : List α} {f g : α → Nat} {i : Nat}
    {a a' : α} {n : Nat} (ha : l[i]? = some a) (h : ∀ a, g a ≤ f a)
    (hn : g a' + n ≤ f a) :
    ((l.set i a').map g).sum + n ≤ (l.map f).sum := by
  induction l generalizing i with
  | nil => cases ha
  | cons b l ih =>
      cases i with
      | zero =>
          cases ha
          have := List.sum_le_sum (l := l) fun a _ => h a
          simp only [List.set_cons_zero, List.map_cons, List.sum_cons]
          omega
      | succ i =>
          have := ih ha
          have := h b
          simp only [List.set_cons_succ, List.map_cons, List.sum_cons]
          omega

namespace Disk

variable {d : Disk}

theorem extent_eq (d : Disk) : d.extent = (d.nodes.map (·.2.extent)).sum := by
  unfold extent
  induction d.nodes with
  | nil => rfl
  | cons node nodes ih => rw [List.foldr_cons, ih, List.map_cons, List.sum_cons]

private theorem mem_nodes_of_contentAt {place : List String} {content : List UInt8}
    (h : d.contentAt place = .ok content) : (place, .file content) ∈ d.nodes := by
  unfold contentAt node? at h
  split at h
  · rename_i hnode
    cases h
    split at hnode
    · cases hnode
    · obtain ⟨before, after, hnodes, -⟩ := List.lookup_eq_some_iff.1 hnode
      rw [hnodes]
      exact List.mem_append_right _ List.mem_cons_self
  · cases h
  · cases h

theorem exists_of_readText {p : Path} {text : String} (h : d.readText p = .ok text) :
    ∃ place content, d.resolve p = .ok place ∧ (place, .file content) ∈ d.nodes ∧
      (Text.splitLines text).length ≤ content.length := by
  unfold readText open? at h
  cases hplace : d.resolve p with
  | error e =>
      rw [hplace] at h
      cases h
  | ok place =>
      rw [hplace] at h
      cases hcontent : d.contentAt place with
      | error e =>
          simp only [bind, Except.bind, hcontent] at h
          cases h
      | ok content =>
          simp only [bind, Except.bind, hcontent] at h
          split at h
          · rename_i hdecode
            cases h
            exact ⟨place, content, rfl, mem_nodes_of_contentAt hcontent,
              Nat.le_trans (Text.length_splitLines_le _)
                (Text.length_le_of_decodeUtf8? hdecode)⟩
          · cases h

end Disk

private theorem Source.length_le_extent {d : Disk} {s : Source} {lines : List String}
    (h : s.load d = .ok lines) : lines.length ≤ s.extent d := by
  unfold load at h
  unfold extent
  split at h
  · rename_i hlines
    cases h
    simp only [hlines, Nat.le_refl]
  · rename_i hlines hpath
    rw [hlines]
    cases htext : d.readText _ with
    | error e =>
        rw [htext] at h
        cases h
    | ok text =>
        rw [htext] at h
        cases h
        obtain ⟨place, content, -, hnode, hlength⟩ := Disk.exists_of_readText htext
        have hcontent := sum_map_add_le (f := fun n => n.2.extent) (g := fun _ => 0)
          (n := content.length) hnode (fun _ => Nat.zero_le _)
            (Nat.le_of_eq (Nat.zero_add _))
        rw [Disk.extent_eq]
        exact Nat.le_trans hlength (Nat.le_trans (Nat.le_add_left _ _) hcontent)
  · cases h

namespace Library

variable {d : Disk} {lib lib' : Library} {file : FileId} {s : Source}
    {lines : List String}

def unread (lib : Library) (d : Disk) (s : Source) : Nat :=
  if s.path?.any fun q => !lib.opened.any q.same then s.extent d else 0

def undiscovered (lib : Library) (node : List String × DiskNode) : Nat :=
  if lib.find? (Disk.absolutePath node.1) = none then node.2.extent else 0

/-- A bound on the lines that remain to be read. -/
def budget (lib : Library) (d : Disk) : Nat :=
  (lib.stack.map (·.rest.length)).sum + (lib.sources.map (lib.unread d)).sum +
    (d.nodes.map lib.undiscovered).sum

private theorem unread_le (lib : Library) (d : Disk) (s : Source) :
    lib.unread d s ≤ s.extent d := by
  unfold unread
  split
  · exact Nat.le_refl _
  · exact Nat.zero_le _

private theorem unread_eq_of_opened (h : lib'.opened = lib.opened) :
    lib'.unread d = lib.unread d := by
  unfold unread
  rw [h]

private theorem unread_enter_le (lib : Library) (d : Disk) (file : FileId) (s : Source)
    (lines : List String) (t : Source) :
    (lib.enter file s lines).unread d t ≤ lib.unread d t := by
  unfold unread enter
  cases t.path? with
  | none => exact Nat.le_refl _
  | some q =>
      simp only [Option.any_some, List.any_append, Bool.not_or]
      by_cases hopened : lib.opened.any q.same
      · simp [hopened]
      · split <;> simp [hopened]

private theorem unread_enter_self (lib : Library) (d : Disk) (file : FileId) (s : Source)
    (lines : List String) :
    (lib.enter file s lines).unread d { s with lines? := some lines } = 0 := by
  unfold unread enter
  cases hpath : s.path? with
  | none => simp
  | some q => simp [q.same_refl]

private theorem sum_unread_enter (d : Disk) (hs : lib.source? file = some s)
    (lines : List String) :
    ((lib.enter file s lines).sources.map ((lib.enter file s lines).unread d)).sum +
      lib.unread d s ≤ (lib.sources.map (lib.unread d)).sum :=
  sum_map_set_add_le hs (unread_enter_le lib d file s lines)
    (Nat.le_of_eq (by rw [unread_enter_self, Nat.zero_add]))

private theorem undiscovered_le (h : Grown d lib lib') (node : List String × DiskNode) :
    lib'.undiscovered node ≤ lib.undiscovered node := by
  unfold undiscovered
  cases hfind : lib.find? (Disk.absolutePath node.1) with
  | none =>
      rw [if_pos rfl]
      split
      · exact Nat.le_refl _
      · exact Nat.zero_le _
  | some id =>
      have hfind' := h.find? hfind
      simp [hfind']

private theorem sum_rest_nextOf {frames frames' : List Frame}
    {line : FileId × Nat × String} (h : nextOf frames = (some line, frames')) :
    (frames'.map (·.rest.length)).sum + 1 = (frames.map (·.rest.length)).sum := by
  induction frames with
  | nil => cases h
  | cons top below ih =>
      obtain ⟨file, n, rest⟩ := top
      cases rest with
      | nil =>
          rw [List.map_cons, List.sum_cons]
          exact (ih h).trans (Nat.zero_add _).symm
      | cons text rest =>
          cases h
          simp only [List.map_cons, List.sum_cons, List.length_cons]
          omega

theorem budget_next {line : Location × String} (h : lib.next = (some line, lib')) :
    lib'.budget d + 1 = lib.budget d := by
  unfold next at h
  cases hnext : nextOf lib.stack with
  | mk found stack =>
      rw [hnext] at h
      cases found with
      | none => cases h
      | some found =>
          cases h
          have hrest := sum_rest_nextOf hnext
          change (stack.map (·.rest.length)).sum + (lib.sources.map (lib.unread d)).sum +
            (d.nodes.map lib.undiscovered).sum + 1 = _
          unfold budget
          omega

theorem budget_enter_eq (lib : Library) (d : Disk) (file : FileId) (s : Source)
    (lines : List String) :
    (lib.enter file s lines).budget d =
      lines.length + (lib.stack.map (·.rest.length)).sum +
      ((lib.enter file s lines).sources.map ((lib.enter file s lines).unread d)).sum +
        (d.nodes.map (lib.enter file s lines).undiscovered).sum :=
  rfl

private theorem budget_enter_registered {path : Path} (hs : lib.source? file = some s)
    (hsame : s.path?.any path.same) (hopened : ¬ lib.opened.any path.same)
    (hload : s.load d = .ok lines) :
    (lib.enter file s lines).budget d ≤ lib.budget d := by
  have hunread : lib.unread d s = s.extent d := by
    obtain ⟨q, hq, hpath⟩ := (Option.any_eq_true _ _).1 hsame
    have hsames : q.same = path.same := by
      funext p
      rw [Path.same, Path.same, Path.same_iff.1 hpath]
    unfold unread
    rw [hq, Option.any_some, hsames, if_pos (by simp [hopened])]
  have hlength := Source.length_le_extent hload
  have hsum := sum_unread_enter d hs lines
  have hnodes := List.sum_le_sum (l := d.nodes) fun node _ =>
    undiscovered_le (grown_enter hs hload) node
  rw [budget_enter_eq]
  unfold budget
  omega

private theorem budget_enter_new {path : Path} (hfind : lib.find? path = none)
    (hcanonical : d.canonical path = path)
    (hs : (lib.register path).2.source? (lib.register path).1 = some s)
    (hload : s.load d = .ok lines) :
    ((lib.register path).2.enter (lib.register path).1 s lines).budget d ≤
      lib.budget d := by
  have hgrown := (grown_register path).trans (grown_enter hs hload)
  have hfound := (grown_enter hs hload).find? (find?_register path)
  have hsum := sum_unread_enter d hs lines
  rw [budget_enter_eq, stack_register]
  have hregister : lib.register path = lib.push ⟨path.text, some path, none⟩ := by
    unfold register
    rw [hfind]
  have hnew : s = ⟨path.text, some path, none⟩ := by
    rw [hregister] at hs
    exact (Option.some.inj (List.getElem?_concat_length.symm.trans hs)).symm
  have hsources :
      ((lib.register path).2.sources.map ((lib.register path).2.unread d)).sum =
        (lib.sources.map (lib.unread d)).sum + (lib.register path).2.unread d s := by
    rw [unread_eq_of_opened (opened_register path), hregister, hnew]
    simp [push]
  rw [hnew] at hload
  change (d.readText path).map Text.splitLines = .ok lines at hload
  cases htext : d.readText path with
  | error e =>
      rw [htext] at hload
      cases hload
  | ok text =>
      rw [htext] at hload
      cases hload
      obtain ⟨place, content, hresolve, hnode, hlength⟩ := Disk.exists_of_readText htext
      have hplace : Disk.absolutePath place = path := by
        have hresolve' : d.resolve (d.canonical path) = .ok place := by rwa [hcanonical]
        rw [← Disk.canonical_of_resolve hresolve', hcanonical]
      have hnodes := sum_map_add_le (n := content.length) hnode
        (undiscovered_le hgrown) (by
        unfold undiscovered
        rw [hplace, hfind, hfound, if_pos rfl, if_neg (Option.some_ne_none _)]
        exact Nat.le_of_eq (Nat.zero_add _))
      unfold budget
      omega

theorem budget_includeFile {name : String} {entered : Bool}
    (h : lib.includeFile d name = (.ok entered, lib')) :
    lib'.budget d ≤ lib.budget d := by
  rw [includeFile_eq_ok_iff] at h
  split at h
  · obtain ⟨-, rfl⟩ := h
    exact Nat.le_refl _
  · rename_i hopened
    obtain ⟨-, s, lines, hs, hload, rfl⟩ := h
    cases hfind : lib.find? (lib.included d name) with
    | some id =>
        have hregister : lib.register (lib.included d name) = (id, lib) := by
          unfold register
          rw [hfind]
        rw [hregister] at hs ⊢
        obtain ⟨⟨s', hs', hsame⟩, -⟩ := find?_eq_some_iff.1 hfind
        cases hs.symm.trans hs'
        exact budget_enter_registered hs hsame hopened hload
    | none => exact budget_enter_new hfind (d.canonical_canonical _) hs hload

theorem extent_eq (lib : Library) (d : Disk) :
    lib.extent d = (lib.sources.map (·.extent d)).sum + d.extent := by
  unfold extent
  induction lib.sources with
  | nil => exact (Nat.zero_add _).symm
  | cons s sources ih =>
    rw [List.foldr_cons, ih, List.map_cons, List.sum_cons, Nat.add_assoc]

theorem budget_start_le (h : lib.start d file = (.ok (), lib')) :
    lib'.budget d ≤ lib'.extent d := by
  obtain ⟨s, lines, hs, -, rfl⟩ := start_eq_ok_iff.1 h
  have hreset : lib.reset.source? file = some s := hs
  have hmem := List.mem_of_getElem? (source?_enter hreset lines)
  have hsources := sum_map_add_le (n := lines.length) hmem
    (unread_le (lib.reset.enter file s lines) d) (by
      rw [unread_enter_self, Nat.zero_add]
      exact Nat.le_refl _)
  have hnodes := List.sum_le_sum (l := d.nodes) (g := fun n => n.2.extent)
    (f := (lib.reset.enter file s lines).undiscovered) fun node _ => by
      unfold undiscovered
      split
      · exact Nat.le_refl _
      · exact Nat.zero_le _
  rw [budget_enter_eq, extent_eq, Disk.extent_eq]
  change lines.length + 0 + _ + _ ≤ _
  omega

end Library

end Breadboard
