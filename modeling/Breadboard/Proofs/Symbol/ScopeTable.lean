import Breadboard.Proofs.Symbol.Scopes
import Mathlib.Data.List.Induction
import Mathlib.Data.List.Pairwise
import Mathlib.Data.Set.Basic
import Mathlib.Order.Bounds.Defs

namespace Breadboard

namespace Openings

variable {openings : Openings} {line i : Nat} {name : String} {opening : Nat × String}

/-- What a search for a line ends with: the index of the line, or else the one at which
it would have to stand. -/
inductive Located (openings : Openings) (line : Nat) : Except Nat Nat → Prop
  | found {i : Nat} {name : String} (h : openings[i]? = some (line, name)) :
    Located openings line (.ok i)
  | missing {i : Nat} (hle : i ≤ openings.length)
      (hbefore : ∀ opening ∈ openings.take i, opening.1 < line)
      (hafter : ∀ opening ∈ openings.drop i, line < opening.1) :
        Located openings line (.error i)

/-- The lines up to a given one end, and the lines after it begin, at an index. -/
structure Divided (openings : Openings) (line i : Nat) : Prop where
  before : ∀ opening ∈ openings.take i, opening.1 ≤ line
  after : ∀ opening ∈ openings.drop i, line < opening.1

/-- The openings with a scope opened where the search for its line has ended. -/
def enterAt (openings : Openings) (line : Nat) (name : String) : Except Nat Nat → Openings
  | .ok i => openings.set i (line, name)
  | .error i => openings.insertIdx i (line, name)

private theorem Increasing.insert_eq_set (h : openings.Increasing) {old : String}
    (hfound : openings[i]? = some (line, old)) (name : String) :
    openings.insert line name = openings.set i (line, name) := by
  induction openings generalizing i with
  | nil => cases hfound
  | cons first rest ih =>
      obtain ⟨hfirst, hrest⟩ := List.pairwise_cons.1 h
      cases i with
      | zero =>
          cases hfound
          rw [Openings.insert, if_neg (Nat.lt_irrefl line), if_pos rfl]
          rfl
      | succ i =>
          have hlt : first.1 < line := hfirst _ (List.mem_of_getElem? hfound)
          rw [Openings.insert, if_neg (Nat.lt_asymm hlt), if_neg (Nat.ne_of_gt hlt),
            ih hrest hfound]
          rfl

private theorem insert_eq_insertIdx (hle : i ≤ openings.length)
    (hbefore : ∀ opening ∈ openings.take i, opening.1 < line)
    (hafter : ∀ opening ∈ openings.drop i, line < opening.1) (name : String) :
    openings.insert line name = openings.insertIdx i (line, name) := by
  induction openings generalizing i with
  | nil =>
      obtain rfl : i = 0 := Nat.le_zero.1 hle
      rfl
  | cons first rest ih =>
      cases i with
      | zero =>
          rw [insert, if_pos (hafter first List.mem_cons_self)]
          rfl
      | succ i =>
          have hlt : first.1 < line := hbefore first List.mem_cons_self
          have hrest := ih (Nat.le_of_succ_le_succ hle)
            (fun opening hmem => hbefore opening (List.mem_cons_of_mem _ hmem)) hafter
          rw [insert, if_neg (Nat.lt_asymm hlt), if_neg (Nat.ne_of_gt hlt), hrest]
          rfl

private theorem Increasing.insert_eq_enterAt (h : openings.Increasing)
    {place : Except Nat Nat} (hplace : openings.Located line place) (name : String) :
    openings.insert line name = openings.enterAt line name place := by
  cases hplace with
  | found hfound => exact h.insert_eq_set hfound name
  | missing hle hbefore hafter => exact insert_eq_insertIdx hle hbefore hafter name

theorem Divided.at?_eq (h : openings.Divided line i) :
    openings.at? line = (openings.take i).getLast?.map Prod.snd := by
  induction openings generalizing i with
  | nil =>
      rw [List.take_nil]
      rfl
  | cons first rest ih =>
      cases i with
      | zero =>
          rw [at?, if_neg (Nat.not_le.2 (h.after first List.mem_cons_self))]
          rfl
      | succ i =>
          have hrest := ih ⟨fun opening hmem => h.before opening
            (List.mem_cons_of_mem _ hmem), h.after⟩
          rw [at?, if_pos (h.before first List.mem_cons_self), hrest, List.take_succ_cons,
            List.getLast?_cons]
          cases (rest.take i).getLast? <;> rfl

private theorem Increasing.exists_divided (h : openings.Increasing) (line : Nat) :
    ∃ i, openings.Divided line i := by
  induction openings with
  | nil => exact ⟨0, List.forall_mem_nil _, List.forall_mem_nil _⟩
  | cons first rest ih =>
      obtain ⟨hfirst, hrest⟩ := List.pairwise_cons.1 h
      by_cases hle : first.1 ≤ line
      · obtain ⟨i, hi⟩ := ih hrest
        refine ⟨i + 1, List.forall_mem_cons.2 ⟨hle, hi.before⟩, hi.after⟩
      · have hlt : line < first.1 := Nat.lt_of_not_le hle
        refine ⟨0, List.forall_mem_nil _,
          List.forall_mem_cons.2 ⟨hlt, fun opening hmem => ?_⟩⟩
        exact Nat.lt_trans hlt (hfirst opening hmem)

private theorem Increasing.exists_located (h : openings.Increasing) (line : Nat) :
    ∃ place, openings.Located line place := by
  induction openings with
  | nil =>
    exact ⟨.error 0,
      .missing (Nat.le_refl 0) (List.forall_mem_nil _) (List.forall_mem_nil _)⟩
  | cons first rest ih =>
      obtain ⟨hfirst, hrest⟩ := List.pairwise_cons.1 h
      obtain hlt | rfl | hgt := Nat.lt_trichotomy first.1 line
      · obtain ⟨place, hplace⟩ := ih hrest
        cases hplace with
        | @found i name hfound => exact ⟨.ok (i + 1), .found hfound⟩
        | @missing i hle hbefore hafter =>
            exact ⟨.error (i + 1), .missing (Nat.succ_le_succ hle)
              (List.forall_mem_cons.2 ⟨hlt, hbefore⟩) hafter⟩
      · exact ⟨.ok 0, .found rfl⟩
      · refine ⟨.error 0, .missing (Nat.zero_le _) (List.forall_mem_nil _) ?_⟩
        exact List.forall_mem_cons.2 ⟨hgt, fun opening hmem => Nat.lt_trans hgt
          (hfirst opening hmem)⟩

private theorem Increasing.eq_of_line_eq (h : openings.Increasing)
    {opening opening' : Nat × String} (hmem : opening ∈ openings)
    (hmem' : opening' ∈ openings) (hline : opening.1 = opening'.1) :
    opening = opening' := by
  have hsymm : Std.Symm fun first later : Nat × String => first.1 ≠ later.1 :=
    ⟨fun _ _ => Ne.symm⟩
  have hdistinct : openings.Pairwise fun first later => first.1 ≠ later.1 :=
    List.Pairwise.imp Nat.ne_of_lt h
  by_contra hne
  exact hdistinct.forall hmem hmem' hne hline

private theorem mem_insert_of_ne (hmem : opening ∈ openings) (hne : opening.1 ≠ line)
    (name : String) :
    opening ∈ openings.insert line name := by
  induction openings with
  | nil => cases hmem
  | cons first rest ih =>
      unfold insert
      split
      · exact List.mem_cons_of_mem _ hmem
      · split
        · rename_i hsame
          obtain rfl | hmem := List.mem_cons.1 hmem
          · exact absurd hsame.symm hne
          · exact List.mem_cons_of_mem _ hmem
        · obtain rfl | hmem := List.mem_cons.1 hmem
          · exact List.mem_cons_self
          · exact List.mem_cons_of_mem _ (ih hmem)

private theorem Increasing.mem_insert_iff (h : openings.Increasing) {line' : Nat}
    {name' : String} :
    (line', name') ∈ openings.insert line name ↔
      line = line' ∧ name = name' ∨ line ≠ line' ∧ (line', name') ∈ openings := by
  constructor
  · intro hmem
    by_cases hline : line = line'
    · have heq := (h.insert line name).eq_of_line_eq
        (mem_insert line name openings) hmem hline
      exact .inl ⟨hline, congrArg Prod.snd heq⟩
    · obtain heq | hmem := eq_or_mem_of_mem_insert hmem
      · exact absurd (congrArg Prod.fst heq).symm hline
      · exact .inr ⟨hline, hmem⟩
  · rintro (⟨rfl, rfl⟩ | ⟨hne, hmem⟩)
    · exact mem_insert line name openings
    · exact mem_insert_of_ne hmem (Ne.symm hne) name

end Openings

structure Opening where
  file : FileId
  line : Nat
  name : String

def OpenedLast (opened : List Opening) (file : FileId) (line : Nat) (name : String) :
    Prop :=
  ∃ before after, opened = before ++ ⟨file, line, name⟩ :: after ∧
    ∀ opening ∈ after, ¬ (opening.file = file ∧ opening.line = line)

section

variable {opened : List Opening} {file : FileId} {line : Nat} {name : String}

private theorem not_openedLast_nil : ¬ OpenedLast [] file line name := by
  rintro ⟨before, after, heq, -⟩
  exact List.append_ne_nil_of_right_ne_nil before (List.cons_ne_nil _ after) heq.symm

theorem openedLast_concat_iff (opening : Opening) :
    OpenedLast (opened ++ [opening]) file line name ↔
      opening = ⟨file, line, name⟩ ∨
        ¬ (opening.file = file ∧ opening.line = line) ∧
        OpenedLast opened file line name := by
  constructor
  · rintro ⟨before, after, heq, hafter⟩
    obtain rfl | ⟨init, last, rfl⟩ := List.eq_nil_or_concat after
    · exact .inl (List.head_eq_of_cons_eq (List.append_inj_right' heq rfl))
    · rw [List.concat_eq_append, ← List.cons_append, ← List.append_assoc] at heq
      obtain ⟨hopened, hlast⟩ := List.append_inj' heq rfl
      rw [List.concat_eq_append] at hafter
      have hlast := List.head_eq_of_cons_eq hlast
      subst hlast
      exact .inr ⟨hafter opening (by simp), before, init, hopened,
        fun other hother => hafter other (List.mem_append_left _ hother)⟩
  · rintro (rfl | ⟨hne, before, after, rfl, hafter⟩)
    · exact ⟨opened, [], rfl, List.forall_mem_nil _⟩
    · refine ⟨before, after ++ [opening], by simp, fun other hother => ?_⟩
      obtain hother | hother := List.mem_append.1 hother
      · exact hafter other hother
      · obtain rfl := List.mem_singleton.1 hother
        exact hne

private theorem exists_openedLast {opening : Opening} (hmem : opening ∈ opened) :
    ∃ name, OpenedLast opened opening.file opening.line name := by
  induction opened using List.reverseRecOn with
  | nil => cases hmem
  | append_singleton opened last ih =>
      by_cases hsame : last.file = opening.file ∧ last.line = opening.line
      · refine ⟨last.name, (openedLast_concat_iff last).2 (.inl ?_)⟩
        rw [← hsame.1, ← hsame.2]
      · have hmem : opening ∈ opened := by
          obtain hmem | hmem := List.mem_append.1 hmem
          · exact hmem
          · obtain rfl := List.mem_singleton.1 hmem
            exact absurd ⟨rfl, rfl⟩ hsame
        obtain ⟨name, hlast⟩ := ih hmem
        exact ⟨name, (openedLast_concat_iff last).2 (.inr ⟨hsame, hlast⟩)⟩

theorem OpenedLast.mem (h : OpenedLast opened file line name) :
    ⟨file, line, name⟩ ∈ opened := by
  obtain ⟨before, after, rfl, -⟩ := h
  exact List.mem_append_right _ List.mem_cons_self

end

namespace Scopes

variable {opened : List Opening} {s : Scopes}

def enterAll (opened : List Opening) : Scopes :=
  opened.foldl (fun s opening => s.enter opening.file opening.line opening.name) {}

private theorem enterAll_concat (opened : List Opening) (opening : Opening) :
    enterAll (opened ++ [opening]) =
      (enterAll opened).enter opening.file opening.line opening.name :=
  List.foldl_append ..

/-- The table keeps the lines of each file in order, and at each line the scope that
was opened last there. -/
structure Keeps (opened : List Opening) (s : Scopes) : Prop where
  increasing : s.Increasing
  mem_iff : ∀ file line name, (line, name) ∈ s.openings file ↔
    OpenedLast opened file line name

theorem Keeps.enter (h : Keeps opened s) (opening : Opening) :
    Keeps (opened ++ [opening]) (s.enter opening.file opening.line opening.name) := by
  refine ⟨h.increasing.enter _ _ _, fun file line name => ?_⟩
  obtain ⟨file', line', name'⟩ := opening
  rw [openedLast_concat_iff]
  by_cases hfile : file' = file
  · subst hfile
    rw [openings_enter_self, (h.increasing file').mem_insert_iff, h.mem_iff]
    simp
  · rw [openings_enter_ne hfile, h.mem_iff]
    simp [hfile]

private theorem keeps_enterAll (opened : List Opening) :
    Keeps opened (enterAll opened) := by
  induction opened using List.reverseRecOn with
  | nil =>
    exact ⟨fun _ => .nil, fun _ _ _ => iff_of_false List.not_mem_nil not_openedLast_nil⟩
  | append_singleton opened opening ih =>
      rw [enterAll_concat]
      exact ih.enter opening

def linesUpTo (opened : List Opening) (file : FileId) (line : Nat) : Set Nat :=
  {n | n ≤ line ∧ ∃ opening ∈ opened, opening.file = file ∧ opening.line = n}

private theorem Keeps.mem_linesUpTo_iff (h : Keeps opened s) {file : FileId}
    {line n : Nat} :
    n ∈ linesUpTo opened file line ↔ n ≤ line ∧ ∃ name, (n, name) ∈ s.openings file := by
  refine and_congr_right fun _ => ⟨?_, ?_⟩
  · rintro ⟨opening, hmem, rfl, rfl⟩
    obtain ⟨name, hlast⟩ := exists_openedLast hmem
    exact ⟨name, (h.mem_iff _ _ _).2 hlast⟩
  · rintro ⟨name, hmem⟩
    exact ⟨_, ((h.mem_iff _ _ _).1 hmem).mem, rfl, rfl⟩

theorem Keeps.at?_eq_some_iff (h : Keeps opened s) {file : FileId} {line : Nat}
    {name : String} :
    s.at? file line = some name ↔
      ∃ last, IsGreatest (linesUpTo opened file line) last ∧
        OpenedLast opened file last name := by
  constructor
  · intro hat
    obtain ⟨last, hle, hmem, hlast⟩ := (h.increasing file).exists_of_at?_eq_some hat
    have hin := h.mem_linesUpTo_iff.2 ⟨hle, name, hmem⟩
    refine ⟨last, ⟨hin, fun n hn => ?_⟩, (h.mem_iff _ _ _).1 hmem⟩
    obtain ⟨hn, name', hmem'⟩ := h.mem_linesUpTo_iff.1 hn
    exact hlast _ hmem' hn
  · rintro ⟨last, ⟨hin, hlast⟩, hopened⟩
    refine (h.increasing file).at?_eq_some ((h.mem_iff _ _ _).2 hopened)
      hin.1 fun other hmem hle => ?_
    exact hlast (h.mem_linesUpTo_iff.2 ⟨hle, other.2, hmem⟩)

theorem Keeps.at?_eq_none_iff (h : Keeps opened s) {file : FileId} {line : Nat} :
    s.at? file line = none ↔ linesUpTo opened file line = ∅ := by
  rw [Set.eq_empty_iff_forall_notMem]
  refine (h.increasing file).at?_eq_none_iff.trans ⟨fun hafter n hn => ?_,
    fun hnone opening hmem => ?_⟩
  · obtain ⟨hle, name, hmem⟩ := h.mem_linesUpTo_iff.1 hn
    exact Nat.not_le.2 (hafter _ hmem) hle
  · exact Nat.lt_of_not_le fun hle =>
      hnone _ (h.mem_linesUpTo_iff.2 ⟨hle, opening.2, hmem⟩)

/-- The table can be searched by halving, both for where a scope is to be opened and for
the scope of a line, and it gives for each line the scope that was opened last at the
greatest line up to it. -/
structure Tabulates (opened : List Opening) (s : Scopes) : Prop where
  increasing : s.Increasing
  located : ∀ file line, ∃ place, (s.openings file).Located line place
  enter_eq : ∀ file line name place, (s.openings file).Located line place →
    (s.enter file line name).openings file = (s.openings file).enterAt line name place
  divided : ∀ file line, ∃ i, (s.openings file).Divided line i
  at?_eq : ∀ file line i, (s.openings file).Divided line i →
    s.at? file line = ((s.openings file).take i).getLast?.map Prod.snd
  at?_eq_some_iff : ∀ file line name, s.at? file line = some name ↔
    ∃ last, IsGreatest (linesUpTo opened file line) last ∧
      OpenedLast opened file last name
  at?_eq_none_iff : ∀ file line, s.at? file line = none ↔ linesUpTo opened file line = ∅

theorem tabulates_enterAll (opened : List Opening) :
    Tabulates opened (enterAll opened) := by
  have hkeeps := keeps_enterAll opened
  exact {
    increasing := hkeeps.increasing
    located := fun file line => (hkeeps.increasing file).exists_located line
    enter_eq := fun file line name place hplace => by
      rw [openings_enter_self]
      exact (hkeeps.increasing file).insert_eq_enterAt hplace name
    divided := fun file line => (hkeeps.increasing file).exists_divided line
    at?_eq := fun file line i hdivided => hdivided.at?_eq
    at?_eq_some_iff := fun file line name => hkeeps.at?_eq_some_iff
    at?_eq_none_iff := fun file line => hkeeps.at?_eq_none_iff }

/-- A scope opened late at an early line stands before the others, and one
opened again is replaced. -/
example : (enterAll [⟨0, 10, "b"⟩, ⟨1, 0, "c"⟩, ⟨0, 3, "a"⟩, ⟨0, 10, "d"⟩]).openings 0 =
    [(3, "a"), (10, "d")] := by
  decide +kernel

end Scopes

end Breadboard
