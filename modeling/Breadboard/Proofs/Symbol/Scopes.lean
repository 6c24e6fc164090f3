import Breadboard.Symbol.Scopes

namespace Breadboard

namespace Openings

private theorem at?_insert_of_lt {line later : Nat} (h : line < later) (name : String)
    (openings : Openings) :
    at? line (openings.insert later name) = at? line openings := by
  induction openings with
  | nil => simp [insert, at?, Nat.not_le.2 h]
  | cons opening rest ih =>
      obtain ⟨l, n⟩ := opening
      unfold insert
      split
      · have hlt : line < l := by omega
        simp [at?, Nat.not_le.2 h, Nat.not_le.2 hlt]
      · split
        · rename_i _ hsame
          subst hsame
          simp [at?, Nat.not_le.2 h]
        · simp only [at?, ih]

private theorem insert_insert (line : Nat) (name : String) (openings : Openings) :
    (openings.insert line name).insert line name = openings.insert line name := by
  induction openings with
  | nil => simp [insert]
  | cons opening rest ih =>
      obtain ⟨l, n⟩ := opening
      by_cases hbefore : line < l
      · simp [insert, hbefore]
      · by_cases hsame : line = l
        · simp [insert, hsame]
        · simp [insert, hbefore, hsame, ih]

private theorem insert_insert_of_lt {line later : Nat} (h : line < later) {name : String}
    {openings : Openings} (hopen : openings.insert line name = openings)
    (name' : String) :
    (openings.insert later name').insert line name = openings.insert later name' := by
  induction openings with
  | nil => cases hopen
  | cons opening rest ih =>
      obtain ⟨l, n⟩ := opening
      unfold insert at hopen
      split at hopen
      · have hlength := congrArg List.length hopen
        simp at hlength
      · split at hopen
        · rename_i _ hsame
          subst hsame
          cases hopen
          simp [insert, Nat.not_lt.2 (Nat.le_of_lt h), Nat.ne_of_gt h]
        · rename_i hafter hne
          have hrest : insert line name rest = rest := List.tail_eq_of_cons_eq hopen
          have hlate : ¬ later < l := by omega
          have hlater : later ≠ l := by omega
          simp [insert, hafter, hne, hlate, hlater, ih hrest]

def Increasing (openings : Openings) : Prop :=
  openings.Pairwise fun opening later => opening.1 < later.1

variable {line n : Nat} {name : String} {openings : Openings} {opening : Nat × String}

theorem mem_insert (line : Nat) (name : String) (openings : Openings) :
    (line, name) ∈ openings.insert line name := by
  induction openings with
  | nil => exact List.mem_cons_self
  | cons opening rest ih =>
      unfold insert
      split
      · exact List.mem_cons_self
      · split
        · exact List.mem_cons_self
        · exact List.mem_cons_of_mem _ ih

theorem eq_or_mem_of_mem_insert (h : opening ∈ openings.insert line name) :
    opening = (line, name) ∨ opening ∈ openings := by
  induction openings with
  | nil => exact .inl (List.mem_singleton.1 h)
  | cons first rest ih =>
      unfold insert at h
      split at h
      · exact List.mem_cons.1 h
      · split at h
        · obtain h | h := List.mem_cons.1 h
          · exact .inl h
          · exact .inr (List.mem_cons_of_mem _ h)
        · obtain rfl | h := List.mem_cons.1 h
          · exact .inr List.mem_cons_self
          · exact (ih h).imp_right (List.mem_cons_of_mem _)

theorem Increasing.insert (h : openings.Increasing) (line : Nat) (name : String) :
    Increasing (openings.insert line name) := by
  induction openings with
  | nil => exact List.pairwise_singleton _ _
  | cons first rest ih =>
      obtain ⟨hfirst, hrest⟩ := List.pairwise_cons.1 h
      unfold Openings.insert
      split
      · rename_i hbefore
        refine List.pairwise_cons.2 ⟨fun opening hmem => ?_, h⟩
        obtain rfl | hmem := List.mem_cons.1 hmem
        · exact hbefore
        · exact Nat.lt_trans hbefore (hfirst _ hmem)
      · split
        · rename_i hsame
          exact List.pairwise_cons.2 ⟨fun opening hmem => hsame ▸ hfirst _ hmem, hrest⟩
        · refine List.pairwise_cons.2 ⟨fun opening hmem => ?_, ih hrest⟩
          obtain rfl | hmem := eq_or_mem_of_mem_insert hmem
          · dsimp only
            omega
          · exact hfirst _ hmem

theorem Increasing.at?_eq_none_iff (h : openings.Increasing) :
    openings.at? n = none ↔ ∀ opening ∈ openings, n < opening.1 := by
  cases openings with
  | nil => exact iff_of_true rfl (fun _ hmem => by cases hmem)
  | cons first rest =>
      have hnone : at? n (first :: rest) = none ↔ ¬ first.1 ≤ n := by simp [at?]
      rw [hnone, Nat.not_le]
      refine ⟨fun hlt opening hmem => ?_, fun hall => hall first List.mem_cons_self⟩
      obtain rfl | hmem := List.mem_cons.1 hmem
      · exact hlt
      · exact Nat.lt_trans hlt ((List.pairwise_cons.1 h).1 opening hmem)

theorem Increasing.at?_eq_some (h : openings.Increasing) (hmem : opening ∈ openings)
    (hle : opening.1 ≤ n)
    (hlast : ∀ other ∈ openings, other.1 ≤ n → other.1 ≤ opening.1) :
    openings.at? n = some opening.2 := by
  induction openings with
  | nil => cases hmem
  | cons first rest ih =>
      obtain ⟨hfirst, hrest⟩ := List.pairwise_cons.1 h
      have hlast' := fun other hother => hlast other (List.mem_cons_of_mem _ hother)
      obtain rfl | hmem := List.mem_cons.1 hmem
      · have hnone : at? n rest = none := by
          refine (at?_eq_none_iff hrest).2 fun other hother =>
            Nat.lt_of_not_le fun hle' => ?_
          exact absurd (hlast' other hother hle') (Nat.not_le.2 (hfirst _ hother))
        simp [at?, hle, hnone]
      · have hbefore : first.1 ≤ n :=
          Nat.le_of_lt (Nat.lt_of_lt_of_le (hfirst _ hmem) hle)
        simp [at?, hbefore, ih hrest hmem hlast']

theorem Increasing.exists_of_at?_eq_some (h : openings.Increasing)
    (hat : openings.at? n = some name) :
    ∃ line ≤ n, (line, name) ∈ openings ∧ ∀ other ∈ openings, other.1 ≤ n →
      other.1 ≤ line := by
  induction openings with
  | nil => cases hat
  | cons first rest ih =>
      obtain ⟨hfirst, hrest⟩ := List.pairwise_cons.1 h
      obtain ⟨line, scope⟩ := first
      unfold at? at hat
      split at hat
      · rename_i hle
        cases hrestAt : at? n rest with
        | some later =>
            rw [hrestAt] at hat
            cases hat
            obtain ⟨line', hle', hmem, hlast⟩ := ih hrest hrestAt
            refine ⟨line', hle', List.mem_cons_of_mem _ hmem,
              fun other hother hother' => ?_⟩
            obtain rfl | hother := List.mem_cons.1 hother
            · exact Nat.le_of_lt (hfirst _ hmem)
            · exact hlast other hother hother'
        | none =>
            rw [hrestAt] at hat
            cases hat
            refine ⟨line, hle, List.mem_cons_self, fun other hother hother' => ?_⟩
            obtain rfl | hother := List.mem_cons.1 hother
            · exact Nat.le_refl _
            · have hlt := (at?_eq_none_iff hrest).1 hrestAt other hother
              exact absurd hother' (Nat.not_le.2 hlt)
      · cases hat

end Openings

namespace Scopes

variable {file file' : FileId} {line later : Nat} {s s' s'' : Scopes}

theorem openings_enter_self (s : Scopes) (file : FileId) (line : Nat) (name : String) :
    (s.enter file line name).openings file = (s.openings file).insert line name := by
  simp [enter, openings]

theorem openings_enter_ne (h : file' ≠ file) (s : Scopes) (line : Nat) (name : String) :
    (s.enter file' line name).openings file = s.openings file := by
  simp [enter, openings, Std.ExtTreeMap.getElem?_insert, h]

def IsOpen (s : Scopes) (file : FileId) (line : Nat) (name : String) : Prop :=
  (s.openings file).insert line name = s.openings file

/-- Nothing was changed of the lines of a source before a line. -/
structure Kept (file : FileId) (line : Nat) (s s' : Scopes) : Prop where
  scope : ∀ n < line, s'.at? file n = s.at? file n
  opened : ∀ n < line, ∀ name, s.IsOpen file n name → s'.IsOpen file n name

theorem Kept.refl (file : FileId) (line : Nat) (s : Scopes) : Kept file line s s :=
  ⟨fun _ _ => rfl, fun _ _ _ h => h⟩

theorem Kept.trans (h : Kept file line s s') (h' : Kept file line s' s'') :
    Kept file line s s'' :=
  ⟨fun n hn => (h'.scope n hn).trans (h.scope n hn),
    fun n hn name hopen => h'.opened n hn name (h.opened n hn name hopen)⟩

theorem Kept.of_openings (h : ∀ file, s'.openings file = s.openings file) :
    Kept file line s s' := by
  refine ⟨fun n _ => ?_, fun n _ name hopen => ?_⟩
  · unfold at?
    rw [h]
  · unfold IsOpen
    rw [h]
    exact hopen

theorem isOpen_enter (s : Scopes) (file : FileId) (line : Nat) (name : String) :
    (s.enter file line name).IsOpen file line name := by
  unfold IsOpen
  rw [openings_enter_self]
  exact Openings.insert_insert line name _

theorem kept_enter (h : file' = file → line ≤ later) (s : Scopes) (name : String) :
    Kept file line s (s.enter file' later name) := by
  by_cases hfile : file' = file
  · subst hfile
    constructor
    · intro n hn
      unfold at?
      rw [openings_enter_self]
      exact Openings.at?_insert_of_lt (Nat.lt_of_lt_of_le hn (h rfl)) name _
    · intro n hn name' hopen
      unfold IsOpen
      rw [openings_enter_self]
      exact Openings.insert_insert_of_lt (Nat.lt_of_lt_of_le hn (h rfl)) hopen name
  · constructor
    · intro n hn
      unfold at?
      rw [openings_enter_ne hfile]
    · intro n hn name' hopen
      unfold IsOpen
      rw [openings_enter_ne hfile]
      exact hopen

theorem IsOpen.openings_enter {name : String} (h : s.IsOpen file line name)
    (file' : FileId) :
    (s.enter file line name).openings file' = s.openings file' := by
  by_cases hfile : file = file'
  · subst hfile
    rw [openings_enter_self]
    exact h
  · exact openings_enter_ne hfile s line name

def Increasing (s : Scopes) : Prop :=
  ∀ file, (s.openings file).Increasing

theorem Increasing.enter (h : s.Increasing) (file : FileId) (line : Nat) (name : String) :
    (s.enter file line name).Increasing := by
  intro file'
  by_cases hfile : file = file'
  · subst hfile
    rw [openings_enter_self]
    exact (h file).insert line name
  · rw [openings_enter_ne hfile]
    exact h file'

theorem IsOpen.mem {name : String} (h : s.IsOpen file line name) :
    (line, name) ∈ s.openings file := by
  rw [← h]
  exact Openings.mem_insert line name _

theorem IsOpen.at? {name : String} (h : s.IsOpen file line name)
    (hincreasing : s.Increasing) :
    s.at? file line = some name :=
  (hincreasing file).at?_eq_some h.mem (Nat.le_refl line) fun _ _ hle => hle

end Scopes

end Breadboard
