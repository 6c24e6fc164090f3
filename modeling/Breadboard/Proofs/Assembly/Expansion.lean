import Breadboard.Proofs.Assembly.Inclusion
import Breadboard.Proofs.Source.Faithful

namespace Breadboard

private theorem Path.same_congr {p q : Path} (h : p.same q) : p.same = q.same := by
  funext r
  rw [Path.same, Path.same, Path.same_iff.1 h]

/-- Where a name leads that is included from a file, or from a text: into the
directory of the file or one of the directories to search, whichever first has such a
file, or else where it says. -/
def Disk.includePath (d : Disk) (dirs : List Path) (here? : Option Path) (name : String) :
    Path :=
  let candidates := ((here?.bind Path.parent?).toList ++ dirs).map (·.join ⟨name⟩)
  d.canonical ((candidates.find? d.isFile).getD ⟨name⟩)

namespace Assembly

/-- A line of a file, or of a text that is no file, counted from zero. -/
structure SourceLine where
  path? : Option Path
  line : Nat
  text : String
deriving DecidableEq, Repr

def SourceLine.key (l : SourceLine) : Option Path × Nat :=
  (l.path?, l.line)

/-- The expansion of the lines from the number `n` on of a file or of a text. Some files
were opened before, and some more are afterwards. -/
inductive Expands (d : Disk) (dirs : List Path) :
    Option Path → Nat → List String → List Path → List SourceLine → List Path → Prop
  | nil {here? : Option Path} {n : Nat} {opened : List Path} :
      Expands d dirs here? n [] opened [] opened
  | plain {here? : Option Path} {n : Nat} {text : String} {lines : List String}
      {opened opened' : List Path} {out : List SourceLine}
      (no_name : includedName? (.ofString text) = none)
      (rest : Expands d dirs here? (n + 1) lines opened out opened') :
      Expands d dirs here? n (text :: lines) opened (⟨here?, n, text⟩ :: out) opened'
  /-- A file that was opened before is passed over. -/
  | again {here? : Option Path} {n : Nat} {text name : String} {lines : List String}
      {opened opened' : List Path} {out : List SourceLine}
      (name_eq : includedName? (.ofString text) = some name)
      (old : opened.any (d.includePath dirs here? name).same = true)
      (rest : Expands d dirs here? (n + 1) lines opened out opened') :
      Expands d dirs here? n (text :: lines) opened (⟨here?, n, text⟩ :: out) opened'
  | into {here? : Option Path} {n : Nat} {text name : String} {path : Path}
      {lines lines' : List String} {opened opened₁ opened' : List Path}
        {inner out : List SourceLine}
      (name_eq : includedName? (.ofString text) = some name)
      (new : ¬ opened.any (d.includePath dirs here? name).same = true)
      (file : d.Holds (d.includePath dirs here? name) path lines')
      (into : Expands d dirs (some path) 0 lines' (path :: opened) inner opened₁)
      (rest : Expands d dirs here? (n + 1) lines opened₁ out opened') :
      Expands d dirs here? n (text :: lines) opened
        (⟨here?, n, text⟩ :: (inner ++ out)) opened'
  /-- What cannot be read has no lines. -/
  | missing {here? : Option Path} {n : Nat} {text name : String} {lines : List String}
      {opened opened' : List Path} {out : List SourceLine}
      (name_eq : includedName? (.ofString text) = some name)
      (new : ¬ opened.any (d.includePath dirs here? name).same = true)
      (no_file : ∀ path lines', ¬ d.Holds (d.includePath dirs here? name) path lines')
      (rest : Expands d dirs here? (n + 1) lines opened out opened') :
      Expands d dirs here? n (text :: lines) opened (⟨here?, n, text⟩ :: out) opened'

/-- The expansion of a program from its root, which counts as opened. -/
inductive ExpandsFrom (d : Disk) (dirs : List Path) (root : Source) :
    List SourceLine → Prop
  | readable {lines : List String} {out : List SourceLine} {opened : List Path}
      (load : root.load d = .ok lines)
      (expands : Expands d dirs root.path? 0 lines root.path?.toList out opened) :
      ExpandsFrom d dirs root out
  | unreadable {e : DiskError} (load : root.load d = .error e) :
    ExpandsFrom d dirs root []

variable {d : Disk} {dirs : List Path} {here? : Option Path} {n : Nat}
    {lines : List String} {opened opened' opened'' : List Path}
    {out out' : List SourceLine} {root : Source}

theorem Expands.unique (h : Expands d dirs here? n lines opened out opened')
    (h' : Expands d dirs here? n lines opened out' opened'') :
    out' = out ∧ opened'' = opened' := by
  induction h generalizing out' opened'' with
  | nil =>
      cases h'
      exact ⟨rfl, rfl⟩
  | plain no_name _ ih =>
      cases h' with
      | plain _ rest =>
          obtain ⟨rfl, rfl⟩ := ih rest
          exact ⟨rfl, rfl⟩
      | again name_eq | into name_eq | missing name_eq => cases no_name.symm.trans name_eq
  | again name_eq old _ ih =>
      cases h' with
      | plain no_name => cases no_name.symm.trans name_eq
      | again _ _ rest =>
          obtain ⟨rfl, rfl⟩ := ih rest
          exact ⟨rfl, rfl⟩
      | into name_eq' new | missing name_eq' new =>
          cases name_eq.symm.trans name_eq'
          exact absurd old new
  | into name_eq new file _ _ ih_into ih =>
      cases h' with
      | plain no_name => cases no_name.symm.trans name_eq
      | again name_eq' old =>
          cases name_eq.symm.trans name_eq'
          exact absurd old new
      | into name_eq' _ file' into rest =>
          cases name_eq.symm.trans name_eq'
          obtain ⟨rfl, rfl⟩ := file.unique file'
          obtain ⟨rfl, rfl⟩ := ih_into into
          obtain ⟨rfl, rfl⟩ := ih rest
          exact ⟨rfl, rfl⟩
      | missing name_eq' _ no_file =>
          cases name_eq.symm.trans name_eq'
          exact absurd file (no_file _ _)
  | missing name_eq new no_file _ ih =>
      cases h' with
      | plain no_name => cases no_name.symm.trans name_eq
      | again name_eq' old =>
          cases name_eq.symm.trans name_eq'
          exact absurd old new
      | into name_eq' _ file =>
          cases name_eq.symm.trans name_eq'
          exact absurd file (no_file _ _)
      | missing _ _ _ rest =>
          obtain ⟨rfl, rfl⟩ := ih rest
          exact ⟨rfl, rfl⟩

theorem ExpandsFrom.unique (h : ExpandsFrom d dirs root out)
    (h' : ExpandsFrom d dirs root out') :
    out' = out := by
  cases h with
  | readable load expands =>
      cases h' with
      | readable load' expands' =>
          cases load.symm.trans load'
          exact (expands.unique expands').1
      | unreadable load' => cases load.symm.trans load'
  | unreadable load =>
      cases h' with
      | readable load' => cases load.symm.trans load'
      | unreadable => rfl

theorem ExpandsFrom.of_grown {root' : Source} (h : ExpandsFrom d dirs root out)
    (hgrown : root.Grown d root') : ExpandsFrom d dirs root' out := by
  cases h with
  | readable load expands =>
      rw [← hgrown.path?_eq] at expands
      exact .readable (hgrown.load_eq.trans load) expands
  | unreadable load => exact .unreadable (hgrown.load_eq.trans load)

theorem Expands.opened_subset (h : Expands d dirs here? n lines opened out opened') :
    opened ⊆ opened' := by
  induction h with
  | nil => exact List.Subset.refl _
  | plain _ _ ih | again _ _ _ ih | missing _ _ _ _ ih => exact ih
  | into _ _ _ _ _ ih_into ih =>
      exact List.Subset.trans (List.subset_cons_self _ _) (List.Subset.trans ih_into ih)

theorem any_same_of_subset {p : Path} (hsubset : opened ⊆ opened')
    (h : opened.any p.same = true) :
    opened'.any p.same = true := by
  obtain ⟨q, hq, hsame⟩ := List.any_eq_true.1 h
  exact List.any_eq_true.2 ⟨q, hsubset hq, hsame⟩

/-- The number of files that were not opened yet. -/
def unopened (d : Disk) (opened : List Path) : Nat :=
  (d.nodes.map fun node => if opened.any (Disk.absolutePath node.1).same
    then 0 else 1).sum

private theorem unopened_le_of_subset (h : opened ⊆ opened') :
    unopened d opened' ≤ unopened d opened := by
  refine List.sum_le_sum fun node _ => ?_
  by_cases hopened : opened.any (Disk.absolutePath node.1).same
  · simp [hopened, any_same_of_subset h hopened]
  · rw [if_neg hopened]
    split
    · exact Nat.zero_le _
    · exact Nat.le_refl _

private theorem unopened_cons_lt {path target : Path} (hfile : d.Holds target path lines)
    (hnew : ¬ opened.any target.same = true) :
    unopened d (path :: opened) < unopened d opened := by
  obtain ⟨place, content, -, hnode, rfl⟩ := hfile.exists_place
  have hnew' : ¬ opened.any (Disk.absolutePath place).same = true := by
    rwa [← Path.same_congr hfile.same]
  refine sum_map_add_le (n := 1) hnode (fun node => ?_) ?_
  · by_cases hopened : opened.any (Disk.absolutePath node.1).same
    · simp [hopened]
    · rw [if_neg hopened]
      split
      · exact Nat.zero_le _
      · exact Nat.le_refl _
  · rw [if_neg hnew',
      if_pos (List.any_eq_true.2 ⟨_, List.mem_cons_self, Path.same_refl _⟩)]

/-- Each file is opened only once, so the expansion ends however the
files include each other. -/
theorem exists_expands (d : Disk) (dirs : List Path) (here? : Option Path) (n : Nat)
    (lines : List String) (opened : List Path) :
    ∃ out opened', Expands d dirs here? n lines opened out opened' := by
  obtain ⟨bound, hbound⟩ : ∃ bound, unopened d opened < bound := ⟨_, Nat.lt_succ_self _⟩
  induction bound generalizing here? n lines opened with
  | zero => exact absurd hbound (Nat.not_lt_zero _)
  | succ bound ih =>
      induction lines generalizing n opened with
      | nil => exact ⟨_, _, .nil⟩
      | cons text lines ih_lines =>
          cases hname : includedName? (.ofString text) with
          | none =>
              obtain ⟨out, opened', hrest⟩ := ih_lines (n + 1) opened hbound
              exact ⟨_, _, .plain hname hrest⟩
          | some name =>
              by_cases hopened : opened.any (d.includePath dirs here? name).same
              · obtain ⟨out, opened', hrest⟩ := ih_lines (n + 1) opened hbound
                exact ⟨_, _, .again hname hopened hrest⟩
              · by_cases hfile : ∃ path lines',
                  d.Holds (d.includePath dirs here? name) path lines'
                · obtain ⟨path, lines', hfile⟩ := hfile
                  have hlt := unopened_cons_lt hfile hopened
                  obtain ⟨inner, opened₁, hinto⟩ :=
                    ih (some path) 0 lines' (path :: opened) (by omega)
                  have hle := unopened_le_of_subset (d := d) hinto.opened_subset
                  obtain ⟨out, opened', hrest⟩ := ih_lines (n + 1) opened₁ (by omega)
                  exact ⟨_, _, .into hname hopened hfile hinto hrest⟩
                · obtain ⟨out, opened', hrest⟩ := ih_lines (n + 1) opened hbound
                  exact ⟨_, _, .missing hname hopened (by simpa using hfile) hrest⟩

theorem exists_expandsFrom (d : Disk) (dirs : List Path) (root : Source) :
    ∃ out, ExpandsFrom d dirs root out := by
  cases hload : root.load d with
  | error e => exact ⟨[], .unreadable hload⟩
  | ok lines =>
      obtain ⟨out, opened, hexpands⟩ :=
        exists_expands d dirs root.path? 0 lines root.path?.toList
      exact ⟨out, .readable hload hexpands⟩

/-- The files whose lines an include brings in were not opened before, and are
afterwards. -/
def Fresh (opened opened' : List Path) (l : SourceLine) : Prop :=
  ∃ path, l.path? = some path ∧ ¬ opened.any path.same = true ∧
    opened'.any path.same = true

theorem Fresh.widen {opened₁ opened₂ : List Path} {l : SourceLine}
    (h : Fresh opened₁ opened₂ l) (hbefore : opened ⊆ opened₁)
    (hafter : opened₂ ⊆ opened') : Fresh opened opened' l := by
  obtain ⟨path, hpath, hnew, hold⟩ := h
  exact ⟨path, hpath, fun hopened => hnew (any_same_of_subset hbefore hopened),
    any_same_of_subset hafter hold⟩

private theorem Fresh.of_file {target path : Path} {l : SourceLine}
    (h : l.path? = some path ∨ Fresh (path :: opened) opened' l)
    (hfile : d.Holds target path lines) (hnew : ¬ opened.any target.same = true)
    (hopened : path :: opened ⊆ opened') :
    Fresh opened opened' l := by
  obtain hpath | hfresh := h
  · refine ⟨path, hpath, ?_, List.any_eq_true.2 ⟨path, hopened List.mem_cons_self,
      path.same_refl⟩⟩
    rwa [← Path.same_congr hfile.same]
  · exact hfresh.widen (List.subset_cons_self _ _) (List.Subset.refl _)

theorem Expands.mem (h : Expands d dirs here? n lines opened out opened') {l : SourceLine}
    (hl : l ∈ out) : l.path? = here? ∧ n ≤ l.line ∨ Fresh opened opened' l := by
  induction h with
  | nil => cases hl
  | plain _ _ ih | again _ _ _ ih | missing _ _ _ _ ih =>
      rcases List.mem_cons.1 hl with rfl | hl
      · exact .inl ⟨rfl, Nat.le_refl _⟩
      · exact (ih hl).imp_left fun ⟨hpath, hline⟩ => ⟨hpath, Nat.le_of_succ_le hline⟩
  | into _ new file into rest ih_into ih =>
      rcases List.mem_cons.1 hl with rfl | hl
      · exact .inl ⟨rfl, Nat.le_refl _⟩
      · rcases List.mem_append.1 hl with hl | hl
        · have hfresh := Fresh.of_file ((ih_into hl).imp_left And.left) file new
            into.opened_subset
          exact .inr (hfresh.widen (List.Subset.refl _) rest.opened_subset)
        · obtain ⟨hpath, hline⟩ | hfresh := ih hl
          · exact .inl ⟨hpath, Nat.le_of_succ_le hline⟩
          · have hbefore := List.Subset.trans (List.subset_cons_self _ _)
              into.opened_subset
            exact .inr (hfresh.widen hbefore (List.Subset.refl _))

private theorem Expands.not_mem
    (h : Expands d dirs here? (n + 1) lines opened out opened')
    (hhere : ∀ path ∈ here?, opened.any path.same = true) {text : String} :
    (⟨here?, n, text⟩ : SourceLine).key ∉ out.map SourceLine.key := by
  intro hmem
  obtain ⟨l, hl, hkey⟩ := List.mem_map.1 hmem
  cases hkey
  obtain ⟨-, hline⟩ | ⟨path, hpath, hnew, -⟩ := h.mem hl
  · exact absurd hline (Nat.not_succ_le_self _)
  · exact hnew (hhere path hpath)

theorem Expands.nodup (h : Expands d dirs here? n lines opened out opened')
    (hhere : ∀ path ∈ here?, opened.any path.same = true) :
    (out.map SourceLine.key).Nodup := by
  induction h with
  | nil => exact List.nodup_nil
  | plain _ rest ih | again _ _ rest ih | missing _ _ _ rest ih =>
      exact List.nodup_cons.2 ⟨rest.not_mem hhere, ih hhere⟩
  | @into here? n text name path lines lines' opened opened₁ opened' inner out _ new
    file into rest ih_into ih =>
      have hsubset := List.Subset.trans (List.subset_cons_self _ _) into.opened_subset
      have hhere' := fun path hpath => any_same_of_subset hsubset (hhere path hpath)
      have hinner : ∀ l ∈ inner, Fresh opened opened₁ l := fun l hl =>
        Fresh.of_file ((into.mem hl).imp_left And.left) file new into.opened_subset
      have hself : ∀ p ∈ some path, (path :: opened).any p.same = true := by
        rintro p ⟨⟩
        exact List.any_eq_true.2 ⟨path, List.mem_cons_self, path.same_refl⟩
      rw [List.map_cons, List.map_append, List.nodup_cons, List.nodup_append,
        List.mem_append, not_or]
      refine ⟨⟨fun hmem => ?_, rest.not_mem hhere'⟩, ih_into hself, ih hhere', ?_⟩
      · obtain ⟨l, hl, hkey⟩ := List.mem_map.1 hmem
        cases hkey
        obtain ⟨p, hp, hnew, -⟩ := hinner l hl
        exact hnew (hhere p hp)
      · rintro key hkey key' hkey' rfl
        obtain ⟨l, hl, rfl⟩ := List.mem_map.1 hkey
        obtain ⟨l', hl', heq⟩ := List.mem_map.1 hkey'
        have hpaths : l'.path? = l.path? := congrArg Prod.fst heq
        obtain ⟨p, hp, hnew, hold⟩ := hinner l hl
        obtain ⟨hpath, -⟩ | ⟨p', hp', hnew', -⟩ := rest.mem hl'
        · exact hnew (hhere p (hpath.symm.trans (hpaths.trans hp)))
        · cases hp.symm.trans (hpaths.symm.trans hp')
          exact hnew' hold

theorem ExpandsFrom.nodup (h : ExpandsFrom d dirs root out) :
    (out.map SourceLine.key).Nodup := by
  cases h with
  | readable _ expands =>
      refine expands.nodup fun path hpath => ?_
      exact List.any_eq_true.2 ⟨path, Option.mem_toList.2 hpath, path.same_refl⟩
  | unreadable => exact List.nodup_nil

end Assembly

end Breadboard
