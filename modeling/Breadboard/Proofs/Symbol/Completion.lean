import Breadboard.Symbol.Table
import Mathlib.Data.List.Infix

namespace Breadboard.SymbolTable

variable {as bs cs r : List Char} {names names' : List (List Char)} {keys : List String}
  {t : SymbolTable} {scope : Option String} {start : String}

private theorem isPrefix_commonStart_iff : cs <+: commonStart as bs ↔
    cs <+: as ∧ cs <+: bs := by
  induction as generalizing bs cs with
  | nil =>
      rw [commonStart]
      · constructor
        · intro h
          rw [List.prefix_nil.1 h]
          exact ⟨List.nil_prefix, List.nil_prefix⟩
        · exact And.left
      · nofun
  | cons a as ih =>
      cases cs with
      | nil => exact iff_of_true List.nil_prefix ⟨List.nil_prefix, List.nil_prefix⟩
      | cons c cs =>
          cases bs with
          | nil =>
              rw [commonStart]
              · exact ⟨fun h => absurd (List.prefix_nil.1 h) (List.cons_ne_nil _ _),
                  And.right⟩
              · nofun
          | cons b bs =>
              rw [commonStart, List.cons_prefix_cons, List.cons_prefix_cons]
              by_cases hab : a = b
              · subst hab
                rw [if_pos rfl, List.cons_prefix_cons, ih]
                exact and_and_left
              · rw [if_neg hab, List.prefix_nil]
                constructor
                · nofun
                · rintro ⟨⟨rfl, -⟩, rfl, -⟩
                  exact absurd rfl hab

private theorem isPrefix_foldl_commonStart_iff :
    cs <+: names.foldl commonStart as ↔ cs <+: as ∧ ∀ name ∈ names, cs <+: name := by
  induction names generalizing as with
  | nil => simp
  | cons name names ih =>
      rw [List.foldl_cons, ih, isPrefix_commonStart_iff, List.forall_mem_cons, and_assoc]

theorem commonStartAll_eq_none_iff : commonStartAll names = none ↔ names = [] := by
  cases names with
  | nil => exact iff_of_true rfl rfl
  | cons name names => exact iff_of_false nofun nofun

theorem isPrefix_of_commonStartAll (h : commonStartAll names = some r) :
    cs <+: r ↔ ∀ name ∈ names, cs <+: name := by
  cases names with
  | nil => cases h
  | cons name names =>
      cases h
      rw [isPrefix_foldl_commonStart_iff, List.forall_mem_cons]

private theorem commonStartAll_congr (h : ∀ name, name ∈ names ↔ name ∈ names') :
    commonStartAll names = commonStartAll names' := by
  cases hr : commonStartAll names with
  | none =>
      rw [commonStartAll_eq_none_iff] at hr
      subst hr
      refine (commonStartAll_eq_none_iff.2 ?_).symm
      exact List.eq_nil_iff_forall_not_mem.2 fun name hname =>
        List.not_mem_nil ((h name).2 hname)
  | some r =>
      cases hr' : commonStartAll names' with
      | none =>
          rw [commonStartAll_eq_none_iff] at hr'
          subst hr'
          have hempty : names = [] :=
            List.eq_nil_iff_forall_not_mem.2 fun name hname =>
              List.not_mem_nil ((h name).1 hname)
          rw [hempty] at hr
          cases hr
      | some r' =>
          have hsame : ∀ cs, cs <+: r ↔ cs <+: r' := fun cs => by
            rw [isPrefix_of_commonStartAll hr, isPrefix_of_commonStartAll hr']
            exact forall_congr' fun name => imp_congr_left (h name)
          have hle := (hsame r).1 List.prefix_rfl
          have hge := (hsame r').2 List.prefix_rfl
          exact congrArg some (hle.eq_of_length_le hge.length_le)

private theorem dropStart?_eq_some_iff : dropStart? as cs = some bs ↔ cs = as ++ bs := by
  induction as generalizing cs with
  | nil => exact ⟨Option.some.inj, congrArg some⟩
  | cons a as ih =>
      cases cs with
      | nil => exact iff_of_false nofun nofun
      | cons c cs =>
          rw [dropStart?, List.cons_append, List.cons.injEq]
          by_cases hac : a = c
          · rw [if_pos hac, ih]
            exact (and_iff_right hac.symm).symm
          · rw [if_neg hac]
            exact iff_of_false nofun fun h => hac h.1.symm

def hidden (scope : Option String) (start : String) : String :=
  match scope with
  | some scope => if isLocalName start then scope else ""
  | none => ""

def candidates (keys : List String) (scope : Option String) (start : String) :
    List (List Char) :=
  keys.filterMap fun key =>
    (dropStart? (hidden scope start).toList key.toList).filter (start.toList.isPrefixOf ·)

def completeAmong (keys : List String) (scope : Option String) (start : String) :
    Option String :=
  (commonStartAll (candidates keys scope start)).map String.ofList

theorem complete_eq (t : SymbolTable) (scope : Option String) (start : String) :
    t.complete scope start = completeAmong t.keys scope start := by
  have hhidden : (if isLocalName start then scope.getD "" else "") =
    hidden scope start := by
    cases scope with
    | none => exact ite_self ""
    | some scope => rfl
  unfold complete
  rw [hhidden]
  rfl

theorem mem_candidates {name : List Char} : name ∈ candidates keys scope start ↔
    start.toList <+: name ∧ ∃ key ∈ keys, key.toList =
      (hidden scope start).toList ++ name := by
  simp only [candidates, List.mem_filterMap, Option.filter_eq_some_iff,
    dropStart?_eq_some_iff, List.isPrefixOf_iff_prefix]
  constructor
  · rintro ⟨key, hkey, heq, hstart⟩
    exact ⟨hstart, key, hkey, heq⟩
  · rintro ⟨hstart, key, hkey, heq⟩
    exact ⟨key, hkey, heq, hstart⟩

private theorem candidates_eq_nil_iff : candidates keys scope start = [] ↔
    ∀ key ∈ keys, ¬(hidden scope start ++ start).toList <+: key.toList := by
  rw [List.eq_nil_iff_forall_not_mem, String.toList_append]
  constructor
  · rintro h key hkey ⟨rest, hrest⟩
    rw [List.append_assoc] at hrest
    exact h (start.toList ++ rest) (mem_candidates.2 ⟨List.prefix_append _ _, key, hkey,
      hrest.symm⟩)
  · intro h name hname
    obtain ⟨hstart, key, hkey, heq⟩ := mem_candidates.1 hname
    refine h key hkey ?_
    rw [heq]
    exact (List.prefix_append_right_inj _).2 hstart

/-- What the completion of a name is: nothing if no symbol can be meant, and otherwise
what all of the names begin with that it can become, and nothing longer does. -/
structure Completes (t : SymbolTable) (scope : Option String) (start : String) :
    Prop where
  none_iff : t.complete scope start = none ↔
    ∀ key ∈ t, ¬(hidden scope start ++ start).toList <+: key.toList
  extends_start : ∀ {result}, t.complete scope start = some result →
    start.toList <+: result.toList
  common : ∀ {result}, t.complete scope start = some result → ∀ {name : String},
    hidden scope start ++ name ∈ t → start.toList <+: name.toList →
      result.toList <+: name.toList
  longest : ∀ {result}, t.complete scope start = some result → ∀ {other : String},
    (∀ name : String, hidden scope start ++ name ∈ t → start.toList <+: name.toList →
      other.toList <+: name.toList) →
    other.toList <+: result.toList
  unordered : ∀ {keys : List String}, (∀ key, key ∈ keys ↔ key ∈ t) →
    completeAmong keys scope start = t.complete scope start

private theorem mem_candidates_keys {name : String} :
    name.toList ∈ candidates t.keys scope start ↔
      start.toList <+: name.toList ∧ hidden scope start ++ name ∈ t := by
  simp only [mem_candidates, Std.ExtTreeMap.mem_keys, ← String.toList_append,
    String.toList_inj]
  exact and_congr_right fun _ => exists_eq_right

theorem isPrefix_of_complete {result other : String}
    (h : t.complete scope start = some result) :
    other.toList <+: result.toList ↔ ∀ name : String, hidden scope start ++ name ∈ t →
      start.toList <+: name.toList → other.toList <+: name.toList := by
  rw [complete_eq, completeAmong, Option.map_eq_some_iff] at h
  obtain ⟨r, hr, rfl⟩ := h
  rw [String.toList_ofList, isPrefix_of_commonStartAll hr]
  constructor
  · intro h name hkey hstart
    exact h name.toList (mem_candidates_keys.2 ⟨hstart, hkey⟩)
  · intro h name hname
    rw [← String.toList_ofList (l := name)] at hname ⊢
    obtain ⟨hstart, hkey⟩ := mem_candidates_keys.1 hname
    exact h (String.ofList name) hkey hstart

theorem completes (t : SymbolTable) (scope : Option String) (start : String) :
    t.Completes scope start where
  none_iff := by
    rw [complete_eq, completeAmong, Option.map_eq_none_iff, commonStartAll_eq_none_iff,
      candidates_eq_nil_iff]
    simp only [Std.ExtTreeMap.mem_keys]
  extends_start h := (isPrefix_of_complete h).2 fun _ _ hstart => hstart
  common h := (isPrefix_of_complete h).1 List.prefix_rfl _
  longest h := (isPrefix_of_complete h).2
  unordered {keys} hkeys := by
    rw [complete_eq, completeAmong, completeAmong]
    refine congrArg _ (commonStartAll_congr fun name => ?_)
    simp only [mem_candidates, hkeys, Std.ExtTreeMap.mem_keys]

example :
    let names := ["main", "main.loop", "main.load", "other.loop"]
    let t : SymbolTable := names.foldl (fun t name => t.insert name ⟨0, .label, none⟩) ∅
    t.complete (some "main") ".l" = some ".lo" ∧ t.complete none "m" = some "main" ∧
      t.complete (some "main") ".x" = none := by
  decide +kernel

end Breadboard.SymbolTable
