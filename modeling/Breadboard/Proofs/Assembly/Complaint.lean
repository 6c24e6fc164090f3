import Breadboard.Proofs.Assembly.Definition

namespace Breadboard.Assembly

structure FirstValued (p : Pass) : Prop where
  round : p.round = .first
  recorded : Recorded builtins p
  firstValues : ∀ key, p.firstValues[key]? =
    (definitions key p.listing.toList).head?.map Prod.fst

theorem FirstValued.define {p : Pass} (h : FirstValued p) (key : String) (value : Int32)
    (kind : SymbolKind) : FirstValued (p.define key value kind) := by
  refine ⟨?_, h.recorded.define key value kind, fun key' => ?_⟩
  · rw [p.define_eq]
    exact h.round
  · have hold := h.firstValues key'
    have hfirst : (p.define key value kind).firstValues =
        if definitions key p.listing.toList = [] then p.firstValues.insert key value
        else p.firstValues := by
      rw [p.define_eq]
      dsimp only
      by_cases hnone : definitions key p.listing.toList = []
      · have hnew : p.defined.contains key = false :=
          Bool.eq_false_iff.2 fun hmem =>
            (h.recorded.defined key).1 (Std.ExtTreeSet.contains_iff_mem.1 hmem) hnone
        simp [hnone, hnew, h.round]
      · have hknown : p.defined.contains key = true :=
          Std.ExtTreeSet.contains_iff_mem.2 ((h.recorded.defined key).2 hnone)
        simp [hnone, hknown]
    rw [hfirst, definitions_listing_define]
    by_cases hkey : key = key'
    · subst hkey
      cases hdefs : definitions key p.listing.toList with
      | nil => simp
      | cons first rest => simpa [hdefs] using hold
    · split
      · rw [Std.ExtTreeMap.getElem?_insert]
        simpa [hkey] using hold
      · simpa [hkey] using hold

private theorem preserved_firstValued : Preserved FirstValued := by
  refine preserved_of_quiet ?_ fun key value kind h => h.define key value kind
  intro p p' hquiet h
  refine ⟨hquiet.round.trans h.round, h.recorded.quiet hquiet, fun key => ?_⟩
  rw [hquiet.firstValues, hquiet.definitions]
  exact h.firstValues key

/-- The definition that a symbol gets, as far as complaints are about it. -/
abbrev Pass.complaintAbout? (p : Pass) (key : String) (value : Int32)
    (kind : SymbolKind) :
    Option WarningKind :=
  p.complaint? key value kind (p.symbols.define key ⟨value, kind, some p.line⟩).1

theorem mem_warnings_define_iff {p : Pass} (hround : p.round = .second) (key : String)
    (value : Int32) (kind : SymbolKind) (w : Warning) :
    w ∈ (p.define key value kind).warnings ↔
      w ∈ p.warnings ∨
        ∃ complaint, p.complaintAbout? key value kind = some complaint ∧
          w = ⟨complaint, p.line⟩ := by
  unfold Pass.define Pass.complaintAbout?
  dsimp only
  cases p.complaint? key value kind (p.symbols.define key ⟨value, kind,
    some p.line⟩).1 with
  | none => simp [Pass.record]
  | some complaint => simp [Pass.record, Pass.warn, hround]

private theorem exists_warning_define_iff {p : Pass} (hround : p.round = .second)
    (key : String) (value : Int32) (kind : SymbolKind) (Q : WarningKind → Prop) :
    (∃ w ∈ (p.define key value kind).warnings, Q w.kind) ↔
      (∃ w ∈ p.warnings, Q w.kind) ∨
        ∃ complaint, p.complaintAbout? key value kind = some complaint ∧ Q complaint := by
  simp only [mem_warnings_define_iff hround]
  constructor
  · rintro ⟨w, hw | ⟨complaint, hcomplaint, rfl⟩, hkind⟩
    · exact .inl ⟨w, hw, hkind⟩
    · exact .inr ⟨complaint, hcomplaint, hkind⟩
  · rintro (⟨w, hw, hkind⟩ | ⟨complaint, hcomplaint, hkind⟩)
    · exact ⟨w, .inl hw, hkind⟩
    · exact ⟨_, .inr ⟨complaint, hcomplaint, rfl⟩, hkind⟩

theorem complaint?_eq_some_iff_of_new {p : Pass} {key : String} (h : key ∉ p.defined)
    (value : Int32) (kind : SymbolKind) (complaint : WarningKind) :
    p.complaintAbout? key value kind = some complaint ↔
      kind = .label ∧ ∃ old, p.firstValues[key]? = some old ∧ old ≠ value ∧
        complaint = .phaseDrift key old value := by
  have hnew : ¬ p.defined.contains key := fun hmem =>
    h (Std.ExtTreeSet.contains_iff_mem.1 hmem)
  unfold Pass.complaintAbout? Pass.complaint?
  rw [if_neg hnew]
  by_cases hkind : kind = .label
  · rw [if_pos hkind, Option.map_eq_some_iff]
    constructor
    · rintro ⟨old, hold, rfl⟩
      obtain ⟨hfirst, hne⟩ := Option.filter_eq_some_iff.1 hold
      exact ⟨hkind, old, hfirst, of_decide_eq_true hne, rfl⟩
    · rintro ⟨-, old, hfirst, hne, rfl⟩
      exact ⟨old, Option.filter_eq_some_iff.2 ⟨hfirst, decide_eq_true hne⟩, rfl⟩
  · rw [if_neg hkind]
    constructor
    · intro hnone
      cases hnone
    · rintro ⟨hlabel, -⟩
      exact absurd hlabel hkind

theorem complaint?_eq_some_iff_of_known {p : Pass} {key : String} (h : key ∈ p.defined)
    (value : Int32) (kind : SymbolKind) (complaint : WarningKind) :
    p.complaintAbout? key value kind = some complaint ↔
      ∃ old, p.symbols.value? key = some old ∧ old ≠ value ∧
        complaint = .labelRedefined key old value := by
  unfold Pass.complaintAbout? Pass.complaint? SymbolTable.define
  rw [if_pos (Std.ExtTreeSet.contains_iff_mem.2 h)]
  dsimp only
  cases p.symbols.value? key with
  | none => simp
  | some old =>
      by_cases hsame : old = value
      · simp [hsame]
      · simp [hsame]
        exact eq_comm

/-- A label has moved: it is first defined with another value than it first
had in the first pass. -/
def Moved (firstValues : Std.ExtTreeMap String Int32) (entries : List ListingEntry)
    (key : String) (old value : Int32) : Prop :=
  (definitions key entries).head? = some (value, .label) ∧ firstValues[key]? =
    some old ∧ old ≠ value

/-- The second pass reports every label that has moved and no other, and it reports every
symbol that has got two values. -/
structure Vetted (start : SymbolTable) (first : Std.ExtTreeMap String Int32) (p : Pass) :
    Prop where
  round : p.round = .second
  recorded : Recorded start p
  firstValues : p.firstValues = first
  drift : ∀ key old value, Moved first p.listing.toList key old value ↔
    ∃ w ∈ p.warnings, w.kind = .phaseDrift key old value
  redefinition : ∀ key, ∀ x ∈ definitions key p.listing.toList,
    ∀ y ∈ definitions key p.listing.toList, x.1 ≠ y.1 →
      ∃ w ∈ p.warnings, ∃ old value, w.kind = .labelRedefined key old value

namespace Vetted

variable {start : SymbolTable} {first : Std.ExtTreeMap String Int32} {p p' : Pass}

private theorem exists_warning_iff (hquiet : Quiet p p') {Q : WarningKind → Prop}
    (hQ : ∀ kind, Q kind → kind.ofDefinition) :
    (∃ w ∈ p'.warnings, Q w.kind) ↔ ∃ w ∈ p.warnings, Q w.kind := by
  constructor
  · rintro ⟨w, hw, hkind⟩
    exact ⟨w, (hquiet.warnings w (hQ _ hkind)).1 hw, hkind⟩
  · rintro ⟨w, hw, hkind⟩
    exact ⟨w, (hquiet.warnings w (hQ _ hkind)).2 hw, hkind⟩

theorem quiet (h : Vetted start first p) (hquiet : Quiet p p') :
    Vetted start first p' := by
  refine ⟨hquiet.round.trans h.round, h.recorded.quiet hquiet,
    hquiet.firstValues.trans h.firstValues, fun key old value => ?_, fun key => ?_⟩
  · rw [Moved, hquiet.definitions]
    refine (h.drift key old value).trans
      (exists_warning_iff hquiet (Q := (· = .phaseDrift key old value)) ?_).symm
    rintro _ rfl
    rfl
  · rw [hquiet.definitions]
    intro x hx y hy hne
    refine (exists_warning_iff hquiet
      (Q := fun kind => ∃ old value, kind = .labelRedefined key old value) ?_).2
        (h.redefinition key x hx y hy hne)
    rintro _ ⟨_, _, rfl⟩
    rfl

theorem value?_eq_getLast (h : Vetted start first p) {key : String}
    (hdefs : definitions key p.listing.toList ≠ []) :
    p.symbols.value? key = some ((definitions key p.listing.toList).getLast hdefs).1 := by
  rw [h.recorded.symbols, valueAfter, List.getLast?_eq_some_getLast hdefs]
  rfl

private theorem drift_define (h : Vetted start first p) (key : String) (value : Int32)
    (kind : SymbolKind) (key' : String) (old value' : Int32) :
    Moved first (p.define key value kind).listing.toList key' old value' ↔
      ∃ w ∈ (p.define key value kind).warnings, w.kind = .phaseDrift key' old value' := by
  rw [exists_warning_define_iff h.round key value kind (· = .phaseDrift key' old value'),
    ← h.drift key' old value', Moved, Moved, definitions_listing_define]
  by_cases hdefs : definitions key p.listing.toList = []
  · have hnew : key ∉ p.defined := fun hmem => (h.recorded.defined key).1 hmem hdefs
    simp only [complaint?_eq_some_iff_of_new hnew]
    by_cases hkey : key = key'
    · subst hkey
      rw [hdefs, if_pos rfl, h.firstValues]
      constructor
      · rintro ⟨hhead, hfirst, hne⟩
        cases hhead
        exact .inr ⟨_, ⟨rfl, old, hfirst, hne, rfl⟩, rfl⟩
      · rintro (⟨hhead, -⟩ | ⟨_, ⟨rfl, old', hfirst, hne, rfl⟩, heq⟩)
        · cases hhead
        · cases heq
          exact ⟨rfl, hfirst, hne⟩
    · rw [if_neg hkey, List.append_nil]
      constructor
      · exact .inl
      · rintro (hmoved | ⟨_, ⟨-, _, -, -, rfl⟩, heq⟩)
        · exact hmoved
        · cases heq
          exact absurd rfl hkey
  · -- A later definition is never said to have moved.
    have hknown := (h.recorded.defined key).2 hdefs
    have hhead :
        (definitions key' p.listing.toList ++
            if key = key' then [(value, kind)] else []).head? =
          (definitions key' p.listing.toList).head? := by
      by_cases hkey : key = key'
      · subst hkey
        rw [List.head?_append, Option.or_of_isSome (List.isSome_head?.2 hdefs)]
      · rw [if_neg hkey, List.append_nil]
    rw [hhead]
    constructor
    · exact .inl
    · rintro (hmoved | ⟨complaint, hcomplaint, rfl⟩)
      · exact hmoved
      · obtain ⟨_, -, -, heq⟩ :=
          (complaint?_eq_some_iff_of_known hknown value kind _).1 hcomplaint
        cases heq

private theorem redefinition_define (h : Vetted start first p) (key : String)
    (value : Int32) (kind : SymbolKind) (key' : String) {x y : Int32 × SymbolKind}
    (hx : x ∈ definitions key' (p.define key value kind).listing.toList)
    (hy : y ∈ definitions key' (p.define key value kind).listing.toList)
    (hne : x.1 ≠ y.1) :
    ∃ w ∈ (p.define key value kind).warnings, ∃ old value, w.kind =
      .labelRedefined key' old value := by
  rw [exists_warning_define_iff h.round key value kind
    fun kind => ∃ old value, kind = .labelRedefined key' old value]
  rw [definitions_listing_define] at hx hy
  by_cases hkey : key = key'
  · subst hkey
    rw [if_pos rfl] at hx hy
    by_cases hsame : ∀ z ∈ definitions key p.listing.toList, z.1 = value
    · have hall : ∀ z ∈ definitions key p.listing.toList ++ [(value, kind)],
        z.1 = value := by
        intro z hz
        rcases List.mem_append.1 hz with hz | hz
        · exact hsame z hz
        · rw [List.mem_singleton.1 hz]
      exact absurd ((hall x hx).trans (hall y hy).symm) hne
    · -- Either the last value before differs from the new one, or from one that came
      -- before it.
      simp only [not_forall] at hsame
      obtain ⟨z, hz, hzne⟩ := hsame
      have hdefs := List.ne_nil_of_mem hz
      have hknown := (h.recorded.defined key).2 hdefs
      by_cases hlast : ((definitions key p.listing.toList).getLast hdefs).1 = value
      · exact .inl (h.redefinition key z hz _ (List.getLast_mem hdefs) (by rwa [hlast]))
      · exact .inr ⟨_, (complaint?_eq_some_iff_of_known hknown value kind _).2
          ⟨_, h.value?_eq_getLast hdefs, hlast, rfl⟩, _, _, rfl⟩
  · rw [if_neg hkey, List.append_nil] at hx hy
    exact .inl (h.redefinition key' x hx y hy hne)

theorem define (h : Vetted start first p) (key : String) (value : Int32)
    (kind : SymbolKind) :
    Vetted start first (p.define key value kind) := by
  refine ⟨?_, h.recorded.define key value kind, ?_, h.drift_define key value kind,
    fun key' _ hx _ hy => h.redefinition_define key value kind key' hx hy⟩
  · rw [p.define_eq]
    exact h.round
  · rw [p.define_eq]
    dsimp only
    rw [if_neg (by simp [h.round])]
    exact h.firstValues

end Vetted

private theorem preserved_vetted (start : SymbolTable)
    (first : Std.ExtTreeMap String Int32) :
    Preserved (Vetted start first) :=
  preserved_of_quiet (fun hquiet h => h.quiet hquiet) fun key value kind h =>
    h.define key value kind

end Breadboard.Assembly

namespace Breadboard.Assembler

open Assembly

variable {a : Assembler} {d : Disk} {root : FileId}

theorem firstValued_firstPass (h : (a.firstPass d root).error? = none) :
    FirstValued (a.firstPass d root).pass := by
  obtain ⟨_, -, hreads⟩ := reads_of_runPass rfl h
  refine preserved_firstValued.reads hreads ⟨rfl, recorded_of_empty rfl rfl rfl,
    fun key => ?_⟩
  exact Std.ExtTreeMap.getElem?_empty

theorem vetted_secondPass {first : PassResult}
    (h : (secondPass d root first).error? = none) :
    Vetted first.pass.symbols first.pass.firstValues (secondPass d root first).pass := by
  obtain ⟨_, -, hreads⟩ := reads_of_runPass rfl h
  refine (preserved_vetted _ _).reads hreads
    ⟨rfl, recorded_of_empty rfl rfl rfl, rfl, fun key old value => ?_, fun key x hx => ?_⟩
  · constructor
    · rintro ⟨hhead, -⟩
      cases hhead
    · rintro ⟨w, hw, -⟩
      exact absurd hw (Array.not_mem_empty w)
  · cases hx

end Breadboard.Assembler
