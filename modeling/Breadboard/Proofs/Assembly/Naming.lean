import Breadboard.Proofs.Assembly.Within

namespace Breadboard.Assembly

open Read

variable {p p' : Pass} {tokens : List Token} {line : Line} {b : Beginning} {α : Type}

/-- The label that a line begins with, if it does, may be one and may stand there. -/
def Beginning.Admitted (flags : Flags) : Beginning → Prop
  | .label name _ => isLabelName name = true
  | .bareLabel name _ => flags.requireColon = false ∧ isLabelName name = true
  | _ => True

private theorem bind_label {name : String} (h : isLabelName name = true)
    (f : PUnit → Assembling α) :
    (label name >>= f) p = f () (p.defineLabel name) := by
  unfold label
  rw [if_pos h]
  rfl

private theorem readLine_eq_afterLabel (hbeginning : beginning line = .ok b)
    (h : b.Admitted p.flags) :
    readLine line p = afterLabel line b (labelled p b) := by
  unfold readLine
  rw [hbeginning]
  cases b with
  | nothing | assignment | statement => rfl
  | label name rest => exact bind_label h _
  | bareLabel name rest =>
      obtain ⟨hcolon, hname⟩ := h
      change (if p.flags.requireColon = true then _ else _ :
        Assembling (Option String)) p = _
      rw [if_neg (by simp [hcolon])]
      exact bind_label hname _

theorem admitted_of_readLine {file? : Option String} (hbeginning : beginning line = .ok b)
    (h : readLine line p = .ok file? p') : b.Admitted p.flags := by
  have hlabel : ∀ {name : String} {a : PUnit} {q q' : Pass}, label name q = .ok a q' →
      isLabelName name = true := by
    intro name a q q' h
    unfold label at h
    split at h
    · assumption
    · cases h
  obtain ⟨_, hbeginning', h⟩ := lift_bind_eq_ok_iff.1 h
  cases hbeginning.symm.trans hbeginning'
  cases b with
  | nothing | assignment | statement => trivial
  | label name rest =>
      obtain ⟨_, _, hread, -⟩ := bind_eq_ok_iff.1 h
      exact hlabel hread
  | bareLabel name rest =>
      obtain ⟨_, _, hget, h⟩ := bind_eq_ok_iff.1 h
      cases hget
      split at h
      · obtain ⟨_, _, hthrow, -⟩ := bind_eq_ok_iff.1 h
        cases hthrow
      · rename_i hcolon
        obtain ⟨_, _, hread, -⟩ := bind_eq_ok_iff.1 h
        exact ⟨Bool.eq_false_iff.2 hcolon, hlabel hread⟩

private theorem readLine_of_not_admitted (hbeginning : beginning line = .ok b)
    (h : ¬b.Admitted p.flags) :
    ∃ e, readLine line p = .error e p := by
  have hlabel : ∀ {name : String} (f : PUnit → Assembling (Option String)),
      isLabelName name ≠ true → (label name >>= f) p = .error (.invalidLabel name) p := by
    intro name f hname
    unfold label
    rw [if_neg hname]
    rfl
  unfold readLine
  rw [hbeginning]
  cases b with
  | nothing | assignment | statement => exact absurd trivial h
  | label name rest => exact ⟨_, hlabel _ h⟩
  | bareLabel name rest =>
      change ∃ e, (if p.flags.requireColon = true then _ else _ :
        Assembling (Option String)) p = .error e p
      split
      · exact ⟨_, rfl⟩
      · rename_i hcolon
        exact ⟨_, hlabel _ fun hname => h ⟨Bool.eq_false_iff.2 hcolon, hname⟩⟩

private theorem isLabelName_of_admitted {name : String} {flags : Flags}
    (h : b.Admitted flags) (hlabel : b.label? = some name) : isLabelName name = true := by
  cases b with
  | label | bareLabel =>
      cases hlabel
      first | exact h | exact h.2
  | _ => cases hlabel

private theorem mem_of_begins {name : String} (h : Begins tokens b)
    (hlabel : b.label? = some name) :
    .word name ∈ tokens := by
  cases b with
  | label =>
      cases hlabel
      rw [show tokens = _ from h]
      exact List.mem_cons_self
  | bareLabel =>
      cases hlabel
      rw [h.1]
      exact List.mem_cons_self
  | _ => cases hlabel

private theorem labelled_of_local {name : String} (hlabel : b.label? = some name)
    (h : isLocalName name = true) (p : Pass) :
    labelled p b = (p.warnIf p.scope.isNone (.localOutsideScope name)).define
      (p.qualify name) (Int32.ofNat p.address.toNat) .label := by
  have hwarned : (p.warnIf p.scope.isNone (.localOutsideScope name)).qualify name =
      p.qualify name := by
    rw [p.warnIf_eq]
    exact qualify_congr rfl rfl name
  unfold labelled
  rw [hlabel]
  change p.defineLabel name = _
  unfold Pass.defineLabel
  dsimp only
  rw [if_pos h, hwarned]

private theorem labelled_of_global {name : String} (hlabel : b.label? = some name)
    (h : isLocalName name = false) (p : Pass) :
    labelled p b = (p.openScope (p.normalize name)).define (p.normalize name)
      (Int32.ofNat p.address.toNat) .label := by
  unfold labelled
  rw [hlabel]
  exact defineLabel_eq h p

/-- What a label does to the pass, with the name that it is defined under. -/
structure Labels (name : String) (p p' : Pass) : Prop where
  flags : p'.flags = p.flags
  line : p'.line = p.line
  scope : p'.scope = if isLocalName name then p.scope else some (p.normalize name)
  address : p'.address = p.address
  listing : p'.listing.toList = p.listing.toList ++
    [⟨p.line, .define (p'.qualify name) (Int32.ofNat p.address.toNat) .label⟩]

theorem labels_labelled {name : String} (hlabel : b.label? = some name) (p : Pass) :
    Labels name p (labelled p b) := by
  cases h : isLocalName name with
  | true =>
      rw [labelled_of_local hlabel h, Pass.define_eq, p.warnIf_eq]
      refine ⟨rfl, rfl, (if_pos h).symm, rfl, ?_⟩
      rw [qualify_congr (p := p) rfl rfl]
      exact Array.toList_push
  | false =>
      rw [labelled_of_global hlabel h, Pass.define_eq]
      refine ⟨rfl, rfl, (if_neg (by simp [h])).symm, rfl, ?_⟩
      rw [qualify_of_global h]
      exact Array.toList_push

theorem labelled_of_none (hlabel : b.label? = none) (p : Pass) : labelled p b = p := by
  unfold labelled
  rw [hlabel]

variable {l : Location} {text : String}

def Pass.afterLine (p : Pass) (l : Location) (text : String) : Pass :=
  match assembleLine l text p with
  | .ok _ p' => p'
  | .error _ p' => p'

def Pass.entriesOf (p : Pass) (l : Location) (text : String) : List ListingEntry :=
  (p.afterLine l text).listing.toList.drop p.listing.toList.length

theorem entriesOf_eq {added : List ListingEntry}
    (h : (p.afterLine l text).listing.toList = p.listing.toList ++ added) :
    p.entriesOf l text = added := by
  unfold Pass.entriesOf
  rw [h, List.drop_left]

theorem within_afterLine (hbeginning : beginning (.ofString text) = .ok b)
    (hadmitted : b.Admitted p.flags) :
    Within (Line.ofString text).tokens (labelled (p.enterLine l) b)
      (p.afterLine l text) := by
  have hline : assembleLine l text p =
      afterLabel (.ofString text) b (labelled (p.enterLine l) b) :=
    readLine_eq_afterLabel (p := p.enterLine l) hbeginning hadmitted
  have hstays := stays_afterLabel (begins_of_beginning hbeginning)
    (labelled (p.enterLine l) b)
  unfold Pass.afterLine
  rw [hline]
  generalize afterLabel (.ofString text) b (labelled (p.enterLine l) b) =
    outcome at hstays ⊢
  cases outcome with
  | ok _ p' => exact hstays.1
  | error _ p' => exact hstays

/-- What there is to tell of a line that begins in some way: in which scope it is, what it
adds to the listing, and which scope it opens. -/
structure Tells (p : Pass) (l : Location) (text : String) (b : Beginning) : Prop where
  flags : (p.afterLine l text).flags = p.flags
  line : (p.afterLine l text).line = l
  scope : (p.afterLine l text).scope =
    (b.scope?.map p.normalize).or (p.scopes.at? l.file l.line)
  scopes : (p.afterLine l text).scopes = match b.scope? with
    | none => p.scopes
    | some name => p.scopes.enter l.file l.line (p.normalize name)
  adds : Adds (Line.ofString text).tokens p (p.afterLine l text) (p.entriesOf l text)
  opens : ∀ scope, (∃ e ∈ p.entriesOf l text, e.event.scope? = some scope) ↔
    b.scope?.map p.normalize = some scope

private theorem scope?_of_label? (hlabel : b.label? = none) : b.scope? = none := by
  unfold Beginning.scope?
  rw [hlabel]
  rfl

private theorem scope?_define_label {name : String} (hlabel : b.label? = some name)
    (hname : isLabelName name = true) (value : Int32) :
    (Event.define (p.qualify name) value .label).scope? = b.scope?.map p.normalize := by
  change (if '.' ∈ (p.qualify name).toList then none else some (p.qualify name)) = _
  unfold Beginning.scope?
  rw [hlabel]
  cases h : isLocalName name with
  | true =>
      have hdot := dot_mem_of_isLocalName ((isLocalName_normalize p name).trans h)
      rw [Option.filter_some_neg (by simp [h]), if_pos]
      · rfl
      · rw [qualify_of_local h, String.toList_append]
        exact List.mem_append_right _ hdot
  | false =>
      rw [Option.filter_some_pos (by simp [h]), qualify_of_global h, if_neg]
      · rfl
      · rw [dot_mem_normalize]
        exact dot_notMem_of_isLabelName hname h

private theorem adds_enterLine (tokens : List Token) (p : Pass) (l : Location) :
    Adds tokens p (p.enterLine l) [⟨l, .visit p.address⟩] := by
  refine ⟨Array.toList_push, rfl, addressed_singleton.2 rfl, fun e hmem => ?_⟩
  cases List.mem_singleton.1 hmem
  exact ⟨rfl, trivial⟩

private theorem exists_head (hbeginning : beginning (.ofString text) = .ok b)
    (hadmitted : b.Admitted p.flags) :
    ∃ head, Adds (Line.ofString text).tokens p (labelled (p.enterLine l) b) head ∧
      ∀ scope, (∃ e ∈ head, e.event.scope? = some scope) ↔
        b.scope?.map p.normalize = some scope := by
  have henter := adds_enterLine (Line.ofString text).tokens p l
  cases hlabel : b.label? with
  | none =>
      rw [labelled_of_none hlabel, scope?_of_label? hlabel]
      refine ⟨_, henter, fun scope => iff_of_false ?_ (by simp)⟩
      rintro ⟨e, hmem, hopens⟩
      cases List.mem_singleton.1 hmem
      cases hopens
  | some name =>
      have hname := isLabelName_of_admitted hadmitted hlabel
      have hlabels := labels_labelled hlabel (p.enterLine l)
      have hscope : ∀ value,
          (Event.define ((labelled (p.enterLine l) b).qualify name) value .label).scope? =
            b.scope?.map p.normalize := by
        intro value
        rw [scope?_define_label hlabel hname]
        unfold Pass.normalize
        rw [hlabels.flags]
        rfl
      have hword := mem_of_begins (begins_of_beginning hbeginning) hlabel
      refine ⟨[⟨l, .visit p.address⟩,
        ⟨l, .define ((labelled (p.enterLine l) b).qualify name)
          (Int32.ofNat p.address.toNat) .label⟩],
        ⟨?_, hlabels.address, ⟨rfl, trivial, trivial⟩,
        fun e hmem => ?_⟩, fun scope => ?_⟩
      · rw [hlabels.listing, henter.listing, List.append_assoc]
        rfl
      · rcases List.mem_cons.1 hmem with rfl | hmem
        · exact ⟨hlabels.line.symm, trivial⟩
        · cases List.mem_singleton.1 hmem
          exact ⟨hlabels.line.symm, name, hword, hname, rfl⟩
      · constructor
        · rintro ⟨e, hmem, hopens⟩
          rcases List.mem_cons.1 hmem with rfl | hmem
          · cases hopens
          · cases List.mem_singleton.1 hmem
            exact (hscope _).symm.trans hopens
        · exact fun hopens =>
            ⟨_, List.mem_cons_of_mem _ (List.mem_singleton_self _),
              (hscope _).trans hopens⟩

private theorem scope_labelled (p : Pass) (b : Beginning) (l : Location) :
    (labelled (p.enterLine l) b).scope =
      (b.scope?.map p.normalize).or (p.scopes.at? l.file l.line) := by
  cases hlabel : b.label? with
  | none =>
      rw [labelled_of_none hlabel, scope?_of_label? hlabel]
      rfl
  | some name =>
      rw [(labels_labelled hlabel _).scope]
      unfold Beginning.scope?
      rw [hlabel]
      cases h : isLocalName name with
      | true =>
          rw [Option.filter_some_neg (by simp [h])]
          rfl
      | false =>
          rw [Option.filter_some_pos (by simp [h])]
          rfl

private theorem flags_labelled (p : Pass) (b : Beginning) :
    (labelled p b).flags = p.flags := by
  cases hlabel : b.label? with
  | none => rw [labelled_of_none hlabel]
  | some name => exact (labels_labelled hlabel p).flags

theorem line_labelled (p : Pass) (b : Beginning) : (labelled p b).line = p.line := by
  cases hlabel : b.label? with
  | none => rw [labelled_of_none hlabel]
  | some name => exact (labels_labelled hlabel p).line

theorem tells_of_beginning (hbeginning : beginning (.ofString text) = .ok b)
    (hadmitted : b.Admitted p.flags) : Tells p l text b := by
  have hwithin := within_afterLine (l := l) hbeginning hadmitted
  obtain ⟨added, hadded, hnone⟩ := hwithin.adds
  obtain ⟨head, hhead, hopens⟩ := exists_head (l := l) hbeginning hadmitted
  have hadds := hhead.append hadded hwithin.flags hwithin.line hwithin.scope
  refine ⟨hwithin.flags.trans (flags_labelled _ b),
    hwithin.line.trans (line_labelled _ b), hwithin.scope.trans (scope_labelled p b l),
    hwithin.scopes.trans (scopes_labelled _ b), ?_,
    fun scope => ?_⟩
  · rwa [entriesOf_eq hadds.listing]
  · rw [entriesOf_eq hadds.listing, ← hopens]
    constructor
    · rintro ⟨e, hmem, hscope⟩
      rcases List.mem_append.1 hmem with hmem | hmem
      · exact ⟨e, hmem, hscope⟩
      · cases (hnone e hmem).symm.trans hscope
    · rintro ⟨e, hmem, hscope⟩
      exact ⟨e, List.mem_append_left _ hmem, hscope⟩

theorem afterLine_of_ok {file? : Option String}
    (h : assembleLine l text p = .ok file? p') :
    p.afterLine l text = p' := by
  unfold Pass.afterLine
  rw [h]

theorem afterLine_of_error {e : ErrorKind} (h : assembleLine l text p = .error e p') :
    p.afterLine l text = p' := by
  unfold Pass.afterLine
  rw [h]

theorem tells_or_afterLine_eq (p : Pass) (l : Location) (text : String) :
    (∃ b, Tells p l text b) ∨ p.afterLine l text = p.enterLine l := by
  cases hbeginning : beginning (.ofString text) with
  | error e =>
      have hread : readLine (.ofString text) (p.enterLine l) =
        .error e (p.enterLine l) := by
        unfold readLine
        rw [hbeginning]
        rfl
      exact .inr (afterLine_of_error (l := l) hread)
  | ok b =>
      by_cases hadmitted : b.Admitted p.flags
      · exact .inl ⟨b, tells_of_beginning hbeginning hadmitted⟩
      · obtain ⟨e, hread⟩ :=
          readLine_of_not_admitted (p := p.enterLine l) hbeginning hadmitted
        exact .inr (afterLine_of_error (l := l) hread)

theorem flags_afterLine (p : Pass) (l : Location) (text : String) :
    (p.afterLine l text).flags = p.flags := by
  obtain ⟨b, htells⟩ | hentered := tells_or_afterLine_eq p l text
  · exact htells.flags
  · rw [hentered]
    rfl

private theorem line_afterLine (p : Pass) (l : Location) (text : String) :
    (p.afterLine l text).line = l := by
  obtain ⟨b, htells⟩ | hentered := tells_or_afterLine_eq p l text
  · exact htells.line
  · rw [hentered]
    rfl

theorem adds_afterLine (p : Pass) (l : Location) (text : String) :
    Adds (Line.ofString text).tokens p (p.afterLine l text) (p.entriesOf l text) := by
  obtain ⟨b, htells⟩ | hentered := tells_or_afterLine_eq p l text
  · exact htells.adds
  · have henter := adds_enterLine (Line.ofString text).tokens p l
    rw [← hentered] at henter
    rwa [entriesOf_eq henter.listing]

theorem names_of_mem_entriesOf {e : ListingEntry} (h : e ∈ p.entriesOf l text) :
    e.location = l ∧ e.event.Names (Line.ofString text).tokens (p.afterLine l text) := by
  obtain ⟨hlocation, hnames⟩ := (adds_afterLine p l text).entries e h
  exact ⟨hlocation.trans (line_afterLine p l text), hnames⟩

end Breadboard.Assembly
