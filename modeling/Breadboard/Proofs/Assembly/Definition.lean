import Breadboard.Proofs.Assembly.Reading

namespace Breadboard.Assembly

def definitions (key : String) (entries : List ListingEntry) :
    List (Int32 × SymbolKind) :=
  entries.filterMap fun e =>
    match e.event with
    | .define k value kind => if k = key then some (value, kind) else none
    | _ => none

/-- The value of a symbol after a part of a listing, `start` being the symbols before
it. -/
def valueAfter (start : SymbolTable) (entries : List ListingEntry) (key : String) :
    Option Int32 :=
  ((definitions key entries).getLast?.map Prod.fst).or (start.value? key)

def Event.isDefinition : Event → Bool
  | .define .. => true
  | _ => false

theorem definitions_append (key : String) (before after : List ListingEntry) :
    definitions key (before ++ after) = definitions key before ++ definitions key after :=
  List.filterMap_append

theorem definitions_singleton {e : ListingEntry} (h : e.event.isDefinition = false)
    (key : String) :
    definitions key [e] = [] := by
  obtain ⟨l, event⟩ := e
  cases event with
  | define => cases h
  | _ => rfl

theorem definitions_define (key : String) (l : Location) (value : Int32)
    (kind : SymbolKind) :
    definitions key [⟨l, .define key value kind⟩] = [(value, kind)] := by
  simp [definitions]

theorem definitions_define_ne {key key' : String} (h : key' ≠ key) (l : Location)
    (value : Int32) (kind : SymbolKind) :
    definitions key [⟨l, .define key' value kind⟩] = [] := by
  simp [definitions, h]

theorem exists_of_mem_definitions {key : String} {entries : List ListingEntry}
    {x : Int32 × SymbolKind} (h : x ∈ definitions key entries) :
    ∃ e ∈ entries, e.event = .define key x.1 x.2 := by
  obtain ⟨⟨l, event⟩, he, hx⟩ := List.mem_filterMap.1 h
  refine ⟨_, he, ?_⟩
  cases event with
  | define key' value kind =>
      dsimp only at hx ⊢
      split at hx
      · rename_i hkey
        cases hx
        rw [hkey]
      · cases hx
  | _ => cases hx

namespace Pass

variable (p : Pass)

private theorem warn_eq (kind : WarningKind) :
    p.warn kind = { p with warnings := (p.warn kind).warnings } := by
  unfold warn
  split <;> rfl

theorem warnIf_eq (condition : Bool) (kind : WarningKind) :
    p.warnIf condition kind =
      { p with warnings := (p.warnIf condition kind).warnings } := by
  unfold warnIf
  split
  · exact p.warn_eq kind
  · rfl

theorem define_eq (key : String) (value : Int32) (kind : SymbolKind) :
    p.define key value kind = { p with
      defined := p.defined.insert key
      firstValues :=
        if !p.defined.contains key && p.round = .first then p.firstValues.insert key value
        else p.firstValues
      symbols := p.symbols.insert key ⟨value, kind, some p.line⟩
      listing := p.listing.push ⟨p.line, .define key value kind⟩
      warnings := (p.define key value kind).warnings } := by
  unfold define
  dsimp only [SymbolTable.define, record]
  split
  · rw [warn_eq]
  · rfl

theorem markInstruction_eq : p.markInstruction = { p with
    lineMap := p.markInstruction.lineMap
    entry? := p.markInstruction.entry?
    warnings := p.markInstruction.warnings } := by
  unfold markInstruction
  split
  · rfl
  · dsimp only
    rw [warnIf_eq]

theorem markBreakpoint_eq :
    p.markBreakpoint = { p with breakpoints := p.markBreakpoint.breakpoints } := by
  unfold markBreakpoint
  split <;> rfl

theorem moveTo_eq (value : Int32) : p.moveTo value = { p with
    address := value.toUInt32.toUInt16
    listing := p.listing.push ⟨p.line, .origin value⟩
    warnings := (p.moveTo value).warnings } := by
  unfold moveTo
  dsimp only
  rw [warnIf_eq]
  rfl

end Pass

def WarningKind.ofDefinition : WarningKind → Bool
  | .labelRedefined .. | .phaseDrift .. => true
  | _ => false

/-- Nothing is defined, and no definition is warned about. -/
structure Quiet (p p' : Pass) : Prop where
  round : p'.round = p.round
  symbols : p'.symbols = p.symbols
  defined : p'.defined = p.defined
  firstValues : p'.firstValues = p.firstValues
  listing : p.listing.toList <+: p'.listing.toList
  definitions : ∀ key, definitions key p'.listing.toList =
    definitions key p.listing.toList
  warnings : ∀ w : Warning, w.kind.ofDefinition → (w ∈ p'.warnings ↔ w ∈ p.warnings)

namespace Quiet

variable {p p' : Pass}

theorem of_same (hround : p'.round = p.round) (hsymbols : p'.symbols = p.symbols)
    (hdefined : p'.defined = p.defined) (hfirst : p'.firstValues = p.firstValues)
    (hlisting : p'.listing = p.listing) (hwarnings : p'.warnings = p.warnings) :
    Quiet p p' := by
  refine ⟨hround, hsymbols, hdefined, hfirst, ?_, ?_, ?_⟩
  · simp only [hlisting, List.prefix_rfl]
  · rw [hlisting]
    exact fun _ => rfl
  · rw [hwarnings]
    exact fun _ _ => .rfl

theorem trans {p'' : Pass} (h : Quiet p p') (h' : Quiet p' p'') : Quiet p p'' where
  round := h'.round.trans h.round
  symbols := h'.symbols.trans h.symbols
  defined := h'.defined.trans h.defined
  firstValues := h'.firstValues.trans h.firstValues
  listing := h.listing.trans h'.listing
  definitions key := (h'.definitions key).trans (h.definitions key)
  warnings w hw := (h'.warnings w hw).trans (h.warnings w hw)

theorem record (p : Pass) {event : Event} (h : event.isDefinition = false) :
    Quiet p (p.record event) := by
  have hlisting : (p.record event).listing.toList =
    p.listing.toList ++ [⟨p.line, event⟩] :=
    Array.toList_push
  refine ⟨rfl, rfl, rfl, rfl, ?_, fun key => ?_, fun _ _ => .rfl⟩
  · rw [hlisting]
    exact List.prefix_append _ _
  · have hone : Assembly.definitions key [⟨p.line, event⟩] = [] :=
      definitions_singleton h key
    rw [hlisting, definitions_append, hone, List.append_nil]

theorem warnIf (p : Pass) (condition : Bool) {kind : WarningKind}
    (h : kind.ofDefinition = false) :
    Quiet p (p.warnIf condition kind) := by
  have hwarn : ∀ w : Warning, w.kind.ofDefinition →
      (w ∈ (p.warnIf condition kind).warnings ↔ w ∈ p.warnings) := by
    intro w hw
    unfold Pass.warnIf Pass.warn
    split
    · split
      · exact .rfl
      · rw [Array.mem_push]
        constructor
        · rintro (hmem | rfl)
          · exact hmem
          · exact absurd (h.symm.trans hw) Bool.false_ne_true
        · exact .inl
    · exact .rfl
  rw [p.warnIf_eq] at hwarn ⊢
  exact ⟨rfl, rfl, rfl, rfl, List.prefix_rfl, fun _ => rfl, hwarn⟩

theorem enterLine (p : Pass) (l : Location) : Quiet p (p.enterLine l) := by
  have hentered : Quiet p { p with line := l, scope := p.scopes.at? l.file l.line } :=
    of_same rfl rfl rfl rfl rfl rfl
  exact hentered.trans (record _ rfl)

theorem place (p : Pass) (item : Item) : Quiet p (p.place item) :=
  (record p rfl).trans (of_same rfl rfl rfl rfl rfl rfl)

theorem markInstruction (p : Pass) : Quiet p p.markInstruction := by
  unfold Pass.markInstruction
  split
  · exact of_same rfl rfl rfl rfl rfl rfl
  · have hmarked : Quiet p { p with
        lineMap := p.lineMap.insert p.address p.line
        entry? := p.entry?.or (some p.address) } := of_same rfl rfl rfl rfl rfl rfl
    exact hmarked.trans (warnIf _ _ rfl)

theorem moveTo (p : Pass) (value : Int32) : Quiet p (p.moveTo value) := by
  have hwarn :
      Quiet p (p.warnIf (value < 0 || 0xFFFF < value) (.originOutOfRange value)) :=
    warnIf p _ rfl
  exact (hwarn.trans (record _ rfl)).trans (of_same rfl rfl rfl rfl rfl rfl)

theorem markBreakpoint (p : Pass) : Quiet p p.markBreakpoint := by
  rw [p.markBreakpoint_eq]
  exact of_same rfl rfl rfl rfl rfl rfl

end Quiet

theorem Move.quiet {p p' : Pass} (h : Move p p') : Quiet p p' := by
  cases h with
  | refer | assign | operand => exact .record p rfl
  | place item => exact .place p item
  | markInstruction => exact .markInstruction p
  | moveTo value => exact .moveTo p value
  | markBreakpoint => exact .markBreakpoint p
  | @warnIf condition kind ofRange =>
      refine .warnIf p condition ?_
      cases kind <;> first | rfl | cases ofRange

theorem quiet_of_moves {p p' : Pass} (h : Moves p p') : Quiet p p' := by
  induction h with
  | refl => exact .of_same rfl rfl rfl rfl rfl rfl
  | tail _ hlast ih => exact ih.trans hlast.quiet

theorem Update.define_or_quiet {p p' : Pass} (h : Update p p') :
    (∃ key value, p' = p.define key value .value) ∨ Quiet p p' := by
  cases h with
  | move h => exact .inr h.quiet
  | define name value => exact .inl ⟨_, value, rfl⟩

theorem exists_defineLabel_eq (p : Pass) (name : String) :
    ∃ q key value, Quiet p q ∧ q.listing = p.listing ∧
      p.defineLabel name = q.define key value .label := by
  unfold Pass.defineLabel
  dsimp only
  split
  · refine ⟨_, _, _, .warnIf p p.scope.isNone rfl, ?_, rfl⟩
    rw [p.warnIf_eq]
  · have hopened : Quiet p (p.openScope (p.normalize name)) :=
      .of_same rfl rfl rfl rfl rfl rfl
    exact ⟨_, _, _, hopened, rfl, rfl⟩

/-- What definitions and all that defines nothing preserve is preserved by every line. -/
theorem preserved_of_quiet {I : Pass → Prop} (hquiet : ∀ {p p'}, Quiet p p' → I p → I p')
    (hdefine : ∀ {p} (key : String) (value : Int32) (kind : SymbolKind),
      I p → I (p.define key value kind)) : Preserved I where
  enterLine l hp := hquiet (.enterLine _ l) hp
  defineLabel {p} name hp := by
    obtain ⟨q, key, value, hq, -, heq⟩ := exists_defineLabel_eq p name
    rw [heq]
    exact hdefine key value .label (hquiet hq hp)
  update hupdate hp := by
    obtain ⟨key, value, rfl⟩ | hq := hupdate.define_or_quiet
    · exact hdefine key value .value hp
    · exact hquiet hq hp

theorem value?_insert (symbols : SymbolTable) (key key' : String) (s : Symbol) :
    SymbolTable.value? (symbols.insert key s) key' =
      if key = key' then some s.value else symbols.value? key' := by
  unfold SymbolTable.value?
  rw [Std.ExtTreeMap.getElem?_insert]
  by_cases h : key = key'
  · simp [h]
  · simp [h]

theorem definitions_listing_define (p : Pass) (key key' : String) (value : Int32)
    (kind : SymbolKind) :
    definitions key' (p.define key value kind).listing.toList =
      definitions key' p.listing.toList ++
        if key = key' then [(value, kind)] else [] := by
  have hlisting : (p.define key value kind).listing.toList =
      p.listing.toList ++ [⟨p.line, .define key value kind⟩] := by
    rw [p.define_eq]
    exact Array.toList_push
  rw [hlisting, definitions_append]
  by_cases hkey : key = key'
  · subst hkey
    rw [definitions_define, if_pos rfl]
  · rw [definitions_define_ne hkey, if_neg hkey]

/-- The listing tells the values of the symbols, `start` being the symbols before it. -/
structure Recorded (start : SymbolTable) (p : Pass) : Prop where
  symbols : ∀ key, p.symbols.value? key = valueAfter start p.listing.toList key
  defined : ∀ key, key ∈ p.defined ↔ definitions key p.listing.toList ≠ []

theorem Recorded.quiet {start : SymbolTable} {p p' : Pass} (h : Recorded start p)
    (hquiet : Quiet p p') : Recorded start p' := by
  constructor
  · intro key
    rw [hquiet.symbols, valueAfter, hquiet.definitions]
    exact h.symbols key
  · intro key
    rw [hquiet.defined, hquiet.definitions]
    exact h.defined key

theorem Recorded.define {start : SymbolTable} {p : Pass} (h : Recorded start p)
    (key : String) (value : Int32) (kind : SymbolKind) :
    Recorded start (p.define key value kind) := by
  constructor
  · intro key'
    rw [valueAfter, definitions_listing_define, p.define_eq]
    change SymbolTable.value? (p.symbols.insert key _) key' = _
    rw [value?_insert]
    by_cases hkey : key = key'
    · rw [if_pos hkey, if_pos hkey, List.getLast?_concat]
      rfl
    · rw [if_neg hkey, if_neg hkey, List.append_nil]
      exact h.symbols key'
  · intro key'
    rw [definitions_listing_define, p.define_eq]
    change key' ∈ p.defined.insert key ↔ _
    rw [Std.ExtTreeSet.mem_insert, Std.LawfulEqCmp.compare_eq_iff_eq, h.defined]
    by_cases hkey : key = key'
    · simp [hkey]
    · simp [hkey]

theorem preserved_recorded (start : SymbolTable) : Preserved (Recorded start) :=
  preserved_of_quiet (fun hquiet h => h.quiet hquiet) fun key value kind h =>
    h.define key value kind

theorem recorded_of_empty {start : SymbolTable} {p : Pass} (hsymbols : p.symbols = start)
    (hlisting : p.listing = #[]) (hdefined : p.defined = ∅) : Recorded start p := by
  constructor
  · intro key
    rw [hsymbols, hlisting]
    exact Option.none_or.symm
  · intro key
    rw [hlisting, hdefined]
    simp [definitions]

end Breadboard.Assembly
