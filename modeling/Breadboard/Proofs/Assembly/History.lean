import Breadboard.Proofs.Assembly.Definition

namespace Breadboard.Assembly

/-- Every reference in the listing found the value that its symbol had then, and in the
second pass there was one. -/
structure Truthful (start : SymbolTable) (p : Pass) : Prop extends Recorded start p where
  references : ∀ {before after l key value?},
    p.listing.toList = before ++ ⟨l, .refer key value?⟩ :: after →
      value? = valueAfter start before key ∧ (p.round = .second → value?.isSome)

namespace Truthful

variable {start : SymbolTable} {p p' : Pass}

theorem concat (h : Truthful start p) {e : ListingEntry} (hp' : Recorded start p')
    (hround : p'.round = p.round) (hlisting : p'.listing.toList = p.listing.toList ++ [e])
    (he : ∀ key value?, e.event = .refer key value? →
      value? = p.symbols.value? key ∧ (p.round = .second → value?.isSome)) :
      Truthful start p' := by
  refine ⟨hp', fun {before after l key value?} hsplit => ?_⟩
  rw [hlisting] at hsplit
  rw [hround]
  rcases List.eq_nil_or_concat after with rfl | ⟨after, last, rfl⟩
  · obtain ⟨rfl, he'⟩ := List.append_inj' hsplit rfl
    rw [← h.symbols]
    exact he key value? (by rw [List.singleton_inj.1 he'])
  · rw [List.concat_eq_append, ← List.cons_append, ← List.append_assoc] at hsplit
    exact h.references (List.append_inj' hsplit rfl).1

theorem of_listing (h : Truthful start p) (hquiet : Quiet p p')
    (hlisting : p'.listing = p.listing) :
    Truthful start p' := by
  refine ⟨h.toRecorded.quiet hquiet, fun hsplit => ?_⟩
  rw [hlisting] at hsplit
  rw [hquiet.round]
  exact h.references hsplit

theorem of_concat (h : Truthful start p) (hquiet : Quiet p p') {e : ListingEntry}
    (hlisting : p'.listing.toList = p.listing.toList ++ [e])
    (he : ∀ key value?, e.event ≠ .refer key value?) : Truthful start p' :=
  h.concat (h.toRecorded.quiet hquiet) hquiet.round hlisting
    fun key value? hevent => absurd hevent (he key value?)

theorem define (h : Truthful start p) (key : String) (value : Int32) (kind : SymbolKind) :
    Truthful start (p.define key value kind) := by
  refine h.concat (e := ⟨p.line, .define key value kind⟩)
    (h.toRecorded.define key value kind) ?_ ?_ ?_
  · rw [p.define_eq]
  · rw [p.define_eq]
    exact Array.toList_push
  · intro _ _ hevent
    cases hevent

theorem move (h : Truthful start p) (hmove : Move p p') : Truthful start p' := by
  cases hmove with
  | refer name found =>
      refine h.concat (h.toRecorded.quiet (.record p rfl)) rfl Array.toList_push ?_
      intro key value? hevent
      cases hevent
      exact ⟨rfl, found⟩
  | assign value => exact h.of_concat (.record p rfl) Array.toList_push nofun
  | operand => exact h.of_concat (.record p rfl) Array.toList_push nofun
  | place item => exact h.of_concat (.place p item) Array.toList_push nofun
  | markInstruction =>
      refine h.of_listing (.markInstruction p) ?_
      rw [p.markInstruction_eq]
  | moveTo value =>
      refine h.of_concat (e := ⟨p.line, .origin value⟩) (.moveTo p value) ?_ nofun
      rw [p.moveTo_eq]
      exact Array.toList_push
  | markBreakpoint =>
      refine h.of_listing (.markBreakpoint p) ?_
      rw [p.markBreakpoint_eq]
  | @warnIf condition kind ofRange =>
      refine h.of_listing (.warnIf p condition ?_) ?_
      · cases kind <;> first | rfl | cases ofRange
      · rw [p.warnIf_eq]

theorem update (h : Truthful start p) (hupdate : Update p p') : Truthful start p' := by
  cases hupdate with
  | move hmove => exact h.move hmove
  | define name value => exact h.define _ value .value

theorem enterLine (h : Truthful start p) (l : Location) :
    Truthful start (p.enterLine l) :=
  h.of_concat (.enterLine p l) Array.toList_push nofun

theorem defineLabel (h : Truthful start p) (name : String) :
    Truthful start (p.defineLabel name) := by
  obtain ⟨q, key, value, hquiet, hlisting, heq⟩ := exists_defineLabel_eq p name
  rw [heq]
  exact (h.of_listing hquiet hlisting).define key value .label

end Truthful

private theorem preserved_truthful (start : SymbolTable) :
    Preserved (Truthful start) where
  enterLine l h := h.enterLine l
  defineLabel name h := h.defineLabel name
  update hupdate h := h.update hupdate

private theorem truthful_of_empty {start : SymbolTable} {p : Pass}
    (hsymbols : p.symbols = start) (hlisting : p.listing = #[])
    (hdefined : p.defined = ∅) : Truthful start p := by
  refine ⟨recorded_of_empty hsymbols hlisting hdefined, fun {before} _ _ _ _ hsplit => ?_⟩
  rw [hlisting] at hsplit
  cases before <;> cases hsplit

end Breadboard.Assembly

namespace Breadboard.Assembler

open Assembly

theorem truthful_secondPass {d : Disk} {root : FileId} {first : PassResult}
    (h : (secondPass d root first).error? = none) :
    Truthful first.pass.symbols (secondPass d root first).pass := by
  obtain ⟨_, -, hreads⟩ := reads_of_runPass rfl h
  exact (preserved_truthful _).reads hreads (truthful_of_empty rfl rfl rfl)

end Breadboard.Assembler
