import Breadboard.Proofs.Assembly.Footprint
import Breadboard.Proofs.Assembly.Plain
import Breadboard.Proofs.Assembly.Report

namespace Breadboard.Assembly

open Breadboard.Expr (Forms Tree)
open Read

variable {p p' : Pass} {tokens ts : List Token} {line rest : Line}
    {before added : List ListingEntry} {e : ListingEntry} {op : Operation} {l : Location}
    {text : String}

/-! What there is to encode. -/

/-- The tokens stand at the end of a line where a directive expects an operand: after its
word, or after a comma. -/
def Directive.Expects (d : Directive) (tokens ts : List Token) : Prop :=
  ∃ w before, .word w :: (before ++ ts) <:+ tokens ∧ Directive.ofWord? w = some d ∧
    (before = [] ∨ before.getLast? = some (.punct ','))

/-- The tokens are an operand of a directive, up to the next comma or to the end of the
line. -/
def Directive.Takes (d : Directive) (tokens ts : List Token) : Prop :=
  ∃ after, d.Expects tokens (ts ++ after) ∧ (after = [] ∨ after.head? = some (.punct ','))

/-- What the second pass goes by: the flags, the symbols and the scopes that the first one
found, and the lines that it reads. -/
structure Program where
  flags : Flags
  symbols : SymbolTable
  scopes : Scopes
  lines : List (Location × String)

namespace Program

/-- What an expression on a line sees when so much is listed: the address where the
next byte goes, and the values that symbols have by then, each under its name in
the scope of the line. -/
def context (g : Program) (l : Location) (before : List ListingEntry) : Expr.Context where
  here := addressAfter g.flags.defaultOrigin before
  resolve name := valueAfter g.symbols before <|
    { Pass.initial g.flags with scope := g.scopes.at? l.file l.line : Pass }.qualify name
  lenient := false

/-- A directive on the line has an operand of the value. -/
def Gives (g : Program) (d : Directive) (l : Location) (before : List ListingEntry)
    (v : Int32) : Prop :=
  ∃ text ts e, (l, text) ∈ g.lines ∧ d.Takes (Line.ofString text).tokens ts ∧
    Forms .or ts e ∧
    e.value? (g.context l before) = some (.known v)

/-- An instruction on the line has an operand of the value, in the mode of its form. -/
def GivesOperand (g : Program) (op : Operation) (mode : AddressingMode) (l : Location)
    (before : List ListingEntry) (v : Int32) : Prop :=
  ∃ text w ts e?, (l, text) ∈ g.lines ∧ .word w :: ts <:+ (Line.ofString text).tokens ∧
    Operation.ofMnemonic? w = some op ∧ OperandForm op (opcodes.modes op) ts mode e? ∧
    formValue? (g.context l before) e? = some (.known v)

/-- What an entry of the listing encodes is the value of its expression, and no part of
that value is lost without a warning. -/
def Honest (g : Program) (warnings : Array Warning) (before : List ListingEntry)
    (e : ListingEntry) :
    Prop :=
  match e.event with
  | .place _ (.byte v) => g.Gives .byte e.location before v ∧
      (ReadsBack (Item.byte v).bytes v.toInt ∨
        ⟨.valueOutOfRange v, e.location⟩ ∈ warnings)
  | .place _ (.word v) => g.Gives .word e.location before v ∧
      (ReadsBack (Item.word v).bytes v.toInt ∨
        ⟨.valueOutOfRange v, e.location⟩ ∈ warnings)
  | .place address (.instruction entry encoded) => ∃ mode v field,
      g.GivesOperand entry.op mode e.location before v ∧
      (entry.mode = mode ∨ mode.zeroPageForm? = some entry.mode) ∧
      (Item.instruction entry encoded).bytes = entry.opcode :: field ∧
      field.length + 1 = entry.mode.size.toNat ∧
      FieldHolds warnings e.location address v field entry.mode
  | .origin v => g.Gives .origin e.location before v ∧
      ((addressAfter g.flags.defaultOrigin (before ++ [e])).toNat = v.toInt ∨
        ⟨.originOutOfRange v, e.location⟩ ∈ warnings)
  | _ => True

end Program

/-! A pass that is honest so far. -/

variable {g : Program} {q : Pass} {d : Directive} {r : Expr.Success}

namespace Program

private theorem context_append (h : AllPlain added) (l : Location)
    (before : List ListingEntry) :
    g.context l (before ++ added) = g.context l before := by
  have hvalues : valueAfter g.symbols (before ++ added) =
    valueAfter g.symbols before := by
    funext key
    unfold valueAfter
    rw [definitions_append, definitions_of_allPlain h, List.append_nil]
  unfold context
  rw [addressAfter_append, addressAfter_of_allPlain h, hvalues]

theorem honest_of_isPlain {warnings : Array Warning} (h : e.event.isPlain = true) :
    g.Honest warnings before e := by
  obtain ⟨l, event⟩ := e
  cases event with
  | place => cases h
  | origin => cases h
  | _ => trivial

theorem Honest.mono {warnings warnings' : Array Warning} (h : g.Honest warnings before e)
    (hmore : ∀ w ∈ warnings, w ∈ warnings') : g.Honest warnings' before e := by
  obtain ⟨l, event⟩ := e
  cases event with
  | origin v => exact h.imp_right (Or.imp_right (hmore _))
  | place address item =>
      cases item with
      | byte v => exact h.imp_right (Or.imp_right (hmore _))
      | word v => exact h.imp_right (Or.imp_right (hmore _))
      | text content => trivial
      | instruction entry encoded =>
          obtain ⟨mode, v, field, hgives, hmode, hbytes, hlength, hfield⟩ := h
          exact ⟨mode, v, field, hgives, hmode, hbytes, hlength,
            fieldHolds_mono hmore hfield⟩
  | _ => trivial

/-- A second pass over the program on its way. All that it has listed is honest. -/
structure Underway (g : Program) (p : Pass) : Prop extends Recorded g.symbols p where
  flags : p.flags = g.flags
  round : p.round = .second
  address : p.address = addressAfter g.flags.defaultOrigin p.listing.toList
  honest : ∀ {before e after}, p.listing.toList = before ++ e :: after →
    g.Honest p.warnings before e

theorem Underway.append (h : g.Underway p) (hrecorded : Recorded g.symbols p')
    (hflags : p'.flags = p.flags) (hround : p'.round = p.round)
    (hwarnings : ∀ w ∈ p.warnings, w ∈ p'.warnings)
    (hlisting : p'.listing.toList = p.listing.toList ++ added)
    (haddress : p'.address = addressAfter p.address added)
    (hadded : ∀ {before e after}, added = before ++ e :: after →
      g.Honest p'.warnings (p.listing.toList ++ before) e) : g.Underway p' := by
  refine ⟨hrecorded, hflags.trans h.flags, hround.trans h.round,
    ?_, fun {before e after} hsplit => ?_⟩
  · rw [haddress, h.address, hlisting, addressAfter_append]
  · rw [hlisting] at hsplit
    -- The entry is a new one, or an old one, and that stays honest when there are more
    -- warnings.
    obtain ⟨more, rfl, hmore⟩ | ⟨more, hold, hmore⟩ := List.append_eq_append_iff.1 hsplit
    · exact hadded hmore
    · cases more with
      | nil =>
          rw [List.append_nil] at hold
          subst hold
          simpa using @hadded [] _ _ hmore.symm
      | cons e' more =>
          cases hmore
          exact (h.honest hold).mono hwarnings

/-- The pass is on a line, past its label. -/
structure OnLine (g : Program) (text : String) (p : Pass) :
    Prop extends g.Underway p where
  scope : p.scope = g.scopes.at? p.line.file p.line.line
  line : (p.line, text) ∈ g.lines

namespace OnLine

private theorem context_eq (h : g.OnLine text p) :
    p.context = g.context p.line p.listing.toList := by
  unfold Pass.context Program.context
  rw [h.address, h.round]
  congr 1
  funext name
  rw [h.symbols]
  congr 1
  exact qualify_congr h.flags h.scope name

theorem append (h : g.OnLine text p) (hupdates : Updates p p')
    (hwithin : Within tokens p p')
    (hlisting : p'.listing.toList = p.listing.toList ++ added)
    (hadded : ∀ {before e after}, added = before ++ e :: after →
      g.Honest p'.warnings (p.listing.toList ++ before) e) : g.OnLine text p' := by
  obtain ⟨added', hadds, -⟩ := hwithin.adds
  cases List.append_cancel_left (hadds.listing.symm.trans hlisting)
  refine ⟨h.toUnderway.append ((preserved_recorded _).updates hupdates h.toRecorded)
    hwithin.flags ((preserved_round _).updates hupdates rfl)
    (fun w hw => (preserved_warning w).updates hupdates hw) hlisting hadds.address hadded,
    ?_, ?_⟩
  · rw [hwithin.scope, hwithin.line]
    exact h.scope
  · rw [hwithin.line]
    exact h.line

theorem plain (h : g.OnLine text p) (hupdates : Updates p p')
    (hwithin : Within tokens p p') (hplain : Plainly p p') : g.OnLine text p' := by
  obtain ⟨added, hlisting, hplain⟩ := hplain
  exact h.append hupdates hwithin hlisting fun hsplit =>
    honest_of_isPlain (hplain _ (List.mem_iff_append.2 ⟨_, _, hsplit⟩))

theorem concat (h : g.OnLine text p) (hupdates : Updates p p')
    (hwithin : Within tokens p p') (hplain : Plainly p q)
    (hlisting : p'.listing.toList = q.listing.toList ++ [e])
    (he : g.Honest p'.warnings q.listing.toList e) : g.OnLine text p' := by
  obtain ⟨added, hmiddle, hplain⟩ := hplain
  rw [hmiddle] at hlisting he
  rw [List.append_assoc] at hlisting
  refine h.append hupdates hwithin hlisting fun {before e' after} hsplit => ?_
  obtain rfl | ⟨after, last, rfl⟩ := List.eq_nil_or_concat after
  · obtain ⟨rfl, hlast⟩ := List.append_inj' hsplit rfl
    rw [← List.singleton_inj.1 hlast]
    exact he
  · rw [List.concat_eq_append, ← List.cons_append, ← List.append_assoc] at hsplit
    have hearlier := (List.append_inj' hsplit rfl).1
    exact honest_of_isPlain (hplain e' (List.mem_iff_append.2 ⟨_, _, hearlier⟩))

end OnLine

end Program

/-! What a directive encodes. -/

theorem Directive.Expects.suffix (h : d.Expects tokens ts) : ts <:+ tokens := by
  obtain ⟨w, before, hsuffix, -, -⟩ := h
  exact ((List.suffix_append before ts).trans (List.suffix_cons _ _)).trans hsuffix

theorem Directive.Expects.next {us : List Token}
    (h : d.Expects tokens (ts ++ .punct ',' :: us)) :
    d.Expects tokens us := by
  obtain ⟨w, before, hsuffix, hd, -⟩ := h
  refine ⟨w, before ++ ts ++ [.punct ','], ?_, hd, .inr List.getLast?_concat⟩
  simpa using hsuffix

theorem exists_of_valueOrZero {a : Int32 × Line} (h : valueOrZero line p = .ok a p') :
    ∃ r, Expr.evalOperand p.context false line = .ok r ∧
      a = (r.operand.value.known?.getD 0, r.rest) ∧ p' = p.recordReferences r.asked := by
  obtain ⟨_, p₁, hvalue, h⟩ := bind_eq_ok_iff.1 h
  obtain ⟨r, heval, rfl, rfl⟩ := value_eq_ok_iff.1 hvalue
  cases h
  exact ⟨r, heval, rfl, rfl⟩

theorem exists_of_origin {file? : Option String}
    (h : directive .origin line p = .ok (file?, rest) p') :
    ∃ r v, Expr.evalOperand p.context false line = .ok r ∧ r.operand.value = .known v ∧
      rest = r.rest ∧ p' = (p.recordReferences r.asked).moveTo v := by
  obtain ⟨_, p₁, hvalue, h⟩ := bind_eq_ok_iff.1 h
  obtain ⟨r, heval, rfl, rfl⟩ := value_eq_ok_iff.1 hvalue
  cases hv : r.operand.value with
  | undefined =>
      rw [hv] at h
      cases h
  | known v =>
      rw [hv] at h
      cases h
      exact ⟨r, v, heval, hv, rfl, rfl⟩

namespace Program.OnLine

private theorem gives (h : g.OnLine text p)
    (hexpects : d.Expects (Line.ofString text).tokens line.tokens)
    (heval : Expr.evalOperand p.context false line = .ok r)
    (hrest : r.rest.tokens = [] ∨ r.rest.tokens.head? = some (.punct ','))
    (hplain : Plainly p q) :
    ∃ v, r.operand.value = .known v ∧ g.Gives d p.line q.listing.toList v := by
  obtain ⟨v, hv⟩ := exists_known_of_evalOperand h.round heval
  obtain ⟨e, read, hlexemes, -, -, hforms, hvalue, -⟩ :=
    Expr.evalOperand_false_eq_ok_iff.1 heval
  obtain ⟨added, hlisting, hadded⟩ := hplain
  refine ⟨v, hv, text, read.map Lexeme.token, e, h.line,
    ⟨r.rest.tokens, ?_, hrest⟩, hforms, ?_⟩
  · rwa [← tokens_eq_append hlexemes]
  · rw [hlisting, context_append hadded, ← h.context_eq, hvalue, hv]

/-- The step lemma of items: an item that a directive encodes is placed with the
value of its operand. -/
theorem placeItem (h : g.OnLine text p)
    (hexpects : d.Expects (Line.ofString text).tokens line.tokens)
    (heval : Expr.evalOperand p.context false line = .ok r)
    (hrest : r.rest.tokens = [] ∨ r.rest.tokens.head? = some (.punct ','))
    {item : Int32 → Item} {fits : Int32 → Bool}
    (hfits : ∀ v, fits v = true → ReadsBack (item v).bytes v.toInt)
    (hhonest : ∀ warnings before address v, g.Gives d p.line before v ∧
      (ReadsBack (item v).bytes v.toInt ∨ ⟨.valueOutOfRange v, p.line⟩ ∈ warnings) →
        g.Honest warnings before ⟨p.line, .place address (item v)⟩)
    (v : Int32) (hv : v = r.operand.value.known?.getD 0)
    (hp' : p' = ((p.recordReferences r.asked).warnIf (!fits v) (.valueOutOfRange v)).place
      (item v)) (hupdates : Updates p p') (hwithin : Within tokens p p') :
      g.OnLine text p' := by
  have hplain :
      Plainly p ((p.recordReferences r.asked).warnIf (!fits v) (.valueOutOfRange v)) :=
    (Plainly.recordReferences p r.asked).trans (.warnIf _ _ _)
  have hcalm :
      Calm p ((p.recordReferences r.asked).warnIf (!fits v) (.valueOutOfRange v)) :=
    (Calm.recordReferences p r.asked).trans (.warnIf _ _ _)
  obtain ⟨v', hknown, hgives⟩ := h.gives hexpects heval hrest hplain
  obtain rfl : v = v' := by
    rw [hv, hknown]
    rfl
  have hline := (Calm.recordReferences p r.asked).line
  have hfit : (!fits v) = false → ReadsBack (item v).bytes v.toInt :=
    fun hfit => hfits v (by simpa using hfit)
  have hreported := holds_or_reported (p := p.recordReferences r.asked)
    ((Calm.recordReferences p r.asked).round.trans h.round) hfit (.valueOutOfRange v)
  rw [hline] at hreported
  refine h.concat (e := ⟨p.line, .place p.address (item v)⟩) hupdates hwithin hplain ?_
    (hhonest _ _ _ v ⟨hgives, ?_⟩)
  · rw [hp', ← hcalm.line, ← hcalm.address]
    exact Array.toList_push
  · rw [hp']
    exact hreported

theorem byteItem (h : g.OnLine text p)
    (hexpects : Directive.byte.Expects (Line.ofString text).tokens line.tokens)
    (hitem : Assembly.byteItem line p = .ok rest p')
    (hrest : rest.tokens = [] ∨ rest.tokens.head? = some (.punct ',')) :
    g.OnLine text p' := by
  have hupdates := updates_of_moves (does_byteItem line _ _ _ hitem)
  have hwithin := ((stays_byteItem hexpects.suffix).of_ok hitem).1
  obtain ⟨token?, -, hitem⟩ := lift_bind_eq_ok_iff.1 hitem
  split at hitem
  · cases hitem
    exact h.concat hupdates hwithin (.of_listing rfl) Array.toList_push trivial
  · obtain ⟨_, p₁, hvalue, hitem⟩ := bind_eq_ok_iff.1 hitem
    obtain ⟨r, heval, rfl, rfl⟩ := exists_of_valueOrZero hvalue
    cases hitem
    exact h.placeItem hexpects heval hrest (fun _ => readsBack_byte)
      (fun _ _ _ _ => id) _ rfl rfl hupdates hwithin

theorem wordItem (h : g.OnLine text p)
    (hexpects : Directive.word.Expects (Line.ofString text).tokens line.tokens)
    (hitem : Assembly.wordItem line p = .ok rest p')
    (hrest : rest.tokens = [] ∨ rest.tokens.head? = some (.punct ',')) :
    g.OnLine text p' := by
  have hupdates := updates_of_moves (does_wordItem line _ _ _ hitem)
  have hwithin := ((stays_wordItem hexpects.suffix).of_ok hitem).1
  obtain ⟨_, p₁, hvalue, hitem⟩ := bind_eq_ok_iff.1 hitem
  obtain ⟨r, heval, rfl, rfl⟩ := exists_of_valueOrZero hvalue
  cases hitem
  exact h.placeItem hexpects heval hrest (fun _ => readsBack_word)
    (fun _ _ _ _ => id) _ rfl rfl hupdates hwithin

/-- The run lemma of items, by induction on their number. -/
theorem items {item : Line → Assembling Line}
    (hitem : ∀ {line rest p p'}, g.OnLine text p →
      d.Expects (Line.ofString text).tokens line.tokens → item line p = .ok rest p' →
      (rest.tokens = [] ∨ rest.tokens.head? = some (.punct ',')) →
        g.OnLine text p' ∧ rest.tokens <:+ line.tokens)
    (n : Nat) (h : g.OnLine text p)
    (hexpects : d.Expects (Line.ofString text).tokens line.tokens)
    (hitems : Assembly.items item n line p = .ok rest p')
    (hend : expectEnd rest = .ok ()) :
    g.OnLine text p' := by
  induction n generalizing line p with
  | zero =>
      cases hitems
      exact h
  | succ n ih =>
      obtain ⟨rest₁, p₁, hfirst, hitems⟩ := bind_eq_ok_iff.1 hitems
      obtain ⟨next?, hcomma, hitems⟩ := lift_bind_eq_ok_iff.1 hitems
      obtain rfl | ⟨next, rfl, htokens, -⟩ := comma?_eq_ok hcomma
      · cases hitems
        exact (hitem h hexpects hfirst (.inl (expectEnd_eq_ok_iff.1 hend).1)).1
      · obtain ⟨h₁, ts, hline⟩ := hitem h hexpects hfirst (.inr (by rw [htokens]; rfl))
        rw [← hline, htokens] at hexpects
        exact ih h₁ hexpects.next hitems

theorem origin (h : g.OnLine text p) {file? : Option String}
    (hexpects : Directive.origin.Expects (Line.ofString text).tokens line.tokens)
    (horigin : directive .origin line p = .ok (file?, rest) p')
    (hend : expectEnd rest = .ok ()) :
    g.OnLine text p' := by
  have hupdates := updates_of_moves (does_directive .origin line _ _ _ horigin)
  have hwithin := ((stays_directive .origin hexpects.suffix).of_ok horigin).1
  obtain ⟨r, v, heval, hv, rfl, rfl⟩ := exists_of_origin horigin
  have hplain := Plainly.recordReferences p r.asked
  have hcalm := Calm.recordReferences p r.asked
  obtain ⟨v', hv', hgives⟩ :=
    h.gives hexpects heval (.inl (expectEnd_eq_ok_iff.1 hend).1) hplain
  cases hv.symm.trans hv'
  refine h.concat (e := ⟨p.line, .origin v⟩) hupdates hwithin hplain ?_ ⟨hgives, ?_⟩
  · rw [Pass.moveTo_eq, ← hcalm.line]
    exact Array.toList_push
  · have hreported :=
      holds_or_reported (hcalm.round.trans h.round) (toNat_address (v := v))
      (.originOutOfRange v)
    rw [hcalm.line] at hreported
    rw [addressAfter_append]
    exact hreported

theorem directive (h : g.OnLine text p) {file? : Option String}
    (hexpects : d.Expects (Line.ofString text).tokens line.tokens)
    (hdirective : Assembly.directive d line p = .ok (file?, rest) p')
    (hend : expectEnd rest = .ok ()) :
    g.OnLine text p' := by
  have hupdates := updates_of_moves (does_directive d line _ _ _ hdirective)
  have hwithin := ((stays_directive d hexpects.suffix).of_ok hdirective).1
  cases d with
  | byte =>
      obtain ⟨_, _, hitems, hpure⟩ := bind_eq_ok_iff.1 hdirective
      cases hpure
      refine h.items (fun h hexpects hitem hrest => ⟨h.byteItem hexpects hitem hrest,
        ?_⟩) _ hexpects hitems hend
      exact ((stays_byteItem List.suffix_rfl).of_ok hitem).2
  | word =>
      obtain ⟨_, _, hitems, hpure⟩ := bind_eq_ok_iff.1 hdirective
      cases hpure
      refine h.items (fun h hexpects hitem hrest => ⟨h.wordItem hexpects hitem hrest,
        ?_⟩) _ hexpects hitems hend
      exact ((stays_wordItem List.suffix_rfl).of_ok hitem).2
  | origin => exact h.origin hexpects hdirective hend
  | «include» =>
      obtain ⟨next, -, hname⟩ := lift_bind_eq_ok_iff.1 hdirective
      split at hname
      · cases hname
        exact h
      · cases hname
  | breakpoint =>
      cases hdirective
      exact h.plain hupdates hwithin (.markBreakpoint p)

/-! What an instruction encodes. -/

theorem instruction (h : g.OnLine text p) {word : String}
    (hword : .word word :: line.tokens <:+ (Line.ofString text).tokens)
    (hop : Operation.ofMnemonic? word = some op)
    (hinstruction : Assembly.instruction op line p = .ok rest p')
    (hend : expectEnd rest = .ok ()) :
    g.OnLine text p' := by
  have hupdates := updates_of_moves (does_instruction op line _ _ _ hinstruction)
  have hwithin :=
    ((stays_instruction op ((List.suffix_cons _ _).trans hword)).of_ok hinstruction).1
  obtain ⟨shape, value, p₁, mode, encoded, p₂, entry, hoperand, hsettle, hentry, rfl⟩ :=
    instruction_eq_ok_iff.1 hinstruction
  obtain ⟨v, rfl⟩ := exists_known_of_operand h.round hoperand
  obtain ⟨hmem, rfl, rfl⟩ := holds_opcodes.lookup?_eq_some_iff.1 hentry
  have hsize : entry.size = entry.mode.size := regular_documented.sizes entry hmem
  obtain ⟨-, e?, hform, hvalue⟩ :=
    operandForm_of_operand hasIndirect_modes_of_isBranch hoperand hend
  have hplain : Plainly p p₂.markInstruction :=
    (((Plainly.of_operand hoperand).trans (.record p₁ rfl)).trans
      (.of_settle hsettle)).trans (.markInstruction p₂)
  have hcalm := calm_of_encoding hoperand hsettle
  have hcalm₁ := calm_of_operand hoperand
  have hfield := fieldHolds_of_settle
    (p := p₁.record (.operand entry.op shape (.known v)))
    (hcalm₁.round.trans h.round) (usesPageZero_of_operand hoperand) hsettle
  rw [show (p₁.record (.operand entry.op shape (.known v))).line =
    p.line from hcalm₁.line,
    show (p₁.record (.operand entry.op shape (.known v))).address =
      p.address from hcalm₁.address]
    at hfield
  have hmode : entry.mode = shape ∨ shape.zeroPageForm? = some entry.mode := by
    rw [(settle_eq_ok hsettle).1]
    exact settledMode_cases (opcodes.modes entry.op) shape (.known v)
  obtain ⟨hbytes, hlength⟩ := bytes_instruction hsize encoded
  refine h.concat (e := ⟨p.line, .place p.address (.instruction entry encoded)⟩)
    hupdates hwithin
    hplain ?_ ⟨shape, v, _, ⟨text, word, line.tokens, e?, h.line, hword, hop, hform, ?_⟩,
      hmode, hbytes, hlength, fieldHolds_mono (fun w hw => ?_) hfield⟩
  · rw [← hcalm.line, ← hcalm.address]
    exact Array.toList_push
  · obtain ⟨added, hlisting, hadded⟩ := hplain
    rw [hlisting, context_append hadded, ← h.context_eq]
    exact hvalue
  · exact mem_markInstruction hw

/-! Lines. -/

theorem statement (h : g.OnLine text p) {file? : Option String}
    (hline : line.tokens <:+ (Line.ofString text).tokens)
    (hstatement : Assembly.statement line p = .ok file? p') : g.OnLine text p' := by
  obtain ⟨-, -, rfl⟩ | ⟨w, rest, op, rest', htokens, hop, -, hinstruction, hend⟩ |
    ⟨w, rest, d, rest', htokens, -, hd, hdirective, hend⟩ := statement_eq_ok hstatement
  · exact h
  · rw [htokens] at hline
    exact h.instruction hline hop hinstruction hend
  · rw [htokens] at hline
    exact h.directive ⟨w, [], hline, hd, .inl rfl⟩ hdirective hend

theorem assignment (h : g.OnLine text p) {name : String}
    (hname : .word name ∈ (Line.ofString text).tokens)
    (hline : line.tokens <:+ (Line.ofString text).tokens)
    (hassignment : Assembly.assignment name line p = .ok () p') : g.OnLine text p' := by
  have hupdates := updates_of_assignment hassignment
  have hwithin := ((stays_assignment hname hline).of_ok hassignment).1
  obtain ⟨v, rest, p₁, hvalue, rfl⟩ := exists_of_assignment hassignment
  obtain ⟨r, -, -, rfl⟩ := value_eq_ok_iff.1 hvalue
  have hassign : Plainly (p.recordReferences r.asked)
      ((p.recordReferences r.asked).record (.assign v)) := .record _ rfl
  have hplain := (Plainly.recordReferences p r.asked).trans hassign
  cases v with
  | undefined => exact h.plain hupdates hwithin hplain
  | known v =>
      refine h.concat (e := ⟨(p.recordReferences r.asked).line,
        .define ((p.recordReferences r.asked).qualify name) v .value⟩) hupdates hwithin
          hplain ?_ trivial
      dsimp only
      rw [Pass.define_eq]
      exact Array.toList_push

theorem afterLabel (h : g.OnLine text p) {file? : Option String} {b : Beginning}
    (hbegins : Begins (Line.ofString text).tokens b)
    (hrest : Assembly.afterLabel (.ofString text) b p = .ok file? p') :
    g.OnLine text p' := by
  cases b with
  | nothing =>
      cases hrest
      exact h
  | label name rest | bareLabel name rest =>
      exact h.statement (suffix_of_begins hbegins rfl) hrest
  | assignment name rest =>
      obtain ⟨_, _, hassignment, hpure⟩ := bind_eq_ok_iff.1 hrest
      cases hpure
      exact h.assignment (mem_of_begins_assignment hbegins)
        (suffix_of_begins hbegins rfl) hassignment
  | statement => exact h.statement List.suffix_rfl hrest

end Program.OnLine

namespace Program.Underway

theorem enterLine (h : g.Underway p) (l : Location) : g.Underway (p.enterLine l) := by
  have hlisting : (p.enterLine l).listing.toList =
    p.listing.toList ++ [⟨l, .visit p.address⟩] :=
    Array.toList_push
  refine h.append ((preserved_recorded _).enterLine l h.toRecorded) rfl rfl (fun _ => id)
    hlisting rfl fun {before e after} hsplit => honest_of_isPlain ?_
  cases List.mem_singleton.1 (List.mem_iff_append.2 ⟨_, _, hsplit⟩)
  rfl

theorem labelled (h : g.Underway p) (b : Beginning) :
    g.Underway (Assembly.labelled p b) := by
  cases hlabel : b.label? with
  | none =>
      rw [labelled_of_none hlabel]
      exact h
  | some name =>
      have hlabels := labels_labelled hlabel p
      have hdefine : Assembly.labelled p b = p.defineLabel name := by
        unfold Assembly.labelled
        rw [hlabel]
      refine h.append ?_ hlabels.flags ?_ (fun w hw => ?_) hlabels.listing hlabels.address
        fun {before e after} hsplit => ?_
      · rw [hdefine]
        exact (preserved_recorded _).defineLabel name h.toRecorded
      · rw [hdefine]
        exact (preserved_round _).defineLabel name rfl
      · rw [hdefine]
        exact (preserved_warning w).defineLabel name hw
      · cases List.mem_singleton.1 (List.mem_iff_append.2 ⟨_, _, hsplit⟩)
        trivial

/-- The line lemma: whatever a line encodes in its final scope is honest. -/
theorem assembleLine (h : g.Underway p) {file? : Option String}
    (hread : Assembly.assembleLine l text p = .ok file? p') (hline : (l, text) ∈ g.lines)
    (hscope : (p.afterLine l text).scope = g.scopes.at? l.file l.line) :
    g.Underway p' := by
  obtain ⟨b, hbeginning, hadmitted, -, hrest⟩ := exists_tells_of_assembleLine hread
  have hwithin := within_afterLine (l := l) hbeginning hadmitted
  have hat := line_labelled (p.enterLine l) b
  have honline : g.OnLine text (Assembly.labelled (p.enterLine l) b) := by
    refine ⟨(h.enterLine l).labelled b, ?_, ?_⟩
    · rw [← hwithin.scope, hscope, hat]
      rfl
    · rw [hat]
      exact hline
  exact (honline.afterLabel (begins_of_beginning hbeginning) hrest).toUnderway

/-- The run lemma, by induction on the lines. -/
theorem afterLines (h : g.Underway q) {lines : List (Location × String)}
    (hlines : ∀ before l text after, lines = before ++ (l, text) :: after →
      (l, text) ∈ g.lines ∧
      (∃ file? q', Assembly.assembleLine l text (q.afterLines before) = .ok file? q') ∧
      ((q.afterLines before).afterLine l text).scope = g.scopes.at? l.file l.line) :
    g.Underway (q.afterLines lines) := by
  induction lines generalizing q with
  | nil => exact h
  | cons line lines ih =>
      obtain ⟨l, text⟩ := line
      obtain ⟨hline, ⟨file?, q', hread⟩, hscope⟩ := hlines [] l text lines rfl
      change g.Underway (Pass.afterLines (q.afterLine l text) lines)
      refine ih ?_ fun before l' text' after hsplit => ?_
      · rw [afterLine_of_ok (p := q) hread]
        exact h.assembleLine hread hline hscope
      · exact hlines ((l, text) :: before) l' text' after (by rw [hsplit]; rfl)

end Program.Underway

end Breadboard.Assembly

namespace Breadboard.Assembler

open Assembly

variable {a : Assembler} {d : Disk} {root : FileId} {m : Memory} {asm : Assembly}

def program (a : Assembler) (d : Disk) (root : FileId)
    (lines : List (Location × String)) : Program where
  flags := a.flags
  symbols := (a.firstPass d root).pass.symbols
  scopes := (a.firstPass d root).pass.scopes
  lines := lines

/-- What an accepted program encodes: every entry of its listing is honest about the value
that it encodes, on a line that the second pass reads, and is where the next byte goes. -/
structure Discloses (a : Assembler) (d : Disk) (root : FileId)
    (lines : List (Location × String)) (asm : Assembly) : Prop where
  reads : Passes d root (a.firstPass d root).library (a.firstPass d root).pass.next lines
    (secondPass d root (a.firstPass d root))
  addressed : Addressed a.flags.defaultOrigin asm.listing.toList
  honest : ∀ before e after, asm.listing.toList = before ++ e :: after →
    (a.program d root lines).Honest asm.warnings before e

private theorem underway_secondPass (hfirst : (a.firstPass d root).error? = none)
    (hsecond : (secondPass d root (a.firstPass d root)).error? = none) :
    ∃ lines, Passes d root (a.firstPass d root).library
        (a.firstPass d root).pass.next lines (secondPass d root (a.firstPass d root)) ∧
      (a.program d root lines).Underway
        (secondPass d root (a.firstPass d root)).pass := by
  obtain ⟨lib, lines, reread, -, hstart, hruns, hretraced, -⟩ := exists_retraced hfirst
  have hflags := flags_firstPass hfirst
  refine ⟨reread, .opened hstart hruns, ?_⟩
  rw [hruns.pass_eq]
  have hbegins : (a.program d root reread).Underway (a.firstPass d root).pass.next := by
    refine ⟨recorded_of_empty rfl rfl rfl, hflags, rfl,
      ?_, fun {before e after} hsplit => ?_⟩
    · exact congrArg Flags.defaultOrigin hflags
    · cases before <;> cases hsplit
  refine hbegins.afterLines fun before l text after hsplit =>
    ⟨?_, hruns.exists_ok hsecond hsplit, ?_⟩
  · exact List.mem_iff_append.2 ⟨_, _, hsplit⟩
  · have hline := hretraced.retraces before l text after hsplit
    exact hline.scope_again.trans hline.scope

theorem discloses_of_assemble (h : (a.assemble d root m).1 = .ok asm) :
    ∃ lines, a.Discloses d root lines asm := by
  obtain ⟨hfirst, hsecond, rfl⟩ := assemble_eq_ok_iff.1 h
  obtain ⟨lines, hpasses, hunderway⟩ := underway_secondPass hfirst hsecond
  exact ⟨lines, hpasses, addressed_secondPass hfirst, fun _ _ _ => hunderway.honest⟩

/-- A program with values that do not fit their fields, and values that do as
numbers of either kind. -/
def overflowing : Assembler :=
  (addText {} "overflowing" ("\n".intercalate
    ["  .org $10400", "x: .byte 300, 255, -128", "  .word -5, x + .y", ".y = -1",
      "  LDA #$1FF"])).2

theorem discloses_of_assemble_overflowing : ∃ asm,
    (overflowing.assemble {} 0 (.filled 0)).1 = .ok asm ∧
      asm.warnings.map (·.kind) =
        #[.originOutOfRange 0x10400, .valueOutOfRange 300, .immediateOutOfRange 0x1FF] ∧
      ∃ lines, overflowing.Discloses {} 0 lines asm := by
  have hassembled : ∃ asm ∈ (overflowing.assemble {} 0 (.filled 0)).1.toOption,
      asm.warnings.map (·.kind) =
        #[.originOutOfRange 0x10400, .valueOutOfRange 300,
          .immediateOutOfRange 0x1FF] := by
    decide +kernel
  obtain ⟨asm, hasm, hwarnings⟩ := hassembled
  have hok := eq_ok_of_toOption hasm
  exact ⟨asm, hok, hwarnings, discloses_of_assemble hok⟩

end Breadboard.Assembler
