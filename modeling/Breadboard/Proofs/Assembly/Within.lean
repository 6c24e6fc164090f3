import Breadboard.Proofs.Assembly.Address
import Breadboard.Proofs.Assembly.Inclusion
import Breadboard.Proofs.Assembly.Operand
import Breadboard.Proofs.Expr.Asking
import Breadboard.Proofs.Symbol.Names

namespace Breadboard.Assembly

open Read

def Event.scope? : Event → Option String
  | .define key _ .label => if '.' ∈ key.toList then none else some key
  | _ => none

/-- A symbol that is referred to or defined is a word among the tokens, under
its name in the pass. -/
def Event.Names (tokens : List Token) (p : Pass) : Event → Prop
  | .define key _ _ =>
      ∃ name, .word name ∈ tokens ∧ isLabelName name = true ∧ key = p.qualify name
  | .refer key _ => ∃ name, .word name ∈ tokens ∧ key = p.qualify name
  | _ => True

variable {p p' : Pass} {tokens : List Token}

theorem isLocalName_normalize (p : Pass) (name : String) :
    isLocalName (p.normalize name) = isLocalName name := by
  unfold Pass.normalize
  split
  · rfl
  · exact isLocalName_toLower name

theorem dot_mem_normalize {name : String} : '.' ∈ (p.normalize name).toList ↔
    '.' ∈ name.toList := by
  unfold Pass.normalize
  split
  · exact .rfl
  · exact dot_mem_toLower

theorem qualify_of_local {name : String} (h : isLocalName name = true) (p : Pass) :
    p.qualify name = p.scope.getD "" ++ p.normalize name :=
  if_pos ((isLocalName_normalize p name).trans h)

theorem qualify_of_global {name : String} (h : isLocalName name = false) (p : Pass) :
    p.qualify name = p.normalize name :=
  if_neg (by rw [isLocalName_normalize, h]; exact Bool.false_ne_true)

theorem qualify_congr (hflags : p'.flags = p.flags) (hscope : p'.scope = p.scope)
    (name : String) :
    p'.qualify name = p.qualify name := by
  unfold Pass.qualify Pass.normalize
  rw [hflags, hscope]

theorem Event.Names.congr {event : Event} (h : event.Names tokens p)
    (hflags : p'.flags = p.flags) (hscope : p'.scope = p.scope) :
    event.Names tokens p' := by
  cases event with
  | define key value kind =>
      obtain ⟨name, hmem, hname, rfl⟩ := h
      exact ⟨name, hmem, hname, (qualify_congr hflags hscope name).symm⟩
  | refer key value? =>
      obtain ⟨name, hmem, rfl⟩ := h
      exact ⟨name, hmem, (qualify_congr hflags hscope name).symm⟩
  | _ => trivial

/-- The entries by which the pass goes on within a line. -/
structure Adds (tokens : List Token) (p p' : Pass) (added : List ListingEntry) :
    Prop where
  listing : p'.listing.toList = p.listing.toList ++ added
  address : p'.address = addressAfter p.address added
  addressed : Addressed p.address added
  entries : ∀ e ∈ added, e.location = p'.line ∧ e.event.Names tokens p'

theorem Adds.append {p'' : Pass} {added added' : List ListingEntry}
    (h : Adds tokens p p' added) (h' : Adds tokens p' p'' added')
    (hflags : p''.flags = p'.flags) (hline : p''.line = p'.line)
    (hscope : p''.scope = p'.scope) : Adds tokens p p'' (added ++ added') := by
  refine ⟨?_, ?_, addressed_append.2 ⟨h.addressed, h.address ▸ h'.addressed⟩,
    fun e hmem => ?_⟩
  · rw [h'.listing, h.listing, List.append_assoc]
  · rw [h'.address, h.address, addressAfter_append]
  · obtain hmem | hmem := List.mem_append.1 hmem
    · obtain ⟨hlocation, hnames⟩ := h.entries e hmem
      exact ⟨hlocation.trans hline.symm, hnames.congr hflags hscope⟩
    · exact h'.entries e hmem

/-- The pass goes on within a line, past its label: it stays in its
scope, and opens none. -/
structure Within (tokens : List Token) (p p' : Pass) : Prop where
  flags : p'.flags = p.flags
  line : p'.line = p.line
  scope : p'.scope = p.scope
  scopes : p'.scopes = p.scopes
  adds : ∃ added, Adds tokens p p' added ∧ ∀ e ∈ added, e.event.scope? = none

namespace Within

theorem of_listing (hflags : p'.flags = p.flags) (hline : p'.line = p.line)
    (hscope : p'.scope = p.scope) (hscopes : p'.scopes = p.scopes)
    (haddress : p'.address = p.address) (hlisting : p'.listing = p.listing) :
    Within tokens p p' :=
  ⟨hflags, hline, hscope, hscopes, [],
    ⟨by rw [hlisting, List.append_nil], haddress, trivial, fun _ => nofun⟩,
    fun _ => nofun⟩

theorem refl (p : Pass) : Within tokens p p :=
  of_listing rfl rfl rfl rfl rfl rfl

theorem trans {p'' : Pass} (h : Within tokens p p') (h' : Within tokens p' p'') :
    Within tokens p p'' := by
  obtain ⟨added, hadded, hnone⟩ := h.adds
  obtain ⟨added', hadded', hnone'⟩ := h'.adds
  refine ⟨h'.flags.trans h.flags, h'.line.trans h.line, h'.scope.trans h.scope,
    h'.scopes.trans h.scopes, added ++ added',
    hadded.append hadded' h'.flags h'.line h'.scope,
    fun e hmem => ?_⟩
  exact (List.mem_append.1 hmem).elim (hnone e) (hnone' e)

theorem of_record {e : Event} (hp' : p' = { p.record e with address := p'.address })
    (haddress : p'.address = e.addressAfter p.address) (hat : e.IsAt p.address)
    (hnames : e.Names tokens p) (hscope : e.scope? = none) : Within tokens p p' := by
  rw [hp']
  refine ⟨rfl, rfl, rfl, rfl, [⟨p.line, e⟩], ⟨Array.toList_push, haddress,
    addressed_singleton.2 hat, fun e' hmem => ?_⟩, fun e' hmem => ?_⟩
  · cases List.mem_singleton.1 hmem
    exact ⟨rfl, hnames.congr rfl rfl⟩
  · cases List.mem_singleton.1 hmem
    exact hscope

theorem refer (p : Pass) {name : String} (h : .word name ∈ tokens)
    (value? : Option Int32) :
    Within tokens p (p.record (.refer (p.qualify name) value?)) :=
  of_record rfl rfl trivial ⟨name, h, rfl⟩ rfl

theorem assign (p : Pass) (value : Expr.Value) :
    Within tokens p (p.record (.assign value)) :=
  of_record rfl rfl trivial trivial rfl

theorem operand (p : Pass) (op : Operation) (mode : AddressingMode) (value : Expr.Value) :
    Within tokens p (p.record (.operand op mode value)) :=
  of_record rfl rfl trivial trivial rfl

theorem recordReferences (p : Pass) {names : List String} (h : Expr.Among tokens names) :
    Within tokens p (p.recordReferences names) := by
  unfold Pass.recordReferences
  induction names generalizing p with
  | nil => exact refl p
  | cons name names ih =>
      refine (refer p (h name List.mem_cons_self) _).trans (ih _ ?_)
      exact fun other hmem => h other (List.mem_cons_of_mem _ hmem)

theorem warnIf (p : Pass) (condition : Bool) (kind : WarningKind) :
    Within tokens p (p.warnIf condition kind) := by
  rw [p.warnIf_eq]
  exact of_listing rfl rfl rfl rfl rfl rfl

theorem place (p : Pass) (item : Item) : Within tokens p (p.place item) :=
  of_record (e := .place p.address item) rfl rfl rfl trivial rfl

theorem markInstruction (p : Pass) : Within tokens p p.markInstruction := by
  rw [p.markInstruction_eq]
  exact of_listing rfl rfl rfl rfl rfl rfl

theorem moveTo (p : Pass) (value : Int32) : Within tokens p (p.moveTo value) :=
  (warnIf p _ _).trans (of_record (e := .origin value) rfl rfl trivial trivial rfl)

theorem markBreakpoint (p : Pass) : Within tokens p p.markBreakpoint := by
  rw [p.markBreakpoint_eq]
  exact of_listing rfl rfl rfl rfl rfl rfl

theorem define (p : Pass) {name : String} (hmem : .word name ∈ tokens)
    (hname : isLabelName name = true) (value : Int32) :
    Within tokens p (p.define (p.qualify name) value .value) := by
  rw [p.define_eq]
  have hrecord : Within tokens p (p.record (.define (p.qualify name) value .value)) :=
    of_record rfl rfl trivial ⟨name, hmem, hname, rfl⟩ rfl
  exact hrecord.trans (of_listing rfl rfl rfl rfl rfl rfl)

end Within

/-! Actions of any outcome. -/

variable {α β : Type} {Q : α → Prop} {R : β → Prop}

/-- Whether it fails or not, an action stays within the line. What it
results in satisfies `Q`. -/
def Stays (tokens : List Token) (Q : α → Prop) (x : Assembling α) : Prop :=
  ∀ p, match x p with
    | .ok a p' => Within tokens p p' ∧ Q a
    | .error _ p' => Within tokens p p'

namespace Stays

theorem of_ok {x : Assembling α} {a : α} (h : Stays tokens Q x)
    (hx : x p = .ok a p') : Within tokens p p' ∧ Q a := by
  have hp := h p
  rw [hx] at hp
  exact hp

theorem pure {a : α} (h : Q a) : Stays tokens Q (Pure.pure a) :=
  fun p => ⟨.refl p, h⟩

theorem throw (e : ErrorKind) : Stays tokens Q (MonadExcept.throw e : Assembling α) :=
  fun p => .refl p

theorem get : Stays tokens (fun _ => True) (MonadState.get : Assembling Pass) :=
  fun p => ⟨.refl p, trivial⟩

theorem lift {read : Except ErrorKind α} (h : ∀ a, read = .ok a → Q a) :
    Stays tokens Q (liftM read : Assembling α) := by
  intro p
  cases read with
  | ok a => exact ⟨.refl p, h a rfl⟩
  | error e => exact .refl p

theorem modify_of {f : Pass → Pass} (h : ∀ p, Within tokens p (f p)) :
    Stays tokens (fun _ => True) (modify f : Assembling PUnit) :=
  fun p => ⟨h p, trivial⟩

theorem bind {x : Assembling α} {f : α → Assembling β} (hx : Stays tokens Q x)
    (hf : ∀ a, Q a → Stays tokens R (f a)) : Stays tokens R (x >>= f) := by
  intro p
  have hfirst := hx p
  cases hrun : x p with
  | error e p₁ =>
      rw [hrun] at hfirst
      rw [bind_of_error hrun]
      exact hfirst
  | ok a p₁ =>
      rw [hrun] at hfirst
      rw [bind_of_ok hrun]
      have hrest := hf a hfirst.2 p₁
      cases hrun' : f a p₁ with
      | error e p₂ =>
          rw [hrun'] at hrest
          exact hfirst.1.trans hrest
      | ok b p₂ =>
          rw [hrun'] at hrest
          exact ⟨hfirst.1.trans hrest.1, hrest.2⟩

end Stays

/-! What is left of a line while it is read is an end of it. -/

variable {line rest : Line}

private theorem suffix_skip (line : Line) : (skip line).tokens <:+ line.tokens := by
  obtain ⟨lexemes, fault⟩ := line
  cases lexemes with
  | nil => exact List.suffix_rfl
  | cons l lexemes => exact List.suffix_cons _ _

private theorem suffix_of_next? {t : Token} (h : next? line = .ok (some (t, rest))) :
    rest.tokens <:+ line.tokens := by
  rw [(next?_eq_ok h).1]
  exact List.suffix_cons _ _

private theorem suffix_of_comma? (h : comma? line = .ok (some rest)) :
    rest.tokens <:+ line.tokens := by
  obtain hnone | ⟨_, hsome, htokens, -⟩ := comma?_eq_ok h
  · cases hnone
  · cases hsome
    rw [htokens]
    exact List.suffix_cons _ _

private theorem suffix_of_shape {enclosure : Expr.Enclosure} {mode : AddressingMode}
    (h : shape enclosure line = .ok (mode, rest)) : rest.tokens <:+ line.tokens := by
  obtain ⟨us, htokens, -⟩ := exists_indexing_of_shape h
  rw [htokens]
  exact List.suffix_append us _

/-! Each action that reads a line stays within it. -/

theorem stays_operandValue (indirect : Bool) (hline : line.tokens <:+ tokens) :
    Stays tokens (fun r => r.2.tokens <:+ tokens) (operandValue indirect line) := by
  refine Stays.get.bind fun p _ => ?_
  have hasks := Expr.asks_evalOperand p.context indirect line
  cases heval : Expr.evalOperand p.context indirect line with
  | error f =>
      rw [heval] at hasks
      dsimp only
      refine (Stays.modify_of fun p => .recordReferences p fun name hname => ?_).bind
        fun _ _ => .throw _
      exact hline.subset (hasks name hname)
  | ok r =>
      rw [heval] at hasks
      dsimp only
      refine (Stays.modify_of fun p => .recordReferences p fun name hname => ?_).bind
        fun _ _ => .pure ((hasks.2.map Lexeme.token).trans hline)
      exact hline.subset (hasks.1 name hname)

theorem stays_value (hline : line.tokens <:+ tokens) :
    Stays tokens (fun r => r.2.tokens <:+ tokens) (value line) :=
  (stays_operandValue false hline).bind fun _ hrest => .pure hrest

private theorem stays_valueOrZero (hline : line.tokens <:+ tokens) :
    Stays tokens (fun r => r.2.tokens <:+ tokens) (valueOrZero line) :=
  (stays_value hline).bind fun _ hrest => .pure hrest

private theorem stays_addressOperand (op : Operation) (modes : ModeSet)
    (hline : line.tokens <:+ tokens) :
    Stays tokens (fun r => r.2.2.tokens <:+ tokens) (addressOperand op modes line) := by
  refine (stays_operandValue _ hline).bind fun r hrest => ?_
  dsimp only
  split
  · exact .pure hrest
  · refine (Stays.lift (Q := fun r => r.2.tokens <:+ tokens) fun r' hshape => ?_).bind
      fun _ hrest' => .pure hrest'
    exact (suffix_of_shape hshape).trans hrest

private theorem stays_operand (op : Operation) (modes : ModeSet)
    (hline : line.tokens <:+ tokens) :
    Stays tokens (fun r => r.2.2.tokens <:+ tokens) (operand op modes line) := by
  have hskip := (suffix_skip line).trans hline
  refine (Stays.lift (Q := fun _ => True) fun _ _ => trivial).bind fun t _ => ?_
  split
  · exact .pure hline
  · exact (stays_value hskip).bind fun _ hrest => .pure hrest
  · split
    · exact .pure hskip
    · exact stays_addressOperand op modes hline
  · exact stays_addressOperand op modes hline

private theorem stays_settle (modes : ModeSet) (mode : AddressingMode)
    (value : Expr.Value) :
    Stays tokens (fun _ => True) (settle modes mode value) := by
  have hpointer : ∀ (mode : AddressingMode) (v : Int32), Stays tokens (fun _ => True) (do
      if !inZeroPage v && (← MonadState.get).round = .second then
        throw (.zeroPageRequired v)
      return (mode, v)) := by
    intro mode v
    refine Stays.get.bind fun p _ => ?_
    split
    · exact (Stays.throw (Q := fun _ => True) _).bind fun _ _ => .pure trivial
    · exact .pure trivial
  have hwarn : ∀ (condition : Bool) (kind : WarningKind)
    (settled : AddressingMode × Int32),
      Stays tokens (fun _ => True) (do
        modify (·.warnIf condition kind)
        return settled) :=
    fun condition kind _ =>
      (Stays.modify_of fun p => .warnIf p condition kind).bind fun _ _ => .pure trivial
  unfold settle
  split
  · refine Stays.bind (Q := fun _ => True) ?_ fun _ _ => .pure trivial
    refine Stays.get.bind fun p _ => ?_
    dsimp only
    split
    · exact (Stays.throw (Q := fun _ => True) _).bind fun _ _ => .pure trivial
    · exact .pure trivial
  · exact .pure trivial
  · exact .pure trivial
  · exact .pure trivial
  · exact hwarn _ _ _
  · exact hpointer _ _
  · exact hpointer _ _
  · exact hwarn _ _ _

private theorem stays_placeEntry (op : Operation) (mode : AddressingMode) (value : Int32)
    (found : Option OpcodeEntry) :
    Stays tokens (fun _ => True) (placeEntry op mode value found) := by
  cases found with
  | none => exact .throw _
  | some entry => exact .modify_of fun p => (Within.markInstruction p).trans (.place _ _)

theorem stays_instruction (op : Operation) (hline : line.tokens <:+ tokens) :
    Stays tokens (fun rest => rest.tokens <:+ tokens) (instruction op line) := by
  refine (stays_operand op _ hline).bind fun r hrest => ?_
  refine (Stays.modify_of fun p => .operand p op r.1 r.2.1).bind fun _ _ => ?_
  refine (stays_settle _ _ _).bind fun settled _ => ?_
  obtain ⟨mode, v⟩ := settled
  dsimp only
  generalize opcodes.lookup? op mode = found
  exact (stays_placeEntry op mode v found).bind fun _ _ => .pure hrest

theorem stays_byteItem (hline : line.tokens <:+ tokens) :
    Stays tokens (fun rest => rest.tokens <:+ tokens) (byteItem line) := by
  refine (Stays.lift (Q := fun _ => True) fun _ _ => trivial).bind fun t _ => ?_
  split
  · exact (Stays.modify_of fun p => .place p _).bind fun _ _ =>
      .pure ((suffix_skip line).trans hline)
  · refine (stays_valueOrZero hline).bind fun r hrest => ?_
    exact (Stays.modify_of fun p => (Within.warnIf p _ _).trans (.place _ _)).bind
      fun _ _ => .pure hrest

theorem stays_wordItem (hline : line.tokens <:+ tokens) :
    Stays tokens (fun rest => rest.tokens <:+ tokens) (wordItem line) := by
  refine (stays_valueOrZero hline).bind fun r hrest => ?_
  exact (Stays.modify_of fun p => (Within.warnIf p _ _).trans (.place _ _)).bind
    fun _ _ => .pure hrest

private theorem stays_items {item : Line → Assembling Line}
    (h : ∀ {line : Line}, line.tokens <:+ tokens →
      Stays tokens (fun rest => rest.tokens <:+ tokens) (item line))
    (n : Nat) (hline : line.tokens <:+ tokens) :
    Stays tokens (fun rest => rest.tokens <:+ tokens) (items item n line) := by
  induction n generalizing line with
  | zero => exact .pure hline
  | succ n ih =>
      refine (h hline).bind fun rest hrest => ?_
      refine (Stays.lift (Q := fun next? => ∀ next ∈ next?, next.tokens <:+
        tokens) ?_).bind fun next? hnext => ?_
      · rintro _ hcomma next ⟨⟩
        exact (suffix_of_comma? hcomma).trans hrest
      · cases next? with
        | none => exact .pure hrest
        | some next => exact ih (hnext next rfl)

theorem stays_directive (d : Directive) (hline : line.tokens <:+ tokens) :
    Stays tokens (fun r => r.2.tokens <:+ tokens) (directive d line) := by
  cases d with
  | byte => exact (stays_items stays_byteItem _ hline).bind fun _ hrest => .pure hrest
  | word => exact (stays_items stays_wordItem _ hline).bind fun _ hrest => .pure hrest
  | origin =>
      refine (stays_value hline).bind fun r hrest => ?_
      dsimp only
      split
      · exact .throw _
      · exact (Stays.modify_of fun p => .moveTo p _).bind fun _ _ => .pure hrest
  | «include» =>
      refine (Stays.lift (Q := fun t => ∀ r ∈ t, r.2.tokens <:+ tokens) ?_).bind
        fun t hrest => ?_
      · rintro _ hnext r ⟨⟩
        exact (suffix_of_next? hnext).trans hline
      · split
        · exact .pure (hrest _ rfl)
        · exact .throw _
  | breakpoint =>
    exact (Stays.modify_of fun p => .markBreakpoint p).bind fun _ _ => .pure hline

private theorem stays_statement (hline : line.tokens <:+ tokens) :
    Stays tokens (fun _ => True) (statement line) := by
  have hend : ∀ (rest : Line) (file? : Option String),
      Stays tokens (fun _ => True) (do expectEnd rest; pure file?) :=
    fun rest file? => (Stays.lift (Q := fun _ => True) fun _ _ => trivial).bind
      fun _ _ => .pure trivial
  refine (Stays.lift (Q := fun t => ∀ r ∈ t, r.2.tokens <:+ tokens) ?_).bind
    fun t hrest => ?_
  · rintro _ hnext r ⟨⟩
    exact (suffix_of_next? hnext).trans hline
  · split
    · exact .pure trivial
    · split
      · exact (stays_instruction _ (hrest _ rfl)).bind fun _ _ => hend _ _
      · exact (stays_directive _ (hrest _ rfl)).bind fun _ _ => hend _ _
      · exact .throw _
    · exact .lift fun _ _ => trivial

theorem stays_assignment {name : String} (hname : .word name ∈ tokens)
    (hline : line.tokens <:+ tokens) :
    Stays tokens (fun _ => True) (assignment name line) := by
  unfold assignment
  split
  · rename_i hlabel
    refine (stays_value hline).bind fun r _ => ?_
    refine (Stays.modify_of fun p => .assign p r.1).bind fun _ _ => ?_
    refine (Stays.lift (Q := fun _ => True) fun _ _ => trivial).bind fun _ _ => ?_
    split
    · exact .modify_of fun p => .define p hname hlabel _
    · exact .pure trivial
  · exact .throw _

theorem stays_afterLabel {b : Beginning} (hbegins : Begins line.tokens b) :
    Stays line.tokens (fun _ => True) (afterLabel line b) := by
  cases b with
  | nothing => exact .pure trivial
  | label name rest | bareLabel name rest =>
    exact stays_statement (suffix_of_begins hbegins rfl)
  | assignment name rest =>
      exact (stays_assignment (mem_of_begins_assignment hbegins)
        (suffix_of_begins hbegins rfl)).bind fun _ _ => .pure trivial
  | statement => exact stays_statement List.suffix_rfl

end Breadboard.Assembly
