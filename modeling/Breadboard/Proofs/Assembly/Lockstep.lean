import Breadboard.Proofs.Assembly.Definition
import Breadboard.Proofs.Expr.Refinement

namespace Breadboard.Assembly

/-! What keeps passes abreast. -/

/-- What tells the layout of a program: where each line begins, and what is defined. -/
def Event.isLayout : Event → Bool
  | .visit _ | .define .. => true
  | _ => false

def layoutOf (entries : List ListingEntry) : List ListingEntry :=
  entries.filter (·.event.isLayout)

/-- The first and the second pass stand at the same place, and have laid
out the program alike. -/
structure Abreast (p q : Pass) : Prop where
  first : p.round = .first
  second : q.round = .second
  flags : q.flags = p.flags
  line : q.line = p.line
  scope : q.scope = p.scope
  address : q.address = p.address
  layout : layoutOf q.listing.toList = layoutOf p.listing.toList
  symbols : ∀ {key value}, p.symbols.value? key = some value →
    q.symbols.value? key = some value

/-- Nothing changes that passes have to agree on. -/
structure Idle (p p' : Pass) : Prop where
  round : p'.round = p.round
  flags : p'.flags = p.flags
  line : p'.line = p.line
  scope : p'.scope = p.scope
  address : p'.address = p.address
  layout : layoutOf p'.listing.toList = layoutOf p.listing.toList
  symbols : p'.symbols = p.symbols

variable {p p' q q' : Pass}

theorem Idle.refl (p : Pass) : Idle p p :=
  ⟨rfl, rfl, rfl, rfl, rfl, rfl, rfl⟩

theorem Idle.trans {p'' : Pass} (h : Idle p p') (h' : Idle p' p'') : Idle p p'' where
  round := h'.round.trans h.round
  flags := h'.flags.trans h.flags
  line := h'.line.trans h.line
  scope := h'.scope.trans h.scope
  address := h'.address.trans h.address
  layout := h'.layout.trans h.layout
  symbols := h'.symbols.trans h.symbols

theorem layout_push (listing : Listing) (e : ListingEntry) :
    layoutOf (listing.push e).toList =
      layoutOf listing.toList ++ if e.event.isLayout then [e] else [] := by
  rw [Array.toList_push, layoutOf, List.filter_append]
  cases h : e.event.isLayout with
  | false => simp [layoutOf, h]
  | true => simp [layoutOf, h]

theorem definitions_layoutOf (key : String) (entries : List ListingEntry) :
    definitions key (layoutOf entries) = definitions key entries := by
  induction entries with
  | nil => rfl
  | cons e entries ih =>
      rw [← List.singleton_append, definitions_append, ← ih, layoutOf, List.filter_append,
        definitions_append]
      cases h : e.event.isLayout with
      | true => simp [layoutOf, h]
      | false =>
          have hdefinition : e.event.isDefinition = false := by
            cases hevent : e.event with
            | define => simp [hevent, Event.isLayout] at h
            | _ => rfl
          have hnothing := definitions_singleton hdefinition key
          rw [List.filter_cons_of_neg (by simp [h]), hnothing]
          rfl

theorem Idle.record (p : Pass) (event : Event) (h : event.isLayout = false) :
    Idle p (p.record event) := by
  refine ⟨rfl, rfl, rfl, rfl, rfl, ?_, rfl⟩
  have hlayout := layout_push p.listing ⟨p.line, event⟩
  rw [if_neg (by simp [h]), List.append_nil] at hlayout
  exact hlayout

theorem Idle.recordReferences (p : Pass) (names : List String) :
    Idle p (p.recordReferences names) := by
  unfold Pass.recordReferences
  induction names generalizing p with
  | nil => exact .refl p
  | cons name names ih => exact (Idle.record p _ rfl).trans (ih _)

theorem Idle.warnIf (p : Pass) (condition : Bool) (kind : WarningKind) :
    Idle p (p.warnIf condition kind) := by
  rw [p.warnIf_eq]
  exact ⟨rfl, rfl, rfl, rfl, rfl, rfl, rfl⟩

theorem Idle.markInstruction (p : Pass) : Idle p p.markInstruction := by
  rw [p.markInstruction_eq]
  exact ⟨rfl, rfl, rfl, rfl, rfl, rfl, rfl⟩

theorem Idle.markBreakpoint (p : Pass) : Idle p p.markBreakpoint := by
  rw [p.markBreakpoint_eq]
  exact ⟨rfl, rfl, rfl, rfl, rfl, rfl, rfl⟩

namespace Abreast

theorem idle (h : Abreast p q) (hp : Idle p p') (hq : Idle q q') : Abreast p' q' where
  first := hp.round.trans h.first
  second := hq.round.trans h.second
  flags := hq.flags.trans (h.flags.trans hp.flags.symm)
  line := hq.line.trans (h.line.trans hp.line.symm)
  scope := hq.scope.trans (h.scope.trans hp.scope.symm)
  address := hq.address.trans (h.address.trans hp.address.symm)
  layout := hq.layout.trans (h.layout.trans hp.layout.symm)
  symbols := by
    rw [hp.symbols, hq.symbols]
    exact h.symbols

theorem normalize_eq (h : Abreast p q) (name : String) :
    q.normalize name = p.normalize name := by
  unfold Pass.normalize
  rw [h.flags]

theorem qualify_eq (h : Abreast p q) (name : String) :
    q.qualify name = p.qualify name := by
  unfold Pass.qualify
  rw [h.normalize_eq, h.scope]

theorem context (h : Abreast p q) : p.context.Refined q.context := by
  refine ⟨h.address, fun {name value} hresolve => ?_⟩
  change q.symbols.value? (q.qualify name) = some value
  rw [h.qualify_eq]
  exact h.symbols hresolve

theorem place (h : Abreast p q) {item item' : Item}
    (hlength : item'.bytes.length = item.bytes.length) :
    Abreast (p.place item) (q.place item') := by
  have hrecord := h.idle (.record p (.place p.address item) rfl)
    (.record q (.place q.address item') rfl)
  refine ⟨hrecord.first, hrecord.second, hrecord.flags, hrecord.line, hrecord.scope, ?_,
    hrecord.layout, hrecord.symbols⟩
  change q.address + _ = p.address + _
  rw [h.address, hlength]

theorem moveTo (h : Abreast p q) (value : Int32) :
    Abreast (p.moveTo value) (q.moveTo value) := by
  have hwarn := h.idle (.warnIf p (value < 0 || 0xFFFF < value) (.originOutOfRange value))
    (.warnIf q (value < 0 || 0xFFFF < value) (.originOutOfRange value))
  have hrecord := hwarn.idle (.record _ (.origin value) rfl)
    (.record _ (.origin value) rfl)
  exact ⟨hrecord.first, hrecord.second, hrecord.flags, hrecord.line, hrecord.scope, rfl,
    hrecord.layout, hrecord.symbols⟩

theorem define (h : Abreast p q) (key : String) (value : Int32) (kind : SymbolKind) :
    Abreast (p.define key value kind) (q.define key value kind) := by
  rw [p.define_eq, q.define_eq]
  refine ⟨h.first, h.second, h.flags, h.line, h.scope, h.address,
    ?_, fun {key' value'} => ?_⟩
  · change layoutOf (q.listing.push ⟨q.line, .define key value kind⟩).toList =
      layoutOf (p.listing.push ⟨p.line, .define key value kind⟩).toList
    rw [layout_push, layout_push, h.layout, h.line]
  · change SymbolTable.value? (p.symbols.insert key _) key' = _ →
      SymbolTable.value? (q.symbols.insert key _) key' = _
    rw [value?_insert, value?_insert]
    split
    · exact id
    · exact h.symbols

end Abreast

/-! Actions in lockstep. -/

variable {α β γ δ : Type}

/-- What two actions give is related if neither fails, and the passes stay abreast. -/
def Lockstep (R : α → β → Prop) (x : Assembling α) (y : Assembling β) : Prop :=
  ∀ p q, Abreast p q → ∀ a p' b q', x p = .ok a p' → y q = .ok b q' →
    R a b ∧ Abreast p' q'

namespace Lockstep

variable {R : α → β → Prop} {S : γ → δ → Prop}

theorem pure {a : α} {b : β} (h : R a b) : Lockstep R (Pure.pure a) (Pure.pure b) := by
  intro p q hpq _ _ _ _ hx hy
  cases hx
  cases hy
  exact ⟨h, hpq⟩

theorem throw (e : ErrorKind) {y : Assembling β} :
    Lockstep R (MonadExcept.throw e : Assembling α) y := by
  intro p q hpq _ _ _ _ hx
  cases hx

theorem lift (read : Except ErrorKind α) :
    Lockstep Eq (liftM read : Assembling α) (liftM read : Assembling α) := by
  intro p q hpq _ _ _ _ hx hy
  obtain ⟨ha, rfl⟩ := lift_eq_ok_iff.1 hx
  obtain ⟨hb, rfl⟩ := lift_eq_ok_iff.1 hy
  exact ⟨Except.ok.inj (ha.symm.trans hb), hpq⟩

theorem modify_of {f g : Pass → Pass} (h : ∀ {p q}, Abreast p q → Abreast (f p) (g q)) :
    Lockstep Eq (modify f : Assembling PUnit) (modify g : Assembling PUnit) := by
  intro p q hpq _ _ _ _ hx hy
  cases hx
  cases hy
  exact ⟨rfl, h hpq⟩

theorem bind {x : Assembling α} {y : Assembling β} {f : α → Assembling γ}
    {g : β → Assembling δ} (h : Lockstep R x y)
    (h' : ∀ a b, R a b → Lockstep S (f a) (g b)) :
    Lockstep S (x >>= f) (y >>= g) := by
  intro p q hpq _ _ _ _ hx hy
  obtain ⟨a, p₁, hx, hf⟩ := bind_eq_ok_iff.1 hx
  obtain ⟨b, q₁, hy, hg⟩ := bind_eq_ok_iff.1 hy
  obtain ⟨hab, hpq₁⟩ := h p q hpq a p₁ b q₁ hx hy
  exact h' a b hab p₁ q₁ hpq₁ _ _ _ _ hf hg

end Lockstep

/-! Operands. -/

open Read

def WithRest (R : α → β → Prop) (a : α × Line) (b : β × Line) : Prop :=
  R a.1 b.1 ∧ b.2 = a.2

/-- The mode is the same and so is the rest of the line, and the second pass knows the
value if the first does. -/
def SameShape (a b : AddressingMode × Expr.Value × Line) : Prop :=
  b.1 = a.1 ∧ WithRest Expr.Value.Refined a.2 b.2

private theorem lockstep_operandValue (indirect : Bool) (line : Line) :
    Lockstep (WithRest fun a b => a.value.Refined b.value ∧ b.enclosure = a.enclosure)
      (operandValue indirect line) (operandValue indirect line) := by
  intro p q hpq a p' b q' hx hy
  obtain ⟨_, _, hget, hx⟩ := bind_eq_ok_iff.1 hx
  cases hget
  obtain ⟨_, _, hget, hy⟩ := bind_eq_ok_iff.1 hy
  cases hget
  cases heval : Expr.evalOperand p.context indirect line with
  | error f =>
      simp only [heval] at hx
      obtain ⟨_, _, -, hthrow⟩ := bind_eq_ok_iff.1 hx
      cases hthrow
  | ok r =>
      cases heval' : Expr.evalOperand q.context indirect line with
      | error f =>
          simp only [heval'] at hy
          obtain ⟨_, _, -, hthrow⟩ := bind_eq_ok_iff.1 hy
          cases hthrow
      | ok r' =>
          simp only [heval] at hx
          simp only [heval'] at hy
          cases hx
          cases hy
          have hrefined := hpq.context.evalOperand heval heval'
          exact ⟨⟨⟨hrefined.value, hrefined.enclosure⟩, hrefined.rest⟩,
            hpq.idle (.recordReferences p _) (.recordReferences q _)⟩

theorem lockstep_value (line : Line) :
    Lockstep (WithRest Expr.Value.Refined) (value line) (value line) := by
  refine (lockstep_operandValue false line).bind ?_
  intro a b hab
  exact .pure ⟨hab.1.1, hab.2⟩

private theorem lockstep_valueOrZero (line : Line) :
    Lockstep (WithRest fun _ _ => True) (valueOrZero line) (valueOrZero line) := by
  refine (lockstep_value line).bind ?_
  intro a b hab
  exact .pure ⟨trivial, hab.2⟩

private theorem lockstep_addressOperand (op : Operation) (modes : ModeSet) (line : Line) :
    Lockstep SameShape (addressOperand op modes line) (addressOperand op modes line) := by
  refine (lockstep_operandValue modes.hasIndirect line).bind ?_
  rintro ⟨a, rest⟩ ⟨b, _⟩ ⟨⟨hvalue, henclosure⟩, rfl⟩
  dsimp only at henclosure ⊢
  split
  · exact .pure ⟨rfl, hvalue, rfl⟩
  · rw [henclosure]
    refine (Lockstep.lift _).bind ?_
    rintro shaped _ rfl
    exact .pure ⟨rfl, hvalue, rfl⟩

private theorem lockstep_operand (op : Operation) (modes : ModeSet) (line : Line) :
    Lockstep SameShape (operand op modes line) (operand op modes line) := by
  refine (Lockstep.lift (peek? line)).bind ?_
  rintro token _ rfl
  split
  · exact .pure ⟨rfl, .known 0, rfl⟩
  · refine (lockstep_value _).bind ?_
    intro a b hab
    exact .pure ⟨rfl, hab⟩
  · split
    · exact .pure ⟨rfl, .known 0, rfl⟩
    · exact lockstep_addressOperand op modes line
  · exact lockstep_addressOperand op modes line

/-! Instructions. -/

def settledMode (modes : ModeSet) (mode : AddressingMode) : Expr.Value → AddressingMode
  | .known v => downgrade modes mode v
  | .undefined => mode

private theorem settledMode_of_long {modes : ModeSet} {mode : AddressingMode}
    (h : mode.zeroPageForm? = none) (value : Expr.Value) :
    settledMode modes mode value = mode := by
  cases value with
  | known v =>
      unfold settledMode downgrade
      rw [h]
  | undefined => rfl

theorem settleBranch_eq_ok {value : Expr.Value} {v : Int32}
    (h : settleBranch value p = .ok v p') :
    p' = p := by
  obtain ⟨_, _, hget, h⟩ := bind_eq_ok_iff.1 h
  cases hget
  dsimp only at h
  split at h
  · obtain ⟨_, _, hthrow, -⟩ := bind_eq_ok_iff.1 h
    cases hthrow
  · cases h
    rfl

theorem settle_eq_ok {modes : ModeSet} {mode mode' : AddressingMode}
    {value : Expr.Value} {v : Int32} (h : settle modes mode value p = .ok (mode', v) p') :
    mode' = settledMode modes mode value ∧ Idle p p' := by
  have hpointer : ∀ {mode : AddressingMode} {v w : Int32}, mode.zeroPageForm? = none →
      (do
        if !inZeroPage w && (← get).round = .second then throw (.zeroPageRequired w)
        return (mode, w) : Assembling (AddressingMode × Int32)) p = .ok (mode', v) p' →
      mode' = settledMode modes mode (.known w) ∧ Idle p p' := by
    intro mode v w hlong h
    obtain ⟨_, _, hget, h⟩ := bind_eq_ok_iff.1 h
    cases hget
    split at h
    · obtain ⟨_, _, hthrow, -⟩ := bind_eq_ok_iff.1 h
      cases hthrow
    · cases h
      exact ⟨(settledMode_of_long hlong _).symm, .refl p⟩
  unfold settle at h
  split at h
  · obtain ⟨_, p₁, hbranch, h⟩ := bind_eq_ok_iff.1 h
    cases h
    rw [settleBranch_eq_ok hbranch]
    exact ⟨(settledMode_of_long rfl _).symm, .refl p⟩
  · cases h
    exact ⟨rfl, .refl p⟩
  · cases h
    exact ⟨rfl, .refl p⟩
  · cases h
    exact ⟨rfl, .refl p⟩
  · cases h
    exact ⟨rfl, .warnIf p _ _⟩
  · exact hpointer rfl h
  · exact hpointer rfl h
  · cases h
    exact ⟨rfl, .warnIf p _ _⟩

private theorem length_bytes_instruction (entry : OpcodeEntry) (v w : Int32) :
    (Item.instruction entry v).bytes.length =
      (Item.instruction entry w).bytes.length := by
  simp [Item.bytes]

theorem Abreast.placeEntry {op : Operation} {mode : AddressingMode} {v w : Int32}
    {found : Option OpcodeEntry} (h : Abreast p q)
    (hp : Assembly.placeEntry op mode v found p = .ok () p')
    (hq : Assembly.placeEntry op mode w found q = .ok () q') : Abreast p' q' := by
  cases found with
  | none => cases hp
  | some entry =>
      cases hp
      cases hq
      have hmarked := h.idle (.markInstruction p) (.markInstruction q)
      exact hmarked.place (length_bytes_instruction entry w v)

/-- The first pass has to guess here: an assignment to which it knows no value, or an
operand that may lie in page zero. -/
def Event.isGuess : Event → Bool
  | .assign .undefined => true
  | .operand op mode .undefined => mode.zeroPageForm?.any (opcodes.modes op).contains
  | _ => false

def Sure (entries : List ListingEntry) : Prop :=
  ∀ e ∈ entries, e.event.isGuess = false

instance (entries : List ListingEntry) : Decidable (Sure entries) :=
  inferInstanceAs (Decidable (∀ e ∈ entries, _))

theorem Sure.of_start {entries entries' : List ListingEntry} (h : Sure entries')
    (hstart : entries <+: entries') : Sure entries :=
  fun e he => h e (hstart.subset he)

private theorem settledMode_eq {modes : ModeSet} {mode : AddressingMode}
    {value value' : Expr.Value} (hvalue : value.Refined value')
    (hlong : value = .undefined → mode.zeroPageForm?.any modes.contains = false) :
    settledMode modes mode value' = settledMode modes mode value := by
  cases hvalue with
  | known v => rfl
  | undefined value' =>
      cases value' with
      | undefined => rfl
      | known w =>
          have hshort := hlong rfl
          unfold settledMode downgrade
          cases hform : mode.zeroPageForm? with
          | none => rfl
          | some short =>
              rw [hform, Option.any_some] at hshort
              simp [hshort]

private theorem isGuess_operand (op : Operation) (mode : AddressingMode) :
    (Event.operand op mode .undefined).isGuess =
      mode.zeroPageForm?.any (opcodes.modes op).contains := by
  unfold Event.isGuess
  rfl

private theorem listing_of_updates (h : Updates p p') :
    p.listing.toList <+: p'.listing.toList := by
  induction h with
  | refl => exact List.prefix_rfl
  | tail _ hlast ih =>
      refine ih.trans ?_
      obtain ⟨key, value, rfl⟩ | hquiet := hlast.define_or_quiet
      · rw [Pass.define_eq]
        exact ⟨_, Array.toList_push.symm⟩
      · exact hquiet.listing

theorem Abreast.instruction {op : Operation} {line rest rest' : Line} (h : Abreast p q)
    (hp : Assembly.instruction op line p = .ok rest p')
    (hq : Assembly.instruction op line q = .ok rest' q')
    (hsure : Sure p'.listing.toList) :
    rest' = rest ∧ Abreast p' q' := by
  obtain ⟨⟨mode, value, restₚ⟩, p₁, hoperand, hp⟩ := bind_eq_ok_iff.1 hp
  obtain ⟨⟨mode', value', rest_q⟩, q₁, hoperand', hq⟩ := bind_eq_ok_iff.1 hq
  obtain ⟨⟨hmode, hvalue, hrest⟩, h₁⟩ :=
    lockstep_operand op (opcodes.modes op) line p q h _ _ _ _ hoperand hoperand'
  dsimp only at hmode hvalue hrest
  subst hmode hrest
  obtain ⟨_, p₂, hrecord, hp⟩ := bind_eq_ok_iff.1 hp
  cases hrecord
  obtain ⟨_, q₂, hrecord, hq⟩ := bind_eq_ok_iff.1 hq
  cases hrecord
  obtain ⟨⟨modeₚ, v⟩, p₃, hsettle, hp⟩ := bind_eq_ok_iff.1 hp
  obtain ⟨⟨mode_q, w⟩, q₃, hsettle', hq⟩ := bind_eq_ok_iff.1 hq
  obtain ⟨_, p₄, hplace, hp⟩ := bind_eq_ok_iff.1 hp
  cases hp
  obtain ⟨_, q₄, hplace', hq⟩ := bind_eq_ok_iff.1 hq
  cases hq
  have hupdates :=
    (does_settle _ _ _ _ _ _ hsettle).trans (does_placeEntry _ _ _ _ _ _ _ hplace)
  have hrecorded : ⟨p₁.line, .operand op mode' value⟩ ∈ p'.listing.toList := by
    refine (listing_of_updates (updates_of_moves hupdates)).subset ?_
    exact Array.mem_toList_iff.2 Array.mem_push_self
  obtain ⟨hmode, hidle⟩ := settle_eq_ok hsettle
  obtain ⟨hmode', hidle'⟩ := settle_eq_ok hsettle'
  have hlong : value = .undefined →
    mode'.zeroPageForm?.any (opcodes.modes op).contains = false := by
    rintro rfl
    rw [← isGuess_operand]
    exact hsure _ hrecorded
  rw [settledMode_eq hvalue hlong] at hmode'
  rw [hmode] at hplace
  rw [hmode'] at hplace'
  have h₃ := (h₁.idle (.record p₁ _ rfl) (.record q₁ _ rfl)).idle hidle hidle'
  exact ⟨rfl, h₃.placeEntry hplace hplace'⟩

/-! Directives. -/

theorem lockstep_byteItem (line : Line) :
    Lockstep Eq (byteItem line) (byteItem line) := by
  refine (Lockstep.lift (peek? line)).bind ?_
  rintro token _ rfl
  split
  · refine (Lockstep.modify_of fun h => h.place rfl).bind ?_
    rintro _ _ -
    exact .pure rfl
  · refine (lockstep_valueOrZero line).bind ?_
    rintro ⟨v, rest⟩ ⟨w, _⟩ ⟨-, rfl⟩
    refine (Lockstep.modify_of fun h => ?_).bind ?_
    · exact (h.idle (.warnIf _ _ _) (.warnIf _ _ _)).place rfl
    · rintro _ _ -
      exact .pure rfl

private theorem lockstep_wordItem (line : Line) :
    Lockstep Eq (wordItem line) (wordItem line) := by
  refine (lockstep_valueOrZero line).bind ?_
  rintro ⟨v, rest⟩ ⟨w, _⟩ ⟨-, rfl⟩
  refine (Lockstep.modify_of fun h => ?_).bind ?_
  · exact (h.idle (.warnIf _ _ _) (.warnIf _ _ _)).place rfl
  · rintro _ _ -
    exact .pure rfl

private theorem lockstep_items {item : Line → Assembling Line}
    (h : ∀ line, Lockstep Eq (item line) (item line)) (n : Nat) (line : Line) :
    Lockstep Eq (items item n line) (items item n line) := by
  induction n generalizing line with
  | zero => exact .pure rfl
  | succ n ih =>
      refine (h line).bind ?_
      rintro rest _ rfl
      refine (Lockstep.lift (comma? rest)).bind ?_
      rintro next? _ rfl
      split
      · exact .pure rfl
      · exact ih _

private theorem lockstep_directive (d : Directive) (line : Line) :
    Lockstep Eq (directive d line) (directive d line) := by
  cases d with
  | byte =>
      refine (lockstep_items lockstep_byteItem _ line).bind ?_
      rintro rest _ rfl
      exact .pure rfl
  | word =>
      refine (lockstep_items lockstep_wordItem _ line).bind ?_
      rintro rest _ rfl
      exact .pure rfl
  | origin =>
      refine (lockstep_value line).bind ?_
      rintro ⟨v, rest⟩ ⟨w, _⟩ ⟨hvalue, rfl⟩
      dsimp only at hvalue ⊢
      cases hvalue with
      | undefined w => exact .throw _
      | known v =>
          refine (Lockstep.modify_of fun h => h.moveTo v).bind ?_
          rintro _ _ -
          exact .pure rfl
  | «include» =>
      refine (Lockstep.lift (next? line)).bind ?_
      rintro token _ rfl
      split
      · exact .pure rfl
      · exact .throw _
  | breakpoint =>
      refine (Lockstep.modify_of fun h => ?_).bind ?_
      · exact h.idle (.markBreakpoint _) (.markBreakpoint _)
      · rintro _ _ -
        exact .pure rfl

/-! Lines. -/

theorem Abreast.statement {line : Line} {file? file?' : Option String} (h : Abreast p q)
    (hp : Assembly.statement line p = .ok file? p')
    (hq : Assembly.statement line q = .ok file?' q') (hsure : Sure p'.listing.toList) :
    file?' = file? ∧ Abreast p' q' := by
  obtain ⟨token, hnext, hp⟩ := lift_bind_eq_ok_iff.1 hp
  obtain ⟨token', hnext', hq⟩ := lift_bind_eq_ok_iff.1 hq
  rw [hnext] at hnext'
  cases hnext'
  split at hp
  · cases hp
    cases hq
    exact ⟨rfl, h⟩
  · rename_i w rest
    dsimp only at hp hq
    cases hop : Operation.ofMnemonic? w with
    | some op =>
        simp only [hop] at hp hq
        obtain ⟨restₚ, p₁, hp₁, hp⟩ := bind_eq_ok_iff.1 hp
        obtain ⟨rest_q, q₁, hq₁, hq⟩ := bind_eq_ok_iff.1 hq
        obtain ⟨_, -, hp⟩ := lift_bind_eq_ok_iff.1 hp
        cases hp
        obtain ⟨_, -, hq⟩ := lift_bind_eq_ok_iff.1 hq
        cases hq
        exact ⟨rfl, (h.instruction hp₁ hq₁ hsure).2⟩
    | none =>
        cases hdirective : Directive.ofWord? w with
        | some d =>
            simp only [hop, hdirective] at hp hq
            obtain ⟨r, p₁, hp₁, hp⟩ := bind_eq_ok_iff.1 hp
            obtain ⟨r', q₁, hq₁, hq⟩ := bind_eq_ok_iff.1 hq
            obtain ⟨rfl, h₁⟩ := lockstep_directive d rest _ _ h _ _ _ _ hp₁ hq₁
            obtain ⟨_, -, hp⟩ := lift_bind_eq_ok_iff.1 hp
            cases hp
            obtain ⟨_, -, hq⟩ := lift_bind_eq_ok_iff.1 hq
            cases hq
            exact ⟨rfl, h₁⟩
        | none =>
            simp only [hop, hdirective] at hp
            cases hp
  · obtain ⟨hcomplain, -⟩ := lift_eq_ok_iff.1 hp
    cases hcomplain

theorem Abreast.assignment {name : String} {line : Line} (h : Abreast p q)
    (hp : Assembly.assignment name line p = .ok () p')
    (hq : Assembly.assignment name line q = .ok () q') (hsure : Sure p'.listing.toList) :
    Abreast p' q' := by
  unfold Assembly.assignment at hp hq
  split at hp
  · rename_i hname
    rw [if_pos hname] at hq
    obtain ⟨⟨v, rest⟩, p₁, hvalue, hp⟩ := bind_eq_ok_iff.1 hp
    obtain ⟨⟨w, rest'⟩, q₁, hvalue', hq⟩ := bind_eq_ok_iff.1 hq
    obtain ⟨⟨hrefined, -⟩, h₁⟩ := lockstep_value line p q h _ _ _ _ hvalue hvalue'
    obtain ⟨_, p₂, hrecord, hp⟩ := bind_eq_ok_iff.1 hp
    cases hrecord
    obtain ⟨_, q₂, hrecord, hq⟩ := bind_eq_ok_iff.1 hq
    cases hrecord
    have h₂ := h₁.idle (.record p₁ (.assign v) rfl) (.record q₁ (.assign w) rfl)
    obtain ⟨_, -, hp⟩ := lift_bind_eq_ok_iff.1 hp
    obtain ⟨_, -, hq⟩ := lift_bind_eq_ok_iff.1 hq
    dsimp only at hrefined
    cases hrefined with
    | known v =>
        cases hp
        cases hq
        dsimp only
        rw [h₂.qualify_eq name]
        exact h₂.define _ v .value
    | undefined w =>
        -- The first pass is not sure, having recorded an unknown value.
        cases hp
        have := hsure ⟨p₁.line,
          .assign .undefined⟩ (Array.mem_toList_iff.2 Array.mem_push_self)
        cases this
  · cases hp

theorem Abreast.afterLabel {line : Line} {b : Beginning} {file? file?' : Option String}
    (h : Abreast p q) (hp : Assembly.afterLabel line b p = .ok file? p')
    (hq : Assembly.afterLabel line b q = .ok file?' q') (hsure : Sure p'.listing.toList) :
    file?' = file? ∧ Abreast p' q' := by
  cases b with
  | nothing =>
      cases hp
      cases hq
      exact ⟨rfl, h⟩
  | label name rest | bareLabel name rest => exact h.statement hp hq hsure
  | assignment name rest =>
      obtain ⟨_, p₁, hp₁, hp⟩ := bind_eq_ok_iff.1 hp
      cases hp
      obtain ⟨_, q₁, hq₁, hq⟩ := bind_eq_ok_iff.1 hq
      cases hq
      exact ⟨rfl, h.assignment hp₁ hq₁ hsure⟩
  | statement => exact h.statement hp hq hsure

end Breadboard.Assembly
