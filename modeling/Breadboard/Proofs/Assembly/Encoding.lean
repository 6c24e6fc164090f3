import Breadboard.Proofs.Assembly.Agreement
import Breadboard.Proofs.Assembly.Storage
import Breadboard.Proofs.Expr.Leniency

namespace Breadboard.Assembly

open Read

variable {p p' p₁ q q' : Pass}

/-! What an instruction leaves alone before it is placed. -/

/-- Nothing changes that passes have to agree on, no scope opens, and nothing is
placed. -/
structure Calm (p p' : Pass) : Prop extends Idle p p' where
  scopes : p'.scopes = p.scopes
  placements : p'.listing.placements = p.listing.placements

namespace Calm

theorem refl (p : Pass) : Calm p p :=
  ⟨.refl p, rfl, rfl⟩

theorem trans {p'' : Pass} (h : Calm p p') (h' : Calm p' p'') : Calm p p'' :=
  ⟨h.toIdle.trans h'.toIdle, h'.scopes.trans h.scopes, h'.placements.trans h.placements⟩

end Calm

def Event.isPlacement : Event → Bool
  | .place .. => true
  | _ => false

private theorem placements_record (p : Pass) {event : Event}
    (h : event.isPlacement = false) :
    (p.record event).listing.placements = p.listing.placements := by
  unfold Pass.record
  dsimp only
  rw [placements_push]
  cases event with
  | place => cases h
  | _ => exact List.append_nil _

namespace Calm

theorem record (p : Pass) {event : Event} (h : event.isLayout = false)
    (h' : event.isPlacement = false) : Calm p (p.record event) :=
  ⟨.record p event h, rfl, placements_record p h'⟩

theorem recordReferences (p : Pass) (names : List String) :
    Calm p (p.recordReferences names) := by
  unfold Pass.recordReferences
  induction names generalizing p with
  | nil => exact .refl p
  | cons name names ih => exact (Calm.record p rfl rfl).trans (ih _)

theorem warnIf (p : Pass) (condition : Bool) (kind : WarningKind) :
    Calm p (p.warnIf condition kind) := by
  refine ⟨.warnIf p condition kind, ?_, ?_⟩
  · rw [p.warnIf_eq]
  · rw [p.warnIf_eq]

theorem markInstruction (p : Pass) : Calm p p.markInstruction := by
  refine ⟨.markInstruction p, ?_, ?_⟩
  · rw [p.markInstruction_eq]
  · rw [p.markInstruction_eq]

end Calm

/-! What an instruction does if it is accepted. -/

section

variable {α β : Type} {x : Assembling α} {f : α → Assembling β} {a : α} {e : ErrorKind}

theorem bind_of_ok (h : x p = .ok a p₁) : (x >>= f) p = f a p₁ := by
  change EStateM.bind x f p = _
  unfold EStateM.bind
  rw [h]

theorem bind_of_error (h : x p = .error e p₁) : (x >>= f) p = .error e p₁ := by
  change EStateM.bind x f p = _
  unfold EStateM.bind
  rw [h]

end

theorem operandValue_eq_ok_iff {indirect : Bool} {line : Line} {a : Expr.Operand × Line} :
    operandValue indirect line p = .ok a p' ↔
      ∃ r, Expr.evalOperand p.context indirect line = .ok r ∧ a = (r.operand, r.rest) ∧
        p' = p.recordReferences r.asked := by
  unfold operandValue
  rw [bind_eq_ok_iff]
  constructor
  · rintro ⟨_, _, hget, h⟩
    cases hget
    cases heval : Expr.evalOperand p.context indirect line with
    | error f =>
        simp only [heval] at h
        obtain ⟨_, _, -, hthrow⟩ := bind_eq_ok_iff.1 h
        cases hthrow
    | ok r =>
        simp only [heval] at h
        cases h
        exact ⟨r, rfl, rfl, rfl⟩
  · rintro ⟨r, heval, rfl, rfl⟩
    refine ⟨p, p, rfl, ?_⟩
    simp only [heval]
    rfl

theorem settleBranch_eq_ok_iff {value : Expr.Value} {v : Int32} :
    settleBranch value p = .ok v p' ↔ v = branchOffset p.address value ∧ p' = p ∧
      (p.round = .second → inBranchRange v = true) := by
  unfold settleBranch
  rw [bind_eq_ok_iff]
  constructor
  · rintro ⟨_, _, hget, h⟩
    cases hget
    dsimp only at h
    split at h
    · obtain ⟨_, _, hthrow, -⟩ := bind_eq_ok_iff.1 h
      cases hthrow
    · rename_i hnear
      cases h
      refine ⟨rfl, rfl, fun hround => ?_⟩
      simpa [hround] using hnear
  · rintro ⟨rfl, rfl, hnear⟩
    refine ⟨p', p', rfl, ?_⟩
    have hpasses :
        ¬(p'.round = .second && !inBranchRange (branchOffset p'.address value)) =
          true := by
      intro hfar
      rw [Bool.and_eq_true, decide_eq_true_iff] at hfar
      rw [hnear hfar.1] at hfar
      exact Bool.false_ne_true hfar.2
    dsimp only
    rw [if_neg hpasses]
    rfl

theorem pointer_eq_ok_iff {mode : AddressingMode} {v : Int32}
    {a : AddressingMode × Int32} :
    (do
      if !inZeroPage v && (← get).round = .second then throw (.zeroPageRequired v)
      return (mode, v) : Assembling (AddressingMode × Int32)) p = .ok a p' ↔
      a = (mode, v) ∧ p' = p ∧ (p.round = .second → inZeroPage v = true) := by
  rw [bind_eq_ok_iff]
  constructor
  · rintro ⟨_, _, hget, h⟩
    cases hget
    split at h
    · obtain ⟨_, _, hthrow, -⟩ := bind_eq_ok_iff.1 h
      cases hthrow
    · rename_i hpasses
      cases h
      refine ⟨rfl, rfl, fun hround => ?_⟩
      simpa [hround] using hpasses
  · rintro ⟨rfl, rfl, hnear⟩
    refine ⟨p', p', rfl, ?_⟩
    have hpasses : ¬(!inZeroPage v && p'.round = .second) = true := by
      intro hfar
      rw [Bool.and_eq_true, decide_eq_true_iff] at hfar
      rw [hnear hfar.2] at hfar
      exact Bool.false_ne_true hfar.1
    rw [if_neg hpasses]
    rfl

theorem exists_warnIf_of_settle {modes : ModeSet} {mode : AddressingMode}
    {value : Expr.Value} {a : AddressingMode × Int32}
    (h : settle modes mode value p = .ok a p') :
    ∃ condition kind, kind.ofRange = true ∧ p' = p.warnIf condition kind := by
  have hquiet : p' = p → ∃ condition kind, kind.ofRange = true ∧
    p' = p.warnIf condition kind :=
    fun hsame => ⟨false, .valueOutOfRange 0, rfl, hsame⟩
  unfold settle at h
  split at h
  · obtain ⟨_, p₁, hbranch, h⟩ := bind_eq_ok_iff.1 h
    cases h
    exact hquiet (settleBranch_eq_ok hbranch)
  · cases h
    exact hquiet rfl
  · cases h
    exact hquiet rfl
  · cases h
    exact hquiet rfl
  · cases h
    exact ⟨_, _, rfl, rfl⟩
  · exact hquiet (pointer_eq_ok_iff.1 h).2.1
  · exact hquiet (pointer_eq_ok_iff.1 h).2.1
  · cases h
    exact ⟨_, _, rfl, rfl⟩

private theorem calm_of_settle {modes : ModeSet} {mode : AddressingMode}
    {value : Expr.Value} {a : AddressingMode × Int32}
    (h : settle modes mode value p = .ok a p') : Calm p p' := by
  obtain ⟨condition, kind, -, rfl⟩ := exists_warnIf_of_settle h
  exact .warnIf p condition kind

theorem instruction_eq_ok_iff {op : Operation} {line rest : Line} :
    instruction op line p = .ok rest p' ↔ ∃ mode value p₁ mode' v p₂ entry,
      operand op (opcodes.modes op) line p = .ok (mode, value, rest) p₁ ∧
        settle (opcodes.modes op) mode value (p₁.record (.operand op mode value)) =
          .ok (mode', v) p₂ ∧
        opcodes.lookup? op mode' = some entry ∧
        p' = p₂.markInstruction.place (.instruction entry v) := by
  unfold instruction
  constructor
  · intro h
    obtain ⟨⟨mode, value, rest'⟩, p₁, hoperand, h⟩ := bind_eq_ok_iff.1 h
    obtain ⟨_, _, hrecord, h⟩ := bind_eq_ok_iff.1 h
    cases hrecord
    obtain ⟨⟨mode', v⟩, p₂, hsettle, h⟩ := bind_eq_ok_iff.1 h
    obtain ⟨_, p₃, hplace, h⟩ := bind_eq_ok_iff.1 h
    cases h
    cases hentry : opcodes.lookup? op mode' with
    | none =>
        rw [hentry] at hplace
        cases hplace
    | some entry =>
        rw [hentry] at hplace
        cases hplace
        exact ⟨mode, value, p₁, mode', v, p₂, entry, hoperand, hsettle, hentry, rfl⟩
  · rintro ⟨mode, value, p₁, mode', v, p₂, entry, hoperand, hsettle, hentry, rfl⟩
    refine bind_eq_ok_iff.2 ⟨(mode, value, rest), p₁, hoperand, ?_⟩
    refine bind_eq_ok_iff.2 ⟨(), p₁.record (.operand op mode value), rfl, ?_⟩
    refine bind_eq_ok_iff.2 ⟨(mode', v), p₂, hsettle, ?_⟩
    refine bind_eq_ok_iff.2 ⟨(), p₂.markInstruction.place (.instruction entry v), ?_, rfl⟩
    rw [hentry]
    rfl

/-! Reading an operand where another pass reads it. -/

theorem Calm.qualify_eq (h : Calm p p') (name : String) :
    p'.qualify name = p.qualify name := by
  unfold Pass.qualify Pass.normalize
  rw [h.flags, h.scope]

theorem Calm.context (h : Calm p p') : p'.context = p.context := by
  unfold Pass.context
  rw [h.address, h.symbols, funext h.qualify_eq, h.round]

/-- What is read off an operand in `q` can be read off it in `p`, and the values are
related. -/
def ReadsAlike (R : Expr.Value → Expr.Value → Prop) (p q : Pass) : Prop :=
  ∀ indirect line r', Expr.evalOperand q.context indirect line = .ok r' →
    ∃ r, Expr.evalOperand p.context indirect line = .ok r ∧
      R r.operand.value r'.operand.value ∧ r'.operand.enclosure = r.operand.enclosure ∧
        r'.rest = r.rest

variable {R : Expr.Value → Expr.Value → Prop} {α β γ δ : Type}

theorem ReadsAlike.calm (h : ReadsAlike R p q) (hp : Calm p p') (hq : Calm q q') :
    ReadsAlike R p' q' := by
  unfold ReadsAlike
  rw [hp.context, hq.context]
  exact h

theorem ReadsAlike.refl (p : Pass) : ReadsAlike Eq p p :=
  fun _ _ r hr => ⟨r, hr, rfl, rfl, rfl⟩

theorem readsAlike_of_refined (hctx : p.context.Refined q.context)
    (hround : p.round = .first) :
    ReadsAlike Expr.Value.Refined p q := by
  intro indirect line r' hr'
  obtain ⟨r, hr, hrefined⟩ := hctx.exists_evalOperand (decide_eq_true hround) hr'
  exact ⟨r, hr, hrefined.value, hrefined.enclosure, hrefined.rest⟩

theorem readsAlike_of_resolve (hhere : p.context.here = q.context.here)
    (hresolve : p.context.resolve = q.context.resolve)
    (hround : p.round = .second → q.round = .second) :
    ReadsAlike Eq p q := by
  intro indirect line r' hr'
  cases hfirst : p.round with
  | first =>
      have hctx : p.context.Refined q.context := ⟨hhere.symm, fun h => hresolve ▸ h⟩
      have hctx' : q.context.Refined p.context := ⟨hhere, fun h => hresolve ▸ h⟩
      obtain ⟨r, hr, hrefined⟩ := hctx.exists_evalOperand (decide_eq_true hfirst) hr'
      have hrefined' := hctx'.evalOperand hr' hr
      exact ⟨r, hr, hrefined.value.antisymm hrefined'.value, hrefined.enclosure,
        hrefined.rest⟩
  | second =>
      have hcontext : p.context = q.context := by
        unfold Pass.context at hhere hresolve ⊢
        dsimp only at hhere hresolve
        rw [hhere, hresolve, hfirst, hround hfirst]
      rw [hcontext]
      exact ⟨r', hr', rfl, rfl, rfl⟩

/-- Where the second action does not fail, the first one does not either and
gives something related. -/
def Accepts (R : Expr.Value → Expr.Value → Prop) (S : α → β → Prop) (x : Assembling α)
    (y : Assembling β) : Prop :=
  ∀ p q, ReadsAlike R p q → ∀ b q', y q = .ok b q' →
    ∃ a p', x p = .ok a p' ∧ S a b ∧ Calm p p' ∧ ReadsAlike R p' q'

namespace Accepts

variable {S : α → β → Prop} {T : γ → δ → Prop}

theorem pure {a : α} {b : β} (h : S a b) : Accepts R S (Pure.pure a) (Pure.pure b) := by
  intro p q hpq _ _ hy
  cases hy
  exact ⟨a, p, rfl, h, .refl p, hpq⟩

theorem lift (read : Except ErrorKind α) :
    Accepts R Eq (liftM read : Assembling α) (liftM read : Assembling α) := by
  intro p q hpq b _ hy
  obtain ⟨hb, rfl⟩ := lift_eq_ok_iff.1 hy
  exact ⟨b, p, lift_eq_ok_iff.2 ⟨hb, rfl⟩, rfl, .refl p, hpq⟩

theorem bind {x : Assembling α} {y : Assembling β} {f : α → Assembling γ}
    {g : β → Assembling δ} (h : Accepts R S x y)
    (h' : ∀ a b, S a b → Accepts R T (f a) (g b)) :
    Accepts R T (x >>= f) (y >>= g) := by
  intro p q hpq _ _ hy
  obtain ⟨b, q₁, hy, hg⟩ := bind_eq_ok_iff.1 hy
  obtain ⟨a, p₁, hx, hab, hcalm, hpq₁⟩ := h p q hpq b q₁ hy
  obtain ⟨c, p₂, hf, hc, hcalm', hpq₂⟩ := h' a b hab p₁ q₁ hpq₁ _ _ hg
  exact ⟨c, p₂, bind_eq_ok_iff.2 ⟨a, p₁, hx, hf⟩, hc, hcalm.trans hcalm', hpq₂⟩

end Accepts

private theorem accepts_operandValue (indirect : Bool) (line : Line) :
    Accepts R (WithRest fun a b => R a.value b.value ∧ b.enclosure = a.enclosure)
      (operandValue indirect line) (operandValue indirect line) := by
  intro p q hpq b q' hy
  obtain ⟨r', heval', rfl, rfl⟩ := operandValue_eq_ok_iff.1 hy
  obtain ⟨r, heval, hvalue, henclosure, hrest⟩ := hpq indirect line r' heval'
  have hcalm := Calm.recordReferences p r.asked
  exact ⟨(r.operand, r.rest), p.recordReferences r.asked,
    operandValue_eq_ok_iff.2 ⟨r, heval, rfl, rfl⟩, ⟨⟨hvalue, henclosure⟩, hrest⟩, hcalm,
    hpq.calm hcalm (.recordReferences q _)⟩

private theorem accepts_value (line : Line) :
    Accepts R (WithRest R) (value line) (value line) := by
  refine (accepts_operandValue false line).bind ?_
  rintro a b ⟨⟨hvalue, -⟩, hrest⟩
  exact .pure ⟨hvalue, hrest⟩

/-- The mode is the same and so is the rest of the line, and the values are related. -/
def SameMode (R : Expr.Value → Expr.Value → Prop)
    (a b : AddressingMode × Expr.Value × Line) : Prop :=
  b.1 = a.1 ∧ WithRest R a.2 b.2

private theorem accepts_addressOperand (op : Operation) (modes : ModeSet) (line : Line) :
    Accepts R (SameMode R) (addressOperand op modes line)
      (addressOperand op modes line) := by
  refine (accepts_operandValue modes.hasIndirect line).bind ?_
  rintro ⟨a, rest⟩ ⟨b, _⟩ ⟨⟨hvalue, henclosure⟩, rfl⟩
  dsimp only at henclosure ⊢
  split
  · exact .pure ⟨rfl, hvalue, rfl⟩
  · rw [henclosure]
    refine (Accepts.lift _).bind ?_
    rintro shaped _ rfl
    exact .pure ⟨rfl, hvalue, rfl⟩

theorem accepts_operand (hzero : R (.known 0) (.known 0)) (op : Operation)
    (modes : ModeSet) (line : Line) :
    Accepts R (SameMode R) (operand op modes line) (operand op modes line) := by
  refine (Accepts.lift (peek? line)).bind ?_
  rintro token _ rfl
  split
  · exact .pure ⟨rfl, hzero, rfl⟩
  · refine (accepts_value _).bind ?_
    intro a b hab
    exact .pure ⟨rfl, hab⟩
  · split
    · exact .pure ⟨rfl, hzero, rfl⟩
    · exact accepts_addressOperand op modes line
  · exact accepts_addressOperand op modes line

/-! Instructions that another pass accepts. -/

theorem settle_undefined (modes : ModeSet) (mode : AddressingMode) (p : Pass) :
    settle modes mode .undefined p = .ok (mode, 0) p := by
  cases mode with
  | relative =>
      have hbranch : settleBranch .undefined p = .ok 0 p :=
        settleBranch_eq_ok_iff.2 ⟨rfl, rfl, fun _ => by decide⟩
      exact bind_eq_ok_iff.2 ⟨0, p, hbranch, rfl⟩
  | _ => rfl

private theorem exists_settle {modes : ModeSet} {mode : AddressingMode}
    {value : Expr.Value} {a : AddressingMode × Int32} (haddress : p.address = q.address)
    (hround : p.round = .second → q.round = .second)
    (hq : settle modes mode value q = .ok a q') :
    ∃ p', settle modes mode value p = .ok a p' := by
  cases value with
  | undefined =>
      rw [settle_undefined] at hq
      cases hq
      exact ⟨p, settle_undefined modes mode p⟩
  | known v =>
      cases mode with
      | relative =>
          obtain ⟨offset, q₁, hbranch, hq⟩ := bind_eq_ok_iff.1 hq
          cases hq
          obtain ⟨rfl, -, hnear⟩ := settleBranch_eq_ok_iff.1 hbranch
          rw [← haddress] at hnear ⊢
          have hbranch' : settleBranch (.known v) p =
            .ok (branchOffset p.address (.known v)) p :=
            settleBranch_eq_ok_iff.2 ⟨rfl, rfl, fun hsecond => hnear (hround hsecond)⟩
          exact ⟨p, bind_eq_ok_iff.2 ⟨_, p, hbranch', rfl⟩⟩
      | indexedIndirectX | indirectIndexedY =>
          obtain ⟨rfl, -, hnear⟩ := pointer_eq_ok_iff.1 hq
          exact ⟨p, pointer_eq_ok_iff.2 ⟨rfl, rfl, fun hsecond => hnear (hround hsecond)⟩⟩
      | _ =>
          cases hq
          exact ⟨_, rfl⟩

/-- What an operation may encode. -/
def Encodes (op : Operation) (item : Item) : Prop :=
  ∃ mode entry v, opcodes.lookup? op mode = some entry ∧ item = .instruction entry v

theorem calm_of_operand {op : Operation} {modes : ModeSet} {line : Line}
    {a : AddressingMode × Expr.Value × Line} (h : operand op modes line p = .ok a p') :
    Calm p p' := by
  obtain ⟨b, p₁, hagain, -, hcalm, -⟩ :=
    accepts_operand rfl op modes line p p (.refl p) a p' h
  rw [h] at hagain
  cases hagain
  exact hcalm

section

variable {op : Operation} {line rest : Line} {mode mode' : AddressingMode}
    {value : Expr.Value} {v : Int32} {p₂ q₁ q₂ : Pass} {entry : OpcodeEntry}

theorem calm_of_encoding
    (hoperand : operand op (opcodes.modes op) line p = .ok (mode, value, rest) p₁)
    (hsettle : settle (opcodes.modes op) mode value (p₁.record (.operand op mode value)) =
      .ok (mode', v) p₂) : Calm p p₂.markInstruction :=
  (((calm_of_operand hoperand).trans (.record p₁ rfl rfl)).trans
    (calm_of_settle hsettle)).trans (.markInstruction p₂)

private theorem exists_instruction_of_operand (haddress : p.address = q.address)
    (hround : p.round = .second → q.round = .second)
    (hoperand : operand op (opcodes.modes op) line p = .ok (mode, value, rest) p₁)
    (hoperand' : operand op (opcodes.modes op) line q = .ok (mode, value, rest) q₁)
    (hsettle' : settle (opcodes.modes op) mode value
      (q₁.record (.operand op mode value)) = .ok (mode', v) q₂)
    (hentry : opcodes.lookup? op mode' = some entry) :
    ∃ p₀, Calm p p₀ ∧ instruction op line p =
      .ok rest (p₀.place (.instruction entry v)) := by
  have hcalm := calm_of_operand hoperand
  have hcalm' := calm_of_operand hoperand'
  have haddress₁ : (p₁.record (.operand op mode value)).address =
      (q₁.record (.operand op mode value)).address :=
    hcalm.address.trans (haddress.trans hcalm'.address.symm)
  have hround₁ : (p₁.record (.operand op mode value)).round = .second →
      (q₁.record (.operand op mode value)).round = .second :=
    fun hsecond => hcalm'.round.trans (hround (hcalm.round.symm.trans hsecond))
  obtain ⟨p₂, hsettle⟩ := exists_settle haddress₁ hround₁ hsettle'
  exact ⟨p₂.markInstruction, calm_of_encoding hoperand hsettle,
    instruction_eq_ok_iff.2 ⟨mode, value, p₁, mode', v, p₂, entry, hoperand, hsettle,
      hentry, rfl⟩⟩

theorem ReadsAlike.instruction (h : ReadsAlike Eq p q) (haddress : p.address = q.address)
    (hround : p.round = .second → q.round = .second)
    (hq : Assembly.instruction op line q = .ok rest q') :
    ∃ item p₀ q₀, Encodes op item ∧ Calm p p₀ ∧ Calm q q₀ ∧
      Assembly.instruction op line p = .ok rest (p₀.place item) ∧ q' = q₀.place item := by
  obtain ⟨mode, value, q₁, mode', v, q₂, entry, hoperand', hsettle', hentry, rfl⟩ :=
    instruction_eq_ok_iff.1 hq
  obtain ⟨⟨_, _, _⟩, p₁, hoperand, ⟨hmode, hvalue, hrest⟩, -, -⟩ :=
    accepts_operand rfl op _ line p q h _ _ hoperand'
  dsimp only at hmode hvalue hrest
  subst hmode hvalue hrest
  obtain ⟨p₀, hcalm, hp⟩ :=
    exists_instruction_of_operand haddress hround hoperand hoperand' hsettle' hentry
  exact ⟨_, p₀, q₂.markInstruction, ⟨mode', entry, v, hentry, rfl⟩, hcalm,
    calm_of_encoding hoperand' hsettle', hp, rfl⟩

/-! Instructions that less is known of. -/

/-- The operand has a value that is not known yet, and the mode that is assumed for it is
not one of the operation, though its form in page zero is. -/
def Misjudged (op : Operation) (line : Line) (mode : AddressingMode) (p : Pass) : Prop :=
  (∃ rest p', operand op (opcodes.modes op) line p = .ok (mode, .undefined, rest) p') ∧
    opcodes.lookup? op mode = none ∧
      ∃ short, mode.zeroPageForm? = some short ∧ (opcodes.lookup? op short).isSome

theorem settledMode_cases (modes : ModeSet) (mode : AddressingMode) (value : Expr.Value) :
    settledMode modes mode value = mode ∨
      mode.zeroPageForm? = some (settledMode modes mode value) := by
  cases value with
  | undefined => exact .inl rfl
  | known v =>
      unfold settledMode downgrade
      dsimp only
      split
      · rename_i hform
        split
        · exact .inr hform
        · exact .inl rfl
      · exact .inl rfl

theorem instruction_of_misjudged (h : Misjudged op line mode p) :
    ∃ p', instruction op line p = .error (.unsupportedMode op mode) p' := by
  obtain ⟨⟨rest, p₁, hoperand⟩, hnone, -⟩ := h
  have hsettle := settle_undefined (opcodes.modes op) mode
    (p₁.record (.operand op mode .undefined))
  refine ⟨p₁.record (.operand op mode .undefined), ?_⟩
  have hplace : placeEntry op mode 0 (opcodes.lookup? op mode)
      (p₁.record (.operand op mode .undefined)) =
        .error (.unsupportedMode op mode) (p₁.record (.operand op mode .undefined)) := by
    rw [hnone]
    rfl
  unfold instruction
  rw [bind_of_ok hoperand]
  refine (bind_of_ok rfl).trans ((bind_of_ok hsettle).trans ?_)
  exact bind_of_error hplace

theorem ReadsAlike.instruction_or_misjudged (h : ReadsAlike Expr.Value.Refined p q)
    (haddress : p.address = q.address) (hround : p.round = .second → q.round = .second)
    (hq : Assembly.instruction op line q = .ok rest q') :
    (∃ item p₀, Calm p p₀ ∧ Assembly.instruction op line p = .ok rest (p₀.place item)) ∨
      ∃ mode, Misjudged op line mode p := by
  obtain ⟨mode, value', q₁, mode', v, q₂, entry, hoperand', hsettle', hentry, rfl⟩ :=
    instruction_eq_ok_iff.1 hq
  obtain ⟨⟨_, value, _⟩, p₁, hoperand, ⟨hmode, hvalue, hrest⟩, -, -⟩ :=
    accepts_operand (.known 0) op _ line p q h _ _ hoperand'
  dsimp only at hmode hvalue hrest
  subst hmode hrest
  cases hvalue with
  | known w =>
      obtain ⟨p₀, hcalm, hp⟩ :=
        exists_instruction_of_operand haddress hround hoperand hoperand' hsettle' hentry
      exact .inl ⟨_, p₀, hcalm, hp⟩
  | undefined =>
      have hsettle := settle_undefined (opcodes.modes op) mode
        (p₁.record (.operand op mode .undefined))
      cases hassumed : opcodes.lookup? op mode with
      | some assumed =>
          exact .inl ⟨_, _, calm_of_encoding hoperand hsettle, instruction_eq_ok_iff.2
            ⟨mode, .undefined, p₁, mode, 0, _, assumed, hoperand, hsettle, hassumed, rfl⟩⟩
      | none =>
          -- The other pass has found a mode, so that is the form of this one in page
          -- zero.
          refine .inr ⟨mode, ⟨_, p₁, hoperand⟩, hassumed, mode', ?_, by rw [hentry]; rfl⟩
          have hsettled := (settle_eq_ok hsettle').1
          obtain hsame | hshort := settledMode_cases (opcodes.modes op) mode value'
          · rw [hsettled, hsame, hassumed] at hentry
            cases hentry
          · rw [hsettled]
            exact hshort

end

end Breadboard.Assembly
