import Breadboard.Assembly.Statement
import Breadboard.Proofs.Expr.Refinement
import Mathlib.Logic.Relation

namespace Breadboard.Assembly

open Relation

/-- The warnings that concern only the range of a value. -/
def WarningKind.ofRange : WarningKind → Bool
  | .immediateOutOfRange _ | .valueOutOfRange _ => true
  | _ => false

/-- One change of a pass while a statement or an expression is read,
which defines nothing. -/
inductive Move : Pass → Pass → Prop
  | refer (p : Pass) (name : String)
      (found : p.round = .second → (p.symbols.value? (p.qualify name)).isSome) :
      Move p (p.record (.refer (p.qualify name) (p.symbols.value? (p.qualify name))))
  | assign (p : Pass) (value : Expr.Value) : Move p (p.record (.assign value))
  | operand (p : Pass) (op : Operation) (mode : AddressingMode) (value : Expr.Value) :
      Move p (p.record (.operand op mode value))
  | place (p : Pass) (item : Item) : Move p (p.place item)
  | markInstruction (p : Pass) : Move p p.markInstruction
  | moveTo (p : Pass) (value : Int32) : Move p (p.moveTo value)
  | markBreakpoint (p : Pass) : Move p p.markBreakpoint
  | warnIf (p : Pass) (condition : Bool) {kind : WarningKind} (ofRange : kind.ofRange) :
      Move p (p.warnIf condition kind)

abbrev Moves : Pass → Pass → Prop :=
  ReflTransGen Move

/-- One change of a pass after the label of a line. -/
inductive Update : Pass → Pass → Prop
  | move {p p' : Pass} (move : Move p p') : Update p p'
  | define (p : Pass) (name : String) (value : Int32) :
      Update p (p.define (p.qualify name) value .value)

abbrev Updates : Pass → Pass → Prop :=
  ReflTransGen Update

theorem updates_of_moves {p p' : Pass} (h : Moves p p') : Updates p p' :=
  ReflTransGen.mono (fun _ _ => Update.move) p p' h

variable {α β : Type}

theorem bind_eq_ok_iff {x : Assembling α} {f : α → Assembling β} {p p' : Pass} {b : β} :
    (x >>= f) p = .ok b p' ↔ ∃ a p₁, x p = .ok a p₁ ∧ f a p₁ = .ok b p' := by
  change EStateM.bind x f p = _ ↔ _
  unfold EStateM.bind
  cases x p with
  | ok a p₁ =>
      constructor
      · intro h
        exact ⟨a, p₁, rfl, h⟩
      · rintro ⟨_, _, hx, h⟩
        cases hx
        exact h
  | error e p₁ => simp

theorem lift_eq_ok_iff {read : Except ErrorKind α} {p p' : Pass} {a : α} :
    (liftM read : Assembling α) p = .ok a p' ↔ read = .ok a ∧ p' = p := by
  cases read with
  | ok a' =>
      change EStateM.Result.ok a' p = _ ↔ _
      simp [eq_comm]
  | error e =>
      change EStateM.Result.error e p = _ ↔ _
      simp

theorem lift_bind_eq_ok_iff {read : Except ErrorKind α} {f : α → Assembling β}
    {p p' : Pass} {b : β} :
    ((liftM read : Assembling α) >>= f) p = .ok b p' ↔
    ∃ a, read = .ok a ∧ f a p = .ok b p' := by
  rw [bind_eq_ok_iff]
  constructor
  · rintro ⟨a, _, hlift, h⟩
    obtain ⟨hread, rfl⟩ := lift_eq_ok_iff.1 hlift
    exact ⟨a, hread, h⟩
  · rintro ⟨a, hread, h⟩
    exact ⟨a, p, lift_eq_ok_iff.2 ⟨hread, rfl⟩, h⟩

/-- An action that does not fail changes the pass by moves only. -/
def Does (x : Assembling α) : Prop :=
  ∀ p p' a, x p = .ok a p' → Moves p p'

theorem Does.pure (a : α) : Does (Pure.pure a) := by
  intro _ _ _ h
  cases h
  exact .refl

theorem Does.throw (e : ErrorKind) : Does (MonadExcept.throw e : Assembling α) := by
  intro _ _ _ h
  cases h

theorem Does.get : Does (MonadState.get : Assembling Pass) := by
  intro _ _ _ h
  cases h
  exact .refl

theorem Does.lift (read : Except ErrorKind α) : Does (liftM read : Assembling α) := by
  intro _ _ _ h
  rw [(lift_eq_ok_iff.1 h).2]

theorem Does.modify_of {f : Pass → Pass} (h : ∀ p, Moves p (f p)) :
    Does (modify f : Assembling PUnit) := by
  intro p _ _ hmodify
  cases hmodify
  exact h p

theorem Does.bind {x : Assembling α} {f : α → Assembling β} (hx : Does x)
    (hf : ∀ a, Does (f a)) :
    Does (x >>= f) := by
  intro _ _ _ h
  obtain ⟨a, p₁, hfirst, hrest⟩ := bind_eq_ok_iff.1 h
  exact (hx _ _ _ hfirst).trans (hf a _ _ _ hrest)

private theorem moves_recordReferences {p : Pass} {names : List String}
    (h : p.round = .second → ∀ name ∈ names, (p.symbols.value? (p.qualify name)).isSome) :
    Moves p (p.recordReferences names) := by
  induction names generalizing p with
  | nil => exact .refl
  | cons name names ih =>
      refine .head (.refer p name fun hround => h hround name List.mem_cons_self) (ih ?_)
      intro hround other hmem
      exact h hround other (List.mem_cons_of_mem _ hmem)

open Read

private theorem does_operandValue (indirect : Bool) (line : Line) :
    Does (operandValue indirect line) := by
  intro p p' a h
  obtain ⟨_, _, hget, h⟩ := bind_eq_ok_iff.1 h
  cases hget
  cases heval : Expr.evalOperand p.context indirect line with
  | error f =>
      simp only [heval] at h
      obtain ⟨_, _, -, hthrow⟩ := bind_eq_ok_iff.1 h
      cases hthrow
  | ok r =>
      simp only [heval] at h
      cases h
      refine moves_recordReferences fun hround => ?_
      have hstrict : p.context.lenient = false := by
        simp [Pass.context, hround]
      exact Expr.isSome_resolve_of_evalOperand hstrict heval

theorem does_value (line : Line) : Does (value line) :=
  (does_operandValue false line).bind fun _ => .pure _

private theorem does_valueOrZero (line : Line) : Does (valueOrZero line) :=
  (does_value line).bind fun _ => .pure _

private theorem does_addressOperand (op : Operation) (modes : ModeSet) (line : Line) :
    Does (addressOperand op modes line) := by
  refine (does_operandValue modes.hasIndirect line).bind fun r => ?_
  dsimp only
  split
  · exact .pure _
  · exact (Does.lift _).bind fun _ => .pure _

private theorem does_operand (op : Operation) (modes : ModeSet) (line : Line) :
    Does (operand op modes line) := by
  refine (Does.lift (peek? line)).bind fun t => ?_
  split
  · exact .pure _
  · exact (does_value _).bind fun _ => .pure _
  · split
    · exact .pure _
    · exact does_addressOperand op modes line
  · exact does_addressOperand op modes line

private theorem does_settleBranch (value : Expr.Value) : Does (settleBranch value) := by
  refine Does.get.bind fun p => ?_
  dsimp only
  split
  · exact (Does.throw _).bind fun _ => .pure _
  · exact .pure _

theorem does_settle (modes : ModeSet) (mode : AddressingMode) (value : Expr.Value) :
    Does (settle modes mode value) := by
  have hpointer : ∀ (mode : AddressingMode) (v : Int32), Does (do
      if !inZeroPage v && (← get).round = .second then throw (.zeroPageRequired v)
      return (mode, v)) := by
    intro mode v
    refine Does.get.bind fun p => ?_
    split
    · exact (Does.throw _).bind fun _ => .pure _
    · exact .pure _
  unfold settle
  split
  · exact (does_settleBranch _).bind fun _ => .pure _
  · exact .pure _
  · exact .pure _
  · exact .pure _
  · refine (Does.modify_of fun p => .single ?_).bind fun _ => .pure _
    exact .warnIf p _ rfl
  · exact hpointer _ _
  · exact hpointer _ _
  · refine (Does.modify_of fun p => .single ?_).bind fun _ => .pure _
    exact .warnIf p _ rfl

theorem does_placeEntry (op : Operation) (mode : AddressingMode) (value : Int32)
    (found : Option OpcodeEntry) : Does (placeEntry op mode value found) := by
  cases found with
  | none => exact .throw _
  | some entry =>
      refine .modify_of fun p => ?_
      exact .tail (.single (.markInstruction p)) (.place _ _)

theorem does_instruction (op : Operation) (line : Line) : Does (instruction op line) := by
  refine (does_operand op _ line).bind fun r => ?_
  refine (Does.modify_of fun p => .single (.operand p _ _ _)).bind fun _ => ?_
  refine (does_settle _ _ _).bind fun settled => ?_
  exact (does_placeEntry op _ _ _).bind fun _ => .pure _

theorem does_byteItem (line : Line) : Does (byteItem line) := by
  refine (Does.lift (peek? line)).bind fun t => ?_
  split
  · exact (Does.modify_of fun p => .single (.place p _)).bind fun _ => .pure _
  · refine (does_valueOrZero line).bind fun r => ?_
    refine (Does.modify_of fun p => ?_).bind fun _ => .pure _
    exact .tail (.single (.warnIf p _ rfl)) (.place _ _)

theorem does_wordItem (line : Line) : Does (wordItem line) := by
  refine (does_valueOrZero line).bind fun r => ?_
  refine (Does.modify_of fun p => ?_).bind fun _ => .pure _
  exact .tail (.single (.warnIf p _ rfl)) (.place _ _)

private theorem does_items {item : Line → Assembling Line}
    (h : ∀ line, Does (item line)) (n : Nat) (line : Line) :
    Does (items item n line) := by
  induction n generalizing line with
  | zero => exact .pure _
  | succ n ih =>
      refine (h line).bind fun rest => (Does.lift (comma? rest)).bind fun next? => ?_
      split
      · exact .pure _
      · exact ih _

theorem does_directive (d : Directive) (line : Line) : Does (directive d line) := by
  cases d with
  | byte => exact (does_items does_byteItem _ line).bind fun _ => .pure _
  | word => exact (does_items does_wordItem _ line).bind fun _ => .pure _
  | origin =>
      refine (does_value line).bind fun r => ?_
      dsimp only
      split
      · exact .throw _
      · exact (Does.modify_of fun p => .single (.moveTo p _)).bind fun _ => .pure _
  | «include» =>
      refine (Does.lift (next? line)).bind fun t => ?_
      split
      · exact .pure _
      · exact .throw _
  | breakpoint =>
    exact (Does.modify_of fun p => .single (.markBreakpoint p)).bind fun _ => .pure _

theorem does_statement (line : Line) : Does (statement line) := by
  refine (Does.lift (next? line)).bind fun t => ?_
  split
  · exact .pure _
  · split
    · refine (does_instruction _ _).bind fun rest => ?_
      exact (Does.lift _).bind fun _ => .pure _
    · refine (does_directive _ _).bind fun r => ?_
      exact (Does.lift _).bind fun _ => .pure _
    · exact .throw _
  · exact .lift _

theorem exists_of_assignment {name : String} {line : Line} {p p' : Pass}
    (h : assignment name line p = .ok () p') :
    ∃ v rest p₁, value line p = .ok (v, rest) p₁ ∧
      p' = match v with
        | .known v => (p₁.record (.assign (.known v))).define (p₁.qualify name) v .value
        | .undefined => p₁.record (.assign .undefined) := by
  unfold assignment at h
  split at h
  · obtain ⟨⟨v, rest⟩, p₁, hvalue, h⟩ := bind_eq_ok_iff.1 h
    obtain ⟨_, _, hmodify, h⟩ := bind_eq_ok_iff.1 h
    cases hmodify
    obtain ⟨_, -, h⟩ := lift_bind_eq_ok_iff.1 h
    refine ⟨v, rest, p₁, hvalue, ?_⟩
    cases v with
    | undefined =>
        cases h
        rfl
    | known v =>
        cases h
        rfl
  · cases h

theorem updates_of_assignment {name : String} {line : Line} {p p' : Pass}
    (h : assignment name line p = .ok () p') : Updates p p' := by
  obtain ⟨v, rest, p₁, hvalue, rfl⟩ := exists_of_assignment h
  have hmoves := updates_of_moves ((does_value line _ _ _ hvalue).tail (.assign p₁ v))
  cases v with
  | undefined => exact hmoves
  | known v => exact hmoves.tail (.define _ name v)

private theorem eq_defineLabel_of_label {name : String} {p p' : Pass}
    (h : label name p = .ok () p') :
    p' = p.defineLabel name := by
  unfold label at h
  split at h
  · cases h
    rfl
  · cases h

def Beginning.label? : Beginning → Option String
  | .label name _ | .bareLabel name _ => some name
  | _ => none

def labelled (p : Pass) (b : Beginning) : Pass :=
  match b.label? with
  | some name => p.defineLabel name
  | none => p

def afterLabel (line : Line) : Beginning → Assembling (Option String)
  | .nothing => pure none
  | .label _ rest | .bareLabel _ rest => statement rest
  | .assignment name rest => do
      assignment name rest
      pure none
  | .statement => statement line

theorem exists_of_readLine {line : Line} {p p' : Pass} {file? : Option String}
    (h : readLine line p = .ok file? p') :
    ∃ b, beginning line = .ok b ∧ afterLabel line b (labelled p b) = .ok file? p' := by
  obtain ⟨b, hbeginning, h⟩ := lift_bind_eq_ok_iff.1 h
  refine ⟨b, hbeginning, ?_⟩
  cases b with
  | nothing | assignment | statement => exact h
  | label name rest =>
      obtain ⟨_, p₁, hlabel, h⟩ := bind_eq_ok_iff.1 h
      rw [eq_defineLabel_of_label hlabel] at h
      exact h
  | bareLabel name rest =>
      obtain ⟨_, p₁, hget, h⟩ := bind_eq_ok_iff.1 h
      cases hget
      split at h
      · obtain ⟨_, _, hthrow, -⟩ := bind_eq_ok_iff.1 h
        cases hthrow
      · obtain ⟨_, p₁, hlabel, h⟩ := bind_eq_ok_iff.1 h
        rw [eq_defineLabel_of_label hlabel] at h
        exact h

theorem updates_of_afterLabel {line : Line} {b : Beginning} {p p' : Pass}
    {file? : Option String} (h : afterLabel line b p = .ok file? p') : Updates p p' := by
  cases b with
  | nothing =>
      cases h
      exact .refl
  | label name rest | bareLabel name rest =>
    exact updates_of_moves (does_statement rest _ _ _ h)
  | assignment name rest =>
      obtain ⟨_, _, hassignment, hpure⟩ := bind_eq_ok_iff.1 h
      cases hpure
      exact updates_of_assignment hassignment
  | statement => exact updates_of_moves (does_statement line _ _ _ h)

end Breadboard.Assembly
