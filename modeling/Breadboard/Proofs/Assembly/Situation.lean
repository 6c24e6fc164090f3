import Breadboard.Proofs.Assembly.SingleSource

namespace Breadboard.Assembly

open Read

variable {p p' q : Pass} {l : Location}

/-- A line that gives a name a value, the same wherever the line stands. -/
structure ConstantLine where
  text : String
  name : String
  value : Int32
  rest : Line
  begins : beginning (.ofString text) = .ok (.assignment name rest)
  named : isLabelName name = true
  evaluates : ∀ ctx, ∃ r, Expr.evalOperand ctx false rest = .ok r ∧
    r.operand.value = .known value ∧ expectEnd r.rest = .ok ()

/-- A line that begins with a mnemonic and is neither the definition of a label nor an
assignment. Whatever follows is its operand, well formed or not. -/
structure InstructionLine where
  text : String
  op : Operation
  mnemonic : String
  rest : Line
  reads : next? (.ofString text) = .ok (some (.word mnemonic, rest))
  names : Operation.ofMnemonic? mnemonic = some op
  defines : ∀ mark, peek? rest = .ok (some (.punct mark)) → mark ≠ ':' ∧ mark ≠ '='

theorem evalOperand_number {word : String} {n : Int32}
    (h : Word.classify word = .ok (.number n)) (ctx : Expr.Context) (start stop : Nat) :
    ∃ r, Expr.evalOperand ctx false ⟨[⟨.word word, start, stop⟩], none⟩ = .ok r ∧
      r.operand.value = .known n ∧ expectEnd r.rest = .ok () := by
  refine ⟨⟨⟨.known n, .bare⟩, [], ⟨[], none⟩⟩, ?_, rfl, rfl⟩
  unfold Expr.evalOperand Expr.State.run Expr.State.read Expr.State.readOperand
    Expr.State.readWord
  dsimp only
  rw [h]
  rfl

namespace InstructionLine

variable (i : InstructionLine)

private theorem beginning_eq {token : Option Token} (h : peek? i.rest = .ok token) :
    beginning (.ofString i.text) = .ok .statement := by
  have hbegins : beginsStatement i.mnemonic = true := by
    unfold beginsStatement
    rw [i.names]
    rfl
  unfold beginning
  rw [i.reads]
  dsimp only [bind, Except.bind]
  rw [h]
  dsimp only
  split
  · exact absurd rfl (i.defines ':' h).1
  · exact absurd rfl (i.defines '=' h).2
  · rw [if_pos hbegins]
    rfl

private theorem readLine_eq (p : Pass) :
    readLine (.ofString i.text) p =
      (do expectEnd (← instruction i.op i.rest); pure none : Assembling (Option String))
        p := by
  unfold readLine
  cases hpeek : peek? i.rest with
  | error e =>
      -- What follows the mnemonic cannot be read, whether as a mark after a name or as an
      -- operand.
      have hbeginning : beginning (.ofString i.text) = .error e := by
        unfold beginning
        rw [i.reads]
        dsimp only [bind, Except.bind]
        rw [hpeek]
      have hoperand : operand i.op (opcodes.modes i.op) i.rest p = .error e p := by
        unfold operand
        rw [hpeek]
        rfl
      have hinstruction : instruction i.op i.rest p = .error e p := bind_of_error hoperand
      rw [hbeginning, bind_of_error hinstruction]
      rfl
  | ok token =>
      rw [i.beginning_eq hpeek]
      change statement (.ofString i.text) p = _
      unfold statement
      rw [i.reads]
      refine (bind_of_ok rfl).trans ?_
      dsimp only
      rw [i.names]

theorem assembleLine_eq (l : Location) (p : Pass) :
    assembleLine l i.text p =
      (do expectEnd (← instruction i.op i.rest); pure none : Assembling (Option String))
        (p.enterLine l) :=
  i.readLine_eq (p.enterLine l)

end InstructionLine

def Flags.key (flags : Flags) (name : String) : String :=
  if flags.caseSensitive then name else name.toLower

/-- What is known after a definition. -/
def learn (flags : Flags) (known : String → Option Int32) (c : ConstantLine) : String →
    Option Int32 :=
  fun key => if flags.key c.name = key then some c.value else known key

def learnAll (flags : Flags) (known : String → Option Int32)
    (constants : List ConstantLine) :
    String → Option Int32 :=
  constants.foldl (learn flags) known

/-- What lines of definitions and instructions depend on, and what they bring about. -/
structure Situation where
  flags : Flags
  round : Round
  known : String → Option Int32
  address : UInt16
  placements : List (UInt16 × Item)

namespace Situation

def context (s : Situation) : Expr.Context :=
  { here := s.address
    resolve := fun name => s.known (s.flags.key name)
    lenient := s.round = .first }

def place (s : Situation) (item : Item) : Situation :=
  { s with
    address := s.address + UInt16.ofNat item.bytes.length
    placements := s.placements ++ [(s.address, item)] }

end Situation

structure Situated (s : Situation) (p : Pass) : Prop where
  flags : p.flags = s.flags
  round : p.round = s.round
  scopes : p.scopes = {}
  symbols : ∀ key, p.symbols.value? key = s.known key
  address : p.address = s.address
  placements : p.listing.placements = s.placements

namespace Situated

variable {s : Situation}

theorem calm (h : Situated s p) (hcalm : Calm p p') : Situated s p' where
  flags := hcalm.flags.trans h.flags
  round := hcalm.round.trans h.round
  scopes := hcalm.scopes.trans h.scopes
  symbols key := by
    rw [hcalm.symbols]
    exact h.symbols key
  address := hcalm.address.trans h.address
  placements := hcalm.placements.trans h.placements

theorem place (h : Situated s p) (item : Item) :
    Situated (s.place item) (p.place item) where
  flags := h.flags
  round := h.round
  scopes := h.scopes
  symbols := h.symbols
  address := by
    change p.address + _ = s.address + _
    rw [h.address]
  placements := by
    change Listing.placements (p.listing.push ⟨p.line, .place p.address item⟩) = _
    rw [placements_push, h.placements, h.address]
    rfl

theorem enterLine (h : Situated s p) (l : Location) : Situated s (p.enterLine l) where
  flags := h.flags
  round := h.round
  scopes := h.scopes
  symbols := h.symbols
  address := h.address
  placements := (placements_push p.listing ⟨l, .visit p.address⟩).trans
    ((List.append_nil _).trans h.placements)

private theorem scope_enterLine (h : Situated s p) (l : Location) :
    (p.enterLine l).scope = none := by
  change p.scopes.at? l.file l.line = none
  rw [h.scopes]
  unfold Scopes.at? Scopes.openings
  rw [Std.ExtTreeMap.getElem?_empty]
  rfl

private theorem qualify_enterLine (h : Situated s p) (l : Location) (name : String) :
    (p.enterLine l).qualify name = s.flags.key name := by
  have hplain : ∀ key : String,
      (if isLocalName key then (none : Option String).getD "" ++ key else key) = key := by
    intro key
    rw [Option.getD_none, String.empty_append, ite_self]
  unfold Pass.qualify Pass.normalize Flags.key
  rw [h.scope_enterLine l, (h.enterLine l).flags]
  exact hplain _

theorem context_enterLine (h : Situated s p) (l : Location) :
    (p.enterLine l).context = s.context := by
  have hresolve : ∀ name, (p.enterLine l).symbols.value? ((p.enterLine l).qualify name) =
      s.known (s.flags.key name) := by
    intro name
    rw [h.qualify_enterLine]
    exact h.symbols _
  unfold Pass.context Situation.context
  rw [funext hresolve, (h.enterLine l).address, (h.enterLine l).round]

theorem define (h : Situated s p) {c : ConstantLine} {key : String}
    (hkey : key = s.flags.key c.name) :
    Situated { s with known := learn s.flags s.known c }
      (p.define key c.value .value) := by
  subst hkey
  rw [p.define_eq]
  refine ⟨h.flags, h.round, h.scopes, fun key => ?_, h.address, ?_⟩
  · exact (value?_insert _ _ _ _).trans (by rw [h.symbols]; rfl)
  · change Listing.placements (p.listing.push ⟨p.line, .define _ _ _⟩) = _
    rw [placements_push, h.placements]
    exact List.append_nil _

private theorem exists_assembleLine_constant (h : Situated s p) (c : ConstantLine)
    (l : Location) :
    ∃ p', assembleLine l c.text p = .ok none p' ∧
      Situated { s with known := learn s.flags s.known c } p' := by
  obtain ⟨r, heval, hvalue, hend⟩ := c.evaluates (p.enterLine l).context
  obtain ⟨p₁, hcalm, hread⟩ : ∃ p₁, Calm (p.enterLine l) p₁ ∧
      value c.rest (p.enterLine l) = .ok (.known c.value, r.rest) p₁ := by
    refine ⟨(p.enterLine l).recordReferences r.asked, .recordReferences _ _, ?_⟩
    refine (bind_of_ok (operandValue_eq_ok_iff.2 ⟨r, heval, rfl, rfl⟩)).trans ?_
    dsimp only
    rw [hvalue]
    rfl
  have hassigned : Calm (p.enterLine l) (p₁.record (.assign (.known c.value))) :=
    hcalm.trans (.record p₁ rfl rfl)
  have hkey : (p₁.record (.assign (.known c.value))).qualify c.name =
    s.flags.key c.name :=
    (hassigned.qualify_eq c.name).trans (h.qualify_enterLine l c.name)
  refine ⟨_, ?_, ((h.enterLine l).calm hassigned).define hkey⟩
  refine lift_bind_eq_ok_iff.2 ⟨_, c.begins, bind_eq_ok_iff.2 ⟨(), _, ?_, rfl⟩⟩
  unfold assignment
  rw [if_pos c.named]
  refine bind_eq_ok_iff.2 ⟨_, p₁, hread, bind_eq_ok_iff.2 ⟨(), _, rfl, ?_⟩⟩
  exact lift_bind_eq_ok_iff.2 ⟨(), hend, rfl⟩

theorem exists_readAll_constants (h : Situated s p) (constants : List ConstantLine)
    (l : Location) :
    ∃ p', readAll l (constants.map ConstantLine.text) p = .ok () p' ∧
      Situated { s with known := learnAll s.flags s.known constants } p' := by
  induction constants generalizing s p l with
  | nil => exact ⟨p, rfl, h⟩
  | cons c constants ih =>
      obtain ⟨p₁, hline, h₁⟩ := h.exists_assembleLine_constant c l
      obtain ⟨p', hrest, h'⟩ := ih h₁ { l with line := l.line + 1 }
      exact ⟨p', bind_eq_ok_iff.2 ⟨none, p₁, hline, hrest⟩, h'⟩

end Situated

namespace InstructionLine

variable {i : InstructionLine}

theorem instruction_of_assembleLine {file? : Option String}
    (h : assembleLine l i.text p = .ok file? p') :
    file? = none ∧ ∃ rest, instruction i.op i.rest (p.enterLine l) = .ok rest p' ∧
      expectEnd rest = .ok () := by
  rw [i.assembleLine_eq] at h
  obtain ⟨rest, p₁, hinstruction, h⟩ := bind_eq_ok_iff.1 h
  obtain ⟨_, hend, h⟩ := lift_bind_eq_ok_iff.1 h
  cases h
  exact ⟨rfl, rest, hinstruction, hend⟩

private theorem assembleLine_of_instruction {rest : Line}
    (h : instruction i.op i.rest (p.enterLine l) = .ok rest p')
    (hend : expectEnd rest = .ok ()) :
    assembleLine l i.text p = .ok none p' := by
  rw [i.assembleLine_eq]
  exact bind_eq_ok_iff.2 ⟨rest, p', h, lift_bind_eq_ok_iff.2 ⟨(), hend, rfl⟩⟩

end InstructionLine

namespace Situated

variable {s : Situation} {i : InstructionLine} {file? : Option String} {q' : Pass}
    {l' : Location} {round : Round}

theorem exists_assembleLine (h : Situated s p) (l : Location)
    (h' : Situated { s with round } q) (hround : s.round = .second → round = .second)
    (hq : assembleLine l' i.text q = .ok file? q') :
    ∃ item p', Encodes i.op item ∧ Situated ({ s with round }.place item) q' ∧
      assembleLine l i.text p = .ok none p' ∧ Situated (s.place item) p' := by
  obtain ⟨-, rest, hinstruction', hend⟩ := InstructionLine.instruction_of_assembleLine hq
  have hround₁ : (p.enterLine l).round = .second → (q.enterLine l').round = .second := by
    rw [(h.enterLine l).round, (h'.enterLine l').round]
    exact hround
  have hreads : ReadsAlike Eq (p.enterLine l) (q.enterLine l') := by
    refine readsAlike_of_resolve ?_ ?_ hround₁
    · rw [h.context_enterLine, h'.context_enterLine]
      rfl
    · rw [h.context_enterLine, h'.context_enterLine]
      rfl
  have haddress : (p.enterLine l).address = (q.enterLine l').address :=
    (h.enterLine l).address.trans (h'.enterLine l').address.symm
  obtain ⟨item, p₀, q₀, hencodes, hcalm, hcalm', hinstruction, rfl⟩ :=
    hreads.instruction haddress hround₁ hinstruction'
  exact ⟨item, p₀.place item, hencodes, ((h'.enterLine l').calm hcalm').place item,
    InstructionLine.assembleLine_of_instruction hinstruction hend,
    ((h.enterLine l).calm hcalm).place item⟩

theorem exists_assembleLine_or_misjudged {known : String → Option Int32}
    (h : Situated s p) (l : Location) (h' : Situated { s with round, known } q)
    (hfirst : s.round = .first)
    (hknown : ∀ {key v}, s.known key = some v → known key = some v)
    (hq : assembleLine l' i.text q = .ok file? q') :
    (∃ item p', assembleLine l i.text p = .ok none p' ∧ Situated (s.place item) p') ∨
      ∃ mode, Misjudged i.op i.rest mode (p.enterLine l) := by
  obtain ⟨-, rest, hinstruction', hend⟩ := InstructionLine.instruction_of_assembleLine hq
  have hround : (p.enterLine l).round = .first := (h.enterLine l).round.trans hfirst
  have hround₁ : (p.enterLine l).round = .second → (q.enterLine l').round = .second := by
    rw [hround]
    exact fun hsecond => absurd hsecond (by decide)
  have hcontext : (p.enterLine l).context.Refined (q.enterLine l').context := by
    rw [h.context_enterLine, h'.context_enterLine]
    exact ⟨rfl, hknown⟩
  have haddress : (p.enterLine l).address = (q.enterLine l').address :=
    (h.enterLine l).address.trans (h'.enterLine l').address.symm
  obtain ⟨item, p₀, hcalm, hinstruction⟩ | hmisjudged :=
    (readsAlike_of_refined hcontext hround).instruction_or_misjudged haddress hround₁
      hinstruction'
  · exact .inl ⟨item, p₀.place item,
      InstructionLine.assembleLine_of_instruction hinstruction hend,
      ((h.enterLine l).calm hcalm).place item⟩
  · exact .inr hmisjudged

end Situated

end Breadboard.Assembly
