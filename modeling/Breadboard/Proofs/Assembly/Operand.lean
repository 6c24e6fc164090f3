import Breadboard.Proofs.Assembly.Encoding
import Breadboard.Proofs.Assembly.Tokens
import Breadboard.Proofs.Expr.Enclosure
import Breadboard.Proofs.Isa.OpcodeTable

namespace Breadboard.Assembly

open Breadboard.Expr (Enclosure Encloses Forms Tree isEnclosed)
open Read

/-! Forms of operands. -/

def Index.letter : Index → String
  | .x => "x"
  | .y => "y"

/-- An expression that does not make its operand indirect. -/
def Plain (modes : ModeSet) (ts : List Token) (e : Tree) : Prop :=
  Forms .or ts e ∧ (modes.hasIndirect && isEnclosed ts) = false

def IsAccumulator (ts : List Token) : Prop :=
  ∃ w : String, ts = [.word w] ∧ w.toLower = "a"

/-- The operands that an operation may be followed by, the mode that each selects, and the
expression in it. Letters of registers may be of either case. -/
inductive OperandForm (op : Operation) (modes : ModeSet) :
    List Token → AddressingMode → Option Tree → Prop
  | nothing : OperandForm op modes [] (bareMode modes) none
  | immediate {ts : List Token} {e : Tree} (expression : Forms .or ts e) :
      OperandForm op modes (.punct '#' :: ts) .immediate (some e)
  | accumulator {ts : List Token} (accumulator : IsAccumulator ts) :
      OperandForm op modes ts .accumulator none
  | relative {ts : List Token} {e : Tree} (branch : op.isBranch = true)
    (target : Plain modes ts e)
      (other : ¬IsAccumulator ts) : OperandForm op modes ts .relative (some e)
  | absolute {ts : List Token} {e : Tree} (noBranch : op.isBranch = false)
      (address : Plain modes ts e) (other : ¬IsAccumulator ts) :
      OperandForm op modes ts .absolute (some e)
  | absoluteX {ts : List Token} {e : Tree} {w : String} (noBranch : op.isBranch = false)
      (address : Plain modes ts e) (register : w.toLower = "x") :
      OperandForm op modes (ts ++ [.punct ',', .word w]) .absoluteX (some e)
  | absoluteY {ts : List Token} {e : Tree} {w : String} (noBranch : op.isBranch = false)
      (address : Plain modes ts e) (register : w.toLower = "y") :
      OperandForm op modes (ts ++ [.punct ',', .word w]) .absoluteY (some e)
  | indirect {ts : List Token} {e : Tree} (hasIndirect : modes.hasIndirect = true)
      (pointer : Forms .or ts e) :
      OperandForm op modes (.punct '(' :: ts ++ [.punct ')']) .indirect (some e)
  | indirectIndexedY {ts : List Token} {e : Tree} {w : String}
      (hasIndirect : modes.hasIndirect = true) (pointer : Forms .or ts e)
      (register : w.toLower = "y") :
      OperandForm op modes (.punct '(' :: ts ++ [.punct ')', .punct ',', .word w])
        .indirectIndexedY (some e)
  | indexedIndirectX {ts : List Token} {e : Tree} {w : String}
      (hasIndirect : modes.hasIndirect = true) (pointer : Forms .or ts e)
      (register : w.toLower = "x") :
      OperandForm op modes (.punct '(' :: ts ++ [.punct ',', .word w, .punct ')'])
        .indexedIndirectX (some e)

theorem not_isAccumulator {ts : List Token} {c : Char} (h : .punct c ∈ ts) :
    ¬IsAccumulator ts := by
  rintro ⟨w, rfl, -⟩
  simp at h

/-! What follows the expression. -/

/-- What may follow an operand that its leading parenthesis encloses so, and the
mode that it selects. -/
inductive Indexing : Enclosure → List Token → AddressingMode → Prop
  | absolute : Indexing .bare [] .absolute
  | absoluteX {w : String} (register : w.toLower = "x") :
      Indexing .bare [.punct ',', .word w] .absoluteX
  | absoluteY {w : String} (register : w.toLower = "y") :
      Indexing .bare [.punct ',', .word w] .absoluteY
  | indirect : Indexing .closed [] .indirect
  | indirectIndexedY {w : String} (register : w.toLower = "y") :
      Indexing .closed [.punct ',', .word w] .indirectIndexedY
  | indexedIndirectX {w : String} (register : w.toLower = "x") :
      Indexing .opened [.punct ',', .word w, .punct ')'] .indexedIndirectX

variable {line rest : Line} {mode : AddressingMode} {enclosure : Enclosure}

private theorem index?_eq_ok {i? : Option Index} (h : index? line = .ok (i?, rest)) :
    i? = none ∧ rest = line ∨
      ∃ i w, i? = some i ∧ w.toLower = i.letter ∧
        line.tokens = .punct ',' :: .word w :: rest.tokens ∧ line.fault = rest.fault := by
  unfold index? at h
  cases hcomma : comma? line with
  | error e =>
      rw [hcomma] at h
      cases h
  | ok rest? =>
      rw [hcomma] at h
      obtain rfl | ⟨⟨lexemes, fault⟩, rfl, htokens, hfault⟩ := comma?_eq_ok hcomma
      · cases h
        exact .inl ⟨rfl, rfl⟩
      · right
        cases lexemes with
        | nil =>
            cases fault with
            | none => cases h
            | some e => cases h
        | cons l lexemes =>
            obtain ⟨token, first, last⟩ := l
            cases token with
            | word w =>
                change (if w.toLower == "x" then pure (some Index.x, ⟨lexemes, fault⟩)
                  else if w.toLower == "y" then pure (some Index.y, ⟨lexemes, fault⟩)
                  else complain _ : Except ErrorKind (Option Index × Line)) = _ at h
                split at h
                · rename_i hx
                  cases h
                  exact ⟨.x, w, rfl, eq_of_beq hx, htokens, hfault⟩
                · split at h
                  · rename_i hy
                    cases h
                    exact ⟨.y, w, rfl, eq_of_beq hy, htokens, hfault⟩
                  · cases h
            | _ => cases h

private theorem index?_of_end (h : line.tokens = []) (hfault : line.fault = none) :
    index? line = .ok (none, line) := by
  obtain ⟨lexemes, fault⟩ := line
  cases List.map_eq_nil_iff.1 h
  cases hfault
  rfl

private theorem exists_index? {w : String} {i : Index} {ts : List Token}
    (h : line.tokens = .punct ',' :: .word w :: ts) (hw : w.toLower = i.letter) :
    ∃ rest, index? line = .ok (some i, rest) ∧ rest.tokens = ts ∧
      rest.fault = line.fault := by
  obtain ⟨lexemes, fault⟩ := line
  obtain ⟨⟨_, _, _⟩, _, rfl, hc, htail⟩ := List.map_eq_cons_iff.1 h
  obtain ⟨⟨_, _, _⟩, lexemes, rfl, hl, hrest⟩ := List.map_eq_cons_iff.1 htail
  cases hc
  cases hl
  refine ⟨⟨lexemes, fault⟩, ?_, hrest, rfl⟩
  change (if w.toLower == "x" then pure (some Index.x, ⟨lexemes, fault⟩)
    else if w.toLower == "y" then pure (some Index.y, ⟨lexemes, fault⟩)
    else complain _ : Except ErrorKind (Option Index × Line)) = _
  cases i with
  | x => exact if_pos (beq_iff_eq.2 hw)
  | y =>
      have hx : ¬(w.toLower == "x") = true := by
        rw [hw]
        decide
      exact (if_neg hx).trans (if_pos (beq_iff_eq.2 hw))

theorem exists_indexing_of_shape (h : shape enclosure line = .ok (mode, rest)) :
    ∃ us, line.tokens = us ++ rest.tokens ∧ line.fault = rest.fault ∧
      Indexing enclosure us mode := by
  unfold shape at h
  cases hindex : index? line with
  | error e =>
      rw [hindex] at h
      cases enclosure <;> cases h
  | ok r =>
      obtain ⟨i?, rest'⟩ := r
      rw [hindex] at h
      obtain ⟨rfl, rfl⟩ | ⟨i, w, rfl, hw, htokens, hfault⟩ := index?_eq_ok hindex
      · cases enclosure with
        | bare =>
            cases h
            exact ⟨[], rfl, rfl, .absolute⟩
        | closed =>
            cases h
            exact ⟨[], rfl, rfl, .indirect⟩
        | opened => cases h
      · cases enclosure with
        | bare =>
            cases i with
            | x =>
                cases h
                exact ⟨_, htokens, hfault, .absoluteX hw⟩
            | y =>
                cases h
                exact ⟨_, htokens, hfault, .absoluteY hw⟩
        | closed =>
            cases i with
            | x => cases h
            | y =>
                cases h
                exact ⟨_, htokens, hfault, .indirectIndexedY hw⟩
        | opened =>
            cases i with
            | y => cases h
            | x =>
                cases hnext : next? rest' with
                | error e =>
                    simp only [hnext, bind, Except.bind] at h
                    cases h
                | ok next =>
                    simp only [hnext, bind, Except.bind] at h
                    split at h
                    · cases h
                      obtain ⟨hclose, hfault'⟩ := next?_eq_ok hnext
                      rw [hclose] at htokens
                      exact ⟨_, htokens, hfault.trans hfault', .indexedIndirectX hw⟩
                    · cases h

private theorem indexing_of_shape (h : shape enclosure line = .ok (mode, rest))
    (hend : expectEnd rest = .ok ()) :
    line.fault = none ∧ Indexing enclosure line.tokens mode := by
  obtain ⟨us, htokens, hfault, hindexing⟩ := exists_indexing_of_shape h
  obtain ⟨hnil, hfault'⟩ := expectEnd_eq_ok_iff.1 hend
  rw [htokens, hnil, List.append_nil]
  exact ⟨hfault.trans hfault', hindexing⟩

private theorem exists_shape_of_indexing (h : Indexing enclosure line.tokens mode)
    (hfault : line.fault = none) :
    ∃ rest, shape enclosure line = .ok (mode, rest) ∧ expectEnd rest = .ok () := by
  have hindexed : ∀ {w i}, w.toLower = Index.letter i →
    line.tokens = [.punct ',', .word w] →
      ∃ rest, index? line = .ok (some i, rest) ∧ expectEnd rest = .ok () := by
    intro w i hw htokens
    obtain ⟨rest, hindex, hrest, hkept⟩ := exists_index? htokens hw
    exact ⟨rest, hindex, expectEnd_eq_ok_iff.2 ⟨hrest, hkept.trans hfault⟩⟩
  generalize htokens : line.tokens = ts at h hindexed
  cases h with
  | absolute =>
      refine ⟨line, ?_, expectEnd_eq_ok_iff.2 ⟨htokens, hfault⟩⟩
      simp only [shape, index?_of_end htokens hfault]
      rfl
  | indirect =>
      refine ⟨line, ?_, expectEnd_eq_ok_iff.2 ⟨htokens, hfault⟩⟩
      simp only [shape, index?_of_end htokens hfault]
      rfl
  | absoluteX register =>
      obtain ⟨rest, hindex, hend⟩ := hindexed (i := .x) register rfl
      refine ⟨rest, ?_, hend⟩
      simp only [shape, hindex]
      rfl
  | absoluteY register =>
      obtain ⟨rest, hindex, hend⟩ := hindexed (i := .y) register rfl
      refine ⟨rest, ?_, hend⟩
      simp only [shape, hindex]
      rfl
  | indirectIndexedY register =>
      obtain ⟨rest, hindex, hend⟩ := hindexed (i := .y) register rfl
      refine ⟨rest, ?_, hend⟩
      simp only [shape, hindex]
      rfl
  | indexedIndirectX register =>
      obtain ⟨⟨lexemes, fault⟩, hindex, hrest, hkept⟩ :=
        exists_index? (i := .x) htokens register
      obtain ⟨⟨_, _, _⟩, lexemes, rfl, hclose, hnil⟩ := List.map_eq_cons_iff.1 hrest
      cases hclose
      refine ⟨⟨lexemes, fault⟩, ?_, expectEnd_eq_ok_iff.2 ⟨hnil, hkept.trans hfault⟩⟩
      simp only [shape, hindex]
      rfl

private theorem endsBefore_of_indexing {lexemes : List Lexeme}
    (h : Indexing enclosure (lexemes.map Lexeme.token) mode) :
    Expr.EndsBefore ⟨lexemes, none⟩ := by
  cases lexemes with
  | nil => rfl
  | cons l lexemes =>
      have hcomma : l.token = .punct ',' := by
        generalize hts : (l :: lexemes).map Lexeme.token = ts at h
        cases h <;> first | cases hts | exact (List.cons.inj hts).1
      intro p op hmem
      rw [hcomma] at hmem
      cases p <;> simp [Expr.Phrase.operators] at hmem

/-! Operands with an address. -/

variable {p p' : Pass} {op : Operation} {modes : ModeSet} {value : Expr.Value}

/-- The tokens of an operand that is neither immediate nor the
accumulator, in two parts. -/
def AddressForm (op : Operation) (modes : ModeSet) (tokens : List Token)
    (mode : AddressingMode) (e : Tree) : Prop :=
  ∃ ts us enclosure, tokens = ts ++ us ∧
    Encloses modes.hasIndirect ts us.head? e enclosure ∧
    if op.isBranch then mode = .relative ∧ us = [] else Indexing enclosure us mode

theorem addressOperand_eq_ok_iff :
    addressOperand op modes line p = .ok (mode, value, rest) p' ↔
    ∃ r, Expr.evalOperand p.context modes.hasIndirect line = .ok r ∧
      r.operand.value = value ∧
      p' = p.recordReferences r.asked ∧
        if op.isBranch then mode = .relative ∧ rest = r.rest
        else shape r.operand.enclosure r.rest = .ok (mode, rest) := by
  unfold addressOperand
  rw [bind_eq_ok_iff]
  constructor
  · rintro ⟨_, _, hoperand, h⟩
    obtain ⟨r, heval, rfl, rfl⟩ := operandValue_eq_ok_iff.1 hoperand
    refine ⟨r, heval, ?_⟩
    dsimp only at h
    split at h
    · rename_i hbranch
      cases h
      rw [if_pos hbranch]
      exact ⟨rfl, rfl, rfl, rfl⟩
    · rename_i hbranch
      obtain ⟨_, hshape, h⟩ := lift_bind_eq_ok_iff.1 h
      cases h
      rw [if_neg hbranch]
      exact ⟨rfl, rfl, hshape⟩
  · rintro ⟨r, heval, rfl, rfl, hmode⟩
    refine ⟨_, _, operandValue_eq_ok_iff.2 ⟨r, heval, rfl, rfl⟩, ?_⟩
    dsimp only
    split at hmode
    · rename_i hbranch
      obtain ⟨rfl, rfl⟩ := hmode
      rw [if_pos hbranch]
      rfl
    · rename_i hbranch
      rw [if_neg hbranch]
      exact lift_bind_eq_ok_iff.2 ⟨_, hmode, rfl⟩

private theorem addressForm_of_addressOperand
    (h : addressOperand op modes line p = .ok (mode, value, rest) p')
    (hend : expectEnd rest = .ok ()) :
    line.fault = none ∧ ∃ e, AddressForm op modes line.tokens mode e ∧
      e.value? p.context = some value := by
  obtain ⟨r, heval, rfl, -, hmode⟩ := addressOperand_eq_ok_iff.1 h
  obtain ⟨e, read, hlexemes, hfault, -, henclose, hvalue, -⟩ :=
    Expr.evalOperand_eq_ok_iff.1 heval
  rw [hfault, tokens_eq_append hlexemes]
  split at hmode
  · rename_i hbranch
    obtain ⟨rfl, rfl⟩ := hmode
    obtain ⟨hnil, hfault'⟩ := expectEnd_eq_ok_iff.1 hend
    refine ⟨hfault', e, ⟨_, _, _, rfl, henclose, ?_⟩, hvalue⟩
    rw [if_pos hbranch]
    exact ⟨rfl, hnil⟩
  · rename_i hbranch
    obtain ⟨hfault', hindexing⟩ := indexing_of_shape hmode hend
    refine ⟨hfault', e, ⟨_, _, _, rfl, henclose, ?_⟩, hvalue⟩
    rw [if_neg hbranch]
    exact hindexing

private theorem exists_addressOperand {e : Tree}
    (h : AddressForm op modes line.tokens mode e) (hfault : line.fault = none)
    (hvalue : e.value? p.context = some value) :
    ∃ rest p', addressOperand op modes line p = .ok (mode, value, rest) p' ∧
      expectEnd rest = .ok () := by
  obtain ⟨ts, us, enclosure, htokens, henclose, hmode⟩ := h
  obtain ⟨lexemes, fault⟩ := line
  cases hfault
  obtain ⟨read, lexemes, rfl, rfl, rfl⟩ := List.map_eq_append_iff.1 htokens
  have hends : Expr.EndsBefore ⟨lexemes, none⟩ := by
    split at hmode
    · rw [List.map_eq_nil_iff.1 hmode.2]
      rfl
    · exact endsBefore_of_indexing hmode
  have heval : Expr.evalOperand p.context modes.hasIndirect ⟨read ++ lexemes, none⟩ =
      .ok ⟨⟨value, enclosure⟩, e.names, ⟨lexemes, none⟩⟩ :=
    Expr.evalOperand_eq_ok_iff.2 ⟨e, read, rfl, rfl, hends, henclose, hvalue, rfl⟩
  split at hmode
  · rename_i hbranch
    obtain ⟨rfl, hnil⟩ := hmode
    refine ⟨⟨lexemes, none⟩, _, addressOperand_eq_ok_iff.2 ⟨_, heval, rfl, rfl, ?_⟩,
      expectEnd_eq_ok_iff.2 ⟨hnil, rfl⟩⟩
    rw [if_pos hbranch]
    exact ⟨rfl, rfl⟩
  · rename_i hbranch
    have hfault : (⟨lexemes, none⟩ : Line).fault = none := rfl
    obtain ⟨rest, hshape, hend⟩ := exists_shape_of_indexing hmode hfault
    refine ⟨rest, _, addressOperand_eq_ok_iff.2 ⟨_, heval, rfl, rfl, ?_⟩, hend⟩
    rw [if_neg hbranch]
    exact hshape

/-! Operands of any form. -/

variable {tokens : List Token} {e : Tree}

private theorem operandForm_of_addressForm
    (hbranch : op.isBranch = true → modes.hasIndirect = false)
    (h : AddressForm op modes tokens mode e) (hother : ¬IsAccumulator tokens) :
    OperandForm op modes tokens mode (some e) := by
  obtain ⟨ts, us, enclosure, rfl, henclose, hmode⟩ := h
  split at hmode
  · rename_i hop
    obtain ⟨rfl, rfl⟩ := hmode
    rw [List.append_nil] at hother ⊢
    cases enclosure with
    | bare => exact .relative hop henclose hother
    | closed => simp [Encloses, hbranch hop] at henclose
    | opened => simp [Encloses, hbranch hop] at henclose
  · rename_i hop
    rw [Bool.not_eq_true] at hop
    cases hmode with
    | absolute =>
        rw [List.append_nil] at hother ⊢
        exact .absolute hop henclose hother
    | absoluteX register => exact .absoluteX hop henclose register
    | absoluteY register => exact .absoluteY hop henclose register
    | indirect =>
        obtain ⟨hforms, hboth⟩ := henclose
        rw [Bool.and_eq_true] at hboth
        obtain ⟨inner, rfl, hinner⟩ := hforms.isEnclosed_iff.1 hboth.2
        rw [List.append_nil]
        exact .indirect hboth.1 hinner
    | indirectIndexedY register =>
        obtain ⟨hforms, hboth⟩ := henclose
        rw [Bool.and_eq_true] at hboth
        obtain ⟨inner, rfl, hinner⟩ := hforms.isEnclosed_iff.1 hboth.2
        rw [List.append_assoc]
        exact .indirectIndexedY hboth.1 hinner register
    | indexedIndirectX register =>
        obtain ⟨hindirect, ⟨inner, rfl, hinner⟩, -⟩ := henclose
        exact .indexedIndirectX hindirect hinner register

theorem AddressForm.head? (h : AddressForm op modes tokens mode e) :
    tokens ≠ [] ∧ tokens.head? ≠ some (.punct '#') := by
  obtain ⟨ts, us, enclosure, rfl, henclose, -⟩ := h
  have hts := henclose.ne_nil
  refine ⟨List.append_ne_nil_of_left_ne_nil hts us, fun hhead => ?_⟩
  replace hhead := Expr.head?_of_head?_append hts hhead
  cases enclosure with
  | bare => exact henclose.1.head?_ne_hash hhead
  | closed => exact henclose.1.head?_ne_hash hhead
  | opened =>
      obtain ⟨-, ⟨inner, rfl, -⟩, -⟩ := henclose
      cases hhead

private theorem operand_of_nil (h : line.tokens = []) (hfault : line.fault = none) :
    operand op modes line p = .ok (bareMode modes, .known 0, line) p := by
  obtain ⟨lexemes, fault⟩ := line
  cases List.map_eq_nil_iff.1 h
  cases hfault
  rfl

private theorem operand_of_hash {l : Lexeme} {lexemes : List Lexeme}
    {fault : Option Fault} (h : l.token = .punct '#') :
    operand op modes ⟨l :: lexemes, fault⟩ p = (do
        let (v, rest) ← Read.value ⟨lexemes, fault⟩
        pure (.immediate, v, rest) : Assembling (AddressingMode × Expr.Value × Line))
          p := by
  obtain ⟨_, _, _⟩ := l
  cases h
  rfl

private theorem operand_of_accumulator (h : IsAccumulator line.tokens)
    (hfault : line.fault = none) :
    operand op modes line p = .ok (.accumulator, .known 0, skip line) p ∧
      expectEnd (skip line) = .ok () := by
  obtain ⟨lexemes, fault⟩ := line
  cases hfault
  obtain ⟨w, htokens, hw⟩ := h
  obtain ⟨⟨_, _, _⟩, _, rfl, hl, hnil⟩ := List.map_eq_cons_iff.1 htokens
  cases hl
  cases List.map_eq_nil_iff.1 hnil
  refine ⟨?_, rfl⟩
  have hregister : (w.toLower == "a" && true) = true := by
    rw [hw]
    rfl
  exact congrFun (if_pos hregister) p

private theorem operand_eq_addressOperand (hne : line.tokens ≠ [])
    (himmediate : line.tokens.head? ≠ some (.punct '#'))
    (hother : line.fault = none → ¬IsAccumulator line.tokens) :
    operand op modes line p = addressOperand op modes line p := by
  obtain ⟨lexemes, fault⟩ := line
  cases lexemes with
  | nil => contradiction
  | cons l lexemes =>
      have hpeek : (liftM (peek? ⟨l :: lexemes, fault⟩) : Assembling _) p =
        .ok (some l.token) p := rfl
      unfold operand
      rw [bind_of_ok hpeek]
      generalize htoken : some l.token = token?
      split
      · cases htoken
      · exact absurd htoken himmediate
      · rename_i w
        split
        · rename_i hregister
          rw [Bool.and_eq_true, beq_iff_eq] at hregister
          obtain ⟨hw, hend⟩ := hregister
          have hnil : lexemes = [] ∧ fault = none := by
            simpa [Line.atEnd, skip] using hend
          refine absurd ⟨w, ?_, hw⟩ (hother hnil.2)
          rw [hnil.1, Line.tokens, List.map_singleton, Option.some.inj htoken]
        · rfl
      · rfl

theorem value_eq_ok_iff {a : Expr.Value × Line} : Read.value line p = .ok a p' ↔
    ∃ r, Expr.evalOperand p.context false line = .ok r ∧ a = (r.operand.value, r.rest) ∧
      p' = p.recordReferences r.asked := by
  unfold Read.value
  rw [bind_eq_ok_iff]
  constructor
  · rintro ⟨_, _, hoperand, h⟩
    obtain ⟨r, heval, rfl, rfl⟩ := operandValue_eq_ok_iff.1 hoperand
    cases h
    exact ⟨r, heval, rfl, rfl⟩
  · rintro ⟨r, heval, rfl, rfl⟩
    exact ⟨_, _, operandValue_eq_ok_iff.2 ⟨r, heval, rfl, rfl⟩, rfl⟩

theorem exists_known_of_evalOperand {indirect : Bool} {r : Expr.Success}
    (hsecond : p.round = .second) (h : Expr.evalOperand p.context indirect line = .ok r) :
    ∃ v, r.operand.value = .known v := by
  have hstrict : p.context.lenient = false := by
    simp [Pass.context, hsecond]
  obtain ⟨e, -, -, -, -, -, hvalue, -⟩ := Expr.evalOperand_eq_ok_iff.1 h
  exact Expr.Tree.exists_known_of_value? hstrict hvalue

private theorem fault_of_operand {a : AddressingMode × Expr.Value × Line}
    (hnil : line.tokens = []) (h : operand op modes line p = .ok a p') :
    line.fault = none := by
  obtain ⟨lexemes, fault⟩ := line
  cases List.map_eq_nil_iff.1 hnil
  cases fault with
  | none => rfl
  | some e => cases h

private theorem exists_immediate (himmediate : line.tokens.head? = some (.punct '#'))
    (h : operand op modes line p = .ok (mode, value, rest) p')
    (hend : expectEnd rest = .ok ()) :
    ∃ e ts, line.tokens = .punct '#' :: ts ∧ line.fault = none ∧ Forms .or ts e ∧
      e.value? p.context = some value ∧ mode = .immediate := by
  obtain ⟨lexemes, fault⟩ := line
  cases lexemes with
  | nil => cases himmediate
  | cons l lexemes =>
      have hl : l.token = .punct '#' := Option.some.inj himmediate
      rw [operand_of_hash hl] at h
      obtain ⟨_, p₁, hread, h⟩ := bind_eq_ok_iff.1 h
      obtain ⟨r, heval, rfl, -⟩ := value_eq_ok_iff.1 hread
      cases h
      obtain ⟨e, read, hlexemes, hfault, -, hforms, hvalue, -⟩ :=
        Expr.evalOperand_false_eq_ok_iff.1 heval
      obtain ⟨hnil, hfault'⟩ := expectEnd_eq_ok_iff.1 hend
      refine ⟨e, read.map Lexeme.token, ?_, hfault.trans hfault', hforms, hvalue, rfl⟩
      dsimp only at hlexemes
      rw [Line.tokens, List.map_cons, hl, hlexemes, List.map_eq_nil_iff.1 hnil,
        List.append_nil]

/-- The value of the expression in an operand. One that holds none counts as zero. -/
def formValue? (ctx : Expr.Context) : Option Tree → Option Expr.Value
  | none => some (.known 0)
  | some e => e.value? ctx

theorem operandForm_of_operand (hbranch : op.isBranch = true → modes.hasIndirect = false)
    (h : operand op modes line p = .ok (mode, value, rest) p')
    (hend : expectEnd rest = .ok ()) :
    line.fault = none ∧ ∃ e?, OperandForm op modes line.tokens mode e? ∧
      formValue? p.context e? = some value := by
  by_cases hnil : line.tokens = []
  · have hfault := fault_of_operand hnil h
    rw [operand_of_nil hnil hfault] at h
    cases h
    rw [hnil]
    exact ⟨hfault, none, .nothing, rfl⟩
  by_cases himmediate : line.tokens.head? = some (.punct '#')
  · obtain ⟨e, ts, htokens, hfault, hforms, hvalue, rfl⟩ :=
      exists_immediate himmediate h hend
    rw [htokens]
    exact ⟨hfault, some e, .immediate hforms, hvalue⟩
  by_cases hregister : line.fault = none ∧ IsAccumulator line.tokens
  · obtain ⟨hfault, hregister⟩ := hregister
    rw [(operand_of_accumulator hregister hfault).1] at h
    cases h
    exact ⟨hfault, none, .accumulator hregister, rfl⟩
  have hother : line.fault = none → ¬IsAccumulator line.tokens := not_and.1 hregister
  rw [operand_eq_addressOperand hnil himmediate hother] at h
  obtain ⟨hfault, e, hform, hvalue⟩ := addressForm_of_addressOperand h hend
  exact ⟨hfault, some e, operandForm_of_addressForm hbranch hform (hother hfault), hvalue⟩

private theorem exists_operand_of_operandForm
    (hbranch : op.isBranch = true → modes.hasIndirect = false) {e? : Option Tree}
    (h : OperandForm op modes line.tokens mode e?) (hfault : line.fault = none)
    (hvalue : formValue? p.context e? = some value) :
    ∃ rest p', operand op modes line p = .ok (mode, value, rest) p' ∧
      expectEnd rest = .ok () := by
  have haddress : ∀ {e}, AddressForm op modes line.tokens mode e →
    ¬IsAccumulator line.tokens →
      e.value? p.context = some value →
      ∃ rest p', operand op modes line p = .ok (mode, value, rest) p' ∧
        expectEnd rest = .ok () := by
    intro e hform hother hvalue
    obtain ⟨hne, himmediate⟩ := hform.head?
    rw [operand_eq_addressOperand hne himmediate fun _ => hother]
    exact exists_addressOperand hform hfault hvalue
  have hindirect : modes.hasIndirect = true → ¬op.isBranch = true := by
    intro hmodes hop
    rw [hbranch hop] at hmodes
    cases hmodes
  have henclosed : ∀ {ts e}, modes.hasIndirect = true → Forms .or ts e → ∀ next?,
      Encloses modes.hasIndirect (.punct '(' :: ts ++ [.punct ')']) next? e .closed := by
    intro ts e hmodes hforms _
    exact ⟨(Forms.group hforms).widen (by decide),
      by rw [hmodes, hforms.isEnclosed_group]; rfl⟩
  generalize htokens : line.tokens = tokens at h haddress
  cases h with
  | nothing =>
      cases hvalue
      exact ⟨line, p, operand_of_nil htokens hfault,
        expectEnd_eq_ok_iff.2 ⟨htokens, hfault⟩⟩
  | @immediate _ e expression =>
      obtain ⟨lexemes, fault⟩ := line
      cases hfault
      obtain ⟨l, lexemes, rfl, hl, rfl⟩ := List.map_eq_cons_iff.1 htokens
      have heval : Expr.evalOperand p.context false ⟨lexemes, none⟩ =
          .ok ⟨⟨value, .bare⟩, e.names, ⟨[], none⟩⟩ :=
        Expr.evalOperand_false_eq_ok_iff.2 ⟨e, lexemes,
          (List.append_nil _).symm, rfl, rfl, expression, hvalue, rfl, rfl⟩
      refine ⟨⟨[], none⟩, p.recordReferences e.names, ?_, rfl⟩
      rw [operand_of_hash hl]
      exact bind_eq_ok_iff.2 ⟨_, _, value_eq_ok_iff.2 ⟨_, heval, rfl, rfl⟩, rfl⟩
  | accumulator accumulator =>
      cases hvalue
      rw [← htokens] at accumulator
      exact ⟨_, p, operand_of_accumulator accumulator hfault⟩
  | relative branch target other =>
      exact haddress ⟨_, _, .bare, (List.append_nil _).symm,
        target, by rw [if_pos branch]; simp⟩ other hvalue
  | absolute noBranch address other =>
      exact haddress ⟨_, _, .bare, (List.append_nil _).symm, address,
        by rw [if_neg (by simp [noBranch])]; exact .absolute⟩ other hvalue
  | absoluteX noBranch address register =>
      exact haddress ⟨_, _, .bare, rfl, address,
        by rw [if_neg (by simp [noBranch])]; exact .absoluteX register⟩
        (not_isAccumulator (c := ',') (by simp)) hvalue
  | absoluteY noBranch address register =>
      exact haddress ⟨_, _, .bare, rfl, address,
        by rw [if_neg (by simp [noBranch])]; exact .absoluteY register⟩
        (not_isAccumulator (c := ',') (by simp)) hvalue
  | indirect hasIndirect pointer =>
      exact haddress ⟨_, _, .closed, (List.append_nil _).symm,
        henclosed hasIndirect pointer _,
        by rw [if_neg (hindirect hasIndirect)]; exact .indirect⟩
        (not_isAccumulator (c := '(') (by simp)) hvalue
  | @indirectIndexedY ts _ w hasIndirect pointer register =>
      have hsplit : .punct '(' :: ts ++ [.punct ')', .punct ',', .word w] =
          (.punct '(' :: ts ++ [.punct ')']) ++ [.punct ',', .word w] := by simp
      exact haddress ⟨_, _, .closed, hsplit, henclosed hasIndirect pointer _,
        by rw [if_neg (hindirect hasIndirect)]; exact .indirectIndexedY register⟩
        (not_isAccumulator (c := '(') (by simp)) hvalue
  | indexedIndirectX hasIndirect pointer register =>
      exact haddress ⟨_, _, .opened, rfl, ⟨hasIndirect, ⟨_, rfl, pointer⟩, by simp⟩,
        by rw [if_neg (hindirect hasIndirect)]; exact .indexedIndirectX register⟩
        (not_isAccumulator (c := '(') (by simp)) hvalue

private theorem isSome_formValue?_iff {ctx : Expr.Context} {e? : Option Tree} :
    (formValue? ctx e?).isSome ↔ ∀ e ∈ e?, e.Evaluable ctx := by
  cases e? with
  | none => simp [formValue?]
  | some e => simpa [formValue?] using Tree.isSome_value?_iff

/-! Instructions with such an operand. -/

/-- The errors that concern the encoding of an operand, not its form. -/
def ErrorKind.ofEncoding : ErrorKind → Bool
  | .unsupportedMode .. | .branchOutOfRange _ | .zeroPageRequired _ => true
  | _ => false

/-- Whatever an action fails with concerns the encoding. -/
def FailsOnEncoding {α : Type} (x : Assembling α) : Prop :=
  ∀ p kind p', x p = .error kind p' → kind.ofEncoding = true

namespace FailsOnEncoding

variable {α β : Type}

theorem pure (a : α) : FailsOnEncoding (Pure.pure a) := by
  intro _ _ _ h
  cases h

theorem get : FailsOnEncoding (MonadState.get : Assembling Pass) := by
  intro _ _ _ h
  cases h

theorem modify (f : Pass → Pass) : FailsOnEncoding (modify f : Assembling PUnit) := by
  intro _ _ _ h
  cases h

theorem throw {kind : ErrorKind} (h : kind.ofEncoding = true) :
    FailsOnEncoding (MonadExcept.throw kind : Assembling α) := by
  intro _ _ _ hthrow
  cases hthrow
  exact h

theorem bind {x : Assembling α} {f : α → Assembling β} (hx : FailsOnEncoding x)
    (hf : ∀ a, FailsOnEncoding (f a)) : FailsOnEncoding (x >>= f) := by
  intro p kind p' h
  cases hfirst : x p with
  | error e p₁ =>
      rw [bind_of_error hfirst] at h
      cases h
      exact hx p kind p' hfirst
  | ok a p₁ =>
      rw [bind_of_ok hfirst] at h
      exact hf a p₁ kind p' h

end FailsOnEncoding

private theorem failsOnEncoding_settleBranch (value : Expr.Value) :
    FailsOnEncoding (settleBranch value) := by
  refine FailsOnEncoding.get.bind fun p => ?_
  dsimp only
  split
  · exact (FailsOnEncoding.throw rfl).bind fun _ => .pure _
  · exact .pure _

private theorem failsOnEncoding_settle (modes : ModeSet) (mode : AddressingMode)
    (value : Expr.Value) :
    FailsOnEncoding (settle modes mode value) := by
  have hpointer : ∀ (mode : AddressingMode) (v : Int32), FailsOnEncoding (do
      if !inZeroPage v && (← get).round = .second then throw (.zeroPageRequired v)
      return (mode, v)) := by
    intro mode v
    refine FailsOnEncoding.get.bind fun p => ?_
    split
    · exact (FailsOnEncoding.throw rfl).bind fun _ => .pure _
    · exact .pure _
  unfold settle
  split
  · exact (failsOnEncoding_settleBranch _).bind fun _ => .pure _
  · exact .pure _
  · exact .pure _
  · exact .pure _
  · exact (FailsOnEncoding.modify _).bind fun _ => .pure _
  · exact hpointer _ _
  · exact hpointer _ _
  · exact (FailsOnEncoding.modify _).bind fun _ => .pure _

private theorem failsOnEncoding_placeEntry (op : Operation)
    (mode : AddressingMode) (v : Int32) (found : Option OpcodeEntry) :
    FailsOnEncoding (placeEntry op mode v found) := by
  cases found with
  | none => exact .throw rfl
  | some entry => exact .modify _

private theorem instruction_of_operand
    (h : operand op (opcodes.modes op) line p = .ok (mode, value, rest) p') :
    (∃ p₁, instruction op line p = .ok rest p₁) ∨
      ∃ kind p₁, instruction op line p = .error kind p₁ ∧ kind.ofEncoding = true := by
  cases hinstruction : instruction op line p with
  | ok rest' p₁ =>
      obtain ⟨_, _, _, _, _, _, _, hoperand, -⟩ := instruction_eq_ok_iff.1 hinstruction
      cases h.symm.trans hoperand
      exact .inl ⟨p₁, rfl⟩
  | error kind p₁ =>
      refine .inr ⟨kind, p₁, rfl, ?_⟩
      unfold instruction at hinstruction
      rw [bind_of_ok h] at hinstruction
      refine FailsOnEncoding.bind (.modify _) (fun _ => ?_) _ _ _ hinstruction
      refine (failsOnEncoding_settle _ _ _).bind fun settled => ?_
      exact (failsOnEncoding_placeEntry _ _ _ _).bind fun _ => .pure _

/-! Acceptance. -/

/-- The operand of an instruction is read, with nothing left after it. -/
def Accepted (op : Operation) (line : Line) (p : Pass) (mode : AddressingMode)
    (value : Expr.Value) :
    Prop :=
  ∃ rest p', operand op (opcodes.modes op) line p = .ok (mode, value, rest) p' ∧
    expectEnd rest = .ok ()

theorem accepted_iff {lexemes : List Lexeme} :
    Accepted op ⟨lexemes, none⟩ p mode value ↔
      ∃ e?, OperandForm op (opcodes.modes op) (lexemes.map Lexeme.token) mode e? ∧
        formValue? p.context e? = some value := by
  constructor
  · rintro ⟨rest, p', hoperand, hend⟩
    exact (operandForm_of_operand hasIndirect_modes_of_isBranch hoperand hend).2
  · rintro ⟨e?, hform, hvalue⟩
    exact exists_operand_of_operandForm hasIndirect_modes_of_isBranch hform rfl hvalue

/-- An operand is read to the end of its line exactly if its tokens have one of the forms,
with an expression that has a value, and the form tells the mode. What the whole
instruction may fail with then concerns its encoding. -/
theorem operand_accepted_iff (op : Operation) (lexemes : List Lexeme) (p : Pass) :
    (∀ mode, (∃ value, Accepted op ⟨lexemes, none⟩ p mode value) ↔
      ∃ e?, OperandForm op (opcodes.modes op) (lexemes.map Lexeme.token) mode e? ∧
        ∀ e ∈ e?, e.Evaluable p.context) ∧
    (∀ mode e?, OperandForm op (opcodes.modes op) (lexemes.map Lexeme.token) mode e? →
      (∀ e ∈ e?, e.Evaluable p.context) →
        (∀ mode' value, Accepted op ⟨lexemes, none⟩ p mode' value →
          mode' = mode ∧ formValue? p.context e? = some value) ∧
        ((∃ rest p', instruction op ⟨lexemes, none⟩ p = .ok rest p' ∧
          expectEnd rest = .ok ()) ∨
          ∃ kind p', instruction op ⟨lexemes, none⟩ p = .error kind p' ∧
            kind.ofEncoding = true)) ∧
    ∀ rest p', instruction op ⟨lexemes, none⟩ p = .ok rest p' → expectEnd rest = .ok () →
      ∃ mode value, Accepted op ⟨lexemes, none⟩ p mode value := by
  refine ⟨fun mode => ?_, fun mode e? hform hevaluable => ?_,
    fun rest p' hinstruction hend => ?_⟩
  · simp only [accepted_iff, ← isSome_formValue?_iff, Option.isSome_iff_exists]
    constructor
    · rintro ⟨value, e?, hform, hvalue⟩
      exact ⟨e?, hform, value, hvalue⟩
    · rintro ⟨e?, hform, value, hvalue⟩
      exact ⟨value, e?, hform, hvalue⟩
  · obtain ⟨value, hvalue⟩ :=
      Option.isSome_iff_exists.1 (isSome_formValue?_iff.2 hevaluable)
    obtain ⟨rest, p', hoperand, hend⟩ := accepted_iff.2 ⟨e?, hform, hvalue⟩
    constructor
    · rintro mode' value' ⟨rest', p₁, hoperand', -⟩
      cases hoperand.symm.trans hoperand'
      exact ⟨rfl, hvalue⟩
    · obtain ⟨p₁, hinstruction⟩ | hfails := instruction_of_operand hoperand
      · exact .inl ⟨rest, p₁, hinstruction, hend⟩
      · exact .inr hfails
  · obtain ⟨mode, value, p₁, -, -, -, -, hoperand, -⟩ :=
      instruction_eq_ok_iff.1 hinstruction
    exact ⟨mode, value, rest, p₁, hoperand, hend⟩

/-- The forms of an operand in which the name of the accumulator is not indexed. -/
def NarrowForm (op : Operation) (modes : ModeSet) (ts : List Token)
    (mode : AddressingMode) (e? : Option Tree) : Prop :=
  OperandForm op modes ts mode e? ∧ ∀ us, IsAccumulator us → ¬ us ++ [.punct ','] <+: ts

/-- A second pass in which a symbol has the name of the accumulator. -/
def namingAccumulator : Pass :=
  (Pass.initial {}).next.define "A" 5 .value

def indexedAccumulator : List Lexeme :=
  [⟨.word "A", 0, 1⟩, ⟨.punct ',', 1, 2⟩, ⟨.word "X", 2, 3⟩]

/-- A symbol with the name of the accumulator may be indexed. -/
theorem accepted_indexedAccumulator :
    namingAccumulator.round = .second ∧
    (Tree.word "A").Evaluable namingAccumulator.context ∧
      Accepted .LDA ⟨indexedAccumulator, none⟩ namingAccumulator .absoluteX (.known 5) ∧
      ¬((∃ mode value, Accepted .LDA ⟨indexedAccumulator,
        none⟩ namingAccumulator mode value) ↔
        ∃ mode e?, NarrowForm .LDA (opcodes.modes .LDA)
          (indexedAccumulator.map Lexeme.token) mode
          e?) := by
  have hvalue : (Tree.word "A").value? namingAccumulator.context = some (.known 5) := by
    decide +kernel
  have hforms : Forms .or [.word "A"] (.word "A") := (Forms.word "A").widen (by decide)
  have haccepted : Accepted .LDA ⟨indexedAccumulator, none⟩ namingAccumulator .absoluteX
    (.known 5) :=
    accepted_iff.2 ⟨some (.word "A"),
      .absoluteX (w := "X") rfl ⟨hforms, Bool.and_false _⟩ (by decide +kernel), hvalue⟩
  refine ⟨rfl, Tree.isSome_value?_iff.1 (by rw [hvalue]; rfl), haccepted, fun hiff => ?_⟩
  obtain ⟨mode, e?, -, hnarrow⟩ := hiff.1 ⟨_, _, haccepted⟩
  exact hnarrow [.word "A"] ⟨"A", rfl, by decide +kernel⟩ ⟨[.word "X"], rfl⟩

end Breadboard.Assembly
