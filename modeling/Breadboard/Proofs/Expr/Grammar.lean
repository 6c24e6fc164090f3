import Breadboard.Expr.Evaluator
import Breadboard.Proofs.Expr.Arithmetic

namespace Breadboard.Expr

/-- An expression without its parentheses and its plus signs. -/
inductive Tree
  | word (text : String)
  | char (code : UInt8)
  | here
  | unary (op : Unary) (e : Tree)
  | binary (op : Binary) (l r : Tree)
deriving DecidableEq, Repr, Inhabited

/-- The layers of the grammar. -/
inductive Phrase
  | or
  | and
  | shift
  | sum
  | product
  | unary
  | atom
deriving DecidableEq, Repr, Inhabited

namespace Phrase

def part : Phrase → Phrase
  | .or => .and
  | .and => .shift
  | .shift => .sum
  | .sum => .product
  | .product => .unary
  | .unary | .atom => .atom

def operators : Phrase → List (Token × Binary)
  | .or => [(.punct '|', .or)]
  | .and => [(.punct '&', .and)]
  | .shift => [(.shiftLeft, .shiftLeft), (.shiftRight, .shiftRight)]
  | .sum => [(.punct '+', .add), (.punct '-', .sub)]
  | .product => [(.punct '*', .mul), (.punct '/', .div)]
  | .unary | .atom => []

def rank : Phrase → Nat
  | .or => 1
  | .and => 2
  | .shift => 3
  | .sum => 4
  | .product => 5
  | .unary => 6
  | .atom => 7

end Phrase

/-- The unary operators with the tokens that spell them. A plus sign stands for none. -/
def signs : List (Token × Unary) :=
  [(.punct '<', .low), (.punct '>', .high), (.punct '-', .negate)]

/-- The tokens of a phrase, and its tree. Operators of one layer associate to the left. -/
inductive Forms : Phrase → List Token → Tree → Prop
  | word (w : String) : Forms .atom [.word w] (.word w)
  | char (c : UInt8) : Forms .atom [.char c] (.char c)
  | here : Forms .atom [.punct '*'] .here
  | group {ts : List Token} {e : Tree} (inner : Forms .or ts e) :
      Forms .atom (.punct '(' :: ts ++ [.punct ')']) e
  | unary {ts : List Token} {e : Tree} {t : Token} {op : Unary}
      (sign : (t, op) ∈ signs) (operand : Forms .unary ts e) :
      Forms .unary (t :: ts) (.unary op e)
  | plus {ts : List Token} {e : Tree} (operand : Forms .unary ts e) :
      Forms .unary (.punct '+' :: ts) e
  | binary {p : Phrase} {ts us : List Token} {l r : Tree} {t : Token} {op : Binary}
      (operator : (t, op) ∈ p.operators) (left : Forms p ts l)
        (right : Forms p.part us r) :
      Forms p (ts ++ t :: us) (.binary op l r)
  | part {p : Phrase} {ts : List Token} {e : Tree} (only : Forms p.part ts e) :
    Forms p ts e

/-- The value of a name or a numeral. A malformed numeral has none, and neither has a name
that is not known where all have to be. -/
def wordValue? (ctx : Context) (w : String) : Option Value :=
  match Word.classify w with
  | .error _ => none
  | .ok (.number n) => some (.known n)
  | .ok (.symbol name) =>
      match ctx.resolve name with
      | some v => some (.known v)
      | none => if ctx.lenient then some .undefined else none

def Unary.onValue (op : Unary) : Value → Value
  | .known v => .known (.ofInt (op.onInt v.toInt))
  | .undefined => .undefined

/-- What a binary operator makes of two values. One that is undefined makes
the result undefined. -/
def Binary.onValues? (op : Binary) : Value → Value → Option Value
  | .known l, .known r => (op.onWords? l r).map .known
  | _, _ => some .undefined

namespace Tree

/-- The value of an expression. There is none if a part has none or a known
value is divided by zero. -/
def value? (ctx : Context) : Tree → Option Value
  | .word w => wordValue? ctx w
  | .char c => some (.known (.ofInt c.toNat))
  | .here => some (.known (.ofInt ctx.here.toNat))
  | .unary op e => (e.value? ctx).map op.onValue
  | .binary op l r => do op.onValues? (← l.value? ctx) (← r.value? ctx)

def names : Tree → List String
  | .word w =>
      match Word.classify w with
      | .ok (.symbol name) => [name]
      | _ => []
  | .char _ | .here => []
  | .unary _ e => e.names
  | .binary _ l r => l.names ++ r.names

end Tree

/-- Whether an expression has a value: its symbols are defined as far as they have to be,
its numerals are well formed, and no known value is divided by zero. -/
def Tree.Evaluable (ctx : Context) : Tree → Prop
  | .word w => (wordValue? ctx w).isSome
  | .char _ | .here => True
  | .unary _ e => e.Evaluable ctx
  | .binary op l r => l.Evaluable ctx ∧ r.Evaluable ctx ∧
      (op = .div → ∀ v, l.value? ctx = some (.known v) → r.value? ctx ≠ some (.known 0))

/-- Whether an expression ends before what is left of a line: nothing is left, or a token
that is no binary operator. -/
def EndsBefore (rest : Line) : Prop :=
  match rest.lexemes with
  | [] => rest.fault = none
  | l :: _ => ∀ p op, (l.token, op) ∉ Phrase.operators p

private theorem Binary.onValues?_eq_none_iff {op : Binary} {l r : Value} :
    op.onValues? l r = none ↔ op = .div ∧ (∃ v, l = .known v) ∧ r = .known 0 := by
  cases l with
  | undefined => simp [onValues?]
  | known l =>
      cases r with
      | undefined => simp [onValues?]
      | known r =>
          have hzero : r.toInt = 0 ↔ r = 0 := Int32.toInt_inj (y := 0)
          cases op <;> simp [onValues?, onWords?, hzero]

theorem Tree.isSome_value?_iff {ctx : Context} {e : Tree} :
    (e.value? ctx).isSome ↔ e.Evaluable ctx := by
  induction e with
  | word w => exact Iff.rfl
  | char _ => exact iff_of_true rfl trivial
  | here => exact iff_of_true rfl trivial
  | unary op e ih => rw [value?, Option.isSome_map, ih, Evaluable]
  | binary op l r ihl ihr =>
      rw [value?, Evaluable, ← ihl, ← ihr]
      cases hl : l.value? ctx with
      | none => simp
      | some a =>
          cases hr : r.value? ctx with
          | none => simp
          | some b =>
              have hnone : op.onValues? a b = none ↔
                op = .div ∧ (∃ v, a = .known v) ∧ b = .known 0 :=
                Binary.onValues?_eq_none_iff
              simp only [Option.bind_eq_bind, Option.bind_some,
                Option.isSome_some, true_and]
              rw [Option.isSome_iff_ne_none, ne_eq, hnone]
              simp only [Option.some.injEq]
              grind

theorem Tree.exists_known_of_value? {ctx : Context}
    (hstrict : ctx.lenient = false) {e : Tree} {v : Value} (h : e.value? ctx = some v) :
    ∃ w, v = .known w := by
  induction e generalizing v with
  | word w =>
      rw [value?, wordValue?] at h
      split at h
      · cases h
      · cases h
        exact ⟨_, rfl⟩
      · split at h
        · cases h
          exact ⟨_, rfl⟩
        · rw [hstrict] at h
          cases h
  | char _ =>
      cases h
      exact ⟨_, rfl⟩
  | here =>
      cases h
      exact ⟨_, rfl⟩
  | unary op e ih =>
      obtain ⟨a, ha, rfl⟩ := Option.map_eq_some_iff.1 h
      obtain ⟨w, rfl⟩ := ih ha
      exact ⟨_, rfl⟩
  | binary op l r ihl ihr =>
      obtain ⟨a, ha, h⟩ := Option.bind_eq_some_iff.1 h
      obtain ⟨b, hb, h⟩ := Option.bind_eq_some_iff.1 h
      obtain ⟨v, rfl⟩ := ihl ha
      obtain ⟨w, rfl⟩ := ihr hb
      obtain ⟨u, -, rfl⟩ := Option.map_eq_some_iff.1 h
      exact ⟨u, rfl⟩

namespace Phrase

theorem rank_part (p : Phrase) (h : p ≠ .atom) : p.part.rank = p.rank + 1 := by
  cases p <;> first | rfl | contradiction

theorem rank_le_rank_part (p : Phrase) : p.rank ≤ p.part.rank := by
  cases p <;> decide

private theorem rank_le (p : Phrase) : p.rank ≤ Phrase.atom.rank := by
  cases p <;> decide

private theorem rank_injective {p q : Phrase} (h : p.rank = q.rank) : p = q := by
  revert h
  cases p <;> cases q <;> decide

theorem rank_lt_of_mem_operators {p : Phrase} {t : Token} {op : Binary}
    (h : (t, op) ∈ p.operators) : p.rank < Phrase.unary.rank := by
  cases p with
  | unary => simp [operators] at h
  | atom => simp [operators] at h
  | _ => decide

end Phrase

theorem Forms.widen {p q : Phrase} {ts : List Token} {e : Tree} (h : Forms q ts e)
    (hle : p.rank ≤ q.rank) : Forms p ts e := by
  by_cases heq : p.rank = q.rank
  · rw [Phrase.rank_injective heq]
    exact h
  · have hne : p ≠ .atom := by
      rintro rfl
      have := q.rank_le
      omega
    have hpart := Phrase.rank_part p hne
    exact .part (Forms.widen h (by omega))
termination_by q.rank - p.rank

end Breadboard.Expr
