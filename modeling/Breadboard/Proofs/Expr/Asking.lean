import Breadboard.Expr.Evaluator

namespace Breadboard

private theorem Word.eq_of_classify {word name : String}
    (h : Word.classify word = .ok (.symbol name)) :
    name = word := by
  have hnumber : ∀ {read : Except LexError Int32},
    read.map Word.number ≠ .ok (.symbol name) := by
    intro read hread
    cases read <;> cases hread
  unfold Word.classify Word.ofChars at h
  split at h
  · exact absurd h hnumber
  · exact absurd h hnumber
  · rename_i hchars
    split at h
    · exact absurd h hnumber
    · cases h
      rw [← hchars, String.ofList_toList]
  · rename_i hchars
    cases h
    rw [← String.ofList_toList (s := word), hchars]

namespace Expr

def Among (tokens : List Token) (names : List String) : Prop :=
  ∀ name ∈ names, Token.word name ∈ tokens

variable {ctx : Context} {s : State} {tokens : List Token} {t : Token} {v : Value}

namespace State

def askedBy (asked : List String) : Except Failure Move → List String
  | .ok (.read s) => s.asked
  | .ok .stop => asked
  | .error f => f.asked

private theorem among_readWord {word : String} (h : Among tokens s.asked)
    (hmem : .word word ∈ tokens) :
    Among tokens (askedBy s.asked ((s.readWord ctx word).map .read)) := by
  unfold readWord
  split
  · exact h
  · exact h
  · rename_i name hword
    obtain rfl := Word.eq_of_classify hword
    have hasked : Among tokens (s.asked ++ [name]) := by
      intro other hother
      rcases List.mem_append.1 hother with hother | hother
      · exact h other hother
      · rwa [List.mem_singleton.1 hother]
    dsimp only
    split
    · exact hasked
    · split <;> exact hasked

private theorem askedBy_readPunct (c : Char) :
    askedBy s.asked ((s.readPunct ctx c).map .read) = s.asked := by
  unfold readPunct
  split <;> rfl

private theorem among_readOperand (h : Among tokens s.asked) (hmem : t ∈ tokens) :
    Among tokens (askedBy s.asked ((s.readOperand ctx t).map .read)) := by
  unfold readOperand
  split
  · exact among_readWord h hmem
  · exact h
  · rw [askedBy_readPunct]
    exact h
  · exact h

private theorem askedBy_readAfter : askedBy s.asked (s.readAfter v t) = s.asked := by
  unfold readAfter
  split
  · dsimp only
    split <;> rfl
  · split
    · rfl
    · unfold close
      split <;> rfl
  · split
    · rfl
    · unfold readBinary
      split <;> rfl

private theorem among_read (ctx : Context) (h : Among tokens s.asked)
    (hmem : t ∈ tokens) :
    Among tokens (askedBy s.asked (s.read ctx t)) := by
  unfold read
  split
  · exact among_readOperand h hmem
  · rw [askedBy_readAfter]
    exact h

end State

/-- Whatever comes of an evaluation of some lexemes, it asks for words among the tokens,
and it leaves an end of the lexemes. -/
def Asks (tokens : List Token) (lexemes : List Lexeme) : Except Failure Success → Prop
  | .ok r => Among tokens r.asked ∧ r.rest.lexemes <:+ lexemes
  | .error f => Among tokens f.asked

private theorem asks_finish (rest : Line) (h : Among tokens s.asked) :
    Asks tokens rest.lexemes (s.finish rest) := by
  unfold State.finish
  split
  · exact h
  · split
    · exact h
    · exact ⟨h, List.suffix_rfl⟩

private theorem asks_run {fault : Option Fault} {lexemes : List Lexeme}
    (h : Among tokens s.asked) (hmem : ∀ l ∈ lexemes, l.token ∈ tokens) :
    Asks tokens lexemes (s.run ctx fault lexemes) := by
  induction lexemes generalizing s with
  | nil =>
      unfold State.run
      cases fault with
      | some e => exact h
      | none => exact asks_finish ⟨[], none⟩ h
  | cons l rest ih =>
      have hread := State.among_read ctx h (hmem l List.mem_cons_self)
      unfold State.run
      split
      · rename_i hfails
        rw [hfails] at hread
        exact hread
      · rename_i s' hreads
        rw [hreads] at hread
        have hrest := ih hread fun l' hl' => hmem l' (List.mem_cons_of_mem _ hl')
        generalize s'.run ctx fault rest = outcome at hrest ⊢
        cases outcome with
        | ok r => exact ⟨hrest.1, hrest.2.trans (List.suffix_cons l rest)⟩
        | error f => exact hrest
      · exact asks_finish ⟨l :: rest, fault⟩ h

theorem asks_evalOperand (ctx : Context) (indirect : Bool) (line : Line) :
    Asks line.tokens line.lexemes (evalOperand ctx indirect line) :=
  asks_run (fun _ hname => by cases hname) fun _ hmem => List.mem_map_of_mem hmem

end Expr

end Breadboard
