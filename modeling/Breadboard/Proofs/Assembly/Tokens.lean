import Breadboard.Assembly.Statement

namespace Breadboard.Assembly

open Read

variable {line rest : Line}

theorem peek?_eq_ok {t? : Option Token} (h : peek? line = .ok t?) :
    t? = line.tokens.head? := by
  obtain ⟨lexemes, fault⟩ := line
  cases lexemes with
  | nil =>
      cases fault with
      | none =>
          cases h
          rfl
      | some e => cases h
  | cons l lexemes =>
      cases h
      rfl

theorem next?_eq_ok {t : Token} (h : next? line = .ok (some (t, rest))) :
    line.tokens = t :: rest.tokens ∧ line.fault = rest.fault := by
  obtain ⟨lexemes, fault⟩ := line
  cases lexemes with
  | nil => cases fault <;> cases h
  | cons l lexemes =>
      cases h
      exact ⟨rfl, rfl⟩

theorem next?_eq_ok_none (h : next? line = .ok none) : line.tokens = [] := by
  obtain ⟨lexemes, fault⟩ := line
  cases lexemes with
  | nil => rfl
  | cons l lexemes => cases h

theorem tokens_skip {t : Token} (h : line.tokens.head? = some t) :
    line.tokens = t :: (skip line).tokens := by
  obtain ⟨lexemes, fault⟩ := line
  cases lexemes with
  | nil => cases h
  | cons l lexemes =>
      cases h
      rfl

theorem tokens_eq_append {read : List Lexeme} (h : line.lexemes = read ++ rest.lexemes) :
    line.tokens = read.map Lexeme.token ++ rest.tokens := by
  rw [Line.tokens, h, List.map_append, Line.tokens]

theorem expectEnd_eq_ok_iff : expectEnd line = .ok () ↔
    line.tokens = [] ∧ line.fault = none := by
  obtain ⟨lexemes, fault⟩ := line
  cases lexemes with
  | nil =>
      cases fault with
      | none => exact iff_of_true rfl ⟨rfl, rfl⟩
      | some e => exact iff_of_false (fun h => by cases h) (fun h => by cases h.2)
  | cons l lexemes => exact iff_of_false (fun h => by cases h) (fun h => by cases h.1)

theorem comma?_eq_ok {rest? : Option Line} (h : comma? line = .ok rest?) :
    rest? = none ∨ ∃ rest, rest? = some rest ∧ line.tokens = .punct ',' :: rest.tokens ∧
      line.fault = rest.fault := by
  unfold comma? at h
  cases hpeek : peek? line with
  | error e =>
      rw [hpeek] at h
      cases h
  | ok t? =>
      rw [hpeek] at h
      dsimp only [bind, Except.bind] at h
      split at h
      · cases h
        exact .inr ⟨_, rfl, tokens_skip (peek?_eq_ok hpeek).symm, rfl⟩
      · cases h
        exact .inl rfl

end Breadboard.Assembly
