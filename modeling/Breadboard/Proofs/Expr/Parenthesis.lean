import Breadboard.Proofs.Expr.Enclosure

namespace Breadboard.Expr

/-- Each parenthesis among the tokens has its match among them: nowhere are more closed
than were opened before, and in the end all are closed. -/
structure Balanced (ts : List Token) : Prop where
  count_le : ∀ us, us <+: ts → us.count (.punct ')') ≤ us.count (.punct '(')
  count_eq : ts.count (.punct ')') = ts.count (.punct '(')

/-- The tokens begin with a parenthesis, which encloses `inner` and is
closed before `after`. -/
structure Matched (ts inner after : List Token) : Prop where
  split : ts = .punct '(' :: inner ++ .punct ')' :: after
  balanced : Balanced inner

namespace Balanced

variable {ts us : List Token} {t : Token}

theorem append (h : Balanced ts) (h' : Balanced us) : Balanced (ts ++ us) := by
  refine ⟨fun vs hvs => ?_,
    by rw [List.count_append, List.count_append, h.count_eq, h'.count_eq]⟩
  obtain hts | ⟨ws, rfl⟩ := List.prefix_or_prefix_of_prefix hvs (List.prefix_append ts us)
  · exact h.count_le vs hts
  · have hws := h'.count_le ws ((List.prefix_append_right_inj ts).1 hvs)
    rw [List.count_append, List.count_append, h.count_eq]
    exact Nat.add_le_add_left hws _

theorem plain (hopen : t ≠ .punct '(') (hclose : t ≠ .punct ')') : Balanced [t] := by
  have hnone : [t].count (.punct ')') = 0 := by simp [hclose]
  refine ⟨fun us hus => ?_, hnone.trans (by simp [hopen])⟩
  have hle := hus.count_le (.punct ')')
  omega

theorem group (h : Balanced ts) : Balanced (.punct '(' :: ts ++ [.punct ')']) := by
  have hcounts : (Token.punct '(' :: ts ++ [Token.punct ')']).count (Token.punct ')') =
      (Token.punct '(' :: ts ++ [Token.punct ')']).count (Token.punct '(') := by
    simp [h.count_eq]
  refine ⟨fun us hus => ?_, hcounts⟩
  obtain rfl | hus := List.prefix_concat_iff.1 hus
  · exact hcounts.le
  · obtain rfl | ⟨vs, rfl, hvs⟩ := List.prefix_cons_iff.1 hus
    · exact Nat.le_refl 0
    · have hle := h.count_le vs hvs
      simp
      omega

private theorem not_append_closing (h : Balanced (us ++ .punct ')' :: ts)) :
    ¬ Balanced us := by
  intro hus
  refine absurd (h.count_le (us ++ [.punct ')']) (by simp)) (Nat.not_le.2 ?_)
  simp [hus.count_eq]

private theorem not_cons_opening (h : Balanced ts) : ¬ Balanced (.punct '(' :: ts) := by
  intro hts
  have heq := hts.count_eq
  simp [h.count_eq] at heq

end Balanced

theorem Forms.balanced {p : Phrase} {ts : List Token} {e : Tree} (h : Forms p ts e) :
    Balanced ts := by
  induction h with
  | word w => exact .plain (by simp) (by simp)
  | char c => exact .plain (by simp) (by simp)
  | here => exact .plain (by decide) (by decide)
  | group _ ih => exact ih.group
  | unary sign _ ih =>
      obtain ⟨hopen, hclose⟩ := ne_paren_of_mem_signs sign
      exact (Balanced.plain hopen hclose).append ih
  | plus _ ih => exact (Balanced.plain (by decide) (by decide)).append ih
  | binary operator _ _ ihl ihr =>
      obtain ⟨hopen, hclose⟩ := Phrase.ne_paren_of_mem operator
      exact ihl.append ((Balanced.plain hopen hclose).append ihr)
  | part _ ih => exact ih

private theorem closesLast_append_of_count_le {ts : List Token} {depth : Nat}
    (h : ∀ us, us <+: ts → us.count (.punct ')') ≤ depth + us.count (.punct '('))
    (us : List Token) :
    closesLast depth (ts ++ us) =
      closesLast (depth + ts.count (.punct '(') - ts.count (.punct ')')) us := by
  induction ts generalizing depth with
  | nil => rfl
  | cons t ts ih =>
      have htail : ∀ us, us <+: ts → (t :: us).count (.punct ')') ≤
          depth + (t :: us).count (.punct '(') :=
        fun us hus => h (t :: us) (List.cons_prefix_cons.2 ⟨rfl, hus⟩)
      by_cases hopen : t = .punct '('
      · subst hopen
        rw [List.cons_append, closesLast, ih fun us hus => ?_]
        · congr 1
          simp
          omega
        · have hle := htail us hus
          simp at hle
          omega
      · by_cases hclose : t = .punct ')'
        · subst hclose
          have hone := h [.punct ')'] (by simp)
          obtain ⟨depth, rfl⟩ : ∃ n, depth = n + 1 :=
            Nat.exists_eq_add_of_le' (by simpa using hone)
          rw [List.cons_append, closesLast, ih fun us hus => ?_]
          · congr 1
            simp
            omega
          · have hle := htail us hus
            simp at hle
            omega
        · rw [List.cons_append, closesLast_cons hopen hclose, ih fun us hus => ?_]
          · simp [hopen, hclose]
          · simpa [hopen, hclose] using htail us hus

theorem Matched.isEnclosed {ts inner : List Token} (h : Matched ts inner []) :
    isEnclosed ts = true := by
  have hcount : ∀ us, us <+: inner → us.count (.punct ')') ≤ 0 + us.count (.punct '(') :=
    fun us hus => (h.balanced.count_le us hus).trans (Nat.le_add_left _ _)
  rw [h.split, List.cons_append, Expr.isEnclosed, closesLast_append_of_count_le hcount,
    h.balanced.count_eq, Nat.zero_add, Nat.sub_self]
  rfl

private theorem Forms.isEnclosed_iff_exists_matched {p : Phrase}
    {ts : List Token} {e : Tree} (h : Forms p ts e) : isEnclosed ts = true ↔
    ∃ inner, Matched ts inner [] := by
  refine ⟨fun henclosed => ?_, fun ⟨inner, hmatched⟩ => hmatched.isEnclosed⟩
  obtain ⟨inner, hsplit, hinner⟩ := h.isEnclosed_iff.1 henclosed
  exact ⟨inner, hsplit, hinner.balanced⟩

def IsExpression (ts : List Token) : Prop :=
  ∃ e, Forms .or ts e

def Denotes (ctx : Context) (ts : List Token) (v : Value) : Prop :=
  ∃ e, Forms .or ts e ∧ e.value? ctx = some v

/-- What an operand tells of the tokens that were read for it, and of the
token that follows them. -/
structure Tells (ctx : Context) (ts : List Token) (next? : Option Token)
    (operand : Operand) : Prop where
  closed_iff : operand.enclosure = .closed ↔
    IsExpression ts ∧ ∃ inner, Matched ts inner []
  opened_iff : operand.enclosure = .opened ↔
    (∃ inner, ts = .punct '(' :: inner ∧ IsExpression inner) ∧
      (¬ ∃ inner after, Matched ts inner after) ∧
      ∀ t, next? = some t → t ≠ .punct ')' ∧ Binary.ofToken? t = none
  bare_iff : operand.enclosure = .bare ↔ IsExpression ts ∧ ¬ ∃ inner, Matched ts inner []
  denotes_iff : operand.enclosure ≠ .opened → ∀ v, Denotes ctx ts v ↔ v = operand.value
  denotes_iff_of_opened : operand.enclosure = .opened → ∀ v,
    (∃ inner, ts = .punct '(' :: inner ∧ Denotes ctx inner v) ↔ v = operand.value

section

variable {ctx : Context} {line rest : Line} {ts inner : List Token} {t : Token} {e : Tree}
  {next? : Option Token} {enclosure : Enclosure} {r : Success}

theorem IsExpression.balanced (h : IsExpression ts) : Balanced ts := by
  obtain ⟨e, hforms⟩ := h
  exact hforms.balanced

private theorem not_isExpression_cons_opening (h : IsExpression inner) :
    ¬ IsExpression (.punct '(' :: inner) :=
  fun hwhole => h.balanced.not_cons_opening hwhole.balanced

private theorem not_matched_cons_opening (h : IsExpression inner)
    (inner' after : List Token) :
    ¬ Matched (.punct '(' :: inner) inner' after := by
  rintro ⟨hsplit, hbalanced⟩
  have hinner : inner = inner' ++ .punct ')' :: after := List.tail_eq_of_cons_eq hsplit
  have h := h.balanced
  rw [hinner] at h
  exact h.not_append_closing hbalanced

private theorem ofToken?_of_endsBefore (h : EndsBefore rest)
    (hnext : rest.tokens.head? = some t) :
    Binary.ofToken? t = none := by
  obtain ⟨lexemes, fault⟩ := rest
  cases lexemes with
  | nil => cases hnext
  | cons l lexemes =>
      obtain rfl : l.token = t := Option.some.inj hnext
      rw [Option.eq_none_iff_forall_ne_some]
      intro op hop
      obtain ⟨p, hmem⟩ := Binary.ofToken?_eq_some_iff.1 hop
      exact h p op hmem

private theorem Encloses.not_exists_matched (h : Encloses true ts next? e .bare) :
    ¬ ∃ inner, Matched ts inner [] := by
  intro hmatched
  obtain ⟨hforms, hnot⟩ := h
  have henclosed := hforms.isEnclosed_iff_exists_matched.2 hmatched
  simp [henclosed] at hnot

private theorem Encloses.not_isExpression (h : Encloses true ts next? e .opened) :
    ¬ IsExpression ts := by
  obtain ⟨-, ⟨inner, rfl, hforms⟩, -⟩ := h
  exact not_isExpression_cons_opening ⟨e, hforms⟩

theorem Encloses.closed_iff (h : Encloses true ts next? e enclosure) :
    enclosure = .closed ↔ IsExpression ts ∧ ∃ inner, Matched ts inner [] := by
  cases enclosure with
  | bare => exact iff_of_false (by decide) fun hboth => h.not_exists_matched hboth.2
  | closed =>
      obtain ⟨hforms, henclosed⟩ := h
      rw [Bool.true_and] at henclosed
      exact iff_of_true rfl ⟨⟨e, hforms⟩,
        hforms.isEnclosed_iff_exists_matched.1 henclosed⟩
  | opened => exact iff_of_false (by decide) fun hboth => h.not_isExpression hboth.1

theorem Encloses.bare_iff (h : Encloses true ts next? e enclosure) :
    enclosure = .bare ↔ IsExpression ts ∧ ¬ ∃ inner, Matched ts inner [] := by
  cases enclosure with
  | bare => exact iff_of_true rfl ⟨⟨e, h.1⟩, h.not_exists_matched⟩
  | closed => exact iff_of_false (by decide) fun hboth => hboth.2 (h.closed_iff.1 rfl).2
  | opened => exact iff_of_false (by decide) fun hboth => h.not_isExpression hboth.1

theorem Encloses.opened_iff (h : Encloses true ts next? e enclosure)
    (hends : ∀ t, next? = some t → Binary.ofToken? t = none) :
    enclosure = .opened ↔
      (∃ inner, ts = .punct '(' :: inner ∧ IsExpression inner) ∧
        (¬ ∃ inner after, Matched ts inner after) ∧
        ∀ t, next? = some t → t ≠ .punct ')' ∧ Binary.ofToken? t = none := by
  have hwhole : IsExpression ts → ¬ ∃ inner, ts = .punct '(' :: inner ∧
    IsExpression inner := by
    rintro hts ⟨inner, rfl, hinner⟩
    exact not_isExpression_cons_opening hinner hts
  cases enclosure with
  | bare => exact iff_of_false (by decide) fun ⟨hopened, _⟩ => hwhole ⟨e, h.1⟩ hopened
  | closed => exact iff_of_false (by decide) fun ⟨hopened, _⟩ => hwhole ⟨e, h.1⟩ hopened
  | opened =>
      obtain ⟨-, ⟨inner, rfl, hforms⟩, hnext⟩ := h
      refine iff_of_true rfl ⟨⟨inner, rfl, e, hforms⟩, ?_, fun t ht => ⟨?_, hends t ht⟩⟩
      · rintro ⟨inner', after, hmatched⟩
        exact not_matched_cons_opening ⟨e, hforms⟩ inner' after hmatched
      · rintro rfl
        exact hnext ht

private theorem Encloses.of_forms (h : Encloses true ts next? e enclosure)
    (hwhole : enclosure ≠ .opened) {e' : Tree} (hforms : Forms .or ts e') :
    Encloses true ts next? e' enclosure := by
  cases enclosure with
  | bare => exact ⟨hforms, h.2⟩
  | closed => exact ⟨hforms, h.2⟩
  | opened => contradiction

private theorem eq_value_of_encloses {read : List Lexeme} {v : Value}
    (h : evalOperand ctx true line = .ok r)
    (hlexemes : line.lexemes = read ++ r.rest.lexemes)
    (hencloses :
      Encloses true (read.map Lexeme.token) r.rest.tokens.head? e r.operand.enclosure)
    (hvalue : e.value? ctx = some v) : v = r.operand.value := by
  obtain ⟨-, -, -, hfault, hends, -⟩ := evalOperand_eq_ok_iff.1 h
  have hrun : evalOperand ctx true line =
    .ok ⟨⟨v, r.operand.enclosure⟩, e.names, r.rest⟩ :=
    evalOperand_eq_ok_iff.2 ⟨e, read, hlexemes, hfault, hends, hencloses, hvalue, rfl⟩
  rw [h] at hrun
  exact congrArg (fun r : Success => r.operand.value) (Except.ok.inj hrun).symm

/-- An operand tells of its tokens whether they are an expression, and how its first
parenthesis encloses it, and has the only value that the expression can have. -/
theorem exists_tells_of_evalOperand (h : evalOperand ctx true line = .ok r) :
    ∃ read, line.lexemes = read ++ r.rest.lexemes ∧
      Tells ctx (read.map Lexeme.token) r.rest.tokens.head? r.operand := by
  obtain ⟨e, read, hlexemes, -, hends, hencloses, hvalue, -⟩ := evalOperand_eq_ok_iff.1 h
  refine ⟨read, hlexemes, {
    closed_iff := hencloses.closed_iff
    opened_iff := hencloses.opened_iff fun t ht => ofToken?_of_endsBefore hends ht
    bare_iff := hencloses.bare_iff
    denotes_iff := fun hwhole v => ⟨?_, ?_⟩
    denotes_iff_of_opened := fun hopened v => ⟨?_, ?_⟩ }⟩
  · rintro ⟨e', hforms, hvalue'⟩
    exact eq_value_of_encloses h hlexemes (hencloses.of_forms hwhole hforms) hvalue'
  · rintro rfl
    cases henclosure : r.operand.enclosure with
    | opened => contradiction
    | _ =>
        rw [henclosure] at hencloses
        exact ⟨e, hencloses.1, hvalue⟩
  · rintro ⟨inner, hts, e', hforms, hvalue'⟩
    rw [hopened] at hencloses
    have hencloses' : Encloses true (read.map Lexeme.token) r.rest.tokens.head?
      e' .opened :=
      ⟨rfl, ⟨inner, hts, hforms⟩, hencloses.2.2⟩
    exact eq_value_of_encloses h hlexemes (hopened ▸ hencloses') hvalue'
  · rintro rfl
    rw [hopened] at hencloses
    obtain ⟨-, ⟨inner, hts, hforms⟩, -⟩ := hencloses
    exact ⟨inner, hts, e, hforms, hvalue⟩

end

/-- The parentheses of a line are told apart: an operand that may be indirect
tells of the one that it begins with, and any other is an expression in which
parentheses only group. -/
structure Discerned (ctx : Context) (line : Line) : Prop where
  tells : ∀ r, evalOperand ctx true line = .ok r →
    ∃ read, line.lexemes = read ++ r.rest.lexemes ∧
    Tells ctx (read.map Lexeme.token) r.rest.tokens.head? r.operand
  bare : ∀ r, evalOperand ctx false line = .ok r → r.operand.enclosure = .bare
  eval_eq : evalOperand ctx false line = eval ctx line

theorem discerned_evalOperand (ctx : Context) (line : Line) : Discerned ctx line where
  tells := fun _ h => exists_tells_of_evalOperand h
  bare := fun r h => by
    obtain ⟨e, read, -, -, -, hencloses, -, -⟩ := evalOperand_eq_ok_iff.1 h
    cases henclosure : r.operand.enclosure with
    | bare => rfl
    | closed =>
        rw [henclosure] at hencloses
        exact absurd hencloses.2 (by simp)
    | opened =>
        rw [henclosure] at hencloses
        exact absurd hencloses.1 (by simp)
  eval_eq := rfl

/-- Of two parentheses the inner one is closed, and the outer one is left for the
comma. -/
example :
    (evalOperand ⟨0, fun _ => none, true⟩ true (Line.ofString "((1),x)")).toOption.map
      (·.operand) = some ⟨.known 1, .opened⟩ := by
  decide +kernel

end Breadboard.Expr
