import Breadboard.Proofs.Expr.Recognition

namespace Breadboard.Expr

open Pending

/-- Whether the outermost of `depth + 1` open parentheses is closed by
the last of the tokens. -/
def closesLast : Nat → List Token → Bool
  | _, [] => false
  | depth, .punct '(' :: ts => closesLast (depth + 1) ts
  | 0, .punct ')' :: ts => ts.isEmpty
  | depth + 1, .punct ')' :: ts => closesLast depth ts
  | depth, _ :: ts => closesLast depth ts

/-- Whether the first token is a parenthesis that the last token closes. -/
def isEnclosed : List Token → Bool
  | .punct '(' :: ts => closesLast 0 ts
  | _ => false

theorem closesLast_cons {t : Token} (hopen : t ≠ .punct '(') (hclose : t ≠ .punct ')')
    (depth : Nat) (ts : List Token) :
    closesLast depth (t :: ts) = closesLast depth ts := by
  rw [closesLast]
  · exact hopen
  · intro _ h
    exact absurd h hclose
  · intro _ _ h
    exact absurd h hclose

theorem isEnclosed_cons {t : Token} (h : t ≠ .punct '(') (ts : List Token) :
    isEnclosed (t :: ts) = false := by
  unfold isEnclosed
  split
  · rename_i heq
    cases heq
    contradiction
  · rfl

theorem Phrase.ne_paren_of_mem {p : Phrase} {t : Token} {op : Binary}
    (h : (t, op) ∈ p.operators) :
    t ≠ .punct '(' ∧ t ≠ .punct ')' := by
  cases p <;> simp [operators] at h <;> grind

theorem ne_paren_of_mem_signs {t : Token} {op : Unary} (h : (t, op) ∈ signs) :
    t ≠ .punct '(' ∧ t ≠ .punct ')' := by
  simp [signs] at h
  grind

namespace Forms

variable {p : Phrase} {ts : List Token} {e : Tree}

theorem ne_nil (h : Forms p ts e) : ts ≠ [] := by
  induction h with
  | part _ ih => exact ih
  | _ => simp

theorem head?_ne_hash (h : Forms p ts e) : ts.head? ≠ some (.punct '#') := by
  induction h with
  | unary sign _ _ =>
      simp [signs] at sign
      grind
  | binary _ left _ ihl _ =>
      rw [List.head?_append, List.head?_eq_some_head left.ne_nil]
      rwa [List.head?_eq_some_head left.ne_nil] at ihl
  | part _ ih => exact ih
  | _ => simp

private theorem closesLast_append (h : Forms p ts e) (depth : Nat) (us : List Token) :
    closesLast depth (ts ++ us) = closesLast depth us := by
  induction h generalizing depth us with
  | word w => exact closesLast_cons (by simp) (by simp) depth us
  | char c => exact closesLast_cons (by simp) (by simp) depth us
  | here => exact closesLast_cons (by decide) (by decide) depth us
  | @group ts e inner ih =>
      rw [List.append_assoc, List.cons_append, closesLast, ih]
      rfl
  | unary sign _ ih =>
      obtain ⟨hopen, hclose⟩ := ne_paren_of_mem_signs sign
      rw [List.cons_append, closesLast_cons hopen hclose, ih]
  | plus _ ih => rw [List.cons_append, closesLast_cons (by decide) (by decide), ih]
  | binary operator _ _ ihl ihr =>
      obtain ⟨hopen, hclose⟩ := Phrase.ne_paren_of_mem operator
      rw [List.append_assoc, ihl, List.cons_append, closesLast_cons hopen hclose, ihr]
  | part _ ih => exact ih depth us

private theorem isEnclosed_append (h : Forms p ts e) {us : List Token} (hus : us ≠ []) :
    isEnclosed (ts ++ us) = false := by
  induction h generalizing us with
  | word w => exact isEnclosed_cons (by simp) us
  | char c => exact isEnclosed_cons (by simp) us
  | here => exact isEnclosed_cons (by decide) us
  | @group ts e inner ih =>
      rw [List.append_assoc, List.cons_append, isEnclosed, inner.closesLast_append]
      cases us with
      | nil => contradiction
      | cons u us => rfl
  | unary sign _ _ => exact isEnclosed_cons (ne_paren_of_mem_signs sign).1 _
  | plus _ _ => exact isEnclosed_cons (by decide) _
  | binary _ _ _ ihl _ =>
      rw [List.append_assoc]
      exact ihl (by simp)
  | part _ ih => exact ih hus

/-- An operator between two groups. -/
example : isEnclosed [.punct '(', .word "a", .punct ')', .punct '+',
    .punct '(', .word "b", .punct ')'] = false := by decide

theorem isEnclosed_group (inner : Forms .or ts e) :
    isEnclosed (.punct '(' :: ts ++ [.punct ')']) = true := by
  rw [List.cons_append, isEnclosed, inner.closesLast_append]
  rfl

theorem isEnclosed_iff (h : Forms p ts e) :
    isEnclosed ts = true ↔
      ∃ inner, ts = .punct '(' :: inner ++ [.punct ')'] ∧ Forms .or inner e := by
  constructor
  · intro henclosed
    induction h with
    | word w => cases henclosed
    | char c => cases henclosed
    | here => cases henclosed
    | @group ts e inner _ => exact ⟨ts, rfl, inner⟩
    | unary sign _ _ =>
        rw [isEnclosed_cons (ne_paren_of_mem_signs sign).1] at henclosed
        contradiction
    | plus _ _ => cases henclosed
    | binary _ left _ _ _ =>
        rw [left.isEnclosed_append (by simp)] at henclosed
        contradiction
    | part _ ih => exact ih henclosed
  · rintro ⟨inner, rfl, hinner⟩
    exact hinner.isEnclosed_group

end Forms

theorem head?_of_head?_append {t : Token} {ts us : List Token} (hts : ts ≠ [])
    (h : (ts ++ us).head? = some t) : ts.head? = some t := by
  cases ts with
  | nil => contradiction
  | cons => exact h

namespace State

variable {ctx : Context} {p : Phrase} {ts : List Token} {e : Tree} {v : Value}
    {rest : Line}

private theorem readAll_of_forms_opened (h : Forms p ts e)
    (hvalue : e.value? ctx = some v) (hhead : ts.head? = some (.punct '(')) :
    ∃ extra w, Yields p extra w v ∧ depth extra = 0 ∧
      State.readAll ctx { enclosure := .opened } ts =
        some (State.answered { enclosure := if isEnclosed ts then .closed else .bare }
          extra w e.names) := by
  induction h generalizing v with
  | word w => cases hhead
  | char c => cases hhead
  | here => cases hhead
  | @group ts e inner _ =>
      have hsteady : (State.push { enclosure := .opened } .group).Steady :=
        .inr ⟨rfl, Nat.one_pos⟩
      obtain ⟨extra, w, hyields, -, hread⟩ :=
        readAll_of_forms inner (s := .push { enclosure := .opened } .group) hvalue rfl
          trivial hsteady
      refine ⟨[], v, fun _ _ _ => rfl, rfl, ?_⟩
      have hclosing :
          ((State.push { enclosure := .opened } .group).answered extra w e.names).read ctx
              (.punct ')') =
            .ok (.read (State.answered { enclosure := .closed } [] v e.names)) :=
        read_closing e.names hyields
      rw [List.cons_append, readAll_cons _ (read_eq_of_operand rfl rfl),
        readAll_append _ hread, readAll_cons [] hclosing, ← List.cons_append,
        inner.isEnclosed_group]
      rfl
  | unary sign _ _ => exact absurd (Option.some.inj hhead) (ne_paren_of_mem_signs sign).1
  | plus _ _ => exact absurd (Option.some.inj hhead) (by decide)
  | @binary p ts us l r t op operator left right ihl _ =>
      obtain ⟨a, ha, hrest⟩ := Option.bind_eq_some_iff.1 hvalue
      obtain ⟨b, hb, hop⟩ := Option.bind_eq_some_iff.1 hrest
      obtain ⟨extraₗ, wₗ, hyieldsₗ, -, hreadₗ⟩ :=
        ihl ha (head?_of_head?_append left.ne_nil hhead)
      have hlevel : op.level = p.rank := Phrase.level_of_mem operator
      have hnext : p.part.rank = p.rank + 1 := by
        apply Phrase.rank_part
        rintro rfl
        simp [Phrase.operators] at operator
      -- The operator shows that the parenthesis opens a part, so that the rest is read as
      -- any operand.
      let afterLeft : State := { enclosure := if isEnclosed ts then .closed else .bare }
      have hoperator : (afterLeft.answered extraₗ wₗ l.names).read ctx t = .ok (.read
          { afterLeft with
            position := .operand
            pending := .binary a op :: afterLeft.pending
            enclosure := if afterLeft.enclosure = .closed then .bare
              else afterLeft.enclosure
            asked := afterLeft.asked ++ l.names }) :=
        read_operator l.names operator hyieldsₗ trivial
      have hbare : (if (if isEnclosed ts then Enclosure.closed else .bare) = .closed then
          Enclosure.bare else if isEnclosed ts then .closed else .bare) = .bare := by
        cases isEnclosed ts <;> rfl
      obtain ⟨extraᵣ, wᵣ, hyieldsᵣ, hdepthᵣ, hreadᵣ⟩ :=
        readAll_of_forms right (s := { pending := [.binary a op], asked := l.names }) hb
          rfl (by simp [Fits, hlevel, hnext]) (.inl rfl)
      refine ⟨extraᵣ ++ [.binary a op], wᵣ, ?_, by simp [hdepthᵣ], ?_⟩
      · intro level hle below
        rw [List.append_assoc, List.singleton_append, hyieldsᵣ level (by omega), reduce,
          if_pos (by omega), Binary.applyValue_eq_ok_iff.2 hop]
        rfl
      · rw [readAll_append _ hreadₗ, readAll_cons _ hoperator, hbare,
          left.isEnclosed_append (by simp)]
        refine hreadᵣ.trans ?_
        simp [answered, Tree.names]
  | @part p ts e _ ih =>
      obtain ⟨extra, w, hyields, hdepth, hread⟩ := ih hvalue hhead
      exact ⟨extra, w,
        fun level hle => hyields level (Nat.le_trans hle p.rank_le_rank_part),
        hdepth, hread⟩

private theorem tokens_head?_of_stopsAt {s : State} (hposition : s.position = .after v)
    (hdepth : depth s.pending ≠ 0) (h : s.StopsAt ctx rest) :
    rest.tokens.head? ≠ some (.punct ')') := by
  obtain ⟨lexemes, fault⟩ := rest
  cases lexemes with
  | nil => simp [Line.tokens]
  | cons l lexemes =>
      intro hhead
      have hstop : s.read ctx l.token = .ok .stop := h
      have htoken : l.token = .punct ')' := Option.some.inj hhead
      rw [State.read, hposition, htoken] at hstop
      simp only [readAfter, if_neg hdepth] at hstop
      cases hclose : s.close v with
      | error e =>
          rw [hclose] at hstop
          cases hstop
      | ok s' =>
          rw [hclose] at hstop
          cases hstop

end State

/-- The expression in an operand, and how its leading parenthesis encloses it. One that is
left open is not closed by the token that follows. -/
def Encloses (indirect : Bool) (ts : List Token) (next? : Option Token) (e : Tree) :
    Enclosure → Prop
  | .bare => Forms .or ts e ∧ (indirect && isEnclosed ts) = false
  | .closed => Forms .or ts e ∧ (indirect && isEnclosed ts) = true
  | .opened => indirect = true ∧ (∃ inner, ts = .punct '(' :: inner ∧ Forms .or inner e) ∧
      next? ≠ some (.punct ')')

variable {ctx : Context} {indirect : Bool} {line rest : Line}
    {ts us : List Token} {e : Tree} {next? : Option Token} {enclosure : Enclosure}
    {r : Success}

theorem Encloses.ne_nil (h : Encloses indirect ts next? e enclosure) : ts ≠ [] := by
  cases enclosure with
  | bare => exact h.1.ne_nil
  | closed => exact h.1.ne_nil
  | opened =>
      obtain ⟨-, ⟨inner, rfl, -⟩, -⟩ := h
      exact List.cons_ne_nil _ _

private theorem head?_of_isEnclosed (h : isEnclosed ts = true) :
    ts.head? = some (.punct '(') := by
  unfold isEnclosed at h
  split at h
  · rfl
  · contradiction

private theorem encloses_iff_of_not_opens
    (hopens : (indirect && (ts ++ us).head? == some (.punct '(')) = false) :
    Encloses indirect ts next? e enclosure ↔ Forms .or ts e ∧ enclosure = .bare := by
  have hhead : indirect = true → ts.head? = some (.punct '(') → False := by
    rintro rfl hhead
    simp [List.head?_append, hhead] at hopens
  cases enclosure with
  | bare =>
      have hnot : (indirect && isEnclosed ts) = false := by
        by_contra hboth
        rw [Bool.not_eq_false, Bool.and_eq_true] at hboth
        exact hhead hboth.1 (head?_of_isEnclosed hboth.2)
      simp [Encloses, hnot]
  | closed =>
      refine iff_of_false ?_ (by simp)
      rintro ⟨-, hboth⟩
      rw [Bool.and_eq_true] at hboth
      exact hhead hboth.1 (head?_of_isEnclosed hboth.2)
  | opened =>
      refine iff_of_false ?_ (by simp)
      rintro ⟨hindirect, ⟨inner, rfl, -⟩, -⟩
      exact hhead hindirect rfl

private theorem encloses_of_run {read : List Lexeme} {s : State}
    (hhead : (read.map Lexeme.token ++ rest.tokens).head? = some (.punct '('))
    (hread : State.readAll ctx { enclosure := .opened } (read.map Lexeme.token) = some s)
    (hstops : s.StopsAt ctx rest) (hfinish : s.finish rest = .ok r) :
    ∃ e, Encloses true (read.map Lexeme.token) rest.tokens.head? e r.operand.enclosure ∧
      e.value? ctx = some r.operand.value ∧ r.asked = e.names := by
  have hstart : State.Follows ctx { enclosure := .opened } [] := ⟨[], 0, .start, rfl⟩
  obtain ⟨hkept, e, hvalue, hasked, hforms | ⟨hopened, hdepth, n, inner, hts, hforms⟩⟩ :=
    State.exists_of_finish (hstart.readAll hread) hfinish
  · rw [List.nil_append] at hforms
    obtain ⟨extra, w, -, -, hread'⟩ := State.readAll_of_forms_opened hforms hvalue
      (head?_of_head?_append hforms.ne_nil hhead)
    cases hread.symm.trans hread'
    refine ⟨e, ?_, hvalue, hasked⟩
    rw [hkept]
    cases henclosed : isEnclosed (read.map Lexeme.token) with
    | false => exact ⟨hforms, henclosed⟩
    | true => exact ⟨hforms, henclosed⟩
  · rw [List.nil_append] at hts
    cases n with
    | succ n =>
        rw [hts] at hhead
        cases hhead
    | zero =>
        obtain ⟨v, hposition⟩ := State.exists_position_of_finish hfinish
        refine ⟨e, ?_, hvalue, hasked⟩
        rw [hkept, hopened]
        exact ⟨rfl, ⟨inner, hts, hforms⟩,
          State.tokens_head?_of_stopsAt hposition (by simp [hdepth]) hstops⟩

private theorem exists_readAll_of_encloses {v : Value}
    (henclose : Encloses true ts rest.tokens.head? e enclosure)
    (hhead : ts.head? = some (.punct '(')) (hends : EndsBefore rest)
    (hvalue : e.value? ctx = some v) :
    ∃ s, State.readAll ctx { enclosure := .opened } ts = some s ∧ s.StopsAt ctx rest ∧
      s.finish rest = .ok ⟨⟨v, enclosure⟩, e.names, rest⟩ := by
  have hwhole : ∀ {enclosure : Enclosure}, Forms .or ts e →
      (if isEnclosed ts then Enclosure.closed else .bare) = enclosure →
      ∃ s, State.readAll ctx { enclosure := .opened } ts = some s ∧ s.StopsAt ctx rest ∧
        s.finish rest = .ok ⟨⟨v, enclosure⟩, e.names, rest⟩ := by
    rintro enclosure hforms rfl
    obtain ⟨extra, w, hyields, hdepth, hread⟩ :=
      State.readAll_of_forms_opened hforms hvalue hhead
    refine ⟨_, hread,
      State.stopsAt_of_endsBefore rfl (.inl (by simp [State.answered, hdepth])) hends,
      ?_⟩
    simp only [State.finish, State.answered, unwind_eq, hyields 1 (Nat.le_refl _)]
    rfl
  cases enclosure with
  | bare =>
      obtain ⟨hforms, henclosed⟩ := henclose
      exact hwhole hforms (if_neg (by simpa using henclosed))
  | closed =>
      obtain ⟨hforms, henclosed⟩ := henclose
      exact hwhole hforms (if_pos (by simpa using henclosed))
  | opened =>
      obtain ⟨-, ⟨inner, rfl, hforms⟩, hnext⟩ := henclose
      obtain ⟨extra, w, hyields, hdepth, hread⟩ := State.readAll_of_forms hforms
        (s := .push { enclosure := .opened } .group) hvalue rfl trivial (.inr ⟨rfl,
          Nat.one_pos⟩)
      refine ⟨_, (State.readAll_cons _ (State.read_eq_of_operand rfl rfl)).trans hread,
        State.stopsAt_of_endsBefore rfl
          (.inr ⟨by simp [State.answered, State.push, hdepth], rfl, hnext⟩) hends, ?_⟩
      simp only [State.finish, State.answered, State.push, unwind_eq,
        hyields 1 (Nat.le_refl _)]
      rfl

/-- An operand is evaluated exactly if the line begins with an expression that has a
value, perhaps after a parenthesis that stays open, and that nothing continues. -/
theorem evalOperand_eq_ok_iff :
    evalOperand ctx indirect line = .ok r ↔
      ∃ (e : Tree) (read : List Lexeme),
        line.lexemes = read ++ r.rest.lexemes ∧ line.fault = r.rest.fault ∧
        EndsBefore r.rest ∧
        Encloses indirect (read.map Lexeme.token) r.rest.tokens.head? e
          r.operand.enclosure ∧
        e.value? ctx = some r.operand.value ∧ r.asked = e.names := by
  cases hopens : indirect && line.tokens.head? == some (.punct '(') with
  | false =>
      have heval : evalOperand ctx indirect line = evalOperand ctx false line := by
        simp only [evalOperand, hopens]
        rfl
      rw [heval, evalOperand_false_eq_ok_iff]
      refine exists_congr fun e => exists_congr fun read =>
        and_congr_right fun hlexemes => ?_
      have htokens : line.tokens = read.map Lexeme.token ++ r.rest.tokens := by
        rw [Line.tokens, hlexemes, List.map_append, Line.tokens]
      rw [htokens] at hopens
      rw [encloses_iff_of_not_opens hopens]
      tauto
  | true =>
      obtain ⟨rfl, hhead⟩ : indirect = true ∧ line.tokens.head? = some (.punct '(') := by
        simpa using hopens
      have heval : evalOperand ctx true line =
          State.run ctx line.fault { enclosure := .opened } line.lexemes := by
        simp only [evalOperand, hopens]
        rfl
      rw [heval]
      constructor
      · intro h
        obtain ⟨read, s, hlexemes, hfault, hread, hstops, hfinish⟩ :=
          State.exists_readAll_of_run h
        rw [Line.tokens, hlexemes, List.map_append] at hhead
        obtain ⟨e, henclose, hvalue, hasked⟩ := encloses_of_run hhead hread hstops hfinish
        obtain ⟨v, hposition⟩ := State.exists_position_of_finish hfinish
        exact ⟨e, read, hlexemes, hfault.symm,
          State.endsBefore_of_stopsAt hposition hstops, henclose,
          hvalue, hasked⟩
      · rintro ⟨e, read, hlexemes, hfault, hends, henclose, hvalue, hasked⟩
        rw [Line.tokens, hlexemes, List.map_append] at hhead
        obtain ⟨s, hread, hstops, hfinish⟩ := exists_readAll_of_encloses henclose
          (head?_of_head?_append henclose.ne_nil hhead) hends hvalue
        rw [hlexemes, hfault, State.run_of_readAll r.rest.lexemes hread,
          State.run_of_stopsAt hstops, hfinish, ← hasked]

end Breadboard.Expr
