import Breadboard.Proofs.Expr.Reading

namespace Breadboard.Expr

open Pending

/-! What has been read is a part of an expression at any time. -/

def plusSigns (n : Nat) : List Token :=
  List.replicate n (.punct '+')

theorem Forms.plusSigns {ts : List Token} {e : Tree} (h : Forms .unary ts e) (n : Nat) :
    Forms .unary (plusSigns n ++ ts) e := by
  induction n with
  | zero => exact h
  | succ n ih => exact .plus ih

/-- The tokens that lead to what is pending where an operand has to come, and the names in
them. Plus signs right before that operand are not counted. -/
inductive Pends (ctx : Context) : List Pending → List Token → List String → Prop
  | start : Pends ctx [] [] []
  | group {pending : List Pending} {ts : List Token} {names : List String} (n : Nat)
      (before : Pends ctx pending ts names) :
      Pends ctx (.group :: pending) (ts ++ plusSigns n ++ [.punct '(']) names
  | unary {pending : List Pending} {ts : List Token} {names : List String} {t : Token}
    {op : Unary}
      (n : Nat) (before : Pends ctx pending ts names) (sign : (t, op) ∈ signs) :
      Pends ctx (.unary op :: pending) (ts ++ plusSigns n ++ [t]) names
  | binary {pending : List Pending} {ts us : List Token} {names : List String}
    {p : Phrase}
      {t : Token} {op : Binary} {l : Tree} {v : Value}
        (before : Pends ctx pending ts names)
      (left : Forms p us l) (value : l.value? ctx = some v)
        (operator : (t, op) ∈ p.operators)
      (fits : Fits p pending) :
      Pends ctx (.binary v op :: pending) (ts ++ us ++ [t]) (names ++ l.names)

def EndsWith (ctx : Context) (p : Phrase) (pending : List Pending) (ts : List Token)
    (names : List String) (v : Value) : Prop :=
  ∃ before us e asked, Pends ctx pending before asked ∧ Forms p us e ∧
    e.value? ctx = some v ∧
    Fits p pending ∧ ts = before ++ us ∧ names = asked ++ e.names

private theorem fits_unary (pending : List Pending) : Fits .unary pending := by
  match pending with
  | [] => trivial
  | .group :: _ => trivial
  | .unary _ :: _ => exact Nat.le_refl _
  | .binary _ op :: _ =>
      change op.level < 6
      cases op <;> decide

theorem EndsWith.widen {ctx : Context} {p q : Phrase} {pending : List Pending}
    {ts : List Token} {names : List String} {v : Value}
    (h : EndsWith ctx q pending ts names v) (hle : p.rank ≤ q.rank)
    (hfits : Fits p pending) : EndsWith ctx p pending ts names v := by
  obtain ⟨before, us, e, asked, hpends, hforms, hvalue, -, hts, hnames⟩ := h
  exact ⟨before, us, e, asked, hpends, hforms.widen hle, hvalue, hfits, hts, hnames⟩

theorem EndsWith.unary {ctx : Context} {q : Phrase} {op : Unary} {pending : List Pending}
    {ts : List Token} {names : List String} {v : Value}
    (h : EndsWith ctx q (.unary op :: pending) ts names v) :
    EndsWith ctx .unary pending ts names (op.applyValue v) := by
  obtain ⟨_, us, e, asked, hpends, hforms, hvalue, hfits, rfl, hnames⟩ := h
  cases hpends with
  | @unary _ before _ t _ n hpends sign =>
      refine ⟨before, plusSigns n ++ t :: us, .unary op e, asked, hpends,
        (Forms.unary sign (hforms.widen hfits)).plusSigns n, ?_,
        fits_unary _, by simp, hnames⟩
      rw [Tree.value?, hvalue, op.applyValue_eq_onValue]
      rfl

theorem EndsWith.binary {ctx : Context} {q : Phrase} {op : Binary}
    {pending : List Pending} {ts : List Token} {names : List String} {l r v : Value}
    (h : EndsWith ctx q (.binary l op :: pending) ts names r)
    (hop : op.applyValue l r = .ok v) :
    ∃ p : Phrase, p.rank = op.level ∧ EndsWith ctx p pending ts names v := by
  obtain ⟨_, us, e, _, hpends, hforms, hvalue, hfits, rfl, rfl⟩ := h
  cases hpends with
  | @binary _ before vs asked p t _ left _ hpends hleft hl operator hfits' =>
      have hlevel := Phrase.level_of_mem operator
      have hnext : p.part.rank = p.rank + 1 := by
        apply Phrase.rank_part
        rintro rfl
        simp [Phrase.operators] at operator
      have hright : Forms p.part us e := hforms.widen (by
        have hlt : op.level < q.rank := hfits
        omega)
      refine ⟨p, hlevel.symm, before, vs ++ t :: us, .binary op left e, asked, hpends,
        .binary operator hleft hright, ?_, hfits', by simp, by simp [Tree.names]⟩
      simp [Tree.value?, hl, hvalue, Binary.applyValue_eq_ok_iff.1 hop]

theorem EndsWith.reduce {ctx : Context} {p q : Phrase} {pending pending' : List Pending}
    {ts : List Token} {names : List String} {v v' : Value}
    (h : EndsWith ctx q pending ts names v) (hle : p.rank ≤ q.rank)
    (hp : p.rank ≤ Phrase.unary.rank)
    (hreduce : Pending.reduce p.rank v pending = .ok (v', pending')) :
    EndsWith ctx p pending' ts names v' := by
  induction pending generalizing q v with
  | nil =>
      cases hreduce
      exact h.widen hle trivial
  | cons top below ih =>
      cases top with
      | group =>
          cases hreduce
          exact h.widen hle trivial
      | unary op => exact ih h.unary hp hreduce
      | binary l op =>
          rw [Pending.reduce] at hreduce
          split at hreduce
          · rename_i hlevel
            cases hop : op.applyValue l v with
            | error e =>
                rw [hop] at hreduce
                contradiction
            | ok w =>
                rw [hop] at hreduce
                obtain ⟨p₀, hrank, hends⟩ := h.binary hop
                exact ih hends (by omega) hreduce
          · rename_i hlevel
            cases hreduce
            exact h.widen hle (Nat.not_le.1 hlevel)

/-- What a state has behind it after some tokens. -/
def State.Follows (ctx : Context) (s : State) (ts : List Token) : Prop :=
  match s.position with
  | .operand =>
    ∃ before n, Pends ctx s.pending before s.asked ∧ ts = before ++ plusSigns n
  | .after v => EndsWith ctx .unary s.pending ts s.asked v

theorem Pends.endsWith_operand {ctx : Context} {pending : List Pending}
    {before us : List Token} {names : List String} {e : Tree} {v : Value}
    (h : Pends ctx pending before names) (hforms : Forms .atom us e)
    (hvalue : e.value? ctx = some v) (n : Nat) :
    EndsWith ctx .unary pending (before ++ plusSigns n ++ us) (names ++ e.names) v :=
  ⟨before, plusSigns n ++ us, e, names, h, Forms.plusSigns (.part hforms) n, hvalue,
    fits_unary pending, by simp, rfl⟩

theorem EndsWith.close {ctx : Context} {pending below : List Pending} {ts : List Token}
    {names : List String} {v v' : Value} (h : EndsWith ctx .unary pending ts names v)
    (hclose : Pending.close v pending = .ok (v', below)) :
    EndsWith ctx .unary below (ts ++ [.punct ')']) names v' := by
  rw [close_eq] at hclose
  cases hreduce : Pending.reduce 1 v pending with
  | error e =>
      rw [hreduce] at hclose
      contradiction
  | ok r =>
      obtain ⟨w, pending'⟩ := r
      rw [hreduce] at hclose
      have hends : EndsWith ctx .or pending' ts names w :=
        h.reduce (by decide) (by decide) hreduce
      dsimp only [bind, Except.bind] at hclose
      split at hclose
      · cases hclose
        obtain ⟨_, us, e, asked, hpends, hforms, hvalue, -, rfl, rfl⟩ := hends
        cases hpends with
        | @group _ before _ n hpends =>
            have := hpends.endsWith_operand (Forms.group hforms) hvalue n
            simpa using this
      · contradiction

namespace State

theorem follows_iff_of_operand {ctx : Context} {s : State} {ts : List Token}
    (hposition : s.position = .operand) :
    s.Follows ctx ts ↔
      ∃ before n, Pends ctx s.pending before s.asked ∧ ts = before ++ plusSigns n := by
  unfold Follows
  rw [hposition]

theorem Follows.push {ctx : Context} {s : State} {top : Pending} {ts : List Token}
    (hposition : s.position = .operand) (h : Pends ctx (top :: s.pending) ts s.asked) :
    (s.push top).Follows ctx ts := by
  apply (follows_iff_of_operand (s := s.push top) hposition).2
  exact ⟨ts, 0, h, (List.append_nil ts).symm⟩

theorem Follows.readPunct {ctx : Context} {s s' : State} {ts : List Token} {c : Char}
    (h : s.Follows ctx ts) (hposition : s.position = .operand)
    (hread : s.readPunct ctx c = .ok s') : s'.Follows ctx (ts ++ [.punct c]) := by
  obtain ⟨before, n, hpends, rfl⟩ := (follows_iff_of_operand hposition).1 h
  unfold State.readPunct at hread
  split at hread
  · cases hread
    have := hpends.endsWith_operand Forms.here rfl n
    simpa [Follows, Tree.names, Int32.ofInt_eq_ofNat] using this
  · cases hread
    exact Follows.push hposition (.group n hpends)
  · cases hread
    exact Follows.push hposition (.unary n hpends (by decide))
  · cases hread
    exact Follows.push hposition (.unary n hpends (by decide))
  · cases hread
    exact Follows.push hposition (.unary n hpends (by decide))
  · cases hread
    refine (follows_iff_of_operand hposition).2 ⟨before, n + 1, hpends, ?_⟩
    simp [plusSigns, List.replicate_succ']
  · contradiction

theorem Follows.readOperand {ctx : Context} {s s' : State} {ts : List Token} {t : Token}
    (h : s.Follows ctx ts) (hposition : s.position = .operand)
    (hread : s.readOperand ctx t = .ok s') : s'.Follows ctx (ts ++ [t]) := by
  unfold State.readOperand at hread
  split at hread
  · rename_i w
    obtain ⟨before, n, hpends, rfl⟩ := (follows_iff_of_operand hposition).1 h
    obtain ⟨v, hvalue, rfl⟩ := readWord_eq_ok_iff.1 hread
    exact hpends.endsWith_operand (Forms.word w) hvalue n
  · rename_i c
    obtain ⟨before, n, hpends, rfl⟩ := (follows_iff_of_operand hposition).1 h
    cases hread
    have := hpends.endsWith_operand (Forms.char c) rfl n
    simpa [Follows, Tree.names, Int32.ofInt_eq_ofNat] using this
  · exact h.readPunct hposition hread
  · contradiction

theorem close_or_readBinary_of_readAfter {s s' : State} {t : Token} {v : Value}
    (h : s.readAfter v t = .ok (.read s')) :
    t = .punct ')' ∧ s.close v = .ok s' ∨
      ∃ op, Binary.ofToken? t = some op ∧ s.readBinary v op = .ok s' := by
  unfold readAfter at h
  split at h
  · dsimp only at h
    split at h <;> cases h
  · split at h
    · cases h
    · cases hclose : s.close v with
      | error e =>
          rw [hclose] at h
          cases h
      | ok s₁ =>
          rw [hclose] at h
          cases h
          exact .inl ⟨rfl, rfl⟩
  · split at h
    · cases h
    · rename_i op hop
      cases hbinary : s.readBinary v op with
      | error e =>
          rw [hbinary] at h
          cases h
      | ok s₁ =>
          rw [hbinary] at h
          cases h
          exact .inr ⟨op, hop, hbinary⟩

theorem Follows.close {ctx : Context} {s s' : State} {ts : List Token} {v : Value}
    (h : EndsWith ctx .unary s.pending ts s.asked v) (hclose : s.close v = .ok s') :
    s'.Follows ctx (ts ++ [.punct ')']) := by
  unfold State.close at hclose
  split at hclose
  · cases hclose
  · rename_i hpending
    cases hclose
    exact EndsWith.close h hpending

theorem Follows.readBinary {ctx : Context} {s s' : State} {ts : List Token}
    {t : Token} {v : Value} {op : Binary} (h : EndsWith ctx .unary s.pending ts s.asked v)
    (hop : Binary.ofToken? t = some op) (hread : s.readBinary v op = .ok s') :
    s'.Follows ctx (ts ++ [t]) := by
  unfold State.readBinary at hread
  split at hread
  · cases hread
  · rename_i v' pending' hreduce
    cases hread
    obtain ⟨p, hmem⟩ := Binary.ofToken?_eq_some_iff.1 hop
    have hlt := Phrase.rank_lt_of_mem_operators hmem
    rw [Phrase.level_of_mem hmem] at hreduce
    obtain ⟨before, us, e, asked, hpends, hforms, hvalue, hfits, rfl, hnames⟩ :=
      EndsWith.reduce h (Nat.le_of_lt hlt) (Nat.le_of_lt hlt) hreduce
    refine (follows_iff_of_operand rfl).2 ⟨_, 0, ?_, (List.append_nil _).symm⟩
    rw [hnames]
    exact .binary hpends hforms hvalue hmem hfits

theorem Follows.readAfter {ctx : Context} {s s' : State} {ts : List Token}
    {t : Token} {v : Value} (h : s.Follows ctx ts) (hposition : s.position = .after v)
    (hread : s.readAfter v t = .ok (.read s')) : s'.Follows ctx (ts ++ [t]) := by
  unfold Follows at h
  rw [hposition] at h
  rcases close_or_readBinary_of_readAfter hread with ⟨rfl, hclose⟩ | ⟨op, hop, hbinary⟩
  · exact Follows.close h hclose
  · exact Follows.readBinary h hop hbinary

theorem readOperand_or_readAfter_of_read {ctx : Context} {s s' : State} {t : Token}
    (h : s.read ctx t = .ok (.read s')) :
    s.position = .operand ∧ s.readOperand ctx t = .ok s' ∨
      ∃ v, s.position = .after v ∧ s.readAfter v t = .ok (.read s') := by
  unfold State.read at h
  split at h
  · rename_i hposition
    cases hoperand : s.readOperand ctx t with
    | error e =>
        rw [hoperand] at h
        cases h
    | ok s₁ =>
        rw [hoperand] at h
        cases h
        exact .inl ⟨hposition, rfl⟩
  · rename_i v hposition
    exact .inr ⟨v, hposition, h⟩

theorem Follows.read {ctx : Context} {s s' : State} {ts : List Token} {t : Token}
    (h : s.Follows ctx ts) (hread : s.read ctx t = .ok (.read s')) :
    s'.Follows ctx (ts ++ [t]) := by
  rcases readOperand_or_readAfter_of_read hread with
    ⟨hposition, hoperand⟩ | ⟨v, hposition, hafter⟩
  · exact h.readOperand hposition hoperand
  · exact h.readAfter hposition hafter

theorem Follows.readAll {ctx : Context} {s s' : State} {ts us : List Token}
    (h : s.Follows ctx ts) (hread : s.readAll ctx us = some s') :
    s'.Follows ctx (ts ++ us) := by
  induction us generalizing s ts with
  | nil =>
      cases hread
      simpa using h
  | cons t us ih =>
      rw [State.readAll] at hread
      split at hread
      · rename_i s₁ hstep
        have := ih (h.read hstep) hread
        simpa using this
      · contradiction

private theorem enclosure_of_readPunct {ctx : Context} {s s' : State} {c : Char}
    (h : s.readPunct ctx c = .ok s') : s'.enclosure = s.enclosure := by
  unfold State.readPunct at h
  split at h
  all_goals cases h
  all_goals rfl

private theorem enclosure_of_readOperand {ctx : Context} {s s' : State} {t : Token}
    (h : s.readOperand ctx t = .ok s') : s'.enclosure = s.enclosure := by
  unfold State.readOperand at h
  split at h
  · obtain ⟨v, -, rfl⟩ := readWord_eq_ok_iff.1 h
    rfl
  · cases h
    rfl
  · exact enclosure_of_readPunct h
  · contradiction

private theorem enclosure_of_read {ctx : Context} {s s' : State} {t : Token}
    (h : s.enclosure = .bare) (hread : s.read ctx t = .ok (.read s')) :
    s'.enclosure = .bare := by
  rcases readOperand_or_readAfter_of_read hread with ⟨-, hoperand⟩ | ⟨v, -, hafter⟩
  · exact (enclosure_of_readOperand hoperand).trans h
  · rcases close_or_readBinary_of_readAfter hafter with ⟨-, hclose⟩ | ⟨op, -, hbinary⟩
    · unfold State.close at hclose
      split at hclose <;> cases hclose
      simp [h]
    · unfold State.readBinary at hbinary
      split at hbinary <;> cases hbinary
      simp [h]

private theorem enclosure_of_readAll {ctx : Context} {s s' : State} {ts : List Token}
    (h : s.enclosure = .bare) (hread : s.readAll ctx ts = some s') :
    s'.enclosure = .bare := by
  induction ts generalizing s with
  | nil =>
      cases hread
      exact h
  | cons t ts ih =>
      rw [State.readAll] at hread
      split at hread
      · rename_i hstep
        exact ih (enclosure_of_read h hstep) hread
      · contradiction

theorem exists_position_of_finish {s : State} {rest : Line} {r : Success}
    (h : s.finish rest = .ok r) : ∃ v, s.position = .after v := by
  unfold finish at h
  split at h
  · cases h
  · exact ⟨_, ‹_›⟩

theorem exists_of_finish {ctx : Context} {s : State} {ts : List Token} {rest : Line}
    {r : Success} (h : s.Follows ctx ts) (hfinish : s.finish rest = .ok r) :
    r.operand.enclosure = s.enclosure ∧ ∃ e, e.value? ctx = some r.operand.value ∧
      r.asked = e.names ∧
        (Forms .or ts e ∨ s.enclosure = .opened ∧ depth s.pending = 1 ∧
          ∃ n inner, ts = plusSigns n ++ .punct '(' :: inner ∧ Forms .or inner e) := by
  unfold finish at hfinish
  split at hfinish
  · cases hfinish
  · rename_i v hposition
    unfold Follows at h
    rw [hposition] at h
    split at hfinish
    · cases hfinish
    · rename_i v' hunwind
      cases hfinish
      rw [unwind_eq] at hunwind
      cases hreduce : Pending.reduce 1 v s.pending with
      | error e =>
          rw [hreduce] at hunwind
          cases hunwind
      | ok r =>
          obtain ⟨w, pending⟩ := r
          rw [hreduce] at hunwind
          have hdepth := depth_of_reduce hreduce
          obtain ⟨before, us, e, asked, hpends, hforms, hvalue, hfits, rfl, hnames⟩ :=
            EndsWith.reduce (p := .or) h (by decide) (by decide) hreduce
          refine ⟨rfl, e, ?_⟩
          match pending, hfits with
          | [], _ =>
              cases hpends
              cases hunwind
              exact ⟨hvalue, hnames, .inl hforms⟩
          | .group :: below, _ =>
              dsimp only [bind, Except.bind] at hunwind
              split at hunwind
              · rename_i hopened
                obtain ⟨hopened, rfl⟩ := hopened
                cases hunwind
                cases hpends with
                | group n hpends =>
                    cases hpends
                    exact ⟨hvalue, hnames,
                      .inr ⟨hopened, hdepth.symm, n, us, by simp, hforms⟩⟩
              · cases hunwind
          | .unary _ :: _, hfits => exact absurd hfits (by simp [Fits, Phrase.rank])
          | .binary _ op :: _, hfits =>
            exact absurd hfits (Nat.not_lt.2 (one_le_level op))

private theorem exists_forms_of_finish {ctx : Context} {s : State} {ts : List Token}
    {rest : Line} {r : Success} (h : s.Follows ctx ts) (henclosure : s.enclosure = .bare)
    (hfinish : s.finish rest = .ok r) :
    ∃ e, Forms .or ts e ∧ e.value? ctx = some r.operand.value ∧
      r.operand.enclosure = .bare ∧
      r.asked = e.names := by
  obtain ⟨hkept, e, hvalue, hasked, hforms | ⟨hopened, -⟩⟩ := exists_of_finish h hfinish
  · exact ⟨e, hforms, hvalue, hkept.trans henclosure, hasked⟩
  · cases henclosure.symm.trans hopened

private theorem ofToken?_of_readAfter_stop {s : State} {v : Value} {t : Token}
    (h : s.readAfter v t = .ok .stop) : Binary.ofToken? t = none := by
  unfold State.readAfter at h
  split at h
  · rfl
  · rfl
  · split at h
    · assumption
    · rename_i op _
      cases hbinary : s.readBinary v op with
      | error e =>
          rw [hbinary] at h
          cases h
      | ok s' =>
          rw [hbinary] at h
          cases h

private theorem readAfter_stop {s : State} {v : Value} {t : Token}
    (hdepth : depth s.pending = 0 ∨
      depth s.pending = 1 ∧ s.enclosure = .opened ∧ t ≠ .punct ')')
    (h : Binary.ofToken? t = none) : s.readAfter v t = .ok .stop := by
  unfold State.readAfter
  split
  · rcases hdepth with hzero | ⟨hone, hopened, -⟩
    · simp [hzero]
    · simp [hone, hopened]
  · rcases hdepth with hzero | ⟨-, -, hne⟩
    · simp [hzero]
    · exact absurd rfl hne
  · rw [h]

theorem endsBefore_of_stopsAt {ctx : Context} {s : State} {v : Value} {rest : Line}
    (hposition : s.position = .after v) (h : s.StopsAt ctx rest) : EndsBefore rest := by
  obtain ⟨lexemes, fault⟩ := rest
  cases lexemes with
  | nil => exact h
  | cons l lexemes =>
      intro p op hmem
      have hstop : s.read ctx l.token = .ok .stop := h
      rw [State.read, hposition] at hstop
      have hnone := ofToken?_of_readAfter_stop hstop
      rw [Binary.ofToken?_eq_some_iff.2 ⟨p, hmem⟩] at hnone
      cases hnone

theorem stopsAt_of_endsBefore {ctx : Context} {s : State} {v : Value} {rest : Line}
    (hposition : s.position = .after v)
    (hdepth : depth s.pending = 0 ∨
      depth s.pending = 1 ∧ s.enclosure = .opened ∧ rest.tokens.head? ≠ some (.punct ')'))
    (h : EndsBefore rest) : s.StopsAt ctx rest := by
  obtain ⟨lexemes, fault⟩ := rest
  cases lexemes with
  | nil => exact h
  | cons l lexemes =>
      have hnone : Binary.ofToken? l.token = none := by
        apply Option.eq_none_iff_forall_ne_some.2
        intro op hop
        obtain ⟨p, hmem⟩ := Binary.ofToken?_eq_some_iff.1 hop
        exact h p op hmem
      change s.read ctx l.token = .ok .stop
      rw [State.read, hposition]
      refine readAfter_stop ?_ hnone
      rcases hdepth with hzero | ⟨hone, hopened, hhead⟩
      · exact .inl hzero
      · exact .inr ⟨hone, hopened, fun htoken => hhead (congrArg some htoken)⟩

end State

/-- An operand that cannot be indirect is evaluated exactly if the line begins with an
expression that has a value and that nothing continues. -/
theorem evalOperand_false_eq_ok_iff {ctx : Context} {line : Line} {r : Success} :
    evalOperand ctx false line = .ok r ↔
      ∃ (e : Tree) (read : List Lexeme),
        line.lexemes = read ++ r.rest.lexemes ∧ line.fault = r.rest.fault ∧
        EndsBefore r.rest ∧
        Forms .or (read.map Lexeme.token) e ∧ e.value? ctx = some r.operand.value ∧
        r.operand.enclosure = .bare ∧ r.asked = e.names := by
  constructor
  · intro h
    obtain ⟨read, s, hlexemes, hfault, hread, hstops, hfinish⟩ :=
      State.exists_readAll_of_run h
    have hstart : State.Follows ctx {} [] := ⟨[], 0, .start, rfl⟩
    have hbare : s.enclosure = .bare := State.enclosure_of_readAll rfl hread
    obtain ⟨e, hforms, hvalue, henclosure, hasked⟩ :=
      State.exists_forms_of_finish (hstart.readAll hread) hbare hfinish
    obtain ⟨v, hposition⟩ := State.exists_position_of_finish hfinish
    exact ⟨e, read, hlexemes, hfault.symm,
      State.endsBefore_of_stopsAt hposition hstops, hforms,
      hvalue, henclosure, hasked⟩
  · rintro ⟨e, read, hlexemes, hfault, hends, hforms, hvalue, henclosure, hasked⟩
    obtain ⟨⟨value, enclosure⟩, asked, rest⟩ := r
    obtain ⟨lexemes, fault⟩ := line
    cases hlexemes
    cases hfault
    cases henclosure
    cases hasked
    obtain ⟨extra, w, hyields, hdepth, hread⟩ :=
      State.readAll_of_forms hforms (s := {}) hvalue rfl trivial (.inl rfl)
    have hpending : depth (extra ++ []) = 0 := by simp [hdepth]
    have hstops : (State.answered {} extra w e.names).StopsAt ctx rest :=
      State.stopsAt_of_endsBefore rfl (.inl hpending) hends
    have hunwind : unwind .bare w (extra ++ []) = .ok value := by
      rw [unwind_eq, hyields 1 (Nat.le_refl _)]
      rfl
    change State.run ctx rest.fault {} (read ++ rest.lexemes) = _
    rw [State.run_of_readAll rest.lexemes hread, State.run_of_stopsAt hstops]
    simp only [State.finish, State.answered, hunwind]
    rfl

/-- An expression is evaluated exactly if the line begins with one that has a value and
that nothing continues. -/
theorem eval_eq_ok_iff {ctx : Context} {line : Line} {r : Success} :
    eval ctx line = .ok r ↔
      ∃ (e : Tree) (read : List Lexeme),
        line.lexemes = read ++ r.rest.lexemes ∧ line.fault = r.rest.fault ∧
        EndsBefore r.rest ∧
        Forms .or (read.map Lexeme.token) e ∧ e.value? ctx = some r.operand.value ∧
        r.operand.enclosure = .bare ∧ r.asked = e.names :=
  evalOperand_false_eq_ok_iff

end Breadboard.Expr
