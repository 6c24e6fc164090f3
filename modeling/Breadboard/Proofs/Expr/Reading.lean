import Breadboard.Proofs.Expr.Grammar

namespace Breadboard.Expr

/-! The operators of the evaluator are those of the grammar. -/

theorem Phrase.level_of_mem {p : Phrase} {t : Token} {op : Binary}
    (h : (t, op) ∈ p.operators) : op.level = p.rank := by
  cases p <;> simp [operators] at h <;> grind [Binary.level, rank]

theorem Binary.ofToken?_eq_some_iff {t : Token} {op : Binary} :
    Binary.ofToken? t = some op ↔ ∃ p : Phrase, (t, op) ∈ p.operators := by
  constructor
  · intro h
    unfold ofToken? at h
    split at h <;> cases h
    · exact ⟨.or, by decide⟩
    · exact ⟨.and, by decide⟩
    · exact ⟨.shift, by decide⟩
    · exact ⟨.shift, by decide⟩
    · exact ⟨.sum, by decide⟩
    · exact ⟨.sum, by decide⟩
    · exact ⟨.product, by decide⟩
    · exact ⟨.product, by decide⟩
  · rintro ⟨p, h⟩
    cases p <;> simp [Phrase.operators] at h <;> grind [Binary.ofToken?]

theorem Unary.applyValue_eq_onValue (op : Unary) (v : Value) :
    op.applyValue v = op.onValue v := by
  cases v with
  | known v => exact congrArg Value.known (op.apply_eq_ofInt v)
  | undefined => rfl

theorem Binary.applyValue_eq_ok_iff {op : Binary} {l r v : Value} :
    op.applyValue l r = .ok v ↔ op.onValues? l r = some v := by
  cases l with
  | undefined => simp [applyValue, onValues?]
  | known l =>
      cases r with
      | undefined => simp [applyValue, onValues?]
      | known r =>
          have happly := @apply_eq_ok_iff op l r
          cases hop : op.apply l r with
          | error e =>
              have hnone : op.onWords? l r = none := by
                apply Option.eq_none_iff_forall_ne_some.2
                intro w hw
                rw [← happly, hop] at hw
                contradiction
              simp [applyValue, onValues?, hop, hnone, Except.map]
          | ok w => simp [applyValue, onValues?, hop, happly.1 hop, Except.map]

/-! Reading a list of tokens. -/

namespace State

def readAll (ctx : Context) (s : State) : List Token → Option State
  | [] => some s
  | t :: ts =>
      match s.read ctx t with
      | .ok (.read s) => s.readAll ctx ts
      | _ => none

@[simp] theorem readAll_nil (ctx : Context) (s : State) : s.readAll ctx [] = some s := rfl

theorem readAll_cons {ctx : Context} {s s' : State} {t : Token} (ts : List Token)
    (h : s.read ctx t = .ok (.read s')) :
    s.readAll ctx (t :: ts) = s'.readAll ctx ts := by
  simp [readAll, h]

theorem readAll_append {ctx : Context} {s s' : State} {ts : List Token} (us : List Token)
    (h : s.readAll ctx ts = some s') : s.readAll ctx (ts ++ us) = s'.readAll ctx us := by
  induction ts generalizing s with
  | nil =>
      cases h
      rfl
  | cons t ts ih =>
      rw [readAll] at h
      split at h
      · rename_i hread
        rw [List.cons_append, readAll_cons _ hread]
        exact ih h
      · contradiction

def StopsAt (ctx : Context) (s : State) (rest : Line) : Prop :=
  match rest.lexemes with
  | [] => rest.fault = none
  | l :: _ => s.read ctx l.token = .ok .stop

private theorem rest_of_finish {s : State} {rest : Line} {r : Success}
    (h : s.finish rest = .ok r) :
    r.rest = rest := by
  unfold finish at h
  split at h
  · contradiction
  · split at h
    · contradiction
    · cases h
      rfl

theorem run_of_stopsAt {ctx : Context} {s : State} {rest : Line}
    (h : s.StopsAt ctx rest) :
    s.run ctx rest.fault rest.lexemes = s.finish rest := by
  obtain ⟨lexemes, fault⟩ := rest
  cases lexemes with
  | nil =>
      cases (h : fault = none)
      rfl
  | cons l lexemes =>
      have hstop : s.read ctx l.token = .ok .stop := h
      simp [run, hstop]

theorem run_of_readAll {ctx : Context} {fault : Option Fault} {s s' : State}
    {read : List Lexeme} (rest : List Lexeme)
    (h : s.readAll ctx (read.map Lexeme.token) = some s') :
    s.run ctx fault (read ++ rest) = s'.run ctx fault rest := by
  induction read generalizing s with
  | nil =>
      cases h
      rfl
  | cons l read ih =>
      rw [List.map_cons, readAll] at h
      split at h
      · rename_i hread
        rw [List.cons_append, run, hread]
        exact ih h
      · contradiction

theorem exists_readAll_of_run {ctx : Context} {fault : Option Fault} {s : State}
    {lexemes : List Lexeme} {r : Success} (h : s.run ctx fault lexemes = .ok r) :
    ∃ read s', lexemes = read ++ r.rest.lexemes ∧ r.rest.fault = fault ∧
      s.readAll ctx (read.map Lexeme.token) = some s' ∧ s'.StopsAt ctx r.rest ∧
      s'.finish r.rest = .ok r := by
  induction lexemes generalizing s with
  | nil =>
      unfold run at h
      split at h
      · contradiction
      · have hrest := rest_of_finish h
        exact ⟨[], s, by simp [hrest], by simp [hrest], rfl, by simp [StopsAt, hrest],
          by rw [hrest]; exact h⟩
  | cons l lexemes ih =>
      rw [run] at h
      split at h
      · contradiction
      · rename_i t hread
        obtain ⟨read, s', happend, hfault, hall, hstops, hfinish⟩ := ih h
        refine ⟨l :: read, s', by rw [happend, List.cons_append], hfault, ?_,
          hstops, hfinish⟩
        rw [List.map_cons, readAll_cons _ hread, hall]
      · rename_i hstop
        have hrest := rest_of_finish h
        exact ⟨[], s, by simp [hrest], by simp [hrest],
          rfl, by simp [StopsAt, hrest, hstop], by rw [hrest]; exact h⟩

end State

/-! What is pending, and the phrases that may be read next. -/

namespace Pending

def Fits (p : Phrase) : List Pending → Prop
  | .unary _ :: _ => Phrase.unary.rank ≤ p.rank
  | .binary _ op :: _ => op.level < p.rank
  | _ => True

theorem Fits.part {p : Phrase} {pending : List Pending} (h : Fits p pending) :
    Fits p.part pending := by
  have hle := p.rank_le_rank_part
  match pending, h with
  | [], _ => trivial
  | .group :: _, _ => trivial
  | .unary _ :: _, h => exact Nat.le_trans h hle
  | .binary _ op :: _, h => exact Nat.lt_of_lt_of_le h hle

private theorem reduce_of_fits {p : Phrase} {pending : List Pending} (v : Value)
    (h : Fits p pending) (hp : p.rank < Phrase.unary.rank) :
    reduce p.rank v pending = .ok (v, pending) := by
  match pending, h with
  | [], _ => rfl
  | .group :: _, _ => rfl
  | .unary _ :: _, h => exact absurd hp (Nat.not_lt.2 h)
  | .binary _ op :: _, h =>
      have hlt : op.level < p.rank := h
      rw [reduce, if_neg (Nat.not_le.2 hlt)]

theorem one_le_level (op : Binary) : 1 ≤ op.level := by
  cases op <;> decide

theorem close_eq (v : Value) (pending : List Pending) :
    close v pending = reduce 1 v pending >>= fun r =>
      match r.2 with
      | .group :: below => .ok (r.1, below)
      | _ => .error .unbalancedParen := by
  induction pending generalizing v with
  | nil => rfl
  | cons top below ih =>
      cases top with
      | group => rfl
      | unary op => exact ih _
      | binary l op =>
          rw [close, reduce, if_pos (one_le_level op)]
          cases op.applyValue l v with
          | error e => rfl
          | ok w => exact ih w

theorem unwind_eq (enclosure : Enclosure) (v : Value) (pending : List Pending) :
    unwind enclosure v pending = reduce 1 v pending >>= fun r =>
      match r.2 with
      | .group :: below =>
          if enclosure = .opened ∧ below = [] then .ok r.1 else .error .unbalancedParen
      | _ => .ok r.1 := by
  induction pending generalizing v with
  | nil => rfl
  | cons top below ih =>
      cases top with
      | group => rfl
      | unary op => exact ih _
      | binary l op =>
          rw [unwind, reduce, if_pos (one_le_level op)]
          cases op.applyValue l v with
          | error e => rfl
          | ok w => exact ih w

@[simp] theorem depth_nil : depth [] = 0 := rfl

@[simp] theorem depth_append (a b : List Pending) : depth (a ++ b) = depth a + depth b :=
  List.count_append

@[simp] theorem depth_group (below : List Pending) :
    depth (.group :: below) = depth below + 1 :=
  List.count_cons_self

@[simp] theorem depth_unary (op : Unary) (below : List Pending) :
    depth (.unary op :: below) = depth below :=
  List.count_cons_of_ne (by simp)

@[simp] theorem depth_binary (l : Value) (op : Binary) (below : List Pending) :
    depth (.binary l op :: below) = depth below :=
  List.count_cons_of_ne (by simp)

theorem depth_of_reduce {level : Nat} {v v' : Value} {pending pending' : List Pending}
    (h : reduce level v pending = .ok (v', pending')) :
    depth pending' = depth pending := by
  induction pending generalizing v with
  | nil =>
      cases h
      rfl
  | cons top below ih =>
      cases top with
      | group =>
          cases h
          rfl
      | unary op =>
          rw [depth_unary]
          exact ih h
      | binary l op =>
          rw [reduce] at h
          split at h
          · cases hop : op.applyValue l v with
            | error e =>
                rw [hop] at h
                cases h
            | ok w =>
                rw [hop] at h
                rw [depth_binary]
                exact ih h
          · cases h
            rfl

/-- The operators in `extra` make `v` of the value `w`, whatever is pending below them. -/
def Yields (p : Phrase) (extra : List Pending) (w v : Value) : Prop :=
  ∀ level ≤ p.rank, ∀ below, reduce level w (extra ++ below) = reduce level v below

end Pending

open Pending

/-! A phrase that has a value is read, up to the operators that wait for what comes
next. -/

namespace State

def answered (s : State) (extra : List Pending) (w : Value) (names : List String) :
    State :=
  { s with
    position := .after w, pending := extra ++ s.pending, asked := s.asked ++ names }

/-- What is read cannot end at a parenthesis that encloses the operand. -/
def Steady (s : State) : Prop :=
  s.enclosure = .bare ∨ s.enclosure = .opened ∧ 0 < depth s.pending

theorem readWord_eq_ok_iff {ctx : Context} {s s' : State} {w : String} :
    s.readWord ctx w = .ok s' ↔
      ∃ v, wordValue? ctx w = some v ∧
        s' = { s with position := .after v, asked := s.asked ++ (Tree.word w).names }
          := by
  unfold readWord wordValue? Tree.names
  cases hw : Word.classify w with
  | error e => simp
  | ok word =>
      cases word with
      | number n => simp [@eq_comm _ s']
      | symbol name =>
          cases hname : ctx.resolve name with
          | some v => simp [hname, @eq_comm _ s']
          | none => cases hlenient : ctx.lenient <;> simp [hname, @eq_comm _ s']

theorem read_eq_of_operand {ctx : Context} {s s' : State} {t : Token}
    (hposition : s.position = .operand) (h : s.readOperand ctx t = .ok s') :
    s.read ctx t = .ok (.read s') := by
  simp [read, hposition, h, Except.map]

theorem Steady.of_depth_le {s s' : State} (h : s.Steady)
    (henclosure : s'.enclosure = s.enclosure)
    (hdepth : depth s.pending ≤ depth s'.pending) : s'.Steady := by
  rcases h with h | ⟨h, hpos⟩
  · exact .inl (henclosure.trans h)
  · exact .inr ⟨henclosure.trans h, Nat.lt_of_lt_of_le hpos hdepth⟩

theorem read_operator {ctx : Context} {p : Phrase} {s : State} {extra : List Pending}
    {w v : Value} {t : Token} {op : Binary} (names : List String)
    (hop : (t, op) ∈ p.operators) (hyields : Yields p extra w v)
    (hfits : Fits p s.pending) :
    (s.answered extra w names).read ctx t =
      .ok (.read { s with
        position := .operand
        pending := .binary v op :: s.pending
        enclosure := if s.enclosure = .closed then .bare else s.enclosure
        asked := s.asked ++ names }) := by
  have hofToken : Binary.ofToken? t = some op := Binary.ofToken?_eq_some_iff.2 ⟨p, hop⟩
  have hlevel : op.level = p.rank := Phrase.level_of_mem hop
  have hreduce : reduce op.level w (extra ++ s.pending) = .ok (v, s.pending) := by
    rw [hlevel, hyields p.rank (Nat.le_refl _),
      reduce_of_fits v hfits (Phrase.rank_lt_of_mem_operators hop)]
  change (s.answered extra w names).readAfter w t = _
  unfold readAfter
  split
  · simp [Binary.ofToken?] at hofToken
  · simp [Binary.ofToken?] at hofToken
  · simp only [hofToken, readBinary, answered, hreduce, Except.map]
    rfl

theorem Steady.read_operator {ctx : Context} {p : Phrase} {s : State}
    {extra : List Pending} {w v : Value} {t : Token} {op : Binary} (hsteady : s.Steady)
    (names : List String) (hop : (t, op) ∈ p.operators) (hyields : Yields p extra w v)
    (hfits : Fits p s.pending) :
    (s.answered extra w names).read ctx t =
      .ok (.read { s with
        position := .operand
        pending := .binary v op :: s.pending
        asked := s.asked ++ names }) := by
  have henclosure : s.enclosure ≠ .closed := by
    rcases hsteady with h | ⟨h, -⟩ <;> simp [h]
  rw [State.read_operator names hop hyields hfits, if_neg henclosure]

theorem read_closing {ctx : Context} {s : State} {extra : List Pending} {w v : Value}
    (names : List String) (hyields : Yields .or extra w v) :
    ((s.push .group).answered extra w names).read ctx (.punct ')') =
      .ok (.read { s.answered [] v names with
        enclosure := if s.enclosure ≠ .bare ∧
        depth s.pending = 0 then .closed else s.enclosure }) := by
  have hclose : Pending.close w (extra ++ .group :: s.pending) = .ok (v, s.pending) := by
    rw [close_eq, hyields 1 (Nat.le_refl _)]
    rfl
  have hdepth : depth ((s.push .group).answered extra w names).pending ≠ 0 := by
    simp [answered, push]
  change ((s.push .group).answered extra w names).readAfter w (.punct ')') = _
  simp only [readAfter, if_neg hdepth]
  simp only [close, answered, push, hclose, Except.map, List.nil_append]
  rfl

theorem Steady.read_closing {ctx : Context} {s : State} {extra : List Pending}
    {w v : Value} (hsteady : s.Steady) (names : List String)
    (hyields : Yields .or extra w v) :
    ((s.push .group).answered extra w names).read ctx (.punct ')') =
      .ok (.read (s.answered [] v names)) := by
  have henclosure : ¬ (s.enclosure ≠ .bare ∧ depth s.pending = 0) := by
    rintro ⟨hne, hzero⟩
    rcases hsteady with h | ⟨-, hpos⟩
    · exact hne h
    · exact Nat.ne_of_gt hpos hzero
  rw [State.read_closing names hyields, if_neg henclosure]
  rfl

private theorem readOperand_sign {ctx : Context} {t : Token} {op : Unary} (s : State)
    (h : (t, op) ∈ signs) : s.readOperand ctx t = .ok (s.push (.unary op)) := by
  simp only [signs, List.mem_cons, Prod.mk.injEq, List.not_mem_nil, or_false] at h
  rcases h with ⟨rfl, rfl⟩ | ⟨rfl, rfl⟩ | ⟨rfl, rfl⟩ <;> rfl

theorem readAll_of_forms {ctx : Context} {p : Phrase} {ts : List Token} {e : Tree}
    (h : Forms p ts e) {v : Value} {s : State} (hvalue : e.value? ctx = some v)
    (hposition : s.position = .operand) (hfits : Fits p s.pending) (hsteady : s.Steady) :
    ∃ extra w, Yields p extra w v ∧ depth extra = 0 ∧
      s.readAll ctx ts = some (s.answered extra w e.names) := by
  induction h generalizing v s with
  | word w =>
      have hread : s.readOperand ctx (.word w) =
        .ok (s.answered [] v (Tree.word w).names) :=
        readWord_eq_ok_iff.2 ⟨v, hvalue, rfl⟩
      refine ⟨[], v, fun _ _ _ => rfl, rfl, ?_⟩
      rw [readAll_cons [] (read_eq_of_operand hposition hread)]
      rfl
  | char c =>
      cases hvalue
      refine ⟨[], _, fun _ _ _ => rfl, rfl, ?_⟩
      rw [readAll_cons [] (read_eq_of_operand hposition rfl)]
      simp [answered, Tree.names, Int32.ofInt_eq_ofNat]
  | here =>
      cases hvalue
      refine ⟨[], _, fun _ _ _ => rfl, rfl, ?_⟩
      rw [readAll_cons [] (read_eq_of_operand hposition rfl)]
      simp [answered, Tree.names, Int32.ofInt_eq_ofNat]
  | @group ts e inner ih =>
      have hinner : (s.push .group).Steady := hsteady.of_depth_le rfl (by simp [push])
      obtain ⟨extra, w, hyields, -, hread⟩ :=
        ih (s := s.push .group) hvalue hposition trivial hinner
      refine ⟨[], v, fun _ _ _ => rfl, rfl, ?_⟩
      rw [List.cons_append, readAll_cons _ (read_eq_of_operand hposition rfl),
        readAll_append _ hread, readAll_cons [] (hsteady.read_closing e.names hyields)]
      rfl
  | @unary ts e t op sign operand ih =>
      obtain ⟨v₀, hv₀, rfl⟩ := Option.map_eq_some_iff.1 hvalue
      obtain ⟨extra, w, hyields, hdepth, hread⟩ :=
        ih (s := s.push (.unary op)) hv₀ hposition (Nat.le_refl _)
          (hsteady.of_depth_le rfl (by simp [push]))
      refine ⟨extra ++ [.unary op], w, ?_, by simp [hdepth], ?_⟩
      · intro level hlevel below
        rw [List.append_assoc, List.singleton_append, hyields level hlevel, reduce,
          op.applyValue_eq_onValue]
      · rw [readAll_cons _ (read_eq_of_operand hposition (readOperand_sign s sign)),
          hread]
        simp [answered, push, Tree.names]
  | plus operand ih =>
      obtain ⟨extra, w, hyields, hdepth, hread⟩ := ih hvalue hposition hfits hsteady
      refine ⟨extra, w, hyields, hdepth, ?_⟩
      rw [readAll_cons _ (read_eq_of_operand hposition rfl), hread]
  | @binary p ts us l r t op operator left right ihl ihr =>
      obtain ⟨a, ha, hrest⟩ := Option.bind_eq_some_iff.1 hvalue
      obtain ⟨b, hb, hop⟩ := Option.bind_eq_some_iff.1 hrest
      obtain ⟨extraₗ, wₗ, hyieldsₗ, -, hreadₗ⟩ := ihl ha hposition hfits hsteady
      have hlevel : op.level = p.rank := Phrase.level_of_mem operator
      have hnext : p.part.rank = p.rank + 1 := by
        apply Phrase.rank_part
        rintro rfl
        simp [Phrase.operators] at operator
      obtain ⟨extraᵣ, wᵣ, hyieldsᵣ, hdepthᵣ, hreadᵣ⟩ :=
        ihr (s := { s with
            position := .operand
            pending := .binary a op :: s.pending
            asked := s.asked ++ l.names })
          hb rfl (by simp [Fits, hlevel, hnext]) (hsteady.of_depth_le rfl (by simp))
      refine ⟨extraᵣ ++ [.binary a op], wᵣ, ?_, by simp [hdepthᵣ], ?_⟩
      · intro level hle below
        rw [List.append_assoc, List.singleton_append, hyieldsᵣ level (by omega), reduce,
          if_pos (by omega), Binary.applyValue_eq_ok_iff.2 hop]
        rfl
      · rw [readAll_append _ hreadₗ,
          readAll_cons _ (hsteady.read_operator l.names operator hyieldsₗ hfits), hreadᵣ]
        simp [answered, Tree.names]
  | @part p ts e only ih =>
      obtain ⟨extra, w, hyields, hdepth, hread⟩ := ih hvalue hposition hfits.part hsteady
      refine ⟨extra, w, ?_, hdepth, hread⟩
      intro level hlevel below
      exact hyields level (Nat.le_trans hlevel p.rank_le_rank_part) below

end State

end Breadboard.Expr
