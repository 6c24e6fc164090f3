import Breadboard.Proofs.Expr.Refinement

namespace Breadboard.Expr

variable {v v' w' : Value} {below below' : List Pending}

theorem Value.Refined.antisymm (h : v.Refined w') (h' : w'.Refined v) : v = w' := by
  cases h with
  | known v => rfl
  | undefined w =>
      cases h'
      rfl

private theorem Value.Refined.exists_binary {l l' : Value} (hl : l.Refined l')
    (h : v.Refined v') {op : Binary} (hv' : op.applyValue l' v' = .ok w') :
    ∃ w, op.applyValue l v = .ok w := by
  cases hl with
  | undefined l' => exact ⟨.undefined, rfl⟩
  | known l =>
      cases h with
      | undefined v' => exact ⟨.undefined, rfl⟩
      | known v => exact ⟨w', hv'⟩

theorem Pending.Refined.exists_reduce {level : Nat} {r' : Value × List Pending}
    (h : List.Forall₂ Pending.Refined below below') (hv : v.Refined v')
    (hr' : Pending.reduce level v' below' = .ok r') :
    ∃ r, Pending.reduce level v below = .ok r := by
  induction h generalizing v v' with
  | nil => exact ⟨_, rfl⟩
  | cons htop hbelow ih =>
      cases htop with
      | unary op => exact ih (hv.unary op) hr'
      | binary op hl =>
          rw [Pending.reduce] at hr' ⊢
          by_cases hlevel : level ≤ op.level
          · rw [if_pos hlevel] at hr' ⊢
            obtain ⟨w', hw', hr'⟩ := bind_eq_ok_iff.1 hr'
            obtain ⟨w, hw⟩ := hl.exists_binary hv hw'
            rw [hw]
            exact ih (hl.binary hv hw hw') hr'
          · rw [if_neg hlevel]
            exact ⟨_, rfl⟩
      | group => exact ⟨_, rfl⟩

theorem Pending.Refined.exists_close {r' : Value × List Pending}
    (h : List.Forall₂ Pending.Refined below below') (hv : v.Refined v')
    (hr' : Pending.close v' below' = .ok r') : ∃ r, Pending.close v below = .ok r := by
  rw [Pending.close_eq] at hr' ⊢
  obtain ⟨⟨u', rest'⟩, hreduce', hr'⟩ := bind_eq_ok_iff.1 hr'
  obtain ⟨⟨u, rest⟩, hreduce⟩ := Pending.Refined.exists_reduce h hv hreduce'
  obtain ⟨-, hrest⟩ := Pending.Refined.reduce h hv hreduce hreduce'
  rw [hreduce]
  dsimp only at hrest hr'
  cases hrest with
  | nil => cases hr'
  | cons htop hbelow =>
      cases htop with
      | group => exact ⟨_, rfl⟩
      | unary op => cases hr'
      | binary op hl => cases hr'

private theorem Pending.Refined.exists_unwind {enclosure : Enclosure}
    (h : List.Forall₂ Pending.Refined below below') (hv : v.Refined v')
    (hr' : Pending.unwind enclosure v' below' = .ok w') :
    ∃ w, Pending.unwind enclosure v below = .ok w := by
  rw [Pending.unwind_eq] at hr' ⊢
  obtain ⟨⟨u', rest'⟩, hreduce', hr'⟩ := bind_eq_ok_iff.1 hr'
  obtain ⟨⟨u, rest⟩, hreduce⟩ := Pending.Refined.exists_reduce h hv hreduce'
  obtain ⟨-, hrest⟩ := Pending.Refined.reduce h hv hreduce hreduce'
  rw [hreduce]
  dsimp only at hrest hr'
  cases hrest with
  | nil => exact ⟨_, rfl⟩
  | cons htop hbelow =>
      cases htop with
      | unary op => exact ⟨_, rfl⟩
      | binary op hl => exact ⟨_, rfl⟩
      | group =>
          dsimp only at hr'
          split at hr'
          · rename_i hgroup
            obtain ⟨henclosure, rfl⟩ := hgroup
            cases hbelow
            exact ⟨u, if_pos ⟨henclosure, rfl⟩⟩
          · cases hr'

variable {ctx ctx' : Context} {s s' t' : State}

namespace State.Refined

private theorem exists_readWord (hlenient : ctx.lenient = true) {word : String}
    (ht' : s'.readWord ctx' word = .ok t') : ∃ t, s.readWord ctx word = .ok t := by
  unfold State.readWord at ht' ⊢
  cases hword : Word.classify word with
  | error e =>
      rw [hword] at ht'
      cases ht'
  | ok w =>
      cases w with
      | number n => exact ⟨_, rfl⟩
      | symbol name =>
          dsimp only
          cases ctx.resolve name with
          | some v => exact ⟨_, rfl⟩
          | none =>
              rw [hlenient]
              exact ⟨_, rfl⟩

private theorem exists_readPunct {c : Char} (ht' : s'.readPunct ctx' c = .ok t') :
    ∃ t, s.readPunct ctx c = .ok t := by
  unfold State.readPunct at ht' ⊢
  split at ht'
  · exact ⟨_, rfl⟩
  · exact ⟨_, rfl⟩
  · exact ⟨_, rfl⟩
  · exact ⟨_, rfl⟩
  · exact ⟨_, rfl⟩
  · exact ⟨_, rfl⟩
  · cases ht'

private theorem exists_readOperand (hlenient : ctx.lenient = true) {token : Token}
    (ht' : s'.readOperand ctx' token = .ok t') :
    ∃ t, s.readOperand ctx token = .ok t := by
  unfold State.readOperand at ht' ⊢
  split at ht'
  · exact exists_readWord hlenient ht'
  · exact ⟨_, rfl⟩
  · exact exists_readPunct ht'
  · cases ht'

theorem exists_close (h : s.Refined s') (hv : v.Refined v') (ht' : s'.close v' = .ok t') :
    ∃ t, s.close v = .ok t := by
  unfold State.close at ht' ⊢
  cases hclose' : Pending.close v' s'.pending with
  | error e =>
      rw [hclose'] at ht'
      cases ht'
  | ok r' =>
      obtain ⟨r, hclose⟩ := Pending.Refined.exists_close h.pending hv hclose'
      rw [hclose]
      exact ⟨_, rfl⟩

private theorem exists_readBinary (h : s.Refined s') (hv : v.Refined v') {op : Binary}
    (ht' : s'.readBinary v' op = .ok t') : ∃ t, s.readBinary v op = .ok t := by
  unfold State.readBinary at ht' ⊢
  cases hreduce' : Pending.reduce op.level v' s'.pending with
  | error e =>
      rw [hreduce'] at ht'
      cases ht'
  | ok r' =>
      obtain ⟨r, hreduce⟩ := Pending.Refined.exists_reduce h.pending hv hreduce'
      rw [hreduce]
      exact ⟨_, rfl⟩

theorem exists_map_read {x y : Except Failure State} {m' : Move}
    (hm' : y.map Move.read = .ok m') (h : ∀ {t'}, y = .ok t' → ∃ t, x = .ok t) :
    ∃ m, x.map Move.read = .ok m := by
  cases y with
  | error e => cases hm'
  | ok t' =>
      obtain ⟨t, ht⟩ := h rfl
      rw [ht]
      exact ⟨_, rfl⟩

private theorem exists_readAfter (h : s.Refined s') (hv : v.Refined v')
    {token : Token} {m' : Move} (hm' : s'.readAfter v' token = .ok m') :
    ∃ m, s.readAfter v token = .ok m := by
  unfold State.readAfter at hm' ⊢
  rw [Pending.Refined.depth_eq h.pending, h.enclosure] at hm'
  split at hm'
  · dsimp only at hm' ⊢
    split at hm'
    · rename_i hdepth
      exact ⟨_, if_pos hdepth⟩
    · cases hm'
  · split at hm'
    · rename_i hdepth
      exact ⟨_, if_pos hdepth⟩
    · rename_i hdepth
      rw [if_neg hdepth]
      exact exists_map_read hm' (h.exists_close hv)
  · cases hop : Binary.ofToken? token with
    | none => exact ⟨_, rfl⟩
    | some op =>
        rw [hop] at hm'
        exact exists_map_read hm' (h.exists_readBinary hv)

private theorem exists_read (hlenient : ctx.lenient = true) (h : s.Refined s')
    {token : Token} {m' : Move} (hm' : s'.read ctx' token = .ok m') :
    ∃ m, s.read ctx token = .ok m := by
  have hposition := h.position
  unfold State.read at hm' ⊢
  generalize s.position = position at hposition ⊢
  generalize s'.position = position' at hposition hm'
  cases hposition with
  | operand => exact exists_map_read hm' (exists_readOperand hlenient)
  | after hvalue => exact h.exists_readAfter hvalue hm'

private theorem exists_finish (h : s.Refined s') {rest : Line} {r' : Success}
    (hr' : s'.finish rest = .ok r') : ∃ r, s.finish rest = .ok r := by
  have hposition := h.position
  unfold State.finish at hr' ⊢
  generalize s.position = position at hposition ⊢
  generalize s'.position = position' at hposition hr'
  cases hposition with
  | operand => cases hr'
  | @after v v' hvalue =>
      dsimp only at hr' ⊢
      rw [h.enclosure] at hr'
      cases hunwind' : Pending.unwind s.enclosure v' s'.pending with
      | error e =>
          rw [hunwind'] at hr'
          cases hr'
      | ok w' =>
          obtain ⟨w, hunwind⟩ := Pending.Refined.exists_unwind h.pending hvalue hunwind'
          rw [hunwind]
          exact ⟨_, rfl⟩

private theorem exists_run (hctx : ctx.Refined ctx') (hlenient : ctx.lenient = true)
    (h : s.Refined s') {fault : Option Fault} {lexemes : List Lexeme} {r' : Success}
    (hr' : s'.run ctx' fault lexemes = .ok r') :
    ∃ r, s.run ctx fault lexemes = .ok r := by
  induction lexemes generalizing s s' with
  | nil =>
      unfold State.run at hr' ⊢
      cases fault with
      | some e => cases hr'
      | none => exact h.exists_finish hr'
  | cons l rest ih =>
      unfold State.run at hr' ⊢
      cases hread' : s'.read ctx' l.token with
      | error e =>
          rw [hread'] at hr'
          cases hr'
      | ok m' =>
          obtain ⟨m, hread⟩ := exists_read hlenient h hread'
          rw [hread'] at hr'
          rw [hread]
          cases h.read hctx hread hread' with
          | read hnext => exact ih hnext hr'
          | stop => exact h.exists_finish hr'

end State.Refined

theorem Context.Refined.exists_evalOperand (hctx : ctx.Refined ctx')
    (hlenient : ctx.lenient = true) {indirect : Bool} {line : Line} {r' : Success}
    (hr' : Expr.evalOperand ctx' indirect line = .ok r') :
    ∃ r, Expr.evalOperand ctx indirect line = .ok r ∧ r.Refined r' := by
  obtain ⟨r, hr⟩ :=
    State.Refined.exists_run hctx hlenient ⟨.operand, .nil, rfl, rfl⟩ hr'
  exact ⟨r, hr, hctx.evalOperand hr hr'⟩

end Breadboard.Expr
