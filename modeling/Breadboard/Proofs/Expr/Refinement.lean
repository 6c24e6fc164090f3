import Breadboard.Proofs.Expr.Recognition
import Mathlib.Data.List.Forall2

namespace Breadboard.Expr

/-- The second value is the first, unless the first is undefined. -/
inductive Value.Refined : Value → Value → Prop
  | known (v : Int32) : Refined (.known v) (.known v)
  | undefined (v : Value) : Refined .undefined v

inductive Pending.Refined : Pending → Pending → Prop
  | unary (op : Unary) : Refined (.unary op) (.unary op)
  | binary {l l' : Value} (op : Binary) (left : l.Refined l') :
      Refined (.binary l op) (.binary l' op)
  | group : Refined .group .group

inductive Position.Refined : Position → Position → Prop
  | operand : Refined .operand .operand
  | after {v v' : Value} (value : v.Refined v') : Refined (.after v) (.after v')

structure State.Refined (s s' : State) : Prop where
  position : s.position.Refined s'.position
  pending : List.Forall₂ Pending.Refined s.pending s'.pending
  enclosure : s'.enclosure = s.enclosure
  asked : s'.asked = s.asked

inductive Move.Refined : Move → Move → Prop
  | read {s s' : State} (state : s.Refined s') : Refined (.read s) (.read s')
  | stop : Refined .stop .stop

structure Success.Refined (r r' : Success) : Prop where
  value : r.operand.value.Refined r'.operand.value
  enclosure : r'.operand.enclosure = r.operand.enclosure
  asked : r'.asked = r.asked
  rest : r'.rest = r.rest

structure Context.Refined (ctx ctx' : Context) : Prop where
  here : ctx'.here = ctx.here
  resolve : ∀ {name v}, ctx.resolve name = some v → ctx'.resolve name = some v

variable {v v' w w' : Value} {below below' : List Pending}

/-! Operators. -/

theorem Value.Refined.unary (h : v.Refined v') (op : Unary) :
    (op.applyValue v).Refined (op.applyValue v') := by
  cases h with
  | known v => exact .known _
  | undefined v => exact .undefined _

theorem Value.Refined.binary {l l' : Value} (hl : l.Refined l') (h : v.Refined v')
    {op : Binary} (hv : op.applyValue l v = .ok w) (hv' : op.applyValue l' v' = .ok w') :
    w.Refined w' := by
  cases hl with
  | undefined l' =>
      cases hv
      exact .undefined _
  | known l =>
      cases h with
      | undefined v' =>
          cases hv
          exact .undefined _
      | known v =>
          rw [hv] at hv'
          cases hv'
          cases hop : op.apply l v with
          | error e =>
              rw [Binary.applyValue, hop] at hv
              cases hv
          | ok u =>
              rw [Binary.applyValue, hop] at hv
              cases hv
              exact .known u

theorem bind_eq_ok_iff {ε α β : Type} {x : Except ε α} {f : α → Except ε β} {b : β} :
    x >>= f = .ok b ↔ ∃ a, x = .ok a ∧ f a = .ok b := by
  cases x with
  | ok a =>
      constructor
      · intro h
        exact ⟨a, rfl, h⟩
      · rintro ⟨_, hx, h⟩
        cases hx
        exact h
  | error e =>
      constructor
      · intro h
        cases h
      · rintro ⟨_, hx, -⟩
        cases hx

theorem Pending.Refined.reduce {level : Nat} {r r' : Value × List Pending}
    (h : List.Forall₂ Pending.Refined below below') (hv : v.Refined v')
    (hr : Pending.reduce level v below = .ok r)
    (hr' : Pending.reduce level v' below' = .ok r') :
    r.1.Refined r'.1 ∧ List.Forall₂ Pending.Refined r.2 r'.2 := by
  induction h generalizing v v' with
  | nil =>
      cases hr
      cases hr'
      exact ⟨hv, .nil⟩
  | cons htop hbelow ih =>
      cases htop with
      | unary op => exact ih (hv.unary op) hr hr'
      | binary op hl =>
          rw [Pending.reduce] at hr hr'
          by_cases hlevel : level ≤ op.level
          · rw [if_pos hlevel] at hr hr'
            obtain ⟨w, hw, hr⟩ := bind_eq_ok_iff.1 hr
            obtain ⟨w', hw', hr'⟩ := bind_eq_ok_iff.1 hr'
            exact ih (hl.binary hv hw hw') hr hr'
          · rw [if_neg hlevel] at hr hr'
            cases hr
            cases hr'
            exact ⟨hv, .cons (.binary op hl) hbelow⟩
      | group =>
          cases hr
          cases hr'
          exact ⟨hv, .cons .group hbelow⟩

theorem Pending.Refined.close {r r' : Value × List Pending}
    (h : List.Forall₂ Pending.Refined below below') (hv : v.Refined v')
    (hr : Pending.close v below = .ok r) (hr' : Pending.close v' below' = .ok r') :
    r.1.Refined r'.1 ∧ List.Forall₂ Pending.Refined r.2 r'.2 := by
  induction h generalizing v v' with
  | nil => cases hr
  | cons htop hbelow ih =>
      cases htop with
      | unary op => exact ih (hv.unary op) hr hr'
      | binary op hl =>
          obtain ⟨w, hw, hr⟩ := bind_eq_ok_iff.1 hr
          obtain ⟨w', hw', hr'⟩ := bind_eq_ok_iff.1 hr'
          exact ih (hl.binary hv hw hw') hr hr'
      | group =>
          cases hr
          cases hr'
          exact ⟨hv, hbelow⟩

theorem Pending.Refined.unwind {enclosure : Enclosure}
    (h : List.Forall₂ Pending.Refined below below') (hv : v.Refined v')
    (hr : Pending.unwind enclosure v below = .ok w)
    (hr' : Pending.unwind enclosure v' below' = .ok w') : w.Refined w' := by
  induction h generalizing v v' with
  | nil =>
      cases hr
      cases hr'
      exact hv
  | cons htop hbelow ih =>
      cases htop with
      | unary op => exact ih (hv.unary op) hr hr'
      | binary op hl =>
          obtain ⟨w, hw, hr⟩ := bind_eq_ok_iff.1 hr
          obtain ⟨w', hw', hr'⟩ := bind_eq_ok_iff.1 hr'
          exact ih (hl.binary hv hw hw') hr hr'
      | group =>
          rw [Pending.unwind] at hr hr'
          split at hr <;> cases hr
          split at hr' <;> cases hr'
          exact hv

theorem Pending.Refined.depth_eq (h : List.Forall₂ Pending.Refined below below') :
    Pending.depth below' = Pending.depth below := by
  induction h with
  | nil => rfl
  | cons htop _ ih =>
      cases htop with
      | unary op => simpa using ih
      | binary op _ => simpa using ih
      | group => simpa using ih

/-! Tokens. -/

variable {ctx ctx' : Context} {s s' t t' : State}

namespace State.Refined

theorem answer (h : s.Refined s') (hv : v.Refined v') :
    State.Refined { s with position := .after v } { s' with position := .after v' } :=
  ⟨.after hv, h.pending, h.enclosure, h.asked⟩

theorem push (h : s.Refined s') {top : Pending} (htop : top.Refined top) :
    (s.push top).Refined (s'.push top) :=
  ⟨h.position, .cons htop h.pending, h.enclosure, h.asked⟩

theorem readWord (hctx : ctx.Refined ctx') (h : s.Refined s') {word : String}
    (ht : s.readWord ctx word = .ok t) (ht' : s'.readWord ctx' word = .ok t') :
    t.Refined t' := by
  obtain ⟨w, hw, rfl⟩ := readWord_eq_ok_iff.1 ht
  obtain ⟨w', hw', rfl⟩ := readWord_eq_ok_iff.1 ht'
  refine ⟨.after ?_, h.pending, h.enclosure, congrArg (· ++ _) h.asked⟩
  unfold wordValue? at hw hw'
  split at hw
  · cases hw
  · rename_i n hword
    rw [hword] at hw'
    cases hw
    cases hw'
    exact .known _
  · rename_i name hword
    rw [hword] at hw'
    dsimp only at hw'
    split at hw
    · rename_i v hresolve
      rw [hctx.resolve hresolve] at hw'
      cases hw
      cases hw'
      exact .known v
    · split at hw <;> cases hw
      exact .undefined w'

theorem readPunct (hctx : ctx.Refined ctx') (h : s.Refined s') {c : Char}
    (ht : s.readPunct ctx c = .ok t) (ht' : s'.readPunct ctx' c = .ok t') :
    t.Refined t' := by
  unfold State.readPunct at ht ht'
  split at ht <;> cases ht <;> cases ht'
  · rw [hctx.here]
    exact h.answer (.known _)
  · exact h.push .group
  · exact h.push (.unary _)
  · exact h.push (.unary _)
  · exact h.push (.unary _)
  · exact h

theorem readOperand (hctx : ctx.Refined ctx') (h : s.Refined s') {token : Token}
    (ht : s.readOperand ctx token = .ok t) (ht' : s'.readOperand ctx' token = .ok t') :
    t.Refined t' := by
  unfold State.readOperand at ht ht'
  split at ht
  · exact h.readWord hctx ht ht'
  · cases ht
    cases ht'
    exact h.answer (.known _)
  · exact h.readPunct hctx ht ht'
  · cases ht

theorem close (h : s.Refined s') (hv : v.Refined v') (ht : s.close v = .ok t)
    (ht' : s'.close v' = .ok t') : t.Refined t' := by
  unfold State.close at ht ht'
  cases hclose : Pending.close v s.pending with
  | error e =>
      rw [hclose] at ht
      cases ht
  | ok r =>
      cases hclose' : Pending.close v' s'.pending with
      | error e =>
          rw [hclose'] at ht'
          cases ht'
      | ok r' =>
          rw [hclose] at ht
          rw [hclose'] at ht'
          cases ht
          cases ht'
          obtain ⟨hvalue, hpending⟩ := Pending.Refined.close h.pending hv hclose hclose'
          refine ⟨.after hvalue, hpending, ?_, h.asked⟩
          dsimp only
          rw [h.enclosure, Pending.Refined.depth_eq hpending]

theorem readBinary (h : s.Refined s') (hv : v.Refined v') {op : Binary}
    (ht : s.readBinary v op = .ok t) (ht' : s'.readBinary v' op = .ok t') :
    t.Refined t' := by
  unfold State.readBinary at ht ht'
  cases hreduce : Pending.reduce op.level v s.pending with
  | error e =>
      rw [hreduce] at ht
      cases ht
  | ok r =>
      cases hreduce' : Pending.reduce op.level v' s'.pending with
      | error e =>
          rw [hreduce'] at ht'
          cases ht'
      | ok r' =>
          rw [hreduce] at ht
          rw [hreduce'] at ht'
          cases ht
          cases ht'
          obtain ⟨hvalue, hpending⟩ :=
            Pending.Refined.reduce h.pending hv hreduce hreduce'
          refine ⟨.operand, .cons (.binary op hvalue) hpending, ?_, h.asked⟩
          dsimp only
          rw [h.enclosure]

theorem map_read {x y : Except Failure State} {m m' : Move} (hm : x.map Move.read = .ok m)
    (hm' : y.map Move.read = .ok m')
    (h : ∀ {t t'}, x = .ok t → y = .ok t' → t.Refined t') : m.Refined m' := by
  cases x with
  | error e => cases hm
  | ok t =>
      cases y with
      | error e => cases hm'
      | ok t' =>
          cases hm
          cases hm'
          exact .read (h rfl rfl)

theorem readAfter (h : s.Refined s') (hv : v.Refined v') {token : Token} {m m' : Move}
    (hm : s.readAfter v token = .ok m) (hm' : s'.readAfter v' token = .ok m') :
    m.Refined m' := by
  unfold State.readAfter at hm hm'
  rw [Pending.Refined.depth_eq h.pending, h.enclosure] at hm'
  split at hm
  · dsimp only at hm hm'
    split at hm <;> cases hm
    rename_i hdepth
    rw [if_pos hdepth] at hm'
    cases hm'
    exact .stop
  · dsimp only at hm hm'
    by_cases hdepth : Pending.depth s.pending = 0
    · rw [if_pos hdepth] at hm hm'
      cases hm
      cases hm'
      exact .stop
    · rw [if_neg hdepth] at hm hm'
      exact map_read hm hm' (h.close hv)
  · rename_i hcomma hparen
    split at hm'
    · exact absurd rfl hcomma
    · exact absurd rfl hparen
    · cases hop : Binary.ofToken? token with
      | none =>
          rw [hop] at hm hm'
          cases hm
          cases hm'
          exact .stop
      | some op =>
          rw [hop] at hm hm'
          exact map_read hm hm' (h.readBinary hv)

theorem read (hctx : ctx.Refined ctx') (h : s.Refined s') {token : Token} {m m' : Move}
    (hm : s.read ctx token = .ok m) (hm' : s'.read ctx' token = .ok m') :
    m.Refined m' := by
  have hposition := h.position
  unfold State.read at hm hm'
  split at hm
  · rename_i hoperand
    rw [hoperand] at hposition
    generalize s'.position = position' at hm' hposition
    cases hposition
    exact map_read hm hm' (h.readOperand hctx)
  · rename_i hafter
    rw [hafter] at hposition
    generalize s'.position = position' at hm' hposition
    cases hposition with
    | after hvalue => exact h.readAfter hvalue hm hm'

theorem finish (h : s.Refined s') {rest : Line} {r r' : Success}
    (hr : s.finish rest = .ok r) (hr' : s'.finish rest = .ok r') : r.Refined r' := by
  have hposition := h.position
  unfold State.finish at hr hr'
  split at hr
  · cases hr
  · rename_i v hafter
    rw [hafter] at hposition
    generalize s'.position = position' at hr' hposition
    cases hposition with
    | @after _ v' hvalue =>
        dsimp only at hr'
        rw [h.enclosure, h.asked] at hr'
        cases hunwind : Pending.unwind s.enclosure v s.pending with
        | error e =>
            rw [hunwind] at hr
            cases hr
        | ok w =>
            cases hunwind' : Pending.unwind s.enclosure v' s'.pending with
            | error e =>
                rw [hunwind'] at hr'
                cases hr'
            | ok w' =>
                rw [hunwind] at hr
                rw [hunwind'] at hr'
                cases hr
                cases hr'
                exact ⟨Pending.Refined.unwind h.pending hvalue hunwind hunwind',
                  rfl, rfl, rfl⟩

theorem run (hctx : ctx.Refined ctx') (h : s.Refined s') {fault : Option Fault}
    {lexemes : List Lexeme} {r r' : Success} (hr : s.run ctx fault lexemes = .ok r)
    (hr' : s'.run ctx' fault lexemes = .ok r') : r.Refined r' := by
  induction lexemes generalizing s s' with
  | nil =>
      unfold State.run at hr hr'
      cases fault with
      | some e => cases hr
      | none => exact h.finish hr hr'
  | cons l rest ih =>
      unfold State.run at hr hr'
      split at hr
      · cases hr
      · rename_i hread
        split at hr'
        · cases hr'
        · rename_i hread'
          cases h.read hctx hread hread' with
          | read hnext => exact ih hnext hr hr'
        · rename_i hread'
          cases h.read hctx hread hread'
      · rename_i hread
        split at hr'
        · cases hr'
        · rename_i hread'
          cases h.read hctx hread hread'
        · exact h.finish hr hr'

end State.Refined

theorem Context.Refined.evalOperand (hctx : ctx.Refined ctx') {indirect : Bool}
    {line : Line} {r r' : Success} (hr : Expr.evalOperand ctx indirect line = .ok r)
    (hr' : Expr.evalOperand ctx' indirect line = .ok r') : r.Refined r' :=
  State.Refined.run hctx ⟨.operand, .nil, rfl, rfl⟩ hr hr'

/-! Where no symbol may be unknown, all that are asked for are known. -/

def State.Resolved (ctx : Context) (s : State) : Prop :=
  ∀ name ∈ s.asked, (ctx.resolve name).isSome

theorem State.Resolved.readOperand (hstrict : ctx.lenient = false) (h : s.Resolved ctx)
    {token : Token} (ht : s.readOperand ctx token = .ok t) : t.Resolved ctx := by
  unfold State.readOperand at ht
  split at ht
  · rename_i w
    obtain ⟨v, hvalue, rfl⟩ := readWord_eq_ok_iff.1 ht
    intro name hname
    rcases List.mem_append.1 hname with hname | hname
    · exact h name hname
    · unfold wordValue? at hvalue
      unfold Tree.names at hname
      split at hname
      · rename_i hword
        rw [List.mem_singleton.1 hname]
        rw [hword] at hvalue
        dsimp only at hvalue
        split at hvalue
        · rename_i hresolve
          rw [hresolve]
          rfl
        · rw [hstrict] at hvalue
          cases hvalue
      · cases hname
  · cases ht
    exact h
  · unfold State.readPunct at ht
    split at ht <;> cases ht
    all_goals exact h
  · cases ht

theorem State.Resolved.readAfter (h : s.Resolved ctx) {token : Token}
    (ht : s.readAfter v token = .ok (.read t)) : t.Resolved ctx := by
  rcases close_or_readBinary_of_readAfter ht with ⟨-, hclose⟩ | ⟨op, -, hbinary⟩
  · unfold State.close at hclose
    split at hclose <;> cases hclose
    exact h
  · unfold State.readBinary at hbinary
    split at hbinary <;> cases hbinary
    exact h

theorem State.Resolved.run (hstrict : ctx.lenient = false) (h : s.Resolved ctx)
    {fault : Option Fault} {lexemes : List Lexeme} {r : Success}
    (hr : s.run ctx fault lexemes = .ok r) :
    ∀ name ∈ r.asked, (ctx.resolve name).isSome := by
  have hfinish : ∀ {s : State} {rest : Line}, s.Resolved ctx → s.finish rest = .ok r →
      ∀ name ∈ r.asked, (ctx.resolve name).isSome := by
    intro s rest h hr
    unfold State.finish at hr
    split at hr
    · cases hr
    · split at hr <;> cases hr
      exact h
  induction lexemes generalizing s with
  | nil =>
      unfold State.run at hr
      cases fault with
      | some e => cases hr
      | none => exact hfinish h hr
  | cons l rest ih =>
      unfold State.run at hr
      split at hr
      · cases hr
      · rename_i hread
        rcases readOperand_or_readAfter_of_read hread with ⟨-, hoperand⟩ | ⟨v, -, hafter⟩
        · exact ih (h.readOperand hstrict hoperand) hr
        · exact ih (h.readAfter hafter) hr
      · exact hfinish h hr

theorem isSome_resolve_of_evalOperand (hstrict : ctx.lenient = false) {indirect : Bool}
    {line : Line} {r : Success} (hr : evalOperand ctx indirect line = .ok r) :
    ∀ name ∈ r.asked, (ctx.resolve name).isSome :=
  State.Resolved.run hstrict (fun _ hname => by cases hname) hr

end Breadboard.Expr
