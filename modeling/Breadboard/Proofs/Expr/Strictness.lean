import Breadboard.Proofs.Expr.Recognition

namespace Breadboard.Expr

variable {ctx ctx' : Context} {e : Tree} {s s' : State} {t : Token} {v : Int32}
    {name : String}

def Context.strict (ctx : Context) : Context :=
  { ctx with lenient := false }

def Context.forgiving (ctx : Context) : Context :=
  { ctx with lenient := true }

/-- In two contexts a name is known, and stands for the same value. -/
def Context.Share (ctx ctx' : Context) (name : String) : Prop :=
  ∃ v, ctx.resolve name = some v ∧ ctx'.resolve name = some v

/-! Names. -/

def nameOf? : Token → Option String
  | .word w =>
      match Word.classify w with
      | .ok (.symbol name) => some name
      | _ => none
  | _ => none

private theorem nameOf?_word_eq_some_iff {w : String} :
    nameOf? (.word w) = some name ↔ Word.classify w = .ok (.symbol name) := by
  rw [nameOf?]
  cases Word.classify w with
  | error e => simp
  | ok word => cases word <;> simp

theorem names_word (w : String) : (Tree.word w).names = (nameOf? (.word w)).toList := by
  rw [Tree.names, nameOf?]
  cases Word.classify w with
  | error e => rfl
  | ok word => cases word <;> rfl

private theorem nameOf?_of_mem_operators {p : Phrase} {op : Binary}
    (h : (t, op) ∈ p.operators) :
    nameOf? t = none := by
  have hall : ∀ operator ∈ p.operators, nameOf? operator.1 = none := by
    cases p <;> decide
  exact hall _ h

private theorem nameOf?_of_mem_signs {op : Unary} (h : (t, op) ∈ signs) :
    nameOf? t = none := by
  have hall : ∀ sign ∈ signs, nameOf? sign.1 = none := by decide
  exact hall _ h

private theorem names_of_forms {p : Phrase} {ts : List Token} (h : Forms p ts e) :
    e.names = ts.filterMap nameOf? := by
  induction h with
  | word w =>
      rw [names_word]
      cases hname : nameOf? (.word w) <;> simp [hname]
  | char c => rfl
  | here => rfl
  | group _ ih =>
      rw [List.cons_append, List.filterMap_cons_none rfl, List.filterMap_append, ih]
      exact (List.append_nil _).symm
  | unary sign _ ih =>
      rw [List.filterMap_cons_none (nameOf?_of_mem_signs sign)]
      exact ih
  | plus _ ih => exact ih
  | binary operator _ _ ihl ihr =>
      rw [List.filterMap_append,
        List.filterMap_cons_none (nameOf?_of_mem_operators operator), ← ihl, ← ihr]
      rfl
  | part _ ih => exact ih

/-! Expressions. -/

theorem wordValue?_eq_of_share {w : String}
    (h : ∀ name ∈ nameOf? (.word w), ctx.Share ctx' name) :
    wordValue? ctx' w = wordValue? ctx w := by
  unfold wordValue?
  cases hword : Word.classify w with
  | error e => rfl
  | ok word =>
      cases word with
      | number n => rfl
      | symbol name =>
          obtain ⟨v, hv, hv'⟩ := h name (nameOf?_word_eq_some_iff.2 hword)
          dsimp only
          rw [hv, hv']

namespace Tree

private theorem value?_eq_of_share (hhere : ctx'.here = ctx.here)
    (h : ∀ name ∈ e.names, ctx.Share ctx' name) : e.value? ctx' = e.value? ctx := by
  induction e with
  | word w =>
      simp only [names_word, Option.mem_toList] at h
      exact wordValue?_eq_of_share h
  | char _ => rfl
  | here => rw [value?, value?, hhere]
  | unary op e ih => rw [value?, value?, ih h]
  | binary op l r ihl ihr =>
      rw [value?, value?, ihl fun name hname => h name (List.mem_append_left _ hname),
        ihr fun name hname => h name (List.mem_append_right _ hname)]

/-- What is undefined remains so under every operator, so all names of a
known value are known. -/
theorem isSome_resolve_of_value? (h : e.value? ctx = some (.known v)) :
    ∀ name ∈ e.names, (ctx.resolve name).isSome := by
  induction e generalizing v with
  | word w =>
      rw [value?, wordValue?] at h
      unfold names
      split
      · rename_i name hword
        rw [hword] at h
        dsimp only at h
        intro other hother
        rw [List.mem_singleton.1 hother]
        cases hname : ctx.resolve name with
        | some v => rfl
        | none =>
            rw [hname] at h
            dsimp only at h
            split at h <;> cases h
      · exact List.forall_mem_nil _
  | char _ => exact List.forall_mem_nil _
  | here => exact List.forall_mem_nil _
  | unary op e ih =>
      obtain ⟨a, ha, hop⟩ := Option.map_eq_some_iff.1 h
      cases a with
      | known a => exact ih ha
      | undefined => cases hop
  | binary op l r ihl ihr =>
      obtain ⟨a, ha, h⟩ := Option.bind_eq_some_iff.1 h
      obtain ⟨b, hb, hop⟩ := Option.bind_eq_some_iff.1 h
      intro name hname
      cases a with
      | undefined => cases hop
      | known a =>
          cases b with
          | undefined => cases hop
          | known b =>
              obtain hname | hname := List.mem_append.1 hname
              · exact ihl ha name hname
              · exact ihr hb name hname

end Tree

/-! Steps. -/

namespace State

private theorem asked_of_readOperand (h : s.readOperand ctx t = .ok s') :
    s'.asked = s.asked ++ (nameOf? t).toList := by
  unfold readOperand at h
  split at h
  · obtain ⟨v, -, rfl⟩ := readWord_eq_ok_iff.1 h
    rw [← names_word]
  · cases h
    exact (List.append_nil _).symm
  · unfold readPunct at h
    split at h <;> cases h
    all_goals exact (List.append_nil _).symm
  · cases h

private theorem nameOf?_of_readAfter {v : Value} (h : s.readAfter v t = .ok (.read s')) :
    nameOf? t = none := by
  obtain ⟨rfl, -⟩ | ⟨op, hop, -⟩ := close_or_readBinary_of_readAfter h
  · rfl
  · obtain ⟨p, hmem⟩ := Binary.ofToken?_eq_some_iff.1 hop
    exact nameOf?_of_mem_operators hmem

private theorem asked_of_readAfter {v : Value} (h : s.readAfter v t = .ok (.read s')) :
    s'.asked = s.asked := by
  obtain ⟨-, hclose⟩ | ⟨op, -, hbinary⟩ := close_or_readBinary_of_readAfter h
  · unfold close at hclose
    split at hclose <;> cases hclose
    rfl
  · unfold readBinary at hbinary
    split at hbinary <;> cases hbinary
    rfl

private theorem asked_of_read (h : s.read ctx t = .ok (.read s')) :
    s'.asked = s.asked ++ (nameOf? t).toList := by
  obtain ⟨-, hoperand⟩ | ⟨v, -, hafter⟩ := readOperand_or_readAfter_of_read h
  · exact asked_of_readOperand hoperand
  · rw [nameOf?_of_readAfter hafter, asked_of_readAfter hafter]
    exact (List.append_nil _).symm

private theorem readOperand_of_share (hhere : ctx'.here = ctx.here)
    (hread : s.readOperand ctx t = .ok s') (h : ∀ name ∈ nameOf? t, ctx.Share ctx' name) :
    s.readOperand ctx' t = .ok s' := by
  cases t with
  | word w =>
      obtain ⟨v, hv, hs'⟩ := readWord_eq_ok_iff.1 hread
      exact readWord_eq_ok_iff.2 ⟨v, (wordValue?_eq_of_share h).trans hv, hs'⟩
  | punct c =>
      rw [← hread, readOperand, readOperand, readPunct.eq_def, readPunct.eq_def, hhere]
  | _ => exact hread

private theorem read_of_share (hhere : ctx'.here = ctx.here)
    (hread : s.read ctx t = .ok (.read s'))
    (h : ∀ name ∈ nameOf? t, ctx.Share ctx' name) : s.read ctx' t = .ok (.read s') := by
  obtain ⟨hposition, hoperand⟩ | ⟨v, hposition, hafter⟩ :=
    readOperand_or_readAfter_of_read hread
  · exact read_eq_of_operand hposition (readOperand_of_share hhere hoperand h)
  · rw [read, hposition]
    exact hafter

private theorem read_of_unknown (hstrict : ctx'.lenient = false)
    (hread : s.read ctx t = .ok (.read s')) (hname : nameOf? t = some name)
    (hunknown : ctx'.resolve name = none) :
    s.read ctx' t = .error ⟨.undefinedSymbol name, s.asked ++ [name]⟩ := by
  obtain ⟨hposition, -⟩ | ⟨v, -, hafter⟩ := readOperand_or_readAfter_of_read hread
  · cases t with
    | word w =>
        have hword := nameOf?_word_eq_some_iff.1 hname
        simp [read, hposition, readOperand, readWord, hword, hunknown, hstrict,
          fail, Except.map]
    | _ => cases hname
  · rw [nameOf?_of_readAfter hafter] at hname
    cases hname

theorem asked_of_finish {rest : Line} {r : Success} (h : s.finish rest = .ok r) :
    r.asked = s.asked := by
  unfold finish at h
  split at h
  · cases h
  · split at h <;> cases h
    rfl

/-! Runs. -/

variable {fault : Option Fault} {lexemes : List Lexeme} {r : Success}

private theorem exists_asked_of_run (h : s.run ctx fault lexemes = .ok r) :
    ∃ more, r.asked = s.asked ++ more := by
  induction lexemes generalizing s with
  | nil =>
      unfold run at h
      split at h
      · cases h
      · exact ⟨[], (asked_of_finish h).trans (List.append_nil _).symm⟩
  | cons l lexemes ih =>
      unfold run at h
      split at h
      · cases h
      · rename_i s' hread
        obtain ⟨more, hmore⟩ := ih h
        rw [asked_of_read hread, List.append_assoc] at hmore
        exact ⟨_, hmore⟩
      · exact ⟨[], (asked_of_finish h).trans (List.append_nil _).symm⟩

/-- A strict evaluation does what another one does up to the first name that is not
known. -/
theorem run_of_unknown (hhere : ctx'.here = ctx.here) (hstrict : ctx'.lenient = false)
    {before after : List String} (hrun : s.run ctx fault lexemes = .ok r)
    (hasked : r.asked = s.asked ++ (before ++ name :: after))
    (hbefore : ∀ other ∈ before, ctx.Share ctx' other)
    (hunknown : ctx'.resolve name = none) :
    s.run ctx' fault lexemes =
      .error ⟨.undefinedSymbol name, s.asked ++ (before ++ [name])⟩ := by
  induction lexemes generalizing s before with
  | nil =>
      unfold run at hrun
      split at hrun
      · cases hrun
      · simp [asked_of_finish hrun] at hasked
  | cons l lexemes ih =>
      unfold run at hrun ⊢
      split at hrun
      · cases hrun
      · rename_i s' hread
        have hnext := asked_of_read hread
        cases hname : nameOf? l.token with
        | none =>
            have hsame : s'.asked = s.asked := by simpa [hname] using hnext
            have hread' : s.read ctx' l.token = .ok (.read s') :=
              read_of_share hhere hread (by simp [hname])
            rw [← hsame] at hasked
            rw [hread', ← hsame]
            exact ih hrun hasked hbefore
        | some first =>
            obtain ⟨more, hmore⟩ := exists_asked_of_run hrun
            have hfirst : before ++ name :: after = first :: more := by
              rw [hasked, hnext, hname, List.append_assoc] at hmore
              exact List.append_cancel_left hmore
            cases before with
            | nil =>
                cases hfirst
                rw [read_of_unknown hstrict hread hname hunknown]
                rfl
            | cons other before =>
                obtain ⟨rfl, -⟩ := List.cons.inj hfirst
                have hnext' : s'.asked = s.asked ++ [other] := by rw [hnext, hname]; rfl
                have hread' : s.read ctx' l.token = .ok (.read s') :=
                  read_of_share hhere hread
                    (by simpa [hname] using hbefore other List.mem_cons_self)
                have hasked' : r.asked = s'.asked ++ (before ++ name :: after) := by
                  simp [hasked, hnext']
                have hrest := ih hrun hasked' fun other' hother' =>
                  hbefore other' (List.mem_cons_of_mem _ hother')
                rw [hread']
                simpa [hnext'] using hrest
      · simp [asked_of_finish hrun] at hasked

end State

/-! Evaluations. -/

variable {line : Line} {r : Success}

private theorem eval_of_share (hhere : ctx'.here = ctx.here) (h : eval ctx line = .ok r)
    (hshare : ∀ name ∈ r.asked, ctx.Share ctx' name) : eval ctx' line = .ok r := by
  obtain ⟨e, read, hlexemes, hfault, hends, hforms, hvalue, henclosure, hasked⟩ :=
    evalOperand_false_eq_ok_iff.1 h
  rw [hasked] at hshare
  have hsame := (Tree.value?_eq_of_share hhere hshare).trans hvalue
  exact evalOperand_false_eq_ok_iff.2
    ⟨e, read, hlexemes, hfault, hends, hforms, hsame, henclosure, hasked⟩

private theorem isSome_resolve_of_eval (h : eval ctx line = .ok r)
    (hvalue : r.operand.value = .known v) :
    ∀ name ∈ r.asked, (ctx.resolve name).isSome := by
  obtain ⟨e, -, -, -, -, -, he, -, hasked⟩ := evalOperand_false_eq_ok_iff.1 h
  rw [hasked]
  exact Tree.isSome_resolve_of_value? (he.trans (congrArg some hvalue))

theorem eval_of_agree (hhere : ctx'.here = ctx.here) (h : eval ctx line = .ok r)
    (hvalue : r.operand.value = .known v)
    (hagree : ∀ name ∈ r.asked, ctx'.resolve name = ctx.resolve name) :
    eval ctx' line = .ok r := by
  refine eval_of_share hhere h fun name hname => ?_
  obtain ⟨w, hw⟩ :=
    Option.isSome_iff_exists.1 (isSome_resolve_of_eval h hvalue name hname)
  exact ⟨w, hw, (hagree name hname).trans hw⟩

private theorem exists_known_of_eval_strict (h : eval ctx.strict line = .ok r) :
    ∃ v, r.operand.value = .known v := by
  obtain ⟨e, -, -, -, -, -, he, -, -⟩ := evalOperand_false_eq_ok_iff.1 h
  exact Tree.exists_known_of_value? rfl he

private theorem exists_split_of_unknown {resolve : String → Option Int32}
    {names : List String} (h : ∃ name ∈ names, resolve name = none) :
    ∃ before name after, names = before ++ name :: after ∧
      (∀ other ∈ before, (resolve other).isSome) ∧ resolve name = none := by
  have hfound : (names.find? fun name => (resolve name).isNone).isSome := by
    simpa [List.find?_isSome] using h
  obtain ⟨name, hname⟩ := Option.isSome_iff_exists.1 hfound
  obtain ⟨hunknown, before, after, rfl, hbefore⟩ := List.find?_eq_some_iff_append.1 hname
  refine ⟨before, name, after, rfl, fun other hother => ?_,
    Option.isNone_iff_eq_none.1 hunknown⟩
  simpa [Option.isSome_iff_ne_none] using hbefore other hother

private theorem exists_unknown_of_eval (h : eval ctx.forgiving line = .ok r)
    (hvalue : r.operand.value = .undefined) :
    ∃ name ∈ r.asked, ctx.resolve name = none := by
  by_contra hall
  simp only [not_exists, not_and] at hall
  have hshare : ∀ name ∈ r.asked, ctx.forgiving.Share ctx.strict name := by
    intro name hname
    obtain ⟨w, hw⟩ := Option.ne_none_iff_exists'.1 (hall name hname)
    exact ⟨w, hw, hw⟩
  have hhere : ctx.strict.here = ctx.forgiving.here := rfl
  have hstrict := eval_of_share hhere h hshare
  obtain ⟨v, hknown⟩ := exists_known_of_eval_strict hstrict
  rw [hvalue] at hknown
  cases hknown

/-- How strict and lenient evaluation of a line go together. -/
structure Concurs (ctx : Context) (line : Line) : Prop where
  known_iff : ∀ {r v}, r.operand.value = .known v →
    (eval ctx.strict line = .ok r ↔ eval ctx.forgiving line = .ok r)
  defined : ∀ {r}, eval ctx.strict line = .ok r → r.operand.value ≠ .undefined
  refused : ∀ {r}, eval ctx.forgiving line = .ok r → r.operand.value = .undefined →
    ∃ before name after, r.asked = before ++ name :: after ∧
      (∀ other ∈ before, (ctx.resolve other).isSome) ∧ ctx.resolve name = none ∧
      eval ctx.strict line = .error ⟨.undefinedSymbol name, before ++ [name]⟩
  asked : ∀ {r}, eval ctx.forgiving line = .ok r →
    ∃ read, line.lexemes = read ++ r.rest.lexemes ∧
      r.asked = (read.map Lexeme.token).filterMap nameOf?
  determined : ∀ {r v ctx'}, eval ctx line = .ok r → r.operand.value = .known v →
    ctx'.here = ctx.here → (∀ name ∈ r.asked, ctx'.resolve name = ctx.resolve name) →
    eval ctx' line = .ok r

theorem concurs_strict_forgiving (ctx : Context) (line : Line) : Concurs ctx line where
  known_iff {r v} hvalue := by
    have hhere : ctx.strict.here = ctx.forgiving.here := rfl
    have hresolve : ctx.strict.resolve = ctx.forgiving.resolve := rfl
    constructor
    · intro h
      exact eval_of_agree hhere.symm h hvalue fun name _ => congrFun hresolve.symm name
    · intro h
      exact eval_of_agree hhere h hvalue fun name _ => congrFun hresolve name
  defined {r} h := by
    obtain ⟨v, hvalue⟩ := exists_known_of_eval_strict h
    rw [hvalue]
    nofun
  refused {r} h hvalue := by
    obtain ⟨before, name, after, hasked, hbefore, hunknown⟩ :=
      exists_split_of_unknown (exists_unknown_of_eval h hvalue)
    refine ⟨before, name, after, hasked, hbefore, hunknown, ?_⟩
    have hhere : ctx.strict.here = ctx.forgiving.here := rfl
    have hshare : ∀ other ∈ before, ctx.forgiving.Share ctx.strict other := by
      intro other hother
      obtain ⟨w, hw⟩ := Option.isSome_iff_exists.1 (hbefore other hother)
      exact ⟨w, hw, hw⟩
    exact State.run_of_unknown hhere rfl h hasked hshare hunknown
  asked {r} h := by
    obtain ⟨e, read, hlexemes, -, -, hforms, -, -, hasked⟩ :=
      evalOperand_false_eq_ok_iff.1 h
    exact ⟨read, hlexemes, hasked.trans (names_of_forms hforms)⟩
  determined h hvalue hhere hagree := eval_of_agree hhere h hvalue hagree

/-- What is not known is undefined even if it is divided by zero, but a strict
evaluation stops before. -/
example :
    let ctx : Context := { here := 0, resolve := fun _ => none, lenient := true }
    let line : Line := ⟨[⟨.word "x", 0, 1⟩, ⟨.punct '/', 1, 2⟩, ⟨.char 0, 2, 5⟩], none⟩
    eval ctx line = .ok ⟨⟨.undefined, .bare⟩, ["x"], ⟨[], none⟩⟩ ∧
      eval ctx.strict line = .error ⟨.undefinedSymbol "x", ["x"]⟩ := by
  exact ⟨rfl, rfl⟩

end Breadboard.Expr
