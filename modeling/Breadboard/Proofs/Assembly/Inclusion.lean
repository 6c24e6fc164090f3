import Breadboard.Proofs.Assembly.Reading
import Breadboard.Proofs.Assembly.Tokens

namespace Breadboard.Assembly

open Read

variable {line rest : Line} {p p' : Pass} {file? : Option String}

/-- The name that a statement includes, if it is an include directive. -/
def includedIn : List Token → Option String
  | [.word w, .text name] =>
      if Operation.ofMnemonic? w = none ∧ Directive.ofWord? w =
        some .include then some name else none
  | _ => none

/-- The name that a line includes. Before the directive there may be a label,
with or without a colon. -/
def includedName? (line : Line) : Option String :=
  match line.tokens with
  | .word _ :: .punct ':' :: rest => includedIn rest
  | .word w :: rest =>
    if beginsStatement w then includedIn (.word w :: rest) else includedIn rest
  | _ => none

private theorem includedIn_of_ofWord? {w : String} {ts : List Token}
    (h : Directive.ofWord? w ≠ some .include) : includedIn (.word w :: ts) = none := by
  unfold includedIn
  split
  · rename_i heq
    cases heq
    exact if_neg fun hw => h hw.2
  · rfl

private theorem includedIn_of_ofMnemonic? {w : String} {ts : List Token}
    (h : Operation.ofMnemonic? w ≠ none) : includedIn (.word w :: ts) = none := by
  unfold includedIn
  split
  · rename_i heq
    cases heq
    exact if_neg fun hw => h hw.1
  · rfl

private theorem directive_eq_ok {d : Directive}
    (h : directive d line p = .ok (file?, rest) p') :
    file? = none ∧ d ≠ .include ∨
      ∃ name, file? = some name ∧ d = .include ∧
        line.tokens = .text name :: rest.tokens := by
  cases d with
  | byte | word =>
      obtain ⟨_, _, -, hpure⟩ := bind_eq_ok_iff.1 h
      cases hpure
      exact .inl ⟨rfl, nofun⟩
  | origin =>
      obtain ⟨⟨v, _⟩, _, -, hmove⟩ := bind_eq_ok_iff.1 h
      cases v with
      | undefined => cases hmove
      | known v =>
          obtain ⟨_, _, -, hpure⟩ := bind_eq_ok_iff.1 hmove
          cases hpure
          exact .inl ⟨rfl, nofun⟩
  | «include» =>
      obtain ⟨next, hnext, hname⟩ := lift_bind_eq_ok_iff.1 h
      split at hname
      · cases hname
        exact .inr ⟨_, rfl, rfl, (next?_eq_ok hnext).1⟩
      · cases hname
  | breakpoint =>
      obtain ⟨_, _, -, hpure⟩ := bind_eq_ok_iff.1 h
      cases hpure
      exact .inl ⟨rfl, nofun⟩

theorem statement_eq_ok (h : statement line p = .ok file? p') :
    line.tokens = [] ∧ file? = none ∧ p' = p ∨
      (∃ w rest op rest', line.tokens = .word w :: rest.tokens ∧
        Operation.ofMnemonic? w = some op ∧
        file? = none ∧ instruction op rest p = .ok rest' p' ∧ expectEnd rest' = .ok ()) ∨
      ∃ w rest d rest', line.tokens = .word w :: rest.tokens ∧
        Operation.ofMnemonic? w = none ∧
        Directive.ofWord? w = some d ∧ directive d rest p = .ok (file?, rest') p' ∧
        expectEnd rest' = .ok () := by
  obtain ⟨next, hnext, hstatement⟩ := lift_bind_eq_ok_iff.1 h
  cases next with
  | none =>
      cases hstatement
      exact .inl ⟨next?_eq_ok_none hnext, rfl, rfl⟩
  | some next =>
      obtain ⟨t, rest⟩ := next
      have htokens := (next?_eq_ok hnext).1
      cases t with
      | word w =>
          dsimp only at hstatement
          cases hop : Operation.ofMnemonic? w with
          | some op =>
              rw [hop] at hstatement
              obtain ⟨rest', _, hinstruction, hrest⟩ := bind_eq_ok_iff.1 hstatement
              obtain ⟨_, hend, hpure⟩ := lift_bind_eq_ok_iff.1 hrest
              cases hpure
              exact .inr (.inl ⟨w, rest, op, rest', htokens, hop, rfl,
                hinstruction, hend⟩)
          | none =>
              rw [hop] at hstatement
              cases hd : Directive.ofWord? w with
              | none =>
                  rw [hd] at hstatement
                  cases hstatement
              | some d =>
                  rw [hd] at hstatement
                  obtain ⟨⟨_, rest'⟩, _, hdirective, hrest⟩ := bind_eq_ok_iff.1 hstatement
                  obtain ⟨_, hend, hpure⟩ := lift_bind_eq_ok_iff.1 hrest
                  cases hpure
                  exact .inr (.inr ⟨w, rest, d, rest', htokens, hop, hd,
                    hdirective, hend⟩)
      | _ =>
          obtain ⟨hcomplain, -⟩ := lift_eq_ok_iff.1 hstatement
          cases hcomplain

theorem included_of_statement (h : statement line p = .ok file? p') :
    file? = includedIn line.tokens := by
  obtain ⟨hnil, rfl, -⟩ | ⟨w, rest, op, rest', htokens, hop, rfl, -⟩ |
    ⟨w, rest, d, rest', htokens, hop, hd, hdirective, hend⟩ := statement_eq_ok h
  · rw [hnil]
    rfl
  · rw [htokens]
    exact (includedIn_of_ofMnemonic? (by simp [hop])).symm
  · rw [htokens]
    obtain ⟨rfl, hne⟩ | ⟨name, rfl, rfl, hname⟩ := directive_eq_ok hdirective
    · exact (includedIn_of_ofWord? (by simpa [hd] using hne)).symm
    · rw [hname, (expectEnd_eq_ok_iff.1 hend).1]
      exact (if_pos ⟨hop, hd⟩).symm

/-- The tokens of a line that begins in one of the ways that a line can begin. -/
def Begins (tokens : List Token) : Beginning → Prop
  | .nothing => tokens = []
  | .label name rest => tokens = .word name :: .punct ':' :: rest.tokens
  | .assignment name rest => tokens = .word name :: .punct '=' :: rest.tokens
  | .bareLabel name rest =>
      tokens = .word name :: rest.tokens ∧ beginsStatement name = false ∧
        rest.tokens.head? ≠ some (.punct ':')
  | .statement =>
      ∃ name rest, tokens = .word name :: rest ∧ beginsStatement name = true ∧
        rest.head? ≠ some (.punct ':')

theorem begins_of_beginning {b : Beginning} (h : beginning line = .ok b) :
    Begins line.tokens b := by
  unfold beginning at h
  cases hnext : next? line with
  | error e =>
      rw [hnext] at h
      cases h
  | ok next =>
      rw [hnext] at h
      cases next with
      | none =>
          cases h
          exact next?_eq_ok_none hnext
      | some next =>
          obtain ⟨t, rest⟩ := next
          have htokens := (next?_eq_ok hnext).1
          cases t with
          | word name =>
              cases hpeek : peek? rest with
              | error e =>
                  simp only [bind, Except.bind, hpeek] at h
                  cases h
              | ok t? =>
                  simp only [bind, Except.bind, hpeek] at h
                  have hhead := peek?_eq_ok hpeek
                  split at h
                  · cases h
                    exact htokens.trans (congrArg _ (tokens_skip hhead.symm))
                  · cases h
                    exact htokens.trans (congrArg _ (tokens_skip hhead.symm))
                  · rename_i hcolon _
                    rw [hhead] at hcolon
                    split at h
                    · cases h
                      exact ⟨name, _, htokens, ‹_›, hcolon⟩
                    · rename_i hbegins
                      split at h
                      · cases h
                        exact ⟨htokens, by simpa using hbegins, hcolon⟩
                      · cases h
          | _ => cases h

def Beginning.rest? : Beginning → Option Line
  | .label _ rest | .bareLabel _ rest | .assignment _ rest => some rest
  | _ => none

theorem suffix_of_begins {tokens : List Token} {b : Beginning} (h : Begins tokens b)
    (hrest : b.rest? = some rest) : rest.tokens <:+ tokens := by
  cases b with
  | nothing | statement => cases hrest
  | label name rest | assignment name rest =>
      cases hrest
      rw [show tokens = _ from h]
      exact (List.suffix_cons _ _).trans (List.suffix_cons _ _)
  | bareLabel name rest =>
      cases hrest
      rw [h.1]
      exact List.suffix_cons _ _

theorem mem_of_begins_assignment {tokens : List Token} {name : String}
    (h : Begins tokens (.assignment name rest)) : .word name ∈ tokens := by
  rw [show tokens = _ from h]
  exact List.mem_cons_self

theorem includedName?_of_head?_ne {w : String} {ts : List Token}
    (h : line.tokens = .word w :: ts) (hcolon : ts.head? ≠ some (.punct ':')) :
    includedName? line =
      if beginsStatement w then includedIn (.word w :: ts) else includedIn ts := by
  unfold includedName?
  rw [h]
  split
  · rename_i heq
    cases heq
    cases hcolon rfl
  · rename_i heq
    cases heq
    rfl
  · rename_i hword
    exact absurd rfl (hword w ts)

theorem included_of_assembleLine {l : Location} {text : String}
    (h : assembleLine l text p = .ok file? p') :
    file? = includedName? (.ofString text) := by
  obtain ⟨b, hbeginning, hrest⟩ := exists_of_assembleLine h
  generalize Line.ofString text = line at hbeginning hrest ⊢
  have hbegins := begins_of_beginning hbeginning
  cases b with
  | nothing =>
      cases hrest
      unfold includedName?
      rw [show line.tokens = [] from hbegins]
  | label name rest =>
      unfold includedName?
      rw [show line.tokens = _ from hbegins]
      exact included_of_statement hrest
  | assignment name rest =>
      obtain ⟨_, _, -, hpure⟩ := bind_eq_ok_iff.1 hrest
      cases hpure
      rw [includedName?_of_head?_ne hbegins (by simp)]
      simp [includedIn]
  | bareLabel name rest =>
      obtain ⟨htokens, hname, hcolon⟩ := hbegins
      rw [includedName?_of_head?_ne htokens hcolon, if_neg (Bool.eq_false_iff.1 hname)]
      exact included_of_statement hrest
  | statement =>
      obtain ⟨name, rest, htokens, hname, hcolon⟩ := hbegins
      rw [includedName?_of_head?_ne htokens hcolon, if_pos hname, ← htokens]
      exact included_of_statement hrest

end Breadboard.Assembly
