import Breadboard.Token.Lexer
import Mathlib.Data.List.TakeWhile
import Mathlib.Logic.Function.Iterate

namespace Breadboard

/-- The patterns of the language, with what their spellings stand for: a token, an error,
or nothing if it is a comment. -/
inductive Pattern : List Char → Except LexError (Option Token) → Prop
  | word {c : Char} {cs : List Char} (hword : ∀ d ∈ c :: cs, isWordChar d = true) :
      Pattern (c :: cs) (.ok (some (.word (String.ofList (c :: cs)))))
  | radix {sigil c : Char} {cs : List Char} (hsigil : sigil = '$' ∨ sigil = '%')
      (hword : ∀ d ∈ c :: cs, isWordChar d = true) :
      Pattern (sigil :: c :: cs) (.ok (some (.word (String.ofList (sigil :: c :: cs)))))
  | text {content closing : List Char} (hcontent : ∀ c ∈ content, c ≠ '"' ∧ c ≠ '\n')
      (hclosing : closing = [] ∨ closing = ['"']) :
      Pattern ('"' :: (content ++ closing)) (.ok (some (.text (String.ofList content))))
  | char {c : Char} {closing : List Char} (hfeed : c ≠ '\n') (hascii : c.toNat < 0x80)
      (hclosing : closing = [] ∨ closing = ['\x27']) :
      Pattern ('\x27' :: c :: closing) (.ok (some (.char c.toUInt8)))
  | nonAscii {c : Char} {closing : List Char} (hascii : 0x80 ≤ c.toNat)
      (hclosing : closing = [] ∨ closing = ['\x27']) :
      Pattern ('\x27' :: c :: closing) (.error .nonAsciiChar)
  | shiftLeft : Pattern ['<', '<'] (.ok (some .shiftLeft))
  | shiftRight : Pattern ['>', '>'] (.ok (some .shiftRight))
  | punct {c : Char} (hpunct : isPunct c = true) : Pattern [c] (.ok (some (.punct c)))
  | comment {cs : List Char} (hfeed : ∀ c ∈ cs, c ≠ '\n') : Pattern (';' :: cs) (.ok none)

/-- The longest beginning of a text that a pattern matches. -/
structure Longest (cs spelling : List Char) : Prop where
  begins : spelling <+: cs
  matched : ∃ meaning, Pattern spelling meaning
  longest : ∀ other meaning, other <+: cs → Pattern other meaning →
    other.length ≤ spelling.length

/-- Nothing that a pattern matches begins a text, which is not over. -/
structure Unmatched (cs : List Char) : Prop where
  ne_nil : cs ≠ []
  not_pattern : ∀ other meaning, other <+: cs → ¬Pattern other meaning

variable {c : Char} {cs ds : List Char} {meaning : Except LexError (Option Token)}

/-! Patterns by their first character. -/

theorem of_isPunct (hpunct : isPunct c = true) :
    isWordChar c = false ∧ c ∉ ['$', '%', '"', '\x27', ';'] := by
  have hmarks : "#(),:=+-*/&|<>".toList.all
      (fun c => !isWordChar c && decide (c ∉ ['$', '%', '"', '\x27', ';'])) =
        true := by decide
  have hmark := List.all_eq_true.1 hmarks c (List.contains_iff_mem.1 hpunct)
  simpa using hmark

namespace Pattern

theorem ne_nil {spelling : List Char} (h : Pattern spelling meaning) : spelling ≠ [] := by
  cases h with
  | _ => exact List.cons_ne_nil _ _

theorem isWordChar_of_mem (h : Pattern (c :: ds) meaning)
    (hc : isWordChar c = true ∨ c = '$' ∨ c = '%') : ∀ d ∈ ds, isWordChar d = true := by
  cases h with
  | word hword => exact fun d hd => hword d (List.mem_cons_of_mem _ hd)
  | radix _ hword => exact hword
  | punct => exact fun d hd => absurd hd List.not_mem_nil
  | _ => exact absurd hc (by decide)

theorem ne_nil_of_sigil (h : Pattern (c :: ds) meaning) (hc : c = '$' ∨ c = '%') :
    ds ≠ [] := by
  cases h with
  | word hword =>
      have hsigil := hword c List.mem_cons_self
      obtain rfl | rfl := hc
      · exact absurd hsigil (by decide)
      · exact absurd hsigil (by decide)
  | radix => exact List.cons_ne_nil _ _
  | punct hpunct =>
      obtain ⟨-, hmark⟩ := of_isPunct hpunct
      obtain rfl | rfl := hc
      · exact absurd (by decide) hmark
      · exact absurd (by decide) hmark
  | _ => exact absurd hc (by decide)

private theorem of_text (h : Pattern ('"' :: ds) meaning) :
    ∃ content closing, ds = content ++ closing ∧ (∀ c ∈ content, c ≠ '"' ∧ c ≠ '\n') ∧
      (closing = [] ∨ closing = ['"']) := by
  cases h with
  | word hword => exact absurd (hword _ List.mem_cons_self) (by decide)
  | radix hsigil => exact absurd hsigil (by decide)
  | text hcontent hclosing => exact ⟨_, _, rfl, hcontent, hclosing⟩
  | punct hpunct => exact absurd hpunct (by decide)

theorem of_char (h : Pattern ('\x27' :: ds) meaning) :
    ∃ c closing, ds = c :: closing ∧ c ≠ '\n' ∧ (closing = [] ∨ closing = ['\x27']) := by
  cases h with
  | word hword => exact absurd (hword _ List.mem_cons_self) (by decide)
  | radix hsigil => exact absurd hsigil (by decide)
  | char hfeed _ hclosing => exact ⟨_, _, rfl, hfeed, hclosing⟩
  | nonAscii hascii hclosing =>
      refine ⟨_, _, rfl, ?_, hclosing⟩
      rintro rfl
      exact absurd hascii (by decide)
  | punct hpunct => exact absurd hpunct (by decide)

private theorem of_mark (h : Pattern (c :: ds) meaning) (hword : isWordChar c = false)
    (hc : c ∉ ['$', '%', '"', '\x27', ';']) :
    ((c = '<' ∨ c = '>') ∧ ds = [c]) ∨ (isPunct c = true ∧ ds = []) := by
  cases h with
  | word hword' => exact absurd (hword' c List.mem_cons_self) (by simp [hword])
  | radix hsigil => exact absurd hsigil (by simp_all)
  | shiftLeft => exact .inl ⟨.inl rfl, rfl⟩
  | shiftRight => exact .inl ⟨.inr rfl, rfl⟩
  | punct hpunct => exact .inr ⟨hpunct, rfl⟩
  | _ => exact absurd (by decide) hc

end Pattern

/-! The beginning of a text. -/

theorem Longest.cons {tail : List Char} (hbegins : tail <+: cs)
    (hmatched : Pattern (c :: tail) meaning)
    (hlongest : ∀ ds meaning, ds <+: cs → Pattern (c :: ds) meaning →
      ds.length ≤ tail.length) :
    Longest (c :: cs) (c :: tail) where
  begins := List.cons_prefix_cons.2 ⟨rfl, hbegins⟩
  matched := ⟨meaning, hmatched⟩
  longest := by
    intro other meaning hother hpattern
    cases other with
    | nil => exact absurd rfl hpattern.ne_nil
    | cons d ds =>
        obtain ⟨rfl, hds⟩ := List.cons_prefix_cons.1 hother
        exact Nat.succ_le_succ (hlongest ds meaning hds hpattern)

theorem Unmatched.of_cons
    (hunmatched : ∀ ds meaning, ds <+: cs → ¬Pattern (c :: ds) meaning) :
    Unmatched (c :: cs) := by
  refine ⟨List.cons_ne_nil c cs, fun other meaning hother hpattern => ?_⟩
  cases other with
  | nil => exact hpattern.ne_nil rfl
  | cons d ds =>
      obtain ⟨rfl, hds⟩ := List.cons_prefix_cons.1 hother
      exact hunmatched ds meaning hds hpattern

theorem length_le_takeWhile {accepts : Char → Bool} (hds : ds <+: cs)
    (haccepts : ∀ d ∈ ds, accepts d = true) :
    ds.length ≤ (cs.takeWhile accepts).length := by
  obtain ⟨rest, rfl⟩ := hds
  rw [List.takeWhile_append_of_pos haccepts, List.length_append]
  exact Nat.le_add_right _ _

namespace Scan

def Describes (cs : List Char) : Scan → Prop
  | .finish => cs = [] ∨ ∃ comment, cs = ';' :: comment
  | .token t spelling rest =>
      cs = spelling ++ rest ∧ Longest cs spelling ∧ Pattern spelling (.ok (some t))
  | .refused e spelling rest =>
      cs = spelling ++ rest ∧ Longest cs spelling ∧ Pattern spelling (.error e)
  | .unmatched => Unmatched cs

private theorem describes_word (hc : isWordChar c = true ∨ c = '$' ∨ c = '%')
    (hpattern : Pattern (c :: cs.takeWhile isWordChar)
      (.ok (some (.word (String.ofList (c :: cs.takeWhile isWordChar)))))) :
    (word (c :: cs.takeWhile isWordChar) (cs.dropWhile isWordChar)).Describes
      (c :: cs) := by
  refine ⟨by simp,
    .cons (List.takeWhile_prefix _) hpattern fun ds meaning hds hother => ?_, hpattern⟩
  exact length_le_takeWhile hds (hother.isWordChar_of_mem hc)

theorem span_of_stops {accepts : Char → Bool} {piece rest : List Char}
    (hpiece : ∀ c ∈ piece, accepts c = true)
    (hstop : ∀ c ∈ rest.head?, accepts c = false) :
    (piece ++ rest).takeWhile accepts = piece ∧
    (piece ++ rest).dropWhile accepts = rest := by
  rw [List.takeWhile_append_of_pos hpiece, List.dropWhile_append_of_pos hpiece]
  cases rest with
  | nil => simp
  | cons c rest =>
      have hc : ¬accepts c = true := by simp [hstop c rfl]
      rw [List.takeWhile_cons_of_neg hc, List.dropWhile_cons_of_neg hc]
      exact ⟨List.append_nil piece, rfl⟩

private theorem describes_text (cs : List Char) : (text cs).Describes ('"' :: cs) := by
  unfold text
  dsimp only
  generalize hinside : (fun c => c != '"' && c != '\n') = inside
  have hmem : ∀ c, inside c = true ↔ c ≠ '"' ∧ c ≠ '\n' := by
    intro c
    rw [← hinside]
    simp
  have hcontent : ∀ c ∈ cs.takeWhile inside, c ≠ '"' ∧ c ≠ '\n' := fun c hc =>
    (hmem c).1 (List.mem_takeWhile_imp hc)
  have happend := List.takeWhile_append_dropWhile (p := inside) (l := cs)
  split
  · rename_i rest hdrop
    rw [hdrop] at happend
    have hpattern := Pattern.text hcontent (.inr rfl)
    refine ⟨by simp [happend],
      .cons ⟨rest, by simp [happend]⟩ hpattern fun ds meaning hds hother => ?_,
      hpattern⟩
    obtain ⟨content, closing, rfl, hother, hclosing⟩ := hother.of_text
    have hle := length_le_takeWhile ((List.prefix_append _ _).trans hds) fun c hc =>
      (hmem c).2 (hother c hc)
    obtain rfl | rfl := hclosing
    · simpa using hle.trans (Nat.le_succ _)
    · simpa using hle
  · rename_i hopen
    have hpattern := Pattern.text hcontent (.inl rfl)
    rw [List.append_nil] at hpattern
    refine ⟨by simp [happend],
      .cons (List.takeWhile_prefix _) hpattern fun ds meaning hds hother => ?_,
      hpattern⟩
    obtain ⟨content, closing, rfl, hother, hclosing⟩ := hother.of_text
    have hinside : ∀ c ∈ content, inside c = true := fun c hc => (hmem c).2 (hother c hc)
    obtain rfl | rfl := hclosing
    · rw [List.append_nil] at hds ⊢
      exact length_le_takeWhile hds hinside
    · -- The longer spelling would have its closing quote where this one ends.
      obtain ⟨rest, rfl⟩ := hds
      rw [List.append_assoc] at hopen
      have hquote : inside '"' = false := by simp [← Bool.not_eq_true, hmem]
      have hstop : ∀ c ∈ ('"' :: rest).head?, inside c = false := fun c hc =>
        Option.some.inj hc ▸ hquote
      exact absurd (span_of_stops hinside hstop).2 (hopen rest)

private theorem longest_char {c : Char} {closing : List Char}
    (hpattern : Pattern ('\x27' :: c :: closing) meaning) (hbegins : closing <+: cs)
    (hclosed : cs.head? = some '\x27' → closing = ['\x27']) :
    Longest ('\x27' :: c :: cs) ('\x27' :: c :: closing) := by
  refine .cons (List.cons_prefix_cons.2 ⟨rfl, hbegins⟩)
    hpattern fun ds meaning hds hother => ?_
  obtain ⟨d, closing', rfl, -, hclosing⟩ := hother.of_char
  obtain ⟨rfl, hds'⟩ := List.cons_prefix_cons.1 hds
  obtain rfl | rfl := hclosing
  · exact Nat.succ_le_succ (Nat.zero_le _)
  · obtain ⟨rest, rfl⟩ := hds'
    rw [hclosed rfl]

private theorem describes_code {closing rest : List Char} (hfeed : c ≠ '\n')
    (hclosing : closing = [] ∨ closing = ['\x27'])
    (hclosed : (closing ++ rest).head? = some '\x27' → closing = ['\x27']) :
    (code c ('\x27' :: c :: closing) rest).Describes
      ('\x27' :: c :: (closing ++ rest)) := by
  have hbegins : closing <+: closing ++ rest := List.prefix_append closing rest
  unfold code
  by_cases hascii : 0x80 ≤ c.toNat
  · rw [if_pos hascii]
    have hpattern := Pattern.nonAscii hascii hclosing
    exact ⟨rfl, longest_char hpattern hbegins hclosed, hpattern⟩
  · rw [if_neg hascii]
    have hpattern := Pattern.char hfeed (Nat.lt_of_not_le hascii) hclosing
    exact ⟨rfl, longest_char hpattern hbegins hclosed, hpattern⟩

private theorem describes_char (cs : List Char) : (char cs).Describes ('\x27' :: cs) := by
  cases cs with
  | nil =>
      refine Unmatched.of_cons fun ds meaning hds hother => ?_
      obtain ⟨c, closing, rfl, -⟩ := hother.of_char
      exact absurd (List.prefix_nil.1 hds) (List.cons_ne_nil _ _)
  | cons c cs =>
      unfold char
      dsimp only
      by_cases hfeed : c = '\n'
      · rw [if_pos hfeed]
        refine Unmatched.of_cons fun ds meaning hds hother => ?_
        obtain ⟨d, closing, rfl, hne, -⟩ := hother.of_char
        obtain ⟨rfl, -⟩ := List.cons_prefix_cons.1 hds
        exact hne hfeed
      · rw [if_neg hfeed]
        split
        · exact describes_code hfeed (.inr rfl) fun _ => rfl
        · rename_i hopen
          refine describes_code hfeed (.inl rfl) fun hquote => ?_
          obtain ⟨rest, rfl⟩ := List.head?_eq_some_iff.1 hquote
          exact absurd rfl (hopen rest)

private theorem describes_mark (hword : isWordChar c = false)
    (hc : c ∉ ['$', '%', '"', '\x27', ';']) (cs : List Char) :
    (mark c cs).Describes (c :: cs) := by
  have hother : ∀ ds meaning, ds <+: cs → Pattern (c :: ds) meaning →
      ((c = '<' ∨ c = '>') ∧ ds = [c]) ∨ (isPunct c = true ∧ ds = []) :=
    fun ds meaning _ hpattern => hpattern.of_mark hword hc
  unfold mark
  split
  · rename_i rest
    refine ⟨rfl, .cons ⟨rest, rfl⟩ .shiftLeft fun ds meaning hds hpattern => ?_,
      .shiftLeft⟩
    obtain ⟨-, rfl⟩ | ⟨-, rfl⟩ := hother ds meaning hds hpattern
    · exact Nat.le_refl _
    · exact Nat.zero_le _
  · rename_i rest
    refine ⟨rfl, .cons ⟨rest, rfl⟩ .shiftRight fun ds meaning hds hpattern => ?_,
      .shiftRight⟩
    obtain ⟨-, rfl⟩ | ⟨-, rfl⟩ := hother ds meaning hds hpattern
    · exact Nat.le_refl _
    · exact Nat.zero_le _
  · rename_i hleft hright
    have hnone : ∀ ds meaning, ds <+: cs → Pattern (c :: ds) meaning →
      isPunct c = true ∧ ds = [] := by
      intro ds meaning hds hpattern
      obtain ⟨hdouble, rfl⟩ | hsingle := hother ds meaning hds hpattern
      · obtain ⟨rest, rfl⟩ := hds
        obtain rfl | rfl := hdouble
        · exact absurd rfl (hleft rest rfl)
        · exact absurd rfl (hright rest rfl)
      · exact hsingle
    split
    · rename_i hpunct
      refine ⟨rfl, .cons List.nil_prefix (.punct hpunct) fun ds meaning hds hpattern =>
        ?_, .punct hpunct⟩
      rw [(hnone ds meaning hds hpattern).2]
    · rename_i hpunct
      exact Unmatched.of_cons fun ds meaning hds hpattern =>
        hpunct (hnone ds meaning hds hpattern).1

private theorem describes_ofChars (cs : List Char) : (ofChars cs).Describes cs := by
  cases cs with
  | nil => exact .inl rfl
  | cons c cs =>
      unfold ofChars
      dsimp only
      by_cases hword : isWordChar c = true
      · rw [if_pos hword]
        have hpattern : Pattern (c :: cs.takeWhile isWordChar) _ := .word fun d hd => by
          obtain rfl | hd := List.mem_cons.1 hd
          · exact hword
          · exact List.mem_takeWhile_imp hd
        exact describes_word (.inl hword) hpattern
      · rw [if_neg hword]
        by_cases hsigil : c = '$' ∨ c = '%'
        · rw [if_pos (by simpa using hsigil)]
          have hmem : ∀ d ∈ cs.takeWhile isWordChar, isWordChar d = true := fun d hd =>
            List.mem_takeWhile_imp hd
          have hdescribes : Pattern (c :: cs.takeWhile isWordChar) _ →
            _ := describes_word (.inr hsigil)
          cases hdigits : cs.takeWhile isWordChar with
          | nil =>
              refine Unmatched.of_cons fun ds meaning hds hpattern => ?_
              have hle := length_le_takeWhile hds
                (hpattern.isWordChar_of_mem (.inr hsigil))
              rw [hdigits] at hle
              exact hpattern.ne_nil_of_sigil hsigil
                (List.eq_nil_of_length_eq_zero (Nat.le_zero.1 hle))
          | cons d digits =>
              rw [hdigits] at hmem hdescribes
              exact hdescribes (.radix hsigil hmem)
        · rw [if_neg (by simpa using hsigil)]
          by_cases htext : c = '"'
          · rw [if_pos htext, htext]
            exact describes_text cs
          · rw [if_neg htext]
            by_cases hchar : c = '\x27'
            · rw [if_pos hchar, hchar]
              exact describes_char cs
            · rw [if_neg hchar]
              by_cases hcomment : c = ';'
              · rw [if_pos hcomment, hcomment]
                exact .inr ⟨cs, rfl⟩
              · rw [if_neg hcomment]
                refine describes_mark (by simpa using hword) ?_ cs
                obtain ⟨hhex, hbinary⟩ := not_or.1 hsigil
                simp [hhex, hbinary, htext, hchar, hcomment]

end Scan

/-! Places in a text. -/

/-- What is left of a text from byte `offset` on, the text itself
beginning at byte `start`. -/
def LeftFrom (start : Nat) (cs : List Char) (offset : Nat) (rest : List Char) : Prop :=
  ∃ front, cs = front ++ rest ∧ offset = start + utf8Length front

theorem utf8Length_append (cs ds : List Char) :
    utf8Length (cs ++ ds) = utf8Length cs + utf8Length ds := by
  induction cs with
  | nil => exact (Nat.zero_add _).symm
  | cons c cs ih =>
      rw [List.cons_append, utf8Length, utf8Length, ih, Nat.add_assoc]

theorem utf8Length_pos (h : cs ≠ []) : 0 < utf8Length cs := by
  cases cs with
  | nil => contradiction
  | cons c cs => exact Nat.add_pos_left c.utf8Size_pos _

namespace LeftFrom

variable {start offset : Nat} {piece rest : List Char}

theorem self (start : Nat) (cs : List Char) : LeftFrom start cs start cs :=
  ⟨[], rfl, rfl⟩

theorem start_le (h : LeftFrom start cs offset rest) : start ≤ offset := by
  obtain ⟨front, -, rfl⟩ := h
  exact Nat.le_add_right _ _

theorem append (h : LeftFrom (start + utf8Length piece) cs offset rest) :
    LeftFrom start (piece ++ cs) offset rest := by
  obtain ⟨front, rfl, rfl⟩ := h
  refine ⟨piece ++ front, (List.append_assoc _ _ _).symm, ?_⟩
  rw [utf8Length_append, Nat.add_assoc]

private theorem of_append (h : LeftFrom start (piece ++ cs) offset rest) :
    (∃ before after, piece = before ++ after ∧ after ≠ [] ∧ rest = after ++ cs ∧
      offset = start + utf8Length before) ∨
      LeftFrom (start + utf8Length piece) cs offset rest := by
  obtain ⟨front, hcs, rfl⟩ := h
  obtain ⟨front, rfl, hrest⟩ | ⟨after, hpiece, hrest⟩ := List.append_eq_append_iff.1 hcs
  · refine .inr ⟨front, hrest, ?_⟩
    rw [utf8Length_append, Nat.add_assoc]
  · by_cases hafter : after = []
    · subst hafter
      rw [List.append_nil] at hpiece
      rw [List.nil_append] at hrest
      subst hpiece hrest
      exact .inr (self _ _)
    · exact .inl ⟨front, after, hpiece, hafter, hrest, rfl⟩

end LeftFrom

/-! Lines. -/

def Token.isLiteral : Token → Bool
  | .text _ | .char _ => true
  | _ => false

/-- Whether a semicolon in what was read is none that begins a comment: it belongs to a
literal, or to what is passed over where nothing matches. -/
def Delivery.conceals (d : Delivery) : Bool :=
  match d.outcome with
  | .ok t => t.isLiteral
  | .error e => e == .invalidSymbol

private theorem Pattern.isLiteral_of_semicolon {before after : List Char}
    (h : Pattern (before ++ ';' :: after) meaning) (hmeaning : meaning ≠ .ok none) :
    before ≠ [] ∧ ∃ t, meaning = .ok (some t) ∧ t.isLiteral = true := by
  have hmem : ';' ∈ before ++ ';' :: after := by simp
  have hhead : before = [] → (before ++ ';' :: after).head? = some ';' := by
    rintro rfl
    rfl
  generalize before ++ ';' :: after = spelling at h hmem hhead
  cases h with
  | word hword => exact absurd (hword _ hmem) (by decide)
  | radix hsigil hword =>
      obtain rfl | hmem := List.mem_cons.1 hmem
      · exact absurd hsigil (by decide)
      · exact absurd (hword _ hmem) (by decide)
  | text => exact ⟨fun hbefore => absurd (hhead hbefore) (by simp), _, rfl, rfl⟩
  | char => exact ⟨fun hbefore => absurd (hhead hbefore) (by simp), _, rfl, rfl⟩
  | @nonAscii d closing hascii hclosing =>
      have hclosing : ';' ∉ closing := by
        obtain rfl | rfl := hclosing
        · exact List.not_mem_nil
        · decide
      obtain hquote | hmem := List.mem_cons.1 hmem
      · exact absurd hquote (by decide)
      · obtain rfl | hmem := List.mem_cons.1 hmem
        · exact absurd hascii (by decide)
        · exact absurd hmem hclosing
  | punct hpunct =>
      rw [List.mem_singleton] at hmem
      subst hmem
      exact absurd hpunct (by decide)
  | comment => exact absurd rfl hmeaning
  | _ => exact absurd hmem (by decide)

/-- What a call that does not report the end covers of a text, and what it delivers for
it. -/
inductive Reads (r : Recovery) (cs : List Char) : List Char → Except LexError Token → Prop
  | matched {spelling : List Char} {t : Token} (hlongest : Longest cs spelling)
      (hpattern : Pattern spelling (.ok (some t))) : Reads r cs spelling (.ok t)
  | refused {spelling : List Char} {e : LexError} (hlongest : Longest cs spelling)
      (hpattern : Pattern spelling (.error e)) : Reads r cs spelling (.error e)
  | unmatched (hunmatched : Unmatched cs) : Reads r cs (r.passed cs)
    (.error .invalidSymbol)

namespace Reads

variable {r : Recovery} {covered rest : List Char} {outcome : Except LexError Token}

theorem ne_nil (h : Reads r cs covered outcome) : covered ≠ [] := by
  cases h with
  | matched _ hpattern => exact hpattern.ne_nil
  | refused _ hpattern => exact hpattern.ne_nil
  | unmatched hunmatched => exact r.advances cs hunmatched.ne_nil

private theorem pattern {t : Token} (h : Reads r cs covered (.ok t)) :
    Pattern covered (.ok (some t)) := by
  cases h with
  | matched _ hpattern => exact hpattern

private theorem conceals_of_semicolon {before after : List Char} {start stop : Nat}
    (h : Reads r (before ++ ';' :: after ++ rest) (before ++ ';' :: after) outcome) :
    before ≠ [] ∧ (Delivery.mk outcome start stop).conceals = true := by
  generalize hcs : before ++ ';' :: after ++ rest = cs at h
  generalize hcovered : before ++ ';' :: after = covered at h
  cases h with
  | matched _ hpattern =>
      rw [← hcovered] at hpattern
      obtain ⟨hne, t, ht, hliteral⟩ := hpattern.isLiteral_of_semicolon nofun
      cases ht
      exact ⟨hne, hliteral⟩
  | refused _ hpattern =>
      rw [← hcovered] at hpattern
      obtain ⟨-, t, ht, -⟩ := hpattern.isLiteral_of_semicolon nofun
      cases ht
  | unmatched hunmatched =>
      refine ⟨?_, rfl⟩
      -- A comment would have matched.
      rintro rfl
      subst hcs
      refine hunmatched.not_pattern [';'] _ ⟨after ++ rest, rfl⟩ (.comment nofun)

end Reads

namespace Line

def reached (start : Nat) (read : List Delivery) : Nat :=
  (read.getLast?.map Delivery.stop).getD start

/-- A delivery is for what comes next in a text after byte `offset`. -/
def Follows (r : Recovery) (start : Nat) (cs : List Char) (offset : Nat) (d : Delivery) :
    Prop :=
  ∃ blanks covered rest, LeftFrom start cs offset (blanks ++ (covered ++ rest)) ∧
    (∀ c ∈ blanks, isBlank c = true) ∧ d.start = offset + utf8Length blanks ∧
    d.stop = d.start + utf8Length covered ∧ Reads r (covered ++ rest) covered d.outcome

/-- Deliveries account for all of a text that begins at byte `start`, up to a comment. -/
structure Covers (r : Recovery) (ds : List Delivery) (start : Nat) (cs : List Char) :
    Prop where
  nonempty : ∀ d ∈ ds, d.start < d.stop
  ordered : ds.Pairwise fun d d' => d.stop ≤ d'.start
  follows : ∀ k d, ds[k]? = some d → Follows r start cs (reached start (ds.take k)) d
  stop_le : ∀ d ∈ ds, d.stop ≤ reached start ds
  ends : ∃ blanks rest, LeftFrom start cs (reached start ds) (blanks ++ rest) ∧
    (∀ c ∈ blanks, isBlank c = true) ∧ (rest = [] ∨ ∃ comment, rest = ';' :: comment) ∧
    -- No comment begins before.
    ∀ offset comment, LeftFrom start cs offset (';' :: comment) →
      offset < reached start ds + utf8Length blanks →
      ∃ d ∈ ds, d.start < offset ∧ offset < d.stop ∧ d.conceals = true

variable {r : Recovery} {line : Line} {ds : List Delivery} {d : Delivery} {start : Nat}

theorem reached_cons (start : Nat) (d : Delivery) (ds : List Delivery) :
    reached start (d :: ds) = reached d.stop ds := by
  cases ds with
  | nil => rfl
  | cons d' ds =>
      unfold reached
      rw [List.getLast?_cons_cons]
      cases h : (d' :: ds).getLast? with
      | none => simp at h
      | some last => rfl

theorem Covers.start_le (h : Covers r ds start cs) : ∀ d ∈ ds, start ≤ d.start := by
  intro d hd
  obtain ⟨k, hk⟩ := List.getElem?_of_mem hd
  obtain ⟨blanks, covered, rest, hleft, -, hstart, -⟩ := h.follows k d hk
  have hle := hleft.start_le
  omega

private theorem after_blanks {blanks rest comment : List Char} {offset : Nat}
    (hblanks : ∀ c ∈ blanks, isBlank c = true)
    (h : LeftFrom start (blanks ++ rest) offset (';' :: comment)) :
    LeftFrom (start + utf8Length blanks) rest offset (';' :: comment) := by
  obtain ⟨before, after, rfl, hafter, hcomment, -⟩ | hleft := h.of_append
  · obtain ⟨c, after, rfl⟩ := List.exists_cons_of_ne_nil hafter
    obtain ⟨rfl, -⟩ := List.cons.inj hcomment
    exact absurd (hblanks ';' (by simp)) (by decide)
  · exact hleft

private theorem inside_or_after {covered rest comment : List Char} {offset : Nat}
    (hreads : Reads r (covered ++ rest) covered d.outcome)
    (h : LeftFrom start (covered ++ rest) offset (';' :: comment)) :
    (start < offset ∧ offset < start + utf8Length covered ∧ d.conceals = true) ∨
      LeftFrom (start + utf8Length covered) rest offset (';' :: comment) := by
  obtain ⟨before, after, rfl, hafter, hcomment, rfl⟩ | hleft := h.of_append
  · obtain ⟨c, after, rfl⟩ := List.exists_cons_of_ne_nil hafter
    obtain ⟨rfl, -⟩ := List.cons.inj hcomment
    obtain ⟨hne, hconceals⟩ := hreads.conceals_of_semicolon
    have hpos := utf8Length_pos hne
    have hpos' := utf8Length_pos hafter
    rw [utf8Length_append]
    exact .inl ⟨by omega, by omega, hconceals⟩
  · exact .inr hleft

private theorem covers_nil {blanks rest : List Char}
    (hblanks : ∀ c ∈ blanks, isBlank c = true)
    (hends : rest = [] ∨ ∃ comment, rest = ';' :: comment) :
    Covers r [] start (blanks ++ rest) where
  nonempty := nofun
  ordered := .nil
  follows := nofun
  stop_le := nofun
  ends := by
    refine ⟨blanks, rest, .self _ _, hblanks, hends, fun offset comment hleft hlt => ?_⟩
    exact absurd hlt (Nat.not_lt.2 (after_blanks hblanks hleft).start_le)

theorem Covers.cons {blanks covered rest : List Char}
    (hstart : d.start = start + utf8Length blanks)
    (hstop : d.stop = d.start + utf8Length covered)
    (hblanks : ∀ c ∈ blanks, isBlank c = true)
    (hreads : Reads r (covered ++ rest) covered d.outcome) (h : Covers r ds d.stop rest) :
    Covers r (d :: ds) start (blanks ++ (covered ++ rest)) := by
  have hshift {offset : Nat} {left : List Char}
    (hleft : LeftFrom d.stop rest offset left) :
      LeftFrom start (blanks ++ (covered ++ rest)) offset left := by
    rw [hstop, hstart] at hleft
    exact hleft.append.append
  refine ⟨?_, ?_, ?_, ?_, ?_⟩
  · intro d' hd'
    obtain rfl | hd' := List.mem_cons.1 hd'
    · have hpos := utf8Length_pos hreads.ne_nil
      omega
    · exact h.nonempty d' hd'
  · exact List.pairwise_cons.2 ⟨h.start_le, h.ordered⟩
  · intro k d' hk
    cases k with
    | zero =>
        cases hk
        exact ⟨blanks, covered, rest, .self _ _, hblanks, hstart, hstop, hreads⟩
    | succ k =>
        obtain ⟨blanks', covered', rest', hleft, hfollows⟩ := h.follows k d' hk
        rw [List.take_succ_cons, reached_cons]
        exact ⟨blanks', covered', rest', hshift hleft, hfollows⟩
  · intro d' hd'
    rw [reached_cons]
    obtain rfl | hd' := List.mem_cons.1 hd'
    · obtain ⟨_, _, hleft, -⟩ := h.ends
      exact hleft.start_le
    · exact h.stop_le d' hd'
  · obtain ⟨blanks', rest', hleft, hblanks', hends, hcomment⟩ := h.ends
    rw [reached_cons]
    refine ⟨blanks', rest', hshift hleft, hblanks',
      hends, fun offset comment hoffset hlt => ?_⟩
    have hcovered := after_blanks hblanks hoffset
    rw [← hstart] at hcovered
    obtain ⟨hafter, hbefore, hconceals⟩ | hrest := inside_or_after hreads hcovered
    · rw [← hstop] at hbefore
      exact ⟨d, List.mem_cons_self, hafter, hbefore, hconceals⟩
    · rw [← hstop] at hrest
      obtain ⟨d', hd', hinside⟩ := hcomment offset comment hrest hlt
      exact ⟨d', List.mem_cons_of_mem _ hd', hinside⟩

def afterCall (r : Recovery) (line : Line) : Line :=
  (line.nextToken r).2

/-- The calls for the tokens of a line deliver these, one after another, and then the
end, again and again. -/
def Delivers (r : Recovery) (line : Line) (ds : List Delivery) : Prop :=
  ∀ k, (((afterCall r)^[k] line).nextToken r).1 = ds[k]?

private theorem delivers_nil (h : line.nextToken r = (none, line)) :
    line.Delivers r [] := by
  have hsame : ∀ k, (afterCall r)^[k] line = line :=
    Function.iterate_fixed (congrArg Prod.snd h)
  intro k
  rw [hsame k, h]
  rfl

theorem Delivers.cons {rest : Line} (h : line.nextToken r = (some d, rest))
    (hrest : rest.Delivers r ds) : line.Delivers r (d :: ds) := by
  intro k
  cases k with
  | zero => exact congrArg Prod.fst h
  | succ k =>
      have hafter : afterCall r line = rest := congrArg Prod.snd h
      rw [Function.iterate_succ_apply, hafter]
      exact hrest k

theorem afterCall_iterate (r : Recovery) {k : Nat}
    (h : k ≤ line.lexemes.length ∨ line.fault = none) :
    (afterCall r)^[k] line = ⟨line.lexemes.drop k, line.fault⟩ := by
  induction k generalizing line with
  | zero => rfl
  | succ k ih =>
      obtain ⟨lexemes, fault⟩ := line
      rw [Function.iterate_succ_apply]
      cases lexemes with
      | nil =>
          obtain hle | rfl := h
          · exact absurd hle (Nat.not_succ_le_zero k)
          · exact (ih (.inr rfl)).trans (by simp [afterCall, nextToken])
      | cons l rest => exact ih (h.imp_left Nat.le_of_succ_le_succ)

/-- A line gives a token at one of the calls, errors before it or not. -/
def Gives (r : Recovery) (line : Line) (t : Token) : Prop :=
  ∃ k d, (((afterCall r)^[k] line).nextToken r).1 = some d ∧ d.outcome = .ok t

theorem gives_of_mem_tokens {t : Token} (h : t ∈ line.tokens) : line.Gives r t := by
  obtain ⟨l, hl, rfl⟩ := List.mem_map.1 h
  obtain ⟨k, hk, rfl⟩ := List.getElem_of_mem hl
  refine ⟨k, ⟨.ok line.lexemes[k].token, line.lexemes[k].start, line.lexemes[k].stop⟩, ?_,
    rfl⟩
  rw [afterCall_iterate r (.inl (Nat.le_of_lt hk)), List.drop_eq_getElem_cons hk]
  rfl

/-- One call reports the end, or else delivers what it reads after blanks
and goes on behind it. -/
theorem nextToken_ofCharsAt (r : Recovery) (start : Nat) (cs : List Char) :
    ∃ blanks left, cs = blanks ++ left ∧ (∀ c ∈ blanks, isBlank c = true) ∧
      (((left = [] ∨ ∃ comment, left = ';' :: comment) ∧
          (ofCharsAt start cs).nextToken r = (none, ofCharsAt start cs)) ∨
        ∃ d covered rest, left = covered ++ rest ∧ d.start = start + utf8Length blanks ∧
          d.stop = d.start + utf8Length covered ∧
          Reads r (covered ++ rest) covered d.outcome ∧
          (ofCharsAt start cs).nextToken r = (some d, ofCharsAt d.stop rest)) := by
  have hdescribes := Scan.describes_ofChars (cs.dropWhile isBlank)
  refine ⟨cs.takeWhile isBlank, cs.dropWhile isBlank,
    (List.takeWhile_append_dropWhile).symm, fun c hc => List.mem_takeWhile_imp hc, ?_⟩
  rw [ofCharsAt_eq]
  generalize cs.dropWhile isBlank = left at hdescribes
  cases hscan : Scan.ofChars left with
  | finish =>
      rw [hscan] at hdescribes
      exact .inl ⟨hdescribes, rfl⟩
  | refused e spelling rest =>
      rw [hscan] at hdescribes
      obtain ⟨hsplit, hlongest, hpattern⟩ := hdescribes
      rw [hsplit] at hlongest
      exact .inr ⟨⟨.error e, _, _⟩, spelling, rest, hsplit, rfl, rfl,
        .refused hlongest hpattern, rfl⟩
  | unmatched =>
      rw [hscan] at hdescribes
      have hsplit : left = r.passed left ++ left.drop (r.passed left).length :=
        (List.prefix_iff_eq_append.1 (r.begins left)).symm
      have hreads : Reads r left (r.passed left) (.error .invalidSymbol) :=
        .unmatched hdescribes
      rw [hsplit, ← hsplit]
      exact .inr ⟨⟨.error .invalidSymbol, _, _⟩, r.passed left, _, hsplit, rfl, rfl,
        hsplit ▸ hreads, rfl⟩
  | token t spelling rest =>
      rw [hscan] at hdescribes
      obtain ⟨hsplit, hlongest, hpattern⟩ := hdescribes
      rw [hsplit] at hlongest
      exact .inr ⟨⟨.ok t, _, _⟩, spelling, rest, hsplit, rfl, rfl,
        .matched hlongest hpattern, rfl⟩

theorem exists_covers_ofCharsAt (r : Recovery) (start : Nat) (cs : List Char) :
    ∃ ds, (ofCharsAt start cs).Delivers r ds ∧ Covers r ds start cs := by
  obtain ⟨blanks, left, rfl, hblanks, ⟨hends, hcall⟩ | hcall⟩ :=
    nextToken_ofCharsAt r start cs
  · exact ⟨[], delivers_nil hcall, covers_nil hblanks hends⟩
  · obtain ⟨d, covered, rest, rfl, hstart, hstop, hreads, hcall⟩ := hcall
    have hlength : rest.length < (blanks ++ (covered ++ rest)).length := by
      have hpos := List.length_pos_iff.2 hreads.ne_nil
      simp only [List.length_append]
      omega
    obtain ⟨ds, hdelivers, hcovers⟩ := exists_covers_ofCharsAt r d.stop rest
    exact ⟨d :: ds, .cons hcall hdelivers, hcovers.cons hstart hstop hblanks hreads⟩
termination_by cs.length

theorem pattern_of_gives {text : String} {t : Token} (h : (ofString text).Gives r t) :
    ∃ spelling, Pattern spelling (.ok (some t)) := by
  obtain ⟨ds, hdelivers, hcovers⟩ := exists_covers_ofCharsAt r 0 text.toList
  obtain ⟨k, d, hcall, ht⟩ := h
  obtain ⟨_, covered, _, -, -, -, -, hreads⟩ :=
    hcovers.follows k d ((hdelivers k).symm.trans hcall)
  rw [ht] at hreads
  exact ⟨covered, hreads.pattern⟩

/-- The calls for the tokens of a text lose nothing of it. -/
theorem exists_covers_ofString (r : Recovery) (text : String) :
    ∃ ds, (ofString text).Delivers r ds ∧ Covers r ds 0 text.toList :=
  exists_covers_ofCharsAt r 0 text.toList

/-- Reading goes on after an error, so that more than blanks lies between tokens. -/
theorem not_covers_tokens :
    ∃ ds, (ofString "a @ b").Delivers .single ds ∧
      ds.map Delivery.outcome = [.ok (.word "a"), .error .invalidSymbol,
        .ok (.word "b")] ∧
      ¬Covers .single (ds.filter fun d => d.outcome.isOk) 0 "a @ b".toList := by
  refine ⟨[⟨.ok (.word "a"), 0, 1⟩, ⟨.error .invalidSymbol, 2, 3⟩,
    ⟨.ok (.word "b"), 4, 5⟩], ?_, rfl, fun hcovers => ?_⟩
  · have hword : (ofString "a @ b").nextToken .single =
        (some ⟨.ok (.word "a"), 0, 1⟩, ofCharsAt 1 [' ', '@', ' ', 'b']) := by
      rw [ofString, ofChars, ofCharsAt_eq]
      rfl
    have herror : (ofCharsAt 1 [' ', '@', ' ', 'b']).nextToken .single =
        (some ⟨.error .invalidSymbol, 2, 3⟩, ofCharsAt 3 [' ', 'b']) := by
      rw [ofCharsAt_eq]
      rfl
    have hlast : (ofCharsAt 3 [' ', 'b']).nextToken .single =
        (some ⟨.ok (.word "b"), 4, 5⟩, ofCharsAt 5 []) := by
      rw [ofCharsAt_eq]
      rfl
    have hend : (ofCharsAt 5 []).nextToken .single = (none, ofCharsAt 5 []) := by
      rw [ofCharsAt_eq]
      rfl
    exact .cons hword (.cons herror (.cons hlast (delivers_nil hend)))
  · obtain ⟨blanks, covered, rest, ⟨front, hcs, hoffset⟩, hblanks, hstart, -⟩ :=
      hcovers.follows 1 ⟨.ok (.word "b"), 4, 5⟩ rfl
    change ['a', ' ', '@', ' ', 'b'] = _ at hcs
    change 1 = 0 + utf8Length front at hoffset
    change 4 = 1 + utf8Length blanks at hstart
    match front, blanks with
    | [_], _ :: b :: _ =>
        simp only [List.cons_append, List.nil_append, List.cons.injEq] at hcs
        have hblank := hblanks b (by simp)
        rw [← hcs.2.2.1] at hblank
        exact absurd hblank (by decide)
    | [_], [b] =>
        simp only [List.cons_append, List.nil_append, List.cons.injEq] at hcs
        rw [← hcs.2.1] at hstart
        exact absurd hstart (by decide)
    | [_], [] => exact absurd hstart (by decide)
    | [], _ => exact absurd hoffset (by decide)
    | c :: d :: _, _ =>
        have hc := c.utf8Size_pos
        have hd := d.utf8Size_pos
        simp only [utf8Length] at hoffset
        omega

example : ofString "x<<\x27;\x27 \";" =
    ⟨[⟨.word "x", 0, 1⟩, ⟨.shiftLeft, 1, 3⟩, ⟨.char 59, 3, 6⟩, ⟨.text ";", 7, 9⟩],
      none⟩ := by
  cbv

end Line

end Breadboard
