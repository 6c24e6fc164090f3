import Breadboard.Proofs.Token.LetterCase
import Breadboard.Proofs.Token.LongestMatch

namespace Breadboard

def isWord : List Char → Bool
  | [] => false
  | c :: cs =>
      if c = '$' || c =
        '%' then !cs.isEmpty && cs.all isWordChar else (c :: cs).all isWordChar

namespace Token

def sourceForm : Token → List Char
  | .word spelling => spelling.toList
  | .text content => '"' :: content.toList ++ ['"']
  | .char code => ['\x27', Char.ofNat code.toNat, '\x27']
  | .shiftLeft => ['<', '<']
  | .shiftRight => ['>', '>']
  | .punct mark => [mark]

/-- Whether a token can be written: words are spelled as such, no literal contains a line
feed and no string literal a quotation mark, and character literals are ASCII. -/
def isWritable : Token → Bool
  | .word spelling => isWord spelling.toList
  | .text content => content.toList.all fun c => c != '"' && c != '\n'
  | .char code => code < 0x80 && code != 0x0A
  | .shiftLeft | .shiftRight => true
  | .punct mark => isPunct mark

def written (ts : List Token) : String :=
  " ".intercalate (ts.map fun t => String.ofList t.sourceForm)

end Token

variable {c : Char} {cs rest : List Char} {t : Token} {ts : List Token}

/-- A text is over, or a blank separates what comes before it from what it goes on
with. -/
def Apart (rest : List Char) : Prop :=
  ∀ c ∈ rest.head?, isBlank c = true

private theorem isWordChar_of_isBlank (h : isBlank c = true) : isWordChar c = false := by
  simp only [isBlank, Bool.or_eq_true, decide_eq_true_eq] at h
  obtain ((rfl | rfl) | rfl) | rfl := h
  all_goals rfl

private theorem ne_of_isBlank {mark : Char} (hmark : isBlank mark = false)
    (h : isBlank c = true) :
    c ≠ mark := by
  intro heq
  rw [heq, hmark] at h
  cases h

private theorem isBlank_of_isWordChar (h : isWordChar c = true) : isBlank c = false := by
  apply Bool.eq_false_iff.2
  intro hblank
  rw [isWordChar_of_isBlank hblank] at h
  cases h

private theorem isBlank_of_isPunct (h : isPunct c = true) : isBlank c = false := by
  have hmarks : "#(),:=+-*/&|<>".toList.all (fun c => !isBlank c) = true := by decide
  simpa using List.all_eq_true.1 hmarks c (List.contains_iff_mem.1 h)

namespace Scan

private theorem ofChars_word (hcs : isWord cs = true) (hrest : Apart rest) :
    ofChars (cs ++ rest) = word cs rest := by
  have hstop : ∀ c ∈ rest.head?, isWordChar c = false := fun c hc =>
    isWordChar_of_isBlank (hrest c hc)
  cases cs with
  | nil => cases hcs
  | cons c cs =>
      rw [isWord] at hcs
      rw [List.cons_append, ofChars]
      split at hcs
      · rename_i hsigil
        obtain ⟨hne, hall⟩ := Bool.and_eq_true_iff.1 hcs
        obtain ⟨htake, hdrop⟩ := span_of_stops (List.all_eq_true.1 hall) hstop
        have hsign : ¬isWordChar c = true := by
          simp only [Bool.or_eq_true, decide_eq_true_eq] at hsigil
          obtain rfl | rfl := hsigil
          · decide
          · decide
        rw [if_neg hsign, if_pos hsigil, htake, hdrop]
        cases cs with
        | nil => cases hne
        | cons d digits => rfl
      · have hall := List.all_eq_true.1 hcs
        obtain ⟨htake, hdrop⟩ :=
          span_of_stops (fun d hd => hall d (List.mem_cons_of_mem c hd)) hstop
        rw [if_pos (hall c List.mem_cons_self), htake, hdrop]

private theorem text_of_closed {content : List Char}
    (hcontent : content.all (fun c => c != '"' && c != '\n') = true) (rest : List Char) :
    text (content ++ '"' :: rest) =
      .token (.text (String.ofList content)) ('"' :: content ++ ['"']) rest := by
  have hquote : ∀ c ∈ ('"' :: rest).head?, (c != '"' && c != '\n') = false := by
    intro c hc
    cases hc
    rfl
  obtain ⟨htake, hdrop⟩ := span_of_stops (List.all_eq_true.1 hcontent) hquote
  simp only [text, htake, hdrop]

private theorem char_of_closed {code : UInt8} (hascii : code < 0x80) (hfeed : code ≠ 0x0A)
    (rest : List Char) :
    char (Char.ofNat code.toNat :: '\x27' :: rest) =
      .token (.char code) ['\x27', Char.ofNat code.toNat, '\x27'] rest := by
  have hlt : code.toNat < 0x80 := UInt8.lt_iff_toNat_lt.1 hascii
  have hvalid : code.toNat.isValidChar := .inl (by omega)
  have hnat : (Char.ofNat code.toNat).toNat = code.toNat := by
    rw [Char.ofNat, dif_pos hvalid]
    rfl
  have hne : Char.ofNat code.toNat ≠ '\n' := by
    intro heq
    rw [heq] at hnat
    exact hfeed (UInt8.toNat_inj.1 hnat.symm)
  have hcode : (Char.ofNat code.toNat).toUInt8 = code := by
    apply UInt8.toNat_inj.1
    change (Char.ofNat code.toNat).toNat % 256 = _
    rw [hnat]
    omega
  have hbelow : ¬0x80 ≤ (Char.ofNat code.toNat).toNat := by omega
  simp only [char, if_neg hne, Scan.code, if_neg hbelow, hcode]

private theorem ofChars_mark (hmark : isPunct c = true) (cs : List Char) :
    ofChars (c :: cs) = mark c cs := by
  obtain ⟨hword, hother⟩ := of_isPunct hmark
  simp only [List.mem_cons, List.not_mem_nil, or_false, not_or] at hother
  obtain ⟨hhex, hbinary, htext, hchar, hcomment⟩ := hother
  rw [ofChars]
  simp [hword, hhex, hbinary, htext, hchar, hcomment]

/-- A token that is written at the beginning of a text, and after which a blank follows or
nothing, is what is read there. -/
theorem ofChars_sourceForm (ht : t.isWritable = true) (hrest : Apart rest) :
    ofChars (t.sourceForm ++ rest) = .token t t.sourceForm rest := by
  cases t with
  | word spelling =>
      rw [Token.sourceForm, ofChars_word ht hrest, word, String.ofList_toList]
  | text content =>
      have htext := text_of_closed ht rest
      rw [String.ofList_toList] at htext
      rw [Token.sourceForm, ← htext]
      simp [ofChars, isWordChar]
  | char code =>
      obtain ⟨hascii, hfeed⟩ := Bool.and_eq_true_iff.1 ht
      exact char_of_closed (of_decide_eq_true hascii) (bne_iff_ne.1 hfeed) rest
  | shiftLeft => rfl
  | shiftRight => rfl
  | punct mark =>
      have hsingle : ¬((mark = '<' ∨ mark = '>') ∧ rest.head? = some mark) := by
        rintro ⟨-, hhead⟩
        exact ne_of_isBlank (isBlank_of_isPunct ht) (hrest mark hhead) rfl
      change ofChars (mark :: rest) = _
      rw [ofChars_mark ht, mark_of_single hsingle]
      exact if_pos ht

end Scan

private theorem Token.exists_sourceForm_eq (ht : t.isWritable = true) :
    ∃ c cs, t.sourceForm = c :: cs ∧ isBlank c = false := by
  cases t with
  | word spelling =>
      cases hspelling : spelling.toList with
      | nil =>
          rw [isWritable, hspelling] at ht
          cases ht
      | cons c cs =>
          refine ⟨c, cs, hspelling, ?_⟩
          rw [isWritable, hspelling, isWord] at ht
          split at ht
          · rename_i hsigil
            simp only [Bool.or_eq_true, decide_eq_true_eq] at hsigil
            obtain rfl | rfl := hsigil
            · rfl
            · rfl
          · exact isBlank_of_isWordChar (List.all_eq_true.1 ht c List.mem_cons_self)
  | text content => exact ⟨_, _, rfl, rfl⟩
  | char code => exact ⟨_, _, rfl, rfl⟩
  | shiftLeft => exact ⟨_, _, rfl, rfl⟩
  | shiftRight => exact ⟨_, _, rfl, rfl⟩
  | punct mark => exact ⟨_, _, rfl, isBlank_of_isPunct ht⟩

namespace Line

private theorem ofCharsAt_blank (hc : isBlank c = true) (start : Nat) (cs : List Char) :
    ofCharsAt start (c :: cs) = ofCharsAt (start + c.utf8Size) cs := by
  rw [ofCharsAt_eq, ofCharsAt_eq, List.takeWhile_cons_of_pos hc,
    List.dropWhile_cons_of_pos hc, utf8Length, Nat.add_assoc]

private theorem ofCharsAt_sourceForm (ht : t.isWritable = true) (hrest : Apart rest)
    (start : Nat) :
    ofCharsAt start (t.sourceForm ++ rest) =
      ofScan start (t.sourceForm ++ rest) (.token t t.sourceForm rest) := by
  have hscan := Scan.ofChars_sourceForm ht hrest
  obtain ⟨c, cs, hform, hc⟩ := Token.exists_sourceForm_eq ht
  have hstart : ¬isBlank c = true := by simp [hc]
  rw [ofCharsAt_eq, ← hscan, hform, List.cons_append, List.takeWhile_cons_of_neg hstart,
    List.dropWhile_cons_of_neg hstart]
  rfl

private theorem tokens_ofCharsAt_intercalate (h : ∀ t ∈ ts, t.isWritable = true)
    (start : Nat) :
    (ofCharsAt start ([' '].intercalate (ts.map Token.sourceForm))).tokens = ts ∧
      (ofCharsAt start ([' '].intercalate (ts.map Token.sourceForm))).fault = none := by
  induction ts generalizing start with
  | nil =>
      rw [ofCharsAt_eq]
      exact ⟨rfl, rfl⟩
  | cons t ts ih =>
      have ht := h t List.mem_cons_self
      have hrest := ih fun t' ht' => h t' (List.mem_cons_of_mem t ht')
      cases ts with
      | nil =>
          have hlast : [' '].intercalate ([t].map Token.sourceForm) =
            t.sourceForm ++ [] := by
            simp
          have hend : Apart [] := nofun
          rw [hlast, ofCharsAt_sourceForm ht hend]
          obtain ⟨htokens, hfault⟩ := hrest (start + utf8Length t.sourceForm)
          exact ⟨congrArg (t :: ·) htokens, hfault⟩
      | cons t' ts =>
          have hnext : [' '].intercalate ((t :: t' :: ts).map Token.sourceForm) =
              t.sourceForm ++ ' ' :: [' '].intercalate
                ((t' :: ts).map Token.sourceForm) := by
            rw [List.map_cons, List.map_cons, List.intercalate_cons_cons,
              List.append_assoc]
            rfl
          have hspace : Apart
            (' ' :: [' '].intercalate ((t' :: ts).map Token.sourceForm)) := by
            intro c hc
            cases hc
            rfl
          rw [hnext, ofCharsAt_sourceForm ht hspace, ofScan, ofCharsAt_blank rfl]
          obtain ⟨htokens, hfault⟩ :=
            hrest (start + utf8Length t.sourceForm + ' '.utf8Size)
          exact ⟨congrArg (t :: ·) htokens, hfault⟩

/-- The calls for the tokens of a line give these ones, one after
another, and then the end. -/
structure Yields (line : Line) (ts : List Token) : Prop where
  token : ∀ r k t, ts[k]? = some t →
    ((afterCall r)^[k] line).next? = .ok (some (t, (afterCall r)^[k + 1] line))
  finish : ∀ r k, ts.length ≤ k → ((afterCall r)^[k] line).next? = .ok none

private theorem yields_tokens {line : Line} (h : line.fault = none) :
    line.Yields line.tokens where
  token := by
    intro r k t ht
    obtain ⟨l, hl, rfl⟩ : ∃ l, line.lexemes[k]? = some l ∧ l.token = t := by
      rwa [tokens, List.getElem?_map, Option.map_eq_some_iff] at ht
    obtain ⟨hlt, rfl⟩ := List.getElem?_eq_some_iff.1 hl
    rw [afterCall_iterate r (.inr h), afterCall_iterate r (.inr h),
      List.drop_eq_getElem_cons hlt]
    rfl
  finish := by
    intro r k hk
    rw [tokens, List.length_map] at hk
    rw [afterCall_iterate r (.inr h), List.drop_eq_nil_of_le hk, h]
    rfl

/-- To read tokens undoes writing them. -/
theorem yields_ofString_written (h : ∀ t ∈ ts, t.isWritable = true) :
    (ofString (Token.written ts)).Yields ts := by
  have hchars : (Token.written ts).toList =
    [' '].intercalate (ts.map Token.sourceForm) := by
    rw [Token.written, String.toList_intercalate, List.map_map]
    congr 1
    exact List.map_congr_left fun t _ => String.toList_ofList
  obtain ⟨htokens, hfault⟩ := tokens_ofCharsAt_intercalate h 0
  have hyields := yields_tokens hfault
  rw [htokens] at hyields
  rw [ofString, ofChars, hchars]
  exact hyields

/-- Quotes of each kind, blanks and semicolons in literals, operators that could run
together, and words with a `$`, a `%` or a dot. -/
def crowded : List Token :=
  [.word "$.9", .punct '<', .punct '<', .shiftLeft, .punct '>', .shiftRight,
    .char 0x27, .char 0x20, .char 0x3B, .char 0x22, .text "\x27;<< é\t", .text "",
    .word "%1_", .word ".a", .punct '*']

theorem yields_ofString_written_crowded :
    (∀ t ∈ crowded, t.isWritable = true) ∧
      Token.written crowded =
        "$.9 < < << > >> \x27\x27\x27 \x27 \x27 \x27;\x27 \x27\"\x27 \"\x27;<< é\t\" \"\" %1_ .a *" ∧
      (ofString (Token.written crowded)).Yields crowded := by
  have hcrowded : ∀ t ∈ crowded, t.isWritable = true := by
    apply List.all_eq_true.1
    decide +kernel
  exact ⟨hcrowded, by decide +kernel, yields_ofString_written hcrowded⟩

end Line

end Breadboard
