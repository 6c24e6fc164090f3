import Breadboard.Proofs.Expr.LetterCase
import Breadboard.Proofs.Token.LongestMatch
import Mathlib.Data.Nat.Digits.Defs

namespace Breadboard

namespace Radix

/-- The digits of a base in their order, letters in lower case. -/
def numerals (r : Radix) : List Char :=
  "0123456789abcdef".toList.take r.base

def digits? (r : Radix) (cs : List Char) : Option (List Nat) :=
  cs.mapM fun c => r.numerals.idxOf? c.toLower

/-- The number for which some characters stand as digits, the first of
them being worth most. -/
def value? (r : Radix) (cs : List Char) : Option Nat :=
  (r.digits? cs).map fun ds => Nat.ofDigits r.base ds.reverse

variable {r : Radix} {c : Char} {cs : List Char} {ds : List Nat} {value n : Nat}

private theorem hexDigit?_of_ascii (h : 0x80 ≤ c.toNat) : hexDigit? c = none := by
  have hafter {last : Char} (hlast : last.toNat < 0x80) : ¬c ≤ last := fun hle =>
    Nat.not_lt.2 (Nat.le_trans h (UInt32.le_iff_toNat_le.1 hle)) hlast
  simp [hexDigit?, hafter]

private theorem digit?_eq_idxOf? (r : Radix) (c : Char) :
    r.digit? c = r.numerals.idxOf? c.toLower := by
  by_cases hascii : c.toNat < 0x80
  · have hall : ∀ n < 0x80, r.digit? (Char.ofNat n) =
      r.numerals.idxOf? (Char.ofNat n).toLower := by
      cases r <;> decide +kernel
    have hc := hall c.toNat hascii
    rwa [Char.ofNat_toNat] at hc
  · have hlower : c.toLower = c := by
      obtain hsame | hcapital := toLower_eq_or_mem_capitals c
      · exact hsame
      · have hletters : capitals.all (·.toNat < 0x80) = true := by decide
        exact absurd (of_decide_eq_true (List.all_eq_true.1 hletters c hcapital)) hascii
    have hnumerals : r.numerals.all (·.toNat < 0x80) = true := by
      cases r <;> decide +kernel
    have hnone : c ∉ r.numerals := fun hmem =>
      hascii (of_decide_eq_true (List.all_eq_true.1 hnumerals c hmem))
    rw [digit?, hexDigit?_of_ascii (Nat.not_lt.1 hascii), hlower,
      List.idxOf?_eq_none_iff.2 hnone]
    rfl

private theorem digits?_nil (r : Radix) : r.digits? [] = some [] := rfl

theorem digits?_cons (r : Radix) (c : Char) (cs : List Char) :
    r.digits? (c :: cs) = (r.digit? c).bind fun d => (r.digits? cs).map (d :: ·) := by
  rw [digits?, List.mapM_cons, digit?_eq_idxOf?]
  refine Option.bind_congr fun d _ => ?_
  exact (Option.map_eq_bind ..).symm

def worth (r : Radix) (value : Nat) (ds : List Nat) : Nat :=
  value * r.base ^ ds.length + Nat.ofDigits r.base ds.reverse

theorem worth_nil (r : Radix) (value : Nat) : r.worth value [] = value := by
  simp [worth]

theorem worth_cons (r : Radix) (value d : Nat) (ds : List Nat) :
    r.worth value (d :: ds) = r.worth (value * r.base + d) ds := by
  rw [worth, worth, Nat.ofDigits_reverse_cons, List.length_cons]
  ring

private theorem le_worth (r : Radix) (value : Nat) (ds : List Nat) :
    value ≤ r.worth value ds := by
  have hpos : 0 < r.base ^ ds.length := Nat.pow_pos (by cases r <;> decide)
  exact Nat.le_trans (Nat.le_mul_of_pos_right value hpos) (Nat.le_add_right _ _)

private theorem readFrom_eq_ok_iff (hvalue : value < UInt32.size) :
    r.readFrom value cs = .ok n ↔
    (∃ ds, r.digits? cs = some ds ∧ r.worth value ds = n) ∧ n < UInt32.size := by
  induction cs generalizing value with
  | nil =>
      simp only [readFrom, digits?_nil, Option.some.injEq, Except.ok.injEq,
        exists_eq_left', worth_nil]
      exact ⟨fun h => ⟨h, h ▸ hvalue⟩, And.left⟩
  | cons c cs ih =>
      rw [readFrom, digits?_cons]
      cases r.digit? c with
      | none => simp
      | some d =>
          dsimp only
          split
          · rename_i hfits
            rw [ih hfits]
            simp [worth_cons]
          · rename_i hlarge
            refine iff_of_false (by simp) ?_
            rintro ⟨⟨ds, hds, rfl⟩, hn⟩
            obtain ⟨ds, -, rfl⟩ := Option.map_eq_some_iff.1 hds
            rw [worth_cons] at hn
            exact hlarge (Nat.lt_of_le_of_lt (r.le_worth _ ds) hn)

/-- Some of the first characters are digits that need more than 32 bits, after others
that are worth `value`. -/
def Outgrows (r : Radix) (value : Nat) (cs : List Char) : Prop :=
  ∃ before ds, before <+: cs ∧ r.digits? before = some ds ∧ UInt32.size ≤ r.worth value ds

private theorem outgrows_of_le (h : UInt32.size ≤ value) (cs : List Char) :
    r.Outgrows value cs :=
  ⟨[], [], List.nil_prefix, r.digits?_nil, (r.worth_nil value).symm ▸ h⟩

private theorem not_outgrows_nil (hvalue : value < UInt32.size) :
    ¬r.Outgrows value [] := by
  rintro ⟨before, ds, hbefore, hds, hlarge⟩
  obtain rfl := List.prefix_nil.1 hbefore
  cases hds
  rw [List.reverse_nil, worth_nil] at hlarge
  exact Nat.not_le.2 hvalue hlarge

private theorem outgrows_cons_iff (hvalue : value < UInt32.size) :
    r.Outgrows value (c :: cs) ↔
    ∃ d, r.digit? c = some d ∧ r.Outgrows (value * r.base + d) cs := by
  constructor
  · rintro ⟨before, ds, hbefore, hds, hlarge⟩
    cases before with
    | nil => exact absurd ⟨[], ds, List.nil_prefix, hds, hlarge⟩ (not_outgrows_nil hvalue)
    | cons c' before =>
        obtain ⟨rfl, hrest⟩ := List.cons_prefix_cons.1 hbefore
        rw [digits?_cons] at hds
        obtain ⟨d, hd, hmap⟩ := Option.bind_eq_some_iff.1 hds
        obtain ⟨ds, hds', rfl⟩ := Option.map_eq_some_iff.1 hmap
        rw [worth_cons] at hlarge
        exact ⟨d, hd, before, ds, hrest, hds', hlarge⟩
  · rintro ⟨d, hd, before, ds, hbefore, hds, hlarge⟩
    refine ⟨c :: before, d :: ds, List.cons_prefix_cons.2 ⟨rfl, hbefore⟩, ?_, ?_⟩
    · rw [digits?_cons, hd, hds]
      rfl
    · rw [worth_cons]
      exact hlarge

/-- A number is too large as soon as its first digits are, whatever comes after them. -/
theorem readFrom_eq_tooLarge_iff (hvalue : value < UInt32.size) :
    r.readFrom value cs = .error .numberTooLarge ↔ r.Outgrows value cs := by
  induction cs generalizing value with
  | nil => exact iff_of_false (by simp [readFrom]) (not_outgrows_nil hvalue)
  | cons c cs ih =>
      rw [readFrom, outgrows_cons_iff hvalue]
      cases r.digit? c with
      | none =>
          refine iff_of_false ?_ (by simp)
          cases r <;> simp [invalid]
      | some d =>
          simp only [Option.some.injEq, exists_eq_left']
          split
          · rename_i hfits
            exact ih hfits
          · rename_i hlarge
            exact iff_of_true rfl (outgrows_of_le (Nat.not_lt.1 hlarge) cs)

private theorem readFrom_cases (r : Radix) (value : Nat) (cs : List Char) :
    (∃ n, r.readFrom value cs = .ok n) ∨ r.readFrom value cs = .error .numberTooLarge ∨
      r.readFrom value cs = .error r.invalid := by
  induction cs generalizing value with
  | nil => exact .inl ⟨value, rfl⟩
  | cons c cs ih =>
      rw [readFrom]
      split
      · exact .inr (.inr rfl)
      · split
        · exact ih _
        · exact .inr (.inl rfl)

/-- What is made of a numeral whose digits are to be `digits`: the number for which
they stand, as a signed word of 32 bits, unless it is too large or there is a
character that is no digit. -/
structure Judges (r : Radix) (digits : List Char) (outcome : Except LexError Word) :
    Prop where
  number_iff : ∀ {v : Int32}, outcome = .ok (.number v) ↔
    digits ≠ [] ∧ ∃ n, r.value? digits = some n ∧ n < 2 ^ 32 ∧
      v.toInt = if n < 2 ^ 31 then (n : Int) else n - 2 ^ 32
  tooLarge_iff : outcome = .error .numberTooLarge ↔
    ∃ before n, before <+: digits ∧ r.value? before = some n ∧ 2 ^ 32 ≤ n
  invalid_iff : outcome = .error r.invalid ↔
    (∀ v : Int32, outcome ≠ .ok (.number v)) ∧ outcome ≠ .error .numberTooLarge

private theorem ofNat_eq_iff {v : Int32} (h : n < 2 ^ 32) :
    Int32.ofNat n = v ↔ v.toInt = if n < 2 ^ 31 then (n : Int) else n - 2 ^ 32 := by
  have hsize : ((Int32.size : Nat) : Int) = 2 ^ 32 := rfl
  rw [← Int32.toInt_inj, Int32.toInt_ofNat', Int.bmod, hsize]
  split <;> split <;> omega

private theorem value?_eq_some_iff :
    r.value? cs = some n ↔ ∃ ds, r.digits? cs = some ds ∧ r.worth 0 ds = n := by
  simp [value?, worth]

private theorem outgrows_zero_iff :
    r.Outgrows 0 cs ↔ ∃ before n, before <+: cs ∧ r.value? before = some n ∧
    2 ^ 32 ≤ n := by
  simp only [value?_eq_some_iff]
  constructor
  · rintro ⟨before, ds, hbefore, hds, hlarge⟩
    exact ⟨before, _, hbefore, ⟨ds, hds, rfl⟩, hlarge⟩
  · rintro ⟨before, _, hbefore, ⟨ds, hds, rfl⟩, hlarge⟩
    exact ⟨before, ds, hbefore, hds, hlarge⟩

def numeral (r : Radix) (cs : List Char) : Except LexError Word :=
  ((r.readFrom 0 cs).map Int32.ofNat).map .number

private theorem numeral_eq_ok_iff {v : Int32} :
    r.numeral cs = .ok (.number v) ↔
    ∃ n, r.readFrom 0 cs = .ok n ∧ Int32.ofNat n = v := by
  unfold numeral
  cases r.readFrom 0 cs with
  | error e => simp [Except.map]
  | ok n => simp [Except.map]

private theorem numeral_eq_error_iff {e : LexError} : r.numeral cs = .error e ↔
    r.readFrom 0 cs = .error e := by
  unfold numeral
  cases r.readFrom 0 cs with
  | error e => simp [Except.map]
  | ok n => simp [Except.map]

theorem judges_numeral (hne : cs ≠ []) : r.Judges cs (r.numeral cs) where
  number_iff {v} := by
    rw [numeral_eq_ok_iff, and_iff_right hne]
    refine exists_congr fun n => ?_
    rw [readFrom_eq_ok_iff (by decide), ← value?_eq_some_iff, and_assoc]
    exact and_congr_right fun _ => and_congr_right fun hfits => ofNat_eq_iff hfits
  tooLarge_iff := by
    rw [numeral_eq_error_iff, readFrom_eq_tooLarge_iff (by decide), outgrows_zero_iff]
  invalid_iff := by
    have hinvalid : r.invalid ≠ .numberTooLarge := by cases r <;> simp [invalid]
    simp only [ne_eq, numeral_eq_ok_iff, numeral_eq_error_iff]
    obtain ⟨n, hn⟩ | hlarge | hnone := r.readFrom_cases 0 cs
    · rw [hn]
      exact iff_of_false (by simp) fun h => h.1 _ ⟨n, rfl, rfl⟩
    · rw [hlarge]
      exact iff_of_false (fun h => hinvalid (Except.error.inj h).symm) fun h => h.2 rfl
    · rw [hnone]
      exact iff_of_true rfl ⟨by simp, fun h => hinvalid (Except.error.inj h)⟩

/-- The digits of a word that is a numeral: what comes after its mark, or
all of a decimal one. -/
inductive Marks : Radix → List Char → List Char → Prop
  | hex (digits : List Char) : Marks .hex ('$' :: digits) digits
  | binary (digits : List Char) : Marks .binary ('%' :: digits) digits
  | decimal {c : Char} (hc : c.isDigit = true) (cs : List Char) :
    Marks .decimal (c :: cs) (c :: cs)

theorem read_map_number {c : Char} (hc : isWordChar c = true) (cs : List Char) :
    (r.read (c :: cs)).map .number = r.numeral (c :: cs) := by
  have hplus : c ≠ '+' := by
    rintro rfl
    cases hc
  rw [r.read_of_ne_plus hplus]
  rfl

private theorem exists_cons_of_sigil {sigil : Char} {digits : List Char}
    {meaning : Except LexError (Option Token)} (hsigil : sigil = '$' ∨ sigil = '%')
    (h : Pattern (sigil :: digits) meaning) :
    ∃ c cs, digits = c :: cs ∧ isWordChar c = true := by
  obtain ⟨c, cs, rfl⟩ := List.exists_cons_of_ne_nil (h.ne_nil_of_sigil hsigil)
  exact ⟨c, cs, rfl, h.isWordChar_of_mem (.inr hsigil) c List.mem_cons_self⟩

private theorem isWordChar_of_isDigit {c : Char} (h : c.isDigit = true) :
    isWordChar c = true := by
  simp [isWordChar, Char.isAlphanum, h]

private theorem Marks.judges {word digits : List Char}
    {meaning : Except LexError (Option Token)} (h : r.Marks word digits)
    (hpattern : Pattern word meaning) :
    r.Judges digits (Word.ofChars word) := by
  cases h with
  | hex =>
      obtain ⟨c, cs, rfl, hc⟩ := exists_cons_of_sigil (.inl rfl) hpattern
      rw [Word.ofChars, read_map_number hc]
      exact judges_numeral (List.cons_ne_nil c cs)
  | binary =>
      obtain ⟨c, cs, rfl, hc⟩ := exists_cons_of_sigil (.inr rfl) hpattern
      rw [Word.ofChars, read_map_number hc]
      exact judges_numeral (List.cons_ne_nil c cs)
  | @decimal c hc cs =>
      have hhex : c ≠ '$' := by
        rintro rfl
        cases hc
      have hbinary : c ≠ '%' := by
        rintro rfl
        cases hc
      rw [Word.ofChars_of_ne hhex hbinary, if_pos hc,
        read_map_number (isWordChar_of_isDigit hc)]
      exact judges_numeral (List.cons_ne_nil c cs)

end Radix

private theorem Pattern.toList_word {spelling : List Char} {word : String}
    (h : Pattern spelling (.ok (some (.word word)))) : spelling = word.toList := by
  cases h with
  | word => exact String.toList_ofList.symm
  | radix => exact String.toList_ofList.symm

/-- A numeral of a line is judged by its digits, from the first to the last. -/
theorem Word.judges_classify {recovery : Recovery} {text word : String} {r : Radix}
    {digits : List Char} (hword : (Line.ofString text).Gives recovery (.word word))
    (hmarks : r.Marks word.toList digits) : r.Judges digits (classify word) := by
  obtain ⟨spelling, hpattern⟩ := Line.pattern_of_gives hword
  rw [hpattern.toList_word] at hpattern
  exact hmarks.judges hpattern

/-- Nine digits need more than 32 bits here, so the last character is not looked at any
more. -/
theorem Word.judges_classify_outgrowing :
    (Line.ofString "  CMP #$100000000_ ; 33 bits").Gives .single (.word "$100000000_") ∧
      Radix.hex.Marks "$100000000_".toList "100000000_".toList ∧
      Radix.hex.Judges "100000000_".toList (classify "$100000000_") ∧
      classify "$100000000_" = .error .numberTooLarge := by
  have hword : (Line.ofString "  CMP #$100000000_ ; 33 bits").Gives .single
      (.word "$100000000_") :=
    Line.gives_of_mem_tokens (by decide +kernel)
  have hmarks : Radix.hex.Marks "$100000000_".toList "100000000_".toList := .hex _
  have hjudges := judges_classify hword hmarks
  refine ⟨hword, hmarks, hjudges, hjudges.tooLarge_iff.2 ?_⟩
  exact ⟨"100000000".toList, 2 ^ 32, by decide, by decide, Nat.le_refl _⟩

example : Word.classify "$fFfFFfff" = .ok (.number (-1)) ∧ Word.classify "%12" =
    .error .invalidBinary ∧
    Word.classify "4294967296" = .error .numberTooLarge := by
  decide

end Breadboard
