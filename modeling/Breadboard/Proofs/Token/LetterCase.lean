import Breadboard.Token.Lexer

namespace Breadboard

/-! Characters. -/

def capitals : List Char :=
  "ABCDEFGHIJKLMNOPQRSTUVWXYZ".toList

theorem toLower_eq_or_mem_capitals (c : Char) : c.toLower = c ∨ c ∈ capitals := by
  by_cases hcapital : c.val ≥ 'A'.val ∧ c.val ≤ 'Z'.val
  · have hletters : ∀ n < 91, 65 ≤ n → Char.ofNat n ∈ capitals := by decide
    obtain ⟨hfirst, hlast⟩ := hcapital
    have hmem := hletters c.toNat (Nat.lt_succ_of_le (UInt32.le_iff_toNat_le.1 hlast))
      (UInt32.le_iff_toNat_le.1 hfirst)
    rw [Char.ofNat_toNat] at hmem
    exact .inr hmem
  · exact .inl (dif_neg hcapital)

theorem congr_toLower {β : Type} {f : Char → β}
    (h : capitals.map (fun c => f c.toLower) = capitals.map f) (c : Char) :
    f c.toLower = f c := by
  obtain hsame | hmem := toLower_eq_or_mem_capitals c
  · rw [hsame]
  · exact List.map_inj_left.1 h c hmem

theorem toLower_toLower (c : Char) : c.toLower.toLower = c.toLower :=
  congr_toLower (f := Char.toLower) (by decide) c

theorem toUpper_toLower (c : Char) : c.toLower.toUpper = c.toUpper :=
  congr_toLower (f := Char.toUpper) (by decide) c

private theorem isWordChar_toLower (c : Char) : isWordChar c.toLower = isWordChar c :=
  congr_toLower (by decide) c

private theorem isBlank_toLower (c : Char) : isBlank c.toLower = isBlank c :=
  congr_toLower (by decide) c

private theorem utf8Size_toLower (c : Char) : c.toLower.utf8Size = c.utf8Size :=
  congr_toLower (f := Char.utf8Size) (by decide) c

theorem toLower_eq_iff {c mark : Char} (hmark : mark.isAlpha = false) :
    c.toLower = mark ↔ c = mark := by
  have hletters : capitals.all (fun c => c.isAlpha && c.toLower.isAlpha) =
    true := by decide
  obtain hsame | hmem := toLower_eq_or_mem_capitals c
  · rw [hsame]
  · obtain ⟨hupper, hlower⟩ := Bool.and_eq_true_iff.1 (List.all_eq_true.1 hletters c hmem)
    refine iff_of_false ?_ ?_
    · rintro rfl
      simp [hmark] at hlower
    · rintro rfl
      simp [hmark] at hupper

/-! Words. -/

namespace Text

theorem toList_toLower (text : String) :
    text.toLower.toList = text.toList.map Char.toLower :=
  String.toList_map

private theorem toList_toUpper (text : String) :
    text.toUpper.toList = text.toList.map Char.toUpper :=
  String.toList_map

theorem toLower_ofList (cs : List Char) :
    (String.ofList cs).toLower = String.ofList (cs.map Char.toLower) := by
  rw [← String.toList_inj, toList_toLower, String.toList_ofList, String.toList_ofList]

theorem toLower_append (text text' : String) :
    (text ++ text').toLower = text.toLower ++ text'.toLower := by
  rw [← String.toList_inj]
  simp [toList_toLower]

theorem toLower_toLower (text : String) : text.toLower.toLower = text.toLower := by
  rw [← String.toList_inj, toList_toLower, toList_toLower, List.map_map]
  exact List.map_congr_left fun c _ => Breadboard.toLower_toLower c

theorem toUpper_toLower (text : String) : text.toLower.toUpper = text.toUpper := by
  rw [← String.toList_inj, toList_toUpper, toList_toUpper, toList_toLower, List.map_map]
  exact List.map_congr_left fun c _ => Breadboard.toUpper_toLower c

end Text

/-! Programs. -/

/-- Where in a text a character stands. -/
inductive LexState
  | code
  /-- In a string literal. -/
  | text
  /-- After the opening quote of a character literal. -/
  | char
  /-- After the character of a character literal. -/
  | charEnd
  | comment
deriving DecidableEq, Repr, Inhabited

namespace LexState

def afterCode (c : Char) : LexState :=
  if c = '"' then .text
  else if c = '\x27' then .char
  else if c = ';' then .comment
  else .code

/-- Literals and comments end with the line at the latest. The quote at the end of a
character literal may be missing. -/
def after (s : LexState) (c : Char) : LexState :=
  if c = '\n' then .code
  else
    match s with
    | .code => afterCode c
    | .text => if c = '"' then .code else .text
    | .char => .charEnd
    | .charEnd => if c = '\x27' then .code else afterCode c
    | .comment => .comment

def isLiteral : LexState → Bool
  | .text | .char => true
  | _ => false

def uncased (s : LexState) (c : Char) : Char :=
  if s.isLiteral then c else c.toLower

theorem uncased_eq_iff {s : LexState} {c mark : Char} (hmark : mark.isAlpha = false) :
    s.uncased c = mark ↔ c = mark := by
  unfold uncased
  split
  · rfl
  · exact toLower_eq_iff hmark

private theorem after_uncased (s : LexState) (c : Char) :
    s.after (s.uncased c) = s.after c := by
  have hafter : s.after c.toLower = s.after c := by
    refine congr_toLower (f := s.after) ?_ c
    cases s with
    | _ => decide
  unfold uncased
  split
  · rfl
  · exact hafter

end LexState

def uncasedFrom (s : LexState) : List Char → List Char
  | [] => []
  | c :: cs => s.uncased c :: uncasedFrom (s.after c) cs

def uncased (text : String) : String :=
  String.ofList (uncasedFrom .code text.toList)

/-- The same characters, but for the case of letters outside of literals. -/
def DifferInCase (s : LexState) : List Char → List Char → Prop
  | [], [] => True
  | c :: cs, c' :: cs' => s.uncased c' = s.uncased c ∧ DifferInCase (s.after c) cs cs'
  | _, _ => False

private theorem uncasedFrom_eq_iff {s : LexState} {cs cs' : List Char} :
    uncasedFrom s cs' = uncasedFrom s cs ↔ DifferInCase s cs cs' := by
  induction cs generalizing s cs' with
  | nil =>
      cases cs' with
      | nil => exact iff_of_true rfl trivial
      | cons c' cs' => exact iff_of_false nofun id
  | cons c cs ih =>
      cases cs' with
      | nil => exact iff_of_false nofun id
      | cons c' cs' =>
          unfold uncasedFrom DifferInCase
          rw [List.cons.injEq, ← ih]
          refine and_congr_right fun hsame => ?_
          rw [← s.after_uncased c', hsame, s.after_uncased]

theorem uncased_eq_iff {text text' : String} :
    uncased text' = uncased text ↔ DifferInCase .code text.toList text'.toList := by
  unfold uncased
  rw [String.ofList_inj, uncasedFrom_eq_iff]

theorem uncasedFrom_cons (s : LexState) (c : Char) (cs : List Char) :
    uncasedFrom s (c :: cs) = s.uncased c :: uncasedFrom (s.after c) cs :=
  rfl

/-! Lexemes. -/

namespace Token

def folded : Token → Token
  | .word spelling => .word spelling.toLower
  | t => t

theorem folded_eq_punct_iff {t : Token} {mark : Char} : t.folded = .punct mark ↔
    t = .punct mark := by
  cases t with
  | word => exact iff_of_false nofun nofun
  | _ => exact .rfl

theorem toLower_describe_folded (t : Token) :
    t.folded.describe.toLower = t.describe.toLower := by
  cases t with
  | word spelling => exact Text.toLower_toLower spelling
  | _ => rfl

end Token

def Lexeme.folded (l : Lexeme) : Lexeme :=
  { l with token := l.token.folded }

def Fault.folded : Fault → Fault
  | .refused e start spelling rest => .refused e start spelling (uncasedFrom .code rest)
  | .unmatched start text => .unmatched start (uncasedFrom .code text)

def Line.folded (line : Line) : Line where
  lexemes := line.lexemes.map Lexeme.folded
  fault := line.fault.map Fault.folded

@[simp] theorem Fault.error_folded (f : Fault) : f.folded.error = f.error := by
  cases f <;> rfl

namespace Line

theorem tokens_folded (line : Line) :
    line.folded.tokens = line.tokens.map Token.folded := by
  unfold tokens folded
  rw [List.map_map, List.map_map]
  rfl

theorem next?_folded (line : Line) :
    line.folded.next? = line.next?.map (Option.map (Prod.map Token.folded folded)) := by
  obtain ⟨lexemes, fault⟩ := line
  cases lexemes with
  | nil =>
      cases fault with
      | none => rfl
      | some f => exact congrArg Except.error f.error_folded
  | cons l rest => rfl

theorem peek?_folded (line : Line) :
    line.folded.peek? = line.peek?.map (Option.map Token.folded) := by
  unfold peek?
  rw [next?_folded]
  cases line.next? with
  | error e => rfl
  | ok read => cases read <;> rfl

theorem atEnd_folded (line : Line) : line.folded.atEnd = line.atEnd := by
  unfold atEnd folded
  rw [List.isEmpty_map, Option.isNone_map]

end Line

theorem LexState.after_code {c : Char} (h : c ∉ ['"', '\x27', ';']) :
    LexState.code.after c = .code := by
  simp only [List.mem_cons, List.not_mem_nil, or_false, not_or] at h
  obtain ⟨htext, hchar, hcomment⟩ := h
  unfold after
  split
  · rfl
  · dsimp only
    rw [afterCode, if_neg htext, if_neg hchar, if_neg hcomment]

/-- Characters of a kind that letter case has no part in, and that begin neither a
literal nor a comment. -/
structure Plain (accepts : Char → Bool) : Prop where
  toLower : ∀ c, accepts c.toLower = accepts c
  code : ['"', '\x27', ';'].any accepts = false

theorem plain_isWordChar : Plain isWordChar :=
  ⟨isWordChar_toLower, by decide⟩

private theorem plain_isBlank : Plain isBlank :=
  ⟨isBlank_toLower, by decide⟩

namespace Plain

variable {accepts : Char → Bool}

theorem after (h : Plain accepts) {c : Char} (hc : accepts c = true) :
    LexState.code.after c = .code :=
  LexState.after_code fun hmem => List.any_eq_false.1 h.code c hmem hc

theorem takeWhile_uncasedFrom (h : Plain accepts) (cs : List Char) :
    (uncasedFrom .code cs).takeWhile accepts =
      (cs.takeWhile accepts).map Char.toLower := by
  induction cs with
  | nil => rfl
  | cons c cs ih =>
      have hc : LexState.code.uncased c = c.toLower := rfl
      rw [uncasedFrom_cons, hc, List.takeWhile_cons, List.takeWhile_cons, h.toLower]
      split
      · rename_i haccepts
        rw [h.after haccepts, ih, List.map_cons]
      · rfl

theorem dropWhile_uncasedFrom (h : Plain accepts) (cs : List Char) :
    (uncasedFrom .code cs).dropWhile accepts =
      uncasedFrom .code (cs.dropWhile accepts) := by
  induction cs with
  | nil => rfl
  | cons c cs ih =>
      have hc : LexState.code.uncased c = c.toLower := rfl
      rw [uncasedFrom_cons, hc, List.dropWhile_cons, List.dropWhile_cons, h.toLower]
      split
      · rename_i haccepts
        rw [h.after haccepts, ih]
      · rfl

end Plain

private theorem utf8Length_map_toLower (cs : List Char) :
    utf8Length (cs.map Char.toLower) = utf8Length cs := by
  induction cs with
  | nil => rfl
  | cons c cs ih => simp [utf8Length, utf8Size_toLower, ih]

namespace Scan

/-- What stands at the beginning of a text in lower case, `scanned` being what stands
there as it is written. -/
def Recased (scanned : Scan) (scan : Scan) : Prop :=
  match scanned with
  | .token t spelling rest =>
      ∃ spelling', scan = .token t.folded spelling' (uncasedFrom .code rest) ∧
        utf8Length spelling' = utf8Length spelling
  | .refused e spelling rest => scan = .refused e spelling (uncasedFrom .code rest)
  | .finish => scan = .finish
  | .unmatched => scan = .unmatched

private theorem recased_word (spelling rest : List Char) :
    (word spelling rest).Recased
      (word (spelling.map Char.toLower) (uncasedFrom .code rest)) := by
  refine ⟨spelling.map Char.toLower, ?_, utf8Length_map_toLower spelling⟩
  unfold word
  rw [← Text.toLower_ofList]
  rfl

private theorem span_uncasedFrom_text {inside : Char → Bool}
    (hinside : ∀ c, inside c = (c != '"' && c != '\n')) (cs : List Char) :
    (uncasedFrom .text cs).takeWhile inside = cs.takeWhile inside ∧
      (uncasedFrom .text cs).dropWhile inside =
        uncasedFrom .text (cs.dropWhile inside) := by
  induction cs with
  | nil => exact ⟨rfl, rfl⟩
  | cons c cs ih =>
      have hc : LexState.text.uncased c = c := rfl
      rw [uncasedFrom_cons, hc, List.takeWhile_cons, List.takeWhile_cons,
        List.dropWhile_cons, List.dropWhile_cons]
      split
      · rename_i hin
        have hafter : LexState.text.after c = .text := by
          rw [hinside] at hin
          simp only [Bool.and_eq_true, bne_iff_ne] at hin
          rw [LexState.after, if_neg hin.2]
          exact if_neg hin.1
        rw [hafter]
        exact ⟨congrArg (c :: ·) ih.1, ih.2⟩
      · exact ⟨rfl, rfl⟩

private theorem recased_text (cs : List Char) :
    (text cs).Recased (text (uncasedFrom .text cs)) := by
  unfold text
  dsimp only
  generalize hinside : (fun c => c != '"' && c != '\n') = inside
  obtain ⟨htake, hdrop⟩ := span_uncasedFrom_text (fun c => congrFun hinside.symm c) cs
  rw [htake, hdrop]
  have hstop := List.head?_dropWhile_not inside cs
  cases hrest : cs.dropWhile inside with
  | nil => exact ⟨_, rfl, rfl⟩
  | cons c rest =>
      rw [hrest] at hstop
      have hends : c = '"' ∨ c = '\n' := by
        simp only [List.head?_cons, ← hinside, Bool.and_eq_false_iff,
          bne_eq_false_iff_eq] at hstop
        exact hstop
      obtain rfl | rfl := hends
      · exact ⟨_, rfl, rfl⟩
      · exact ⟨_, rfl, rfl⟩

private theorem uncasedFrom_charEnd {c : Char} (hquote : c ≠ '\x27') (cs : List Char) :
    uncasedFrom .charEnd (c :: cs) = uncasedFrom .code (c :: cs) := by
  have hafter : LexState.charEnd.after c = LexState.code.after c := by
    unfold LexState.after
    dsimp only
    rw [if_neg hquote]
  rw [uncasedFrom_cons, uncasedFrom_cons, hafter]
  rfl

theorem recased_code (c : Char) (spelling rest : List Char) :
    (code c spelling rest).Recased (code c spelling (uncasedFrom .code rest)) := by
  unfold code
  split
  · rfl
  · exact ⟨_, rfl, rfl⟩

private theorem recased_char (cs : List Char) :
    (char cs).Recased (char (uncasedFrom .char cs)) := by
  cases cs with
  | nil => rfl
  | cons c cs =>
      have hc : LexState.char.uncased c = c := rfl
      rw [uncasedFrom_cons, hc]
      unfold char
      dsimp only
      by_cases hfeed : c = '\n'
      · rw [if_pos hfeed, if_pos hfeed]
        rfl
      · rw [if_neg hfeed, if_neg hfeed]
        rw [LexState.after, if_neg hfeed]
        cases cs with
        | nil => exact recased_code c ['\x27', c] []
        | cons q rest =>
            by_cases hquote : q = '\x27'
            · subst hquote
              exact recased_code c ['\x27', c, '\x27'] rest
            · rw [uncasedFrom_charEnd hquote, uncasedFrom_cons]
              split
              · rename_i heq
                cases heq
                exact absurd rfl hquote
              · split
                · rename_i heq
                  exact absurd (LexState.uncased_eq_iff rfl |>.1 (List.cons.inj heq).1)
                    hquote
                · exact recased_code c ['\x27', c] (q :: rest)

theorem mark_of_single {c : Char} {cs : List Char}
    (h : ¬((c = '<' ∨ c = '>') ∧ cs.head? = some c)) :
    mark c cs = if isPunct c then .token (.punct c) [c] cs else .unmatched := by
  unfold mark
  split
  · exact absurd ⟨.inl rfl, rfl⟩ h
  · exact absurd ⟨.inr rfl, rfl⟩ h
  · rfl

private theorem recased_mark {c : Char} (hsame : c.toLower = c) (cs : List Char) :
    (mark c cs).Recased (mark c (uncasedFrom .code cs)) := by
  by_cases hdouble : (c = '<' ∨ c = '>') ∧ cs.head? = some c
  · obtain ⟨hc, hhead⟩ := hdouble
    obtain ⟨rest, rfl⟩ := List.head?_eq_some_iff.1 hhead
    obtain rfl | rfl := hc
    · exact ⟨_, rfl, rfl⟩
    · exact ⟨_, rfl, rfl⟩
  · have hdouble' : ¬((c = '<' ∨ c = '>') ∧ (uncasedFrom .code cs).head? = some c) := by
      rintro ⟨hc, hhead⟩
      refine hdouble ⟨hc, ?_⟩
      have hmark : c.isAlpha = false := by
        obtain rfl | rfl := hc
        · rfl
        · rfl
      cases cs with
      | nil => cases hhead
      | cons d rest =>
          rw [uncasedFrom_cons, List.head?_cons, Option.some.injEq,
            LexState.uncased_eq_iff hmark] at hhead
          rw [hhead, List.head?_cons]
    rw [mark_of_single hdouble, mark_of_single hdouble']
    split
    · exact ⟨_, rfl, rfl⟩
    · rfl

private theorem recased_ofChars (cs : List Char) :
    (ofChars cs).Recased (ofChars (uncasedFrom .code cs)) := by
  cases cs with
  | nil => rfl
  | cons c cs =>
      have hc : LexState.code.uncased c = c.toLower := rfl
      rw [uncasedFrom_cons, hc]
      unfold ofChars
      dsimp only
      rw [isWordChar_toLower]
      by_cases hword : isWordChar c = true
      · rw [if_pos hword, if_pos hword, plain_isWordChar.after hword,
          plain_isWordChar.takeWhile_uncasedFrom, plain_isWordChar.dropWhile_uncasedFrom]
        exact recased_word (c :: cs.takeWhile isWordChar) _
      · have hsame : c.toLower = c := by
          obtain hsame | hmem := toLower_eq_or_mem_capitals c
          · exact hsame
          · have hcapitals : capitals.all isWordChar = true := by decide
            exact absurd (List.all_eq_true.1 hcapitals c hmem) hword
        rw [if_neg hword, if_neg hword, hsame]
        by_cases hradix : (decide (c = '$') || decide (c = '%')) = true
        · have hcode : LexState.code.after c = .code := by
            apply LexState.after_code
            simp only [Bool.or_eq_true, decide_eq_true_eq] at hradix
            obtain rfl | rfl := hradix
            · decide
            · decide
          rw [if_pos hradix, if_pos hradix, hcode, plain_isWordChar.takeWhile_uncasedFrom,
            plain_isWordChar.dropWhile_uncasedFrom]
          cases cs.takeWhile isWordChar with
          | nil => rfl
          | cons d digits =>
              have hrecased := recased_word (c :: d :: digits) (cs.dropWhile isWordChar)
              rw [List.map_cons, hsame] at hrecased
              exact hrecased
        · rw [if_neg hradix, if_neg hradix]
          by_cases htext : c = '"'
          · subst htext
            exact recased_text cs
          · rw [if_neg htext, if_neg htext]
            by_cases hchar : c = '\x27'
            · subst hchar
              exact recased_char cs
            · rw [if_neg hchar, if_neg hchar]
              by_cases hcomment : c = ';'
              · rw [if_pos hcomment, if_pos hcomment]
                rfl
              · have hcode : LexState.code.after c = .code := by
                  apply LexState.after_code
                  simp [htext, hchar, hcomment]
                rw [if_neg hcomment, if_neg hcomment, hcode]
                exact recased_mark hsame cs

end Scan

namespace Line

private theorem ofCharsAt_uncasedFrom (start : Nat) (cs : List Char) :
    ofCharsAt start (uncasedFrom .code cs) = (ofCharsAt start cs).folded := by
  induction hlength : cs.length using Nat.strongRecOn generalizing start cs with
  | ind n ih =>
      have hrecased := Scan.recased_ofChars (cs.dropWhile isBlank)
      rw [ofCharsAt_eq, ofCharsAt_eq, plain_isBlank.takeWhile_uncasedFrom,
        utf8Length_map_toLower, plain_isBlank.dropWhile_uncasedFrom]
      cases hscan : Scan.ofChars (cs.dropWhile isBlank) with
      | token t spelling rest =>
          rw [hscan] at hrecased
          obtain ⟨spelling', hrecased, hsize⟩ := hrecased
          have hshorter := Scan.length_lt_of_split? (congrArg Scan.split? hscan)
          have hblanks := (List.dropWhile_sublist isBlank (l := cs)).length_le
          rw [hrecased]
          unfold ofScan
          dsimp only
          rw [hsize, ih rest.length (by omega) _ rest rfl]
          rfl
      | _ =>
          rw [hscan] at hrecased
          rw [show Scan.ofChars _ = _ from hrecased]
          rfl

/-- A text and the same one in lower case have the same lexemes in the same places, but
for the spelling of words. -/
theorem ofString_uncased (text : String) :
    ofString (uncased text) = (ofString text).folded := by
  unfold ofString ofChars uncased
  rw [String.toList_ofList, ofCharsAt_uncasedFrom]

end Line

end Breadboard
