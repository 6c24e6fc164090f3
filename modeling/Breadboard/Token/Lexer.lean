import Breadboard.Token

namespace Breadboard

def isBlank (c : Char) : Bool :=
  c = ' ' || c = '\t' || c = '\r' || c = '\x0c'

def isWordChar (c : Char) : Bool :=
  c.isAlphanum || c = '_' || c = '.'

def isPunct (c : Char) : Bool :=
  "#(),:=+-*/&|<>".toList.contains c

/-- What stands at the beginning of a text that starts with no blank. -/
inductive Scan
  | finish
  | token (token : Token) (spelling rest : List Char)
  | refused (error : LexError) (spelling rest : List Char)
  | unmatched
deriving Repr

namespace Scan

def word (spelling rest : List Char) : Scan :=
  .token (.word (String.ofList spelling)) spelling rest

/-- A string literal, after its opening quote. A missing closing quote is supplied
by the end of the line. -/
def text (cs : List Char) : Scan :=
  let inside := fun c => c != '"' && c != '\n'
  let content := cs.takeWhile inside
  match cs.dropWhile inside with
  | '"' :: rest => .token (.text (String.ofList content)) ('"' :: content ++ ['"']) rest
  | rest => .token (.text (String.ofList content)) ('"' :: content) rest

def code (c : Char) (spelling rest : List Char) : Scan :=
  if 0x80 ≤ c.toNat then .refused .nonAsciiChar spelling rest
  else .token (.char c.toUInt8) spelling rest

/-- A character literal, after its opening quote. The closing quote is optional. -/
def char : List Char → Scan
  | [] => .unmatched
  | c :: cs =>
      if c = '\n' then .unmatched
      else
        match cs with
        | '\x27' :: rest => code c ['\x27', c, '\x27'] rest
        | rest => code c ['\x27', c] rest

def mark (c : Char) (cs : List Char) : Scan :=
  match c, cs with
  | '<', '<' :: rest => .token .shiftLeft ['<', '<'] rest
  | '>', '>' :: rest => .token .shiftRight ['>', '>'] rest
  | c, rest => if isPunct c then .token (.punct c) [c] rest else .unmatched

def ofChars : List Char → Scan
  | [] => .finish
  | c :: cs =>
      if isWordChar c then word (c :: cs.takeWhile isWordChar) (cs.dropWhile isWordChar)
      else if c = '$' || c = '%' then
        match cs.takeWhile isWordChar with
        | [] => .unmatched
        | digits => word (c :: digits) (cs.dropWhile isWordChar)
      else if c = '"' then text cs
      else if c = '\x27' then char cs
      else if c = ';' then .finish
      else mark c cs

def split? : Scan → Option (List Char × List Char)
  | .token _ spelling rest | .refused _ spelling rest => some (spelling, rest)
  | .finish | .unmatched => none

private theorem split?_code (c : Char) (spelling rest : List Char) :
    (code c spelling rest).split? = some (spelling, rest) := by
  unfold code
  split
  · rfl
  · rfl

private theorem append_of_split? {cs spelling rest : List Char}
    (h : (ofChars cs).split? = some (spelling, rest)) : spelling ++ rest = cs := by
  unfold ofChars at h
  split at h
  · cases h
  · rename_i c cs
    split at h
    · cases h
      simp
    · split at h
      · split at h
        · cases h
        · cases h
          simp
      · split at h
        · rename_i hquote
          have happ := List.takeWhile_append_dropWhile
            (p := fun c => c != '"' && c != '\n') (l := cs)
          simp only [text] at h
          split at h
          · rename_i rest' hdrop
            cases h
            rw [hdrop] at happ
            simp [hquote, happ]
          · cases h
            simp [hquote, happ]
        · split at h
          · unfold char at h
            grind [split?, split?_code]
          · split at h
            · cases h
            · unfold mark at h
              grind [split?]

private theorem ne_nil_of_split? {cs spelling rest : List Char}
    (h : (ofChars cs).split? = some (spelling, rest)) : spelling ≠ [] := by
  unfold ofChars word text char mark at h
  grind [split?, split?_code]

theorem length_lt_of_split? {cs spelling rest : List Char}
    (h : (ofChars cs).split? = some (spelling, rest)) : rest.length < cs.length := by
  have happ := congrArg List.length (append_of_split? h)
  have hpos := List.length_pos_iff.2 (ne_nil_of_split? h)
  simp only [List.length_append] at happ
  omega

end Scan

structure Lexeme where
  token : Token
  start : Nat
  stop : Nat
deriving DecidableEq, Repr, Inhabited

/-- A place where no token can be read, the text from there on beginning at byte
`start`. -/
inductive Fault
  | refused (error : LexError) (start : Nat) (spelling rest : List Char)
  | unmatched (start : Nat) (text : List Char)
deriving DecidableEq, Repr, Inhabited

/-- What is left of a line to read: its lexemes up to the end of the line, a comment, or a
fault. -/
structure Line where
  lexemes : List Lexeme
  fault : Option Fault
deriving DecidableEq, Repr, Inhabited

def utf8Length : List Char → Nat
  | [] => 0
  | c :: cs => c.utf8Size + utf8Length cs

/-- How much of a text a lexer passes over if nothing matches at its beginning. -/
structure Recovery where
  passed : List Char → List Char
  begins : ∀ cs, passed cs <+: cs
  advances : ∀ cs, cs ≠ [] → passed cs ≠ []

def Recovery.single : Recovery where
  passed := List.take 1
  begins := List.take_prefix 1
  advances := by simp

namespace Fault

def error : Fault → LexError
  | .refused error .. => error
  | .unmatched .. => .invalidSymbol

def start : Fault → Nat
  | .refused _ start .. => start
  | .unmatched start _ => start

def passed (r : Recovery) : Fault → List Char
  | .refused _ _ spelling _ => spelling
  | .unmatched _ text => r.passed text

def rest (r : Recovery) : Fault → List Char
  | .refused _ _ _ rest => rest
  | .unmatched _ text => text.drop (r.passed text).length

def stop (r : Recovery) (f : Fault) : Nat :=
  f.start + utf8Length (f.passed r)

end Fault

structure Delivery where
  outcome : Except LexError Token
  start : Nat
  stop : Nat
deriving Repr

namespace Line

def ofCharsAt (start : Nat) (cs : List Char) : Line :=
  let blanks := cs.takeWhile isBlank
  match _h : Scan.ofChars (cs.dropWhile isBlank) with
  | .finish => ⟨[], none⟩
  | .refused e spelling rest =>
      ⟨[], some (.refused e (start + utf8Length blanks) spelling rest)⟩
  | .unmatched =>
      ⟨[], some (.unmatched (start + utf8Length blanks) (cs.dropWhile isBlank))⟩
  | .token t spelling rest =>
      let first := start + utf8Length blanks
      let last := first + utf8Length spelling
      let line := ofCharsAt last rest
      ⟨⟨t, first, last⟩ :: line.lexemes, line.fault⟩
termination_by cs.length
decreasing_by
  have := Scan.length_lt_of_split? (congrArg Scan.split? _h)
  have := (List.dropWhile_sublist isBlank (l := cs)).length_le
  omega

/-- The line from its first byte that is no blank, if `left` is the text from there on. -/
def ofScan (first : Nat) (left : List Char) : Scan → Line
  | .finish => ⟨[], none⟩
  | .refused e spelling rest => ⟨[], some (.refused e first spelling rest)⟩
  | .unmatched => ⟨[], some (.unmatched first left)⟩
  | .token t spelling rest =>
      let line := ofCharsAt (first + utf8Length spelling) rest
      ⟨⟨t, first, first + utf8Length spelling⟩ :: line.lexemes, line.fault⟩

theorem ofCharsAt_eq (start : Nat) (cs : List Char) :
    ofCharsAt start cs =
      ofScan (start + utf8Length (cs.takeWhile isBlank)) (cs.dropWhile isBlank)
        (Scan.ofChars (cs.dropWhile isBlank)) := by
  rw [ofCharsAt]
  split
  · rename_i heq
    rw [heq]
    rfl
  · rename_i heq
    rw [heq]
    rfl
  · rename_i heq
    rw [heq]
    rfl
  · rename_i heq
    rw [heq]
    rfl

def ofChars (cs : List Char) : Line :=
  ofCharsAt 0 cs

def ofString (text : String) : Line :=
  ofChars text.toList

def tokens (line : Line) : List Token :=
  line.lexemes.map Lexeme.token

/-- A call for the next token: what it delivers, unless the line is at its end, and what
it leaves to read. After a fault reading goes on behind what the fault covers. -/
def nextToken (r : Recovery) (line : Line) : Option Delivery × Line :=
  match line.lexemes, line.fault with
  | l :: rest, fault => (some ⟨.ok l.token, l.start, l.stop⟩, ⟨rest, fault⟩)
  | [], some f =>
    (some ⟨.error f.error, f.start, f.stop r⟩, ofCharsAt (f.stop r) (f.rest r))
  | [], none => (none, line)

/-- The next token and what is left after it, for readers that give up at an error. -/
def next? (line : Line) : Except LexError (Option (Token × Line)) :=
  match line.nextToken .single with
  | (some d, rest) => d.outcome.map fun t => some (t, rest)
  | (none, _) => .ok none

def peek? (line : Line) : Except LexError (Option Token) :=
  line.next?.map (·.map Prod.fst)

def atEnd (line : Line) : Bool :=
  line.lexemes.isEmpty && line.fault.isNone

/-- The part of a text after the lexemes that have been read, `left` being
what is left of its line. -/
def remainder (text : String) (left : Line) : String :=
  let all := (ofString text).lexemes
  let read := all.take (all.length - left.lexemes.length)
  match read.getLast? with
  | none => text
  | some l => String.ofList (dropBytes l.stop text.toList)
where
  dropBytes : Nat → List Char → List Char
    | 0, cs => cs
    | _, [] => []
    | n, c :: cs => dropBytes (n - c.utf8Size) cs

end Line

end Breadboard
