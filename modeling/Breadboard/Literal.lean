import Breadboard.Token

namespace Breadboard

inductive Word
  | number (value : Int32)
  | symbol (name : String)
deriving DecidableEq, Repr, Inhabited

inductive Radix
  | hex
  | binary
  | decimal
deriving DecidableEq, Repr, Inhabited

namespace Radix

def base : Radix → Nat
  | .hex => 16
  | .binary => 2
  | .decimal => 10

def invalid : Radix → LexError
  | .hex => .invalidHex
  | .binary => .invalidBinary
  | .decimal => .invalidDecimal

def hexDigit? (c : Char) : Option Nat :=
  if '0' ≤ c ∧ c ≤ '9' then some (c.toNat - '0'.toNat)
  else if 'a' ≤ c ∧ c ≤ 'f' then some (c.toNat - 'a'.toNat + 10)
  else if 'A' ≤ c ∧ c ≤ 'F' then some (c.toNat - 'A'.toNat + 10)
  else none

def digit? (r : Radix) (c : Char) : Option Nat :=
  (hexDigit? c).filter (· < r.base)

/-- Reads digits from the left, `value` being what the ones before them are
worth. A value that needs more than 32 bits is refused at the digit that exceeds
them, whatever follows. -/
def readFrom (r : Radix) (value : Nat) : List Char → Except LexError Nat
  | [] => .ok value
  | c :: cs =>
      match r.digit? c with
      | none => .error r.invalid
      | some d =>
          if value * r.base + d < UInt32.size then r.readFrom (value * r.base + d) cs
          else .error .numberTooLarge

/-- The number that the digits stand for, all 32 bits being available to it. A sign before
them may only be a plus. -/
def read (r : Radix) (digits : List Char) : Except LexError Int32 :=
  match digits with
  | [] => .error r.invalid
  | '+' :: c :: cs => (r.readFrom 0 (c :: cs)).map Int32.ofNat
  | digits => (r.readFrom 0 digits).map Int32.ofNat

end Radix

namespace Word

def ofChars : List Char → Except LexError Word
  | '$' :: digits => (Radix.hex.read digits).map .number
  | '%' :: digits => (Radix.binary.read digits).map .number
  | c :: cs =>
      if c.isDigit then (Radix.decimal.read (c :: cs)).map .number
      else .ok (.symbol (String.ofList (c :: cs)))
  | [] => .ok (.symbol "")

/-- A word that starts with `$`, `%` or a digit is a number, and any
other names a symbol. -/
def classify (word : String) : Except LexError Word :=
  ofChars word.toList

end Word

/-- The names that a definition may introduce: a letter, `_` or `.` and then letters,
digits and `_`, with at least one of these after a `.`. -/
def isLabelName (word : String) : Bool :=
  match word.toList with
  | [] => false
  | first :: rest =>
      (first.isAlpha || first = '_' || first = '.') && !(first = '.' && rest.isEmpty) &&
        rest.all fun c => c.isAlphanum || c = '_'

def isLocalName (word : String) : Bool :=
  word.toList.head? == some '.'

end Breadboard
