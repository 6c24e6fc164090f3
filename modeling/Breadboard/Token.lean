import Breadboard.Text.Quoted

namespace Breadboard

inductive Token
  /-- A run of letters, digits, `_` and `.`, perhaps after a `$` or a `%`. -/
  | word (text : String)
  | text (content : String)
  | char (code : UInt8)
  | shiftLeft
  | shiftRight
  /-- Any other operator or mark, of one character. -/
  | punct (mark : Char)
deriving DecidableEq, Repr, Inhabited

namespace Token

def describe : Token → String
  | .word spelling => spelling
  | .text content => Text.quoted content
  | .char code => "\x27" ++ (Char.ofNat code.toNat).toString ++ "\x27"
  | .shiftLeft => "<<"
  | .shiftRight => ">>"
  | .punct mark => mark.toString

end Token

inductive LexError
  | numberTooLarge
  | invalidHex
  | invalidBinary
  | invalidDecimal
  | nonAsciiChar
  | invalidSymbol
deriving DecidableEq, Repr, Inhabited

namespace LexError

def message : LexError → String
  | .numberTooLarge => "numeric literal is too large"
  | .invalidHex => "invalid hex literal"
  | .invalidBinary => "invalid binary literal"
  | .invalidDecimal => "invalid decimal literal"
  | .nonAsciiChar => "character literal must be ASCII"
  | .invalidSymbol => "unrecognized symbol"

def help : LexError → Option String
  | .numberTooLarge => some "the range for a numeric literal is [-2147483648, 2147483647]"
  | .invalidHex => some "a hex literal starts with \x27$\x27 and consists of 0-9, A-F"
  | .invalidBinary =>
    some "a binary literal starts with \x27%\x27 and consists of 0 and 1"
  | .invalidDecimal => some "a decimal literal only consists of digits 0-9"
  | .nonAsciiChar => none
  | .invalidSymbol => some "this char does not occur in any token in 6502 assembly"

end LexError

end Breadboard
