import Breadboard.Token

namespace Breadboard.Expr

inductive Value
  | known (value : Int32)
  /-- Well formed, but dependent on a symbol that has no value yet. -/
  | undefined
deriving DecidableEq, Repr, Inhabited

def Value.known? : Value → Option Int32
  | .known v => some v
  | .undefined => none

inductive Error
  | lex (error : LexError)
  | missingOperand
  | unexpectedToken (token : String)
  | unbalancedParen
  | divisionByZero
  | undefinedSymbol (name : String)
deriving DecidableEq, Repr, Inhabited

namespace Error

def message : Error → String
  | .lex e => e.message
  | .missingOperand => "expected an expression"
  | .unexpectedToken t => "unexpected \x27" ++ t ++ "\x27 in expression"
  | .unbalancedParen => "unbalanced parentheses"
  | .divisionByZero => "division by zero"
  | .undefinedSymbol name => "undefined symbol \x27" ++ name ++ "\x27"

def help : Error → Option String
  | .lex e => e.help
  | .missingOperand =>
      some "an operand is a number, character, symbol, `*`, or parenthesized expression"
  | .unexpectedToken _ => none
  | .unbalancedParen => some "every `(` needs a matching `)`"
  | .divisionByZero => none
  | .undefinedSymbol _ =>
    some "try defining this symbol as a label or with `name = value`"

end Error

inductive Unary
  | low
  | high
  | negate
deriving DecidableEq, Repr, Inhabited

namespace Unary

def apply : Unary → Int32 → Int32
  | .low, v => v &&& 0xFF
  | .high, v => (v >>> 8) &&& 0xFF
  | .negate, v => -v

def applyValue (op : Unary) : Value → Value
  | .known v => .known (op.apply v)
  | .undefined => .undefined

end Unary

inductive Binary
  | or
  | and
  | shiftLeft
  | shiftRight
  | add
  | sub
  | mul
  | div
deriving DecidableEq, Repr, Inhabited

namespace Binary

def level : Binary → Nat
  | .or => 1
  | .and => 2
  | .shiftLeft | .shiftRight => 3
  | .add | .sub => 4
  | .mul | .div => 5

def ofToken? : Token → Option Binary
  | .punct '|' => some .or
  | .punct '&' => some .and
  | .shiftLeft => some .shiftLeft
  | .shiftRight => some .shiftRight
  | .punct '+' => some .add
  | .punct '-' => some .sub
  | .punct '*' => some .mul
  | .punct '/' => some .div
  | _ => none

/-- Shifting by a count outside of 0 to 31 leaves nothing but the sign, and
that only to the right. -/
def apply (op : Binary) (l r : Int32) : Except Error Int32 :=
  match op with
  | .or => .ok (l ||| r)
  | .and => .ok (l &&& r)
  | .shiftLeft => .ok (if 0 ≤ r ∧ r < 32 then l <<< r else 0)
  | .shiftRight => .ok (if 0 ≤ r ∧ r < 32 then l >>> r else if l < 0 then -1 else 0)
  | .add => .ok (l + r)
  | .sub => .ok (l - r)
  | .mul => .ok (l * r)
  | .div => if r = 0 then .error .divisionByZero else .ok (l / r)

/-- An undefined side makes the result undefined, even that of a division by zero. -/
def applyValue (op : Binary) : Value → Value → Except Error Value
  | .known l, .known r => (op.apply l r).map .known
  | _, _ => .ok .undefined

end Binary

end Breadboard.Expr
