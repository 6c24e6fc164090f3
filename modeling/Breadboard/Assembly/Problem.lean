import Breadboard.Expr.Operator
import Breadboard.Isa.Documented
import Breadboard.Source.Library

namespace Breadboard.Assembly

def hexValue (width : Nat) (v : Int32) : String :=
  "$" ++ Text.upperHex width v.toUInt32.toNat

def inQuotes (text : String) : String :=
  "\x27" ++ text ++ "\x27"

inductive ErrorKind
  | unopened (path : Path) (reason : DiskError)
  | lex (error : LexError)
  | expr (error : Expr.Error)
  | unknownMnemonic (word : String)
  | unknownDirective (word : String)
  | unsupportedMode (op : Operation) (mode : AddressingMode)
  /-- The target of a branch lies this far from the instruction after it. -/
  | branchOutOfRange (offset : Int32)
  | zeroPageRequired (value : Int32)
  | malformed (complaint : String)
  | invalidLabel (name : String)
  | missingColon (name : String)
  | undeterminedOrigin
  | expectedString
deriving DecidableEq, Repr, Inhabited

namespace ErrorKind

def ofExpr : Expr.Error → ErrorKind
  | .lex e => .lex e
  | e => .expr e

def ofOpen (e : OpenError) : ErrorKind :=
  .unopened e.path e.reason

def message : ErrorKind → String
  | .unopened path reason => "could not open " ++ path.text ++ ": " ++ reason.message
  | .lex e => e.message
  | .expr e => e.message
  | .unknownMnemonic word => "unknown mnemonic " ++ inQuotes word
  | .unknownDirective word => "unknown directive " ++ inQuotes word
  | .unsupportedMode op mode =>
      op.mnemonic ++ " does not support " ++ mode.describe ++ " addressing"
  | .branchOutOfRange offset =>
      "branch target is out of range (offset " ++ toString offset.toInt ++ ")"
  | .zeroPageRequired value =>
      "indexed indirect operand must be in zero page (got " ++ hexValue 0 value ++ ")"
  | .malformed complaint => complaint
  | .invalidLabel name => "invalid label name " ++ inQuotes name
  | .missingColon name => "label " ++ inQuotes name ++ " is missing a colon"
  | .undeterminedOrigin => "cannot determine address of .org"
  | .expectedString => "expected a string literal"

def help : ErrorKind → Option String
  | .unopened .. =>
      some
        "includes are searched for next to the including file, then in the include directories"
  | .lex e => e.help
  | .expr e => e.help
  | .unknownMnemonic _ => some "only the documented 6502 instructions are supported"
  | .unknownDirective _ =>
    some "the directives are .byte, .word, .org, .include, and .break"
  | .unsupportedMode op _ =>
      some (op.mnemonic ++ " supports: " ++
        ", ".intercalate ((opcodes.modes op).toList.map AddressingMode.describe))
  | .branchOutOfRange _ =>
      some
        "a branch can reach 128 bytes back or 127 bytes forward; try branching over a JMP"
  | .zeroPageRequired _ => some "indirect pointers must be stored in zero page ($00-$FF)"
  | .malformed _ => none
  | .invalidLabel _ =>
      some
        ("labels start with a letter, `_`, or `.` and otherwise consist of letters, " ++
          "digits, and `_`")
  | .missingColon _ => some "try adding a `:` after the label"
  | .undeterminedOrigin => some "symbols used in .org must be defined before the .org"
  | .expectedString => some "try surrounding the path in double quotes"

def cause? : ErrorKind → Option String
  | .lex e => some e.message
  | .expr e => some e.message
  | _ => none

end ErrorKind

structure Error where
  kind : ErrorKind
  location? : Option Location
deriving DecidableEq, Repr, Inhabited

def Error.message (e : Error) : String :=
  match e.location? with
  | some l => l.describe ++ ": " ++ e.kind.message
  | none => e.kind.message

inductive WarningKind
  | labelRedefined (name : String) (old new : Int32)
  | immediateOutOfRange (value : Int32)
  | valueOutOfRange (value : Int32)
  | originOutOfRange (value : Int32)
  | localOutsideScope (name : String)
  /-- A label has another value in the second pass than in the first. -/
  | phaseDrift (name : String) (first second : Int32)
  | overlappingCode (addr : UInt16)
deriving DecidableEq, Repr, Inhabited

namespace WarningKind

def message : WarningKind → String
  | .labelRedefined name old new =>
      inQuotes name ++ " redefined from " ++ toString old.toInt ++ " to " ++
        toString new.toInt
  | .immediateOutOfRange v =>
    "immediate value " ++ toString v.toInt ++ " does not fit in a byte"
  | .valueOutOfRange v =>
    "value " ++ toString v.toInt ++ " is out of range and was truncated"
  | .originOutOfRange v =>
      ".org address " ++ toString v.toInt ++ " is out of range and was truncated"
  | .localOutsideScope name =>
    "local label " ++ inQuotes name ++ " is not inside any scope"
  | .phaseDrift name first second =>
      inQuotes name ++ " moved from " ++ hexValue 4 first ++ " to " ++
        hexValue 4 second ++ " between passes"
  | .overlappingCode addr => "code at " ++ Text.address addr ++ " was overwritten"

def help : WarningKind → Option String
  | .phaseDrift .. => some "try defining the operand\x27s symbol before it is used"
  | .localOutsideScope _ => some "define a label without a `.` above this one"
  | _ => none

end WarningKind

structure Warning where
  kind : WarningKind
  location : Location
deriving DecidableEq, Repr, Inhabited

def Warning.message (w : Warning) : String :=
  w.location.describe ++ ": " ++ w.kind.message

end Breadboard.Assembly
