import Breadboard.Text.Hex
import Breadboard.Text.Printable

namespace Breadboard.Text

def quotedChar : Char → String
  | '"' => "\\\""
  | '\\' => "\\\\"
  | '\t' => "\\t"
  | '\r' => "\\r"
  | '\n' => "\\n"
  | '\x00' => "\\0"
  | c => if isShown c then c.toString else "\\u\x7b" ++ lowerHex c.toNat ++ "\x7d"

def quoted (text : String) : String :=
  "\"" ++ String.join (text.toList.map quotedChar) ++ "\""

def braced (items : List String) : String :=
  "\x7b" ++ ", ".intercalate items ++ "\x7d"

/-- A record with its fields in order, such as `Point { x: 1, y: 2 }`. -/
def record (name : String) (fields : List (String × String)) : String :=
  name ++ " \x7b " ++ ", ".intercalate (fields.map fun f => f.1 ++ ": " ++ f.2) ++ " \x7d"

def partialRecord (name : String) (fields : List (String × String)) : String :=
  name ++ " \x7b " ++
    ", ".intercalate ((fields.map fun f => f.1 ++ ": " ++ f.2) ++ [".."]) ++ " \x7d"

def boolean (b : Bool) : String :=
  if b then "true" else "false"

def optional (value : Option String) : String :=
  match value with
  | none => "None"
  | some text => "Some(" ++ text ++ ")"

end Breadboard.Text
