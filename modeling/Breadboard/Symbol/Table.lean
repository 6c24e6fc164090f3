import Breadboard.Literal
import Breadboard.Source.Location
import Std.Data.ExtTreeMap

namespace Breadboard

inductive SymbolKind
  | label
  | value
  | builtin
deriving DecidableEq, Repr, Inhabited

def SymbolKind.name : SymbolKind → String
  | .label => "Label"
  | .value => "Value"
  | .builtin => "Builtin"

structure Symbol where
  value : Int32
  kind : SymbolKind
  location? : Option Location
deriving DecidableEq, Repr, Inhabited

inductive Definition
  | new
  | same
  | changed (old : Int32)
deriving DecidableEq, Repr, Inhabited

abbrev SymbolTable := Std.ExtTreeMap String Symbol

namespace SymbolTable

def value? (t : SymbolTable) (name : String) : Option Int32 :=
  t[name]?.map Symbol.value

def define (t : SymbolTable) (name : String) (s : Symbol) : Definition × SymbolTable :=
  let definition :=
    match t.value? name with
    | none => .new
    | some old => if old = s.value then .same else .changed old
  (definition, t.insert name s)

def labelsAt (t : SymbolTable) (a : UInt16) : List String :=
  (t.toList.filter fun e => e.2.kind = .label && e.2.value.toInt =
    (a.toNat : Int)).map Prod.fst

def commonStart : List Char → List Char → List Char
  | a :: as, b :: bs => if a = b then a :: commonStart as bs else []
  | _, _ => []

def commonStartAll : List (List Char) → Option (List Char)
  | [] => none
  | first :: rest => some (rest.foldl commonStart first)

def dropStart? : List Char → List Char → Option (List Char)
  | [], cs => some cs
  | a :: as, c :: cs => if a = c then dropStart? as cs else none
  | _ :: _, [] => none

/-- What a name that begins with `start` can be extended to without choosing
between symbols. A local name is looked for in the scope, if there is one, and any
other among all symbols. -/
def complete (t : SymbolTable) (scope : Option String) (start : String) : Option String :=
  let hidden := if isLocalName start then scope.getD "" else ""
  let matching := t.keys.filterMap fun key =>
    (dropStart? hidden.toList key.toList).filter (start.toList.isPrefixOf ·)
  (commonStartAll matching).map String.ofList

end SymbolTable

end Breadboard
