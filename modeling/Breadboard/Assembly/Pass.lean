import Breadboard.Assembly.Listing
import Breadboard.Assembly.Problem
import Breadboard.Expr.Evaluator
import Breadboard.Machine.AddressSet
import Breadboard.Machine.Trap
import Breadboard.Symbol.LineMap
import Breadboard.Symbol.Scopes

/-!
The state of a pass over a program. The first pass finds the values of symbols, the second
one places bytes and reports. Symbols and scopes are carried over from the first pass to
the second.
-/

namespace Breadboard.Assembly

structure Flags where
  requireColon : Bool := false
  defaultOrigin : UInt16 := 0x0200
  /-- Where included files are searched for that are not next to the file including
  them. -/
  includeDirs : List Path := []
  caseSensitive : Bool := true
deriving DecidableEq, Repr, Inhabited

def Flags.describe (f : Flags) : String :=
  Text.record "AsmFlags"
    [("require_colon", Text.boolean f.requireColon),
      ("default_org", toString f.defaultOrigin.toNat),
      ("include_dirs", "[" ++ ", ".intercalate (f.includeDirs.map (Text.quoted ·.text)) ++
        "]"),
      ("case_sensitive_labels", Text.boolean f.caseSensitive)]

inductive Round
  | first
  | second
deriving DecidableEq, Repr, Inhabited

structure Pass where
  flags : Flags
  round : Round := .first
  address : UInt16
  line : Location := ⟨0, "", 0⟩
  scope : Option String := none
  symbols : SymbolTable
  /-- The first value that each symbol got in the first pass. -/
  firstValues : Std.ExtTreeMap String Int32 := ∅
  defined : Std.ExtTreeSet String := ∅
  scopes : Scopes := {}
  lineMap : LineMap := ∅
  breakpoints : AddressSet := ∅
  warnings : Array Warning := #[]
  entry? : Option UInt16 := none
  listing : Listing := #[]

/-- Assembling a line may change the pass and may fail, and what it changed
before it failed stays. -/
abbrev Assembling := EStateM ErrorKind Pass

instance : MonadLift (Except ErrorKind) Assembling where
  monadLift read p :=
    match read with
    | .ok a => .ok a p
    | .error e => .error e p

/-- The names of the traps are defined before any line is read. -/
def builtins : SymbolTable :=
  Trap.all.foldl (fun t trap =>
    t.insert trap.symbol ⟨Int32.ofNat trap.address.toNat, .builtin, none⟩) ∅

namespace Pass

def initial (flags : Flags) : Pass :=
  { flags, address := flags.defaultOrigin, symbols := builtins }

def next (p : Pass) : Pass :=
  { flags := p.flags
    round := .second
    address := p.flags.defaultOrigin
    symbols := p.symbols
    firstValues := p.firstValues
    scopes := p.scopes }

def record (p : Pass) (event : Event) : Pass :=
  { p with listing := p.listing.push ⟨p.line, event⟩ }

/-- Every line is read by both passes, and only the second one reports. -/
def warn (p : Pass) (kind : WarningKind) : Pass :=
  match p.round with
  | .first => p
  | .second => { p with warnings := p.warnings.push ⟨kind, p.line⟩ }

def warnIf (p : Pass) (condition : Bool) (kind : WarningKind) : Pass :=
  if condition then p.warn kind else p

/-- The name under which symbols that differ only in letter case are the
same, if they are to be. -/
def normalize (p : Pass) (name : String) : String :=
  if p.flags.caseSensitive then name else name.toLower

def qualify (p : Pass) (name : String) : String :=
  let name := p.normalize name
  if isLocalName name then p.scope.getD "" ++ name else name

def context (p : Pass) : Expr.Context :=
  { here := p.address
    resolve := fun name => p.symbols.value? (p.qualify name)
    lenient := p.round = .first }

def recordReferences (p : Pass) (names : List String) : Pass :=
  names.foldl (fun p name =>
    let key := p.qualify name
    p.record (.refer key (p.symbols.value? key))) p

def enterLine (p : Pass) (l : Location) : Pass :=
  let p := { p with line := l, scope := p.scopes.at? l.file l.line }
  p.record (.visit p.address)

/-- What is to be reported of a definition: at its first definition in a pass, a label
that moved since the first pass; at any later one, a change of value. -/
def complaint? (p : Pass) (key : String) (value : Int32) (kind : SymbolKind)
    (definition : Definition) : Option WarningKind :=
  if p.defined.contains key then
    match definition with
    | .changed old => some (.labelRedefined key old value)
    | _ => none
  else if kind = .label then
    (p.firstValues[key]?.filter (· ≠ value)).map (.phaseDrift key · value)
  else none

def define (p : Pass) (key : String) (value : Int32) (kind : SymbolKind) : Pass :=
  let isFirst := !p.defined.contains key
  let firstValues :=
    if isFirst && p.round = .first then p.firstValues.insert key value else p.firstValues
  let (definition, symbols) := p.symbols.define key ⟨value, kind, some p.line⟩
  let complaint? := p.complaint? key value kind definition
  let p := { p with defined := p.defined.insert key, firstValues, symbols }
  let p := p.record (.define key value kind)
  match complaint? with
  | some complaint => p.warn complaint
  | none => p

def openScope (p : Pass) (key : String) : Pass :=
  { p with scopes := p.scopes.enter p.line.file p.line.line key, scope := some key }

def defineLabel (p : Pass) (name : String) : Pass :=
  let value := Int32.ofNat p.address.toNat
  if isLocalName name then
    let p := p.warnIf p.scope.isNone (.localOutsideScope name)
    p.define (p.qualify name) value .label
  else
    let key := p.normalize name
    (p.openScope key).define key value .label

def advance (p : Pass) (count : UInt16) : Pass :=
  { p with address := p.address + count }

def place (p : Pass) (item : Item) : Pass :=
  (p.record (.place p.address item)).advance (UInt16.ofNat item.bytes.length)

def markInstruction (p : Pass) : Pass :=
  match p.round with
  | .first => p
  | .second =>
      let overlaps := p.lineMap.contains p.address
      let p := { p with
        lineMap := p.lineMap.insert p.address p.line
        entry? := p.entry?.or (some p.address) }
      p.warnIf overlaps (.overlappingCode p.address)

def moveTo (p : Pass) (value : Int32) : Pass :=
  let p := p.warnIf (value < 0 || 0xFFFF < value) (.originOutOfRange value)
  let p := p.record (.origin value)
  { p with address := value.toUInt32.toUInt16 }

def markBreakpoint (p : Pass) : Pass :=
  match p.round with
  | .first => p
  | .second => { p with breakpoints := p.breakpoints.insert p.address }

end Pass

end Breadboard.Assembly
