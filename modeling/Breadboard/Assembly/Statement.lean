import Breadboard.Assembly.Pass

namespace Breadboard.Assembly

inductive Directive
  | byte
  | word
  | origin
  | include
  | breakpoint
deriving DecidableEq, Repr, Inhabited

namespace Directive

def name : Directive → String
  | .byte => ".byte"
  | .word => ".word"
  | .origin => ".org"
  | .include => ".include"
  | .breakpoint => ".break"

def all : List Directive :=
  [.byte, .word, .origin, .include, .breakpoint]

def ofWord? (word : String) : Option Directive :=
  let lower := word.toLower
  all.find? (·.name == lower)

end Directive

def beginsStatement (word : String) : Bool :=
  (Operation.ofMnemonic? word).isSome || (Directive.ofWord? word).isSome

inductive Index
  | x
  | y
deriving DecidableEq, Repr, Inhabited

namespace Read

def ofLex {α : Type} : Except LexError α → Except ErrorKind α
  | .ok a => .ok a
  | .error e => .error (.lex e)

def next? (line : Line) : Except ErrorKind (Option (Token × Line)) :=
  ofLex line.next?

def peek? (line : Line) : Except ErrorKind (Option Token) :=
  ofLex line.peek?

def skip (line : Line) : Line :=
  { line with lexemes := line.lexemes.tail }

def complain {α : Type} (complaint : String) : Except ErrorKind α :=
  throw (.malformed complaint)

def expectEnd (line : Line) : Except ErrorKind Unit := do
  match ← next? line with
  | none => pure ()
  | some (t, _) => complain ("unexpected " ++ inQuotes t.describe)

def comma? (line : Line) : Except ErrorKind (Option Line) := do
  match ← peek? line with
  | some (.punct ',') => pure (some (skip line))
  | _ => pure none

def index? (line : Line) : Except ErrorKind (Option Index × Line) := do
  match ← comma? line with
  | none => pure (none, line)
  | some line =>
      match ← next? line with
      | some (.word w, rest) =>
          if w.toLower == "x" then pure (some .x, rest)
          else if w.toLower == "y" then pure (some .y, rest)
          else complain "expected X or Y after \x27,\x27"
      | _ => complain "expected X or Y after \x27,\x27"

def operandValue (indirect : Bool) (line : Line) : Assembling (Expr.Operand × Line) := do
  let p ← get
  match Expr.evalOperand p.context indirect line with
  | .ok r =>
      modify (·.recordReferences r.asked)
      pure (r.operand, r.rest)
  | .error f =>
      modify (·.recordReferences f.asked)
      throw (.ofExpr f.error)

def value (line : Line) : Assembling (Expr.Value × Line) := do
  let (operand, rest) ← operandValue false line
  pure (operand.value, rest)

def valueOrZero (line : Line) : Assembling (Int32 × Line) := do
  let (v, rest) ← value line
  pure (v.known?.getD 0, rest)

end Read

open Read

/-- The mode that the shape of an operand selects, before page zero is considered. -/
def shape (enclosure : Expr.Enclosure) (line : Line) :
    Except ErrorKind (AddressingMode × Line) := do
  match enclosure with
  | .closed =>
      match ← index? line with
      | (none, line) => pure (.indirect, line)
      | (some .y, line) => pure (.indirectIndexedY, line)
      | (some .x, _) => complain "cannot index an indirect operand by X"
  | .opened =>
      match ← index? line with
      | (some .x, line) =>
          match ← next? line with
          | some (.punct ')', line) => pure (.indexedIndirectX, line)
          | _ => complain "expected \x27)\x27 after \x27,X\x27"
      | _ => complain "expected \x27,X)\x27 in indexed indirect operand"
  | .bare =>
      match ← index? line with
      | (none, line) => pure (.absolute, line)
      | (some .x, line) => pure (.absoluteX, line)
      | (some .y, line) => pure (.absoluteY, line)

def inByteRange (v : Int32) : Bool :=
  -128 ≤ v && v ≤ 255

def inWordRange (v : Int32) : Bool :=
  -0x8000 ≤ v && v ≤ 0xFFFF

def inZeroPage (v : Int32) : Bool :=
  0 ≤ v && v ≤ 0xFF

def inBranchRange (v : Int32) : Bool :=
  -128 ≤ v && v ≤ 127

/-- The distance from the instruction after a branch to the target. An unknown
target counts as near. -/
def branchOffset (address : UInt16) : Expr.Value → Int32
  | .known target => target - (Int32.ofNat address.toNat + 2)
  | .undefined => 0

def downgrade (modes : ModeSet) (mode : AddressingMode) (v : Int32) : AddressingMode :=
  match mode.zeroPageForm? with
  | some short => if inZeroPage v && modes.contains short then short else mode
  | none => mode

def bareMode (modes : ModeSet) : AddressingMode :=
  if !modes.contains .implied && modes.contains .accumulator then .accumulator
    else .implied

def addressOperand (op : Operation) (modes : ModeSet) (line : Line) :
    Assembling (AddressingMode × Expr.Value × Line) := do
  let (operand, rest) ← operandValue modes.hasIndirect line
  if op.isBranch then pure (.relative, operand.value, rest)
  else
    let (mode, rest) ← shape operand.enclosure rest
    pure (mode, operand.value, rest)

def operand (op : Operation) (modes : ModeSet) (line : Line) :
    Assembling (AddressingMode × Expr.Value × Line) := do
  match ← peek? line with
  | none => pure (bareMode modes, .known 0, line)
  | some (.punct '#') =>
      let (v, rest) ← value (skip line)
      pure (.immediate, v, rest)
  | some (.word w) =>
      if w.toLower == "a" && (skip line).atEnd
        then pure (.accumulator, .known 0, skip line)
      else addressOperand op modes line
  | some _ => addressOperand op modes line

def settleBranch (value : Expr.Value) : Assembling Int32 := do
  let p ← get
  let offset := branchOffset p.address value
  if p.round = .second && !inBranchRange offset then throw (.branchOutOfRange offset)
  pure offset

/-- Settles the mode of an instruction and the value that it encodes. An operand whose
value is not known yet takes the longest form. -/
def settle (modes : ModeSet) (mode : AddressingMode) (value : Expr.Value) :
    Assembling (AddressingMode × Int32) := do
  match mode, value with
  | .relative, value => return (.relative, ← settleBranch value)
  | mode, .undefined => return (mode, 0)
  | .implied, .known v | .accumulator, .known v => return (mode, v)
  | .immediate, .known v =>
      modify (·.warnIf (!inByteRange v) (.immediateOutOfRange v))
      return (mode, v)
  | .indexedIndirectX, .known v | .indirectIndexedY, .known v =>
      if !inZeroPage v && (← get).round = .second then throw (.zeroPageRequired v)
      return (mode, v)
  | mode, .known v =>
      modify (·.warnIf (!inWordRange v) (.valueOutOfRange v))
      return (downgrade modes mode v, v)

/-- Places the instruction of an entry. The mode has no entry if the
operation does not support it. -/
def placeEntry (op : Operation) (mode : AddressingMode) (value : Int32) :
    Option OpcodeEntry → Assembling Unit
  | none => throw (.unsupportedMode op mode)
  | some entry => modify fun p => p.markInstruction.place (.instruction entry value)

def instruction (op : Operation) (line : Line) : Assembling Line := do
  let modes := opcodes.modes op
  let (mode, value, rest) ← operand op modes line
  modify (·.record (.operand op mode value))
  let (mode, v) ← settle modes mode value
  placeEntry op mode v (opcodes.lookup? op mode)
  pure rest

def byteItem (line : Line) : Assembling Line := do
  match ← peek? line with
  | some (.text content) =>
      modify (·.place (.text content))
      pure (skip line)
  | _ =>
      let (v, rest) ← valueOrZero line
      modify fun p => (p.warnIf (!inByteRange v) (.valueOutOfRange v)).place (.byte v)
      pure rest

def wordItem (line : Line) : Assembling Line := do
  let (v, rest) ← valueOrZero line
  modify fun p => (p.warnIf (!inWordRange v) (.valueOutOfRange v)).place (.word v)
  pure rest

def items (item : Line → Assembling Line) : Nat → Line → Assembling Line
  | 0, line => pure line
  | n + 1, line => do
      let rest ← item line
      match ← comma? rest with
      | none => pure rest
      | some rest => items item n rest

def directive (d : Directive) (line : Line) : Assembling (Option String × Line) := do
  match d with
  | .byte => return (none, ← items byteItem (line.lexemes.length + 1) line)
  | .word => return (none, ← items wordItem (line.lexemes.length + 1) line)
  | .origin =>
      let (v, rest) ← value line
      match v with
      | .undefined => throw .undeterminedOrigin
      | .known v =>
          modify (·.moveTo v)
          return (none, rest)
  | .include =>
      match ← next? line with
      | some (.text name, rest) => return (some name, rest)
      | _ => throw .expectedString
  | .breakpoint =>
      modify Pass.markBreakpoint
      return (none, line)

/-- Reads the instruction or directive that the rest of a line consists of, if there is
one. The result tells which file is to be included, if one is. -/
def statement (line : Line) : Assembling (Option String) := do
  match ← next? line with
  | none => pure none
  | some (.word w, rest) =>
      match Operation.ofMnemonic? w, Directive.ofWord? w with
      | some op, _ =>
          expectEnd (← instruction op rest)
          pure none
      | none, some d =>
          let (file?, rest) ← directive d rest
          expectEnd rest
          pure file?
      | none, none =>
        throw (if isLocalName w then .unknownDirective w else .unknownMnemonic w)
  | some (t, _) =>
      complain ("expected instruction or directive, found " ++ inQuotes t.describe)

def label (name : String) : Assembling Unit :=
  if isLabelName name then modify (·.defineLabel name) else throw (.invalidLabel name)

/-- Gives a name the value of an expression. A value that is not known yet defines
nothing. -/
def assignment (name : String) (line : Line) : Assembling Unit := do
  if isLabelName name then
    let (v, rest) ← value line
    modify (·.record (.assign v))
    expectEnd rest
    match v with
    | .known v => modify fun p => p.define (p.qualify name) v .value
    | .undefined => pure ()
  else throw (.invalidLabel name)

inductive Beginning
  | nothing
  | label (name : String) (rest : Line)
  | bareLabel (name : String) (rest : Line)
  | assignment (name : String) (rest : Line)
  | statement
deriving DecidableEq, Repr, Inhabited

def mayFollowLabel : Option Token → Bool
  | none => true
  | some (.word w) => beginsStatement w
  | some _ => false

def beginning (line : Line) : Except ErrorKind Beginning := do
  match ← next? line with
  | none => pure .nothing
  | some (.word name, rest) =>
      match ← peek? rest with
      | some (.punct ':') => pure (.label name (skip rest))
      | some (.punct '=') => pure (.assignment name (skip rest))
      | next =>
          if beginsStatement name then pure .statement
          else if mayFollowLabel next then pure (.bareLabel name rest)
          else throw (if isLocalName name then .unknownDirective name
            else .unknownMnemonic name)
  | some (t, _) => complain ("unexpected " ++ inQuotes t.describe ++ " at start of line")

def readLine (line : Line) : Assembling (Option String) := do
  match ← beginning line with
  | .nothing => pure none
  | .label name rest =>
      label name
      statement rest
  | .bareLabel name rest =>
      if (← get).flags.requireColon then throw (.missingColon name)
      label name
      statement rest
  | .assignment name rest =>
      assignment name rest
      pure none
  | .statement => statement line

def assembleLine (l : Location) (text : String) : Assembling (Option String) := do
  modify (·.enterLine l)
  readLine (.ofString text)

end Breadboard.Assembly
