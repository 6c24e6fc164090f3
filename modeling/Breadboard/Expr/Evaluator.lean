import Breadboard.Expr.Operator
import Breadboard.Literal
import Breadboard.Token.Lexer

/-!
Evaluating an expression from the tokens of a line, by operator precedence. What has been
read and not yet applied is a stack of pending operators and open parentheses, each
operator holding its left side.
-/

namespace Breadboard.Expr

structure Context where
  here : UInt16
  resolve : String → Option Int32
  /-- Whether an unknown symbol is undefined and not an error. -/
  lenient : Bool

inductive Enclosure
  /-- No parenthesis, or one that groups only a part. -/
  | bare
  /-- A parenthesis is open around all that has been read. -/
  | opened
  /-- A parenthesis was opened and closed around all that has been read. -/
  | closed
deriving DecidableEq, Repr, Inhabited

structure Operand where
  value : Value
  enclosure : Enclosure
deriving DecidableEq, Repr, Inhabited

inductive Pending
  | unary (op : Unary)
  | binary (left : Value) (op : Binary)
  | group
deriving DecidableEq, Repr, Inhabited

namespace Pending

/-- The value that `v` gives when the operators on top are applied that bind at least as
tightly as `level`, and what is pending below them. -/
def reduce (level : Nat) (v : Value) : List Pending → Except Error (Value × List Pending)
  | .unary op :: below => reduce level (op.applyValue v) below
  | .binary l op :: below =>
      if level ≤ op.level then do reduce level (← op.applyValue l v) below
      else .ok (v, .binary l op :: below)
  | below => .ok (v, below)

/-- The value of the innermost group when it closes with the value `v`, and what is
pending outside of it. -/
def close (v : Value) : List Pending → Except Error (Value × List Pending)
  | .unary op :: below => close (op.applyValue v) below
  | .binary l op :: below => do close (← op.applyValue l v) below
  | .group :: below => .ok (v, below)
  | [] => .error .unbalancedParen

/-- The value of the whole expression when it ends with the value `v`. One open
parenthesis is forgiven at the bottom if it encloses an indirect operand. -/
def unwind (enclosure : Enclosure) (v : Value) : List Pending → Except Error Value
  | .unary op :: below => unwind enclosure (op.applyValue v) below
  | .binary l op :: below => do unwind enclosure (← op.applyValue l v) below
  | .group :: below =>
      if enclosure = .opened ∧ below = [] then .ok v else .error .unbalancedParen
  | [] => .ok v

def depth (pending : List Pending) : Nat :=
  pending.count .group

end Pending

inductive Position
  | operand
  | after (value : Value)
deriving DecidableEq, Repr, Inhabited

structure State where
  position : Position := .operand
  pending : List Pending := []
  enclosure : Enclosure := .bare
  asked : List String := []
deriving DecidableEq, Repr, Inhabited

inductive Move
  | read (state : State)
  | stop
deriving DecidableEq, Repr, Inhabited

structure Failure where
  error : Error
  asked : List String
deriving DecidableEq, Repr, Inhabited

structure Success where
  operand : Operand
  asked : List String
  rest : Line
deriving DecidableEq, Repr, Inhabited

namespace State

def push (s : State) (p : Pending) : State :=
  { s with pending := p :: s.pending }

def fail (s : State) (e : Error) : Failure :=
  ⟨e, s.asked⟩

def readWord (ctx : Context) (s : State) (word : String) : Except Failure State :=
  match Word.classify word with
  | .error e => .error (s.fail (.lex e))
  | .ok (.number n) => .ok { s with position := .after (.known n) }
  | .ok (.symbol name) =>
      let s := { s with asked := s.asked ++ [name] }
      match ctx.resolve name with
      | some v => .ok { s with position := .after (.known v) }
      | none =>
          if ctx.lenient then .ok { s with position := .after .undefined }
          else .error (s.fail (.undefinedSymbol name))

def readPunct (ctx : Context) (s : State) : Char → Except Failure State
  | '*' => .ok { s with position := .after (.known (Int32.ofNat ctx.here.toNat)) }
  | '(' => .ok (s.push .group)
  | '<' => .ok (s.push (.unary .low))
  | '>' => .ok (s.push (.unary .high))
  | '-' => .ok (s.push (.unary .negate))
  | '+' => .ok s
  | c => .error (s.fail (.unexpectedToken (Token.punct c).describe))

def readOperand (ctx : Context) (s : State) : Token → Except Failure State
  | .word w => s.readWord ctx w
  | .char c => .ok { s with position := .after (.known (Int32.ofNat c.toNat)) }
  | .punct c => s.readPunct ctx c
  | t => .error (s.fail (.unexpectedToken t.describe))

def close (s : State) (v : Value) : Except Failure State :=
  match Pending.close v s.pending with
  | .error e => .error (s.fail e)
  | .ok (v, pending) =>
      let enclosure :=
        if s.enclosure ≠ .bare ∧ Pending.depth pending = 0 then .closed else s.enclosure
      .ok { s with position := .after v, pending, enclosure }

/-- Reads a binary operator. A group that was closed before it was only a part of the
operand. -/
def readBinary (s : State) (v : Value) (op : Binary) : Except Failure State :=
  match Pending.reduce op.level v s.pending with
  | .error e => .error (s.fail e)
  | .ok (v, pending) =>
      let enclosure := if s.enclosure = .closed then .bare else s.enclosure
      .ok { s with position := .operand, pending := .binary v op :: pending, enclosure }

def readAfter (s : State) (v : Value) (t : Token) : Except Failure Move :=
  match t with
  | .punct ',' =>
      let depth := Pending.depth s.pending
      if depth = 0 ∨ depth = 1 ∧ s.enclosure = .opened then .ok .stop
      else .error (s.fail (.unexpectedToken ","))
  | .punct ')' =>
      if Pending.depth s.pending = 0 then .ok .stop else (s.close v).map .read
  | t =>
      match Binary.ofToken? t with
      | none => .ok .stop
      | some op => (s.readBinary v op).map .read

def read (ctx : Context) (s : State) (t : Token) : Except Failure Move :=
  match s.position with
  | .operand => (s.readOperand ctx t).map .read
  | .after v => s.readAfter v t

def finish (s : State) (rest : Line) : Except Failure Success :=
  match s.position with
  | .operand => .error (s.fail .missingOperand)
  | .after v =>
      match Pending.unwind s.enclosure v s.pending with
      | .error e => .error (s.fail e)
      | .ok value => .ok ⟨⟨value, s.enclosure⟩, s.asked, rest⟩

def run (ctx : Context) (fault : Option Fault) (s : State) :
    List Lexeme → Except Failure Success
  | [] =>
      match fault with
      | some f => .error (s.fail (.lex f.error))
      | none => s.finish ⟨[], none⟩
  | l :: rest =>
      match s.read ctx l.token with
      | .error e => .error e
      | .ok (.read s) => s.run ctx fault rest
      | .ok .stop => s.finish ⟨l :: rest, fault⟩

end State

/-- Evaluates an operand. If it may be indirect, a parenthesis at its very beginning is
reported, and a comma directly inside of it ends the operand. -/
def evalOperand (ctx : Context) (indirect : Bool) (line : Line) :
    Except Failure Success :=
  let opens := indirect && line.tokens.head? == some (.punct '(')
  let start : State := { enclosure := if opens then .opened else .bare }
  start.run ctx line.fault line.lexemes

def eval (ctx : Context) (line : Line) : Except Failure Success :=
  evalOperand ctx false line

end Breadboard.Expr
