import Breadboard.Isa.AddressingMode
import Breadboard.Isa.Operation
import Breadboard.Text.Hex

namespace Breadboard

inductive StopReason
  | terminated
  /-- A `BRK` reached its handler: the address of the `BRK` and the
  message it points to. -/
  | brk (addr : UInt16) (message : String)
  | breakpoint (addr : UInt16)
  | step
  | cancelled
  | interrupted
  /-- An input trap was called after the input had closed. -/
  | inputClosed
deriving DecidableEq, Repr, Inhabited

namespace StopReason

def endsRun : StopReason → Bool
  | .breakpoint _ | .step => false
  | _ => true

def name : StopReason → String
  | .terminated => "Terminated"
  | .brk .. => "Break"
  | .breakpoint _ => "Breakpoint"
  | .step => "Step"
  | .cancelled => "Cancelled"
  | .interrupted => "Interrupted"
  | .inputClosed => "InputClosed"

def describe (r : StopReason) : String :=
  match r with
  | .brk addr message =>
      Text.record r.name [("addr", toString addr.toNat), ("message", Text.quoted message)]
  | .breakpoint addr => r.name ++ "(" ++ toString addr.toNat ++ ")"
  | _ => r.name

end StopReason

inductive MachineError
  | illegalOpcode (opcode : UInt8) (addr : UInt16)
  | unimplementedMode (op : Operation) (mode : AddressingMode)
  | badFilename (name : String)
  | fileAlreadyOpen
  | fileNotOpen
  | fileFault (reason : String)
deriving DecidableEq, Repr, Inhabited

namespace MachineError

def message : MachineError → String
  | .illegalOpcode opcode addr =>
      "illegal opcode " ++ Text.byte opcode ++ " at " ++ Text.address addr
  | .unimplementedMode op mode =>
      op.mnemonic ++ " cannot execute with " ++ mode.describe ++ " addressing"
  | .badFilename name => "bad filename " ++ Text.quoted name
  | .fileAlreadyOpen => "a file is already open"
  | .fileNotOpen => "no file is open"
  | .fileFault reason => "file error: " ++ reason

def help : MachineError → Option String
  | .illegalOpcode .. =>
      some "the program may have run into data, check for a missing RTS or JMP"
  | .badFilename _ =>
      some
        "__fopen expects a pointer to a NUL-terminated UTF-8 filename in A (low) and X (high)"
  | .fileAlreadyOpen => some "call __fclose before opening another file"
  | .fileNotOpen => some "call __fopen first and check that carry is clear"
  | _ => none

end MachineError

inductive Halt
  | stop (reason : StopReason)
  | error (error : MachineError)
deriving DecidableEq, Repr, Inhabited

end Breadboard
