import Breadboard.Expr.Operator
import Breadboard.Isa.OpcodeTable
import Breadboard.Machine.Memory
import Breadboard.Source.Location
import Breadboard.Symbol.Table
import Breadboard.Text.Utf8

namespace Breadboard.Assembly

inductive Item
  | instruction (entry : OpcodeEntry) (value : Int32)
  | byte (value : Int32)
  | word (value : Int32)
  | text (content : String)
deriving DecidableEq, Repr, Inhabited

def lowOf (v : Int32) : UInt8 :=
  lowByte v.toUInt32.toUInt16

def highOf (v : Int32) : UInt8 :=
  highByte v.toUInt32.toUInt16

def Item.bytes : Item → List UInt8
  | .instruction entry value =>
    [entry.opcode, lowOf value, highOf value].take entry.size.toNat
  | .byte value => [lowOf value]
  | .word value => [lowOf value, highOf value]
  | .text content => Text.encodeUtf8 content

inductive Event
  /-- A line is read, the next byte going to this address. -/
  | visit (addr : UInt16)
  | define (key : String) (value : Int32) (kind : SymbolKind)
  | refer (key : String) (value? : Option Int32)
  | assign (value : Expr.Value)
  /-- The operand of an instruction is read, in the mode of its shape. -/
  | operand (op : Operation) (mode : AddressingMode) (value : Expr.Value)
  | place (addr : UInt16) (item : Item)
  | origin (value : Int32)
deriving DecidableEq, Repr, Inhabited

structure ListingEntry where
  location : Location
  event : Event
deriving DecidableEq, Repr, Inhabited

abbrev Listing := Array ListingEntry

def writeAll (chunks : List (UInt16 × Item)) (m : Memory) : Memory :=
  chunks.foldl (fun m chunk => m.load chunk.1 chunk.2.bytes) m

namespace Listing

def placements (l : Listing) : List (UInt16 × Item) :=
  l.toList.filterMap fun e =>
    match e.event with
    | .place addr item => some (addr, item)
    | _ => none

def writeTo (l : Listing) (m : Memory) : Memory :=
  writeAll l.placements m

end Listing

end Breadboard.Assembly
