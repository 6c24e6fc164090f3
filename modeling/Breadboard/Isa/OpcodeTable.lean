import Breadboard.Isa.AddressingMode
import Breadboard.Isa.Operation
import Breadboard.Text.Hex
import Std.Data.ExtTreeMap

namespace Breadboard

structure OpcodeEntry where
  opcode : UInt8
  size : UInt8
  cycles : UInt8
  op : Operation
  mode : AddressingMode
deriving DecidableEq, Repr, Inhabited

inductive TableError
  | sizeMismatch (opcode size : UInt8) (mode : AddressingMode)
  | duplicateOpcode (opcode : UInt8)
  | duplicatePair (op : Operation) (mode : AddressingMode)
  | missingOperation (op : Operation)
deriving DecidableEq, Repr, Inhabited

def TableError.message : TableError → String
  | .sizeMismatch opcode size mode =>
      "opcode " ++ Text.byte opcode ++ " declares size " ++
        toString size.toNat ++ ", but " ++
        mode.describe ++ " instructions are " ++ toString mode.size.toNat ++ " bytes"
  | .duplicateOpcode opcode =>
    "opcode " ++ Text.byte opcode ++ " is assigned more than once"
  | .duplicatePair op mode =>
      op.mnemonic ++ " " ++ mode.describe ++ " is assigned more than one opcode"
  | .missingOperation op => op.mnemonic ++ " has no supported addressing modes"

def compareOperations : Operation → Operation → Ordering :=
  compareOn Operation.ctorIdx

def comparePairs : Operation × AddressingMode → Operation × AddressingMode → Ordering :=
  compareLex (compareOn fun pair => pair.1.ctorIdx) (compareOn fun pair => pair.2.ctorIdx)

instance : Std.TransCmp compareOperations :=
  inferInstanceAs (Std.TransCmp (compareOn Operation.ctorIdx))

instance : Std.TransCmp comparePairs :=
  inferInstanceAs (Std.TransCmp (compareLex _ _))

/-- A table of opcodes with three indexes: the entry of each opcode, the opcode of each
pair of operation and mode, and the modes of each operation. -/
structure OpcodeTable where
  slots : Vector (Option OpcodeEntry) 256
  byPair : Std.ExtTreeMap (Operation × AddressingMode) UInt8 comparePairs
  modeSets : Std.ExtTreeMap Operation ModeSet compareOperations

namespace OpcodeTable

def empty : OpcodeTable :=
  ⟨Vector.replicate 256 none, ∅, ∅⟩

def decode? (t : OpcodeTable) (opcode : UInt8) : Option OpcodeEntry :=
  t.slots.get ⟨opcode.toNat, opcode.toNat_lt⟩

def entries (t : OpcodeTable) : List OpcodeEntry :=
  t.slots.toList.filterMap id

def lookup? (t : OpcodeTable) (op : Operation) (mode : AddressingMode) :
    Option OpcodeEntry := do
  let opcode ← t.byPair[(op, mode)]?
  t.decode? opcode

def modes (t : OpcodeTable) (op : Operation) : ModeSet :=
  t.modeSets[op]?.getD .empty

def setSlot (t : OpcodeTable) (e : OpcodeEntry) : OpcodeTable :=
  { t with slots := t.slots.set e.opcode.toNat (some e) e.opcode.toNat_lt }

def insertSlot (t : OpcodeTable) (e : OpcodeEntry) : Except TableError OpcodeTable :=
  if (t.decode? e.opcode).isSome then .error (.duplicateOpcode e.opcode)
  else .ok (t.setSlot e)

def insertPair (t : OpcodeTable) (e : OpcodeEntry) : Except TableError OpcodeTable :=
  if t.byPair.contains (e.op, e.mode) then .error (.duplicatePair e.op e.mode)
  else .ok { t with byPair := t.byPair.insert (e.op, e.mode) e.opcode }

def insertMode (t : OpcodeTable) (e : OpcodeEntry) : OpcodeTable :=
  { t with modeSets := t.modeSets.insert e.op ((t.modes e.op).insert e.mode) }

/-- Enters an entry into one index after another, unless it breaks a rule: its
size is that of its mode, and neither its opcode nor its pair of operation and
mode is in the table yet. -/
def insert (t : OpcodeTable) (e : OpcodeEntry) : Except TableError OpcodeTable := do
  if e.size ≠ e.mode.size then throw (.sizeMismatch e.opcode e.size e.mode)
  let t ← t.insertSlot e
  let t ← t.insertPair e
  return t.insertMode e

def build (entries : List OpcodeEntry) : Except TableError OpcodeTable := do
  let t ← entries.foldlM insert empty
  match Operation.all.find? fun op => (t.modes op).isEmpty with
  | some op => .error (.missingOperation op)
  | none => .ok t

end OpcodeTable

end Breadboard
