import Breadboard.Text.Quoted

namespace Breadboard

inductive AddressingMode
  | implied
  | accumulator
  | immediate
  | zeroPage
  | zeroPageX
  | zeroPageY
  | relative
  | absolute
  | absoluteX
  | absoluteY
  | indirect
  | indexedIndirectX
  | indirectIndexedY
deriving DecidableEq, Repr, Inhabited

namespace AddressingMode

def all : List AddressingMode :=
  [.implied, .accumulator, .immediate, .zeroPage, .zeroPageX, .zeroPageY,
    .relative, .absolute, .absoluteX, .absoluteY, .indirect, .indexedIndirectX,
    .indirectIndexedY]

theorem mem_all (mode : AddressingMode) : mode ∈ all := by
  cases mode <;> decide

def name : AddressingMode → String
  | .implied => "Implied"
  | .accumulator => "Accumulator"
  | .immediate => "Immediate"
  | .zeroPage => "ZeroPage"
  | .zeroPageX => "ZeroPageX"
  | .zeroPageY => "ZeroPageY"
  | .relative => "Relative"
  | .absolute => "Absolute"
  | .absoluteX => "AbsoluteX"
  | .absoluteY => "AbsoluteY"
  | .indirect => "Indirect"
  | .indexedIndirectX => "IndexedIndirectX"
  | .indirectIndexedY => "IndirectIndexedY"

def describe : AddressingMode → String
  | .implied => "implied"
  | .accumulator => "accumulator"
  | .immediate => "immediate"
  | .zeroPage => "zero page"
  | .zeroPageX => "zero page,X"
  | .zeroPageY => "zero page,Y"
  | .relative => "relative"
  | .absolute => "absolute"
  | .absoluteX => "absolute,X"
  | .absoluteY => "absolute,Y"
  | .indirect => "indirect"
  | .indexedIndirectX => "(zero page,X)"
  | .indirectIndexedY => "(zero page),Y"

def size : AddressingMode → UInt8
  | .implied | .accumulator => 1
  | .absolute | .absoluteX | .absoluteY | .indirect => 3
  | _ => 2

/-- The mode that reaches page zero in two bytes where this one takes three. -/
def zeroPageForm? : AddressingMode → Option AddressingMode
  | .absolute => some .zeroPage
  | .absoluteX => some .zeroPageX
  | .absoluteY => some .zeroPageY
  | _ => none

def isIndirect : AddressingMode → Bool
  | .indirect | .indexedIndirectX | .indirectIndexedY => true
  | _ => false

def index : AddressingMode → Fin 13
  | .implied => 0
  | .accumulator => 1
  | .immediate => 2
  | .zeroPage => 3
  | .zeroPageX => 4
  | .zeroPageY => 5
  | .relative => 6
  | .absolute => 7
  | .absoluteX => 8
  | .absoluteY => 9
  | .indirect => 10
  | .indexedIndirectX => 11
  | .indirectIndexedY => 12

private theorem index_injective {m n : AddressingMode} (h : m.index = n.index) :
    m = n := by
  revert h
  cases m <;> cases n <;> decide

end AddressingMode

/-- A set of addressing modes, one bit for each. -/
structure ModeSet where
  bits : BitVec 13
deriving DecidableEq, Repr, Inhabited

namespace ModeSet

def empty : ModeSet := ⟨0⟩

def insert (s : ModeSet) (mode : AddressingMode) : ModeSet :=
  ⟨s.bits ||| BitVec.twoPow 13 mode.index⟩

def contains (s : ModeSet) (mode : AddressingMode) : Bool :=
  s.bits.getLsbD mode.index

def isEmpty (s : ModeSet) : Bool :=
  s.bits = 0

def toList (s : ModeSet) : List AddressingMode :=
  AddressingMode.all.filter s.contains

def hasIndirect (s : ModeSet) : Bool :=
  s.toList.any AddressingMode.isIndirect

def describe (s : ModeSet) : String :=
  Text.braced (s.toList.map AddressingMode.name)

@[simp] theorem contains_empty (m : AddressingMode) : empty.contains m = false := by
  simp [contains, empty]

@[simp] theorem contains_insert (s : ModeSet) (m n : AddressingMode) :
    (s.insert m).contains n = (s.contains n || decide (m = n)) := by
  have hlt : m.index.val < 13 := m.index.isLt
  simp only [contains, insert, BitVec.getLsbD_or, BitVec.getLsbD_twoPow, hlt, decide_true,
    Bool.true_and]
  congr 1
  simp only [decide_eq_decide]
  exact ⟨fun h => AddressingMode.index_injective (Fin.ext h), fun h => h ▸ rfl⟩

@[simp] theorem mem_toList (s : ModeSet) (m : AddressingMode) :
    m ∈ s.toList ↔ s.contains m = true := by
  simp [toList, AddressingMode.mem_all]

end ModeSet

end Breadboard
