import Breadboard.Isa.Documented
import Breadboard.Machine.Arithmetic
import Breadboard.Machine.Settings
import Breadboard.Machine.Trap

namespace Breadboard

/-- The stack lies in page one. -/
def stackAddress (sp : UInt8) : UInt16 :=
  word sp 1

abbrev Write := UInt16 × UInt8

namespace Memory

def writeAll (m : Memory) (writes : List Write) : Memory :=
  writes.foldl (fun m w => m.set w.1 w.2) m

end Memory

namespace Registers

def setStatus (r : Registers) (p : Status) : Registers :=
  { r with status := p }

def setFlag (r : Registers) (f : Flag) (on : Bool) : Registers :=
  r.setStatus (r.status.set f on)

def loadA (r : Registers) (v : UInt8) : Registers :=
  { r with a := v, status := r.status.setNZ v }

def loadX (r : Registers) (v : UInt8) : Registers :=
  { r with x := v, status := r.status.setNZ v }

def loadY (r : Registers) (v : UInt8) : Registers :=
  { r with y := v, status := r.status.setNZ v }

def jump (r : Registers) (a : UInt16) : Registers :=
  { r with pc := a }

def push (r : Registers) (b : UInt8) : Write × Registers :=
  ((stackAddress r.sp, b), { r with sp := r.sp - 1 })

def pushWord (r : Registers) (w : UInt16) : List Write × Registers :=
  let high := r.push (highByte w)
  let low := high.2.push (lowByte w)
  ([high.1, low.1], low.2)

def pull (r : Registers) (m : Memory) : UInt8 × Registers :=
  let sp := r.sp + 1
  (m.get (stackAddress sp), { r with sp })

def pullWord (r : Registers) (m : Memory) : UInt16 × Registers :=
  let low := r.pull m
  let high := low.2.pull m
  (word low.1 high.1, high.2)

def peekWord (r : Registers) (m : Memory) (offset : UInt8) : UInt16 :=
  word (m.get (stackAddress (r.sp + offset))) (m.get (stackAddress (r.sp + offset + 1)))

end Registers

inductive Operand
  | none
  | accumulator
  | immediate (value : UInt8)
  | address (addr : UInt16)
deriving DecidableEq, Repr, Inhabited

namespace Operand

def value? (o : Operand) (r : Registers) (m : Memory) : Option UInt8 :=
  match o with
  | .none => .none
  | .accumulator => some r.a
  | .immediate v => some v
  | .address a => some (m.get a)

def address? : Operand → Option UInt16
  | .address a => some a
  | _ => .none

end Operand

def samePage (a b : UInt16) : Bool :=
  highByte a = highByte b

def signExtend (b : UInt8) : UInt16 :=
  if isNegative b then word b 0xFF else word b 0

/-- The operand of an instruction at `base`, and whether reaching it leaves the page. The
program counter is already past the instruction. -/
def AddressingMode.resolve (mode : AddressingMode) (base : UInt16) (r : Registers)
    (m : Memory) :
    Operand × Bool :=
  let b := m.get (base + 1)
  let w := m.getWord (base + 1)
  let indexed := fun (base : UInt16) (index : UInt8) =>
    let a := base + index.toUInt16
    (Operand.address a, !samePage base a)
  match mode with
  | .implied => (.none, false)
  | .accumulator => (.accumulator, false)
  | .immediate => (.immediate b, false)
  | .zeroPage => (.address b.toUInt16, false)
  | .zeroPageX => (.address (b + r.x).toUInt16, false)
  | .zeroPageY => (.address (b + r.y).toUInt16, false)
  | .relative => (.address (r.pc + signExtend b), false)
  | .absolute => (.address w, false)
  | .absoluteX => indexed w r.x
  | .absoluteY => indexed w r.y
  | .indirect => (.address (m.getWordInPage w), false)
  | .indexedIndirectX => (.address (m.getZeroPageWord (b + r.x)), false)
  | .indirectIndexedY => indexed (m.getZeroPageWord b) r.y

structure Effect where
  registers : Registers
  writes : List Write := []
  cycles : Nat := 0
deriving DecidableEq, Repr, Inhabited

namespace Operation

def branches (op : Operation) (p : Status) : Bool :=
  match op with
  | .BCC => !p.carry
  | .BCS => p.carry
  | .BNE => !p.zero
  | .BEQ => p.zero
  | .BPL => !p.negative
  | .BMI => p.negative
  | .BVC => !p.overflow
  | .BVS => p.overflow
  | _ => false

def modify (o : Operand) (r : Registers) (m : Memory) (f : UInt8 → UInt8)
    (p : UInt8 → Status) :
    Option Effect := do
  let v ← o.value? r m
  let result := f v
  let r := r.setStatus ((p v).setNZ result)
  match o with
  | .accumulator => some { registers := { r with a := result } }
  | .address a => some { registers := r, writes := [(a, result)] }
  | _ => none

def rotatedLeft (v : UInt8) (carry : Bool) : UInt8 :=
  (v <<< 1) ||| (if carry then 1 else 0)

def rotatedRight (v : UInt8) (carry : Bool) : UInt8 :=
  (v >>> 1) ||| (if carry then 0x80 else 0)

def branch (op : Operation) (s : Settings) (o : Operand) (r : Registers) :
    Option Effect :=
  if op.branches r.status then do
    let target ← o.address?
    let crossing := s.pageCrossPenalty && !samePage target r.pc
    some { registers := r.jump target, cycles := 1 + crossing.toNat }
  else some { registers := r }

/-- What an operation does with its operand, cycles counting only those beyond the
table's. There is no effect if the operation cannot use an operand of that kind. -/
def perform (op : Operation) (s : Settings) (o : Operand) (base : UInt16) (r : Registers)
    (m : Memory) :
    Option Effect :=
  let p := r.status
  let decimal := s.decimalMode && p.decimal
  let done := fun (r : Registers) => some ({ registers := r } : Effect)
  let store := fun (v : UInt8) => do
    let a ← o.address?
    some ({ registers := r, writes := [(a, v)] } : Effect)
  match op with
  | .LDA => do done (r.loadA (← o.value? r m))
  | .LDX => do done (r.loadX (← o.value? r m))
  | .LDY => do done (r.loadY (← o.value? r m))
  | .STA => store r.a
  | .STX => store r.x
  | .STY => store r.y
  | .ADC => do
      let (a, p) := p.add decimal r.a (← o.value? r m)
      done { r with a, status := p }
  | .SBC => do
      let (a, p) := p.sub decimal r.a (← o.value? r m)
      done { r with a, status := p }
  | .AND => do done (r.loadA (r.a &&& (← o.value? r m)))
  | .ORA => do done (r.loadA (r.a ||| (← o.value? r m)))
  | .EOR => do done (r.loadA (r.a ^^^ (← o.value? r m)))
  | .BIT => do
      let v ← o.value? r m
      done (r.setStatus { p with
        zero := r.a &&& v = 0, negative := isNegative v, overflow := v &&& 0x40 ≠ 0 })
  | .CMP => do done (r.setStatus (p.compare r.a (← o.value? r m)))
  | .CPX => do done (r.setStatus (p.compare r.x (← o.value? r m)))
  | .CPY => do done (r.setStatus (p.compare r.y (← o.value? r m)))
  | .ASL => modify o r m (· <<< 1) fun v => p.set .carry (isNegative v)
  | .LSR => modify o r m (· >>> 1) fun v => p.set .carry (v &&& 1 ≠ 0)
  | .ROL => modify o r m (rotatedLeft · p.carry) fun v => p.set .carry (isNegative v)
  | .ROR => modify o r m (rotatedRight · p.carry) fun v => p.set .carry (v &&& 1 ≠ 0)
  | .INC => modify o r m (· + 1) fun _ => p
  | .DEC => modify o r m (· - 1) fun _ => p
  | .INX => done (r.loadX (r.x + 1))
  | .INY => done (r.loadY (r.y + 1))
  | .DEX => done (r.loadX (r.x - 1))
  | .DEY => done (r.loadY (r.y - 1))
  | .BCC | .BCS | .BEQ | .BMI | .BNE | .BPL | .BVC | .BVS => op.branch s o r
  | .JMP => do done (r.jump (← o.address?))
  | .JSR => do
      let target ← o.address?
      let (writes, r) := r.pushWord (r.pc - 1)
      some { registers := r.jump target, writes }
  | .RTS =>
      let (a, r) := r.pullWord m
      done (r.jump (a + 1))
  | .RTI =>
      let (b, r) := r.pull m
      let (a, r) := (r.setStatus (.pulled b)).pullWord m
      done (r.jump a)
  | .BRK =>
      let (writes, r) := r.pushWord (base + 2)
      let (last, r) := r.push p.pushed.toByte
      let vector := m.getWord 0xFFFE
      some {
        registers := (r.setFlag .interrupt true).jump
          (if vector = 0 then Trap.brkHandler.address else vector)
        writes := writes ++ [last] }
  | .PHA =>
      let (w, r) := r.push r.a
      some { registers := r, writes := [w] }
  | .PHP =>
      let (w, r) := r.push p.pushed.toByte
      some { registers := r, writes := [w] }
  | .PLA =>
      let (b, r) := r.pull m
      done (r.loadA b)
  | .PLP =>
      let (b, r) := r.pull m
      done (r.setStatus (.pulled b))
  | .CLC => done (r.setFlag .carry false)
  | .CLD => done (r.setFlag .decimal false)
  | .CLI => done (r.setFlag .interrupt false)
  | .CLV => done (r.setFlag .overflow false)
  | .SEC => done (r.setFlag .carry true)
  | .SED => done (r.setFlag .decimal true)
  | .SEI => done (r.setFlag .interrupt true)
  | .TAX => done (r.loadX r.a)
  | .TAY => done (r.loadY r.a)
  | .TSX => done (r.loadX r.sp)
  | .TXA => done (r.loadA r.x)
  | .TYA => done (r.loadA r.y)
  | .TXS => done { r with sp := r.x }
  | .NOP => done r

end Operation

namespace OpcodeEntry

def effect? (e : OpcodeEntry) (s : Settings) (r : Registers) (m : Memory) :
    Option Effect := do
  let next := r.jump (r.pc + e.size.toUInt16)
  let (operand, crossed) := e.mode.resolve r.pc next m
  let effect ← e.op.perform s operand r.pc next m
  let crossing := crossed && s.pageCrossPenalty
  some { effect with cycles := e.cycles.toNat + crossing.toNat + effect.cycles }

end OpcodeEntry

end Breadboard
