import Breadboard.Text.Quoted

namespace Breadboard

inductive Flag
  | carry
  | zero
  | interrupt
  | decimal
  | brk
  | unused
  | overflow
  | negative
deriving DecidableEq, Repr, Inhabited

def Flag.bit : Flag → Nat
  | .carry => 0
  | .zero => 1
  | .interrupt => 2
  | .decimal => 3
  | .brk => 4
  | .unused => 5
  | .overflow => 6
  | .negative => 7

/-- The processor status. The break flag means something only in copies on the stack, and
the unused flag is set in these. -/
structure Status where
  negative : Bool
  overflow : Bool
  unused : Bool
  brk : Bool
  decimal : Bool
  interrupt : Bool
  zero : Bool
  carry : Bool
deriving DecidableEq, Repr, Inhabited

namespace Status

def reset : Status :=
  ⟨false, false, true, false, false, true, false, false⟩

def get (p : Status) : Flag → Bool
  | .carry => p.carry
  | .zero => p.zero
  | .interrupt => p.interrupt
  | .decimal => p.decimal
  | .brk => p.brk
  | .unused => p.unused
  | .overflow => p.overflow
  | .negative => p.negative

def set (p : Status) (f : Flag) (on : Bool) : Status :=
  match f with
  | .carry => { p with carry := on }
  | .zero => { p with zero := on }
  | .interrupt => { p with interrupt := on }
  | .decimal => { p with decimal := on }
  | .brk => { p with brk := on }
  | .unused => { p with unused := on }
  | .overflow => { p with overflow := on }
  | .negative => { p with negative := on }

@[simp] theorem get_set (p : Status) (f g : Flag) (on : Bool) :
    (p.set f on).get g = if f = g then on else p.get g := by
  cases f <;> cases g <;> rfl

def setNZ (p : Status) (value : UInt8) : Status :=
  { p with negative := 0x80 ≤ value, zero := value = 0 }

def bitValue (on : Bool) (bit : Nat) : UInt8 :=
  if on then UInt8.ofNat (1 <<< bit) else 0

def toByte (p : Status) : UInt8 :=
  bitValue p.negative 7 ||| bitValue p.overflow 6 ||| bitValue p.unused 5 |||
    bitValue p.brk 4 |||
    bitValue p.decimal 3 ||| bitValue p.interrupt 2 ||| bitValue p.zero 1 |||
      bitValue p.carry 0

def ofByte (b : UInt8) : Status :=
  let bit := fun i => b.toNat.testBit i
  ⟨bit 7, bit 6, bit 5, bit 4, bit 3, bit 2, bit 1, bit 0⟩

@[simp] theorem ofByte_toByte (p : Status) : ofByte p.toByte = p := by
  rcases p with ⟨n, v, u, b, d, i, z, c⟩
  revert n v u b d i z c
  decide

private theorem toByte_ofByte_of_lt (n : Nat) (h : n < 256) :
    (ofByte (UInt8.ofNat n)).toByte = UInt8.ofNat n := by
  revert n
  decide +kernel

@[simp] theorem toByte_ofByte (b : UInt8) : (ofByte b).toByte = b := by
  simpa using toByte_ofByte_of_lt b.toNat b.toNat_lt

def pushed (p : Status) : Status :=
  { p with brk := true, unused := true }

def pulled (b : UInt8) : Status :=
  { ofByte b with brk := false, unused := true }

def letters (p : Status) : String :=
  let letter := fun (on : Bool) (c : Char) => if on then c else c.toLower
  String.ofList [letter p.negative 'N', letter p.overflow 'V', '-', letter p.brk 'B',
    letter p.decimal 'D', letter p.interrupt 'I', letter p.zero 'Z', letter p.carry 'C']

def describe (p : Status) : String :=
  "Status(" ++ p.letters ++ ")"

end Status

structure Registers where
  a : UInt8
  x : UInt8
  y : UInt8
  sp : UInt8
  pc : UInt16
  status : Status
deriving DecidableEq, Repr, Inhabited

namespace Registers

def initial : Registers :=
  ⟨0, 0, 0, 0xFF, 0, .reset⟩

def describe (r : Registers) : String :=
  Text.record "Registers"
    [("a", toString r.a.toNat), ("x", toString r.x.toNat), ("y", toString r.y.toNat),
      ("sp", toString r.sp.toNat), ("pc", toString r.pc.toNat),
      ("status", r.status.describe)]

end Registers

end Breadboard
