import Breadboard.Machine.Registers

namespace Breadboard

def isNegative (b : UInt8) : Bool :=
  0x80 ≤ b

namespace Status

def add (p : Status) (decimal : Bool) (a m : UInt8) : UInt8 × Status :=
  let sum := a.toNat + m.toNat + p.carry.toNat
  let binary := UInt8.ofNat sum
  let q := { p.setNZ binary with
    overflow := isNegative a == isNegative m && isNegative a != isNegative binary }
  if decimal then
    let low := a.toNat % 16 + m.toNat % 16 + p.carry.toNat
    let low := if 9 < low then low + 6 else low
    let high := a.toNat / 16 + m.toNat / 16 + (if 15 < low then 1 else 0)
    let high := if 9 < high then high + 6 else high
    (UInt8.ofNat (16 * high + low % 16), { q with carry := decide (15 < high) })
  else (binary, { q with carry := decide (255 < sum) })

def sub (p : Status) (decimal : Bool) (a m : UInt8) : UInt8 × Status :=
  let borrow : Int := (!p.carry).toNat
  let difference : Int := a.toNat - m.toNat - borrow
  let binary := UInt8.ofInt difference
  let q := { p.setNZ binary with
    overflow := isNegative a != isNegative m && isNegative a != isNegative binary
    carry := decide (0 ≤ difference) }
  if decimal then
    let low : Int := a.toNat % 16 - m.toNat % 16 - borrow
    let high : Int := a.toNat / 16 - m.toNat / 16 - (if low < 0 then 1 else 0)
    let low := if low < 0 then low - 6 else low
    let high := if high < 0 then high - 6 else high
    (UInt8.ofInt (16 * high + low % 16), q)
  else (binary, q)

/-- The carry tells that the register is not below `m`. -/
def compare (p : Status) (register m : UInt8) : Status :=
  { p.setNZ (register - m) with carry := decide (m ≤ register) }

end Status

end Breadboard
