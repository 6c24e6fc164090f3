namespace Breadboard.Text

def lowerHex (n : Nat) : String :=
  String.ofList (Nat.toDigits 16 n)

/-- The digits of a number in base sixteen, with upper-case letters, filled with zeros on
the left up to `width`. -/
def upperHex (width n : Nat) : String :=
  let digits := (Nat.toDigits 16 n).map Char.toUpper
  String.ofList (List.replicate (width - digits.length) '0' ++ digits)

def address (a : UInt16) : String :=
  "$" ++ upperHex 4 a.toNat

def byte (b : UInt8) : String :=
  "$" ++ upperHex 2 b.toNat

end Breadboard.Text
