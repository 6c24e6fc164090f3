import Breadboard.Text.Quoted

namespace Breadboard

/-- Sources are numbered in the order in which they are registered. -/
abbrev FileId := Nat

structure Location where
  file : FileId
  name : String
  line : Nat
deriving DecidableEq, Repr, Inhabited

def Location.describe (l : Location) : String :=
  Text.quoted l.name ++ ", line #" ++ toString (l.line + 1)

end Breadboard
