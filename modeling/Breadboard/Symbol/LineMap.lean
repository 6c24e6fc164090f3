import Breadboard.Source.Location
import Breadboard.Text.Hex
import Std.Data.ExtTreeMap

namespace Breadboard

/-- The first address of each instruction, with the line of the instruction that
was placed there last. -/
abbrev LineMap := Std.ExtTreeMap UInt16 Location

namespace LineMap

def earlier (a b : Nat × UInt16) : Nat × UInt16 :=
  if b.1 < a.1 ∨ b.1 = a.1 ∧ b.2 < a.2 then b else a

def earliest? : List (Nat × UInt16) → Option (Nat × UInt16)
  | [] => none
  | p :: rest => some (rest.foldl earlier p)

def placesIn (m : LineMap) (file : FileId) : List (Nat × UInt16) :=
  (m.toList.filter (·.2.file = file)).map fun e => (e.2.line, e.1)

/-- The address of the first instruction of a line. If it may be inexact, a line without
instructions gives way to the next one of the file that has some. -/
def find? (m : LineMap) (file : FileId) (line : Nat) (exact : Bool) : Option UInt16 :=
  let place? :=
    if exact then (m.placesIn file).find? fun p => p.1 = line
    else earliest? ((m.placesIn file).filter fun p => line ≤ p.1)
  place?.map Prod.snd

def describe (m : LineMap) : String :=
  Text.braced (m.toList.map fun e => Text.address e.1 ++ ": " ++ toString e.2.line)

end LineMap

end Breadboard
