import Breadboard.Source.Location
import Std.Data.ExtTreeMap

namespace Breadboard

/-- The lines of one file at which scopes open, in increasing order, with
the names of the scopes. -/
abbrev Openings := List (Nat × String)

namespace Openings

def insert (line : Nat) (name : String) : Openings → Openings
  | [] => [(line, name)]
  | (l, n) :: rest =>
      if line < l then (line, name) :: (l, n) :: rest
      else if line = l then (line, name) :: rest
      else (l, n) :: insert line name rest

def at? (line : Nat) : Openings → Option String
  | [] => none
  | (l, n) :: rest => if l ≤ line then some ((at? line rest).getD n) else none

end Openings

structure Scopes where
  byFile : Std.ExtTreeMap FileId Openings := ∅

namespace Scopes

def openings (s : Scopes) (file : FileId) : Openings :=
  (s.byFile[file]?).getD []

def enter (s : Scopes) (file : FileId) (line : Nat) (name : String) : Scopes :=
  ⟨s.byFile.insert file ((s.openings file).insert line name)⟩

def at? (s : Scopes) (file : FileId) (line : Nat) : Option String :=
  (s.openings file).at? line

end Scopes

end Breadboard
