import Breadboard.Disk.Path
import Breadboard.Text.Utf8

namespace Breadboard

inductive DiskNode
  | file (content : List UInt8)
  | directory
deriving DecidableEq, Repr, Inhabited

def DiskNode.extent : DiskNode → Nat
  | .file content => content.length
  | .directory => 0

inductive DiskError
  | notFound
  | notDirectory
  | isDirectory
  | nameTooLong
  | nameHasNul
  | notUtf8
deriving DecidableEq, Repr, Inhabited

def DiskError.message : DiskError → String
  | .notFound => "No such file or directory (os error 2)"
  | .notDirectory => "Not a directory (os error 20)"
  | .isDirectory => "Is a directory (os error 21)"
  | .nameTooLong => "File name too long (os error 36)"
  | .nameHasNul => "file name contained an unexpected NUL byte"
  | .notUtf8 => "stream did not contain valid UTF-8"

/-- The nodes of a tree, each under the names that lead to it from the root. -/
structure Disk where
  nodes : List (List String × DiskNode) := []
  workingDirectory : List String := []
  named : ∀ name ∈ workingDirectory, Path.isName name := by decide
deriving DecidableEq, Repr

namespace Disk

def empty : Disk :=
  {}

instance : Inhabited Disk :=
  ⟨empty⟩

def node? (d : Disk) (place : List String) : Option DiskNode :=
  if place.isPrefixOf d.workingDirectory then some .directory
  else d.nodes.lookup place

/-- Goes on from a place by the pieces of a path. Every piece but the last must lead to a
directory, and an empty piece or a dot stays in one. -/
def walk (d : Disk) (place : List String) : List String → Except DiskError (List String)
  | [] => .ok place
  | piece :: rest =>
      match d.node? place with
      | none => .error .notFound
      | some (.file _) => .error .notDirectory
      | some .directory =>
          if Path.isEmptyPiece piece then d.walk place rest
          else if piece == ".." then d.walk place.dropLast rest
          else if 255 < piece.utf8ByteSize then .error .nameTooLong
          else
            let place := place ++ [piece]
            if (d.node? place).isSome then d.walk place rest else .error .notFound

def startOf (d : Disk) (p : Path) : List String :=
  if p.isAbsolute then [] else d.workingDirectory

def piecesToWalk (p : Path) : Except DiskError (List String) :=
  if p.text.toList.contains '\x00' then .error .nameHasNul
  else if 4096 ≤ p.text.utf8ByteSize then .error .nameTooLong
  else if p.text == "" then .error .notFound
  else .ok (Path.pieces p.text)

def resolve (d : Disk) (p : Path) : Except DiskError (List String) := do
  d.walk (d.startOf p) (← piecesToWalk p)

def absolutePath (place : List String) : Path :=
  ⟨"/" ++ "/".intercalate place⟩

/-- The absolute path that a path leads to, or the path as written if it leads nowhere. -/
def canonical (d : Disk) (p : Path) : Path :=
  match d.resolve p with
  | .ok place => absolutePath place
  | .error _ => p

def isFile (d : Disk) (p : Path) : Bool :=
  match d.resolve p with
  | .ok place =>
      match d.node? place with
      | some (.file _) => true
      | _ => false
  | .error _ => false

def open? (d : Disk) (p : Path) : Except DiskError (List String) :=
  d.resolve p

def contentAt (d : Disk) (place : List String) : Except DiskError (List UInt8) :=
  match d.node? place with
  | some (.file content) => .ok content
  | some .directory => .error .isDirectory
  | none => .error .notFound

def readText (d : Disk) (p : Path) : Except DiskError String := do
  let content ← d.contentAt (← d.open? p)
  match Text.decodeUtf8? content with
  | some text => .ok text
  | none => .error .notUtf8

/-- The place for a new node: the last name of a path, in a directory that is there. A
path that ends in a slash, a dot or two dots does not end in a name. -/
def placeForNew (d : Disk) (p : Path) : Except DiskError (List String) := do
  let pieces ← piecesToWalk p
  let name := pieces.getLast?.getD ""
  let parent ← d.walk (d.startOf p) (pieces.dropLast ++ ["."])
  if Path.isEmptyPiece name || name == ".." then .error .isDirectory
  else if 255 < name.utf8ByteSize then .error .nameTooLong
  else .ok (parent ++ [name])

def setNode (d : Disk) (place : List String) (node : DiskNode) : Disk :=
  { d with nodes := d.nodes.filter (·.1 != place) ++ [(place, node)] }

def makeDirectory (d : Disk) (p : Path) : Disk :=
  match d.placeForNew p.withoutEndSlashes with
  | .ok place => if (d.node? place).isSome then d else d.setNode place .directory
  | .error _ => d

def makeDirectories (d : Disk) (p : Path) : Disk :=
  match piecesToWalk p with
  | .ok _ => (p.ancestors ++ [p]).foldl makeDirectory d
  | .error _ => d

def writeFile (d : Disk) (p : Path) (content : List UInt8) : Disk :=
  match d.placeForNew p with
  | .ok place =>
      if d.node? place == some .directory then d else d.setNode place (.file content)
  | .error _ => d

/-- Puts a node where a path leads, with the directories before it. What is there stays
there, except that a file is written anew. -/
def put (d : Disk) (p : Path) : DiskNode → Disk
  | .directory => d.makeDirectories p
  | .file content => (p.ancestors.getLast?.elim d d.makeDirectories).writeFile p content

def extent (d : Disk) : Nat :=
  d.nodes.foldr (fun n total => n.2.extent + total) 0

end Disk

end Breadboard
