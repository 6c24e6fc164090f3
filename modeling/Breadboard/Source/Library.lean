import Breadboard.Disk
import Breadboard.Source.Location
import Breadboard.Text.Lines

namespace Breadboard

structure Source where
  name : String
  /-- Where the source is on the disk, unless it was given as text. -/
  path? : Option Path
  /-- The lines, once they have been read. -/
  lines? : Option (List String)
deriving DecidableEq, Repr, Inhabited

structure Frame where
  file : FileId
  next : Nat
  rest : List String
deriving DecidableEq, Repr, Inhabited

structure OpenError where
  path : Path
  reason : DiskError
deriving DecidableEq, Repr, Inhabited

structure Library where
  sources : List Source := []
  stack : List Frame := []
  /-- The files opened since reading started. -/
  opened : List Path := []
  searchDirs : List Path := []
deriving DecidableEq, Repr, Inhabited

namespace Source

def load (s : Source) (d : Disk) : Except DiskError (List String) :=
  match s.lines?, s.path? with
  | some lines, _ => .ok lines
  | none, some path => (d.readText path).map Text.splitLines
  | none, none => .error .notFound

def attemptedPath (s : Source) : Path :=
  s.path?.getD ⟨s.name⟩

def extent (s : Source) (d : Disk) : Nat :=
  match s.lines? with
  | some lines => lines.length
  | none => d.extent

end Source

namespace Library

def push (lib : Library) (s : Source) : FileId × Library :=
  (lib.sources.length, { lib with sources := lib.sources ++ [s] })

def addText (lib : Library) (name text : String) : FileId × Library :=
  lib.push ⟨name, none, some (Text.splitLines text)⟩

def find? (lib : Library) (path : Path) : Option FileId :=
  lib.sources.findIdx? fun s => s.path?.any path.same

def register (lib : Library) (path : Path) : FileId × Library :=
  match lib.find? path with
  | some id => (id, lib)
  | none => lib.push ⟨path.text, some path, none⟩

/-- Registers a file, which is not read before it is opened. The same
file is registered once. -/
def addFile (lib : Library) (d : Disk) (path : Path) : FileId × Library :=
  lib.register (d.canonical path)

def source? (lib : Library) (file : FileId) : Option Source :=
  lib.sources[file]?

def name? (lib : Library) (file : FileId) : Option String :=
  (lib.source? file).map Source.name

def nameOf (lib : Library) (file : FileId) : String :=
  (lib.name? file).getD ""

def path? (lib : Library) (file : FileId) : Option Path :=
  (lib.source? file).bind Source.path?

def line? (lib : Library) (file : FileId) (line : Nat) : Option String :=
  (lib.source? file).bind fun s => s.lines?.bind fun lines => lines[line]?

def lineCount? (lib : Library) (file : FileId) : Option Nat :=
  (lib.source? file).bind fun s => s.lines?.map List.length

def names (lib : Library) : List String :=
  lib.sources.map Source.name

def reset (lib : Library) : Library :=
  { lib with stack := [], opened := [] }

def enter (lib : Library) (file : FileId) (s : Source) (lines : List String) : Library :=
  { lib with
    sources := lib.sources.set file { s with lines? := some lines }
    opened := s.path?.toList ++ lib.opened
    stack := ⟨file, 0, lines⟩ :: lib.stack }

def open? (lib : Library) (d : Disk) (file : FileId) : Except OpenError Library :=
  match lib.source? file with
  | none => .error ⟨⟨""⟩, .notFound⟩
  | some s =>
      match s.load d with
      | .error reason => .error ⟨s.attemptedPath, reason⟩
      | .ok lines => .ok (lib.enter file s lines)

def start (lib : Library) (d : Disk) (root : FileId) : Except OpenError Unit × Library :=
  match lib.reset.open? d root with
  | .ok lib => (.ok (), lib)
  | .error e => (.error e, lib.reset)

def current? (lib : Library) : Option FileId :=
  lib.stack.head?.map Frame.file

def nextOf : List Frame → Option (FileId × Nat × String) × List Frame
  | [] => (none, [])
  | ⟨_, _, []⟩ :: below => nextOf below
  | ⟨file, n, text :: rest⟩ :: below =>
    (some (file, n, text), ⟨file, n + 1, rest⟩ :: below)

def next (lib : Library) : Option (Location × String) × Library :=
  let (line, stack) := nextOf lib.stack
  let lib := { lib with stack }
  (line.map fun (file, n, text) => (⟨file, lib.nameOf file, n⟩, text), lib)

/-- Where an included name leads: into the directory of the current file or one of the
directories to search, whichever first has such a file, or else where it says. -/
def resolveInclude (lib : Library) (d : Disk) (name : String) : Path :=
  let here := ((lib.current?.bind lib.path?).bind Path.parent?).toList
  let candidates := (here ++ lib.searchDirs).map (·.join ⟨name⟩)
  (candidates.find? d.isFile).getD ⟨name⟩

/-- Includes a file, unless it was opened before. Tells whether it is now being read. -/
def includeFile (lib : Library) (d : Disk) (name : String) :
    Except OpenError Bool × Library :=
  let path := d.canonical (lib.resolveInclude d name)
  if lib.opened.any path.same then (.ok false, lib)
  else
    let (file, registered) :=
      match lib.find? path with
      | some id => (id, lib)
      | none => lib.addFile d path
    match registered.open? d file with
    | .ok lib => (.ok true, lib)
    | .error e => (.error e, registered)

/-- A bound on the number of lines that can be read before reading starts anew: those of
every source registered and of every file. -/
def extent (lib : Library) (d : Disk) : Nat :=
  lib.sources.foldr (fun s total => s.extent d + total) d.extent

end Library

end Breadboard
