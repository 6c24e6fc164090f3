import Breadboard.Assembly

namespace Breadboard.Assembly

structure PassResult where
  pass : Pass
  library : Library
  error? : Option Error

def readLines (d : Disk) : Nat → Library → Pass → PassResult
  | 0, lib, p => ⟨p, lib, none⟩
  | n + 1, lib, p =>
      match lib.next with
      | (none, lib) => ⟨p, lib, none⟩
      | (some (l, text), lib) =>
          match assembleLine l text p with
          | .error kind p => ⟨p, lib, some ⟨kind, some l⟩⟩
          | .ok none p => readLines d n lib p
          | .ok (some name) p =>
              match lib.includeFile d name with
              | (.error e, lib) => ⟨p, lib, some ⟨.ofOpen e, some l⟩⟩
              | (.ok _, lib) => readLines d n lib p

/-- Makes a pass over a program. No line is read twice, so the extent of the
library bounds their number. -/
def runPass (d : Disk) (root : FileId) (lib : Library) (p : Pass) : PassResult :=
  match lib.start d root with
  | (.error e, lib) => ⟨p, lib, some ⟨.ofOpen e, none⟩⟩
  | (.ok _, lib) => readLines d (lib.extent d + 1) lib p

end Breadboard.Assembly

namespace Breadboard

structure Assembler where
  flags : Assembly.Flags := {}
  library : Library := {}

namespace Assembler

open Assembly

def addText (a : Assembler) (name text : String) : FileId × Assembler :=
  let (file, library) := a.library.addText name text
  (file, { a with library })

def addFile (a : Assembler) (d : Disk) (path : Path) : FileId × Assembler :=
  let (file, library) := a.library.addFile d path
  (file, { a with library })

def prepared (a : Assembler) : Library :=
  { a.library with searchDirs := a.flags.includeDirs }

def firstPass (a : Assembler) (d : Disk) (root : FileId) : PassResult :=
  runPass d root a.prepared (.initial a.flags)

def secondPass (d : Disk) (root : FileId) (first : PassResult) : PassResult :=
  runPass d root first.library first.pass.next

/-- Assembles a program into memory. Only the second pass writes, and what it placed
before it failed is written too. -/
def assemble (a : Assembler) (d : Disk) (root : FileId) (m : Memory) :
    Except Error Assembly × Assembler × Memory :=
  let first := a.firstPass d root
  match first.error? with
  | some e => (.error e, { a with library := first.library.reset }, m)
  | none =>
      let second := secondPass d root first
      let result :=
        match second.error? with
        | some e => .error e
        | none => .ok (Assembly.ofPass second.pass)
      (result, { a with library := second.library.reset }, second.pass.listing.writeTo m)

end Assembler

end Breadboard
