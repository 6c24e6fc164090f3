import Breadboard.Disk

namespace Breadboard

structure Reader where
  place : List String
  offset : Nat := 0
  buffer : List UInt8 := []
deriving DecidableEq, Repr, Inhabited

namespace Reader

def blockSize : Nat := 8192

def next (r : Reader) (d : Disk) : Except DiskError (Option UInt8 × Reader) :=
  match r.buffer with
  | b :: rest => .ok (some b, { r with buffer := rest })
  | [] => do
      let content ← d.contentAt r.place
      match (content.drop r.offset).take blockSize with
      | [] => .ok (none, r)
      | b :: rest =>
        .ok (some b, { r with offset := r.offset + (rest.length + 1), buffer := rest })

def rewind (r : Reader) : Reader :=
  { place := r.place }

end Reader

end Breadboard
