import Breadboard.Host.Basic
import Breadboard.Host.Queue

namespace Breadboard

structure Buffered where
  input : List UInt8 := []
  output : Queue UInt8 := {}
deriving DecidableEq, Repr, Inhabited

namespace Buffered

def feed (b : Buffered) (bytes : List UInt8) : Buffered :=
  { b with input := b.input ++ bytes }

def takeOutput (b : Buffered) : List UInt8 × Buffered :=
  (b.output.toList, { b with output := {} })

end Buffered

/-- Nothing fills the queue while a read waits, so a read of an empty queue ends as the
time runs out, or finds the input closed if there is no limit. -/
instance : Host Buffered where
  writeByte host b := { host := { host with output := host.output.push b } }
  readByte host timeout stopping :=
    if stopping then (.cancelled, { host })
    else
      match host.input with
      | b :: rest => (.byte b, { host := { host with input := rest } })
      | [] => (if timeout.isSome then .timeout else .closed, { host })
  processEvents host := { host }
  close host := host
  readClock host := ({}, host)

end Breadboard
