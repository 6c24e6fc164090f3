import Breadboard.Host.Basic
import Breadboard.Host.Queue

namespace Breadboard

structure Scripted where
  script : List InputEvent := []
  output : Queue UInt8 := {}
deriving DecidableEq, Repr, Inhabited

namespace Scripted

def takeOutput (s : Scripted) : List UInt8 × Scripted :=
  (s.output.toList, { s with output := {} })

end Scripted

/-- The input is closed once the script is at its end. -/
instance : Host Scripted where
  writeByte host b := { host := { host with output := host.output.push b } }
  readByte host _ _ :=
    match host.script with
    | event :: rest => (event, { host := { host with script := rest } })
    | [] => (.closed, { host })
  processEvents host := { host }
  close host := host
  readClock host := ({}, host)

end Breadboard
