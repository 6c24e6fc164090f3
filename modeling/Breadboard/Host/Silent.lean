import Breadboard.Host.Basic

namespace Breadboard

structure Silent where
deriving DecidableEq, Repr, Inhabited

instance : Host Silent where
  writeByte host _ := { host }
  readByte host timeout stopping :=
    let event :=
      if stopping then .cancelled
      else if timeout.isSome then .timeout
      else .closed
    (event, { host })
  processEvents host := { host }
  close host := host
  readClock host := ({}, host)

end Breadboard
