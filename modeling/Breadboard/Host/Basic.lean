namespace Breadboard

inductive InputEvent
  | byte (value : UInt8)
  | timeout
  | cancelled
  | closed
deriving DecidableEq, Repr, Inhabited

def InputEvent.describe : InputEvent → String
  | .byte value => "Byte(" ++ toString value.toNat ++ ")"
  | .timeout => "Timeout"
  | .cancelled => "Cancelled"
  | .closed => "Closed"

structure Turn (δ : Type) where
  host : δ
  stops : Bool := false

structure ClockReading where
  uptime : Nat := 0
  /-- The seconds since midnight. -/
  secondOfDay : Nat := 0

class Host (δ : Type) where
  writeByte : δ → UInt8 → Turn δ
  /-- Waits for a byte, for as many milliseconds as are given or without end. The last
  argument tells whether a stop has been requested. -/
  readByte : δ → Option Nat → Bool → InputEvent × Turn δ
  processEvents : δ → Turn δ
  /-- Shuts the host down. It is not used afterwards. -/
  close : δ → δ
  readClock : δ → ClockReading × δ

namespace Host

def writeAll {δ : Type} [Host δ] (host : δ) (bytes : List UInt8) : Turn δ :=
  bytes.foldl (fun t b =>
    let u := writeByte t.host b
    { u with stops := t.stops || u.stops }) { host }

end Host

end Breadboard
