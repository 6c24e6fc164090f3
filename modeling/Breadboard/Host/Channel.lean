import Breadboard.Host.Basic
import Breadboard.Host.Queue

/-!
A host whose input comes from a reader and whose output goes to a writer, each of which
works on its own behind a queue. The queue of the input has room for one byte, so the
reader runs ahead by one more at most. The queue of the output has no limit.
-/

namespace Breadboard

structure Channel where
  /-- What the reader has still to give before it stops. -/
  script : List UInt8 := []
  /-- A byte that the reader holds until the queue has room. -/
  held : Option UInt8 := none
  incoming : Option UInt8 := none
  readerStopped : Bool := false
  outgoing : Queue UInt8 := {}
  /-- How many calls are left up to the one at which the writer stops, if it ever does. -/
  writerLimit : Option Nat := none
  written : Queue UInt8 := {}
  isOpen : Bool := true
deriving DecidableEq, Repr, Inhabited

namespace Channel

def readerStep (c : Channel) : Channel :=
  match c.held with
  | some b => if c.incoming.isNone then { c with held := none, incoming := some b } else c
  | none =>
      match c.script with
      | b :: rest => { c with held := some b, script := rest }
      | [] => { c with readerStopped := true }

def writerStep (c : Channel) : Channel :=
  if c.writerLimit = some 0 then c
  else
    match c.outgoing.pop? with
    | none => c
    | some (b, outgoing) =>
        { c with
          outgoing, written := c.written.push b,
          writerLimit := c.writerLimit.map (· - 1) }

/-- What a read finds in the queue, if it need not wait. -/
def receive? (c : Channel) : Option (InputEvent × Channel) :=
  match c.incoming with
  | some b => some (.byte b, { c with incoming := none })
  | none => if c.readerStopped then some (.closed, c) else none

def send (c : Channel) (b : UInt8) : Channel :=
  if c.isOpen then { c with outgoing := c.outgoing.push b } else c

def drain (c : Channel) : Channel :=
  c.outgoing.toList.foldl (fun c _ => c.writerStep) c

def shut (c : Channel) : Channel :=
  { c.drain with isOpen := false }

def takeWritten (c : Channel) : List UInt8 × Channel :=
  (c.written.toList, { c with written := {} })

end Channel

/-- While a read waits the reader works, and two of its steps are enough to fill the
queue or to end the input. -/
instance : Host Channel where
  writeByte host b := { host := host.send b }
  readByte host _ stopping :=
    if stopping then (.cancelled, { host })
    else
      let host := host.readerStep.readerStep
      match host.receive? with
      | some (event, host) => (event, { host })
      | none => (.timeout, { host })
  processEvents host := { host }
  close host := host.shut
  readClock host := ({}, host)

end Breadboard
