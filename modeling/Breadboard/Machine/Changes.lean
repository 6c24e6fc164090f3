import Breadboard.Machine.AddressSet
import Breadboard.Machine.Stop

namespace Breadboard

structure Changes where
  written : AddressSet
  registers : Bool
  /-- Changes were not recorded, and anything may be new. -/
  untracked : Bool
  lastStop : Option StopReason

namespace Changes

def none : Changes :=
  ⟨∅, false, false, .none⟩

def clear (c : Changes) : Changes :=
  { none with lastStop := c.lastStop }

def recordWrite (c : Changes) (a : UInt16) : Changes :=
  { c with written := c.written.insert a }

def recordRegisters (c : Changes) : Changes :=
  { c with registers := true }

def invalidate (c : Changes) : Changes :=
  { c with untracked := true }

def setLastStop (c : Changes) (reason : StopReason) : Changes :=
  { c with lastStop := some reason }

def takeWritten (c : Changes) : List UInt16 × Changes :=
  (c.written.toList, { c with written := ∅ })

def takeRegisters (c : Changes) : Bool × Changes :=
  (c.registers, { c with registers := false })

def takeUntracked (c : Changes) : Bool × Changes :=
  (c.untracked, { c with untracked := false })

def describe (c : Changes) : String :=
  Text.record "ChangeObserver"
    [("mem", Text.braced (c.written.toList.map fun a => toString a.toNat)),
      ("regs_changed", Text.boolean c.registers),
      ("invalidated", Text.boolean c.untracked),
      ("last_stop", Text.optional (c.lastStop.map StopReason.describe))]

end Changes

end Breadboard
