import Breadboard.Host.Basic

namespace Breadboard

structure Probe (δ : Type) where
  device : δ
  isOn : Bool := true
  turns : Nat := 0
  limit : Nat
  reads : List (Option Nat × InputEvent) := []

namespace Probe

def wrap {δ : Type} (p : Probe δ) (t : Turn δ) : Turn (Probe δ) :=
  { host := { p with device := t.host }, stops := t.stops }

def restart {δ : Type} (p : Probe δ) (limit : Nat) : Probe δ :=
  { p with turns := 0, limit, reads := [] }

end Probe

instance {δ : Type} [Host δ] : Host (Probe δ) where
  writeByte p b := p.wrap (Host.writeByte p.device b)
  readByte p timeout stopping :=
    let (event, t) := Host.readByte p.device timeout stopping
    let p := if p.isOn then { p with reads := (timeout, event) :: p.reads } else p
    (event, p.wrap t)
  processEvents p :=
    let t := Host.processEvents p.device
    if p.isOn then
      let p := { p with turns := p.turns + 1 }
      let u := p.wrap t
      { u with stops := u.stops || decide (p.limit ≤ p.turns) }
    else p.wrap t
  close p := { p with device := Host.close p.device }
  readClock p :=
    let (reading, device) := Host.readClock p.device
    (reading, { p with device })

end Breadboard
