import Breadboard.Proofs.Machine.Turbo

namespace Breadboard

inductive HostCall
  | write (b : UInt8)
  | read (timeout : Option Nat) (stopping : Bool)
  | turn
  | clock
deriving DecidableEq

/-- A device with the calls that it has got, the latest first. -/
structure Recorded (δ : Type) where
  device : δ
  calls : List HostCall := []
deriving DecidableEq

variable {δ : Type}

def Recorded.after (r : Recorded δ) (call : HostCall) (t : Turn δ) : Turn (Recorded δ) :=
  { host := ⟨t.host, call :: r.calls⟩, stops := t.stops }

variable [Host δ]

instance : Host (Recorded δ) where
  writeByte r b := r.after (.write b) (Host.writeByte r.device b)
  readByte r timeout stopping :=
    let (event, t) := Host.readByte r.device timeout stopping
    (event, r.after (.read timeout stopping) t)
  processEvents r := r.after .turn (Host.processEvents r.device)
  close r := { r with device := Host.close r.device }
  readClock r :=
    let (reading, device) := Host.readClock r.device
    (reading, ⟨device, .clock :: r.calls⟩)

theorem Accord.recorded {like : δ → δ → Prop} (h : Accord like) :
    Accord fun r r' : Recorded δ => like r.device r'.device ∧ r'.calls = r.calls where
  writeByte := by
    intro r r' hr b
    have hturn := h.writeByte hr.1 b
    exact ⟨⟨hturn.host, congrArg (_ :: ·) hr.2⟩, hturn.stops⟩
  readByte := by
    intro r r' hr timeout stopping
    obtain ⟨hevent, hturn⟩ := h.readByte hr.1 timeout stopping
    exact ⟨hevent, ⟨hturn.host, congrArg (_ :: ·) hr.2⟩, hturn.stops⟩
  processEvents := by
    intro r r' hr
    have hturn := h.processEvents hr.1
    exact ⟨⟨hturn.host, congrArg (_ :: ·) hr.2⟩, hturn.stops⟩
  readClock := fun hr => ⟨h.readClock hr.1, congrArg (_ :: ·) hr.2⟩

def HostCall.isTurn : HostCall → Bool
  | .turn => true
  | _ => false

def Recorded.demands (r : Recorded δ) : List HostCall :=
  r.calls.filter fun call => !call.isTurn

omit [Host δ] in
private theorem Recorded.demands_after {r r' : Recorded δ} (h : r'.demands = r.demands)
    (call : HostCall) (t t' : Turn δ) :
    (r'.after call t').host.demands = (r.after call t).host.demands := by
  cases call with
  | turn => exact h
  | _ => exact congrArg (_ :: ·) h

theorem Placid.recorded {like : δ → δ → Prop} (h : Placid like) :
    Placid fun r r' : Recorded δ => like r.device r'.device ∧ r'.demands = r.demands where
  symm := fun hr => ⟨h.symm hr.1, hr.2.symm⟩
  writeByte := by
    intro r r' hr b
    have hturn := h.writeByte hr.1 b
    exact ⟨⟨hturn.host, Recorded.demands_after hr.2 _ _ _⟩, hturn.quiet, hturn.quiet'⟩
  readByte := by
    intro r r' hr timeout
    obtain ⟨hevent, hturn⟩ := h.readByte hr.1 timeout
    exact ⟨hevent, ⟨hturn.host, Recorded.demands_after hr.2 _ _ _⟩, hturn.quiet,
      hturn.quiet'⟩
  processEvents := by
    intro r r' hr
    have hturn := h.processEvents hr.1
    exact ⟨⟨hturn.host, hr.2⟩, hturn.quiet, hturn.quiet'⟩
  readClock := fun hr => ⟨h.readClock hr.1, rfl⟩

theorem placid_printer : Placid fun d d' : Printer => d'.printed = d.printed where
  symm := Eq.symm
  writeByte := fun h b => ⟨congrArg (b :: ·) h, rfl, rfl⟩
  readByte := fun h _ => ⟨rfl, h, rfl, rfl⟩
  processEvents := fun h => ⟨h, rfl, rfl⟩
  readClock := fun _ => rfl

end Breadboard
