import Breadboard.Assembly.Listing

namespace Breadboard.Assembly

variable {here : UInt16} {before after : List ListingEntry} {e : ListingEntry}

/-- Where the next byte goes after an event. -/
def Event.addressAfter (here : UInt16) : Event → UInt16
  | .place _ item => here + UInt16.ofNat item.bytes.length
  | .origin value => value.toUInt32.toUInt16
  | _ => here

/-- What an event tells of the address where the next byte goes. -/
def Event.IsAt (here : UInt16) : Event → Prop
  | .visit addr | .place addr _ => addr = here
  | _ => True

def addressAfter (here : UInt16) (entries : List ListingEntry) : UInt16 :=
  entries.foldl (fun here e => e.event.addressAfter here) here

/-- Every line is visited and every item is placed where the next byte goes. -/
def Addressed (here : UInt16) : List ListingEntry → Prop
  | [] => True
  | e :: rest => e.event.IsAt here ∧ Addressed (e.event.addressAfter here) rest

theorem addressAfter_append (here : UInt16) (before after : List ListingEntry) :
    addressAfter here (before ++ after) = addressAfter (addressAfter here before) after :=
  List.foldl_append

theorem addressed_append : Addressed here (before ++ after) ↔
    Addressed here before ∧ Addressed (addressAfter here before) after := by
  induction before generalizing here with
  | nil => simp [Addressed, addressAfter]
  | cons e before ih => exact (and_congr_right fun _ => ih).trans and_assoc.symm

theorem addressed_singleton : Addressed here [e] ↔ e.event.IsAt here :=
  iff_of_eq (and_true _)

end Breadboard.Assembly
