import Breadboard.Assembly.Listing
import Breadboard.Proofs.Machine.Loading

namespace Breadboard.Assembly

variable {m m' : Memory} {addr : UInt16} {chunk : UInt16 × Item}
  {chunks before after : List (UInt16 × Item)}

theorem placements_push (listing : Listing) (e : ListingEntry) :
    Listing.placements (listing.push e) = listing.placements ++
      match e.event with
      | .place address item => [(address, item)]
      | _ => [] := by
  obtain ⟨l, event⟩ := e
  unfold Listing.placements
  rw [Array.toList_push, List.filterMap_append]
  cases event <;> rfl

/-- The bytes of an item, from its address on and around the end of
memory, lie at an address. -/
def Covers (chunk : UInt16 × Item) (addr : UInt16) : Prop :=
  ∃ i < chunk.2.bytes.length, chunk.1 + UInt16.ofNat i = addr

private theorem not_covers_iff : ¬Covers chunk addr ↔
    Memory.Beyond addr chunk.1 chunk.2.bytes.length := by
  simp [Covers, Memory.Beyond]

theorem writeAll_append_cons (before : List (UInt16 × Item)) (chunk : UInt16 × Item)
    (after : List (UInt16 × Item)) (m : Memory) :
    writeAll (before ++ chunk :: after) m =
      writeAll after ((writeAll before m).load chunk.1 chunk.2.bytes) :=
  List.foldl_append

theorem get_writeAll_of_not_covers (h : ∀ chunk ∈ chunks, ¬Covers chunk addr) :
    (writeAll chunks m).get addr = m.get addr := by
  induction chunks generalizing m with
  | nil => rfl
  | cons chunk chunks ih =>
      refine (ih fun later hmem => h later (List.mem_cons_of_mem _ hmem)).trans ?_
      exact Memory.get_load_of_beyond (not_covers_iff.1 (h chunk List.mem_cons_self))

theorem get_writeAll_eq
    (h : (∀ chunk ∈ chunks, ¬Covers chunk addr) → m.get addr = m'.get addr) :
    (writeAll chunks m).get addr = (writeAll chunks m').get addr := by
  -- The two memories may differ at the address as long as a later item covers it.
  induction chunks generalizing m m' with
  | nil => exact h fun _ => nofun
  | cons chunk chunks ih =>
      refine ih fun hlater => Memory.get_load_eq fun hbeyond => h fun c hmem => ?_
      obtain rfl | hmem := List.mem_cons.1 hmem
      · exact not_covers_iff.2 hbeyond
      · exact hlater c hmem

theorem writeAll_writeAll (chunks : List (UInt16 × Item)) (m : Memory) :
    writeAll chunks (writeAll chunks m) = writeAll chunks m :=
  Memory.ext fun _ => get_writeAll_eq get_writeAll_of_not_covers

theorem get_writeAll_of_last {i : Nat} (hi : i < chunk.2.bytes.length)
    (hlast : ∀ j, i < j → j < chunk.2.bytes.length →
      chunk.1 + UInt16.ofNat j ≠ chunk.1 + UInt16.ofNat i)
    (hafter : ∀ later ∈ after, ¬Covers later (chunk.1 + UInt16.ofNat i)) :
    (writeAll (before ++ chunk :: after) m).get (chunk.1 + UInt16.ofNat i) =
      chunk.2.bytes[i] := by
  rw [writeAll_append_cons, get_writeAll_of_not_covers hafter]
  exact Memory.get_load_of_last hi hlast

theorem holds_writeAll (hlength : chunk.2.bytes.length ≤ 65536)
    (hafter : ∀ later ∈ after, ∀ i < chunk.2.bytes.length,
      ¬Covers later (chunk.1 + UInt16.ofNat i)) :
    (writeAll (before ++ chunk :: after) m).Holds chunk.1 chunk.2.bytes := by
  have hloaded := Memory.holds_iff.1 ((writeAll before m).holds_load chunk.1 hlength)
  rw [writeAll_append_cons]
  refine Memory.holds_iff.2 fun i hi => ?_
  rw [get_writeAll_of_not_covers fun later hmem => hafter later hmem i hi]
  exact hloaded i hi

end Breadboard.Assembly
