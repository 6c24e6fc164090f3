import Breadboard.Assembly.Pass
import Breadboard.Proofs.Assembly.Storage
import Breadboard.Proofs.Machine.Around
import Breadboard.Proofs.Machine.Decoding

namespace Breadboard.Assembly

namespace Pass

private theorem advance_advance (p : Pass) (count more : UInt16) :
    (p.advance count).advance more = p.advance (count + more) := by
  unfold advance
  rw [UInt16.add_assoc]

private theorem writeTo_place (p : Pass) (item : Item) (m : Memory) :
    (p.place item).listing.writeTo m =
      (p.listing.writeTo m).load p.address item.bytes := by
  have hplaced : (p.place item).listing.placements =
      p.listing.placements ++ [(p.address, item)] :=
    placements_push p.listing _
  rw [Listing.writeTo, hplaced, writeAll_append_cons]
  rfl

/-- Places items one after another, each where the next byte goes. -/
def placeAll (p : Pass) (items : List Item) : Pass :=
  items.foldl place p

private theorem address_placeAll (p : Pass) (items : List Item) :
    (p.placeAll items).address =
      (p.advance (UInt16.ofNat (items.flatMap Item.bytes).length)).address := by
  induction items generalizing p with
  | nil => exact (UInt16.add_zero p.address).symm
  | cons item items ih =>
      change ((p.place item).placeAll items).address = _
      rw [ih, place, advance_advance, List.flatMap_cons, List.length_append,
        UInt16.ofNat_add]
      rfl

private theorem writeTo_placeAll (p : Pass) (items : List Item) (m : Memory) :
    (p.placeAll items).listing.writeTo m =
      (p.listing.writeTo m).load p.address (items.flatMap Item.bytes) := by
  induction items generalizing p with
  | nil => rfl
  | cons item items ih =>
      change ((p.place item).placeAll items).listing.writeTo m = _
      rw [ih, writeTo_place, List.flatMap_cons, Memory.load_append]
      rfl

end Pass

private theorem exists_flatMap_bytes (bytes : List UInt8) :
    ∃ items : List Item, items.flatMap Item.bytes = bytes := by
  induction bytes with
  | nil => exact ⟨[], rfl⟩
  | cons b bytes ih =>
      obtain ⟨items, rfl⟩ := ih
      refine ⟨.byte (Int32.ofNat b.toNat) :: items, ?_⟩
      rw [List.flatMap_cons, Item.bytes, lowOf_ofNat]
      rfl

end Breadboard.Assembly

namespace Breadboard.Memory

open Assembly

/-- What becomes of some bytes that go around the end of memory when they are loaded, when
a pass places them, at once or in several items, and when a string is read. -/
structure Wraps (m : Memory) (start : UInt16) (bytes : List UInt8) : Prop where
  loaded : ∀ c, m.LeavesAt start bytes c ((m.load start bytes).get c)
  advanced : ∀ p : Pass, p.address = start →
    IsPast start bytes.length (p.advance (UInt16.ofNat bytes.length)).address
  placeable : ∃ items : List Item, items.flatMap Item.bytes = bytes
  placed : ∀ (p : Pass) (items : List Item), p.address = start →
    items.flatMap Item.bytes = bytes →
    (∀ m', (p.placeAll items).listing.writeTo m' =
      (p.listing.writeTo m').load start bytes) ∧
      (p.placeAll items).address = (p.advance (UInt16.ofNat bytes.length)).address
  read : m.IsLongestRun start (m.string start)
  readAll : (∀ c, m.get c ≠ 0) → m.string start = m.around start

theorem wraps_around (m : Memory) (start : UInt16) (bytes : List UInt8) :
    m.Wraps start bytes where
  loaded := m.leavesAt_load start bytes
  advanced := by
    rintro p rfl
    exact isPast_add p.address bytes.length
  placeable := exists_flatMap_bytes bytes
  placed := by
    rintro p items rfl rfl
    exact ⟨p.writeTo_placeAll items, p.address_placeAll items⟩
  read := m.isLongestRun_string start
  readAll := string_eq_around

end Breadboard.Memory
