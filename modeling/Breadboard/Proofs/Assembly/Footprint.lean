import Breadboard.Proofs.Assembly.Rereading
import Breadboard.Proofs.Assembly.Storage

namespace Breadboard.Assembly

private theorem exists_addressed (p : Pass) (lines : List (Location × String)) :
    ∃ added, (p.afterLines lines).listing.toList = p.listing.toList ++ added ∧
      (p.afterLines lines).address = addressAfter p.address added ∧
      Addressed p.address added := by
  induction lines generalizing p with
  | nil => exact ⟨[], (List.append_nil _).symm, rfl, trivial⟩
  | cons line lines ih =>
      have hline := adds_afterLine p line.1 line.2
      obtain ⟨added, hlisting, haddress, haddressed⟩ := ih (p.afterLine line.1 line.2)
      rw [hline.listing, List.append_assoc] at hlisting
      rw [hline.address] at haddress haddressed
      refine ⟨_, hlisting, ?_, addressed_append.2 ⟨hline.addressed, haddressed⟩⟩
      rw [addressAfter_append]
      exact haddress

end Breadboard.Assembly

namespace Breadboard.Assembler

open Assembly

variable {a : Assembler} {d : Disk} {root : FileId}

/-- What is placed in memory: nothing if the first pass fails, and otherwise what the
second one came to place. -/
def chunks (a : Assembler) (d : Disk) (root : FileId) : List (UInt16 × Item) :=
  match (a.firstPass d root).error? with
  | some _ => []
  | none => (secondPass d root (a.firstPass d root)).pass.listing.placements

theorem assemble_eq_writeAll (a : Assembler) (d : Disk) (root : FileId) :
    ∃ result a', ∀ m, a.assemble d root m =
      (result, a', writeAll (a.chunks d root) m) := by
  unfold assemble chunks
  dsimp only
  cases (a.firstPass d root).error? with
  | some e => exact ⟨_, _, fun m => rfl⟩
  | none => exact ⟨_, _, fun m => rfl⟩

theorem addressed_secondPass (hfirst : (a.firstPass d root).error? = none) :
    Addressed a.flags.defaultOrigin
      (secondPass d root (a.firstPass d root)).pass.listing.toList := by
  obtain ⟨_, -, reread, -, -, hruns, -⟩ := exists_retraced hfirst
  obtain ⟨added, hlisting, -, haddressed⟩ :=
    exists_addressed (a.firstPass d root).pass.next reread
  rw [← hruns.pass_eq] at hlisting
  rw [hlisting, ← flags_firstPass hfirst]
  exact haddressed

/-- How assembly depends on memory, and what it makes of it. -/
structure Footprint (a : Assembler) (d : Disk) (root : FileId) : Prop where
  result : ∀ m m', (a.assemble d root m).1 = (a.assemble d root m').1 ∧
    (a.assemble d root m).2.1 = (a.assemble d root m').2.1
  untouched : (a.firstPass d root).error?.isSome → ∀ m, (a.assemble d root m).2.2 = m
  kept : ∀ m addr, (∀ chunk ∈ a.chunks d root, ¬Covers chunk addr) →
    (a.assemble d root m).2.2.get addr = m.get addr
  agrees : ∀ m m' addr, (∃ chunk ∈ a.chunks d root, Covers chunk addr) →
    (a.assemble d root m).2.2.get addr = (a.assemble d root m').2.2.get addr
  last : ∀ m before chunk after i, a.chunks d root = before ++ chunk :: after →
    ∀ hi : i < chunk.2.bytes.length,
      (∀ j, i < j → j < chunk.2.bytes.length →
        chunk.1 + UInt16.ofNat j ≠ chunk.1 + UInt16.ofNat i) →
      (∀ later ∈ after, ¬Covers later (chunk.1 + UInt16.ofNat i)) →
      (a.assemble d root m).2.2.get (chunk.1 + UInt16.ofNat i) = chunk.2.bytes[i]
  addressed : (a.firstPass d root).error? = none →
    Addressed a.flags.defaultOrigin
      (secondPass d root (a.firstPass d root)).pass.listing.toList

theorem footprint_of_assemble (a : Assembler) (d : Disk) (root : FileId) :
    a.Footprint d root := by
  obtain ⟨result, a', hassemble⟩ := assemble_eq_writeAll a d root
  have hmemory : ∀ m, (a.assemble d root m).2.2 = writeAll (a.chunks d root) m :=
    fun m => congrArg (·.2.2) (hassemble m)
  refine {
    result := fun m m' => ?_
    untouched := fun herror m => ?_
    kept := fun m addr hkept => ?_
    agrees := fun m m' addr ⟨chunk, hmem, hcovers⟩ => ?_
    last := fun m before chunk after i hsplit hi hlast hafter => ?_
    addressed := addressed_secondPass }
  · rw [hassemble, hassemble]
    exact ⟨rfl, rfl⟩
  · have hnothing : a.chunks d root = [] := by
      obtain ⟨e, he⟩ := Option.isSome_iff_exists.1 herror
      unfold chunks
      rw [he]
    rw [hmemory, hnothing]
    rfl
  · rw [hmemory, get_writeAll_of_not_covers hkept]
  · rw [hmemory, hmemory]
    exact get_writeAll_eq fun hnone => absurd hcovers (hnone chunk hmem)
  · rw [hmemory, hsplit, get_writeAll_of_last hi hlast hafter]

end Breadboard.Assembler
