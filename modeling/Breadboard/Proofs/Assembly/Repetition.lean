import Breadboard.Proofs.Assembly.Footprint
import Breadboard.Proofs.Assembly.IncludeOnce

namespace Breadboard.Assembly

variable {d : Disk} {root : FileId} {lib lib₁ lib₂ : Library} {p : Pass}
    {r r' : PassResult} {read read' : List (Location × String)}

theorem Runs.unique (h : Runs d lib p read r) (h' : Runs d lib p read' r') : r' = r := by
  induction h generalizing read' with
  | done next =>
      cases h' with
      | done next' =>
          cases next.symm.trans next'
          rfl
      | refused next' | unopened next' | line next' => cases next.symm.trans next'
  | refused next read =>
      cases h' with
      | done next' => cases next.symm.trans next'
      | refused next' read' =>
          cases next.symm.trans next'
          cases read.symm.trans read'
          rfl
      | unopened next' read' | line next' read' =>
          cases next.symm.trans next'
          cases read.symm.trans read'
  | unopened next read inclusion =>
      cases h' with
      | done next' => cases next.symm.trans next'
      | refused next' read' =>
          cases next.symm.trans next'
          cases read.symm.trans read'
      | unopened next' read' inclusion' =>
          cases next.symm.trans next'
          cases read.symm.trans read'
          cases inclusion.symm.trans inclusion'
          rfl
      | line next' read' goes' =>
          cases next.symm.trans next'
          cases read.symm.trans read'
          cases goes' with
          | into inclusion' => cases inclusion.symm.trans inclusion'
  | line next read goes _ ih =>
      cases h' with
      | done next' => cases next.symm.trans next'
      | refused next' read' =>
          cases next.symm.trans next'
          cases read.symm.trans read'
      | unopened next' read' inclusion' =>
          cases next.symm.trans next'
          cases read.symm.trans read'
          cases goes with
          | into inclusion => cases inclusion.symm.trans inclusion'
      | line next' read' goes' rest' =>
          cases next.symm.trans next'
          cases read.symm.trans read'
          cases goes.unique goes'
          exact ih rest'

theorem Passes.eq_runPass (h : Passes d root lib p read r) :
    runPass d root lib p = r := by
  obtain ⟨read', h'⟩ := exists_passes d root lib p
  cases h with
  | unopened start =>
      unfold runPass
      rw [start]
  | opened start runs => exact runs.unique (h'.runs start)

private theorem Runs.exists_again (h : Runs d lib₁ p read r) (htwin : lib₁.Twin d lib₂)
    (hregistered : lib₁.Registered) (hfuture : r.library.Grown d lib₂) :
    ∃ lib', Runs d lib₂ p read { r with library := lib' } := by
  induction h generalizing lib₂ with
  | done next =>
      obtain ⟨_, hnext, -⟩ := htwin.exists_next hregistered next
      exact ⟨_, .done hnext⟩
  | refused next read =>
      obtain ⟨_, hnext, -⟩ := htwin.exists_next hregistered next
      exact ⟨_, .refused hnext read⟩
  | unopened next read inclusion =>
      obtain ⟨_, hnext, htwin₁⟩ := htwin.exists_next hregistered next
      obtain ⟨_, hinclusion⟩ :=
        htwin₁.includeFile_error (hregistered.of_next next) inclusion
        (hfuture.trans (Library.grown_of_next hnext))
      exact ⟨_, .unopened hnext read hinclusion⟩
  | line next read goes rest ih =>
      obtain ⟨_, hnext, htwin₁⟩ := htwin.exists_next hregistered next
      have hregistered₁ := hregistered.of_next next
      have hfuture₁ := hfuture.trans (Library.grown_of_next hnext)
      obtain ⟨_, hgoes, htwin₂⟩ :=
        htwin₁.goes hregistered₁ goes (rest.grown.trans hfuture₁)
      obtain ⟨_, hruns⟩ :=
        ih htwin₂ (goes.registered hregistered₁) (hfuture₁.trans hgoes.grown)
      exact ⟨_, .line hnext read hgoes hruns⟩

theorem grown_runPass (d : Disk) (root : FileId) (lib : Library) (p : Pass) :
    lib.Grown d (runPass d root lib p).library := by
  obtain ⟨_, hpasses⟩ := exists_passes d root lib p
  exact hpasses.grown

theorem runPass_unregistered (h : lib.source? root = none) :
    runPass d root lib p = ⟨p, lib.reset, some ⟨.ofOpen ⟨⟨""⟩, .notFound⟩, none⟩⟩ := by
  have hreset : lib.reset.source? root = none := h
  unfold runPass Library.start Library.open?
  rw [hreset]

private theorem runPass_again
    (hroot : (lib₂.source? root).isSome → (lib.source? root).isSome)
    (hfuture : (runPass d root lib p).library.Grown d lib₂) :
    ∃ lib', runPass d root lib₂ p = { runPass d root lib p with library := lib' } := by
  cases hs : lib.source? root with
  | none =>
      have hs₂ : lib₂.source? root = none := by
        rw [hs] at hroot
        exact Option.not_isSome_iff_eq_none.1 fun hsome =>
          Bool.false_ne_true (hroot hsome)
      rw [runPass_unregistered hs, runPass_unregistered hs₂]
      exact ⟨_, rfl⟩
  | some s =>
      obtain ⟨_, hpasses⟩ := exists_passes d root lib p
      generalize runPass d root lib p = r at hpasses hfuture ⊢
      cases hpasses with
      | unopened start =>
          have hgrown := (Library.grown_start start).trans hfuture
          exact ⟨_, (Passes.unopened (Library.start_eq_error start hs hgrown)).eq_runPass⟩
      | opened start runs =>
          obtain ⟨_, hstart, htwin⟩ := Library.twin_start start (runs.grown.trans hfuture)
          obtain ⟨_, hruns⟩ := runs.exists_again htwin (Library.registered_start start)
            (hfuture.trans (Library.grown_start hstart))
          exact ⟨_, (Passes.opened hstart hruns).eq_runPass⟩

end Breadboard.Assembly

namespace Breadboard.Assembler

open Assembly

variable {a b : Assembler} {d : Disk} {root : FileId} {m : Memory}

/-- The library as the last pass that assembly makes leaves it. -/
def lastLibrary (a : Assembler) (d : Disk) (root : FileId) : Library :=
  match (a.firstPass d root).error? with
  | some _ => (a.firstPass d root).library
  | none => (secondPass d root (a.firstPass d root)).library

private theorem assembler_assemble (a : Assembler) (d : Disk) (root : FileId)
    (m : Memory) :
    (a.assemble d root m).2.1 = { a with library := (a.lastLibrary d root).reset } := by
  unfold assemble lastLibrary
  dsimp only
  cases (a.firstPass d root).error? with
  | some e => rfl
  | none => rfl

private theorem grown_firstPass_lastLibrary :
    (a.firstPass d root).library.Grown d (a.lastLibrary d root) := by
  unfold lastLibrary
  cases (a.firstPass d root).error? with
  | some e => exact .refl d _
  | none => exact grown_runPass d root _ _

private theorem grown_prepared
    (hb : b = { a with library := (a.lastLibrary d root).reset }) :
    (a.lastLibrary d root).Grown d b.prepared := by
  have hgrown : a.prepared.Grown d (a.lastLibrary d root) :=
    (grown_runPass d root _ _).trans grown_firstPass_lastLibrary
  rw [hb]
  exact ⟨hgrown.searchDirs.symm, fun hs => ⟨_, hs, .refl d _⟩⟩

private theorem firstPass_again
    (hb : b = { a with library := (a.lastLibrary d root).reset }) :
    ∃ lib, b.firstPass d root = { a.firstPass d root with library := lib } := by
  have hflags : b.flags = a.flags := by rw [hb]
  unfold firstPass
  rw [hflags]
  refine runPass_again (fun hroot => ?_)
    (grown_firstPass_lastLibrary.trans (grown_prepared hb))
  apply Decidable.byContradiction
  intro hnone
  -- Without a root the first pass fails at once and registers nothing.
  have hs : a.prepared.source? root = none := Option.not_isSome_iff_eq_none.1 hnone
  have hlast : a.lastLibrary d root = a.prepared.reset := by
    unfold lastLibrary firstPass
    rw [runPass_unregistered hs]
  rw [hb, hlast] at hroot
  exact hnone hroot

private theorem secondPass_again
    (hb : b = { a with library := (a.lastLibrary d root).reset })
    (hfirst : (a.firstPass d root).error? = none) :
    ∃ lib, secondPass d root (b.firstPass d root) =
      { secondPass d root (a.firstPass d root) with library := lib } := by
  have hlast : a.lastLibrary d root =
    (secondPass d root (a.firstPass d root)).library := by
    unfold lastLibrary
    rw [hfirst]
  have hfuture : (a.lastLibrary d root).Grown d (b.firstPass d root).library :=
    (grown_prepared hb).trans (grown_runPass d root _ _)
  obtain ⟨lib₀, hstart, -⟩ := reads_of_runPass rfl hfirst
  obtain ⟨lib, hagain⟩ := firstPass_again hb
  unfold secondPass
  rw [show (b.firstPass d root).pass = (a.firstPass d root).pass by rw [hagain]]
  refine runPass_again (fun _ => ?_) ?_
  · obtain ⟨s, -, hs, -⟩ := Library.start_eq_ok_iff.1 hstart
    obtain ⟨s', hs', -⟩ := (grown_runPass d root a.prepared (.initial a.flags)).source hs
    exact Option.isSome_of_eq_some hs'
  · rw [hlast] at hfuture
    exact hfuture

private theorem result_again
    (hb : b = { a with library := (a.lastLibrary d root).reset }) :
    (b.assemble d root m).1 = (a.assemble d root m).1 ∧
    b.chunks d root = a.chunks d root := by
  obtain ⟨_, hfirst⟩ := firstPass_again hb
  have hsecond := secondPass_again hb
  have herror : (b.firstPass d root).error? =
    (a.firstPass d root).error? := by rw [hfirst]
  unfold assemble chunks
  dsimp only
  rw [herror]
  cases herror₁ : (a.firstPass d root).error? with
  | some e => exact ⟨rfl, rfl⟩
  | none =>
      obtain ⟨_, hagain⟩ := hsecond herror₁
      dsimp only
      rw [hagain]
      exact ⟨rfl, rfl⟩

/-- Assembling the same root again gives the same and leaves memory as it is. After any
assembly nothing is being read, and nothing is remembered as opened. -/
theorem assemble_assemble (a : Assembler) (d : Disk) (root : FileId) (m : Memory) :
    ∃ result b m', a.assemble d root m = (result, b, m') ∧
      b.library.stack = [] ∧ b.library.opened = [] ∧
      ∃ c, b.assemble d root m' = (result, c, m') := by
  obtain ⟨result, b, hassemble⟩ := assemble_eq_writeAll a d root
  obtain ⟨result', c, hassemble'⟩ := assemble_eq_writeAll b d root
  have hb : b = { a with library := (a.lastLibrary d root).reset } := by
    rw [← a.assembler_assemble d root m, hassemble]
  obtain ⟨hresult, hchunks⟩ := result_again (m := m) hb
  rw [hassemble, hassemble'] at hresult
  refine ⟨result, b, _, hassemble m, ?_, ?_, c, ?_⟩
  · rw [hb]
    rfl
  · rw [hb]
    rfl
  · rw [hassemble', hchunks, writeAll_writeAll]
    exact congrArg (·, c, _) hresult

end Breadboard.Assembler
