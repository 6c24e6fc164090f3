import Breadboard.Assembly.Assembler
import Breadboard.Proofs.Assembly.Update
import Breadboard.Proofs.Source.Extent

namespace Breadboard.Assembly

/-- The rest of a program is read to its end, without an error. -/
inductive Reads (d : Disk) : Library → Pass → Library → Pass → Prop
  | done {lib lib' : Library} {p : Pass} (next : lib.next = (none, lib')) :
    Reads d lib p lib' p
  | line {lib lib₁ lib₂ lib' : Library} {p p₁ p' : Pass} {l : Location} {text : String}
      {file? : Option String} (next : lib.next = (some (l, text), lib₁))
      (read : assembleLine l text p = .ok file? p₁) (goes : lib₁.Goes d file? lib₂)
      (rest : Reads d lib₂ p₁ lib' p') : Reads d lib p lib' p'

/-- The rest of a program is read, up to the line that fails if one does. -/
inductive Runs (d : Disk) : Library → Pass → List (Location × String) → PassResult → Prop
  | done {lib lib' : Library} {p : Pass} (next : lib.next = (none, lib')) :
      Runs d lib p [] ⟨p, lib', none⟩
  | refused {lib lib₁ : Library} {p p₁ : Pass} {l : Location} {text : String}
    {kind : ErrorKind}
      (next : lib.next = (some (l, text), lib₁)) (read : assembleLine l text p =
        .error kind p₁) :
      Runs d lib p [(l, text)] ⟨p₁, lib₁, some ⟨kind, some l⟩⟩
  | unopened {lib lib₁ lib₂ : Library} {p p₁ : Pass} {l : Location} {text name : String}
      {e : OpenError} (next : lib.next = (some (l, text), lib₁))
      (read : assembleLine l text p = .ok (some name) p₁)
      (inclusion : lib₁.includeFile d name = (.error e, lib₂)) :
      Runs d lib p [(l, text)] ⟨p₁, lib₂, some ⟨.ofOpen e, some l⟩⟩
  | line {lib lib₁ lib₂ : Library} {p p₁ : Pass} {l : Location} {text : String}
      {file? : Option String} {lines : List (Location × String)} {r : PassResult}
      (next : lib.next = (some (l, text), lib₁)) (read : assembleLine l text p =
        .ok file? p₁)
      (goes : lib₁.Goes d file? lib₂) (rest : Runs d lib₂ p₁ lines r) :
      Runs d lib p ((l, text) :: lines) r

/-- With enough fuel, lines run out first. -/
theorem exists_runs_of_readLines {d : Disk} {n : Nat} {lib : Library} {p : Pass}
    (hfuel : lib.budget d < n) : ∃ lines, Runs d lib p lines (readLines d n lib p) := by
  induction n generalizing lib p with
  | zero => exact absurd hfuel (Nat.not_lt_zero _)
  | succ n ih =>
      unfold readLines
      cases hnext : lib.next with
      | mk line lib₁ =>
          cases line with
          | none => exact ⟨[], .done hnext⟩
          | some line =>
              obtain ⟨l, text⟩ := line
              have hbudget := Library.budget_next (d := d) hnext
              have hfuel₁ : lib₁.budget d < n := by omega
              dsimp only
              cases hread : assembleLine l text p with
              | error kind p₁ => exact ⟨_, .refused hnext hread⟩
              | ok file? p₁ =>
                  cases file? with
                  | none =>
                      obtain ⟨lines, hrest⟩ := ih (p := p₁) hfuel₁
                      exact ⟨_, .line hnext hread .on hrest⟩
                  | some name =>
                      dsimp only
                      cases hinclusion : lib₁.includeFile d name with
                      | mk entered lib₂ =>
                          cases entered with
                          | error e => exact ⟨_, .unopened hnext hread hinclusion⟩
                          | ok entered =>
                              have hfuel₂ := Library.budget_includeFile hinclusion
                              obtain ⟨lines, hrest⟩ :=
                                ih (p := p₁) (Nat.lt_of_le_of_lt hfuel₂ hfuel₁)
                              exact ⟨_, .line hnext hread (.into hinclusion) hrest⟩

/-- The lines that a pass reads from a root. If the root cannot be
opened, there are none. -/
inductive Passes (d : Disk) (root : FileId) (lib : Library) (p : Pass) :
    List (Location × String) → PassResult → Prop
  | unopened {lib' : Library} {e : OpenError} (start : lib.start d root =
    (.error e, lib')) :
      Passes d root lib p [] ⟨p, lib', some ⟨.ofOpen e, none⟩⟩
  | opened {lib₀ : Library} {lines : List (Location × String)} {r : PassResult}
      (start : lib.start d root = (.ok (), lib₀)) (runs : Runs d lib₀ p lines r) :
      Passes d root lib p lines r

theorem exists_passes (d : Disk) (root : FileId) (lib : Library) (p : Pass) :
    ∃ lines, Passes d root lib p lines (runPass d root lib p) := by
  unfold runPass
  cases hstart : lib.start d root with
  | mk started lib₀ =>
      cases started with
      | error e => exact ⟨[], .unopened hstart⟩
      | ok _ =>
          have hfuel := Nat.lt_succ_of_le (Library.budget_start_le hstart)
          obtain ⟨lines, hruns⟩ := exists_runs_of_readLines (p := p) hfuel
          exact ⟨lines, .opened hstart hruns⟩

theorem Runs.reads {d : Disk} {lib : Library} {p : Pass}
    {lines : List (Location × String)} {r : PassResult} (h : Runs d lib p lines r)
    (hnone : r.error? = none) :
    Reads d lib p r.library r.pass := by
  induction h with
  | done next => exact .done next
  | refused | unopened => cases hnone
  | line next read goes _ ih => exact .line next read goes (ih hnone)

theorem Runs.exists_last {d : Disk} {lib : Library} {p : Pass}
    {lines : List (Location × String)} {r : PassResult} (h : Runs d lib p lines r)
    {e : Error} (he : r.error? = some e) :
    ∃ before last, lines = before ++ [last] ∧ e.location? = some last.1 := by
  induction h with
  | done => cases he
  | refused | unopened =>
      cases he
      exact ⟨[], _, rfl, rfl⟩
  | line _ _ _ _ ih =>
      obtain ⟨before, last, rfl, hlocation⟩ := ih he
      exact ⟨_ :: before, last, rfl, hlocation⟩

theorem exists_runs_of_runPass {d : Disk} {root : FileId} {lib : Library} {p : Pass}
    {r : PassResult} (hr : runPass d root lib p = r) (h : r.error? = none) :
    ∃ lib₀ lines, lib.start d root = (.ok (), lib₀) ∧ Runs d lib₀ p lines r := by
  obtain ⟨lines, hpasses⟩ := exists_passes d root lib p
  rw [hr] at hpasses
  cases hpasses with
  | unopened => cases h
  | opened start runs => exact ⟨_, lines, start, runs⟩

theorem reads_of_runPass {d : Disk} {root : FileId} {lib : Library} {p : Pass}
    {r : PassResult} (hr : runPass d root lib p = r) (h : r.error? = none) :
    ∃ lib₀, lib.start d root = (.ok (), lib₀) ∧ Reads d lib₀ p r.library r.pass := by
  obtain ⟨lib₀, lines, hstart, hruns⟩ := exists_runs_of_runPass hr h
  exact ⟨lib₀, hstart, hruns.reads h⟩

structure Preserved (I : Pass → Prop) : Prop where
  enterLine : ∀ {p} (l : Location), I p → I (p.enterLine l)
  defineLabel : ∀ {p} (name : String), I p → I (p.defineLabel name)
  update : ∀ {p p'}, Update p p' → I p → I p'

variable {I : Pass → Prop}

theorem Preserved.updates (hI : Preserved I) {p p' : Pass} (h : Updates p p') (hp : I p) :
    I p' := by
  induction h with
  | refl => exact hp
  | tail _ hlast ih => exact hI.update hlast ih

theorem exists_of_assembleLine {l : Location} {text : String} {p p' : Pass}
    {file? : Option String} (h : assembleLine l text p = .ok file? p') :
    ∃ b, beginning (.ofString text) = .ok b ∧
      afterLabel (.ofString text) b (labelled (p.enterLine l) b) = .ok file? p' := by
  obtain ⟨_, _, hmodify, hline⟩ := bind_eq_ok_iff.1 h
  cases hmodify
  exact exists_of_readLine hline

theorem Preserved.assembleLine (hI : Preserved I) {l : Location} {text : String}
    {p p' : Pass} {file? : Option String} (h : assembleLine l text p = .ok file? p')
    (hp : I p) : I p' := by
  obtain ⟨b, -, hrest⟩ := exists_of_assembleLine h
  refine hI.updates (updates_of_afterLabel hrest) ?_
  have henter := hI.enterLine l hp
  unfold labelled
  cases b.label? with
  | some name => exact hI.defineLabel name henter
  | none => exact henter

theorem Preserved.reads (hI : Preserved I) {d : Disk} {lib lib' : Library} {p p' : Pass}
    (h : Reads d lib p lib' p') (hp : I p) : I p' := by
  induction h with
  | done => exact hp
  | line _ read _ _ ih => exact ih (hI.assembleLine read hp)

end Breadboard.Assembly

namespace Breadboard.Assembler

open Assembly

variable {a : Assembler} {d : Disk} {root : FileId} {m : Memory} {asm : Assembly}

theorem eq_ok_of_toOption {ε α : Type} {x : Except ε α} {value : α}
    (h : value ∈ x.toOption) : x = .ok value := by
  cases x with
  | ok _ =>
      cases h
      rfl
  | error e => cases h

theorem assemble_eq_ok_iff : (a.assemble d root m).1 = .ok asm ↔
    (a.firstPass d root).error? = none ∧
    (secondPass d root (a.firstPass d root)).error? = none ∧
      asm = .ofPass (secondPass d root (a.firstPass d root)).pass := by
  unfold assemble
  dsimp only
  cases (a.firstPass d root).error? with
  | some e => simp
  | none =>
      cases (secondPass d root (a.firstPass d root)).error? with
      | some e => simp
      | none => simp [eq_comm]

end Breadboard.Assembler
