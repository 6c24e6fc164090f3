import Breadboard.Proofs.Assembly.Encoding

namespace Breadboard.Assembly

variable {p p' : Pass} {lines : List String}

/-- Reads lines one after another, the first of them at the location. -/
def readAll : Location → List String → Assembling Unit
  | _, [] => pure ()
  | l, text :: rest => do
      let _ ← assembleLine l text
      readAll { l with line := l.line + 1 } rest

theorem readAll_append (l : Location) (before after : List String) :
    readAll l (before ++ after) =
      (do readAll l before; readAll { l with line := l.line + before.length } after) := by
  induction before generalizing l with
  | nil => rfl
  | cons text before ih =>
      have hlines : l.line + (before.length + 1) = l.line + 1 + before.length := by omega
      rw [List.cons_append, readAll, readAll, ih, bind_assoc, List.length_cons, hlines]

/-- No line includes a file. -/
def Flat (lines : List String) : Prop :=
  ∀ text ∈ lines, ∀ l p file? p', assembleLine l text p = .ok file? p' → file? = none

/-- What a pass results in if reading the lines of its only source does. -/
def Ends (lib : Library) (r : PassResult) : EStateM.Result ErrorKind Pass Unit → Prop
  | .ok _ p => r.pass = p ∧ r.error? = none ∧ r.library.sources = lib.sources
  | .error kind p => r.pass = p ∧ ∃ l, r.error? = some ⟨kind, some l⟩

private theorem ends_readLines {d : Disk} {fuel : Nat} {lib : Library} {l : Location}
    (hstack : lib.stack = [⟨l.file, l.line, lines⟩]) (hname : lib.nameOf l.file = l.name)
    (hflat : Flat lines) (hfuel : lines.length < fuel) :
    Ends lib (readLines d fuel lib p) (readAll l lines p) := by
  induction lines generalizing fuel lib l p with
  | nil =>
      obtain _ | fuel := fuel
      · cases hfuel
      · unfold readLines Library.next
        rw [hstack]
        exact ⟨rfl, rfl, rfl⟩
  | cons text rest ih =>
      obtain _ | fuel := fuel
      · cases hfuel
      · have hnext : lib.next =
            (some (l, text), { lib with stack := [⟨l.file, l.line + 1, rest⟩] }) := by
          unfold Library.next
          rw [hstack]
          change (some ((⟨l.file, lib.nameOf l.file, l.line⟩ : Location), text), _) = _
          rw [hname]
        unfold readLines readAll
        rw [hnext]
        dsimp only
        cases hread : assembleLine l text p with
        | error kind p₁ =>
            rw [bind_of_error hread]
            exact ⟨rfl, l, rfl⟩
        | ok file? p₁ =>
            cases hflat text List.mem_cons_self l p file? p₁ hread
            rw [bind_of_ok hread]
            refine ih rfl hname
              (fun text hmem => hflat text (List.mem_cons_of_mem _ hmem)) ?_
            rw [List.length_cons] at hfuel
            omega

private theorem length_lt_extent {d : Disk} {lib : Library} {name : String}
    (hsources : lib.sources = [⟨name, none, some lines⟩]) :
    lines.length < lib.extent d + 1 := by
  unfold Library.extent
  rw [hsources]
  change lines.length < lines.length + d.extent + 1
  omega

theorem ends_runPass {d : Disk} {lib : Library} {name : String}
    (hsources : lib.sources = [⟨name, none, some lines⟩]) (hflat : Flat lines) :
    Ends lib (runPass d 0 lib p) (readAll ⟨0, name, 0⟩ lines p) := by
  have hstart : lib.start d 0 =
    (.ok (), lib.reset.enter 0 ⟨name, none, some lines⟩ lines) := by
    unfold Library.start Library.open? Library.source? Library.reset
    dsimp only
    rw [hsources]
    rfl
  have hentered : (lib.reset.enter 0 ⟨name, none, some lines⟩ lines).sources =
    lib.sources := by
    unfold Library.enter Library.reset
    dsimp only
    rw [hsources]
    rfl
  have hname : (lib.reset.enter 0 ⟨name, none, some lines⟩ lines).nameOf 0 = name := by
    unfold Library.nameOf Library.name? Library.source?
    rw [hentered, hsources]
    rfl
  have hends := ends_readLines (d := d) (p := p) (l := ⟨0, name, 0⟩) rfl hname hflat
    (length_lt_extent (d := d) (hentered.trans hsources))
  unfold runPass
  rw [hstart]
  dsimp only
  unfold Ends at hends ⊢
  rw [hentered] at hends
  exact hends

end Breadboard.Assembly

namespace Breadboard.Assembler

open Assembly

variable {flags : Flags} {name text : String} {d : Disk} {m : Memory} {p p' : Pass}
    {kind : ErrorKind}

/-- A program that is given as one text. -/
def ofText (flags : Flags) (name text : String) : Assembler :=
  (addText { flags } name text).2

theorem assemble_ofText_of_first (hflat : Flat (Text.splitLines text))
    (h : readAll ⟨0, name, 0⟩ (Text.splitLines text) (.initial flags) = .error kind p) :
    ∃ l, ((ofText flags name text).assemble d 0 m).1 = .error ⟨kind, some l⟩ := by
  have hends : Ends (ofText flags name text).prepared
    ((ofText flags name text).firstPass d 0)
      (readAll ⟨0, name, 0⟩ (Text.splitLines text) (.initial flags)) :=
        ends_runPass rfl hflat
  rw [h] at hends
  obtain ⟨-, l, herror⟩ := hends
  refine ⟨l, ?_⟩
  unfold assemble
  dsimp only
  rw [herror]

private theorem ends_secondPass (hflat : Flat (Text.splitLines text))
    (h : readAll ⟨0, name, 0⟩ (Text.splitLines text) (.initial flags) = .ok () p) :
    ((ofText flags name text).firstPass d 0).error? = none ∧
      ∃ lib, Ends lib (secondPass d 0 ((ofText flags name text).firstPass d 0))
        (readAll ⟨0, name, 0⟩ (Text.splitLines text) p.next) := by
  have hends : Ends (ofText flags name text).prepared
    ((ofText flags name text).firstPass d 0)
      (readAll ⟨0, name, 0⟩ (Text.splitLines text) (.initial flags)) :=
        ends_runPass rfl hflat
  rw [h] at hends
  obtain ⟨rfl, hnone, hsources⟩ := hends
  exact ⟨hnone, _, ends_runPass hsources hflat⟩

theorem exists_of_assemble_ofText {asm : Assembly} (hflat : Flat (Text.splitLines text))
    (h : ((ofText flags name text).assemble d 0 m).1 = .ok asm) :
    ∃ p p', readAll ⟨0, name, 0⟩ (Text.splitLines text) (.initial flags) = .ok () p ∧
      readAll ⟨0, name, 0⟩ (Text.splitLines text) p.next = .ok () p' := by
  obtain ⟨-, hnone', -⟩ := assemble_eq_ok_iff.1 h
  cases hfirst : readAll ⟨0, name, 0⟩ (Text.splitLines text) (.initial flags) with
  | error kind p =>
      obtain ⟨l, herror⟩ := assemble_ofText_of_first (d := d) (m := m) hflat hfirst
      rw [h] at herror
      cases herror
  | ok _ p =>
      obtain ⟨-, lib, hends⟩ := ends_secondPass (d := d) hflat hfirst
      cases hsecond : readAll ⟨0, name, 0⟩ (Text.splitLines text) p.next with
      | error kind p' =>
          rw [hsecond] at hends
          obtain ⟨-, l, herror⟩ := hends
          rw [hnone'] at herror
          cases herror
      | ok _ p' => exact ⟨p, p', rfl, hsecond⟩

theorem assemble_ofText_of_ok (hflat : Flat (Text.splitLines text))
    (h : readAll ⟨0, name, 0⟩ (Text.splitLines text) (.initial flags) = .ok () p)
    (h' : readAll ⟨0, name, 0⟩ (Text.splitLines text) p.next = .ok () p') :
    ((ofText flags name text).assemble d 0 m).1 = .ok (.ofPass p') ∧
      ((ofText flags name text).assemble d 0 m).2.2 = p'.listing.writeTo m := by
  obtain ⟨hnone, lib, hends⟩ := ends_secondPass (d := d) hflat h
  rw [h'] at hends
  obtain ⟨hpass, hnone', -⟩ := hends
  unfold assemble
  dsimp only
  rw [hnone]
  dsimp only
  rw [hnone', hpass]
  exact ⟨rfl, rfl⟩

end Breadboard.Assembler
