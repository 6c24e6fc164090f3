import Breadboard.Proofs.Assembly.LetterCase
import Breadboard.Proofs.Assembly.Repetition
import Breadboard.Proofs.Source.LetterCase

namespace Breadboard.Assembly

variable {p p' : Pass} {text text' : String}

theorem Pass.exists_of_folded_eq (h : p'.folded = p.folded) :
    ∃ warnings, p' = { p with warnings } ∧
      warnings.map Warning.folded = p.warnings.map Warning.folded := by
  have hp' : { p'.folded with warnings := p'.warnings } =
      { p.folded with warnings := p'.warnings } := by rw [h]
  have hwarnings : p'.folded.warnings = p.folded.warnings := by rw [h]
  exact ⟨p'.warnings, hp', hwarnings⟩

private theorem Pass.insensitive_of_folded_eq (h : p'.folded = p.folded)
    (hp : p.Insensitive) :
    p'.Insensitive := by
  obtain ⟨_, rfl, -⟩ := exists_of_folded_eq h
  exact hp

/-- What comes of two lines that differ only in the case of letters. -/
inductive LinesRecased : EStateM.Result ErrorKind Pass (Option String) →
    EStateM.Result ErrorKind Pass (Option String) → Prop
  | read {file? : Option String} {q q' : Pass} (insensitive : q.Insensitive)
      (pass : q'.folded = q.folded) : LinesRecased (.ok file? q) (.ok file? q')
  | refused {kind kind' : ErrorKind} {q q' : Pass} (same : kind'.folded = kind.folded)
      (pass : q'.folded = q.folded) : LinesRecased (.error kind q) (.error kind' q')

theorem LinesRecased.exists_ok {file? : Option String} {q : Pass}
    {result : EStateM.Result ErrorKind Pass (Option String)}
    (h : LinesRecased (.ok file? q) result) :
    ∃ q', result = .ok file? q' ∧ q.Insensitive ∧ q'.folded = q.folded := by
  cases h with
  | read insensitive pass => exact ⟨_, rfl, insensitive, pass⟩

private theorem LinesRecased.exists_error {kind : ErrorKind} {q : Pass}
    {result : EStateM.Result ErrorKind Pass (Option String)}
    (h : LinesRecased (.error kind q) result) :
    ∃ kind' q', result = .error kind' q' ∧ kind'.folded = kind.folded ∧
      q'.folded = q.folded := by
  cases h with
  | refused same pass => exact ⟨_, _, rfl, same, pass⟩

private theorem assembleLine_recased (hp : p.Insensitive) (hpass : p'.folded = p.folded)
    (htext : uncased text' = uncased text) (l : Location) :
    LinesRecased (assembleLine l text p) (assembleLine l text' p') := by
  have hechoes := echoes_assembleLine l text p hp
  have hechoes' := echoes_assembleLine l text' p' (Pass.insensitive_of_folded_eq hpass hp)
  rw [htext, hpass] at hechoes'
  generalize assembleLine l text p = r, assembleLine l text' p' = r' at hechoes hechoes' ⊢
  cases r with
  | ok file? q =>
      obtain ⟨hq, hlower⟩ := hechoes
      rw [hlower] at hechoes'
      cases r' with
      | ok file'? q' =>
          obtain ⟨hfile, hfolded⟩ := EStateM.Result.ok.inj hechoes'.2
          cases hfile
          exact .read hq hfolded.symm
      | error kind' q' =>
          obtain ⟨_, hsame, -⟩ := hechoes'
          cases hsame
  | error kind q =>
      obtain ⟨lower, hlower, hkind⟩ := hechoes
      rw [hlower] at hechoes'
      cases r' with
      | ok file'? q' => cases hechoes'.2
      | error kind' q' =>
          obtain ⟨lower', hsame, hkind'⟩ := hechoes'
          obtain ⟨rfl, hfolded⟩ := EStateM.Result.error.inj hsame
          exact .refused (hkind'.symm.trans hkind) hfolded.symm

def Error.folded (e : Error) : Error :=
  { e with kind := e.kind.folded }

def PassResult.folded (r : PassResult) : PassResult :=
  ⟨r.pass.folded, r.library.folded, r.error?.map Error.folded⟩

variable {d d' : Disk} {root : FileId} {lib lib' : Library}
    {read : List (Location × String)} {r : PassResult}

theorem PassResult.folded_eq {error? error'? : Option Error}
    (hpass : p'.folded = p.folded) (hlib : lib.Recased lib')
    (herror : error'?.map Error.folded = error?.map Error.folded) :
    folded ⟨p', lib', error'?⟩ = folded ⟨p, lib, error?⟩ := by
  unfold folded
  dsimp only
  rw [hpass, hlib, herror]

theorem exists_line_recased {lib₁ : Library} {l : Location} (hlib : lib.Recased lib')
    (hp : p.Insensitive) (hpass : p'.folded = p.folded)
    (next : lib.next = (some (l, text), lib₁)) :
    ∃ text' lib₁', lib'.next = (some (l, text'), lib₁') ∧ lib₁.Recased lib₁' ∧
      LinesRecased (assembleLine l text p) (assembleLine l text' p') := by
  obtain ⟨_, lib₁', hnext, hsame, hlib₁⟩ := hlib.exists_next next
  obtain ⟨⟨l', text'⟩, rfl, hline⟩ := Option.map_eq_some_iff.1 hsame
  obtain ⟨rfl, htext⟩ := Prod.mk.inj hline
  exact ⟨text', lib₁', hnext, hlib₁, assembleLine_recased hp hpass htext l'⟩

private theorem Runs.recased (h : Runs d lib p read r) (hdisk : d.Recased d')
    (hlib : lib.Recased lib') (hp : p.Insensitive) (hpass : p'.folded = p.folded) :
    ∃ read' r', Runs d' lib' p' read' r' ∧ r'.folded = r.folded := by
  induction h generalizing lib' p' with
  | done next =>
      obtain ⟨_, _, hnext, hnone, hlib₁⟩ := hlib.exists_next next
      rw [Option.map_eq_none_iff.1 hnone] at hnext
      exact ⟨_, _, .done hnext, PassResult.folded_eq hpass hlib₁ rfl⟩
  | refused next read =>
      obtain ⟨_, _, hnext, hlib₁, hlines⟩ := exists_line_recased hlib hp hpass next
      rw [read] at hlines
      obtain ⟨_, _, hread, hkind, hpass₁⟩ := hlines.exists_error
      refine ⟨_, _, .refused hnext hread, PassResult.folded_eq hpass₁ hlib₁ ?_⟩
      exact congrArg (fun kind => some (Error.mk kind _)) hkind
  | unopened next read inclusion =>
      obtain ⟨_, _, hnext, hlib₁, hlines⟩ := exists_line_recased hlib hp hpass next
      rw [read] at hlines
      obtain ⟨_, hread, -, hpass₁⟩ := hlines.exists_ok
      obtain ⟨_, hinclusion, hlib₂⟩ := hlib₁.exists_includeFile hdisk inclusion
      exact ⟨_, _, .unopened hnext hread hinclusion,
        PassResult.folded_eq hpass₁ hlib₂ rfl⟩
  | line next read goes _ ih =>
      obtain ⟨_, _, hnext, hlib₁, hlines⟩ := exists_line_recased hlib hp hpass next
      rw [read] at hlines
      obtain ⟨_, hread, hp₁, hpass₁⟩ := hlines.exists_ok
      obtain ⟨_, hgoes, hlib₂⟩ := hlib₁.goes hdisk goes
      obtain ⟨_, _, hruns, hfolded⟩ := ih hlib₂ hp₁ hpass₁
      exact ⟨_, _, .line hnext hread hgoes hruns, hfolded⟩

private theorem runPass_recased (hdisk : d.Recased d') (hlib : lib.Recased lib')
    (hp : p.Insensitive) (hpass : p'.folded = p.folded) :
    (runPass d' root lib' p').folded = (runPass d root lib p).folded := by
  obtain ⟨_, hpasses⟩ := exists_passes d root lib p
  generalize runPass d root lib p = r at hpasses ⊢
  cases hpasses with
  | unopened start =>
      obtain ⟨_, hstart, hlib₁⟩ := hlib.exists_start hdisk start
      rw [(Passes.unopened hstart).eq_runPass]
      exact PassResult.folded_eq hpass hlib₁ rfl
  | opened start runs =>
      obtain ⟨_, hstart, hlib₁⟩ := hlib.exists_start hdisk start
      obtain ⟨_, _, hruns, hfolded⟩ := runs.recased hdisk hlib₁ hp hpass
      rw [(Passes.opened hstart hruns).eq_runPass, hfolded]

/-- Nothing tells the results of two assemblies apart but the case in which warnings quote
names. What is asked of them may differ in case, too. -/
structure Recased (asm asm' : Assembly) : Prop where
  listing : asm'.listing = asm.listing
  symbols : asm'.symbols = asm.symbols
  scopes : asm'.scopes = asm.scopes
  lineMap : asm'.lineMap = asm.lineMap
  breakpoints : asm'.breakpoints = asm.breakpoints
  entry? : asm'.entry? = asm.entry?
  warnings : asm'.warnings.map Warning.folded = asm.warnings.map Warning.folded
  lookup? : ∀ {name name' : String}, name'.toLower = name.toLower →
    asm'.lookup? name' = asm.lookup? name
  complete : ∀ {start start' : String} (file : FileId) (line : Nat), start'.toLower =
    start.toLower →
    asm'.complete file line start' = asm.complete file line start

/-- Both programs are accepted, or both are refused at the same place for the same reason,
but for the case in which it quotes the program. -/
inductive SameOutcome : Except Error Assembly → Except Error Assembly → Prop
  | accepted {asm asm' : Assembly} (result : asm.Recased asm') :
    SameOutcome (.ok asm) (.ok asm')
  | refused {e e' : Error} (location : e'.location? = e.location?)
      (kind : e'.kind.folded = e.kind.folded) : SameOutcome (.error e) (.error e')

private theorem exists_sameOutcome {e : Error} {error'? : Option Error}
    (h : error'?.map Error.folded = some e.folded) :
    ∃ e', error'? = some e' ∧ SameOutcome (.error e) (.error e') := by
  obtain ⟨e', herror, hsame⟩ := Option.map_eq_some_iff.1 h
  obtain ⟨hkind, hlocation⟩ := Error.mk.inj hsame
  exact ⟨e', herror, .refused hlocation hkind⟩

private theorem recased_ofPass (hp : p.Insensitive) (hpass : p'.folded = p.folded) :
    (ofPass p).Recased (ofPass p') := by
  obtain ⟨warnings, rfl, hwarnings⟩ := Pass.exists_of_folded_eq hpass
  have hkey : ∀ {name name' : String}, name'.toLower = name.toLower →
      (ofPass p).key name' = (ofPass p).key name := by
    intro name name' h
    have hcase : (ofPass p).caseSensitive = false := hp
    unfold key
    rw [hcase]
    exact h
  refine ⟨rfl, rfl, rfl, rfl, rfl, rfl, hwarnings, fun h => ?_, fun file line h => ?_⟩
  · exact congrArg (fun key => ((ofPass p).symbols.value? key).map (·.toUInt32.toUInt16))
      (hkey h)
  · exact congrArg ((ofPass p).symbols.complete ((ofPass p).scopeAt? file line)) (hkey h)

end Breadboard.Assembly

namespace Breadboard.Assembler

open Assembly

/-- The same sources under the same names, but for the case of letters outside of
literals. -/
structure Recased (a a' : Assembler) : Prop where
  flags : a'.flags = a.flags
  library : a.library.Recased a'.library

variable {a a' : Assembler} {d d' : Disk}

theorem Recased.refl (a : Assembler) : a.Recased a :=
  ⟨rfl, rfl⟩

theorem Recased.addText (h : a.Recased a') (name : String) {text text' : String}
    (htext : DifferInCase .code text.toList text'.toList) :
    (a'.addText name text').1 = (a.addText name text).1 ∧
      (a.addText name text).2.Recased (a'.addText name text').2 := by
  obtain ⟨hfile, hlibrary⟩ := h.library.addText name (uncased_eq_iff.2 htext)
  exact ⟨hfile, h.flags, hlibrary⟩

theorem Recased.addFile (h : a.Recased a') (hdisk : d.Recased d') (path : Path) :
    (a'.addFile d' path).1 = (a.addFile d path).1 ∧
      (a.addFile d path).2.Recased (a'.addFile d' path).2 := by
  obtain ⟨hfile, hlibrary⟩ := h.library.addFile hdisk path
  exact ⟨hfile, h.flags, hlibrary⟩

theorem Recased.firstPass (h : a.Recased a') (hdisk : d.Recased d')
    (hinsensitive : a.flags.caseSensitive = false) (root : FileId) :
    (a'.firstPass d' root).folded = (a.firstPass d root).folded := by
  have hprepared : a.prepared.Recased a'.prepared := by
    unfold prepared
    rw [h.flags]
    exact congrArg (fun lib : Library => { lib with searchDirs := a.flags.includeDirs })
      h.library
  unfold Assembler.firstPass
  rw [h.flags]
  exact runPass_recased hdisk hprepared hinsensitive rfl

theorem Recased.secondPass (h : a.Recased a') (hdisk : d.Recased d')
    (hinsensitive : a.flags.caseSensitive = false) (root : FileId)
    (hfirst : (a.firstPass d root).error? = none) :
    (Assembler.secondPass d' root (a'.firstPass d' root)).folded =
      (Assembler.secondPass d root (a.firstPass d root)).folded := by
  have hpasses := h.firstPass hdisk hinsensitive root
  have hpass : (a'.firstPass d' root).pass.folded = (a.firstPass d root).pass.folded :=
    (PassResult.mk.inj hpasses).1
  have hlibrary : (a.firstPass d root).library.Recased (a'.firstPass d' root).library :=
    (PassResult.mk.inj hpasses).2.1
  have hnext : (a.firstPass d root).pass.next.Insensitive :=
    (congrArg Flags.caseSensitive (flags_firstPass hfirst)).trans hinsensitive
  refine runPass_recased hdisk hlibrary hnext ?_
  obtain ⟨_, hsame, -⟩ := Pass.exists_of_folded_eq hpass
  rw [hsame]
  rfl

private theorem flags_secondPass {root : FileId}
    (hfirst : (a.firstPass d root).error? = none)
    (hsecond : (Assembler.secondPass d root (a.firstPass d root)).error? = none) :
    (Assembler.secondPass d root (a.firstPass d root)).pass.flags = a.flags := by
  obtain ⟨_, -, hreads⟩ := reads_of_runPass rfl hsecond
  exact (preserved_flags a.flags).reads hreads (flags_firstPass hfirst)

/-- Where names are not case-sensitive, the case of letters outside of literals makes no
difference to what assembly places in memory, to what it tells of the program, and to
whether and where it fails. -/
theorem assemble_recased (hinsensitive : a.flags.caseSensitive = false) (h : a.Recased a')
    (hdisk : d.Recased d') (root : FileId) (m : Memory) :
    SameOutcome (a.assemble d root m).1 (a'.assemble d' root m).1 ∧
      (a.assemble d root m).2.1.Recased (a'.assemble d' root m).2.1 ∧
      (a'.assemble d' root m).2.2 = (a.assemble d root m).2.2 := by
  have hfirst := PassResult.mk.inj (h.firstPass hdisk hinsensitive root)
  have hsecond := h.secondPass hdisk hinsensitive root
  obtain ⟨-, hlibrary, herror⟩ := hfirst
  unfold assemble
  dsimp only
  cases hfails : (a.firstPass d root).error? with
  | some e =>
      rw [hfails] at herror
      obtain ⟨e', hfails', houtcome⟩ := exists_sameOutcome herror
      rw [hfails']
      exact ⟨houtcome, ⟨h.flags, congrArg Library.reset hlibrary⟩, rfl⟩
  | none =>
      rw [hfails] at herror
      rw [Option.map_eq_none_iff.1 herror]
      obtain ⟨hpass, hlibrary₂, herror₂⟩ := PassResult.mk.inj (hsecond hfails)
      obtain ⟨_, hsame, -⟩ := Pass.exists_of_folded_eq hpass
      dsimp only
      refine ⟨?_, ⟨h.flags, congrArg Library.reset hlibrary₂⟩, ?_⟩
      · cases hfails₂ : (Assembler.secondPass d root (a.firstPass d root)).error? with
        | some e =>
            rw [hfails₂] at herror₂
            obtain ⟨e', hfails₂', houtcome⟩ := exists_sameOutcome herror₂
            rw [hfails₂']
            exact houtcome
        | none =>
            rw [hfails₂] at herror₂
            rw [Option.map_eq_none_iff.1 herror₂]
            have hflags := flags_secondPass hfails hfails₂
            have hfinal :
                (Assembler.secondPass d root (a.firstPass d root)).pass.Insensitive :=
              (congrArg Flags.caseSensitive hflags).trans hinsensitive
            exact .accepted (recased_ofPass hfinal hpass)
      · rw [hsame]

def shouting : Assembler :=
  (addText { flags := { caseSensitive := false } } "echo"
    ("\n".intercalate
      ["LOOP: LDX #$0A", ".WAIT DEX ; \"AGAIN\"", "  BNE .WAIT",
        "  .BYTE 'A', \"Ab\""])).2

def whispering : Assembler :=
  (addText { flags := { caseSensitive := false } } "echo"
    ("\n".intercalate
      ["Loop: ldx #$0a", ".wait dex ; \"again\"", "  bne .Wait",
        "  .byte 'A', \"Ab\""])).2

theorem assemble_recased_shouting :
    shouting.flags.caseSensitive = false ∧ shouting.Recased whispering ∧
      SameOutcome (shouting.assemble .empty 0 (.filled 0)).1
        (whispering.assemble .empty 0 (.filled 0)).1 ∧
      (shouting.assemble .empty 0 (.filled 0)).2.1.Recased
        (whispering.assemble .empty 0 (.filled 0)).2.1 ∧
      (whispering.assemble .empty 0 (.filled 0)).2.2 =
        (shouting.assemble .empty 0 (.filled 0)).2.2 := by
  have hrecased : shouting.Recased whispering :=
    ((Recased.refl _).addText "echo" (uncased_eq_iff.1 (by decide +kernel))).2
  exact ⟨rfl, hrecased, assemble_recased rfl hrecased (.refl .empty) 0 (.filled 0)⟩

end Breadboard.Assembler
