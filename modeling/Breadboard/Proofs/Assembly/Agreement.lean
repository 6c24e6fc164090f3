import Breadboard.Proofs.Assembly.Complaint
import Breadboard.Proofs.Assembly.Lockstep
import Breadboard.Proofs.Source.Order
import Breadboard.Proofs.Symbol.Scopes

namespace Breadboard.Assembly

variable {p p' q q' : Pass}

theorem Move.flags_scopes (h : Move p p') :
    p'.flags = p.flags ∧ p'.scopes = p.scopes := by
  cases h with
  | refer | assign | operand | place => exact ⟨rfl, rfl⟩
  | markInstruction =>
      rw [p.markInstruction_eq]
      exact ⟨rfl, rfl⟩
  | moveTo value =>
      rw [p.moveTo_eq]
      exact ⟨rfl, rfl⟩
  | markBreakpoint =>
      rw [p.markBreakpoint_eq]
      exact ⟨rfl, rfl⟩
  | warnIf condition =>
      rw [p.warnIf_eq]
      exact ⟨rfl, rfl⟩

theorem Update.flags_scopes (h : Update p p') :
    p'.flags = p.flags ∧ p'.scopes = p.scopes := by
  cases h with
  | move h => exact h.flags_scopes
  | define name value =>
      rw [p.define_eq]
      exact ⟨rfl, rfl⟩

private theorem scopes_of_updates (h : Updates p p') : p'.scopes = p.scopes := by
  induction h with
  | refl => rfl
  | tail _ hlast ih => exact hlast.flags_scopes.2.trans ih

def Beginning.scope? (b : Beginning) : Option String :=
  b.label?.filter (!isLocalName ·)

theorem scopes_defineLabel_of_local {name : String} (h : isLocalName name = true)
    (p : Pass) :
    (p.defineLabel name).scopes = p.scopes := by
  unfold Pass.defineLabel
  dsimp only
  rw [if_pos h, Pass.define_eq, p.warnIf_eq]

theorem defineLabel_eq {name : String} (h : isLocalName name = false) (p : Pass) :
    p.defineLabel name = (p.openScope (p.normalize name)).define (p.normalize name)
      (Int32.ofNat p.address.toNat) .label := by
  unfold Pass.defineLabel
  dsimp only
  rw [if_neg (by simp [h])]

theorem scopes_labelled (p : Pass) (b : Beginning) :
    (labelled p b).scopes = match b.scope? with
      | none => p.scopes
      | some name => p.scopes.enter p.line.file p.line.line (p.normalize name) := by
  unfold labelled Beginning.scope?
  cases b.label? with
  | none => rfl
  | some name =>
      cases h : isLocalName name with
      | true =>
          rw [Option.filter_some_neg (by simp [h])]
          exact scopes_defineLabel_of_local h p
      | false =>
          rw [Option.filter_some_pos (by simp [h])]
          change (p.defineLabel name).scopes = _
          rw [defineLabel_eq h, Pass.define_eq]
          rfl

theorem Abreast.enterLine (h : Abreast p q) {l : Location}
    (hscope : q.scopes.at? l.file l.line = p.scopes.at? l.file l.line) :
    Abreast (p.enterLine l) (q.enterLine l) := by
  refine ⟨h.first, h.second, h.flags, rfl, hscope, h.address, ?_, h.symbols⟩
  change layoutOf (q.listing.push ⟨l, .visit q.address⟩).toList =
    layoutOf (p.listing.push ⟨l, .visit p.address⟩).toList
  rw [layout_push, layout_push, h.layout, h.address]

private theorem Abreast.defineLabel_of_local (h : Abreast p q) {name : String}
    (hname : isLocalName name = true) :
    Abreast (p.defineLabel name) (q.defineLabel name) := by
  have hwarn := h.idle (.warnIf p p.scope.isNone (.localOutsideScope name))
    (.warnIf q q.scope.isNone (.localOutsideScope name))
  unfold Pass.defineLabel
  dsimp only
  rw [if_pos hname, if_pos hname, hwarn.qualify_eq, h.address]
  exact hwarn.define _ _ .label

private theorem Abreast.enterLine_defineLabel (h : Abreast p q) (l : Location)
    {name : String} (hname : isLocalName name = false) :
    Abreast ((p.enterLine l).defineLabel name) ((q.enterLine l).defineLabel name) := by
  have hnormalize : (q.enterLine l).normalize name = (p.enterLine l).normalize name :=
    h.normalize_eq name
  have haddress : (q.enterLine l).address = (p.enterLine l).address := h.address
  rw [defineLabel_eq hname, defineLabel_eq hname, hnormalize, haddress]
  refine Abreast.define ?_ _ _ .label
  refine ⟨h.first, h.second, h.flags, rfl, rfl, h.address, ?_, h.symbols⟩
  change layoutOf (q.listing.push ⟨l, .visit q.address⟩).toList =
    layoutOf (p.listing.push ⟨l, .visit p.address⟩).toList
  rw [layout_push, layout_push, h.layout, h.address]

theorem Abreast.labelled (h : Abreast p q) {l : Location} {b : Beginning}
    (hscope : b.scope? = none → q.scopes.at? l.file l.line = p.scopes.at? l.file l.line) :
    Abreast (Assembly.labelled (p.enterLine l) b)
      (Assembly.labelled (q.enterLine l) b) := by
  unfold Beginning.scope? at hscope
  unfold Assembly.labelled
  cases hlabel : b.label? with
  | none =>
      rw [hlabel] at hscope
      exact h.enterLine (hscope rfl)
  | some name =>
      rw [hlabel] at hscope
      cases hname : isLocalName name with
      | true => exact (h.enterLine (hscope (by simp [hname]))).defineLabel_of_local hname
      | false => exact h.enterLine_defineLabel l hname

theorem scopes_of_assembleLine {l : Location} {text : String} {file? : Option String}
    (h : assembleLine l text p = .ok file? p') :
    ∃ b, beginning (.ofString text) = .ok b ∧
      p'.scopes = match b.scope? with
        | none => p.scopes
        | some name => p.scopes.enter l.file l.line (p.normalize name) := by
  obtain ⟨b, hbeginning, hrest⟩ := exists_of_assembleLine h
  refine ⟨b, hbeginning, ?_⟩
  rw [scopes_of_updates (updates_of_afterLabel hrest), scopes_labelled]
  rfl

open Scopes in
theorem Abreast.assembleLine (h : Abreast p q) {l : Location} {text : String}
    {file? file?' : Option String} {final : Scopes}
    (hp : Assembly.assembleLine l text p = .ok file? p')
    (hq : Assembly.assembleLine l text q = .ok file?' q')
    (hkept : Kept l.file (l.line + 1) p'.scopes final)
    (hfinal : ∀ file, q.scopes.openings file = final.openings file)
    (hsure : Sure p'.listing.toList) :
    file?' = file? ∧ Abreast p' q' ∧ ∀ file, q'.scopes.openings file =
      final.openings file := by
  obtain ⟨b, hbeginning, hrest⟩ := exists_of_assembleLine hp
  obtain ⟨b', hbeginning', hrest'⟩ := exists_of_assembleLine hq
  cases hbeginning.symm.trans hbeginning'
  obtain ⟨_, hbeginning', hscopes⟩ := scopes_of_assembleLine hp
  cases hbeginning.symm.trans hbeginning'
  obtain ⟨_, hbeginning', hscopes'⟩ := scopes_of_assembleLine hq
  cases hbeginning.symm.trans hbeginning'
  have hat : b.scope? = none →
    q.scopes.at? l.file l.line = p.scopes.at? l.file l.line := by
    intro hnone
    rw [hnone] at hscopes
    have hline := hkept.scope l.line (Nat.lt_succ_self _)
    rw [hscopes] at hline
    unfold Scopes.at? at hline ⊢
    rw [hfinal, hline]
  obtain ⟨hfile, hafter⟩ := (h.labelled hat).afterLabel hrest hrest' hsure
  refine ⟨hfile, hafter, fun file => ?_⟩
  cases hopens : b.scope? with
  | none =>
      rw [hopens] at hscopes'
      rw [hscopes']
      exact hfinal file
  | some name =>
      rw [hopens] at hscopes hscopes'
      dsimp only at hscopes hscopes'
      have hopen : final.IsOpen l.file l.line (p.normalize name) := by
        refine hkept.opened l.line (Nat.lt_succ_self _) _ ?_
        rw [hscopes]
        exact isOpen_enter _ _ _ _
      have hopen' : q.scopes.IsOpen l.file l.line (p.normalize name) := by
        unfold Scopes.IsOpen
        rw [hfinal]
        exact hopen
      rw [hscopes', h.normalize_eq, hopen'.openings_enter]
      exact hfinal file

variable {d : Disk} {lib lib' lib₁ lib₁' lib₂ lib₂' : Library}

theorem grown_of_reads (h : Reads d lib p lib' p') : lib.Grown d lib' := by
  induction h with
  | done next => exact Library.grown_of_next next
  | line next _ goes _ ih =>
    exact (Library.grown_of_next next).trans (goes.grown.trans ih)

private theorem preserved_start (entries : List ListingEntry) :
    Preserved (entries <+: ·.listing.toList) := by
  refine preserved_of_quiet (fun hquiet h => h.trans hquiet.listing)
    fun {p} key value kind h => ?_
  rw [p.define_eq]
  exact h.trans ⟨_, Array.toList_push.symm⟩

theorem listing_of_reads (h : Reads d lib p lib' p') :
    p.listing.toList <+: p'.listing.toList :=
  (preserved_start _).reads h List.prefix_rfl

open Scopes in
private theorem kept_of_assembleLine {l : Location} {text : String}
    {file? : Option String} {file : FileId} {n : Nat}
    (h : assembleLine l text p = .ok file? p') (hline : l.file = file → n ≤ l.line) :
    Kept file n p.scopes p'.scopes := by
  obtain ⟨b, -, hscopes⟩ := scopes_of_assembleLine h
  rw [hscopes]
  cases b.scope? with
  | none => exact .refl file n _
  | some name => exact kept_enter hline _ _

open Scopes in
theorem kept_of_reads {file : FileId} {n : Nat} (h : Reads d lib p lib' p')
    (hahead : lib.Ahead file n) : Kept file n p.scopes p'.scopes := by
  induction h with
  | done => exact .refl file n _
  | line next read goes _ ih =>
      have hline := kept_of_assembleLine read (hahead.le next)
      exact hline.trans (ih (goes.ahead (hahead.next next)))

private theorem abreast_of_reads (h : Reads d lib₁ p lib₁' p')
    (h' : Reads d lib₂ q lib₂' q') (htwin : lib₁.Twin d lib₂)
    (hregistered : lib₁.Registered) (horderly : lib₁.Orderly)
    (hfuture : lib₁'.Grown d lib₂) (habreast : Abreast p q)
    (hfinal : ∀ file, q.scopes.openings file = p'.scopes.openings file)
    (hsure : Sure p'.listing.toList) : Abreast p' q' := by
  induction h generalizing lib₂ q with
  | done next =>
      obtain ⟨hnext, -⟩ := htwin.next hregistered
      rw [next] at hnext
      cases h' with
      | done => exact habreast
      | line next' =>
          rw [next'] at hnext
          cases hnext
  | line next read goes rest ih =>
      obtain ⟨hnext, htwin₁⟩ := htwin.next hregistered
      have hregistered₁ := hregistered.of_next next
      rw [next] at hnext htwin₁
      cases h' with
      | done next' =>
          rw [next'] at hnext
          cases hnext
      | line next' read' goes' rest' =>
          have hfuture₁ := hfuture.trans (Library.grown_of_next next')
          rw [next'] at hnext htwin₁
          cases hnext
          -- The scopes of this line are final in the first pass, so the second pass has
          -- them already.
          have hkept := kept_of_reads rest (goes.ahead (horderly.ahead next))
          obtain ⟨rfl, habreast₁, hfinal₁⟩ :=
            habreast.assembleLine read read' hkept hfinal
            (hsure.of_start (listing_of_reads rest))
          obtain ⟨_, hgoes, htwin₂⟩ :=
            htwin₁.goes hregistered₁ goes ((grown_of_reads rest).trans hfuture₁)
          cases hgoes.unique goes'
          exact ih rest' htwin₂ (goes.registered hregistered₁)
            (goes.orderly (horderly.next next))
            (hfuture₁.trans goes'.grown) habreast₁ hfinal₁ hsure

theorem preserved_flags (flags : Flags) : Preserved (·.flags = flags) where
  enterLine _ h := h
  defineLabel {p} name h := by
    unfold Pass.defineLabel
    dsimp only
    split
    · rw [Pass.define_eq, p.warnIf_eq]
      exact h
    · rw [Pass.define_eq]
      exact h
  update hupdate h := hupdate.flags_scopes.1.trans h

def Event.redefinesBuiltin : Event → Bool
  | .define key _ _ => (builtins.value? key).isSome
  | _ => false

def SparesBuiltins (entries : List ListingEntry) : Prop :=
  ∀ e ∈ entries, e.event.redefinesBuiltin = false

instance (entries : List ListingEntry) : Decidable (SparesBuiltins entries) :=
  inferInstanceAs (Decidable (∀ e ∈ entries, _))

private theorem value?_of_sparesBuiltins {p : Pass} (hrecorded : Recorded builtins p)
    (hspares : SparesBuiltins p.listing.toList) {key : String} {value : Int32}
    (hvalue : builtins.value? key = some value) : p.symbols.value? key = some value := by
  have hnone : definitions key p.listing.toList = [] := by
    refine List.eq_nil_iff_forall_not_mem.2 fun x hx => ?_
    obtain ⟨e, he, hevent⟩ := exists_of_mem_definitions hx
    have hspared := hspares e he
    rw [hevent, Event.redefinesBuiltin, hvalue] at hspared
    cases hspared
  rw [hrecorded.symbols, valueAfter, hnone]
  exact hvalue

end Breadboard.Assembly

namespace Breadboard.Assembler

open Assembly

variable {a : Assembler} {d : Disk} {root : FileId} {m : Memory} {asm : Assembly}

private theorem abreast_passes (hfirst : (a.firstPass d root).error? = none)
    (hsecond : (secondPass d root (a.firstPass d root)).error? = none)
    (hsure : Sure (a.firstPass d root).pass.listing.toList)
    (hspares : SparesBuiltins (a.firstPass d root).pass.listing.toList) :
    Abreast (a.firstPass d root).pass (secondPass d root (a.firstPass d root)).pass := by
  obtain ⟨lib₁, hstart, hreads⟩ := reads_of_runPass rfl hfirst
  obtain ⟨lib₂, hstart', hreads'⟩ := reads_of_runPass rfl hsecond
  obtain ⟨lib₂', hstart'', htwin⟩ := Library.twin_start hstart (grown_of_reads hreads)
  cases hstart'.symm.trans hstart''
  have hflags : (a.firstPass d root).pass.flags = a.flags :=
    (preserved_flags a.flags).reads hreads rfl
  have hbegin : Abreast (.initial a.flags) (a.firstPass d root).pass.next := by
    refine ⟨rfl, rfl, hflags, rfl, rfl, congrArg Flags.defaultOrigin hflags, rfl, ?_⟩
    exact value?_of_sparesBuiltins
      ((preserved_recorded builtins).reads hreads (recorded_of_empty rfl rfl rfl)) hspares
  exact abreast_of_reads hreads hreads' htwin (Library.registered_start hstart)
    (Library.orderly_start hstart) (Library.grown_start hstart') hbegin
      (fun _ => rfl) hsure

/-- Where the first pass had nothing to guess, the second one visits the same lines at the
same addresses and gives every symbol the same values, so that no label has moved. -/
theorem layout_of_assemble (h : (a.assemble d root m).1 = .ok asm)
    (hsure : Sure (a.firstPass d root).pass.listing.toList)
    (hspares : SparesBuiltins (a.firstPass d root).pass.listing.toList) :
    layoutOf asm.listing.toList = layoutOf (a.firstPass d root).pass.listing.toList ∧
      ∀ w ∈ asm.warnings, ∀ key old value, w.kind ≠ .phaseDrift key old value := by
  obtain ⟨hfirst, hsecond, rfl⟩ := assemble_eq_ok_iff.1 h
  have habreast := abreast_passes hfirst hsecond hsure hspares
  refine ⟨habreast.layout, fun w hw key old value hkind => ?_⟩
  obtain ⟨hhead, hold, hne⟩ :=
    ((vetted_secondPass hsecond).drift key old value).2 ⟨w, hw, hkind⟩
  have hsame : definitions key
    (secondPass d root (a.firstPass d root)).pass.listing.toList =
      definitions key (a.firstPass d root).pass.listing.toList := by
    rw [← definitions_layoutOf, habreast.layout, definitions_layoutOf]
  rw [hsame] at hhead
  rw [(firstValued_firstPass hfirst).firstValues, hhead] at hold
  exact hne (Option.some.inj hold).symm

/-- A program that jumps forward, which is three bytes wherever it goes. -/
def jumping : Assembler :=
  (addText {} "jumping" ("\n".intercalate
    ["start:", "  JMP .end", "  .word start, last", ".end:", "last = * - start"])).2

theorem layout_of_assemble_jumping :
    ∃ asm, (jumping.assemble {} 0 (.filled 0)).1 = .ok asm ∧
    Sure (jumping.firstPass {} 0).pass.listing.toList ∧
      SparesBuiltins (jumping.firstPass {} 0).pass.listing.toList ∧
        layoutOf asm.listing.toList =
          layoutOf (jumping.firstPass {} 0).pass.listing.toList ∧
          ∀ w ∈ asm.warnings, ∀ key old value, w.kind ≠ .phaseDrift key old value := by
  have hassembled : (jumping.assemble {} 0 (.filled 0)).1.toOption.isSome ∧
      Sure (jumping.firstPass {} 0).pass.listing.toList ∧
        SparesBuiltins (jumping.firstPass {} 0).pass.listing.toList := by
    decide +kernel
  obtain ⟨hok, hsure, hspares⟩ := hassembled
  obtain ⟨asm, hasm⟩ := Option.isSome_iff_exists.1 hok
  have h := eq_ok_of_toOption hasm
  exact ⟨asm, h, hsure, hspares, layout_of_assemble h hsure hspares⟩

end Breadboard.Assembler
