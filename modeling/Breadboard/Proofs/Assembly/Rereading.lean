import Breadboard.Proofs.Assembly.Naming
import Breadboard.Proofs.Assembly.Tabled

namespace Breadboard.Assembly

open Read

variable {d : Disk} {lib₁ lib₂ : Library} {p p' q q' : Pass} {l : Location}
    {text key name : String} {file? file?' : Option String} {b : Beginning}
    {lines reread : List (Location × String)} {r r' : PassResult} {e : ListingEntry}
    {kind : SymbolKind}

/-! What a line defines. -/

/-- The name that a line defines, as a label or by an assignment. -/
def Beginning.defined? : Beginning → Option (String × SymbolKind)
  | .label name _ | .bareLabel name _ => some (name, .label)
  | .assignment name _ => some (name, .value)
  | _ => none

/-- A line that begins in this way defines the symbol, if it defines anything. -/
def Beginning.Defines (b : Beginning) (p : Pass) (key : String) (kind : SymbolKind) :
    Prop :=
  ∃ name, b.defined? = some (name, kind) ∧ p.qualify name = key

theorem definitions_of_moves (h : Moves p p') (key : String) :
    definitions key p'.listing.toList = definitions key p.listing.toList :=
  (quiet_of_moves h).definitions key

private theorem definitions_labelled (hlabel : b.label? = some name) (p : Pass)
    (key : String) :
    definitions key (labelled p b).listing.toList = definitions key p.listing.toList ++
      if (labelled p b).qualify name = key then [(Int32.ofNat p.address.toNat, .label)]
        else [] := by
  rw [(labels_labelled hlabel p).listing, definitions_append]
  split
  · rename_i hkey
    rw [hkey, definitions_define]
  · rename_i hkey
    rw [definitions_define_ne hkey]

private theorem definitions_of_assignment {line : Line}
    (h : assignment name line p = .ok () p') (key : String) : ∃ added,
      definitions key p'.listing.toList = definitions key p.listing.toList ++ added ∧
        (∀ x ∈ added, x.2 = .value ∧ p'.qualify name = key) ∧
        (p.round = .second → p'.qualify name = key → added ≠ []) := by
  obtain ⟨v, rest, p₁, hvalue, rfl⟩ := exists_of_assignment h
  have hrecorded :=
    definitions_of_moves ((does_value line _ _ _ hvalue).tail (.assign p₁ v)) key
  cases v with
  | undefined =>
      refine ⟨[], by rw [hrecorded, List.append_nil], fun _ => nofun, fun hround => ?_⟩
      obtain ⟨r, heval, hresult, -⟩ := value_eq_ok_iff.1 hvalue
      obtain ⟨v, hv⟩ := exists_known_of_evalOperand hround heval
      cases (congrArg Prod.fst hresult).trans hv
  | known v =>
      have hqualify :
          ((p₁.record (.assign (.known v))).define (p₁.qualify name) v .value).qualify
            name = p₁.qualify name := by
        rw [Pass.define_eq]
        exact qualify_congr rfl rfl name
      dsimp only
      rw [hqualify]
      refine ⟨_, by rw [definitions_listing_define, hrecorded], fun x hx => ?_,
        fun _ hkey => ?_⟩
      · split at hx
        · rename_i hkey
          cases List.mem_singleton.1 hx
          exact ⟨rfl, hkey⟩
        · cases hx
      · rw [if_pos hkey]
        exact List.cons_ne_nil _ _

theorem exists_tells_of_assembleLine (h : assembleLine l text p = .ok file? p') :
    ∃ b, beginning (.ofString text) = .ok b ∧ b.Admitted p.flags ∧ Tells p l text b ∧
      afterLabel (.ofString text) b (labelled (p.enterLine l) b) = .ok file? p' := by
  obtain ⟨_, _, hmodify, hline⟩ := bind_eq_ok_iff.1 h
  cases hmodify
  obtain ⟨b, hbeginning, hrest⟩ := exists_of_readLine hline
  have hadmitted := admitted_of_readLine (p := p.enterLine l) hbeginning hline
  exact ⟨b, hbeginning, hadmitted, tells_of_beginning hbeginning hadmitted, hrest⟩

/-- What a line added to the definitions of a symbol is what it names, and in the second
pass it is all that it names. -/
structure Accounts (b : Beginning) (p p' : Pass) (key : String)
    (added : List (Int32 × SymbolKind)) :
    Prop where
  only : ∀ x ∈ added, b.Defines p' key x.2
  all : p.round = .second → ∀ kind, b.Defines p' key kind → ∃ x ∈ added, x.2 = kind

private theorem accounts_nil (h : b.defined? = none) : Accounts b p p' key [] := by
  refine ⟨fun _ => nofun, fun _ kind ⟨name, hname, _⟩ => ?_⟩
  cases h.symm.trans hname

private theorem accounts_label (h : b.defined? = some (name, .label)) (value : Int32) :
    Accounts b p p' key (if p'.qualify name = key then [(value, .label)] else []) := by
  constructor
  · intro x hx
    split at hx
    · rename_i hkey
      cases List.mem_singleton.1 hx
      exact ⟨name, h, hkey⟩
    · cases hx
  · rintro - kind ⟨_, hname, hkey⟩
    cases h.symm.trans hname
    rw [if_pos hkey]
    exact ⟨_, List.mem_cons_self, rfl⟩

/-- The line lemma: a line defines no symbol but the one that it names, and in the second
pass it does define that one. -/
theorem accounts_of_assembleLine (h : assembleLine l text p = .ok file? p')
    (hbeginning : beginning (.ofString text) = .ok b) (key : String) :
    Accounts b p p' key (definitions key (p.entriesOf l text)) := by
  obtain ⟨_, hbeginning', hadmitted, htells, hrest⟩ := exists_tells_of_assembleLine h
  cases hbeginning.symm.trans hbeginning'
  have hwithin := within_afterLine (l := l) hbeginning hadmitted
  have hlisting := htells.adds.listing
  rw [afterLine_of_ok h] at hlisting hwithin
  have hadded := congrArg (definitions key) hlisting
  rw [definitions_append, ← (Quiet.enterLine p l).definitions key] at hadded
  generalize definitions key (p.entriesOf l text) = added at hadded ⊢
  have hnothing : b.label? = none → b.defined? = none →
    Moves (labelled (p.enterLine l) b) p' →
      Accounts b p p' key added := by
    intro hnone hdefined hmoves
    rw [definitions_of_moves hmoves, labelled_of_none hnone] at hadded
    rw [List.append_right_eq_self.1 hadded.symm]
    exact accounts_nil hdefined
  have hlabel : ∀ name, b.label? = some name → b.defined? = some (name, .label) →
      Moves (labelled (p.enterLine l) b) p' → Accounts b p p' key added := by
    intro name hlabel hdefined hmoves
    rw [definitions_of_moves hmoves, definitions_labelled hlabel,
      ← qualify_congr hwithin.flags hwithin.scope] at hadded
    rw [← List.append_cancel_left hadded]
    exact accounts_label hdefined _
  cases b with
  | nothing =>
      cases hrest
      exact hnothing rfl rfl .refl
  | label name rest | bareLabel name rest =>
      exact hlabel name rfl rfl (does_statement rest _ _ _ hrest)
  | assignment name rest =>
      obtain ⟨_, _, hassignment, hpure⟩ := bind_eq_ok_iff.1 hrest
      cases hpure
      obtain ⟨added', hadded', honly, hall⟩ := definitions_of_assignment hassignment key
      rw [show labelled (p.enterLine l) (.assignment name rest) = p.enterLine l
        from rfl] at hadded'
      rw [List.append_cancel_left (hadded.symm.trans hadded')]
      constructor
      · intro x hx
        obtain ⟨hkind, hkey⟩ := honly x hx
        exact ⟨name, hkind ▸ rfl, hkey⟩
      · rintro hround kind ⟨_, ⟨⟩, hkey⟩
        obtain ⟨x, hx⟩ := List.exists_mem_of_ne_nil _ (hall hround hkey)
        exact ⟨x, hx, (honly x hx).1⟩
  | statement => exact hnothing rfl rfl (does_statement _ _ _ _ hrest)

/-! A line that is read again. -/

/-- The second pass, `q` before the line, retraces the first one, `p` before it: the line
has the scope that it has in the end, and names its symbols by it. -/
structure Retraces (final : Scopes) (p q : Pass) (l : Location) (text : String) :
    Prop where
  scope : (p.afterLine l text).scope = final.at? l.file l.line
  scope_again : (q.afterLine l text).scope = (p.afterLine l text).scope
  flags_again : (q.afterLine l text).flags = (p.afterLine l text).flags
  names : ∀ e ∈ p.entriesOf l text,
    e.location = l ∧ e.event.Names (Line.ofString text).tokens (p.afterLine l text)
  names_again : ∀ e ∈ q.entriesOf l text,
    e.location = l ∧ e.event.Names (Line.ofString text).tokens (q.afterLine l text)
  opens_again : ∀ e ∈ q.entriesOf l text, ∀ scope, e.event.scope? = some scope →
    (l.line, scope) ∈ final.openings l.file
  defines_again : ∀ file? q', assembleLine l text q = .ok file? q' →
    ∀ key, ∀ x ∈ definitions key (p.entriesOf l text),
      ∃ y ∈ definitions key (q.entriesOf l text), y.2 = x.2

open Scopes in
theorem isOpen_of_tells {final : Scopes} (htells : Tells p l text b)
    (hscope : b.scope? = some name)
    (hkept : Kept l.file (l.line + 1) (p.afterLine l text).scopes final) :
    final.IsOpen l.file l.line (p.normalize name) := by
  refine hkept.opened l.line (Nat.lt_succ_self _) _ ?_
  rw [htells.scopes, hscope]
  exact isOpen_enter _ _ _ _

open Scopes in
private theorem scope_of_tells {final : Scopes} (htells : Tells p l text b)
    (hkept : Kept l.file (l.line + 1) (p.afterLine l text).scopes final)
    (hfinal : final.Increasing) :
    (p.afterLine l text).scope = final.at? l.file l.line := by
  rw [htells.scope]
  cases hscope : b.scope? with
  | none =>
      rw [hkept.scope l.line (Nat.lt_succ_self _), htells.scopes, hscope]
      rfl
  | some name => exact ((isOpen_of_tells htells hscope hkept).at? hfinal).symm

theorem normalize_congr (h : q.flags = p.flags) (name : String) :
    q.normalize name = p.normalize name := by
  unfold Pass.normalize
  rw [h]

open Scopes in
private theorem openings_of_tells {final : Scopes} (hp : Tells p l text b)
    (hq : Tells q l text b) (hflags : q.flags = p.flags)
    (hkept : Kept l.file (l.line + 1) (p.afterLine l text).scopes final)
    (hopen : ∀ file, q.scopes.openings file = final.openings file) (file : FileId) :
    (q.afterLine l text).scopes.openings file = final.openings file := by
  rw [hq.scopes]
  cases hscope : b.scope? with
  | none => exact hopen file
  | some name =>
      have hopened : q.scopes.IsOpen l.file l.line (p.normalize name) := by
        unfold Scopes.IsOpen
        rw [hopen]
        exact isOpen_of_tells hp hscope hkept
      dsimp only
      rw [normalize_congr hflags, hopened.openings_enter]
      exact hopen file

open Scopes in
private theorem retraces_of_assembleLine {final : Scopes}
    (hp : assembleLine l text p = .ok file? p') (hflags : q.flags = p.flags)
    (hround : q.round = .second) (hkept : Kept l.file (l.line + 1) p'.scopes final)
    (hfinal : final.Increasing)
    (hopen : ∀ file, q.scopes.openings file = final.openings file) :
    Retraces final p q l text ∧
      ∀ file, (q.afterLine l text).scopes.openings file = final.openings file := by
  obtain ⟨b, hbeginning, hadmitted, htells, -⟩ := exists_tells_of_assembleLine hp
  have htells' : Tells q l text b := tells_of_beginning hbeginning (hflags ▸ hadmitted)
  rw [← afterLine_of_ok hp] at hkept
  have hopen' := openings_of_tells htells htells' hflags hkept hopen
  have hscope := scope_of_tells htells hkept hfinal
  have hkept' : Kept l.file (l.line + 1) (q.afterLine l text).scopes final :=
    .of_openings fun file => (hopen' file).symm
  have hscope' := scope_of_tells htells' hkept' hfinal
  have hflags' : (q.afterLine l text).flags = (p.afterLine l text).flags :=
    htells'.flags.trans (hflags.trans htells.flags.symm)
  refine ⟨⟨hscope, hscope'.trans hscope.symm, hflags', fun _ => names_of_mem_entriesOf,
    fun _ => names_of_mem_entriesOf, ?_, ?_⟩, hopen'⟩
  · intro e he scope hopens
    obtain ⟨name, hname, rfl⟩ :=
      Option.map_eq_some_iff.1 ((htells'.opens scope).1 ⟨e, he, hopens⟩)
    exact (isOpen_of_tells htells' hname hkept').mem
  · intro _ q' hq key x hx
    have hdefines := (accounts_of_assembleLine hp hbeginning key).only x hx
    refine (accounts_of_assembleLine hq hbeginning key).all hround x.2 ?_
    obtain ⟨name, hname, hkey⟩ := hdefines
    refine ⟨name, hname, ?_⟩
    rw [afterLine_of_ok hp] at hflags' hscope
    rw [afterLine_of_ok hq] at hflags' hscope'
    rw [qualify_congr hflags' (hscope'.trans hscope.symm), hkey]

/-! Lines that are read again. -/

def Pass.afterLines (p : Pass) (lines : List (Location × String)) : Pass :=
  lines.foldl (fun p line => p.afterLine line.1 line.2) p

theorem flags_afterLines (p : Pass) (lines : List (Location × String)) :
    (p.afterLines lines).flags = p.flags := by
  induction lines generalizing p with
  | nil => rfl
  | cons line lines ih => exact (ih _).trans (flags_afterLine p line.1 line.2)

theorem Runs.pass_eq (h : Runs d lib₁ p lines r) : r.pass = p.afterLines lines := by
  induction h with
  | done => rfl
  | refused _ read => exact (afterLine_of_error read).symm
  | unopened _ read _ => exact (afterLine_of_ok read).symm
  | line _ read _ _ ih =>
      change _ = Pass.afterLines (Pass.afterLine _ _ _) _
      rw [afterLine_of_ok read]
      exact ih

theorem preserved_round (round : Round) : Preserved (·.round = round) :=
  preserved_of_quiet (fun hquiet h => hquiet.round.trans h) fun {p} key value kind h => by
    rw [p.define_eq]
    exact h

/-- The lines that are read again are those that were read before, up to one that fails,
and each is retraced. -/
structure Retraced (final : Scopes) (p q : Pass)
    (lines reread : List (Location × String)) : Prop where
  lines : reread <+: lines
  retraces : ∀ before l text after, reread = before ++ (l, text) :: after →
    Retraces final (p.afterLines before) (q.afterLines before) l text

private theorem retraced_nil {final : Scopes} : Retraced final p q lines [] := by
  refine ⟨List.nil_prefix, fun before l text after hsplit => ?_⟩
  cases before <;> cases hsplit

theorem Retraced.cons {final : Scopes} (hline : Retraces final p q l text)
    (hrest : Retraced final (p.afterLine l text) (q.afterLine l text) lines reread) :
    Retraced final p q ((l, text) :: lines) ((l, text) :: reread) := by
  refine ⟨List.cons_prefix_cons.2 ⟨rfl, hrest.lines⟩,
    fun before l' text' after hsplit => ?_⟩
  cases before with
  | nil =>
      cases hsplit
      exact hline
  | cons first before =>
      cases hsplit
      exact hrest.retraces before l' text' after rfl

private theorem Runs.retraced (h : Runs d lib₁ p lines r) (h' : Runs d lib₂ q reread r')
    (hnone : r.error? = none) (htwin : lib₁.Twin d lib₂) (hregistered : lib₁.Registered)
    (horderly : lib₁.Orderly) (hfuture : r.library.Grown d lib₂)
    (hflags : q.flags = p.flags) (hround : q.round = .second)
    (hfinal : r.pass.scopes.Increasing)
    (hopen : ∀ file, q.scopes.openings file = r.pass.scopes.openings file) :
    Retraced r.pass.scopes p q lines reread ∧ (r'.error? = none → reread = lines) := by
  induction h generalizing lib₂ q reread with
  | refused | unopened => cases hnone
  | done next =>
      obtain ⟨hnext, -⟩ := htwin.next hregistered
      rw [next] at hnext
      cases h' with
      | done => exact ⟨retraced_nil, fun _ => rfl⟩
      | refused next' | unopened next' | line next' =>
          rw [next'] at hnext
          cases hnext
  | line next read goes rest ih =>
      obtain ⟨hnext, htwin₁⟩ := htwin.next hregistered
      rw [next] at hnext htwin₁
      -- The scopes of this line are final in the first pass, so the second pass has them
      -- already.
      have hkept := kept_of_reads (rest.reads hnone) (goes.ahead (horderly.ahead next))
      obtain ⟨hline, hopen₁⟩ :=
        retraces_of_assembleLine read hflags hround hkept hfinal hopen
      cases h' with
      | done next' =>
          rw [next'] at hnext
          cases hnext
      | refused next' | unopened next' =>
          rw [next'] at hnext
          cases hnext
          exact ⟨.cons hline retraced_nil, nofun⟩
      | line next' read' goes' rest' =>
          rw [next'] at hnext htwin₁
          cases hnext
          have hregistered₁ := hregistered.of_next next
          have hfuture₁ := hfuture.trans (Library.grown_of_next next')
          cases (included_of_assembleLine read).trans
            (included_of_assembleLine read').symm
          obtain ⟨_, hgoes, htwin₂⟩ :=
            htwin₁.goes hregistered₁ goes
              ((grown_of_reads (rest.reads hnone)).trans hfuture₁)
          cases hgoes.unique goes'
          have hflags₁ := hline.flags_again
          rw [afterLine_of_ok read, afterLine_of_ok read'] at hflags₁
          rw [afterLine_of_ok read'] at hopen₁
          obtain ⟨hrest, hall⟩ := ih rest' hnone htwin₂ (goes.registered hregistered₁)
            (goes.orderly (horderly.next next)) (hfuture₁.trans goes'.grown) hflags₁
            ((preserved_round .second).assembleLine read' hround) hfinal hopen₁
          rw [← afterLine_of_ok read, ← afterLine_of_ok read'] at hrest
          exact ⟨.cons hline hrest, fun hnone' => by rw [hall hnone']⟩

theorem mem_listing_afterLines : e ∈ (p.afterLines lines).listing.toList ↔
    e ∈ p.listing.toList ∨ ∃ before l text after, lines = before ++ (l, text) :: after ∧
      e ∈ (p.afterLines before).entriesOf l text := by
  induction lines generalizing p with
  | nil => simp [Pass.afterLines]
  | cons line lines ih =>
      obtain ⟨l, text⟩ := line
      change e ∈ ((p.afterLine l text).afterLines lines).listing.toList ↔ _
      rw [ih, (adds_afterLine p l text).listing, List.mem_append, or_assoc]
      refine or_congr .rfl ⟨?_, ?_⟩
      · rintro (hmem | ⟨before, l', text', after, rfl, hmem⟩)
        · exact ⟨[], l, text, lines, rfl, hmem⟩
        · exact ⟨(l, text) :: before, l', text', after, rfl, hmem⟩
      · rintro ⟨before, l', text', after, hsplit, hmem⟩
        cases before with
        | nil =>
            cases hsplit
            exact .inl hmem
        | cons first before =>
            cases hsplit
            exact .inr ⟨before, l', text', after, rfl, hmem⟩

theorem Passes.runs {root : FileId} (h : Passes d root lib₁ p lines r)
    (hstart : lib₁.start d root = (.ok (), lib₂)) : Runs d lib₂ p lines r := by
  cases h with
  | unopened start => cases hstart.symm.trans start
  | opened start runs =>
      cases hstart.symm.trans start
      exact runs

theorem Runs.exists_ok (h : Runs d lib₁ p lines r) (hnone : r.error? = none)
    {before after : List (Location × String)}
    (hsplit : lines = before ++ (l, text) :: after) :
    ∃ file? p', assembleLine l text (p.afterLines before) = .ok file? p' := by
  induction h generalizing before with
  | refused | unopened => cases hnone
  | done => cases before <;> cases hsplit
  | line _ read _ _ ih =>
      cases before with
      | nil =>
          cases hsplit
          exact ⟨_, _, read⟩
      | cons first before =>
          cases hsplit
          obtain ⟨file?, p', hread⟩ := ih hnone rfl
          rw [← afterLine_of_ok read] at hread
          exact ⟨file?, p', hread⟩

private theorem mem_definitions {value : Int32} {entries : List ListingEntry}
    (h : ⟨l, .define key value kind⟩ ∈ entries) :
    (value, kind) ∈ definitions key entries :=
  List.mem_filterMap.2 ⟨_, h, if_pos rfl⟩

private theorem Retraced.exists_define {final : Scopes}
    (h : Retraced final p q lines lines) (hruns : Runs d lib₂ q lines r')
    (hnone : r'.error? = none) {value : Int32}
    (hmem : ⟨l, .define key value kind⟩ ∈ (p.afterLines lines).listing.toList)
    (hstart : ∀ e ∈ p.listing.toList, e.event.isDefinition = false) :
    ∃ value', ⟨l, .define key value' kind⟩ ∈ r'.pass.listing.toList := by
  obtain hmem | ⟨before, l', text, after, hsplit, hmem⟩ := mem_listing_afterLines.1 hmem
  · cases hstart _ hmem
  · have hline := h.retraces before l' text after hsplit
    obtain ⟨rfl, -⟩ := hline.names _ hmem
    obtain ⟨file?, q', hread⟩ := hruns.exists_ok hnone hsplit
    obtain ⟨y, hy, hkind⟩ :=
      hline.defines_again file? q' hread key _ (mem_definitions hmem)
    obtain ⟨⟨l', _⟩, he, rfl⟩ := exists_of_mem_definitions hy
    obtain ⟨rfl, -⟩ := hline.names_again _ he
    rw [hkind] at he
    rw [hruns.pass_eq]
    exact ⟨y.1, mem_listing_afterLines.2 (.inr ⟨before, _, text, after, hsplit, he⟩)⟩

theorem preserved_increasing : Preserved (·.scopes.Increasing) where
  enterLine _ h := h
  defineLabel {p} name h := by
    cases hlocal : isLocalName name with
    | true =>
        rw [scopes_defineLabel_of_local hlocal]
        exact h
    | false =>
        rw [defineLabel_eq hlocal, Pass.define_eq]
        exact h.enter _ _ _
  update hupdate h := by
    rw [hupdate.flags_scopes.2]
    exact h

end Breadboard.Assembly

namespace Breadboard.Assembler

open Assembly

variable {a : Assembler} {d : Disk} {root : FileId}

theorem flags_firstPass (h : (a.firstPass d root).error? = none) :
    (a.firstPass d root).pass.flags = a.flags := by
  obtain ⟨_, -, hreads⟩ := reads_of_runPass rfl h
  exact (preserved_flags a.flags).reads hreads rfl

theorem exists_retraced (hfirst : (a.firstPass d root).error? = none) :
    ∃ lib lines reread,
      Passes d root a.prepared (.initial a.flags) lines (a.firstPass d root) ∧
        (a.firstPass d root).library.start d root = (.ok (), lib) ∧
        Runs d lib (a.firstPass d root).pass.next reread
          (secondPass d root (a.firstPass d root)) ∧
        Retraced (a.firstPass d root).pass.scopes (.initial a.flags)
          (a.firstPass d root).pass.next lines reread ∧
        ((secondPass d root (a.firstPass d root)).error? = none → reread = lines) := by
  obtain ⟨lib₁, lines, hstart, hruns⟩ := exists_runs_of_runPass rfl hfirst
  have hreads := hruns.reads hfirst
  obtain ⟨lib₂, hstart', htwin⟩ := Library.twin_start hstart (grown_of_reads hreads)
  obtain ⟨reread, hpasses'⟩ := exists_passes d root (a.firstPass d root).library
    (a.firstPass d root).pass.next
  have hruns' := hpasses'.runs hstart'
  have hfinal := preserved_increasing.reads hreads fun file => List.Pairwise.nil
  obtain ⟨hretraced, hcomplete⟩ :=
    hruns.retraced hruns' hfirst htwin (Library.registered_start hstart)
    (Library.orderly_start hstart) (Library.grown_start hstart')
      (flags_firstPass hfirst) rfl hfinal
    fun _ => rfl
  exact ⟨lib₂, lines, reread, .opened hstart hruns, hstart', hruns', hretraced, hcomplete⟩

/-- Whatever symbol the first pass defines, the second one defines on the same line. -/
theorem exists_define_of_passes (hfirst : (a.firstPass d root).error? = none)
    (hsecond : (secondPass d root (a.firstPass d root)).error? = none) {l : Location}
    {key : String} {value : Int32} {kind : SymbolKind}
    (hmem : ⟨l, .define key value kind⟩ ∈ (a.firstPass d root).pass.listing.toList) :
    ∃ value', ⟨l, .define key value' kind⟩ ∈
      (secondPass d root (a.firstPass d root)).pass.listing.toList := by
  obtain ⟨lib, lines, reread, hpasses, -, hruns, hretraced, hcomplete⟩ :=
    exists_retraced hfirst
  obtain rfl := hcomplete hsecond
  obtain ⟨_, hstart, hreads⟩ := reads_of_runPass rfl hfirst
  rw [(hpasses.runs hstart).pass_eq] at hmem
  exact hretraced.exists_define hruns hsecond hmem fun _ => nofun

theorem definitions_ne_nil_of_passes (hfirst : (a.firstPass d root).error? = none)
    (hsecond : (secondPass d root (a.firstPass d root)).error? = none) {key : String}
    (hdefs : definitions key (a.firstPass d root).pass.listing.toList ≠ []) :
    definitions key (secondPass d root (a.firstPass d root)).pass.listing.toList ≠
      [] := by
  obtain ⟨x, hx⟩ := List.exists_mem_of_ne_nil _ hdefs
  obtain ⟨⟨l, _⟩, hmem, rfl⟩ := exists_of_mem_definitions hx
  obtain ⟨value, hvalue⟩ := exists_define_of_passes hfirst hsecond hmem
  exact List.ne_nil_of_mem (mem_definitions hvalue)

private theorem tabled_firstPass (h : (a.firstPass d root).error? = none) :
    Tabled builtins (a.firstPass d root).pass := by
  obtain ⟨_, -, hreads⟩ := reads_of_runPass rfl h
  exact (preserved_tabled builtins).reads hreads fun _ => Option.none_or.symm

private theorem tabled_secondPass {first : PassResult}
    (h : (secondPass d root first).error? = none) :
    Tabled first.pass.symbols (secondPass d root first).pass := by
  obtain ⟨_, -, hreads⟩ := reads_of_runPass rfl h
  exact (preserved_tabled _).reads hreads fun _ => Option.none_or.symm

private theorem symbols_of_passes (hfirst : (a.firstPass d root).error? = none)
    (hsecond : (secondPass d root (a.firstPass d root)).error? = none) (key : String) :
    (secondPass d root (a.firstPass d root)).pass.symbols[key]? =
      (symbolsOf key
          (secondPass d root (a.firstPass d root)).pass.listing.toList).getLast?.or
        builtins[key]? := by
  rw [tabled_secondPass hsecond key]
  cases hlast : (symbolsOf key
      (secondPass d root (a.firstPass d root)).pass.listing.toList).getLast? with
  | some s => rfl
  | none =>
      have hnone : symbolsOf key (a.firstPass d root).pass.listing.toList = [] := by
        by_contra hsome
        refine definitions_ne_nil_of_passes hfirst hsecond
          (mt symbolsOf_eq_nil_iff.2 hsome) ?_
        exact symbolsOf_eq_nil_iff.1 (List.getLast?_eq_none_iff.1 hlast)
      rw [tabled_firstPass hfirst key, hnone]
      rfl

/-- What the second pass makes of a program that the first one has read: it reads the
lines once more, up to one that fails, and retraces each. If none fails, all that it knows
of symbols is what it defined itself, save for traps that no line defines. -/
structure Rereads (a : Assembler) (d : Disk) (root : FileId)
    (lines reread : List (Location × String)) : Prop where
  reads : Passes d root a.prepared (.initial a.flags) lines (a.firstPass d root)
  reads_again : Passes d root (a.firstPass d root).library
    (a.firstPass d root).pass.next reread (secondPass d root (a.firstPass d root))
  retraced : Retraced (a.firstPass d root).pass.scopes (.initial a.flags)
    (a.firstPass d root).pass.next lines reread
  fails : ∀ e, (secondPass d root (a.firstPass d root)).error? = some e →
    ∃ before last, reread = before ++ [last] ∧ e.location? = some last.1
  complete : (secondPass d root (a.firstPass d root)).error? = none → reread = lines
  symbols : (secondPass d root (a.firstPass d root)).error? = none →
    ∀ key s, (secondPass d root (a.firstPass d root)).pass.symbols[key]? = some s →
      (symbolsOf key
          (secondPass d root (a.firstPass d root)).pass.listing.toList).getLast? =
          some s ∨
        symbolsOf key (secondPass d root (a.firstPass d root)).pass.listing.toList = [] ∧
          builtins[key]? = some s ∧ ∃ trap : Trap, key = trap.symbol

theorem rereads_of_firstPass (hfirst : (a.firstPass d root).error? = none) :
    ∃ lines reread, a.Rereads d root lines reread := by
  obtain ⟨lib, lines, reread, hpasses, hstart, hruns, hretraced, hcomplete⟩ :=
    exists_retraced hfirst
  refine ⟨lines, reread, hpasses, .opened hstart hruns,
    hretraced, fun e he => hruns.exists_last he,
    hcomplete, fun hsecond key s hs => ?_⟩
  rw [symbols_of_passes hfirst hsecond] at hs
  cases hlast : (symbolsOf key
      (secondPass d root (a.firstPass d root)).pass.listing.toList).getLast? with
  | some last =>
      rw [hlast] at hs
      exact .inl hs
  | none =>
      rw [hlast, Option.none_or] at hs
      exact .inr ⟨List.getLast?_eq_none_iff.1 hlast, hs, exists_trap_of_builtins hs⟩

/-- A file that is included in the middle of a scope and has a scope of its own. -/
def nested : Disk :=
  (Disk.empty.put ⟨"/a"⟩ (.file (Text.encodeUtf8
    "a:\n.x = b\n .include \"b\"\n .word .x, .y\n.y:\n"))).put ⟨"/b"⟩
    (.file (Text.encodeUtf8 "b:\n.x: .word .x\n"))

def nesting : Assembler :=
  (addFile {} nested ⟨"/a"⟩).2

theorem rereads_of_firstPass_nesting : (nesting.firstPass nested 0).error? = none ∧
    ∃ lines, nesting.Rereads nested 0 lines lines := by
  have hnone : (nesting.firstPass nested 0).error? = none ∧
      (secondPass nested 0 (nesting.firstPass nested 0)).error? = none := by
    decide +kernel
  obtain ⟨lines, reread, hrereads⟩ := rereads_of_firstPass hnone.1
  obtain rfl := hrereads.complete hnone.2
  exact ⟨hnone.1, reread, hrereads⟩

end Breadboard.Assembler
