import Breadboard.Proofs.Assembly.History
import Breadboard.Proofs.Assembly.Redefinition
import Mathlib.Data.List.Pairwise

namespace Breadboard.Assembly

variable {d : Disk} {lib : Library} {p p' q : Pass} {lines : List (Location × String)}
    {r : PassResult} {file : FileId} {line : Nat} {l o : Location}
    {scope scope' name name' : String} {entries : List ListingEntry} {final : Scopes}
    {e : ListingEntry}

/-! Keys. -/

/-- The scope of a pass, if there is one, has the name of a label that is not local. -/
def Scoped (p : Pass) : Prop :=
  ∀ scope ∈ p.scope, scope ≠ "" ∧ '.' ∉ scope.toList

/-- The key of a local symbol tells its scope and its name, and is not
that of any other symbol. -/
structure Apart (p p' : Pass) : Prop where
  local_local : ∀ name name', isLocalName name = true → isLocalName name' = true →
    p.qualify name = p'.qualify name' →
      p.scope = p'.scope ∧ p.normalize name = p'.normalize name'
  local_global : ∀ name name', isLocalName name = true → isLabelName name' = true →
    isLocalName name' = false → p.qualify name ≠ p'.qualify name'

private theorem Scoped.dot_notMem (h : Scoped p) : '.' ∉ (p.scope.getD "").toList := by
  cases hscope : p.scope with
  | none => exact List.not_mem_nil
  | some scope => exact (h scope hscope).2

private theorem Scoped.scope_eq (h : Scoped p) (h' : Scoped p')
    (hsame : p.scope.getD "" = p'.scope.getD "") : p.scope = p'.scope := by
  cases hscope : p.scope with
  | none =>
      cases hscope' : p'.scope with
      | none => rfl
      | some scope' =>
          rw [hscope, hscope'] at hsame
          exact absurd hsame.symm (h' scope' hscope').1
  | some scope =>
      cases hscope' : p'.scope with
      | none =>
          rw [hscope, hscope'] at hsame
          exact absurd hsame (h scope hscope).1
      | some scope' =>
          rw [hscope, hscope'] at hsame
          exact congrArg some hsame

private theorem apart_of_scoped (h : Scoped p) (h' : Scoped p') : Apart p p' := by
  constructor
  · intro name name' hname hname' hkey
    rw [qualify_of_local hname, qualify_of_local hname'] at hkey
    obtain ⟨hscope, hsame⟩ := eq_and_eq_of_append_eq h.dot_notMem h'.dot_notMem
      ((isLocalName_normalize p name).trans hname)
      ((isLocalName_normalize p' name').trans hname') hkey
    exact ⟨h.scope_eq h' hscope, hsame⟩
  · intro name name' hname hlabel hglobal hkey
    rw [qualify_of_local hname, qualify_of_global hglobal] at hkey
    have hdot : '.' ∈ (p'.normalize name').toList := by
      rw [← hkey, String.toList_append]
      exact List.mem_append_right _
        (dot_mem_of_isLocalName ((isLocalName_normalize p name).trans hname))
    exact dot_notMem_of_isLabelName hlabel hglobal (dot_mem_normalize.1 hdot)

/-! Regions. -/

/-- A line lies in the region that begins at another: it does not come before it in its
source, and no other scope opens between the two. -/
structure InRegion (entries : List ListingEntry) (o l : Location) : Prop where
  file : l.file = o.file
  le : o.line ≤ l.line
  next : ∀ e ∈ entries, e.event.scope?.isSome → e.location.file = o.file →
    o.line < e.location.line → l.line < e.location.line

/-- What is open in the end is what the entries tell. -/
structure Charted (final : Scopes) (entries : List ListingEntry) : Prop where
  increasing : final.Increasing
  mem_iff : ∀ file line scope, (line, scope) ∈ final.openings file ↔
    ∃ e ∈ entries, e.location.file = file ∧ e.location.line = line ∧
      e.event.scope? = some scope

namespace Charted

theorem exists_inRegion (h : Charted final entries)
    (hscope : final.at? l.file l.line = some scope) :
    ∃ e ∈ entries, e.event.scope? = some scope ∧ InRegion entries e.location l := by
  obtain ⟨line, hle, hmem, hlast⟩ := (h.increasing l.file).exists_of_at?_eq_some hscope
  obtain ⟨e, he, hfile, rfl, hopens⟩ := (h.mem_iff _ _ _).1 hmem
  refine ⟨e, he, hopens, hfile.symm,
    hle, fun e' he' hopens' hfile' hlt => Nat.lt_of_not_le fun hle' => ?_⟩
  obtain ⟨scope', hscope'⟩ := Option.isSome_iff_exists.1 hopens'
  have hmem' := (h.mem_iff l.file _ scope').2 ⟨e', he', hfile'.trans hfile, rfl, hscope'⟩
  exact absurd (hlast _ hmem' hle') (Nat.not_le.2 hlt)

private theorem exists_scope (h : Charted final entries) (he : e ∈ entries)
    (hopens : e.event.scope?.isSome) (hfile : e.location.file = l.file)
    (hle : e.location.line ≤ l.line) :
    ∃ scope, final.at? l.file l.line = some scope := by
  obtain ⟨scope, hscope⟩ := Option.isSome_iff_exists.1 hopens
  refine Option.ne_none_iff_exists'.1 fun hnone => ?_
  have hmem := (h.mem_iff _ _ _).2 ⟨e, he, hfile, rfl, hscope⟩
  exact absurd hle (Nat.not_le.2 (((h.increasing l.file).at?_eq_none_iff).1 hnone _ hmem))

end Charted

private theorem eq_of_nodup_scopes (h : (entries.filterMap (·.event.scope?)).Nodup)
    {e' : ListingEntry} (he : e ∈ entries) (he' : e' ∈ entries)
    (hscope : e.event.scope? = some scope) (hscope' : e'.event.scope? = some scope) :
    e = e' := by
  have hpairs := List.pairwise_filterMap.1 h
  have : Std.Symm fun a b : ListingEntry => ∀ s, a.event.scope? = some s →
      ∀ s', b.event.scope? = some s' → s ≠ s' :=
    ⟨fun _ _ hdiff s hs s' hs' => (hdiff s' hs' s hs).symm⟩
  by_contra hne
  exact hpairs.forall he he' hne scope hscope scope hscope' rfl

/-! What the lines of a program open and name. -/

theorem Runs.exists_opening (h : Runs d lib p lines r) (hnone : r.error? = none)
    (hmem : (line, scope) ∈ r.pass.scopes.openings file) :
    (line, scope) ∈ p.scopes.openings file ∨
      ∃ e ∈ r.pass.listing.toList, e.location.file = file ∧ e.location.line = line ∧
        e.event.scope? = some scope := by
  induction h with
  | refused | unopened => cases hnone
  | done => exact .inl hmem
  | @line _ _ _ p p₁ l text _ _ _ _ read _ rest ih =>
      refine (ih hnone hmem).elim (fun hmem => ?_) .inr
      obtain ⟨b, -, -, htells, -⟩ := exists_tells_of_assembleLine read
      have hscopes := htells.scopes
      rw [afterLine_of_ok read] at hscopes
      cases hscope : b.scope? with
      | none =>
          rw [hscope] at hscopes
          rw [hscopes] at hmem
          exact .inl hmem
      | some name =>
          rw [hscope] at hscopes
          rw [hscopes] at hmem
          by_cases hfile : l.file = file
          · subst hfile
            rw [Scopes.openings_enter_self] at hmem
            obtain hopened | hmem := Openings.eq_or_mem_of_mem_insert hmem
            · cases hopened
              obtain ⟨e, he, hopens⟩ :=
                (htells.opens (p.normalize name)).2 (by rw [hscope]; rfl)
              obtain ⟨rfl, -⟩ := names_of_mem_entriesOf he
              have hlisting := htells.adds.listing
              rw [afterLine_of_ok read] at hlisting
              refine .inr ⟨e, (listing_of_reads (rest.reads hnone)).subset ?_, rfl,
                rfl, hopens⟩
              rw [hlisting]
              exact List.mem_append_right _ he
            · exact .inl hmem
          · rw [Scopes.openings_enter_ne hfile] at hmem
            exact .inl hmem

/-- An entry is of one of the lines, and what it names has the name of a word there, by
the scope that the line has in the end. -/
def Placed (final : Scopes) (flags : Flags) (lines : List (Location × String))
    (e : ListingEntry) :
    Prop :=
  ∃ text p, (e.location, text) ∈ lines ∧ p.flags = flags ∧
    p.scope = final.at? e.location.file e.location.line ∧
      e.event.Names (Line.ofString text).tokens p

theorem Retraced.placed (h : Retraced final p q lines lines) (hp : p.listing = #[])
    (hq : q.listing = #[]) (hflags : q.flags = p.flags)
    (hmem : e ∈ (p.afterLines lines).listing.toList ∨
      e ∈ (q.afterLines lines).listing.toList) :
    Placed final p.flags lines e := by
  have hlines : ∀ {before l text after}, lines = before ++ (l, text) :: after →
    (l, text) ∈ lines :=
    fun hsplit => List.mem_iff_append.2 ⟨_, _, hsplit⟩
  obtain hmem | hmem := hmem
  · obtain hmem | ⟨before, l, text, after, hsplit, hmem⟩ := mem_listing_afterLines.1 hmem
    · rw [hp] at hmem
      cases hmem
    · have hline := h.retraces before l text after hsplit
      obtain ⟨rfl, hnames⟩ := hline.names e hmem
      refine ⟨text, _, hlines hsplit, ?_, hline.scope, hnames⟩
      rw [flags_afterLine, flags_afterLines]
  · obtain hmem | ⟨before, l, text, after, hsplit, hmem⟩ := mem_listing_afterLines.1 hmem
    · rw [hq] at hmem
      cases hmem
    · have hline := h.retraces before l text after hsplit
      obtain ⟨rfl, hnames⟩ := hline.names_again e hmem
      refine ⟨text, _, hlines hsplit, ?_, hline.scope_again.trans hline.scope, hnames⟩
      rw [flags_afterLine, flags_afterLines, hflags]

private theorem exists_define_of_scope? {event : Event} (h : event.scope? = some scope) :
    ∃ value, event = .define scope value .label ∧ '.' ∉ scope.toList := by
  unfold Event.scope? at h
  split at h
  · rename_i key value
    split at h
    · cases h
    · cases h
      exact ⟨value, rfl, ‹_›⟩
  · cases h

private theorem qualify_ne_empty (h : isLabelName name = true) (p : Pass) :
    p.qualify name ≠ "" := by
  cases hlocal : isLocalName name with
  | true =>
      rw [qualify_of_local hlocal]
      intro hempty
      have hdot := dot_mem_of_isLocalName ((isLocalName_normalize p name).trans hlocal)
      rw [(String.append_eq_empty_iff.1 hempty).2] at hdot
      cases hdot
  | false =>
      rw [qualify_of_global hlocal]
      unfold Pass.normalize
      split
      · exact ne_empty_of_isLabelName h
      · exact toLower_ne_empty (ne_empty_of_isLabelName h)

def Opened (entries : List ListingEntry) (p : Pass) : Prop :=
  ∀ scope ∈ p.scope, ∃ e ∈ entries, e.event.scope? = some scope

theorem scoped_of_opened {flags : Flags}
    (hplaced : ∀ e ∈ entries, Placed final flags lines e) (h : Opened entries p) :
    Scoped p := by
  intro scope hmem
  obtain ⟨e, he, hopens⟩ := h scope hmem
  obtain ⟨value, hevent, hdot⟩ := exists_define_of_scope? hopens
  obtain ⟨text, q, -, -, -, hnames⟩ := hplaced e he
  rw [hevent] at hnames
  obtain ⟨name, -, hname, rfl⟩ := hnames
  exact ⟨qualify_ne_empty hname q, hdot⟩

theorem Charted.opened (h : Charted final entries)
    (hscope : p.scope = final.at? l.file l.line) :
    Opened entries p := by
  intro scope hmem
  obtain ⟨e, he, hopens, -⟩ := h.exists_inRegion (l := l) (hscope ▸ hmem)
  exact ⟨e, he, hopens⟩

end Breadboard.Assembly

namespace Breadboard.Assembler

open Assembly

variable {a : Assembler} {d : Disk} {root : FileId} {m : Memory} {asm : Assembly}

private theorem charted_of_passes (hfirst : (a.firstPass d root).error? = none)
    (hsecond : (secondPass d root (a.firstPass d root)).error? = none) :
    Charted (a.firstPass d root).pass.scopes
      (secondPass d root (a.firstPass d root)).pass.listing.toList := by
  obtain ⟨lib₁, lines, hstart, hruns⟩ := exists_runs_of_runPass rfl hfirst
  obtain ⟨lib, lines', reread, hpasses, -, hruns', hretraced, hcomplete⟩ :=
    exists_retraced hfirst
  obtain rfl := hcomplete hsecond
  -- The scopes are those of the first pass and the entries those of the second: what
  -- opened a scope in the first is defined again, and what the second opens was open
  -- already.
  refine ⟨preserved_increasing.reads (hruns.reads hfirst) fun file => List.Pairwise.nil,
    fun file line scope => ⟨fun hmem => ?_, ?_⟩⟩
  · obtain hnone | ⟨⟨l, event⟩, he, hfile, hline, hopens⟩ :=
      hruns.exists_opening hfirst hmem
    · cases hnone
    · obtain ⟨value, rfl, hdot⟩ := exists_define_of_scope? hopens
      obtain ⟨value', hmem'⟩ := exists_define_of_passes hfirst hsecond he
      exact ⟨_, hmem', hfile, hline, if_neg hdot⟩
  · rintro ⟨e, he, rfl, rfl, hopens⟩
    rw [hruns'.pass_eq] at he
    obtain hnone | ⟨before, l, text, after, hsplit, he⟩ := mem_listing_afterLines.1 he
    · cases hnone
    · have hline := hretraced.retraces before l text after hsplit
      obtain ⟨rfl, -⟩ := hline.names_again e he
      exact hline.opens_again e he scope hopens

/-- What a reference finds in a region: the value that its key was given last, in a place
in the region. There it is defined and nowhere else. -/
structure Resolves (earlier before entries : List ListingEntry) (o : Location)
    (key : String) (value? : Option Int32) : Prop where
  found : ∃ l value kind, value? = some value ∧
    (definitions key (earlier ++ before)).getLast? = some (value, kind) ∧
      ⟨l, .define key value kind⟩ ∈ earlier ++ before ∧ InRegion entries o l
  only : ∀ l value kind, ⟨l, .define key value kind⟩ ∈ earlier ++ entries →
    InRegion entries o l

private theorem exists_define_of_refer (hfirst : (a.firstPass d root).error? = none)
    (hsecond : (secondPass d root (a.firstPass d root)).error? = none)
    {before after : List ListingEntry} {l : Location} {key : String}
    {value? : Option Int32} (hdot : '.' ∈ key.toList)
    (hsplit : (secondPass d root (a.firstPass d root)).pass.listing.toList =
      before ++ ⟨l, .refer key value?⟩ :: after) :
    ∃ l value kind, value? = some value ∧
      (definitions key ((a.firstPass d root).pass.listing.toList ++ before)).getLast? =
        some (value, kind) ∧
      ⟨l, .define key value kind⟩ ∈ (a.firstPass d root).pass.listing.toList ++
        before := by
  -- The value is the last that was given to the key, by the second pass so far or by the
  -- first, or else that of a trap, and no trap has a dot in its name.
  obtain ⟨hvalue, hfound⟩ := (truthful_secondPass hsecond).references hsplit
  rw [valueAfter, (firstValued_firstPass hfirst).recorded.symbols, valueAfter] at hvalue
  have hbuiltin : builtins.value? key = none := by
    cases hbuiltin : builtins[key]? with
    | none => exact congrArg (Option.map Symbol.value) hbuiltin
    | some s =>
        obtain ⟨trap, rfl⟩ := exists_trap_of_builtins hbuiltin
        exact absurd hdot (not_mem_symbol trap)
  have hlast : value? =
      (definitions key ((a.firstPass d root).pass.listing.toList ++ before)).getLast?.map
        Prod.fst := by
    rw [hvalue, hbuiltin, Option.or_none, definitions_append, List.getLast?_append,
      Option.map_or]
  cases hdefs : (definitions key ((a.firstPass d root).pass.listing.toList ++
    before)).getLast? with
  | none =>
      rw [hlast, hdefs] at hfound
      cases hfound (reported_secondPass hsecond).round
  | some x =>
      obtain ⟨⟨l', _⟩, hmem, rfl⟩ :=
        exists_of_mem_definitions (List.mem_of_getLast? hdefs)
      rw [hdefs] at hlast
      exact ⟨l', x.1, x.2, hlast, rfl, hmem⟩

private theorem exists_placed (hfirst : (a.firstPass d root).error? = none)
    (hsecond : (secondPass d root (a.firstPass d root)).error? = none) :
    ∃ lines, Passes d root a.prepared (.initial a.flags) lines (a.firstPass d root) ∧
      Passes d root (a.firstPass d root).library (a.firstPass d root).pass.next lines
        (secondPass d root (a.firstPass d root)) ∧
      ∀ e ∈ (a.firstPass d root).pass.listing.toList ++
          (secondPass d root (a.firstPass d root)).pass.listing.toList,
        Placed (a.firstPass d root).pass.scopes a.flags lines e := by
  obtain ⟨lib, lines, reread, hpasses, hstart, hruns, hretraced, hcomplete⟩ :=
    exists_retraced hfirst
  obtain rfl := hcomplete hsecond
  obtain ⟨_, hstart', -⟩ := reads_of_runPass rfl hfirst
  refine ⟨reread, hpasses, .opened hstart hruns, fun e hmem => ?_⟩
  refine hretraced.placed rfl rfl (flags_firstPass hfirst)
    ((List.mem_append.1 hmem).imp (fun hmem => ?_) fun hmem => ?_)
  · rwa [← (hpasses.runs hstart').pass_eq]
  · rwa [← hruns.pass_eq]

private theorem inRegion_of_define {lines : List (Location × String)} {final : Scopes}
    {entries : List ListingEntry} {o e : ListingEntry} {scope name : String} {p : Pass}
    {value : Int32} {kind : SymbolKind} (hcharted : Charted final entries)
    (hunique : (entries.filterMap (·.event.scope?)).Nodup)
    (hplaced : ∀ e ∈ entries, Placed final a.flags lines e) (ho : o ∈ entries)
    (hopens : o.event.scope? = some scope) (hscope : p.scope = some scope)
    (hlocal : isLocalName name = true) (he : Placed final a.flags lines e)
    (hdefine : e.event = .define (p.qualify name) value kind) :
    InRegion entries o.location e.location := by
  obtain ⟨text, q, -, -, hq, hnames⟩ := he
  rw [hdefine] at hnames
  obtain ⟨name', -, hname', hkey⟩ := hnames
  have hp : Opened entries p := fun scope' hmem =>
    ⟨o, ho, hopens.trans (hscope.symm.trans hmem)⟩
  have hapart := apart_of_scoped (scoped_of_opened hplaced hp)
    (scoped_of_opened hplaced (hcharted.opened hq))
  cases hlocal' : isLocalName name' with
  | false => exact absurd hkey (hapart.local_global name name' hlocal hname' hlocal')
  | true =>
      obtain ⟨hsame, -⟩ := hapart.local_local name name' hlocal hlocal' hkey
      obtain ⟨o', ho', hopens', hregion⟩ :=
        hcharted.exists_inRegion (hq.symm.trans (hsame.symm.trans hscope))
      rwa [eq_of_nodup_scopes hunique ho ho' hopens hopens']

private theorem resolves_of_refer (hfirst : (a.firstPass d root).error? = none)
    (hsecond : (secondPass d root (a.firstPass d root)).error? = none)
    {lines : List (Location × String)} {before after : List ListingEntry} {l : Location}
    {o : ListingEntry} {scope name : String} {p : Pass} {value? : Option Int32}
    (hunique : ((secondPass d root (a.firstPass d root)).pass.listing.toList.filterMap
      (·.event.scope?)).Nodup)
    (hplaced : ∀ e ∈ (a.firstPass d root).pass.listing.toList ++
        (secondPass d root (a.firstPass d root)).pass.listing.toList,
      Placed (a.firstPass d root).pass.scopes a.flags lines e)
    (ho : o ∈ (secondPass d root (a.firstPass d root)).pass.listing.toList)
    (hopens : o.event.scope? = some scope) (hscope : p.scope = some scope)
    (hlocal : isLocalName name = true)
    (hsplit : (secondPass d root (a.firstPass d root)).pass.listing.toList =
      before ++ ⟨l, .refer (p.qualify name) value?⟩ :: after) :
    Resolves (a.firstPass d root).pass.listing.toList before
      (secondPass d root (a.firstPass d root)).pass.listing.toList o.location
        (p.qualify name) value? := by
  have hdot : '.' ∈ (p.qualify name).toList := by
    rw [qualify_of_local hlocal, String.toList_append]
    exact List.mem_append_right _
      (dot_mem_of_isLocalName ((isLocalName_normalize p name).trans hlocal))
  have honly : ∀ l value kind,
      ⟨l, .define (p.qualify name) value kind⟩ ∈
        (a.firstPass d root).pass.listing.toList ++
        (secondPass d root (a.firstPass d root)).pass.listing.toList →
      InRegion (secondPass d root (a.firstPass d root)).pass.listing.toList
        o.location l :=
    fun l value kind he => inRegion_of_define (charted_of_passes hfirst hsecond) hunique
      (fun e he => hplaced e (List.mem_append_right _ he)) ho hopens hscope hlocal
        (hplaced _ he) rfl
  obtain ⟨l', value, kind, hvalue, hlast, hdefine⟩ :=
    exists_define_of_refer hfirst hsecond hdot hsplit
  refine ⟨⟨l', value, kind, hvalue, hlast, hdefine, honly l' value kind ?_⟩, honly⟩
  rw [hsplit, ← List.append_assoc]
  exact List.mem_append_left _ hdefine

/-- Local symbols are isolated. Every line after the opening of a scope in its source lies
in the region of the last that was opened, and there a local name stands for what that
region defines. The keys of local symbols are apart in all scopes of the program. -/
structure Isolates (a : Assembler) (d : Disk) (root : FileId)
    (lines : List (Location × String)) (asm : Assembly) : Prop where
  reads : Passes d root a.prepared (.initial a.flags) lines (a.firstPass d root)
  reads_again : Passes d root (a.firstPass d root).library
    (a.firstPass d root).pass.next lines (secondPass d root (a.firstPass d root))
  resolves : ∀ l, (∃ e ∈ asm.listing.toList, e.event.scope?.isSome ∧
    e.location.file = l.file ∧
      e.location.line ≤ l.line) →
    ∃ o ∈ asm.listing.toList, ∃ scope, o.event.scope? = some scope ∧
      InRegion asm.listing.toList o.location l ∧
      ∀ before key value? after, asm.listing.toList =
        before ++ ⟨l, .refer key value?⟩ :: after →
        ∃ text name, (l, text) ∈ lines ∧ .word name ∈ (Line.ofString text).tokens ∧
          if isLocalName name then
            key = scope ++ (Pass.initial a.flags).normalize name ∧
              Resolves (a.firstPass d root).pass.listing.toList before asm.listing.toList
                o.location key value?
          else key = (Pass.initial a.flags).normalize name
  apart : ∀ p p' : Pass, Opened asm.listing.toList p →
    Opened asm.listing.toList p' → Apart p p'

/-- Where each scope is opened once, local symbols are isolated. -/
theorem isolates_of_assemble (h : (a.assemble d root m).1 = .ok asm)
    (hunique : (asm.listing.toList.filterMap (·.event.scope?)).Nodup) :
    ∃ lines, a.Isolates d root lines asm := by
  obtain ⟨hfirst, hsecond, rfl⟩ := assemble_eq_ok_iff.1 h
  obtain ⟨lines, hpasses, hpasses', hplaced⟩ := exists_placed hfirst hsecond
  have hcharted := charted_of_passes hfirst hsecond
  have hplaced' := fun e he => hplaced e (List.mem_append_right _ he)
  change ((secondPass d root (a.firstPass d root)).pass.listing.toList.filterMap
    (·.event.scope?)).Nodup at hunique
  refine ⟨lines, hpasses, hpasses', fun l ⟨e, he, hopens, hfile, hle⟩ => ?_,
    fun p p' hp hp' => ?_⟩
  · obtain ⟨scope, hscope⟩ := hcharted.exists_scope he hopens hfile hle
    obtain ⟨o, ho, hopens, hregion⟩ := hcharted.exists_inRegion hscope
    refine ⟨o, ho, scope, hopens, hregion, fun before key value? after hsplit => ?_⟩
    change (secondPass d root (a.firstPass d root)).pass.listing.toList = _ at hsplit
    have hmem : ⟨l, .refer key value?⟩ ∈
        (secondPass d root (a.firstPass d root)).pass.listing.toList :=
      List.mem_iff_append.2 ⟨_, _, hsplit⟩
    obtain ⟨text, p, hline, hflags, hp, name, hword, rfl⟩ := hplaced' _ hmem
    have hnormalize : p.normalize name = (Pass.initial a.flags).normalize name :=
      normalize_congr hflags name
    refine ⟨text, name, hline, hword, ?_⟩
    split
    · rename_i hlocal
      have hpscope : p.scope = some scope := hp.trans hscope
      refine ⟨?_, resolves_of_refer hfirst hsecond hunique hplaced ho hopens hpscope
        hlocal hsplit⟩
      rw [qualify_of_local hlocal, hpscope, hnormalize]
      rfl
    · rename_i hglobal
      rw [qualify_of_global (Bool.eq_false_iff.2 hglobal), hnormalize]
  · exact apart_of_scoped (scoped_of_opened hplaced' hp) (scoped_of_opened hplaced' hp')

theorem isolates_of_assemble_nesting : ∃ asm lines,
    (nesting.assemble nested 0 (.filled 0)).1 = .ok asm ∧
      asm.listing.toList.filterMap (·.event.scope?) = ["a", "b"] ∧
        nesting.Isolates nested 0 lines asm := by
  have hassembled : ∃ asm ∈ (nesting.assemble nested 0 (.filled 0)).1.toOption,
      asm.listing.toList.filterMap (·.event.scope?) = ["a", "b"] := by
    decide +kernel
  obtain ⟨asm, hasm, hscopes⟩ := hassembled
  have h := eq_ok_of_toOption hasm
  obtain ⟨lines, hisolates⟩ := isolates_of_assemble h (hscopes ▸ by decide)
  exact ⟨asm, lines, h, hscopes, hisolates⟩

end Breadboard.Assembler
