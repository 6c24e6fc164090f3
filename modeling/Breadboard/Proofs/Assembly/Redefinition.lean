import Breadboard.Proofs.Assembly.Rereading

namespace Breadboard.Assembly

variable {entries extra : List ListingEntry} {l : Location} {key : String}
    {old value : Int32} {start : SymbolTable} {p p' : Pass}

def Redefines (entries : List ListingEntry) (l : Location) (key : String)
    (old value : Int32) : Prop :=
  ∃ before after kind, entries = before ++ ⟨l, .define key value kind⟩ :: after ∧
    (definitions key before).getLast?.map Prod.fst = some old ∧ old ≠ value

private theorem redefines_concat (e : ListingEntry) :
    Redefines (entries ++ [e]) l key old value ↔
    Redefines entries l key old value ∨ ∃ kind, e = ⟨l, .define key value kind⟩ ∧
      (definitions key entries).getLast?.map Prod.fst = some old ∧ old ≠ value := by
  constructor
  · rintro ⟨before, after, kind, hsplit, hredefines⟩
    rcases List.eq_nil_or_concat after with rfl | ⟨after, last, rfl⟩
    · obtain ⟨rfl, he⟩ := List.append_inj' hsplit rfl
      exact .inr ⟨kind, List.singleton_inj.1 he, hredefines⟩
    · rw [List.concat_eq_append, ← List.cons_append, ← List.append_assoc] at hsplit
      exact .inl ⟨before, after, kind, (List.append_inj' hsplit rfl).1, hredefines⟩
  · rintro (⟨before, after, kind, rfl, hredefines⟩ | ⟨kind, rfl, hredefines⟩)
    · exact ⟨before, after ++ [e], kind, by rw [List.append_assoc, List.cons_append],
        hredefines⟩
    · exact ⟨entries, [], kind, rfl, hredefines⟩

private theorem redefines_append_of_quiet (h : ∀ key, definitions key extra = []) :
    Redefines (entries ++ extra) l key old value ↔ Redefines entries l key old value := by
  induction extra using List.reverseRecOn with
  | nil => rw [List.append_nil]
  | append_singleton extra e ih =>
      simp only [definitions_append, List.append_eq_nil_iff] at h
      rw [← List.append_assoc, redefines_concat, ih fun key => (h key).1]
      constructor
      · rintro (hredefines | ⟨kind, rfl, -⟩)
        · exact hredefines
        · have hone := (h key).2
          rw [definitions_define] at hone
          cases hone
      · exact .inl

structure Reported (start : SymbolTable) (p : Pass) : Prop extends Recorded start p where
  round : p.round = .second
  redefinitions : ∀ {key old value l},
    ⟨.labelRedefined key old value, l⟩ ∈ p.warnings ↔
      Redefines p.listing.toList l key old value

theorem Reported.quiet (h : Reported start p) (hquiet : Quiet p p') :
    Reported start p' := by
  refine ⟨h.toRecorded.quiet hquiet, hquiet.round.trans h.round,
    fun {key old value l} => ?_⟩
  obtain ⟨extra, hextra⟩ := hquiet.listing
  rw [hquiet.warnings _ rfl, h.redefinitions, ← hextra, redefines_append_of_quiet]
  intro key
  have hsame := hquiet.definitions key
  rw [← hextra, definitions_append] at hsame
  exact List.append_cancel_left (hsame.trans (List.append_nil _).symm)

theorem Reported.define (h : Reported start p) (key : String) (value : Int32)
    (kind : SymbolKind) :
    Reported start (p.define key value kind) := by
  have hlisting : (p.define key value kind).listing.toList =
      p.listing.toList ++ [⟨p.line, .define key value kind⟩] := by
    rw [p.define_eq]
    exact Array.toList_push
  refine ⟨h.toRecorded.define key value kind, ?_, fun {key' old value' l} => ?_⟩
  · rw [p.define_eq]
    exact h.round
  · rw [mem_warnings_define_iff h.round, hlisting, redefines_concat, h.redefinitions]
    refine or_congr .rfl ?_
    by_cases hknown : key ∈ p.defined
    · have hdefs := (h.defined key).1 hknown
      have hlast : p.symbols.value? key =
        (definitions key p.listing.toList).getLast?.map Prod.fst := by
        rw [h.symbols, valueAfter, List.getLast?_eq_some_getLast hdefs]
        rfl
      simp only [complaint?_eq_some_iff_of_known hknown, hlast]
      constructor
      · rintro ⟨_, ⟨old, hold, hne, rfl⟩, heq⟩
        cases heq
        exact ⟨kind, rfl, hold, hne⟩
      · rintro ⟨_, heq, hold, hne⟩
        cases heq
        exact ⟨_, ⟨old, hold, hne, rfl⟩, rfl⟩
    · -- At its first definition a symbol may have moved, which is another complaint.
      have hdefs : definitions key p.listing.toList = [] :=
        by_contra fun hdefs => hknown ((h.defined key).2 hdefs)
      simp only [complaint?_eq_some_iff_of_new hknown]
      constructor
      · rintro ⟨_, ⟨-, _, -, -, rfl⟩, heq⟩
        cases heq
      · rintro ⟨_, heq, hold, -⟩
        cases heq
        rw [hdefs] at hold
        cases hold

private theorem preserved_reported (start : SymbolTable) : Preserved (Reported start) :=
  preserved_of_quiet (fun hquiet h => h.quiet hquiet) fun key value kind h =>
    h.define key value kind

private theorem value?_builtins (trap : Trap) :
    builtins.value? trap.symbol = some (Int32.ofNat trap.address.toNat) := by
  have hall : ∀ trap ∈ Trap.all,
      builtins.value? trap.symbol = some (Int32.ofNat trap.address.toNat) := by
    decide +kernel
  exact hall trap (by cases trap <;> decide)

theorem not_mem_symbol (trap : Trap) : '.' ∉ trap.symbol.toList := by
  cases trap <;> decide

end Breadboard.Assembly

namespace Breadboard.Assembler

open Assembly

variable {a : Assembler} {d : Disk} {root : FileId} {m : Memory} {asm : Assembly}

theorem reported_secondPass {first : PassResult}
    (h : (secondPass d root first).error? = none) :
    Reported first.pass.symbols (secondPass d root first).pass := by
  obtain ⟨_, -, hreads⟩ := reads_of_runPass rfl h
  refine (preserved_reported _).reads hreads ⟨recorded_of_empty rfl rfl rfl, rfl, ?_⟩
  intro key old value l
  constructor
  · intro hw
    exact absurd hw (Array.not_mem_empty _)
  · rintro ⟨before, after, kind, hsplit, -⟩
    cases before <;> cases hsplit

private theorem value?_symbol_of_passes (hfirst : (a.firstPass d root).error? = none)
    (hsecond : (secondPass d root (a.firstPass d root)).error? = none) (trap : Trap) :
    (secondPass d root (a.firstPass d root)).pass.symbols.value? trap.symbol =
      some (((definitions trap.symbol
          (secondPass d root (a.firstPass d root)).pass.listing.toList).getLast?.map
        Prod.fst).getD (Int32.ofNat trap.address.toNat)) := by
  rw [(reported_secondPass hsecond).symbols, valueAfter]
  cases hlast : (definitions trap.symbol (secondPass d root
      (a.firstPass d root)).pass.listing.toList).getLast? with
  | some last => rfl
  | none =>
      have hnone : definitions trap.symbol (a.firstPass d root).pass.listing.toList =
        [] :=
        by_contra fun hdefs => definitions_ne_nil_of_passes hfirst hsecond hdefs
          (List.getLast?_eq_none_iff.1 hlast)
      change (a.firstPass d root).pass.symbols.value? trap.symbol = _
      rw [(firstValued_firstPass hfirst).recorded.symbols, valueAfter, hnone]
      exact value?_builtins trap

/-- A warning stands for every definition that changes what one before it said, and for
nothing else. So a trap about which nothing is reported has its address unless the program
gives it one other value. -/
theorem redefinitions_of_assemble (h : (a.assemble d root m).1 = .ok asm) :
    (∀ key old value l, ⟨.labelRedefined key old value, l⟩ ∈ asm.warnings ↔
      Redefines asm.listing.toList l key old value) ∧
    ∀ trap : Trap,
      asm.symbols.value? trap.symbol =
        some (((definitions trap.symbol asm.listing.toList).getLast?.map Prod.fst).getD
          (Int32.ofNat trap.address.toNat)) ∧
      ((∀ w ∈ asm.warnings, ∀ old value, w.kind ≠ .labelRedefined trap.symbol old value) →
        (asm.symbols.value? trap.symbol = some (Int32.ofNat trap.address.toNat) ↔
          ∀ x ∈ definitions trap.symbol asm.listing.toList,
            x.1 = Int32.ofNat trap.address.toNat)) := by
  obtain ⟨hfirst, hsecond, rfl⟩ := assemble_eq_ok_iff.1 h
  refine ⟨fun key old value l => (reported_secondPass hsecond).redefinitions,
    fun trap => ?_⟩
  have hvalue := value?_symbol_of_passes hfirst hsecond trap
  refine ⟨hvalue, fun hquiet => ?_⟩
  have hsame := (vetted_secondPass hsecond).redefinition trap.symbol
  change (secondPass d root (a.firstPass d root)).pass.symbols.value? trap.symbol = _ ↔ _
  rw [hvalue]
  change _ ↔ ∀ x ∈ definitions trap.symbol
    (secondPass d root (a.firstPass d root)).pass.listing.toList, _
  generalize definitions trap.symbol
    (secondPass d root (a.firstPass d root)).pass.listing.toList = defs at hsame ⊢
  rcases List.eq_nil_or_concat defs with rfl | ⟨before, last, rfl⟩
  · exact iff_of_true rfl fun x hx => by cases hx
  · rw [List.concat_eq_append, List.getLast?_concat]
    have hlast : last ∈ before ++ [last] := List.mem_append_right _ List.mem_cons_self
    constructor
    · intro heq x hx
      by_contra hne
      obtain ⟨w, hw, old, value, hkind⟩ := hsame x (by simpa using hx) last (by simp)
        (fun hxlast => hne (hxlast.trans (Option.some.inj heq)))
      exact hquiet w hw old value hkind
    · intro hall
      exact congrArg some (hall last hlast)

def changing : Assembler :=
  (addText {} "changing" "x = 1\nx = 2\n__outch = $FFE2\n").2

theorem redefinitions_of_assemble_changing : ∃ asm,
    (changing.assemble {} 0 (.filled 0)).1 = .ok asm ∧
      Redefines asm.listing.toList ⟨0, "changing", 1⟩ "x" 1 2 ∧
        asm.symbols.value? Trap.outCh.symbol = some 0xFFE2 := by
  have hassembled : ∃ asm ∈ (changing.assemble {} 0 (.filled 0)).1.toOption,
      asm.warnings = #[⟨.labelRedefined "x" 1 2, ⟨0, "changing", 1⟩⟩] ∧
        definitions Trap.outCh.symbol asm.listing.toList = [(0xFFE2, .value)] := by
    decide +kernel
  obtain ⟨asm, hasm, hwarnings, hdefs⟩ := hassembled
  obtain ⟨hredefined, htraps⟩ := redefinitions_of_assemble (eq_ok_of_toOption hasm)
  refine ⟨asm, eq_ok_of_toOption hasm, (hredefined _ _ _ _).1 ?_,
    ((htraps .outCh).2 ?_).2 ?_⟩
  · rw [hwarnings]
    exact Array.mem_singleton_self _
  · intro w hw old value
    rw [hwarnings, Array.mem_singleton] at hw
    simp [hw, Trap.symbol]
  · rw [hdefs]
    exact fun x hx => by cases List.mem_singleton.1 hx; rfl

/-- A program that gives a trap another value, which is its first. -/
def diverting : Assembler :=
  (addText {} "diverting" "__outch = $10\n").2

theorem trap_diverted_unreported : ∃ asm,
    (diverting.assemble {} 0 (.filled 0)).1 = .ok asm ∧ asm.warnings = #[] ∧
      ⟨⟨0, "diverting", 0⟩, .define Trap.outCh.symbol 0x10 .value⟩ ∈ asm.listing.toList ∧
        asm.symbols.value? Trap.outCh.symbol = some 0x10 ∧ Trap.outCh.address =
          0xFFE2 := by
  have hassembled : ∃ asm ∈ (diverting.assemble {} 0 (.filled 0)).1.toOption,
    asm.warnings = #[] ∧
      ⟨⟨0, "diverting", 0⟩, .define Trap.outCh.symbol 0x10 .value⟩ ∈ asm.listing.toList ∧
        asm.symbols.value? Trap.outCh.symbol = some 0x10 := by
    decide +kernel
  obtain ⟨asm, hasm, hwarnings, hdefine, hvalue⟩ := hassembled
  exact ⟨asm, eq_ok_of_toOption hasm, hwarnings, hdefine, hvalue, rfl⟩

end Breadboard.Assembler
