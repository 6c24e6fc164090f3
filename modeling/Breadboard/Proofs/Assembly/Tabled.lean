import Breadboard.Proofs.Assembly.Definition

namespace Breadboard.Assembly

variable {key : String}

def symbolsOf (key : String) (entries : List ListingEntry) : List Symbol :=
  entries.filterMap fun e =>
    match e.event with
    | .define k value kind =>
      if k = key then some ⟨value, kind, some e.location⟩ else none
    | _ => none

private theorem definitions_eq_map (key : String) (entries : List ListingEntry) :
    definitions key entries = (symbolsOf key entries).map fun s => (s.value, s.kind) := by
  unfold definitions symbolsOf
  rw [List.map_filterMap]
  congr
  funext e
  obtain ⟨l, event⟩ := e
  cases event with
  | define k value kind =>
      dsimp only
      split <;> rfl
  | _ => rfl

private theorem symbolsOf_append (key : String) (before after : List ListingEntry) :
    symbolsOf key (before ++ after) = symbolsOf key before ++ symbolsOf key after :=
  List.filterMap_append

theorem symbolsOf_eq_nil_iff {entries : List ListingEntry} :
    symbolsOf key entries = [] ↔ definitions key entries = [] := by
  rw [definitions_eq_map, List.map_eq_nil_iff]

def Tabled (start : SymbolTable) (p : Pass) : Prop :=
  ∀ key, p.symbols[key]? = (symbolsOf key p.listing.toList).getLast?.or start[key]?

theorem preserved_tabled (start : SymbolTable) : Preserved (Tabled start) := by
  refine preserved_of_quiet (fun {p p'} hquiet h key => ?_)
    fun {p} key value kind h key' => ?_
  · obtain ⟨added, hadded⟩ := hquiet.listing
    have hnone : symbolsOf key added = [] := by
      have hsame := hquiet.definitions key
      rw [← hadded, definitions_append] at hsame
      exact symbolsOf_eq_nil_iff.2 (List.append_right_eq_self.1 hsame)
    rw [hquiet.symbols, h key, ← hadded, symbolsOf_append, hnone, List.append_nil]
  · have hlisting : (p.define key value kind).listing.toList =
        p.listing.toList ++ [⟨p.line, .define key value kind⟩] := by
      rw [p.define_eq]
      exact Array.toList_push
    have hsymbols : (p.define key value kind).symbols =
        p.symbols.insert key ⟨value, kind, some p.line⟩ := by
      rw [p.define_eq]
    rw [hlisting, hsymbols, Std.ExtTreeMap.getElem?_insert, symbolsOf_append]
    by_cases hkey : key = key'
    · simp [symbolsOf, hkey]
    · have hnone : symbolsOf key' [⟨p.line, .define key value kind⟩] = [] :=
        symbolsOf_eq_nil_iff.2 (definitions_define_ne hkey _ _ _)
      rw [hnone, List.append_nil, h key']
      simp [hkey]

private theorem exists_trap_of_mem_foldl (traps : List Trap) {t : SymbolTable}
    (ht : ∀ key ∈ t, ∃ trap : Trap, key = trap.symbol) :
    ∀ key ∈ traps.foldl (fun t trap =>
      t.insert trap.symbol ⟨Int32.ofNat trap.address.toNat, .builtin, none⟩) t,
      ∃ trap : Trap, key = trap.symbol := by
  induction traps generalizing t with
  | nil => exact ht
  | cons trap traps ih =>
      refine ih fun key hkey => ?_
      rcases Std.ExtTreeMap.mem_insert.1 hkey with heq | hkey
      · exact ⟨trap, (Std.LawfulEqCmp.compare_eq_iff_eq.1 heq).symm⟩
      · exact ht key hkey

theorem exists_trap_of_builtins {s : Symbol} (h : builtins[key]? = some s) :
    ∃ trap : Trap, key = trap.symbol := by
  have hnone : ∀ key ∈ (∅ : SymbolTable), ∃ trap : Trap, key = trap.symbol :=
    fun _ hkey => absurd hkey Std.ExtTreeMap.not_mem_empty
  refine exists_trap_of_mem_foldl Trap.all hnone key ?_
  exact Std.ExtTreeMap.mem_iff_isSome_getElem?.2 (Option.isSome_of_mem h)

end Breadboard.Assembly
