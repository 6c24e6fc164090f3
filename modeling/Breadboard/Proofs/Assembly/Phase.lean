import Breadboard.Proofs.Assembly.Complaint
import Breadboard.Proofs.Assembly.History

namespace Breadboard.Assembly

/-- A symbol that is defined in the entries `after` a reference to it, first as a label,
and that the first pass gave one value. -/
structure KeepsValue (firstPass after : List ListingEntry) (key : String) : Prop where
  label : ∃ value, (definitions key after).head? = some (value, .label)
  once : ∃ value, definitions key firstPass ≠ [] ∧
    ∀ x ∈ definitions key firstPass, x.1 = value

variable {start : SymbolTable} {first p : Pass} {key : String}

private theorem Vetted.value?_eq_of_mem {firstValues : Std.ExtTreeMap String Int32}
    (h : Vetted start firstValues p)
    (hquiet : ∀ w ∈ p.warnings, w.kind.ofDefinition = false) {x : Int32 × SymbolKind}
    (hx : x ∈ definitions key p.listing.toList) :
    p.symbols.value? key = some x.1 := by
  have hdefs := List.ne_nil_of_mem hx
  rw [h.value?_eq_getLast hdefs]
  by_contra hne
  obtain ⟨w, hw, _, _, hkind⟩ := h.redefinition key _ (List.getLast_mem hdefs) x hx
    fun hsame => hne (congrArg some hsame)
  have := hquiet w hw
  rw [hkind] at this
  cases this

private theorem KeepsValue.value?_eq
    (h : KeepsValue first.listing.toList p.listing.toList key)
    (hfirst : FirstValued first) (hvetted : Vetted start first.firstValues p)
    (hquiet : ∀ w ∈ p.warnings, w.kind.ofDefinition = false) :
    first.symbols.value? key = p.symbols.value? key := by
  obtain ⟨value, hlabel⟩ := h.label
  obtain ⟨old, hdefs, honce⟩ := h.once
  have hold : first.firstValues[key]? = some old := by
    rw [hfirst.firstValues, List.head?_eq_some_head hdefs]
    exact congrArg some (honce _ (List.head_mem hdefs))
  have hlast : first.symbols.value? key = some old := by
    rw [hfirst.recorded.symbols, valueAfter, List.getLast?_eq_some_getLast hdefs]
    exact congrArg some (honce _ (List.getLast_mem hdefs))
  have hsame : old = value := by
    by_contra hne
    obtain ⟨w, hw, hkind⟩ := (hvetted.drift key old value).1 ⟨hlabel, hold, hne⟩
    have := hquiet w hw
    rw [hkind] at this
    cases this
  rw [hlast, hvetted.value?_eq_of_mem hquiet (List.mem_of_head? hlabel), hsame]

private theorem reference_of_passes {before after : List ListingEntry} {l : Location}
    {value? : Option Int32} (hfirst : FirstValued first)
    (htruthful : Truthful first.symbols p)
    (hvetted : Vetted first.symbols first.firstValues p)
    (hquiet : ∀ w ∈ p.warnings, w.kind.ofDefinition = false)
    (hrefer : p.listing.toList = before ++ ⟨l, .refer key value?⟩ :: after) :
    value?.isSome ∧
      (definitions key before = [] → value? = first.symbols.value? key) ∧
      (definitions key before ≠ [] ∨ definitions key after = [] ∨
          KeepsValue first.listing.toList after key →
        value? = p.symbols.value? key) := by
  obtain ⟨hfound, hsome⟩ := htruthful.references hrefer
  have hnothing : definitions key [⟨l, .refer key value?⟩] = [] :=
    definitions_singleton rfl key
  have hdefinitions : definitions key p.listing.toList =
      definitions key before ++ definitions key after := by
    rw [hrefer, definitions_append, ← List.singleton_append, definitions_append, hnothing,
      List.nil_append]
  have hnew : definitions key before = [] → value? = first.symbols.value? key := by
    intro hnone
    rw [hfound, valueAfter, hnone]
    rfl
  refine ⟨hsome hvetted.round, hnew, fun hcases => ?_⟩
  by_cases hnone : definitions key before = []
  · rw [hnone, List.nil_append] at hdefinitions
    rw [hnew hnone]
    rcases hcases with hdefined | hnever | hkeeps
    · exact absurd hnone hdefined
    · rw [htruthful.symbols, valueAfter, hdefinitions, hnever]
      rfl
    · refine KeepsValue.value?_eq ⟨?_, hkeeps.once⟩ hfirst hvetted hquiet
      rw [hdefinitions]
      exact hkeeps.label
  · rw [hfound, valueAfter, List.getLast?_eq_some_getLast hnone]
    refine (hvetted.value?_eq_of_mem hquiet ?_).symm
    rw [hdefinitions]
    exact List.mem_append_left _ (List.getLast_mem hnone)

end Breadboard.Assembly

namespace Breadboard.Assembler

open Assembly

variable {a : Assembler} {d : Disk} {root : FileId} {m : Memory} {asm : Assembly}

/-- What a reference of the second pass finds if no definition is reported. It is the
value of the symbol in the end, except perhaps that of a symbol that has yet to be
defined, which has the value that the first pass left. -/
theorem reference_of_assemble (h : (a.assemble d root m).1 = .ok asm)
    (hquiet : ∀ w ∈ asm.warnings, w.kind.ofDefinition = false)
    {before after : List ListingEntry} {l : Location} {key : String}
    {value? : Option Int32}
    (hrefer : asm.listing.toList = before ++ ⟨l, .refer key value?⟩ :: after) :
    value?.isSome ∧
      (definitions key before = [] →
        value? = (a.firstPass d root).pass.symbols.value? key) ∧
      (definitions key before ≠ [] ∨ definitions key after = [] ∨
          KeepsValue (a.firstPass d root).pass.listing.toList after key →
        value? = asm.symbols.value? key) := by
  obtain ⟨hfirst, hsecond, rfl⟩ := assemble_eq_ok_iff.1 h
  exact reference_of_passes (firstValued_firstPass hfirst) (truthful_secondPass hsecond)
    (vetted_secondPass hsecond) hquiet hrefer

def forward : Assembler :=
  (addText {} "forward" "  .word here\nhere:").2

theorem reference_of_assemble_forward : ∃ asm before after l,
    (forward.assemble {} 0 (.filled 0)).1 = .ok asm ∧
      (∀ w ∈ asm.warnings, w.kind.ofDefinition = false) ∧
        asm.listing.toList = before ++ ⟨l, .refer "here" (some 514)⟩ :: after ∧
          KeepsValue (forward.firstPass {} 0).pass.listing.toList after "here" ∧
            some 514 = asm.symbols.value? "here" := by
  have hassembled : ∃ asm ∈ (forward.assemble {} 0 (.filled 0)).1.toOption,
      (∀ w ∈ asm.warnings, w.kind.ofDefinition = false) ∧
        asm.listing.toList = [⟨⟨0, "forward", 0⟩, .visit 512⟩] ++
          ⟨⟨0, "forward", 0⟩, .refer "here" (some 514)⟩ ::
            [⟨⟨0, "forward", 0⟩, .place 512 (.word 514)⟩, ⟨⟨0, "forward", 1⟩, .visit 514⟩,
              ⟨⟨0, "forward", 1⟩, .define "here" 514 .label⟩] := by
    decide +kernel
  obtain ⟨asm, hasm, hquiet, hrefer⟩ := hassembled
  have hkeeps : KeepsValue (forward.firstPass {} 0).pass.listing.toList
      [⟨⟨0, "forward", 0⟩, .place 512 (.word 514)⟩, ⟨⟨0, "forward", 1⟩, .visit 514⟩,
        ⟨⟨0, "forward", 1⟩, .define "here" 514 .label⟩] "here" :=
    ⟨⟨514, by decide +kernel⟩, ⟨514, by decide +kernel, by decide +kernel⟩⟩
  have hok := eq_ok_of_toOption hasm
  exact ⟨asm, _, _, _, hok, hquiet, hrefer, hkeeps,
    (reference_of_assemble hok hquiet hrefer).2.2 (.inr (.inr hkeeps))⟩

/-- Page zero shortens an instruction between the passes, which moves a symbol that is not
a label and a label that is placed twice. -/
def shifting : Assembler :=
  (addText {} "shifting" ("\n".intercalate
    ["  JMP here", "  JMP x", "x:", "  LDA zp", "  .org * - 2", "x:", "here = *",
      "zp = $10"])).2

/-- Both jumps of the program go past where their symbols are in the end,
and nothing is reported. -/
theorem stale_references_shifting : ∃ asm,
    (shifting.assemble {} 0 (.filled 0)).1 = .ok asm ∧ asm.warnings = #[] ∧
      ∀ key ∈ ["here", "x"], asm.symbols.value? key = some 518 ∧
        ∃ e ∈ asm.listing.toList, e.event = .refer key (some 519) := by
  have hassembled : ∃ asm ∈ (shifting.assemble {} 0 (.filled 0)).1.toOption,
    asm.warnings = #[] ∧
      ∀ key ∈ ["here", "x"], asm.symbols.value? key = some 518 ∧
        ∃ e ∈ asm.listing.toList, e.event = .refer key (some 519) := by
    decide +kernel
  obtain ⟨asm, hasm, hfacts⟩ := hassembled
  exact ⟨asm, eq_ok_of_toOption hasm, hfacts⟩

end Breadboard.Assembler
