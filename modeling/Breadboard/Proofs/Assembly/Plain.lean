import Breadboard.Proofs.Assembly.Address
import Breadboard.Proofs.Assembly.Execution

namespace Breadboard.Assembly

variable {p p' : Pass} {added : List ListingEntry} {op : Operation} {modes : ModeSet}
    {line : Line} {mode : AddressingMode} {value : Expr.Value}

/-- Such an event neither defines nor encodes anything. -/
def Event.isPlain : Event → Bool
  | .visit _ | .refer .. | .assign _ | .operand .. => true
  | _ => false

def AllPlain (entries : List ListingEntry) : Prop :=
  ∀ e ∈ entries, e.event.isPlain = true

theorem addressAfter_of_allPlain (h : AllPlain added) (here : UInt16) :
    addressAfter here added = here := by
  induction added with
  | nil => rfl
  | cons e added ih =>
      have hstays : e.event.addressAfter here = here := by
        obtain ⟨l, event⟩ := e
        cases event with
        | define | place | origin => cases h _ List.mem_cons_self
        | _ => rfl
      change addressAfter (e.event.addressAfter here) added = here
      rw [hstays]
      exact ih fun e' hmem => h e' (List.mem_cons_of_mem _ hmem)

theorem definitions_of_allPlain (h : AllPlain added) (key : String) :
    definitions key added = [] := by
  refine List.filterMap_eq_nil_iff.2 fun e hmem => ?_
  have hplain := h e hmem
  obtain ⟨l, event⟩ := e
  cases event with
  | define => cases hplain
  | _ => rfl

def Plainly (p p' : Pass) : Prop :=
  ∃ added, p'.listing.toList = p.listing.toList ++ added ∧ AllPlain added

namespace Plainly

theorem of_listing (h : p'.listing = p.listing) : Plainly p p' :=
  ⟨[], by rw [h, List.append_nil], fun _ => nofun⟩

theorem trans {p'' : Pass} (h : Plainly p p') (h' : Plainly p' p'') : Plainly p p'' := by
  obtain ⟨added, hlisting, hplain⟩ := h
  obtain ⟨added', hlisting', hplain'⟩ := h'
  refine ⟨added ++ added',
    ?_, fun e hmem => (List.mem_append.1 hmem).elim (hplain e) (hplain' e)⟩
  rw [hlisting', hlisting, List.append_assoc]

theorem record (p : Pass) {event : Event} (h : event.isPlain = true) :
    Plainly p (p.record event) := by
  refine ⟨[⟨p.line, event⟩], Array.toList_push, fun e hmem => ?_⟩
  cases List.mem_singleton.1 hmem
  exact h

theorem recordReferences (p : Pass) (names : List String) :
    Plainly p (p.recordReferences names) := by
  unfold Pass.recordReferences
  induction names generalizing p with
  | nil => exact of_listing rfl
  | cons name names ih => exact (record p rfl).trans (ih _)

theorem warnIf (p : Pass) (condition : Bool) (kind : WarningKind) :
    Plainly p (p.warnIf condition kind) := by
  rw [p.warnIf_eq]
  exact of_listing rfl

theorem markInstruction (p : Pass) : Plainly p p.markInstruction := by
  rw [p.markInstruction_eq]
  exact of_listing rfl

theorem markBreakpoint (p : Pass) : Plainly p p.markBreakpoint := by
  rw [p.markBreakpoint_eq]
  exact of_listing rfl

theorem of_operand {a : AddressingMode × Expr.Value × Line}
    (h : operand op modes line p = .ok a p') :
    Plainly p p' := by
  obtain ⟨names, rfl⟩ := exists_recordReferences_of_operand h
  exact recordReferences p names

theorem of_settle {a : AddressingMode × Int32}
    (h : settle modes mode value p = .ok a p') :
    Plainly p p' := by
  obtain ⟨condition, kind, -, rfl⟩ := exists_warnIf_of_settle h
  exact warnIf p condition kind

end Plainly

end Breadboard.Assembly
