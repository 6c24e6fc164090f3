import Breadboard.Proofs.Assembly.Execution
import Breadboard.Proofs.Assembly.Field

namespace Breadboard.Assembly

variable {p p' : Pass} {w : Warning} {modes : ModeSet} {mode mode' : AddressingMode}
    {v encoded : Int32} {l : Location}

private theorem mem_warn (h : w ∈ p.warnings) (kind : WarningKind) :
    w ∈ (p.warn kind).warnings := by
  unfold Pass.warn
  split
  · exact h
  · exact Array.mem_push_of_mem _ h

theorem mem_warnIf (h : w ∈ p.warnings) (condition : Bool) (kind : WarningKind) :
    w ∈ (p.warnIf condition kind).warnings := by
  unfold Pass.warnIf
  split
  · exact mem_warn h kind
  · exact h

theorem mem_define (h : w ∈ p.warnings) (key : String) (value : Int32)
    (kind : SymbolKind) :
    w ∈ (p.define key value kind).warnings := by
  unfold Pass.define
  dsimp only
  split
  · refine mem_warn ?_ _
    exact h
  · exact h

theorem mem_markInstruction (h : w ∈ p.warnings) : w ∈ p.markInstruction.warnings := by
  unfold Pass.markInstruction
  split
  · exact h
  · refine mem_warnIf ?_ _ _
    exact h

theorem preserved_warning (w : Warning) : Preserved (w ∈ ·.warnings) where
  enterLine _ h := h
  defineLabel {p} name h := by
    unfold Pass.defineLabel
    dsimp only
    split
    · exact mem_define (mem_warnIf h _ _) _ _ _
    · exact mem_define (p := p.openScope _) h _ _ _
  update hupdate h := by
    cases hupdate with
    | define name value => exact mem_define h _ _ _
    | move hmove =>
        cases hmove with
        | refer | assign | operand | place => exact h
        | markInstruction => exact mem_markInstruction h
        | moveTo value => exact mem_warnIf h _ _
        | markBreakpoint =>
            rw [Pass.markBreakpoint_eq]
            exact h
        | warnIf => exact mem_warnIf h _ _

private theorem mem_warnings_warnIf (hsecond : p.round = .second) {condition : Bool}
    (h : condition = true) (kind : WarningKind) :
    ⟨kind, p.line⟩ ∈ (p.warnIf condition kind).warnings := by
  unfold Pass.warnIf Pass.warn
  rw [if_pos h, hsecond]
  exact Array.mem_push_self

theorem holds_or_reported (hsecond : p.round = .second) {condition : Bool} {P : Prop}
    (h : condition = false → P) (kind : WarningKind) :
    P ∨ ⟨kind, p.line⟩ ∈ (p.warnIf condition kind).warnings := by
  cases hcondition : condition with
  | false => exact .inl (h hcondition)
  | true => exact .inr (mem_warnings_warnIf hsecond rfl kind)

/-- The field of an instruction at an address holds the value of the operand. A field in
page zero holds it as it is, and that of a branch the distance to it from the next
instruction. Any other may fail to hold it if that is reported. -/
def FieldHolds (warnings : Array Warning) (l : Location) (address : UInt16) (v : Int32)
    (field : List UInt8) : AddressingMode → Prop
  | .implied | .accumulator => field = []
  | .immediate => ReadsBack field v.toInt ∨ ⟨.immediateOutOfRange v, l⟩ ∈ warnings
  | .relative => signed field = v.toInt - (address.toNat + 2)
  | .absolute | .absoluteX | .absoluteY | .indirect =>
      ReadsBack field v.toInt ∨ ⟨.valueOutOfRange v, l⟩ ∈ warnings
  | .zeroPage | .zeroPageX | .zeroPageY | .indexedIndirectX | .indirectIndexedY =>
      unsigned field = v.toInt

theorem fieldHolds_mono {warnings warnings' : Array Warning}
    (hmore : ∀ w ∈ warnings, w ∈ warnings') {address : UInt16} {field : List UInt8}
    (h : FieldHolds warnings l address v field mode) :
    FieldHolds warnings' l address v field mode := by
  cases mode with
  | immediate | absolute | absoluteX | absoluteY | indirect => exact h.imp_right (hmore _)
  | _ => exact h

theorem bytes_instruction {entry : OpcodeEntry} (hsize : entry.size = entry.mode.size)
    (encoded : Int32) :
    (Item.instruction entry encoded).bytes = entry.opcode ::
        [lowOf encoded, highOf encoded].take (entry.mode.size.toNat - 1) ∧
      ([lowOf encoded, highOf encoded].take (entry.mode.size.toNat - 1)).length + 1 =
        entry.mode.size.toNat := by
  rw [Item.bytes, hsize]
  cases entry.mode <;> exact ⟨rfl, rfl⟩

theorem fieldHolds_of_settle (hsecond : p.round = .second)
    (hmode : mode = .indexedIndirectX ∨ mode = .indirectIndexedY ∨
      mode.usesPageZero = false)
    (h : settle modes mode (.known v) p = .ok (mode', encoded) p') :
    FieldHolds p'.warnings p.line p.address v
      ([lowOf encoded, highOf encoded].take (mode'.size.toNat - 1)) mode' := by
  have hword : ReadsBack [lowOf v, highOf v] v.toInt ∨
      ⟨.valueOutOfRange v,
        p.line⟩ ∈ (p.warnIf (!inWordRange v) (.valueOutOfRange v)).warnings :=
    holds_or_reported hsecond (fun hfits => readsBack_word (by simpa using hfits)) _
  cases mode with
  | implied | accumulator =>
      cases h
      rfl
  | immediate =>
      cases h
      exact holds_or_reported hsecond (fun hfits => readsBack_byte (by simpa using hfits))
        _
  | relative =>
      obtain ⟨offset, p₁, hbranch, h⟩ := bind_eq_ok_iff.1 h
      cases h
      obtain ⟨rfl, rfl, hnear⟩ := settleBranch_eq_ok_iff.1 hbranch
      exact (signed_byte (hnear hsecond)).trans (toInt_branchOffset (hnear hsecond))
  | indexedIndirectX | indirectIndexedY =>
      obtain ⟨hsame, rfl, hnear⟩ := pointer_eq_ok_iff.1 h
      cases hsame
      exact unsigned_byte (hnear hsecond)
  | zeroPage | zeroPageX | zeroPageY =>
      obtain h | h | h := hmode <;> cases h
  | indirect =>
      cases h
      exact hword
  | absolute | absoluteX | absoluteY =>
      cases h
      unfold downgrade
      dsimp only [AddressingMode.zeroPageForm?]
      split
      · rename_i hboth
        rw [Bool.and_eq_true] at hboth
        exact unsigned_byte hboth.1
      · exact hword

end Breadboard.Assembly
