import Breadboard.Proofs.Assembly.Field
import Breadboard.Proofs.Assembly.Operand
import Breadboard.Proofs.Machine.Execution

namespace Breadboard.Assembly

open Read

variable {p p' p₁ : Pass} {op : Operation} {modes : ModeSet} {line rest : Line}
  {mode mode' : AddressingMode} {value : Expr.Value} {v encoded : Int32}

theorem operand_cases (h : operand op modes line p = .ok (mode, value, rest) p') :
    value = .known 0 ∧ (mode = bareMode modes ∨ mode = .accumulator) ∧ p' = p ∨
      mode = .immediate ∧ (∃ r, Expr.evalOperand p.context false (skip line) = .ok r ∧
        r.operand.value = value ∧ p' = p.recordReferences r.asked) ∨
      addressOperand op modes line p = .ok (mode, value, rest) p' := by
  obtain ⟨token?, -, h⟩ := lift_bind_eq_ok_iff.1 h
  split at h
  · cases h
    exact .inl ⟨rfl, .inl rfl, rfl⟩
  · obtain ⟨_, p₁, hread, h⟩ := bind_eq_ok_iff.1 h
    obtain ⟨r, heval, rfl, rfl⟩ := value_eq_ok_iff.1 hread
    cases h
    exact .inr (.inl ⟨rfl, r, heval, rfl, rfl⟩)
  · split at h
    · cases h
      exact .inl ⟨rfl, .inr rfl, rfl⟩
    · exact .inr (.inr h)
  · exact .inr (.inr h)

theorem exists_recordReferences_of_operand
    (h : operand op modes line p = .ok (mode, value, rest) p') :
    ∃ names, p' = p.recordReferences names := by
  obtain ⟨-, -, rfl⟩ | ⟨-, r, -, -, rfl⟩ | haddress := operand_cases h
  · exact ⟨[], rfl⟩
  · exact ⟨r.asked, rfl⟩
  · obtain ⟨r, -, -, rfl, -⟩ := addressOperand_eq_ok_iff.1 haddress
    exact ⟨r.asked, rfl⟩

private theorem usesPageZero_of_indexing {enclosure : Expr.Enclosure} {ts : List Token}
    (h : Indexing enclosure ts mode) :
    mode = .indexedIndirectX ∨ mode = .indirectIndexedY ∨ mode.usesPageZero = false := by
  cases h <;> simp [AddressingMode.usesPageZero]

theorem usesPageZero_of_operand
    (h : operand op modes line p = .ok (mode, value, rest) p') :
    mode = .indexedIndirectX ∨ mode = .indirectIndexedY ∨ mode.usesPageZero = false := by
  obtain ⟨-, rfl | rfl, -⟩ | ⟨rfl, -⟩ | haddress := operand_cases h
  · unfold bareMode
    split <;> exact .inr (.inr rfl)
  · exact .inr (.inr rfl)
  · exact .inr (.inr rfl)
  · obtain ⟨r, -, -, -, hmode⟩ := addressOperand_eq_ok_iff.1 haddress
    split at hmode
    · obtain ⟨rfl, -⟩ := hmode
      exact .inr (.inr rfl)
    · obtain ⟨us, -, -, hindexing⟩ := exists_indexing_of_shape hmode
      exact usesPageZero_of_indexing hindexing

theorem exists_known_of_operand (hsecond : p.round = .second)
    (h : operand op modes line p = .ok (mode, value, rest) p') :
    ∃ v, value = .known v := by
  obtain ⟨rfl, -⟩ | ⟨-, r, heval, rfl, -⟩ | haddress := operand_cases h
  · exact ⟨0, rfl⟩
  · exact exists_known_of_evalOperand hsecond heval
  · obtain ⟨r, heval, rfl, -⟩ := addressOperand_eq_ok_iff.1 haddress
    exact exists_known_of_evalOperand hsecond heval

private theorem distance_branchOffset (address : UInt16) (v : Int32) :
    address + 2 + UInt16.ofInt (branchOffset address (.known v)).toInt =
      UInt16.ofInt v.toInt := by
  have haddress : (Int32.ofNat address.toNat).toUInt32.toUInt16 = address := by
    simp [Int32.toUInt32_ofNat']
  rw [← toUInt16_toUInt32, ← toUInt16_toUInt32, branchOffset, Int32.toUInt32_sub,
    Int32.toUInt32_add, UInt32.toUInt16_sub, UInt32.toUInt16_add, haddress]
  change address + 2 + (v.toUInt32.toUInt16 - (address + 2)) = _
  grind

theorem encodes_self (hmode : mode.usesPageZero = true → 0 ≤ v.toInt ∧ v.toInt ≤ 255)
    (hother : mode ≠ .relative) (next : UInt16) : mode.Encodes next v v where
  pageZero := hmode
  same _ := rfl
  near h := absurd h hother
  distance h := absurd h hother

private theorem encodes_downgrade (hmode : mode.usesPageZero = false)
    (hother : mode ≠ .relative) (next : UInt16) :
    (downgrade modes mode v).Encodes next v v := by
  unfold downgrade
  split
  · rename_i short hshort
    split
    · rename_i hboth
      rw [Bool.and_eq_true] at hboth
      refine encodes_self (fun _ => toInt_of_inZeroPage hboth.1) ?_ next
      rintro rfl
      cases mode <;> cases hshort
    · exact encodes_self (by simp [hmode]) hother next
  · exact encodes_self (by simp [hmode]) hother next

private theorem encodes_of_settle (hsecond : p.round = .second)
    (hmode : mode = .indexedIndirectX ∨ mode = .indirectIndexedY ∨
      mode.usesPageZero = false)
    (h : settle modes mode (.known v) p = .ok (mode', encoded) p') :
    mode'.Encodes (p.address + mode'.size.toUInt16) v encoded := by
  have hlong : ∀ {mode : AddressingMode}, mode.usesPageZero = false → mode ≠ .relative →
      (downgrade modes mode v, v) = (mode', encoded) →
      mode'.Encodes (p.address + mode'.size.toUInt16) v encoded := by
    rintro mode hmode hother ⟨⟩
    exact encodes_downgrade hmode hother _
  cases mode with
  | relative =>
      obtain ⟨offset, p₁, hbranch, h⟩ := bind_eq_ok_iff.1 h
      cases h
      obtain ⟨rfl, -, hnear⟩ := settleBranch_eq_ok_iff.1 hbranch
      exact {
        pageZero := fun h => by cases h
        same := fun h => absurd rfl h
        near := fun _ => toInt_of_inBranchRange (hnear hsecond)
        distance := fun _ => distance_branchOffset p.address v }
  | indexedIndirectX | indirectIndexedY =>
      obtain ⟨hsame, -, hnear⟩ := pointer_eq_ok_iff.1 h
      cases hsame
      exact encodes_self (fun _ => toInt_of_inZeroPage (hnear hsecond)) (by decide) _
  | implied | accumulator | immediate =>
      cases h
      exact encodes_self (fun h => by cases h) (by decide) _
  | zeroPage | zeroPageX | zeroPageY =>
      obtain h | h | h := hmode <;> cases h
  | absolute | absoluteX | absoluteY | indirect =>
      cases h
      exact hlong rfl (by decide) rfl

/-- An instruction is placed for an operand of some value, in the mode of the operand's
shape or in its form in page zero. Its bytes are stored unless something placed later
covers them, and any machine executes it while they stand in memory. -/
structure Executable (p p' : Pass) (shape : AddressingMode) (v : Int32)
    (entry : OpcodeEntry) (encoded : Int32) : Prop where
  mode : entry.mode = shape ∨ shape.zeroPageForm? = some entry.mode
  pageZero : entry.mode.usesPageZero = true → 0 ≤ v.toInt ∧ v.toInt ≤ 255
  placed : p'.listing.placements =
    p.listing.placements ++ [(p.address, .instruction entry encoded)]
  stored : ∀ (listing : Listing) (later : List (UInt16 × Item)) (memory : Memory),
    listing.placements = p'.listing.placements ++ later →
      (∀ chunk ∈ later, ∀ i < (Item.instruction entry encoded).bytes.length,
        ¬Covers chunk (p.address + UInt16.ofNat i)) →
      (listing.writeTo memory).Holds p.address (Item.instruction entry encoded).bytes
  executed : ∀ {δ : Type} [Host δ] (m : Machine δ), m.registers.pc = p.address →
    m.memory.Holds p.address (Item.instruction entry encoded).bytes →
      ∃ effect, m.Executes entry v.toInt p'.address effect

private theorem length_instruction_bytes {entry : OpcodeEntry}
    (hsize : entry.size = entry.mode.size) (encoded : Int32) :
    UInt16.ofNat (Item.instruction entry encoded).bytes.length = entry.size.toUInt16 := by
  rw [Item.bytes, hsize]
  cases entry.mode <;> rfl

private theorem length_instruction_bytes_le (entry : OpcodeEntry) (encoded : Int32) :
    (Item.instruction entry encoded).bytes.length ≤ 65536 := by
  have hthree : [entry.opcode, lowOf encoded, highOf encoded].length = 3 := rfl
  rw [Item.bytes, List.length_take]
  omega

/-- What the second pass assembles for an instruction is executed as that instruction. -/
theorem executable_of_instruction (hsecond : p.round = .second)
    (h : instruction op line p = .ok rest p') :
    ∃ shape v p₁ entry encoded,
      operand op (opcodes.modes op) line p = .ok (shape, .known v, rest) p₁ ∧
      entry.op = op ∧
        Executable p p' shape v entry encoded := by
  obtain ⟨shape, value, p₁, mode, encoded, p₂, entry, hoperand, hsettle, hentry, rfl⟩ :=
    instruction_eq_ok_iff.1 h
  obtain ⟨v, rfl⟩ := exists_known_of_operand hsecond hoperand
  obtain ⟨hdocumented, rfl, rfl⟩ := holds_opcodes.lookup?_eq_some_iff.1 hentry
  have hdecodes := decode?_of_mem_documented hdocumented
  have hsize : entry.size = entry.mode.size := regular_documented.sizes entry hdocumented
  have hcalm := calm_of_operand hoperand
  have hcalm' := calm_of_encoding hoperand hsettle
  have hencodes := encodes_of_settle (p := p₁.record (.operand entry.op shape (.known v)))
    (hcalm.round.trans hsecond) (usesPageZero_of_operand hoperand) hsettle
  have hnext : (p₂.markInstruction.place (.instruction entry encoded)).address =
      p.address + entry.size.toUInt16 := by
    change p₂.markInstruction.address + UInt16.ofNat _ = _
    rw [hcalm'.address, length_instruction_bytes hsize]
  have hencodes' : entry.mode.Encodes (p.address + entry.size.toUInt16) v encoded := by
    rw [hsize, ← hcalm.address]
    exact hencodes
  have hplaced :
      (p₂.markInstruction.place (.instruction entry encoded)).listing.placements =
        p.listing.placements ++ [(p.address, .instruction entry encoded)] := by
    change Listing.placements (p₂.markInstruction.listing.push _) = _
    rw [placements_push, hcalm'.placements, hcalm'.address]
  refine ⟨shape, v, p₁, entry, encoded, hoperand, rfl, ?_⟩
  refine {
    mode := ?_
    pageZero := hencodes.pageZero
    placed := hplaced
    stored := fun listing later memory hlisting hlater => ?_
    executed := fun m hpc hbytes => ?_ }
  · rw [(settle_eq_ok hsettle).1]
    exact settledMode_cases (opcodes.modes entry.op) shape (.known v)
  · rw [Listing.writeTo, hlisting, hplaced, List.append_assoc]
    exact holds_writeAll (length_instruction_bytes_le entry encoded) hlater
  · rw [hnext]
    rw [← hpc] at hbytes hencodes' ⊢
    exact Machine.exists_executes hdecodes hsize (mode_eq_relative_iff entry hdocumented)
      (admits_of_mem_documented entry hdocumented) rfl hencodes' hbytes

def atEndOfMemory : Pass :=
  { (Pass.initial {}).next with address := 0xFFFF }

theorem executable_of_instruction_atEndOfMemory :
    ∃ rest p', atEndOfMemory.round = .second ∧
      instruction .STA (.ofString "$12F0,X") atEndOfMemory = .ok rest p' ∧
      ∃ shape v p₁ entry encoded,
        operand .STA (opcodes.modes .STA) (.ofString "$12F0,X") atEndOfMemory =
          .ok (shape, .known v, rest) p₁ ∧ entry.op = .STA ∧
            Executable atEndOfMemory p' shape v entry encoded := by
  have hassembled : (match instruction .STA (.ofString "$12F0,X") atEndOfMemory with
      | .ok _ _ => true
      | .error _ _ => false) = true := by
    decide +kernel
  cases h : instruction .STA (.ofString "$12F0,X") atEndOfMemory with
  | ok rest p' => exact ⟨rest, p', rfl, rfl, executable_of_instruction rfl h⟩
  | error kind p' =>
      rw [h] at hassembled
      cases hassembled

end Breadboard.Assembly
