import Breadboard.Assembly.Listing
import Breadboard.Machine.Step
import Breadboard.Proofs.Isa.OpcodeTable
import Breadboard.Proofs.Machine.Loading

namespace Breadboard

open Assembly

theorem toNat_ofInt_byte (n : Int) : (UInt8.ofInt n).toNat = (n % 256).toNat := by
  have h : (UInt8.ofInt n).toNat = (n % 256).toNat % 256 := UInt8.toNat_ofNat'
  omega

theorem toNat_ofInt_word (n : Int) : (UInt16.ofInt n).toNat = (n % 65536).toNat := by
  have h : (UInt16.ofInt n).toNat = (n % 65536).toNat % 65536 := UInt16.toNat_ofNat'
  omega

theorem toUInt16_toUInt32 (v : Int32) : v.toUInt32.toUInt16 = UInt16.ofInt v.toInt := by
  have hv : v.toInt = v.toUInt32.toNat ∨ v.toInt = v.toUInt32.toNat - 4294967296 := by
    have hcond : v.toInt = _ := BitVec.toInt_eq_toNat_cond v.toBitVec
    rw [hcond]
    split
    · exact .inl rfl
    · exact .inr rfl
  apply UInt16.toNat_inj.1
  rw [toNat_ofInt_word, UInt32.toNat_toUInt16]
  omega

theorem word_lowOf_highOf (v : Int32) :
    word (lowOf v) (highOf v) = UInt16.ofInt v.toInt := by
  rw [← toUInt16_toUInt32]
  exact word_lowByte_highByte _

theorem lowOf_eq_ofInt (v : Int32) : lowOf v = UInt8.ofInt v.toInt := by
  apply UInt8.toNat_inj.1
  unfold lowOf
  rw [toNat_lowByte, toUInt16_toUInt32, toNat_ofInt_word, toNat_ofInt_byte]
  omega

theorem lowOf_ofNat (b : UInt8) : lowOf (Int32.ofNat b.toNat) = b := by
  have hvalue : (Int32.ofNat b.toNat).toInt = b.toNat :=
    Int32.toInt_ofNat_of_lt (Nat.lt_trans b.toNat_lt (by decide))
  have := b.toNat_lt
  rw [lowOf_eq_ofInt, hvalue, ← UInt8.toNat_inj, toNat_ofInt_byte]
  omega

theorem ofInt_add_byte (n : Int) (x : UInt8) :
    UInt8.ofInt n + x = UInt8.ofInt (n + x.toNat) := by
  apply UInt8.toNat_inj.1
  rw [UInt8.toNat_add, toNat_ofInt_byte, toNat_ofInt_byte]
  omega

private theorem ofInt_add_toUInt16 (n : Int) (x : UInt8) :
    UInt16.ofInt n + x.toUInt16 = UInt16.ofInt (n + x.toNat) := by
  apply UInt16.toNat_inj.1
  rw [UInt16.toNat_add, toNat_ofInt_word, toNat_ofInt_word, UInt8.toNat_toUInt16]
  omega

theorem toUInt16_ofInt_byte (n : Int) :
    (UInt8.ofInt n).toUInt16 = UInt16.ofInt (n % 256) := by
  apply UInt16.toNat_inj.1
  rw [UInt8.toNat_toUInt16, toNat_ofInt_byte, toNat_ofInt_word]
  omega

private theorem signExtend_ofInt {n : Int} (hlow : -128 ≤ n) (hhigh : n ≤ 127) :
    signExtend (UInt8.ofInt n) = UInt16.ofInt n := by
  have hnegative : isNegative (UInt8.ofInt n) = true ↔ n < 0 := by
    unfold isNegative
    rw [decide_eq_true_iff, UInt8.le_iff_toNat_le, toNat_ofInt_byte]
    change 128 ≤ _ ↔ _
    omega
  apply UInt16.toNat_inj.1
  unfold signExtend
  split
  · rename_i hbyte
    have hsign := hnegative.1 hbyte
    rw [toNat_word, toNat_ofInt_byte, toNat_ofInt_word]
    change _ + 256 * 255 = _
    omega
  · rename_i hbyte
    have hsign := mt hnegative.2 hbyte
    rw [toNat_word, toNat_ofInt_byte, toNat_ofInt_word]
    change _ + 256 * 0 = _
    omega

namespace AddressingMode

/-- The operand that a value denotes. Sums with an index wrap in page zero where the mode
keeps to it, and at the end of memory elsewhere. -/
def denoted (mode : AddressingMode) (v : Int) (r : Registers) (m : Memory) : Operand :=
  match mode with
  | .implied => .none
  | .accumulator => .accumulator
  | .immediate => .immediate (.ofInt v)
  | .zeroPage => .address (.ofInt v)
  | .zeroPageX => .address (.ofInt ((v + r.x.toNat) % 256))
  | .zeroPageY => .address (.ofInt ((v + r.y.toNat) % 256))
  | .relative | .absolute => .address (.ofInt v)
  | .absoluteX => .address (.ofInt (v + r.x.toNat))
  | .absoluteY => .address (.ofInt (v + r.y.toNat))
  | .indirect => .address (m.getWordInPage (.ofInt v))
  | .indexedIndirectX => .address (m.getZeroPageWord (.ofInt (v + r.x.toNat)))
  | .indirectIndexedY => .address (m.getZeroPageWord (.ofInt v) + r.y.toUInt16)

def usesPageZero : AddressingMode → Bool
  | .zeroPage | .zeroPageX | .zeroPageY | .indexedIndirectX | .indirectIndexedY => true
  | _ => false

/-- What an instruction followed by `next` encodes for the value of its operand:
the value itself, which lies in page zero if the mode wants that, or the
distance to it in a branch. -/
structure Encodes (mode : AddressingMode) (next : UInt16) (v encoded : Int32) : Prop where
  pageZero : mode.usesPageZero = true → 0 ≤ v.toInt ∧ v.toInt ≤ 255
  same : mode ≠ .relative → encoded = v
  near : mode = .relative → -128 ≤ encoded.toInt ∧ encoded.toInt ≤ 127
  distance : mode = .relative → next + UInt16.ofInt encoded.toInt = UInt16.ofInt v.toInt

variable {mode : AddressingMode} {base : UInt16} {r : Registers} {m : Memory}
    {opcode : UInt8} {v encoded : Int32}

theorem resolve_eq_denoted
    (hbytes : m.Holds base ([opcode, lowOf encoded, highOf encoded].take mode.size.toNat))
    (h : mode.Encodes r.pc v encoded) :
    (mode.resolve base r m).1 = mode.denoted v.toInt r m := by
  have hword : m.get (base + 1) = lowOf encoded → m.get (base + 1 + 1) = highOf encoded →
      m.getWord (base + 1) = UInt16.ofInt encoded.toInt := by
    intro hlow hhigh
    rw [Memory.getWord, hlow, hhigh, word_lowOf_highOf]
  have hpage : ∀ n : Int, 0 ≤ n → n ≤ 255 → n % 256 = n := by omega
  cases mode with
  | implied => rfl
  | accumulator => rfl
  | immediate =>
      obtain ⟨-, hlow, -⟩ := hbytes
      cases h.same (by decide)
      change Operand.immediate (m.get (base + 1)) = _
      rw [hlow, lowOf_eq_ofInt]
      rfl
  | zeroPage =>
      obtain ⟨-, hlow, -⟩ := hbytes
      cases h.same (by decide)
      obtain ⟨hmin, hmax⟩ := h.pageZero rfl
      change Operand.address (m.get (base + 1)).toUInt16 = _
      rw [hlow, lowOf_eq_ofInt, toUInt16_ofInt_byte, hpage _ hmin hmax]
      rfl
  | zeroPageX =>
      obtain ⟨-, hlow, -⟩ := hbytes
      cases h.same (by decide)
      change Operand.address (m.get (base + 1) + r.x).toUInt16 = _
      rw [hlow, lowOf_eq_ofInt, ofInt_add_byte, toUInt16_ofInt_byte]
      rfl
  | zeroPageY =>
      obtain ⟨-, hlow, -⟩ := hbytes
      cases h.same (by decide)
      change Operand.address (m.get (base + 1) + r.y).toUInt16 = _
      rw [hlow, lowOf_eq_ofInt, ofInt_add_byte, toUInt16_ofInt_byte]
      rfl
  | relative =>
      obtain ⟨-, hlow, -⟩ := hbytes
      obtain ⟨hmin, hmax⟩ := h.near rfl
      change Operand.address (r.pc + signExtend (m.get (base + 1))) = _
      rw [hlow, lowOf_eq_ofInt, signExtend_ofInt hmin hmax, h.distance rfl]
      rfl
  | absolute =>
      obtain ⟨-, hlow, hhigh, -⟩ := hbytes
      cases h.same (by decide)
      exact congrArg Operand.address (hword hlow hhigh)
  | absoluteX =>
      obtain ⟨-, hlow, hhigh, -⟩ := hbytes
      cases h.same (by decide)
      change Operand.address (m.getWord (base + 1) + r.x.toUInt16) = _
      rw [hword hlow hhigh, ofInt_add_toUInt16]
      rfl
  | absoluteY =>
      obtain ⟨-, hlow, hhigh, -⟩ := hbytes
      cases h.same (by decide)
      change Operand.address (m.getWord (base + 1) + r.y.toUInt16) = _
      rw [hword hlow hhigh, ofInt_add_toUInt16]
      rfl
  | indirect =>
      obtain ⟨-, hlow, hhigh, -⟩ := hbytes
      cases h.same (by decide)
      change Operand.address (m.getWordInPage (m.getWord (base + 1))) = _
      rw [hword hlow hhigh]
      rfl
  | indexedIndirectX =>
      obtain ⟨-, hlow, -⟩ := hbytes
      cases h.same (by decide)
      change Operand.address (m.getZeroPageWord (m.get (base + 1) + r.x)) = _
      rw [hlow, lowOf_eq_ofInt, ofInt_add_byte]
      rfl
  | indirectIndexedY =>
      obtain ⟨-, hlow, -⟩ := hbytes
      cases h.same (by decide)
      change Operand.address (m.getZeroPageWord (m.get (base + 1)) + r.y.toUInt16) = _
      rw [hlow, lowOf_eq_ofInt]
      rfl

theorem denoted_jump (mode : AddressingMode) (v : Int) (r : Registers) (next : UInt16)
    (m : Memory) :
    mode.denoted v (r.jump next) m = mode.denoted v r m := by
  cases mode <;> rfl

def blank : AddressingMode → Operand
  | .implied => .none
  | .accumulator => .accumulator
  | .immediate => .immediate 0
  | _ => .address 0

end AddressingMode

inductive Need
  | nothing
  | value
  /-- A place to read from and to write to. -/
  | place
  | address
deriving DecidableEq, Repr, Inhabited

def Need.admits : Need → Operand → Bool
  | .nothing, _ => true
  | .value, .none => false
  | .value, _ => true
  | .place, .accumulator | .place, .address _ | .address, .address _ => true
  | .place, _ | .address, _ => false

theorem Need.admits_denoted (need : Need) (mode : AddressingMode) (v : Int)
    (r : Registers) (m : Memory) :
    need.admits (mode.denoted v r m) = need.admits mode.blank := by
  cases need <;> cases mode <;> rfl

namespace Operation

def need : Operation → Need
  | .LDA | .LDX | .LDY | .ADC | .SBC | .AND | .ORA | .EOR | .BIT | .CMP | .CPX | .CPY =>
    .value
  | .ASL | .LSR | .ROL | .ROR | .INC | .DEC => .place
  | .STA | .STX | .STY | .JMP | .JSR | .BCC | .BCS | .BEQ | .BMI | .BNE | .BPL
    | .BVC | .BVS =>
      .address
  | _ => .nothing

/-- Whether an operation may go on elsewhere than after its instruction. -/
def transfers : Operation → Bool
  | .JMP | .JSR | .RTS | .RTI | .BRK => true
  | op => op.isBranch

variable {op : Operation} {s : Settings} {o : Operand} {base : UInt16} {r : Registers}
    {m : Memory} {effect : Effect}

theorem perform_of_isBranch (h : op.isBranch = true) :
    op.perform s o base r m = op.branch s o r := by
  cases op <;> first | rfl | cases h

theorem isSome_perform (h : op.need.admits o = true) :
    (op.perform s o base r m).isSome := by
  by_cases hbranch : op.isBranch = true
  · have haddress : op.need = .address := by
      cases op <;> first | rfl | cases hbranch
    rw [perform_of_isBranch hbranch]
    rw [haddress] at h
    cases o with
    | address a =>
        unfold branch
        split <;> rfl
    | _ => cases h
  · cases op <;>
      first | exact absurd rfl hbranch | rfl | (cases o <;> first | rfl | cases h)

theorem pc_of_perform (h : op.perform s o base r m = some effect)
    (hop : op.transfers = false) :
    effect.registers.pc = r.pc := by
  cases op <;> first
    | exact absurd hop Bool.noConfusion
    | (cases h; rfl)
    | (cases o <;> first | (cases h; rfl) | cases h)

theorem pc_of_branch {a : UInt16} (h : op.perform s (.address a) base r m = some effect)
    (hop : op.isBranch = true) :
    effect.registers.pc = if op.branches r.status then a else r.pc := by
  rw [perform_of_isBranch hop] at h
  unfold branch at h
  split at h
  · rename_i htaken
    cases h
    rw [if_pos htaken]
    rfl
  · rename_i htaken
    cases h
    rw [if_neg htaken]

theorem pc_of_jump (h : op.perform s o base r m = some effect)
    (hop : op = .JMP ∨ op = .JSR) :
    o = .address effect.registers.pc := by
  obtain rfl | rfl := hop
  all_goals
    cases o with
    | address a =>
        cases h
        rfl
    | _ => cases h

end Operation

theorem admits_of_mem_documented :
    ∀ e ∈ documented, e.op.need.admits e.mode.blank = true := by
  decide +kernel

end Breadboard
