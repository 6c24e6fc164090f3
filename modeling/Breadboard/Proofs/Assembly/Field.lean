import Breadboard.Assembly.Statement
import Breadboard.Proofs.Machine.Decoding

namespace Breadboard.Assembly

def unsigned : List UInt8 → Nat
  | [] => 0
  | b :: bs => b.toNat + 256 * unsigned bs

def signed : List UInt8 → Int
  | [] => 0
  | [b] => if b.toNat < 128 then b.toNat else b.toNat - 256
  | b :: c :: bs => b.toNat + 256 * signed (c :: bs)

/-- A value is read back from a field, as a number of either kind. -/
def ReadsBack (field : List UInt8) (v : Int) : Prop :=
  unsigned field = v ∨ signed field = v

variable {v : Int32}

theorem toInt_of_le {low high : Int32} (h : (low ≤ v && v ≤ high) = true) :
    low.toInt ≤ v.toInt ∧ v.toInt ≤ high.toInt := by
  simpa only [Bool.and_eq_true, decide_eq_true_iff, Int32.le_iff_toInt_le] using h

private theorem toInt_of_inByteRange (h : inByteRange v = true) :
    -128 ≤ v.toInt ∧ v.toInt ≤ 255 :=
  toInt_of_le h

private theorem toInt_of_inWordRange (h : inWordRange v = true) :
    -32768 ≤ v.toInt ∧ v.toInt ≤ 65535 :=
  toInt_of_le h

theorem toInt_of_inZeroPage (h : inZeroPage v = true) : 0 ≤ v.toInt ∧ v.toInt ≤ 255 :=
  toInt_of_le h

theorem toInt_of_inBranchRange (h : inBranchRange v = true) :
    -128 ≤ v.toInt ∧ v.toInt ≤ 127 :=
  toInt_of_le h

theorem unsigned_byte (h : inZeroPage v = true) : unsigned [lowOf v] = v.toInt := by
  have hbounds := toInt_of_inZeroPage h
  rw [unsigned, unsigned, lowOf_eq_ofInt, toNat_ofInt_byte]
  omega

theorem signed_byte (h : inBranchRange v = true) : signed [lowOf v] = v.toInt := by
  have hbounds := toInt_of_inBranchRange h
  rw [signed, lowOf_eq_ofInt, toNat_ofInt_byte]
  omega

theorem readsBack_byte (h : inByteRange v = true) : ReadsBack [lowOf v] v.toInt := by
  have hbounds := toInt_of_inByteRange h
  unfold ReadsBack
  rw [signed, unsigned, unsigned, lowOf_eq_ofInt, toNat_ofInt_byte]
  omega

private theorem unsigned_word (v : Int32) :
    (lowOf v).toNat + 256 * (highOf v).toNat = (v.toInt % 65536).toNat := by
  have hword := congrArg UInt16.toNat (word_lowOf_highOf v)
  rw [toNat_word, toNat_ofInt_word] at hword
  exact hword

theorem readsBack_word (h : inWordRange v = true) :
    ReadsBack [lowOf v, highOf v] v.toInt := by
  have hbounds := toInt_of_inWordRange h
  have hword := unsigned_word v
  have hlow := (lowOf v).toNat_lt
  have hhigh := (highOf v).toNat_lt
  unfold ReadsBack
  simp only [signed, unsigned]
  omega

theorem toNat_address (h : (v < 0 || 0xFFFF < v) = false) :
    (v.toUInt32.toUInt16.toNat : Int) = v.toInt := by
  simp only [Bool.or_eq_false_iff, decide_eq_false_iff_not, Int32.not_lt,
    Int32.le_iff_toInt_le] at h
  have hbounds : 0 ≤ v.toInt ∧ v.toInt ≤ 65535 := h
  rw [toUInt16_toUInt32, toNat_ofInt_word]
  omega

theorem toInt_branchOffset {address : UInt16}
    (h : inBranchRange (branchOffset address (.known v)) = true) :
    (branchOffset address (.known v)).toInt = v.toInt - (address.toNat + 2) := by
  have hbounds := toInt_of_inBranchRange h
  have haddress := address.toNat_lt
  have hnext : (Int32.ofNat address.toNat + 2).toInt = address.toNat + 2 := by
    rw [Int32.toInt_add, Int32.toInt_ofNat_of_lt (by omega)]
    change ((address.toNat : Int) + 2).bmod 4294967296 = _
    rw [Int.bmod_eq_of_le (by omega) (by omega)]
  have hlow := v.le_toInt
  have hhigh := v.toInt_lt
  have hdistance : (branchOffset address (.known v)).toInt =
      (v.toInt - (address.toNat + 2)).bmod 4294967296 := by
    rw [branchOffset, Int32.toInt_sub, hnext]
  rw [hdistance, Int.bmod_def] at hbounds ⊢
  omega

end Breadboard.Assembly
