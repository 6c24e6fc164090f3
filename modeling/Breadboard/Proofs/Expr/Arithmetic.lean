import Breadboard.Expr.Operator
import Mathlib.Data.Int.Bitwise

namespace Breadboard.Expr

def Unary.onInt : Unary → Int → Int
  | .low, n => n % 256
  | .high, n => n / 256 % 256
  | .negate, n => -n

def ShiftsOut (count : Int) : Prop :=
  count < 0 ∨ 32 ≤ count

instance (count : Int) : Decidable (ShiftsOut count) :=
  inferInstanceAs (Decidable (_ ∨ _))

/-- The word that a binary operator makes of two, if it makes one. -/
def Binary.onWords? : Binary → Int32 → Int32 → Option Int32
  | .or, l, r => some (l ||| r)
  | .and, l, r => some (l &&& r)
  | .shiftLeft, l, r =>
      some (if ShiftsOut r.toInt then 0 else .ofInt (l.toInt * 2 ^ r.toInt.toNat))
  | .shiftRight, l, r =>
      some (if ShiftsOut r.toInt then if l.toInt < 0 then -1 else 0
        else .ofInt (l.toInt / 2 ^ r.toInt.toNat))
  | .add, l, r => some (.ofInt (l.toInt + r.toInt))
  | .sub, l, r => some (.ofInt (l.toInt - r.toInt))
  | .mul, l, r => some (.ofInt (l.toInt * r.toInt))
  | .div, l, r => if r.toInt = 0 then none else some (.ofInt (l.toInt.tdiv r.toInt))

private theorem toInt_eq_toNat_or (v : Int32) :
    v.toInt = v.toBitVec.toNat ∨ v.toInt = v.toBitVec.toNat - 2 ^ 32 := by
  have hint : v.toInt = v.toBitVec.toInt := rfl
  rw [BitVec.toInt_eq_toNat_cond] at hint
  split at hint
  · exact .inl hint
  · exact .inr hint

private theorem and_lowByte (v : Int32) : v &&& 0xFF = .ofInt (v.toInt % 256) := by
  apply Int32.toBitVec_inj.1
  apply BitVec.eq_of_toNat_eq
  have hand : v.toBitVec.toNat &&& 255 = v.toBitVec.toNat % 256 :=
    Nat.and_two_pow_sub_one_eq_mod _ 8
  have hlit : (Int32.toBitVec 255).toNat = 255 := by decide
  rw [Int32.toBitVec_and, BitVec.toNat_and, hlit, hand, Int32.toBitVec_ofInt,
    BitVec.toNat_ofInt]
  rcases toInt_eq_toNat_or v with hint | hint <;> rw [hint] <;> omega

private theorem toNat_shiftCount {r : Int32} (h : ¬ ShiftsOut r.toInt) :
    (r.toBitVec.smod 32#32).toNat = r.toInt.toNat := by
  have hmod := BitVec.toInt_smod (x := r.toBitVec) (y := 32#32)
  have h32 : (32#32).toInt = 32 := by decide
  have hlt := (r.toBitVec.smod 32#32).isLt
  rw [Int.fmod_eq_emod_of_nonneg _ (by decide), h32, BitVec.toInt_eq_toNat_cond] at hmod
  unfold ShiftsOut at h
  change _ = r.toInt % 32 at hmod
  split at hmod <;> omega

private theorem toInt_shiftRight {l r : Int32} (h : ¬ ShiftsOut r.toInt) :
    (l >>> r).toInt = l.toInt / 2 ^ r.toInt.toNat := by
  change (l.toBitVec.sshiftRight (r.toBitVec.smod 32#32).toNat).toInt = _
  rw [toNat_shiftCount h, BitVec.toInt_sshiftRight, Int.shiftRight_eq_div_pow,
    Nat.cast_pow]
  rfl

private theorem shiftRight_eq_ofInt {l r : Int32} (h : ¬ ShiftsOut r.toInt) :
    l >>> r = .ofInt (l.toInt / 2 ^ r.toInt.toNat) := by
  rw [← toInt_shiftRight h, Int32.ofInt_toInt]

private theorem shiftLeft_eq_ofInt {l r : Int32} (h : ¬ ShiftsOut r.toInt) :
    l <<< r = .ofInt (l.toInt * 2 ^ r.toInt.toNat) := by
  apply Int32.toBitVec_inj.1
  change l.toBitVec <<< (r.toBitVec.smod 32#32).toNat = _
  have hpow : BitVec.ofInt 32 (2 ^ r.toInt.toNat) = BitVec.twoPow 32 r.toInt.toNat := by
    apply BitVec.eq_of_toNat_eq
    rw [BitVec.toNat_ofInt, BitVec.toNat_twoPow,
      ← Int.toNat_natCast (2 ^ r.toInt.toNat % 2 ^ 32)]
    push_cast
    rfl
  rw [toNat_shiftCount h, BitVec.shiftLeft_eq_mul_twoPow, Int32.toBitVec_ofInt,
    BitVec.ofInt_mul, hpow]
  congr 1
  exact BitVec.ofInt_toInt.symm

theorem Unary.apply_eq_ofInt (op : Unary) (v : Int32) :
    op.apply v = .ofInt (op.onInt v.toInt) := by
  cases op with
  | low => exact and_lowByte v
  | high =>
      have hcount : ¬ ShiftsOut (8 : Int32).toInt := by decide
      have hshift : (v >>> 8).toInt = v.toInt / 256 := toInt_shiftRight hcount
      change v >>> 8 &&& 0xFF = _
      rw [and_lowByte, hshift]
      rfl
  | negate => simp [apply, onInt]

theorem Binary.apply_eq_ok_iff {op : Binary} {l r v : Int32} :
    op.apply l r = .ok v ↔ op.onWords? l r = some v := by
  have hcount : (0 ≤ r ∧ r < 32) ↔ ¬ ShiftsOut r.toInt := by
    rw [Int32.le_iff_toInt_le, Int32.lt_iff_toInt_lt]
    unfold ShiftsOut
    change (0 ≤ r.toInt ∧ r.toInt < 32) ↔ _
    omega
  cases op with
  | or => simp [apply, onWords?]
  | and => simp [apply, onWords?]
  | shiftLeft =>
      by_cases h : ShiftsOut r.toInt
      · simp [apply, onWords?, hcount, h]
      · simp [apply, onWords?, hcount, h, shiftLeft_eq_ofInt h]
  | shiftRight =>
      have hneg : l < 0 ↔ l.toInt < 0 := Int32.lt_iff_toInt_lt
      by_cases h : ShiftsOut r.toInt
      · simp [apply, onWords?, hcount, h, hneg]
      · simp [apply, onWords?, hcount, h, shiftRight_eq_ofInt h]
  | add => simp [apply, onWords?]
  | sub => simp [apply, onWords?]
  | mul => simp [apply, onWords?]
  | div =>
      have hzero : r = 0 ↔ r.toInt = 0 := Int32.toInt_inj.symm
      by_cases h : r.toInt = 0
      · simp [apply, onWords?, hzero, h]
      · have hdiv : l / r = .ofInt (l.toInt.tdiv r.toInt) := by
          apply Int32.toInt_inj.1
          rw [Int32.toInt_div, Int32.toInt_ofInt]
        simp [apply, onWords?, hzero, h, hdiv]

end Breadboard.Expr
