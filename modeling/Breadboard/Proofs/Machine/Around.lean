import Breadboard.Proofs.Machine.Spelling
import Mathlib.Data.List.Rotate

namespace Breadboard.Memory

variable {m : Memory} {a : UInt16} {bytes other : List UInt8}

def around (m : Memory) (a : UInt16) : List UInt8 :=
  m.toList.rotate a.toNat

theorem length_toList (m : Memory) : m.toList.length = 65536 :=
  m.cells.length_toList

theorem getElem_toList {i : Nat} (h : i < m.toList.length) :
    m.toList[i] = m.get (UInt16.ofNat i) := by
  have hi : (UInt16.ofNat i).toNat = i :=
    UInt16.toNat_ofNat_of_lt' (Nat.lt_of_lt_of_eq h m.length_toList)
  unfold get
  simp only [hi]
  rfl

private theorem length_around (m : Memory) (a : UInt16) : (m.around a).length = 65536 :=
  (List.length_rotate m.toList a.toNat).trans m.length_toList

theorem getElem_around {i : Nat} (h : i < (m.around a).length) :
    (m.around a)[i] = m.get (a + UInt16.ofNat i) := by
  have hplace : UInt16.ofNat ((i + a.toNat) % m.toList.length) = a + UInt16.ofNat i := by
    rw [← UInt16.toNat_inj, m.length_toList, UInt16.toNat_ofNat', UInt16.toNat_add,
      UInt16.toNat_ofNat']
    omega
  have hrotate := List.getElem_rotate m.toList a.toNat i h
  rw [getElem_toList, hplace] at hrotate
  exact hrotate

private theorem holds_iff_isPrefix (h : bytes.length ≤ 65536) : m.Holds a bytes ↔
    bytes <+: m.around a := by
  rw [holds_iff, List.prefix_iff_getElem]
  constructor
  · intro hholds
    refine ⟨by rwa [length_around], fun i hi => ?_⟩
    rw [getElem_around, hholds i hi]
  · rintro ⟨_, hsame⟩ i hi
    rw [hsame i hi, getElem_around]

/-- Some bytes are a run of bytes other than zero, from an address on and around
memory. -/
structure IsRun (m : Memory) (a : UInt16) (bytes : List UInt8) : Prop where
  isPrefix : bytes <+: m.around a
  nonzero : 0 ∉ bytes

/-- Every run from the address on is a beginning of this one. -/
structure IsLongestRun (m : Memory) (a : UInt16) (bytes : List UInt8) : Prop
    extends m.IsRun a bytes where
  longest : ∀ other, m.IsRun a other → other <+: bytes

private theorem Spells.isRun (h : m.Spells 65536 a bytes) : m.IsRun a bytes where
  isPrefix := (holds_iff_isPrefix h.within).1 h.holds
  nonzero := h.nonzero

theorem Spells.length_le (h : m.Spells 65536 a bytes) (hrun : m.IsRun a other) :
    other.length ≤ bytes.length := by
  by_contra hlonger
  have hlt : bytes.length < other.length := Nat.lt_of_not_le hlonger
  have hwithin : other.length ≤ 65536 := m.length_around a ▸ hrun.isPrefix.length_le
  have hzero : other[bytes.length] = 0 := by
    rw [hrun.isPrefix.getElem hlt, getElem_around]
    exact h.ends (Nat.lt_of_lt_of_le hlt hwithin)
  exact hrun.nonzero (hzero ▸ List.getElem_mem hlt)

theorem isLongestRun_string (m : Memory) (a : UInt16) :
    m.IsLongestRun a (m.string a) := by
  have hspells : m.Spells 65536 a (m.string a) := stringUpTo_eq_iff.1 rfl
  refine { hspells.isRun with longest := fun other hrun => ?_ }
  -- Both are beginnings of the same list, so the shorter one is a beginning of the other.
  exact List.prefix_of_prefix_length_le hrun.isPrefix hspells.isRun.isPrefix
    (hspells.length_le hrun)

private theorem isRun_around (h : ∀ c, m.get c ≠ 0) : m.IsRun a (m.around a) where
  isPrefix := List.prefix_rfl
  nonzero hmem := by
    obtain ⟨i, hi, hzero⟩ := List.getElem_of_mem hmem
    rw [getElem_around] at hzero
    exact h _ hzero

/-- Without a zero to end it, the string is all of memory. -/
theorem string_eq_around (h : ∀ c, m.get c ≠ 0) : m.string a = m.around a := by
  have hstring := m.isLongestRun_string a
  have hall := (hstring.longest _ (isRun_around h)).length_le
  exact hstring.isPrefix.eq_of_length_le hall

end Breadboard.Memory
