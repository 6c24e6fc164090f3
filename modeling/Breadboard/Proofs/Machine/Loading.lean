import Breadboard.Machine.Memory

namespace Breadboard.Memory

def Holds (m : Memory) (a : UInt16) : List UInt8 → Prop
  | [] => True
  | b :: bs => m.get a = b ∧ m.Holds (a + 1) bs

/-- An address is not one of the `n` from `a` on. -/
def Beyond (c a : UInt16) (n : Nat) : Prop :=
  ∀ i < n, a + UInt16.ofNat i ≠ c

variable {m : Memory} {a c : UInt16} {bs : List UInt8}

theorem add_one_add_ofNat (a : UInt16) (i : Nat) :
    a + 1 + UInt16.ofNat i = a + UInt16.ofNat (i + 1) := by
  rw [UInt16.add_assoc, UInt16.ofNat_add, UInt16.add_comm (UInt16.ofNat i)]
  rfl

theorem holds_iff :
    m.Holds a bs ↔ ∀ i (h : i < bs.length), m.get (a + UInt16.ofNat i) = bs[i] := by
  induction bs generalizing a with
  | nil => exact iff_of_true trivial fun i h => absurd h (Nat.not_lt_zero i)
  | cons b bs ih =>
      have hfirst : a + UInt16.ofNat 0 = a := UInt16.add_zero a
      rw [Holds, ih]
      constructor
      · rintro ⟨hb, hbs⟩ i h
        cases i with
        | zero => rwa [hfirst]
        | succ i =>
            rw [← add_one_add_ofNat]
            exact hbs i (Nat.lt_of_succ_lt_succ h)
      · intro h
        refine ⟨hfirst ▸ h 0 (Nat.zero_lt_succ _), fun i hi => ?_⟩
        rw [add_one_add_ofNat]
        exact h (i + 1) (Nat.succ_lt_succ hi)

theorem Beyond.tail {n : Nat} (h : Beyond c a (n + 1)) : a ≠ c ∧ Beyond c (a + 1) n := by
  constructor
  · have hfirst : a + 0 ≠ c := h 0 (Nat.zero_lt_succ n)
    rwa [UInt16.add_zero] at hfirst
  · intro i hi
    rw [add_one_add_ofNat]
    exact h (i + 1) (Nat.succ_lt_succ hi)

private theorem beyond_add_one {n : Nat} (h : n < 65536) : Beyond a (a + 1) n := by
  intro i hi hsame
  have hsum := congrArg UInt16.toNat hsame
  rw [UInt16.toNat_add, UInt16.toNat_add, UInt16.toNat_ofNat'] at hsum
  have := a.toNat_lt
  have hone : (1 : UInt16).toNat = 1 := rfl
  omega

theorem get_load_of_beyond (h : Beyond c a bs.length) :
    (m.load a bs).get c = m.get c := by
  induction bs generalizing m a with
  | nil => rfl
  | cons b bs ih =>
      obtain ⟨hne, htail⟩ := h.tail
      rw [load, ih htail, get_set_ne _ _ hne]

theorem holds_load (m : Memory) (a : UInt16) (h : bs.length ≤ 65536) :
    (m.load a bs).Holds a bs := by
  induction bs generalizing m a with
  | nil => trivial
  | cons b bs ih =>
      have hbound : bs.length < 65536 := h
      refine ⟨?_, ih _ _ (Nat.le_of_lt hbound)⟩
      rw [load, get_load_of_beyond (beyond_add_one hbound), get_set_self]

variable {m' : Memory}

theorem get_load_of_last {i : Nat} (h : i < bs.length)
    (hlast : ∀ j, i < j → j < bs.length → a + UInt16.ofNat j ≠ a + UInt16.ofNat i) :
    (m.load a bs).get (a + UInt16.ofNat i) = bs[i] := by
  induction bs generalizing m a i with
  | nil => cases h
  | cons b bs ih =>
      cases i with
      | zero =>
          have hbeyond : Beyond (a + 0) (a + 1) bs.length := by
            intro j hj
            rw [add_one_add_ofNat]
            exact hlast (j + 1) (Nat.zero_lt_succ j) (Nat.succ_lt_succ hj)
          change (m.load a (b :: bs)).get (a + 0) = b
          rw [load, get_load_of_beyond hbeyond, UInt16.add_zero, get_set_self]
      | succ i =>
          rw [load, ← add_one_add_ofNat]
          refine ih (Nat.lt_of_succ_lt_succ h) fun j hlt hj => ?_
          rw [add_one_add_ofNat, add_one_add_ofNat]
          exact hlast (j + 1) (Nat.succ_lt_succ hlt) (Nat.succ_lt_succ hj)

theorem get_load_eq (h : Beyond c a bs.length → m.get c = m'.get c) :
    (m.load a bs).get c = (m'.load a bs).get c := by
  induction bs generalizing m m' a with
  | nil => exact h fun i hi => absurd hi (Nat.not_lt_zero i)
  | cons b bs ih =>
      rw [load, load]
      refine ih fun hbeyond => ?_
      by_cases hfirst : a = c
      · rw [hfirst, get_set_self, get_set_self]
      · rw [get_set_ne _ _ hfirst, get_set_ne _ _ hfirst]
        refine h fun i hi => ?_
        cases i with
        | zero => rwa [show UInt16.ofNat 0 = 0 from rfl, UInt16.add_zero]
        | succ i =>
            rw [← add_one_add_ofNat]
            exact hbeyond i (Nat.lt_of_succ_lt_succ hi)

/-- Going on with more bytes is loading all of them, however often they
have gone around memory. -/
theorem load_append (m : Memory) (a : UInt16) (bs more : List UInt8) :
    m.load a (bs ++ more) = (m.load a bs).load (a + UInt16.ofNat bs.length) more := by
  induction bs generalizing m a with
  | nil =>
      change m.load a more = m.load (a + 0) more
      rw [UInt16.add_zero]
  | cons b bs ih =>
      rw [List.cons_append, load, load, ih, add_one_add_ofNat]
      rfl

/-- Of bytes that go from an address on and around the end of memory, the one with this
number falls on an address. -/
def FallsOn (a : UInt16) (i : Nat) (c : UInt16) : Prop :=
  (a.toNat + i) % 65536 = c.toNat

theorem fallsOn_iff {i : Nat} : FallsOn a i c ↔ a + UInt16.ofNat i = c := by
  rw [FallsOn, ← UInt16.toNat_inj, UInt16.toNat_add, UInt16.toNat_ofNat']
  omega

/-- Where the next byte goes after so many from an address on: after the last one, or at
the address itself if there are none. -/
def IsPast (a : UInt16) : Nat → UInt16 → Prop
  | 0, next => next = a
  | n + 1, next => ∃ c, FallsOn a n c ∧ next = c + 1

theorem isPast_add (a : UInt16) (n : Nat) : IsPast a n (a + UInt16.ofNat n) := by
  cases n with
  | zero => exact UInt16.add_zero a
  | succ n =>
      refine ⟨a + UInt16.ofNat n, fallsOn_iff.2 rfl, ?_⟩
      rw [UInt16.ofNat_add, ← UInt16.add_assoc]
      rfl

/-- Of so many bytes the one with this number is the last that falls on an address. -/
structure IsLastOn (a : UInt16) (n : Nat) (c : UInt16) (i : Nat) : Prop where
  within : i < n
  falls : FallsOn a i c
  latest : ∀ j < n, FallsOn a j c → j ≤ i

private theorem exists_isLastOn (a c : UInt16) (n : Nat) :
    (∃ i, IsLastOn a n c i) ∨ ∀ i < n, ¬FallsOn a i c := by
  induction n with
  | zero => exact .inr fun i hi => absurd hi (Nat.not_lt_zero i)
  | succ n ih =>
      by_cases hfalls : FallsOn a n c
      · exact .inl ⟨n, Nat.lt_succ_self n, hfalls, fun j hj _ => Nat.le_of_lt_succ hj⟩
      · obtain ⟨i, hlast⟩ | hnone := ih
        · refine .inl ⟨i, Nat.lt_succ_of_lt hlast.within,
            hlast.falls, fun j hj hfalls' => ?_⟩
          obtain hlt | rfl := Nat.lt_succ_iff_lt_or_eq.1 hj
          · exact hlast.latest j hlt hfalls'
          · exact absurd hfalls' hfalls
        · refine .inr fun i hi => ?_
          obtain hlt | rfl := Nat.lt_succ_iff_lt_or_eq.1 hi
          · exact hnone i hlt
          · exact hfalls

/-- An address is left with a byte: the last of those loaded that falls on it, or the
old one if none does. -/
def LeavesAt (m : Memory) (a : UInt16) (bs : List UInt8) (c : UInt16) (b : UInt8) :
    Prop :=
  (∃ i, IsLastOn a bs.length c i ∧ bs[i]? = some b) ∨
    (∀ i < bs.length, ¬FallsOn a i c) ∧ b = m.get c

theorem leavesAt_load (m : Memory) (a : UInt16) (bs : List UInt8) (c : UInt16) :
    m.LeavesAt a bs c ((m.load a bs).get c) := by
  obtain ⟨i, hlast⟩ | hnone := exists_isLastOn a c bs.length
  · refine .inl ⟨i, hlast, ?_⟩
    obtain rfl := fallsOn_iff.1 hlast.falls
    have hlater : ∀ j, i < j → j < bs.length → a + UInt16.ofNat j ≠ a + UInt16.ofNat i :=
      fun j hlt hj hsame => Nat.not_le_of_lt hlt (hlast.latest j hj (fallsOn_iff.2 hsame))
    rw [get_load_of_last hlast.within hlater, List.getElem?_eq_getElem hlast.within]
  · exact .inr ⟨hnone,
      get_load_of_beyond fun i hi hsame => hnone i hi (fallsOn_iff.2 hsame)⟩

end Breadboard.Memory
