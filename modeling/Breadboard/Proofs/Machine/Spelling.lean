import Breadboard.Proofs.Machine.Loading

namespace Breadboard.Memory

variable {m m' : Memory} {a : UInt16} {n limit : Nat} {b : UInt8} {bytes : List UInt8}

/-- The bytes from an address on are some bytes other than zero, and then a zero unless
the limit is reached before it. -/
structure Spells (m : Memory) (limit : Nat) (a : UInt16) (bytes : List UInt8) : Prop where
  holds : m.Holds a bytes
  nonzero : 0 ∉ bytes
  within : bytes.length ≤ limit
  ends : bytes.length < limit → m.get (a + UInt16.ofNat bytes.length) = 0

private theorem spells_nil_iff : m.Spells limit a [] ↔ limit = 0 ∨ m.get a = 0 := by
  have hfirst : a + UInt16.ofNat 0 = a := UInt16.add_zero a
  constructor
  · intro h
    obtain rfl | hlimit := Nat.eq_zero_or_pos limit
    · exact .inl rfl
    · exact .inr (hfirst ▸ h.ends hlimit)
  · intro h
    refine ⟨trivial, List.not_mem_nil, Nat.zero_le limit, fun hlimit => ?_⟩
    rw [List.length_nil, hfirst]
    exact h.resolve_left (Nat.ne_of_gt hlimit)

private theorem spells_cons_iff :
    m.Spells (limit + 1) a (b :: bytes) ↔
    m.get a = b ∧ b ≠ 0 ∧ m.Spells limit (a + 1) bytes := by
  constructor
  · rintro ⟨⟨hfirst, hholds⟩, hnonzero, hwithin, hends⟩
    refine ⟨hfirst, fun hzero => hnonzero (hzero ▸ List.mem_cons_self), hholds,
      fun hmem => hnonzero (List.mem_cons_of_mem b hmem), Nat.le_of_succ_le_succ hwithin,
      fun hlimit => ?_⟩
    rw [add_one_add_ofNat]
    exact hends (Nat.succ_lt_succ hlimit)
  · rintro ⟨hfirst, hnonzero, hspells⟩
    refine ⟨⟨hfirst, hspells.holds⟩, ?_, Nat.succ_le_succ hspells.within,
      fun hlimit => ?_⟩
    · intro hmem
      exact (List.mem_cons.1 hmem).elim (fun hzero => hnonzero hzero.symm) hspells.nonzero
    · rw [List.length_cons, ← add_one_add_ofNat]
      exact hspells.ends (Nat.lt_of_succ_lt_succ hlimit)

theorem stringUpTo_eq_iff : m.stringUpTo limit a = bytes ↔ m.Spells limit a bytes := by
  induction limit generalizing a bytes with
  | zero =>
      rw [stringUpTo]
      constructor
      · rintro rfl
        exact spells_nil_iff.2 (.inl rfl)
      · intro h
        exact (List.length_eq_zero_iff.1 (Nat.le_zero.1 h.within)).symm
  | succ limit ih =>
      rw [stringUpTo]
      cases bytes with
      | nil =>
          rw [spells_nil_iff]
          split
          · rename_i hzero
            exact iff_of_true rfl (.inr hzero)
          · rename_i hnonzero
            exact iff_of_false nofun fun h => h.elim (Nat.succ_ne_zero limit) hnonzero
      | cons b bytes =>
          rw [spells_cons_iff]
          split
          · rename_i hzero
            exact iff_of_false nofun fun ⟨hfirst, hnonzero, _⟩ =>
              hnonzero (hfirst.symm.trans hzero)
          · rename_i hnonzero
            rw [List.cons.injEq, ih]
            constructor
            · rintro ⟨rfl, hspells⟩
              exact ⟨rfl, hnonzero, hspells⟩
            · rintro ⟨hfirst, -, hspells⟩
              exact ⟨hfirst, hspells⟩

theorem getWord_of_agree
    (hagree : ∀ i < 2, m'.get (a + UInt16.ofNat i) = m.get (a + UInt16.ofNat i)) :
    m'.getWord a = m.getWord a := by
  have hfirst : a + UInt16.ofNat 0 = a := UInt16.add_zero a
  have hlow := hagree 0 (by decide)
  have hhigh := hagree 1 (by decide)
  rw [hfirst] at hlow
  rw [getWord, getWord, hlow]
  exact congrArg (word (m.get a)) hhigh

theorem Holds.of_agree (h : m.Holds a bytes)
    (hagree : ∀ i < bytes.length, m'.get (a + UInt16.ofNat i) =
      m.get (a + UInt16.ofNat i)) :
    m'.Holds a bytes :=
  holds_iff.2 fun i hi => (hagree i hi).trans (holds_iff.1 h i hi)

theorem Spells.of_agree (h : m.Spells limit a bytes)
    (hagree : ∀ i < bytes.length + 1, m'.get (a + UInt16.ofNat i) =
      m.get (a + UInt16.ofNat i)) :
    m'.Spells limit a bytes where
  holds := h.holds.of_agree fun i hi => hagree i (Nat.lt_succ_of_lt hi)
  nonzero := h.nonzero
  within := h.within
  ends hlimit := (hagree bytes.length (Nat.lt_succ_self _)).trans (h.ends hlimit)

end Breadboard.Memory
