import Breadboard.Isa.Documented

namespace Breadboard

instance : Std.LawfulEqCmp compareOperations where
  eq_of_compare {op op'} h := by
    have hindex : op.ctorIdx = op'.ctorIdx := Std.LawfulEqOrd.eq_of_compare h
    rw [← op.ofNat_ctorIdx, hindex, op'.ofNat_ctorIdx]

instance : Std.LawfulEqCmp comparePairs where
  eq_of_compare {pair pair'} h := by
    obtain ⟨hop, hmode⟩ := Ordering.then_eq_eq.1 h
    have hop : compareOperations pair.1 pair'.1 = .eq := hop
    have hmode : pair.2.ctorIdx = pair'.2.ctorIdx := Std.LawfulEqOrd.eq_of_compare hmode
    refine Prod.ext (Std.LawfulEqCmp.eq_of_compare hop) ?_
    rw [← pair.2.ofNat_ctorIdx, hmode, pair'.2.ofNat_ctorIdx]

private theorem ModeSet.isEmpty_iff {s : ModeSet} :
    s.isEmpty = true ↔ ∀ mode, s.contains mode = false := by
  have hbits : ∀ i : Fin 13, ∃ mode ∈ AddressingMode.all, mode.index = i := by
    decide
  constructor
  · intro hempty mode
    have hzero : s.bits = 0#13 := of_decide_eq_true hempty
    rw [contains, hzero, BitVec.getLsbD_zero]
  · intro hnone
    refine decide_eq_true (BitVec.eq_of_getLsbD_eq fun i hi => ?_)
    obtain ⟨mode, -, hindex⟩ := hbits ⟨i, hi⟩
    have hbit := hnone mode
    rw [contains, hindex] at hbit
    rw [hbit]
    exact BitVec.getLsbD_zero.symm

namespace OpcodeTable

variable {t t' : OpcodeTable} {before entries : List OpcodeEntry} {e : OpcodeEntry}
  {problem : TableError}

def entered (t : OpcodeTable) (e : OpcodeEntry) : OpcodeTable :=
  { t.setSlot e with
    byPair := t.byPair.insert (e.op, e.mode) e.opcode
    modeSets := t.modeSets.insert e.op ((t.modes e.op).insert e.mode) }

private theorem insert_eq (t : OpcodeTable) (e : OpcodeEntry) :
    t.insert e =
      if e.size ≠ e.mode.size then .error (.sizeMismatch e.opcode e.size e.mode)
      else if (t.decode? e.opcode).isSome then .error (.duplicateOpcode e.opcode)
      else if t.byPair.contains (e.op, e.mode) then .error (.duplicatePair e.op e.mode)
      else .ok (t.entered e) := by
  unfold insert insertSlot
  by_cases hsize : e.size ≠ e.mode.size
  · rw [if_pos hsize, if_pos hsize]
    rfl
  · rw [if_neg hsize, if_neg hsize]
    by_cases hslot : (t.decode? e.opcode).isSome = true
    · rw [if_pos hslot, if_pos hslot]
      rfl
    · rw [if_neg hslot, if_neg hslot]
      change (insertPair (t.setSlot e) e >>= fun t => pure (t.insertMode e)) = _
      have hpairs : (t.setSlot e).byPair = t.byPair := rfl
      rw [insertPair, hpairs]
      split
      · rfl
      · rfl

private theorem insert_eq_ok (h : t.insert e = .ok t') :
    e.size = e.mode.size ∧ t.decode? e.opcode = none ∧ t.byPair[(e.op, e.mode)]? = none ∧
      t' = t.entered e := by
  rw [insert_eq] at h
  split at h
  · cases h
  · rename_i hsize
    split at h
    · cases h
    · rename_i hslot
      split at h
      · cases h
      · rename_i hpair
        cases h
        rw [Bool.not_eq_true] at hpair
        exact ⟨Decidable.not_not.1 hsize, Option.not_isSome_iff_eq_none.1 hslot,
          Std.ExtTreeMap.getElem?_eq_none_of_contains_eq_false hpair, rfl⟩

private theorem decode?_entered (t : OpcodeTable) (e : OpcodeEntry) (opcode : UInt8) :
    (t.entered e).decode? opcode =
      if e.opcode = opcode then some e else t.decode? opcode := by
  have hbound : opcode.toNat < 256 := opcode.toNat_lt
  change (t.slots.set e.opcode.toNat (some e) e.opcode.toNat_lt)[opcode.toNat] = _
  rw [Vector.getElem_set]
  simp only [UInt8.toNat_inj]
  rfl

private theorem byPair_entered (t : OpcodeTable) (e : OpcodeEntry)
    (pair : Operation × AddressingMode) :
    (t.entered e).byPair[pair]? =
      if (e.op, e.mode) = pair then some e.opcode else t.byPair[pair]? := by
  unfold entered
  rw [Std.ExtTreeMap.getElem?_insert]
  simp only [Std.LawfulEqCmp.compare_eq_iff_eq]

private theorem contains_modes_entered (t : OpcodeTable) (e : OpcodeEntry)
    (op : Operation) (mode : AddressingMode) :
    ((t.entered e).modes op).contains mode = true ↔
      (t.modes op).contains mode = true ∨ e.op = op ∧ e.mode = mode := by
  unfold entered modes
  rw [Std.ExtTreeMap.getElem?_insert]
  simp only [Std.LawfulEqCmp.compare_eq_iff_eq]
  split
  · rename_i hop
    rw [hop]
    simp
  · rename_i hop
    simp [hop]

/-- The rules that entries of a table keep. -/
structure Regular (entries : List OpcodeEntry) : Prop where
  sizes : ∀ e ∈ entries, e.size = e.mode.size
  opcodes : (entries.map OpcodeEntry.opcode).Nodup
  pairs : (entries.map fun e => (e.op, e.mode)).Nodup

/-- What is wrong with an entry after others: its size, or else its opcode, or else its
pair of operation and mode. -/
inductive Offends (before : List OpcodeEntry) (e : OpcodeEntry) : TableError → Prop
  | size (hsize : e.size ≠ e.mode.size) :
      Offends before e (.sizeMismatch e.opcode e.size e.mode)
  | opcode (hsize : e.size = e.mode.size)
      (hopcode : ∃ other ∈ before, other.opcode = e.opcode) :
      Offends before e (.duplicateOpcode e.opcode)
  | pair (hsize : e.size = e.mode.size)
      (hopcode : ∀ other ∈ before, other.opcode ≠ e.opcode)
      (hpair : ∃ other ∈ before, other.op = e.op ∧ other.mode = e.mode) :
      Offends before e (.duplicatePair e.op e.mode)

theorem regular_nil : Regular [] :=
  ⟨nofun, List.nodup_nil, List.nodup_nil⟩

theorem Regular.sublist (h : Regular entries) (hsublist : before.Sublist entries) :
    Regular before where
  sizes := fun e he => h.sizes e (hsublist.subset he)
  opcodes := h.opcodes.sublist (hsublist.map _)
  pairs := h.pairs.sublist (hsublist.map _)

private theorem nodup_map_concat {β : Type} (f : OpcodeEntry → β) :
    ((before ++ [e]).map f).Nodup ↔
      (before.map f).Nodup ∧ ∀ other ∈ before, f other ≠ f e := by
  rw [List.map_append, List.nodup_append]
  simp [List.nodup_cons]

theorem regular_concat_iff :
    Regular (before ++ [e]) ↔ Regular before ∧ ∀ problem, ¬Offends before e problem := by
  constructor
  · intro h
    have hsize : e.size = e.mode.size := h.sizes e (by simp)
    obtain ⟨-, hopcodes⟩ := (nodup_map_concat _).1 h.opcodes
    obtain ⟨-, hpairs⟩ := (nodup_map_concat _).1 h.pairs
    refine ⟨h.sublist (List.sublist_append_left before [e]), fun problem hoffends => ?_⟩
    cases hoffends with
    | size hne => exact hne hsize
    | opcode _ hopcode =>
        obtain ⟨other, hother, hsame⟩ := hopcode
        exact hopcodes other hother hsame
    | pair _ _ hpair =>
        obtain ⟨other, hother, hop, hmode⟩ := hpair
        exact hpairs other hother (Prod.ext hop hmode)
  · rintro ⟨h, hfaultless⟩
    have hsize : e.size = e.mode.size :=
      Decidable.byContradiction fun hne => hfaultless _ (.size hne)
    have hopcode : ∀ other ∈ before, other.opcode ≠ e.opcode := fun other hother hsame =>
      hfaultless _ (.opcode hsize ⟨other, hother, hsame⟩)
    refine ⟨fun other hother => ?_, (nodup_map_concat _).2 ⟨h.opcodes, hopcode⟩,
      (nodup_map_concat _).2 ⟨h.pairs, fun other hother hsame => ?_⟩⟩
    · obtain hother | hother := List.mem_append.1 hother
      · exact h.sizes other hother
      · rw [List.mem_singleton.1 hother]
        exact hsize
    · obtain ⟨hop, hmode⟩ := Prod.mk.inj hsame
      exact hfaultless _ (.pair hsize hopcode ⟨other, hother, hop, hmode⟩)

/-- Each index of the table tells of the same entries. -/
structure Holds (t : OpcodeTable) (entries : List OpcodeEntry) : Prop where
  slots : ∀ opcode e, t.decode? opcode = some e ↔ e ∈ entries ∧ e.opcode = opcode
  pairs : ∀ op mode opcode, t.byPair[(op, mode)]? = some opcode ↔
    ∃ e ∈ entries, e.op = op ∧ e.mode = mode ∧ e.opcode = opcode
  modes : ∀ op mode, (t.modes op).contains mode = true ↔
    ∃ e ∈ entries, e.op = op ∧ e.mode = mode

theorem holds_empty : empty.Holds [] where
  slots := by
    intro opcode e
    have hnone : empty.decode? opcode = none := Vector.getElem_replicate opcode.toNat_lt
    rw [hnone]
    exact iff_of_false nofun (fun h => List.not_mem_nil h.1)
  pairs := by
    intro op mode opcode
    have hnone : empty.byPair[(op, mode)]? = none := Std.ExtTreeMap.getElem?_empty
    simp [hnone]
  modes := by
    intro op mode
    have hnone : empty.modeSets[op]? = none := Std.ExtTreeMap.getElem?_empty
    simp [OpcodeTable.modes, hnone]

namespace Holds

private theorem isSome_decode?_iff (h : t.Holds entries) (opcode : UInt8) :
    (t.decode? opcode).isSome = true ↔ ∃ other ∈ entries, other.opcode = opcode := by
  rw [Option.isSome_iff_exists]
  exact exists_congr fun other => h.slots opcode other

private theorem contains_byPair_iff (h : t.Holds entries) (op : Operation)
    (mode : AddressingMode) :
    t.byPair.contains (op, mode) = true ↔
      ∃ other ∈ entries, other.op = op ∧ other.mode = mode := by
  rw [Std.ExtTreeMap.contains_iff_mem, Std.ExtTreeMap.mem_iff_isSome_getElem?,
    Option.isSome_iff_exists]
  simp only [h.pairs]
  constructor
  · rintro ⟨opcode, other, hother, hop, hmode, -⟩
    exact ⟨other, hother, hop, hmode⟩
  · rintro ⟨other, hother, hop, hmode⟩
    exact ⟨other.opcode, other, hother, hop, hmode, rfl⟩

/-- A table refuses an entry for what is wrong with it after the entries that the table
holds. -/
theorem insert_eq_error_iff (h : t.Holds before) :
    t.insert e = .error problem ↔ Offends before e problem := by
  have hslot := h.isSome_decode?_iff e.opcode
  have hpair := h.contains_byPair_iff e.op e.mode
  rw [insert_eq]
  constructor
  · intro hfails
    split at hfails
    · rename_i hsize
      cases hfails
      exact .size hsize
    · rename_i hsize
      have hsize := Decidable.not_not.1 hsize
      split at hfails
      · rename_i htaken
        cases hfails
        exact .opcode hsize (hslot.1 htaken)
      · rename_i hfree
        split at hfails
        · rename_i htaken
          cases hfails
          refine .pair hsize (fun other hother hsame => hfree ?_) (hpair.1 htaken)
          exact hslot.2 ⟨other, hother, hsame⟩
        · cases hfails
  · intro hoffends
    cases hoffends with
    | size hsize => rw [if_pos hsize]
    | opcode hsize htaken =>
        rw [if_neg (Decidable.not_not.2 hsize), if_pos (hslot.2 htaken)]
    | pair hsize hfree htaken =>
        have hfree : ¬(t.decode? e.opcode).isSome = true := fun htaken => by
          obtain ⟨other, hother, hsame⟩ := hslot.1 htaken
          exact hfree other hother hsame
        rw [if_neg (Decidable.not_not.2 hsize), if_neg hfree, if_pos (hpair.2 htaken)]

private theorem exists_mem_concat_iff {P : OpcodeEntry → Prop} :
    (∃ other ∈ before ++ [e], P other) ↔ (∃ other ∈ before, P other) ∨ P e := by
  simp [or_and_right, exists_or]

theorem insert (h : t.Holds before) (hinsert : t.insert e = .ok t') :
    t'.Holds (before ++ [e]) := by
  obtain ⟨-, hslot, hpair, rfl⟩ := insert_eq_ok hinsert
  refine ⟨fun opcode other => ?_, fun op mode opcode => ?_, fun op mode => ?_⟩
  · rw [decode?_entered, List.mem_append, List.mem_singleton]
    split
    · rename_i hopcode
      subst hopcode
      constructor
      · rintro ⟨⟩
        exact ⟨.inr rfl, rfl⟩
      · rintro ⟨hother | rfl, hsame⟩
        · have htaken := (h.slots e.opcode other).2 ⟨hother, hsame⟩
          rw [hslot] at htaken
          cases htaken
        · rfl
    · rename_i hne
      rw [h.slots opcode other]
      refine and_congr_left fun hsame => (or_iff_left ?_).symm
      rintro rfl
      exact hne hsame
  · rw [byPair_entered, exists_mem_concat_iff]
    split
    · rename_i hsame
      cases hsame
      constructor
      · rintro ⟨⟩
        exact .inr ⟨rfl, rfl, rfl⟩
      · rintro (hother | ⟨-, -, rfl⟩)
        · have htaken := (h.pairs e.op e.mode opcode).2 hother
          rw [hpair] at htaken
          cases htaken
        · rfl
    · rename_i hne
      rw [h.pairs op mode opcode]
      refine (or_iff_left ?_).symm
      rintro ⟨rfl, rfl, -⟩
      exact hne rfl
  · rw [contains_modes_entered, exists_mem_concat_iff, h.modes op mode]

private theorem regular_insert (h : t.Holds before) (hregular : Regular before)
    (hinsert : t.insert e = .ok t') : Regular (before ++ [e]) := by
  refine regular_concat_iff.2 ⟨hregular, fun problem hoffends => ?_⟩
  rw [h.insert_eq_error_iff.2 hoffends] at hinsert
  cases hinsert

theorem foldlM (h : t.Holds before) (hregular : Regular before)
    (hfold : entries.foldlM OpcodeTable.insert t = .ok t') :
    t'.Holds (before ++ entries) ∧ Regular (before ++ entries) := by
  induction entries generalizing t before with
  | nil =>
      cases hfold
      rw [List.append_nil]
      exact ⟨h, hregular⟩
  | cons e entries ih =>
      rw [List.foldlM_cons] at hfold
      cases hinsert : t.insert e with
      | error problem =>
          rw [hinsert] at hfold
          cases hfold
      | ok t₁ =>
          rw [hinsert] at hfold
          rw [List.append_cons]
          exact ih (h.insert hinsert) (h.regular_insert hregular hinsert) hfold

private theorem exists_split_cons_iff {first : OpcodeEntry}
    {P : List OpcodeEntry → OpcodeEntry → Prop} :
    (∃ between e after, first :: entries = between ++ e :: after ∧ P between e) ↔
      P [] first ∨
        ∃ between e after, entries = between ++ e :: after ∧ P (first :: between) e := by
  constructor
  · rintro ⟨between, e, after, hsplit, hholds⟩
    cases between with
    | nil =>
        cases hsplit
        exact .inl hholds
    | cons _ between =>
        cases hsplit
        exact .inr ⟨between, e, after, rfl, hholds⟩
  · rintro (hfirst | ⟨between, e, after, rfl, hholds⟩)
    · exact ⟨[], first, entries, rfl, hfirst⟩
    · exact ⟨first :: between, e, after, rfl, hholds⟩

/-- Putting entries into a table fails at the first that breaks a rule. -/
theorem foldlM_eq_error_iff (h : t.Holds before) (hregular : Regular before) :
    entries.foldlM OpcodeTable.insert t = .error problem ↔
      ∃ between e after, entries = between ++ e :: after ∧ Regular (before ++ between) ∧
        Offends (before ++ between) e problem := by
  induction entries generalizing t before with
  | nil =>
      refine iff_of_false nofun ?_
      rintro ⟨between, e, after, hsplit, -⟩
      simp at hsplit
  | cons first entries ih =>
      rw [exists_split_cons_iff, List.foldlM_cons, List.append_nil,
        ← h.insert_eq_error_iff]
      cases hinsert : t.insert first with
      | error problem' =>
          constructor
          · intro hfails
            exact .inl ⟨hregular, hfails⟩
          · rintro (⟨-, hfails⟩ | ⟨between, -, -, -, hregular', -⟩)
            · exact hfails
            · rw [List.append_cons] at hregular'
              have hjoins := hregular'.sublist (List.sublist_append_left _ between)
              exact absurd (h.insert_eq_error_iff.1 hinsert)
                ((regular_concat_iff.1 hjoins).2 _)
      | ok t₁ =>
          have hrest := ih (h.insert hinsert) (h.regular_insert hregular hinsert)
          simp only [List.append_assoc, List.singleton_append] at hrest
          refine Iff.trans hrest (or_iff_right ?_).symm
          rintro ⟨-, ⟨⟩⟩

theorem lookup?_eq_some_iff (h : t.Holds entries) {op : Operation}
    {mode : AddressingMode} :
    t.lookup? op mode = some e ↔ e ∈ entries ∧ e.op = op ∧ e.mode = mode := by
  unfold lookup?
  rw [Option.bind_eq_bind, Option.bind_eq_some_iff]
  constructor
  · rintro ⟨opcode, hpair, hslot⟩
    obtain ⟨other, hother, hop, hmode, hopcode⟩ := (h.pairs op mode opcode).1 hpair
    rw [(h.slots opcode other).2 ⟨hother, hopcode⟩] at hslot
    cases hslot
    exact ⟨hother, hop, hmode⟩
  · rintro ⟨he, hop, hmode⟩
    exact ⟨e.opcode, (h.pairs op mode e.opcode).2 ⟨e, he, hop, hmode, rfl⟩,
      (h.slots e.opcode e).2 ⟨he, rfl⟩⟩

theorem lookup?_eq_none_iff (h : t.Holds entries) {op : Operation}
    {mode : AddressingMode} :
    t.lookup? op mode = none ↔ ∀ e ∈ entries, ¬(e.op = op ∧ e.mode = mode) := by
  rw [Option.eq_none_iff_forall_ne_some]
  simp only [ne_eq, h.lookup?_eq_some_iff, not_and]

theorem isEmpty_modes_iff (h : t.Holds entries) {op : Operation} :
    (t.modes op).isEmpty = true ↔ ∀ e ∈ entries, e.op ≠ op := by
  have hmodes := h.modes op
  simp only [ModeSet.isEmpty_iff, ← Bool.not_eq_true, hmodes]
  constructor
  · intro hnone e he hop
    exact hnone e.mode ⟨e, he, hop, rfl⟩
  · rintro hmissing mode ⟨e, he, hop, -⟩
    exact hmissing e he hop

end Holds

theorem build_of_error
    (hfold : entries.foldlM OpcodeTable.insert empty = .error problem) :
    build entries = .error problem := by
  unfold build
  rw [hfold]
  rfl

theorem build_of_ok (hfold : entries.foldlM OpcodeTable.insert empty = .ok t) :
    build entries =
      match Operation.all.find? fun op => (t.modes op).isEmpty with
      | some op => .error (.missingOperation op)
      | none => .ok t := by
  unfold build
  rw [hfold]
  rfl

theorem foldlM_of_build (h : build entries = .ok t) :
    entries.foldlM OpcodeTable.insert empty = .ok t := by
  cases hfold : entries.foldlM insert empty with
  | error problem =>
      rw [build_of_error hfold] at h
      cases h
  | ok built =>
      rw [build_of_ok hfold] at h
      split at h
      · cases h
      · cases h
        rfl

theorem holds_of_build (h : build entries = .ok t) : t.Holds entries ∧ Regular entries :=
  holds_empty.foldlM regular_nil (foldlM_of_build h)

theorem exists_foldlM (h : Regular entries) :
    ∃ t, entries.foldlM OpcodeTable.insert empty = .ok t := by
  cases hfold : entries.foldlM insert empty with
  | ok t => exact ⟨t, rfl⟩
  | error problem =>
      obtain ⟨between, e, after, hsplit, -, hoffends⟩ :=
        (holds_empty.foldlM_eq_error_iff regular_nil).1 hfold
      rw [hsplit, List.append_cons] at h
      have hjoins := h.sublist (List.sublist_append_left _ after)
      exact absurd hoffends ((regular_concat_iff.1 hjoins).2 problem)

theorem exists_build (h : Regular entries)
    (hoperations : ∀ op, ∃ e ∈ entries, e.op = op) :
    ∃ t, build entries = .ok t := by
  obtain ⟨t, hfold⟩ := exists_foldlM h
  obtain ⟨hholds, -⟩ : t.Holds entries ∧ _ := holds_empty.foldlM regular_nil hfold
  have hmodes : Operation.all.find? (fun op => (t.modes op).isEmpty) = none := by
    refine List.find?_eq_none.2 fun op _ hmissing => ?_
    obtain ⟨e, he, hop⟩ := hoperations op
    exact hholds.isEmpty_modes_iff.1 hmissing e he hop
  rw [build_of_ok hfold, hmodes]
  exact ⟨t, rfl⟩

end OpcodeTable

private theorem exists_mem_documented (op : Operation) : ∃ e ∈ documented, e.op = op := by
  have hall : ∀ op ∈ Operation.all, documented.any (·.op = op) = true := by
    decide +kernel
  obtain ⟨e, he, hop⟩ := List.any_eq_true.1 (hall op op.mem_all)
  exact ⟨e, he, of_decide_eq_true hop⟩

theorem regular_documented : OpcodeTable.Regular documented where
  sizes := by decide +kernel
  opcodes := by
    -- Numbers are compared faster than bytes.
    have hnumbers : ((documented.map OpcodeEntry.opcode).map UInt8.toNat).Nodup := by
      decide +kernel
    exact List.Pairwise.of_map _ (fun _ _ hne hsame => hne (by rw [hsame])) hnumbers
  pairs := by
    have hnumbers : ((documented.map fun e => (e.op, e.mode)).map fun pair =>
        13 * pair.1.ctorIdx + pair.2.ctorIdx).Nodup := by
      decide +kernel
    exact List.Pairwise.of_map _ (fun _ _ hne hsame => hne (by rw [hsame])) hnumbers

theorem build_documented : OpcodeTable.build documented = .ok opcodes := by
  have hbuilds := OpcodeTable.exists_build regular_documented exists_mem_documented
  unfold opcodes
  generalize OpcodeTable.build documented = built at hbuilds ⊢
  obtain ⟨t, rfl⟩ := hbuilds
  rfl

theorem holds_opcodes : opcodes.Holds documented :=
  (OpcodeTable.holds_of_build build_documented).1

theorem mem_documented_of_decode? {opcode : UInt8} {e : OpcodeEntry}
    (h : opcodes.decode? opcode = some e) : e ∈ documented :=
  ((holds_opcodes.slots opcode e).1 h).1

theorem decode?_of_mem_documented {e : OpcodeEntry} (he : e ∈ documented) :
    opcodes.decode? e.opcode = some e :=
  (holds_opcodes.slots e.opcode e).2 ⟨he, rfl⟩

theorem decode?_eq_none_iff {opcode : UInt8} :
    opcodes.decode? opcode = none ↔ ∀ e ∈ documented, e.opcode ≠ opcode := by
  rw [← Option.not_isSome_iff_eq_none, holds_opcodes.isSome_decode?_iff]
  simp

theorem mode_eq_relative_iff :
    ∀ e ∈ documented, e.mode = .relative ↔ e.op.isBranch = true := by
  decide +kernel

theorem hasIndirect_modes_of_isBranch {op : Operation} (h : op.isBranch = true) :
    (opcodes.modes op).hasIndirect = false := by
  rw [Bool.eq_false_iff]
  intro hindirect
  rw [ModeSet.hasIndirect, List.any_eq_true] at hindirect
  obtain ⟨mode, hmem, hmode⟩ := hindirect
  rw [ModeSet.mem_toList] at hmem
  obtain ⟨e, he, rfl, rfl⟩ := (holds_opcodes.modes op mode).1 hmem
  rw [(mode_eq_relative_iff e he).2 h] at hmode
  cases hmode

end Breadboard
