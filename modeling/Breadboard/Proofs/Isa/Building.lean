import Breadboard.Proofs.Isa.OpcodeTable

namespace Breadboard.OpcodeTable

variable {t : OpcodeTable} {entries : List OpcodeEntry} {problem : TableError}

/-- What is wrong with the first entry that breaks a rule. -/
def FirstOffence (entries : List OpcodeEntry) (problem : TableError) : Prop :=
  ∃ before e after, entries = before ++ e :: after ∧ Regular before ∧
    Offends before e problem

/-- The first operation, in the order of the mnemonics, that no entry is for. -/
def FirstMissing (entries : List OpcodeEntry) (op : Operation) : Prop :=
  ∃ before after, Operation.all = before ++ op :: after ∧
    (∀ other ∈ before, ∃ e ∈ entries, e.op = other) ∧ ∀ e ∈ entries, e.op ≠ op

/-- The table answers by opcode, by operation and mode, and in the order of opcodes, as
the entries of a list do. -/
structure Indexes (t : OpcodeTable) (entries : List OpcodeEntry) : Prop where
  decode? : ∀ opcode e, t.decode? opcode = some e ↔ e ∈ entries ∧ e.opcode = opcode
  lookup? : ∀ op mode e,
    t.lookup? op mode = some e ↔ e ∈ entries ∧ e.op = op ∧ e.mode = mode
  modes : ∀ op mode, (t.modes op).contains mode = true ↔ (t.lookup? op mode).isSome = true
  perm : t.entries.Perm entries
  increasing : t.entries.Pairwise fun e e' => e.opcode < e'.opcode

private theorem Holds.mem_entries_iff (h : t.Holds entries) {e : OpcodeEntry} :
    e ∈ t.entries ↔ e ∈ entries := by
  unfold OpcodeTable.entries
  rw [List.mem_filterMap]
  constructor
  · rintro ⟨slot, hslot, rfl⟩
    obtain ⟨i, hi, hget⟩ := Vector.getElem_of_mem (Vector.mem_toList_iff.1 hslot)
    exact ((h.slots (UInt8.ofNatLT i hi) e).1 hget).1
  · intro he
    have hdecode := (h.slots e.opcode e).2 ⟨he, rfl⟩
    refine ⟨some e, Vector.mem_toList_iff.2 ?_, rfl⟩
    exact hdecode ▸ Vector.getElem_mem e.opcode.toNat_lt

private theorem Holds.increasing_entries (h : t.Holds entries) :
    t.entries.Pairwise fun e e' => e.opcode < e'.opcode := by
  unfold OpcodeTable.entries
  rw [List.pairwise_filterMap, List.pairwise_iff_getElem]
  intro i j hi hj hlt e he e' he'
  -- The slots are in the order of the opcodes, and each entry is in the slot of its own.
  have hslot : ∀ (k : Nat) (hk : k < 256) (e : OpcodeEntry), t.slots[k] = some e →
      e.opcode.toNat = k := by
    intro k hk e hget
    obtain ⟨-, hopcode⟩ := (h.slots (UInt8.ofNatLT k hk) e).1 hget
    rw [hopcode]
    rfl
  rw [Vector.length_toList] at hi hj
  rw [Vector.getElem_toList] at he he'
  rw [UInt8.lt_iff_toNat_lt, hslot i hi e he, hslot j hj e' he']
  exact hlt

private theorem Holds.indexes (h : t.Holds entries) (hregular : Regular entries) :
    t.Indexes entries where
  decode? := h.slots
  lookup? := fun op mode e => h.lookup?_eq_some_iff
  modes := by
    intro op mode
    rw [h.modes, Option.isSome_iff_exists]
    exact exists_congr fun e => h.lookup?_eq_some_iff.symm
  perm := by
    have hnodup : entries.Nodup :=
      List.Pairwise.of_map _ (fun _ _ hne hsame => hne (by rw [hsame])) hregular.opcodes
    refine (List.perm_ext_iff_of_nodup ?_ hnodup).2 fun e => h.mem_entries_iff
    refine h.increasing_entries.imp ?_
    rintro e _ hlt rfl
    exact UInt8.lt_irrefl e.opcode hlt
  increasing := h.increasing_entries

private theorem Holds.find?_isEmpty_modes (h : t.Holds entries) {op : Operation} :
    Operation.all.find? (fun op => (t.modes op).isEmpty) = some op ↔
      FirstMissing entries op := by
  have hpresent : ∀ other,
      (!(t.modes other).isEmpty) = true ↔ ∃ e ∈ entries, e.op = other := by
    intro other
    rw [Bool.not_eq_true', ← Bool.not_eq_true, h.isEmpty_modes_iff]
    simp
  rw [List.find?_eq_some_iff_append, h.isEmpty_modes_iff]
  simp only [hpresent]
  constructor
  · rintro ⟨hmissing, before, after, hsplit, hbefore⟩
    exact ⟨before, after, hsplit, hbefore, hmissing⟩
  · rintro ⟨before, after, hsplit, hbefore, hmissing⟩
    exact ⟨hmissing, before, after, hsplit, hbefore⟩

/-- If the entries go into a table, building fails only for an operation that is
missing. -/
theorem Holds.build_eq_error_iff (h : t.Holds entries)
    (hfold : entries.foldlM OpcodeTable.insert empty = .ok t) :
    build entries = .error problem ↔
      ∃ op, FirstMissing entries op ∧ problem = .missingOperation op := by
  simp only [← h.find?_isEmpty_modes]
  rw [build_of_ok hfold]
  cases Operation.all.find? fun op => (t.modes op).isEmpty with
  | none => exact iff_of_false nofun nofun
  | some op =>
      constructor
      · rintro ⟨⟩
        exact ⟨op, rfl, rfl⟩
      · rintro ⟨_, ⟨⟩, rfl⟩
        rfl

private theorem Holds.present_of_build (h : t.Holds entries)
    (hbuild : build entries = .ok t) (op : Operation) : ∃ e ∈ entries, e.op = op := by
  have hbuilt := build_of_ok (foldlM_of_build hbuild)
  rw [hbuild] at hbuilt
  split at hbuilt
  · cases hbuilt
  · rename_i hnone
    have hsome := List.find?_eq_none.1 hnone op op.mem_all
    rw [h.isEmpty_modes_iff] at hsome
    simpa using hsome

/-- Building fails at the first entry that breaks a rule, or else at the first operation
that is missing, or else gives a table that holds the entries. -/
theorem outcome_of_build (entries : List OpcodeEntry) :
    ((∃ t, build entries = .ok t) ↔ Regular entries ∧ ∀ op, ∃ e ∈ entries, e.op = op) ∧
    (∀ t, build entries = .ok t → t.Indexes entries) ∧
    ∀ problem, build entries = .error problem ↔
      FirstOffence entries problem ∨
        Regular entries ∧ ∃ op, FirstMissing entries op ∧
        problem = .missingOperation op := by
  have hoffence : ∀ problem, entries.foldlM OpcodeTable.insert empty = .error problem ↔
      FirstOffence entries problem :=
    fun problem => holds_empty.foldlM_eq_error_iff regular_nil
  refine ⟨⟨?_, ?_⟩, ?_, fun problem => ?_⟩
  · rintro ⟨t, hbuild⟩
    obtain ⟨hholds, hregular⟩ := holds_of_build hbuild
    exact ⟨hregular, hholds.present_of_build hbuild⟩
  · rintro ⟨hregular, hpresent⟩
    exact exists_build hregular hpresent
  · intro t hbuild
    obtain ⟨hholds, hregular⟩ := holds_of_build hbuild
    exact hholds.indexes hregular
  · rw [← hoffence]
    cases hfold : entries.foldlM OpcodeTable.insert empty with
    | error problem' =>
        rw [build_of_error hfold]
        refine (or_iff_left ?_).symm
        rintro ⟨hregular, -⟩
        obtain ⟨t, hok⟩ := exists_foldlM hregular
        rw [hfold] at hok
        cases hok
    | ok t =>
        obtain ⟨hholds, hregular⟩ : t.Holds entries ∧ Regular entries :=
          holds_empty.foldlM regular_nil hfold
        rw [hholds.build_eq_error_iff hfold]
        exact ⟨fun hmissing => .inr ⟨hregular, hmissing⟩,
          fun h => (h.resolve_left nofun).2⟩

/-- The documented instructions build the table of the machine. One that is
listed again is refused for its size before it is for its opcode, and one of a
free opcode for its mode. -/
theorem outcome_of_build_documented :
    opcodes.Indexes documented ∧
      build (documented ++ [⟨0xA9, 3, 2, .LDA, .immediate⟩]) =
        .error (.sizeMismatch 0xA9 3 .immediate) ∧
      build (documented ++ [⟨0xA9, 1, 2, .NOP, .implied⟩]) =
        .error (.duplicateOpcode 0xA9) ∧
      build (documented ++ [⟨0x1A, 1, 2, .NOP, .implied⟩]) =
        .error (.duplicatePair .NOP .implied) ∧
      build (documented.filter fun e => e.op ≠ .TYA) =
        .error (.missingOperation .TYA) := by
  have hoffence : ∀ {e problem}, Offends documented e problem →
      build (documented ++ [e]) = .error problem := fun hoffends =>
    ((outcome_of_build _).2.2 _).2
      (.inl ⟨documented, _, [], rfl, regular_documented, hoffends⟩)
  refine ⟨(outcome_of_build documented).2.1 opcodes build_documented,
    hoffence (.size (by decide)), hoffence (.opcode rfl (by decide)),
    hoffence (.pair rfl ?_ (by decide)), ?_⟩
  · decide +kernel
  · refine ((outcome_of_build _).2.2 _).2 (.inr ⟨?_, .TYA, ?_, rfl⟩)
    · exact regular_documented.sublist List.filter_sublist
    · refine ⟨Operation.all.dropLast, [], rfl, ?_, ?_⟩
      · decide +kernel
      · decide +kernel

end Breadboard.OpcodeTable
