import Breadboard.Symbol.LineMap

namespace Breadboard.LineMap

variable {m : LineMap} {file : FileId} {line n : Nat} {exact : Bool} {addr : UInt16}

def NoLater (a b : Nat × UInt16) : Prop :=
  a.1 < b.1 ∨ a.1 = b.1 ∧ a.2 ≤ b.2

theorem NoLater.refl (a : Nat × UInt16) : NoLater a a :=
  .inr ⟨rfl, UInt16.le_refl a.2⟩

theorem NoLater.trans {a b c : Nat × UInt16} (h : NoLater a b) (h' : NoLater b c) :
    NoLater a c := by
  obtain hline | ⟨hline, haddr⟩ := h
  · obtain hline' | ⟨hline', -⟩ := h'
    · exact .inl (Nat.lt_trans hline hline')
    · exact .inl (hline' ▸ hline)
  · obtain hline' | ⟨hline', haddr'⟩ := h'
    · exact .inl (hline ▸ hline')
    · exact .inr ⟨hline.trans hline', UInt16.le_trans haddr haddr'⟩

theorem NoLater.antisymm {a b : Nat × UInt16} (h : NoLater a b) (h' : NoLater b a) :
    a = b := by
  obtain hline | ⟨hline, haddr⟩ := h
  · obtain hline' | ⟨hline', -⟩ := h'
    · exact absurd hline' (Nat.lt_asymm hline)
    · exact absurd hline' (Nat.ne_of_gt hline)
  · obtain hline' | ⟨-, haddr'⟩ := h'
    · exact absurd hline (Nat.ne_of_gt hline')
    · exact Prod.ext hline (UInt16.le_antisymm haddr haddr')

private theorem noLater_of_not {a b : Nat × UInt16}
    (h : ¬(b.1 < a.1 ∨ b.1 = a.1 ∧ b.2 < a.2)) :
    NoLater a b := by
  obtain ⟨hline, haddr⟩ := not_or.1 h
  obtain hline | hline := Nat.lt_or_eq_of_le (Nat.le_of_not_lt hline)
  · exact .inl hline
  · exact .inr ⟨hline, UInt16.not_lt.1 fun hlt => haddr ⟨hline.symm, hlt⟩⟩

private theorem earlier_eq_or (a b : Nat × UInt16) :
    earlier a b = a ∨ earlier a b = b := by
  unfold earlier
  split
  · exact .inr rfl
  · exact .inl rfl

private theorem noLater_earlier (a b : Nat × UInt16) :
    NoLater (earlier a b) a ∧ NoLater (earlier a b) b := by
  unfold earlier
  split
  · rename_i hearlier
    exact ⟨hearlier.imp_right (And.imp_right UInt16.le_of_lt), .refl b⟩
  · rename_i hnot
    exact ⟨.refl a, noLater_of_not hnot⟩

private theorem noLater_foldl_earlier (places : List (Nat × UInt16)) (p : Nat × UInt16) :
    ∀ q ∈ p :: places, NoLater (places.foldl earlier p) q := by
  induction places generalizing p with
  | nil =>
      intro q hmem
      cases List.mem_singleton.1 hmem
      exact .refl p
  | cons p' places ih =>
      obtain ⟨hfirst, hsecond⟩ := noLater_earlier p p'
      have hboth := ih (earlier p p') _ List.mem_cons_self
      -- The first two places are no earlier than the earlier one of them, from which the
      -- fold goes on.
      intro q hmem
      obtain rfl | hmem := List.mem_cons.1 hmem
      · exact hboth.trans hfirst
      · obtain rfl | hmem := List.mem_cons.1 hmem
        · exact hboth.trans hsecond
        · exact ih (earlier p p') q (List.mem_cons_of_mem _ hmem)

private theorem foldl_earlier_mem (places : List (Nat × UInt16)) (p : Nat × UInt16) :
    places.foldl earlier p ∈ p :: places := by
  induction places generalizing p with
  | nil => exact List.mem_cons_self
  | cons p' places ih =>
      obtain hfound | hfound := List.mem_cons.1 (ih (earlier p p'))
      · rw [List.foldl_cons, hfound]
        obtain heq | heq := earlier_eq_or p p'
        · rw [heq]
          exact List.mem_cons_self
        · rw [heq]
          exact List.mem_cons_of_mem _ List.mem_cons_self
      · exact List.mem_cons_of_mem _ (List.mem_cons_of_mem _ hfound)

private theorem earliest?_eq_none_iff {places : List (Nat × UInt16)} :
    earliest? places = none ↔ places = [] := by
  cases places <;> simp [earliest?]

private theorem earliest?_eq_some_iff {places : List (Nat × UInt16)} {p : Nat × UInt16} :
    earliest? places = some p ↔ p ∈ places ∧ ∀ q ∈ places, NoLater p q := by
  cases places with
  | nil => simp [earliest?]
  | cons first rest =>
      have hmem := foldl_earlier_mem rest first
      have hfirst := noLater_foldl_earlier rest first
      constructor
      · rintro ⟨⟩
        exact ⟨hmem, hfirst⟩
      · rintro ⟨hp, hall⟩
        exact congrArg some ((hfirst p hp).antisymm (hall _ hmem))

/-- Of places in the order of their addresses, the first one on a line is the earliest. -/
theorem find?_eq_earliest? {places : List (Nat × UInt16)}
    (h : places.Pairwise fun p q => p.2 < q.2) :
    places.find? (fun p => p.1 = line) =
      earliest? (places.filter fun p => p.1 = line) := by
  rw [← List.head?_filter]
  have hordered := h.filter fun p => p.1 = line
  have hline : ∀ p ∈ places.filter (fun p => p.1 = line), p.1 = line := fun p hp =>
    of_decide_eq_true (List.mem_filter.1 hp).2
  generalize places.filter (fun p => p.1 = line) = onLine at hordered hline
  cases onLine with
  | nil => rfl
  | cons p rest =>
      refine (earliest?_eq_some_iff.2 ⟨List.mem_cons_self, fun q hq => ?_⟩).symm
      obtain rfl | hrest := List.mem_cons.1 hq
      · exact .refl q
      · have hsame : p.1 = q.1 := (hline p List.mem_cons_self).trans (hline q hq).symm
        exact .inr ⟨hsame, UInt16.le_of_lt (List.rel_of_pairwise_cons hordered hrest)⟩

private theorem pairwise_placesIn (m : LineMap) (file : FileId) :
    (m.placesIn file).Pairwise fun p q => p.2 < q.2 := by
  have hkeys := Std.ExtTreeMap.ordered_keys_toList (t := m)
  refine List.pairwise_map.2 ((hkeys.filter _).imp fun {e e'} hlt => ?_)
  exact Std.compare_eq_lt.1 hlt

/-- Both lookups answer with the earliest place that they admit. -/
theorem find?_eq (m : LineMap) (file : FileId) (line : Nat) (exact : Bool) :
    m.find? file line exact =
      (earliest? ((m.placesIn file).filter fun p =>
        if exact then p.1 = line else line ≤ p.1)).map Prod.snd := by
  unfold find?
  cases exact with
  | false => rfl
  | true =>
    exact congrArg (Option.map Prod.snd) (find?_eq_earliest? (m.pairwise_placesIn file))

/-- The instruction at an address comes from a line of a file. -/
def Maps (m : LineMap) (file : FileId) (line : Nat) (addr : UInt16) : Prop :=
  ∃ l, m[addr]? = some l ∧ l.file = file ∧ l.line = line

private theorem mem_placesIn_iff : (n, addr) ∈ m.placesIn file ↔ m.Maps file n addr := by
  unfold placesIn Maps
  rw [List.mem_map]
  constructor
  · rintro ⟨⟨addr', l⟩, hmem, hplace⟩
    obtain ⟨hentry, hfile⟩ := List.mem_filter.1 hmem
    cases hplace
    exact ⟨l, Std.ExtTreeMap.mem_toList_iff_getElem?_eq_some.1 hentry,
      of_decide_eq_true hfile, rfl⟩
  · rintro ⟨l, hentry, hfile, rfl⟩
    refine ⟨(addr, l), List.mem_filter.2 ⟨?_, decide_eq_true hfile⟩, rfl⟩
    exact Std.ExtTreeMap.mem_toList_iff_getElem?_eq_some.2 hentry

def Admits (exact : Bool) (line n : Nat) : Prop :=
  if exact then n = line else line ≤ n

private theorem mem_candidates_iff {p : Nat × UInt16} :
    p ∈ (m.placesIn file).filter (fun p => if exact then p.1 = line else line ≤ p.1) ↔
      m.Maps file p.1 p.2 ∧ Admits exact line p.1 := by
  rw [List.mem_filter, mem_placesIn_iff]
  cases exact with
  | false => exact and_congr_right fun _ => decide_eq_true_iff
  | true => exact and_congr_right fun _ => decide_eq_true_iff

theorem find?_eq_none_iff : m.find? file line exact = none ↔
    ∀ n addr, Admits exact line n → ¬m.Maps file n addr := by
  rw [find?_eq, Option.map_eq_none_iff, earliest?_eq_none_iff,
    List.eq_nil_iff_forall_not_mem]
  simp only [mem_candidates_iff, Prod.forall]
  constructor
  · intro h n addr hadmits hmaps
    exact h n addr ⟨hmaps, hadmits⟩
  · rintro h n addr ⟨hmaps, hadmits⟩
    exact h n addr hadmits hmaps

theorem find?_eq_some_iff : m.find? file line exact = some addr ↔
    ∃ n, m.Maps file n addr ∧ Admits exact line n ∧
      ∀ n' addr', m.Maps file n' addr' → Admits exact line n' →
        NoLater (n, addr) (n', addr') := by
  rw [find?_eq]
  simp only [Option.map_eq_some_iff, earliest?_eq_some_iff, mem_candidates_iff,
    Prod.exists, Prod.forall]
  constructor
  · rintro ⟨n, _, ⟨⟨hmaps, hadmits⟩, hleast⟩, rfl⟩
    exact ⟨n, hmaps,
      hadmits, fun n' addr' hmaps' hadmits' => hleast n' addr' ⟨hmaps', hadmits'⟩⟩
  · rintro ⟨n, hmaps, hadmits, hleast⟩
    exact ⟨n, addr, ⟨⟨hmaps, hadmits⟩, fun n' addr' h => hleast n' addr' h.1 h.2⟩, rfl⟩

def IsFirst (m : LineMap) (file : FileId) (line : Nat) (addr : UInt16) : Prop :=
  m.Maps file line addr ∧ ∀ addr', m.Maps file line addr' → addr ≤ addr'

def IsNearest (m : LineMap) (file : FileId) (line n : Nat) : Prop :=
  line ≤ n ∧ ∀ n' addr, line ≤ n' → m.Maps file n' addr → n ≤ n'

/-- What the two lookups of a line answer. -/
structure Finds (m : LineMap) (file : FileId) (line : Nat) (find : Bool → Option UInt16) :
    Prop where
  exact_some : ∀ addr, find true = some addr ↔ m.IsFirst file line addr
  exact_none : find true = none ↔ ∀ addr, ¬m.Maps file line addr
  inexact_some : ∀ addr, find false = some addr ↔
    ∃ n, m.IsNearest file line n ∧ m.IsFirst file n addr
  inexact_none : find false = none ↔ ∀ n addr, line ≤ n → ¬m.Maps file n addr
  inexact_of_exact : ∀ addr, find true = some addr → find false = some addr

private theorem find?_exact_eq_some_iff :
    m.find? file line true = some addr ↔ m.IsFirst file line addr := by
  rw [find?_eq_some_iff]
  constructor
  · rintro ⟨_, hmaps, rfl, hleast⟩
    refine ⟨hmaps, fun addr' hmaps' => ?_⟩
    obtain hlt | ⟨-, hle⟩ := hleast _ addr' hmaps' rfl
    · exact absurd hlt (Nat.lt_irrefl _)
    · exact hle
  · rintro ⟨hmaps, hleast⟩
    refine ⟨line, hmaps, rfl, ?_⟩
    rintro _ addr' hmaps' rfl
    exact .inr ⟨rfl, hleast addr' hmaps'⟩

private theorem find?_inexact_eq_some_iff : m.find? file line false = some addr ↔
    ∃ n, m.IsNearest file line n ∧ m.IsFirst file n addr := by
  rw [find?_eq_some_iff]
  refine exists_congr fun n => ⟨?_, ?_⟩
  · rintro ⟨hmaps, hline, hleast⟩
    refine ⟨⟨hline, fun n' addr' hline' hmaps' => ?_⟩, hmaps, fun addr' hmaps' => ?_⟩
    · obtain hlt | ⟨heq, -⟩ := hleast n' addr' hmaps' hline'
      · exact Nat.le_of_lt hlt
      · exact Nat.le_of_eq heq
    · obtain hlt | ⟨-, hle⟩ := hleast n addr' hmaps' hline
      · exact absurd hlt (Nat.lt_irrefl n)
      · exact hle
  · rintro ⟨⟨hline, hnearest⟩, hmaps, hleast⟩
    refine ⟨hmaps, hline, fun n' addr' hmaps' hline' => ?_⟩
    obtain hlt | rfl := Nat.lt_or_eq_of_le (hnearest n' addr' hline' hmaps')
    · exact .inl hlt
    · exact .inr ⟨rfl, hleast addr' hmaps'⟩

private theorem isNearest_self (line : Nat) : m.IsNearest file line line :=
  ⟨Nat.le_refl line, fun _ _ hline _ => hline⟩

theorem finds_find? (m : LineMap) (file : FileId) (line : Nat) :
    m.Finds file line (m.find? file line) where
  exact_some _ := find?_exact_eq_some_iff
  exact_none := by
    rw [find?_eq_none_iff]
    constructor
    · exact fun h addr => h line addr rfl
    · rintro h _ addr rfl
      exact h addr
  inexact_some _ := find?_inexact_eq_some_iff
  inexact_none := find?_eq_none_iff
  inexact_of_exact _ h :=
    find?_inexact_eq_some_iff.2 ⟨line, isNearest_self line, find?_exact_eq_some_iff.1 h⟩

end Breadboard.LineMap
