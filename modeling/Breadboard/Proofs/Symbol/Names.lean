import Breadboard.Literal
import Breadboard.Proofs.Token.LetterCase

namespace Breadboard

variable {name name' scope scope' : String}

theorem dot_mem_toLower : '.' ∈ name.toLower.toList ↔ '.' ∈ name.toList := by
  rw [Text.toList_toLower, List.mem_map]
  constructor
  · rintro ⟨c, hmem, hc⟩
    rwa [(toLower_eq_iff rfl).1 hc] at hmem
  · exact fun hmem => ⟨_, hmem, rfl⟩

theorem isLocalName_iff : isLocalName name = true ↔
    ∃ rest, name.toList = '.' :: rest := by
  unfold isLocalName
  rw [beq_iff_eq, List.head?_eq_some_iff]

theorem isLocalName_toLower (name : String) :
    isLocalName name.toLower = isLocalName name := by
  rw [Bool.eq_iff_iff, isLocalName_iff, isLocalName_iff, Text.toList_toLower]
  cases name.toList with
  | nil => exact iff_of_false (by simp) (by simp)
  | cons c cs => simp [toLower_eq_iff]

theorem dot_mem_of_isLocalName (h : isLocalName name = true) : '.' ∈ name.toList := by
  obtain ⟨rest, hchars⟩ := isLocalName_iff.1 h
  rw [hchars]
  exact List.mem_cons_self

theorem ne_empty_of_isLabelName (h : isLabelName name = true) : name ≠ "" := by
  rintro rfl
  cases h

theorem toLower_ne_empty (h : name ≠ "") : name.toLower ≠ "" := by
  intro hempty
  refine h (String.toList_eq_nil_iff.1 (List.map_eq_nil_iff (f := Char.toLower).1 ?_))
  rw [← Text.toList_toLower, hempty]
  rfl

theorem dot_notMem_of_isLabelName (h : isLabelName name = true)
    (hglobal : isLocalName name = false) :
    '.' ∉ name.toList := by
  unfold isLabelName at h
  unfold isLocalName at hglobal
  cases hchars : name.toList with
  | nil => exact List.not_mem_nil
  | cons c cs =>
      rw [hchars] at h hglobal
      have hfirst : c ≠ '.' := by simpa using hglobal
      simp only [Bool.and_eq_true, List.all_eq_true] at h
      intro hmem
      obtain rfl | hmem := List.mem_cons.1 hmem
      · exact hfirst rfl
      · exact absurd (h.2 '.' hmem) (by decide)

theorem eq_and_eq_of_append_eq (hscope : '.' ∉ scope.toList)
    (hscope' : '.' ∉ scope'.toList) (hname : isLocalName name = true)
    (hname' : isLocalName name' = true) (h : scope ++ name = scope' ++ name') :
    scope = scope' ∧ name = name' := by
  obtain ⟨rest, hchars⟩ := isLocalName_iff.1 hname
  obtain ⟨rest', hchars'⟩ := isLocalName_iff.1 hname'
  have hbefore : ∀ {cs : List Char}, '.' ∉ cs → ∀ rest : List Char,
      (cs ++ '.' :: rest).takeWhile (· != '.') = cs := by
    intro cs hcs rest
    rw [List.takeWhile_append_of_pos
      fun c hc => by simpa using fun h : c = '.' => hcs (h ▸ hc)]
    simp
  have hlists := congrArg String.toList h
  rw [String.toList_append, String.toList_append, hchars, hchars'] at hlists
  have hsame := congrArg (List.takeWhile (· != '.')) hlists
  rw [hbefore hscope, hbefore hscope'] at hsame
  rw [hsame] at hlists
  have hrest := List.append_cancel_left hlists
  rw [← hchars, ← hchars'] at hrest
  exact ⟨String.toList_inj.1 hsame, String.toList_inj.1 hrest⟩

end Breadboard
