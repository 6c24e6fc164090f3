import Breadboard.Disk
import Mathlib.Data.List.Induction

namespace Breadboard

namespace Path

private theorem mem_piecesOf {cs piece : List Char} {c : Char} (h : piece ∈ piecesOf cs)
    (hc : c ∈ piece) :
    c ∈ cs ∧ c ≠ '/' := by
  induction cs generalizing piece with
  | nil =>
      rw [piecesOf, List.mem_singleton] at h
      subst h
      cases hc
  | cons first cs ih =>
      by_cases hslash : first = '/'
      · subst hslash
        rcases List.mem_cons.1 h with rfl | h
        · cases hc
        · exact ⟨List.mem_cons_of_mem _ (ih h hc).1, (ih h hc).2⟩
      · rw [piecesOf.eq_3 _ _ hslash] at h
        cases hrest : piecesOf cs with
        | nil =>
            rw [hrest, List.mem_singleton] at h
            subst h
            rw [List.mem_singleton] at hc
            exact ⟨List.mem_cons.2 (.inl hc), hc ▸ hslash⟩
        | cons next pieces =>
            rw [hrest] at h ih
            rcases List.mem_cons.1 h with rfl | h
            · rcases List.mem_cons.1 hc with rfl | hc
              · exact ⟨List.mem_cons_self, hslash⟩
              · have := ih List.mem_cons_self hc
                exact ⟨List.mem_cons_of_mem _ this.1, this.2⟩
            · have := ih (List.mem_cons_of_mem _ h) hc
              exact ⟨List.mem_cons_of_mem _ this.1, this.2⟩

private theorem piecesOf_of_not_mem {cs : List Char} (h : '/' ∉ cs) :
    piecesOf cs = [cs] := by
  induction cs with
  | nil => rfl
  | cons c cs ih =>
      have hc : c ≠ '/' := fun heq => h (heq ▸ List.mem_cons_self)
      rw [piecesOf.eq_3 _ _ hc, ih fun hmem => h (List.mem_cons_of_mem _ hmem)]

private theorem piecesOf_append {cs : List Char} (h : '/' ∉ cs) (rest : List Char) :
    piecesOf (cs ++ '/' :: rest) = cs :: piecesOf rest := by
  induction cs with
  | nil => rfl
  | cons c cs ih =>
      have hc : c ≠ '/' := fun heq => h (heq ▸ List.mem_cons_self)
      rw [List.cons_append, piecesOf.eq_3 _ _ hc,
        ih fun hmem => h (List.mem_cons_of_mem _ hmem)]

private theorem piecesOf_intercalate {names : List (List Char)} (hne : names ≠ [])
    (h : ∀ name ∈ names, '/' ∉ name) : piecesOf (['/'].intercalate names) = names := by
  induction names with
  | nil => exact absurd rfl hne
  | cons name names ih =>
      have hname := h name List.mem_cons_self
      cases names with
      | nil => simpa [List.intercalate] using piecesOf_of_not_mem hname
      | cons next names =>
          have hrest := ih (List.cons_ne_nil _ _) fun n hn =>
            h n (List.mem_cons_of_mem _ hn)
          have hsplit := piecesOf_append hname (['/'].intercalate (next :: names))
          rw [hrest] at hsplit
          simpa [List.intercalate] using hsplit

end Path

namespace Disk

variable {d : Disk}

/-- A place that is there, with directories above it. -/
inductive Stands (d : Disk) : List String → Prop
  | root : Stands d []
  | child {place : List String} {name : String} (above : Stands d place)
      (directory : d.node? place = some .directory) (isName : Path.isName name)
      (isThere : (d.node? (place ++ [name])).isSome) : Stands d (place ++ [name])

theorem node?_working {place : List String} (h : place <+: d.workingDirectory) :
    d.node? place = some .directory := by
  rw [node?, if_pos (List.isPrefixOf_iff_prefix.2 h)]

private theorem stands_working {place : List String} (h : place <+: d.workingDirectory) :
    Stands d place := by
  induction place using List.reverseRecOn with
  | nil => exact .root
  | append_singleton place name ih =>
      have hplace : place <+: d.workingDirectory :=
        (List.prefix_append place [name]).trans h
      have hname : name ∈ d.workingDirectory :=
        h.subset (List.mem_append_right _ List.mem_cons_self)
      refine .child (ih hplace) (node?_working hplace) (d.named name hname) ?_
      rw [node?_working h]
      rfl

theorem Stands.dropLast {place : List String} (h : Stands d place) :
    Stands d place.dropLast := by
  cases h with
  | root => exact .root
  | child above => rwa [List.dropLast_concat]

private theorem walk_append (d : Disk) (place xs ys : List String) :
    d.walk place (xs ++ ys) = (d.walk place xs).bind (d.walk · ys) := by
  induction xs generalizing place with
  | nil => rfl
  | cons x xs ih =>
      rw [List.cons_append, walk, walk]
      cases d.node? place with
      | none => rfl
      | some node =>
          cases node with
          | file content => rfl
          | directory =>
              dsimp only
              split
              · exact ih _
              · split
                · exact ih _
                · split
                  · rfl
                  · split
                    · exact ih _
                    · rfl

theorem Stands.isName {place : List String} {name : String} (h : Stands d place)
    (hname : name ∈ place) : Path.isName name := by
  induction h with
  | root => cases hname
  | child above _ isName _ ih =>
      rcases List.mem_append.1 hname with hname | hname
      · exact ih hname
      · rwa [List.mem_singleton.1 hname]

theorem Stands.walk_eq {place : List String} (h : Stands d place) :
    d.walk [] place = .ok place := by
  induction h with
  | root => rfl
  | @child place name _ directory isName isThere ih =>
      rw [walk_append, ih]
      change d.walk place [name] = _
      simp only [Path.isName, Bool.and_eq_true, Bool.not_eq_true', bne_iff_ne, ne_eq,
        decide_eq_true_eq] at isName
      obtain ⟨⟨⟨⟨hempty, hup⟩, -⟩, -⟩, hlong⟩ := isName
      simp [walk, directory, hempty, hup, Nat.not_lt.2 hlong, isThere]

theorem Stands.walk {place place' pieces : List String} (h : Stands d place)
    (hpieces : ∀ piece ∈ pieces, '/' ∉ piece.toList ∧ '\x00' ∉ piece.toList)
    (hwalk : d.walk place pieces = .ok place') : Stands d place' := by
  induction pieces generalizing place with
  | nil =>
      cases hwalk
      exact h
  | cons piece pieces ih =>
      have hrest := fun p hp => hpieces p (List.mem_cons_of_mem piece hp)
      rw [Disk.walk] at hwalk
      split at hwalk
      · contradiction
      · contradiction
      · rename_i hdirectory
        split at hwalk
        · exact ih h hrest hwalk
        · rename_i hempty
          split at hwalk
          · exact ih h.dropLast hrest hwalk
          · rename_i hup
            split at hwalk
            · contradiction
            · rename_i hlong
              dsimp only at hwalk
              split at hwalk
              · rename_i hthere
                refine ih (.child h hdirectory ?_ hthere) hrest hwalk
                have hchars := hpieces piece List.mem_cons_self
                simp_all [Path.isName]
              · contradiction

private theorem not_mem_of_isName {name : String} (h : Path.isName name) :
    '/' ∉ name.toList := by
  simp only [Path.isName, Bool.and_eq_true, Bool.not_eq_true', List.contains_eq_mem,
    decide_eq_false_iff_not] at h
  exact h.1.1.2

theorem pieces_absolutePath {place : List String} (h : Stands d place)
    (hne : place ≠ []) :
    Path.pieces (absolutePath place).text = "" :: place := by
  have hnames : ∀ name ∈ place.map String.toList, '/' ∉ name := by
    intro name hname
    obtain ⟨word, hword, rfl⟩ := List.mem_map.1 hname
    exact not_mem_of_isName (h.isName hword)
  have hsplit := Path.piecesOf_intercalate (by simpa using hne) hnames
  simp [Path.pieces, absolutePath, String.toList_append, Path.piecesOf, hsplit,
    Function.comp_def]

private theorem mem_of_piecesToWalk {p : Path} {pieces : List String}
    (h : piecesToWalk p = .ok pieces) :
    pieces = Path.pieces p.text ∧
      ∀ piece ∈ pieces, '/' ∉ piece.toList ∧ '\x00' ∉ piece.toList := by
  unfold piecesToWalk at h
  split at h
  · contradiction
  · rename_i hnul
    split at h
    · contradiction
    · split at h
      · contradiction
      · cases h
        refine ⟨rfl, fun piece hpiece => ?_⟩
        obtain ⟨chars, hchars, rfl⟩ := List.mem_map.1 hpiece
        rw [String.toList_ofList]
        refine ⟨fun hc => (Path.mem_piecesOf hchars hc).2 rfl, fun hc => hnul ?_⟩
        simpa using (Path.mem_piecesOf hchars hc).1

private theorem resolve_eq_ok_iff {p : Path} {place : List String} :
    d.resolve p = .ok place ↔
      ∃ pieces, piecesToWalk p = .ok pieces ∧ d.walk (d.startOf p) pieces =
        .ok place := by
  unfold resolve
  cases piecesToWalk p with
  | error e => simp [bind, Except.bind]
  | ok pieces => simp [bind, Except.bind]

theorem stands_of_resolve {p : Path} {place : List String} (h : d.resolve p = .ok place) :
    Stands d place := by
  obtain ⟨pieces, hpieces, hwalk⟩ := resolve_eq_ok_iff.1 h
  refine Stands.walk ?_ (mem_of_piecesToWalk hpieces).2 hwalk
  unfold startOf
  split
  · exact .root
  · exact stands_working List.prefix_rfl

private theorem resolve_absolutePath {place place' : List String} (h : Stands d place)
    (hresolve : d.resolve (absolutePath place) = .ok place') : place' = place := by
  obtain ⟨pieces, hpieces, hwalk⟩ := resolve_eq_ok_iff.1 hresolve
  have hstart : d.startOf (absolutePath place) = [] := by
    simp [startOf, Path.isAbsolute, absolutePath, String.toList_append]
  have hroot : d.node? [] = some .directory := node?_working List.nil_prefix
  rw [hstart, (mem_of_piecesToWalk hpieces).1] at hwalk
  cases place with
  | nil =>
      have hslash : Path.pieces (absolutePath []).text = ["", ""] := by decide
      rw [hslash] at hwalk
      simpa [Disk.walk, hroot, Path.isEmptyPiece] using hwalk.symm
  | cons name names =>
      rw [pieces_absolutePath h (List.cons_ne_nil _ _)] at hwalk
      have hempty : Path.isEmptyPiece "" = true := rfl
      rw [Disk.walk, hroot] at hwalk
      dsimp only at hwalk
      rw [if_pos hempty, h.walk_eq] at hwalk
      cases hwalk
      rfl

theorem canonical_of_resolve {p : Path} {place : List String}
    (h : d.resolve (d.canonical p) = .ok place) : d.canonical p = absolutePath place := by
  unfold canonical at h ⊢
  cases hresolve : d.resolve p with
  | error e =>
      rw [hresolve] at h
      dsimp only at h
      rw [hresolve] at h
      contradiction
  | ok place' =>
      rw [hresolve] at h
      dsimp only at h ⊢
      rw [resolve_absolutePath (stands_of_resolve hresolve) h]

@[simp] theorem canonical_canonical (d : Disk) (p : Path) :
    d.canonical (d.canonical p) = d.canonical p := by
  cases hresolve : d.resolve (d.canonical p) with
  | error e =>
      conv_lhs => rw [canonical, hresolve]
  | ok place =>
      conv_lhs => rw [canonical, hresolve]
      exact (canonical_of_resolve hresolve).symm

end Disk

end Breadboard
