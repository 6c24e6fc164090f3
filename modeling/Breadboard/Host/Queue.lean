namespace Breadboard

structure Queue (α : Type) where
  front : List α := []
  back : List α := []
deriving DecidableEq, Repr, Inhabited

namespace Queue

variable {α : Type}

def toList (q : Queue α) : List α :=
  q.front ++ q.back.reverse

def push (q : Queue α) (a : α) : Queue α :=
  { q with back := a :: q.back }

def pop? (q : Queue α) : Option (α × Queue α) :=
  match q.front with
  | a :: front => some (a, { q with front })
  | [] =>
      match q.back.reverse with
      | a :: front => some (a, { front })
      | [] => none

@[simp] theorem toList_empty : ({} : Queue α).toList = [] := rfl

@[simp] theorem toList_push (q : Queue α) (a : α) :
    (q.push a).toList = q.toList ++ [a] := by
  simp [toList, push]

theorem pop?_eq_none_iff {q : Queue α} : q.pop? = none ↔ q.toList = [] := by
  unfold pop? toList
  split
  · simp_all
  · rename_i hfront
    rw [hfront]
    split <;> simp_all

theorem toList_of_pop? {q rest : Queue α} {a : α} (h : q.pop? = some (a, rest)) :
    q.toList = a :: rest.toList := by
  unfold pop? at h
  split at h
  · rename_i hfront
    cases h
    simp [toList, hfront]
  · rename_i hfront
    split at h
    · rename_i hback
      cases h
      simp [toList, hfront, hback]
    · contradiction

end Queue

end Breadboard
