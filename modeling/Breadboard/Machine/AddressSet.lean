import Breadboard.Text.Hex
import Breadboard.Text.Quoted
import Std.Data.ExtTreeSet

namespace Breadboard

abbrev AddressSet := Std.ExtTreeSet UInt16

namespace AddressSet

def ofList (addresses : List UInt16) : AddressSet :=
  addresses.foldl (·.insert ·) ∅

def toggle (s : AddressSet) (a : UInt16) : AddressSet :=
  if s.contains a then s.erase a else s.insert a

def addAll (s : AddressSet) (addresses : List UInt16) : AddressSet :=
  addresses.foldl (·.insert ·) s

def removeAll (s : AddressSet) (addresses : List UInt16) : AddressSet :=
  addresses.foldl (·.erase ·) s

def describeBreakpoints (s : AddressSet) : String :=
  "Breakpoints" ++ Text.braced (s.toList.map Text.address)

theorem mem_addAll {s : AddressSet} {addresses : List UInt16} {a : UInt16} :
    a ∈ s.addAll addresses ↔ a ∈ s ∨ a ∈ addresses := by
  induction addresses generalizing s with
  | nil => simp [addAll]
  | cons b bs ih =>
      change a ∈ addAll (s.insert b) bs ↔ _
      rw [ih, Std.ExtTreeSet.mem_insert, Std.LawfulEqCmp.compare_eq_iff_eq, List.mem_cons]
      grind

theorem mem_removeAll {s : AddressSet} {addresses : List UInt16} {a : UInt16} :
    a ∈ s.removeAll addresses ↔ a ∈ s ∧ a ∉ addresses := by
  induction addresses generalizing s with
  | nil => simp [removeAll]
  | cons b bs ih =>
      change a ∈ removeAll (s.erase b) bs ↔ _
      rw [ih, Std.ExtTreeSet.mem_erase, ne_eq, Std.LawfulEqCmp.compare_eq_iff_eq,
        List.mem_cons]
      grind

theorem mem_toggle {s : AddressSet} {a b : UInt16} :
    b ∈ s.toggle a ↔ if a = b then b ∉ s else b ∈ s := by
  simp only [toggle, Std.ExtTreeSet.contains_iff_mem]
  by_cases hab : a = b
  · subst hab
    by_cases ha : a ∈ s
    · simp [ha]
    · simp [ha]
  · by_cases ha : a ∈ s
    · simp [ha, hab]
    · simp [ha, hab]

end AddressSet

end Breadboard
