import Breadboard.Host.Silent
import Breadboard.Machine
import Breadboard.Proofs.Assembly.Reading
import Mathlib.Data.List.Induction

namespace Breadboard

/-- What a host asks of a machine between runs, as far as breakpoints depend on it. -/
inductive Request
  | toggle (addr : UInt16)
  | load (assembly : Assembly)

namespace Request

def perform {δ : Type} (m : Machine δ) : Request → Machine δ
  | .toggle a => (m.toggleBreakpoint a).2
  | .load assembly => m.load assembly

end Request

namespace Machine

open Request

variable {δ : Type}

def performAll (m : Machine δ) (requests : List Request) : Machine δ :=
  requests.foldl perform m

@[simp] theorem performAll_nil (m : Machine δ) : m.performAll [] = m := rfl

@[simp] theorem performAll_concat (m : Machine δ) (requests : List Request)
    (r : Request) :
    m.performAll (requests ++ [r]) = r.perform (m.performAll requests) := by
  simp [performAll]

@[simp] theorem breakpoints_load (m : Machine δ) (assembly : Assembly) :
    (m.load assembly).breakpoints =
      (m.breakpoints.removeAll m.declared.toList).addAll assembly.breakpoints.toList :=
  rfl

@[simp] theorem declared_load (m : Machine δ) (assembly : Assembly) :
    (m.load assembly).declared = assembly.breakpoints := rfl

@[simp] theorem declared_toggleBreakpoint (m : Machine δ) (a : UInt16) :
    (m.toggleBreakpoint a).2.declared = m.declared := rfl

private theorem mem_breakpoints_load {m : Machine δ} {assembly : Assembly} {a : UInt16} :
    a ∈ (m.load assembly).breakpoints ↔
      a ∈ assembly.breakpoints ∨ a ∈ m.breakpoints ∧ a ∉ m.declared := by
  rw [breakpoints_load, AddressSet.mem_addAll, AddressSet.mem_removeAll,
    Std.ExtTreeSet.mem_toList, Std.ExtTreeSet.mem_toList, or_comm]

private theorem toggleBreakpoint_eq_true_iff {m : Machine δ} {a : UInt16} :
    (m.toggleBreakpoint a).1 = true ↔ a ∈ (m.toggleBreakpoint a).2.breakpoints :=
  Std.ExtTreeSet.contains_iff_mem

private theorem mem_breakpoints_toggle_ne {m : Machine δ} {a b : UInt16} (h : b ≠ a) :
    a ∈ (m.toggleBreakpoint b).2.breakpoints ↔ a ∈ m.breakpoints := by
  change a ∈ m.breakpoints.toggle b ↔ _
  rw [AddressSet.mem_toggle, if_neg h]

/-- The host toggled the address on, not to toggle it again, and neither the assembly that
was loaded then nor one loaded since declares it. -/
def HostAlone (m : Machine δ) (requests : List Request) (a : UInt16) : Prop :=
  ∃ before after, requests = before ++ .toggle a :: after ∧ .toggle a ∉ after ∧
    ((m.performAll before).toggleBreakpoint a).1 = true ∧
      a ∉ (m.performAll before).declared ∧
      ∀ assembly, .load assembly ∈ after → a ∉ assembly.breakpoints

variable {m : Machine δ} {requests : List Request} {a : UInt16}

private theorem hostAlone_toggle_self : m.HostAlone (requests ++ [.toggle a]) a ↔
    a ∈ ((m.performAll requests).toggleBreakpoint a).2.breakpoints ∧
      a ∉ (m.performAll requests).declared := by
  constructor
  · rintro ⟨before, after, hsplit, hlast, hon, hnew, -⟩
    cases after using List.reverseRecOn with
    | nil =>
        obtain ⟨rfl, -⟩ := List.append_inj' hsplit rfl
        exact ⟨toggleBreakpoint_eq_true_iff.1 hon, hnew⟩
    | append_singleton after r =>
        rw [← List.cons_append, ← List.append_assoc] at hsplit
        obtain ⟨-, hr⟩ := List.append_inj' hsplit rfl
        cases hr
        exact absurd (List.mem_append_right after List.mem_cons_self) hlast
  · rintro ⟨hon, hnew⟩
    refine ⟨requests, [], rfl, ?_, toggleBreakpoint_eq_true_iff.2 hon, hnew, ?_⟩
    · exact List.not_mem_nil
    · intro assembly hmem
      cases hmem

private theorem hostAlone_concat {r : Request} (h : r ≠ .toggle a) :
    m.HostAlone (requests ++ [r]) a ↔
      m.HostAlone requests a ∧ ∀ assembly, r = .load assembly →
      a ∉ assembly.breakpoints := by
  constructor
  · rintro ⟨before, after, hsplit, hlast, hon, hnew, hsince⟩
    cases after using List.reverseRecOn with
    | nil =>
        obtain ⟨-, hr⟩ := List.append_inj' hsplit rfl
        cases hr
        exact absurd rfl h
    | append_singleton after s =>
        rw [← List.cons_append, ← List.append_assoc] at hsplit
        obtain ⟨hrequests, hr⟩ := List.append_inj' hsplit rfl
        cases hr
        refine ⟨⟨before, after, hrequests, ?_, hon, hnew, ?_⟩, ?_⟩
        · exact fun hmem => hlast (List.mem_append_left _ hmem)
        · exact fun assembly hmem => hsince assembly (List.mem_append_left _ hmem)
        · rintro assembly rfl
          exact hsince assembly (List.mem_append_right after List.mem_cons_self)
  · rintro ⟨⟨before, after, hsplit, hlast, hon, hnew, hsince⟩, hr⟩
    refine ⟨before, after ++ [r], by simp [hsplit], ?_, hon, hnew, ?_⟩
    · simp [hlast, h.symm]
    · intro assembly hmem
      rcases List.mem_append.1 hmem with hmem | hmem
      · exact hsince assembly hmem
      · exact hr assembly (List.mem_singleton.1 hmem).symm

private theorem mem_breakpoints_and_not_declared_iff (settings : Settings) (host : δ)
    (requests : List Request) (a : UInt16) :
    a ∈ ((create settings host).performAll requests).breakpoints ∧
        a ∉ ((create settings host).performAll requests).declared ↔
      (create settings host).HostAlone requests a := by
  induction requests using List.reverseRecOn with
  | nil => simp [create, HostAlone]
  | append_singleton before r ih =>
      rw [performAll_concat]
      cases r with
      | toggle b =>
          by_cases hb : b = a
          · subst hb
            rw [hostAlone_toggle_self]
            exact .rfl
          · have hne : Request.toggle b ≠ .toggle a := fun heq =>
              hb (Request.toggle.inj heq)
            rw [hostAlone_concat hne, ← ih]
            simp [perform, mem_breakpoints_toggle_ne hb]
      | load assembly =>
          rw [hostAlone_concat (by simp), ← ih]
          simp only [perform, mem_breakpoints_load, declared_load]
          grind

/-- After a load, the breakpoints are those that the assembly declares, and those that the
host has on and that no assembly loaded when the host set them, or since, declares. -/
theorem mem_breakpoints_load_iff (settings : Settings) (host : δ)
    (requests : List Request) (assembly : Assembly) (a : UInt16) :
    a ∈ ((create settings host).performAll (requests ++ [.load assembly])).breakpoints ↔
      a ∈ assembly.breakpoints ∨ (create settings host).HostAlone requests a := by
  rw [performAll_concat, ← mem_breakpoints_and_not_declared_iff]
  exact mem_breakpoints_load

/-- A program that declares a breakpoint at the origin. -/
def breaking : Assembler :=
  (Assembler.addText {} "breaking" "  .break").2

def empty : Assembler :=
  (Assembler.addText {} "empty" "").2

/-- The host sets a breakpoint, and two loads later it is gone. -/
theorem breakpoint_lost_breaking : ∃ declaring silent,
    (breaking.assemble {} 0 (.filled 0)).1 = .ok declaring ∧
      (empty.assemble {} 0 (.filled 0)).1 = .ok silent ∧
        ((create {} Silent.mk).toggleBreakpoint 0x0200).1 = true ∧
          0x0200 ∉ ((create {} Silent.mk).performAll
            [.toggle 0x0200, .load declaring, .load silent]).breakpoints := by
  have hlost : ∃ declaring ∈ (breaking.assemble {} 0 (.filled 0)).1.toOption,
      ∃ silent ∈ (empty.assemble {} 0 (.filled 0)).1.toOption,
        ((create {} Silent.mk).toggleBreakpoint 0x0200).1 = true ∧
          ((create {} Silent.mk).performAll
            [.toggle 0x0200, .load declaring, .load silent]).breakpoints.contains 0x0200 =
              false := by
    decide +kernel
  obtain ⟨declaring, hdeclaring, silent, hsilent, hon, hgone⟩ := hlost
  refine ⟨declaring, silent, Assembler.eq_ok_of_toOption hdeclaring,
    Assembler.eq_ok_of_toOption hsilent, hon, ?_⟩
  rw [← Std.ExtTreeSet.contains_iff_mem, hgone]
  exact Bool.false_ne_true

end Machine

end Breadboard
