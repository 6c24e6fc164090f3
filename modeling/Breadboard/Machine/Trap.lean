namespace Breadboard

inductive Trap
  | terminate
  | brkHandler
  | outCh
  /-- Writes the string at A (low) and X (high). -/
  | outStr
  | getCh
  /-- Reads a byte into A, waiting for as many milliseconds as A (low) and X (high)
  say. -/
  | getChTimeout
  /-- The milliseconds since the run started, in A, X and Y. -/
  | elapsedMs
  /-- The hour in A, the minute in X and the second in Y. -/
  | wallClock
  /-- The cycle count, in A, X and Y. -/
  | cycles
  | clearCycles
  | processEvents
  | fileOpen
  | fileClose
  | fileRewind
  | fileRead
deriving DecidableEq, Repr, Inhabited

namespace Trap

/-- Changes whenever an address is added, removed or given to another service. -/
def version : Nat := 1

def all : List Trap :=
  [.terminate, .brkHandler, .outCh, .outStr, .getCh, .getChTimeout, .elapsedMs,
    .wallClock, .cycles, .clearCycles, .processEvents, .fileOpen, .fileClose,
    .fileRewind, .fileRead]

def address : Trap → UInt16
  | .terminate => 0xFFE0
  | .brkHandler => 0xFFE1
  | .outCh => 0xFFE2
  | .outStr => 0xFFE3
  | .getCh => 0xFFE4
  | .getChTimeout => 0xFFE5
  | .elapsedMs => 0xFFE6
  | .wallClock => 0xFFE7
  | .cycles => 0xFFE8
  | .clearCycles => 0xFFE9
  | .processEvents => 0xFFEA
  | .fileOpen => 0xFFEB
  | .fileClose => 0xFFEC
  | .fileRewind => 0xFFED
  | .fileRead => 0xFFEE

def symbol : Trap → String
  | .terminate => "__terminate"
  | .brkHandler => "__brk_handler"
  | .outCh => "__outch"
  | .outStr => "__outstr"
  | .getCh => "__getch"
  | .getChTimeout => "__getch_timeout"
  | .elapsedMs => "__elapsed_ms"
  | .wallClock => "__wallclock"
  | .cycles => "__cycles"
  | .clearCycles => "__clear_cycles"
  | .processEvents => "__process_events"
  | .fileOpen => "__fopen"
  | .fileClose => "__fclose"
  | .fileRewind => "__frewind"
  | .fileRead => "__fread"

def at? (a : UInt16) : Option Trap :=
  if a < 0xFFE0 then none else all[(a - 0xFFE0).toNat]?

theorem at?_address (t : Trap) : at? t.address = some t := by
  cases t <;> rfl

theorem at?_eq_some_iff {a : UInt16} {t : Trap} : at? a = some t ↔ a = t.address := by
  constructor
  · intro h
    unfold at? at h
    split at h
    · contradiction
    · rename_i hlow
      have hget := List.getElem?_eq_some_iff.1 h
      obtain ⟨hlt, -⟩ := hget
      have hlen : all.length = 15 := rfl
      rw [hlen] at hlt
      have hle : (0xFFE0 : UInt16) ≤ a := UInt16.not_lt.1 hlow
      generalize hd : a - 0xFFE0 = d at *
      have ha : a = 0xFFE0 + d := by rw [← hd]; grind
      subst ha
      have hcases : d.toNat = 0 ∨ d.toNat = 1 ∨ d.toNat = 2 ∨ d.toNat = 3 ∨ d.toNat = 4 ∨
          d.toNat = 5 ∨ d.toNat = 6 ∨ d.toNat = 7 ∨ d.toNat = 8 ∨ d.toNat = 9 ∨
            d.toNat = 10 ∨
          d.toNat = 11 ∨ d.toNat = 12 ∨ d.toNat = 13 ∨ d.toNat = 14 := by omega
      have hof : d = UInt16.ofNat d.toNat := by simp
      rcases hcases with e | e | e | e | e | e | e | e | e | e | e | e | e | e | e <;>
        (rw [e] at hof h; subst hof; cases h; rfl)
  · rintro rfl
    exact at?_address t

def isTerminal : Trap → Bool
  | .terminate | .brkHandler => true
  | _ => false

def isBlocking : Trap → Bool
  | .getCh | .getChTimeout => true
  | _ => false

end Trap

end Breadboard
