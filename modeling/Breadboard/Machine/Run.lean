import Breadboard.Machine.Step

namespace Breadboard

structure RunPlan where
  mode : RunMode
  single : Bool
  target : Option UInt16
deriving DecidableEq, Repr, Inhabited

abbrev RunResult := Except MachineError StopReason

namespace Machine

variable {δ : Type} [Host δ]

/-- Resets the processor for a new run. The subroutine that the run consists of returns to
the trap that ends it. -/
def beginRun (m : Machine δ) : Machine δ :=
  let (writes, registers) :=
    (Registers.initial.jump m.entryPoint).pushWord (Trap.terminate.address - 1)
  let (reading, m) := m.now
  recordWrites { m with
    registers
    memory := m.memory.writeAll writes
    cycles := 0
    instructions := 0
    startedAt := reading.uptime
    file := none } writes

def callReturn? (m : Machine δ) : Option UInt16 :=
  let pc := m.registers.pc
  if (Trap.at? pc).isSome then none
  else
    match opcodes.decode? (m.memory.get pc) with
    | some e => if e.op = .JSR then some (pc + e.size.toUInt16) else none
    | none => none

def plan (m : Machine δ) (mode : RunMode) : RunPlan :=
  let target :=
    match mode with
    | .stepOver => m.callReturn?
    | .stepOut => some (m.registers.peekWord m.memory 1 + 1)
    | _ => none
  { mode, target, single := mode = .stepInto || mode = .stepOver && target.isNone }

def periodicTurn (m : Machine δ) (n : Nat) : Machine δ × Nat :=
  if max m.settings.yieldInterval.toNat 1 ≤ n then (m.giveTurn, 0) else (m, n)

def pauses? (m : Machine δ) (plan : RunPlan) : Option StopReason :=
  let pc := m.registers.pc
  if plan.single || plan.target = some pc then some .step
  else if plan.mode ≠ .turbo && m.breakpoints.contains pc then some (.breakpoint pc)
  else none

/-- One round of a run, `n` steps having been made since the host's last periodic turn. It
gives the result if the run ends with it, and else the number of such steps after it. -/
def round (plan : RunPlan) (m : Machine δ) (n : Nat) : Machine δ × (RunResult ⊕ Nat) :=
  if m.stopRequested then (m, .inl (.ok .cancelled))
  else
    match m.step with
    | (m, some (.stop reason)) => (m, .inl (.ok reason))
    | (m, some (.error e)) => (m, .inl (.error e))
    | (m, none) =>
        let (m, n) := m.periodicTurn (n + 1)
        match m.pauses? plan with
        | some reason => (m, .inl (.ok reason))
        | none => (m, .inr n)

/-- Runs for at most as many rounds as the fuel allows. There is no result
if that is not enough. -/
def runRounds (plan : RunPlan) : Nat → Machine δ → Nat → Option (Machine δ × RunResult)
  | 0, _, _ => none
  | fuel + 1, m, n =>
      match m.round plan n with
      | (m, .inl result) => some (m, result)
      | (m, .inr n) => runRounds plan fuel m n

/-- The machine as a run in some mode starts. Earlier requests to stop and earlier
changes are forgotten. -/
def startRun (m : Machine δ) (mode : RunMode) : Machine δ :=
  let m := if m.state = .notRunning then m.beginRun else m
  { m with stopRequested := false, changes := m.changes.clear, state := .running mode }

def endRun (m : Machine δ) (mode : RunMode) (result : RunResult) : Machine δ :=
  let state :=
    match result with
    | .ok reason => if reason.endsRun then .notRunning else .paused
    | .error _ => .notRunning
  let changes := if mode = .turbo then m.changes.invalidate else m.changes
  let changes :=
    match result with
    | .ok reason => changes.setLastStop reason
    | .error _ => changes
  { m with state, changes }

/-- Runs the machine in a mode until it stops. There is no result if the fuel, a bound on
the number of steps, is not enough. -/
def execute (fuel : Nat) (m : Machine δ) (mode : RunMode) :
    Option (Machine δ × RunResult) :=
  let m := m.startRun mode
  (runRounds (m.plan mode) fuel m 0).map fun (m, result) => (m.endRun mode result, result)

end Machine

end Breadboard
