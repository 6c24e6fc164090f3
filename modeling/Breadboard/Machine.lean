import Breadboard.Assembly
import Breadboard.Disk.Reader
import Breadboard.Host.Basic
import Breadboard.Machine.Changes
import Breadboard.Machine.Instruction

namespace Breadboard

inductive RunMode
  | run
  /-- Until the program ends, without breakpoints and without recording changes. -/
  | turbo
  | stepInto
  /-- One instruction, or a whole subroutine if the instruction calls one. -/
  | stepOver
  | stepOut
deriving DecidableEq, Repr, Inhabited

inductive RunState
  /-- The next run starts over. -/
  | notRunning
  /-- The next run goes on from here. -/
  | paused
  | running (mode : RunMode)
deriving DecidableEq, Repr, Inhabited

def RunMode.name : RunMode → String
  | .run => "Run"
  | .turbo => "TurboRun"
  | .stepInto => "StepInto"
  | .stepOver => "StepOver"
  | .stepOut => "StepOut"

def RunState.describe : RunState → String
  | .notRunning => "NotRunning"
  | .paused => "Paused"
  | .running mode => "Running(" ++ mode.name ++ ")"

def defaultEntry : UInt16 := 0x0200

structure Machine (δ : Type) where
  memory : Memory
  registers : Registers := .initial
  cycles : UInt64 := 0
  instructions : UInt64 := 0
  startedAt : Nat := 0
  state : RunState := .notRunning
  changes : Changes := .none
  file : Option Reader := none
  settings : Settings := {}
  breakpoints : AddressSet := ∅
  declared : AddressSet := ∅
  entryPoint : UInt16 := defaultEntry
  host : δ
  disk : Disk := .empty
  stopRequested : Bool := false

namespace Machine

variable {δ : Type}

def create (settings : Settings) (host : δ) : Machine δ :=
  { memory := settings.fill.memory, settings, host }

def reset (m : Machine δ) : Machine δ :=
  { m with
    state := .notRunning
    registers := .initial
    file := none
    changes := m.changes.clear }

/-- Prepares for running an assembly whose bytes are in memory. The breakpoints that the
previous one declared give way to those of this one. -/
def load (m : Machine δ) (a : Assembly) : Machine δ :=
  reset { m with
    entryPoint := a.entry?.getD defaultEntry
    breakpoints := (m.breakpoints.removeAll m.declared.toList).addAll a.breakpoints.toList
    declared := a.breakpoints }

def toggleBreakpoint (m : Machine δ) (a : UInt16) : Bool × Machine δ :=
  let breakpoints := m.breakpoints.toggle a
  (breakpoints.contains a, { m with breakpoints })

def requestStop (m : Machine δ) : Machine δ :=
  { m with stopRequested := true }

def setHost [Host δ] {ε : Type} (m : Machine δ) (host : ε) : δ × Machine ε :=
  (Host.close m.host,
    { memory := m.memory
      registers := m.registers
      cycles := m.cycles
      instructions := m.instructions
      startedAt := m.startedAt
      state := m.state
      changes := m.changes
      file := m.file
      settings := m.settings
      breakpoints := m.breakpoints
      declared := m.declared
      entryPoint := m.entryPoint
      host
      disk := m.disk
      stopRequested := m.stopRequested })

def after (m : Machine δ) (t : Turn δ) : Machine δ :=
  { m with host := t.host, stopRequested := m.stopRequested || t.stops }

def isTracking (m : Machine δ) : Bool :=
  m.state ≠ .running .turbo

def describe (m : Machine δ) : String :=
  Text.partialRecord "Simulator"
    [("regs", m.registers.describe), ("cycles", toString m.cycles.toNat),
      ("instructions_run", toString m.instructions.toNat), ("state", m.state.describe),
      ("flags", m.settings.describe), ("breakpoints", m.breakpoints.describeBreakpoints),
      ("entry_point", toString m.entryPoint.toNat),
      ("file_open", Text.boolean m.file.isSome)]

end Machine

end Breadboard
