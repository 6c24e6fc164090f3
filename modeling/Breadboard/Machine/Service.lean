import Breadboard.Machine

namespace Breadboard.Machine

variable {δ : Type} [Host δ]

/-- A machine after a service or a step, and what kept that from finishing. -/
abbrev Outcome (δ : Type) := Machine δ × Option Halt

def finished (m : Machine δ) : Outcome δ :=
  (m, none)

def stopped (m : Machine δ) (reason : StopReason) : Outcome δ :=
  (m, some (.stop reason))

def failed (m : Machine δ) (e : MachineError) : Outcome δ :=
  (m, some (.error e))

def pointer (m : Machine δ) : UInt16 :=
  word m.registers.a m.registers.x

def setFlag (m : Machine δ) (f : Flag) (on : Bool) : Machine δ :=
  { m with registers := m.registers.setFlag f on }

def setA (m : Machine δ) (a : UInt8) : Machine δ :=
  { m with registers := { m.registers with a } }

def setAXY (m : Machine δ) (a x y : UInt8) : Machine δ :=
  { m with registers := { m.registers with a, x, y } }

def setCount (m : Machine δ) (n : Nat) : Machine δ :=
  m.setAXY (UInt8.ofNat n) (UInt8.ofNat (n / 256)) (UInt8.ofNat (n / 65536))

def output (m : Machine δ) (bytes : List UInt8) : Machine δ :=
  m.after (Host.writeAll m.host bytes)

def giveTurn (m : Machine δ) : Machine δ :=
  m.after (Host.processEvents m.host)

def input (m : Machine δ) (timeout : Option Nat) : InputEvent × Machine δ :=
  let (event, turn) := Host.readByte m.host timeout m.stopRequested
  (event, m.after turn)

def now (m : Machine δ) : ClockReading × Machine δ :=
  let (reading, host) := Host.readClock m.host
  (reading, { m with host })

def interruptByte : UInt8 := 3

def accept (m : Machine δ) (b : UInt8) (done : Machine δ → Machine δ) : Outcome δ :=
  if b = interruptByte then m.stopped .interrupted else (done (m.setA b)).finished

/-- Prints the message of a `BRK` and ends the run. The word after the opcode
points to the message, and the stack holds the status and above it the
address two past the opcode. -/
def handleBreak (m : Machine δ) : Outcome δ :=
  let ret := m.registers.peekWord m.memory 2
  let message := m.memory.string (m.memory.getWord (ret - 1))
  (m.output message).stopped (.brk (ret - 2) (Text.decodeUtf8Lossy message))

def readInput (m : Machine δ) : Outcome δ :=
  let (event, m) := m.input none
  match event with
  | .byte b => m.accept b id
  | .cancelled => m.stopped .cancelled
  | .timeout | .closed => m.stopped .inputClosed

def readInputFor (m : Machine δ) (timeout : Nat) : Outcome δ :=
  let (event, m) := m.input (some timeout)
  match event with
  | .byte b => m.accept b (·.setFlag .carry false)
  | .timeout => (m.setFlag .carry true).finished
  | .cancelled => m.stopped .cancelled
  | .closed => m.stopped .inputClosed

def openFile (m : Machine δ) : Outcome δ :=
  if m.file.isSome then m.failed .fileAlreadyOpen
  else
    let raw := m.memory.string m.pointer
    match Text.decodeUtf8? raw with
    | none => m.failed (.badFilename (Text.decodeUtf8Lossy raw))
    | some "" => m.failed (.badFilename "")
    | some name =>
        match m.disk.open? ⟨name⟩ with
        | .ok place => (setFlag { m with file := some { place } } .carry false).finished
        | .error _ => (m.setFlag .carry true).finished

def closeFile (m : Machine δ) : Outcome δ :=
  match m.file with
  | none => m.failed .fileNotOpen
  | some _ => finished { m with file := none }

def rewindFile (m : Machine δ) : Outcome δ :=
  match m.file with
  | none => m.failed .fileNotOpen
  | some r => finished { m with file := some r.rewind }

def readFile (m : Machine δ) : Outcome δ :=
  match m.file with
  | none => m.failed .fileNotOpen
  | some r =>
      match r.next m.disk with
      | .error e => m.failed (.fileFault e.message)
      | .ok (b?, r) =>
          let m := { m with file := some r }
          match b? with
          | none => (m.setFlag .carry true).finished
          | some b => ((m.setA b).setFlag .carry false).finished

def serve (m : Machine δ) (t : Trap) : Outcome δ :=
  match t with
  | .terminate => m.stopped .terminated
  | .brkHandler => m.handleBreak
  | .outCh => (m.output [m.registers.a]).finished
  | .outStr => (m.output (m.memory.string m.pointer)).finished
  | .getCh => m.readInput
  | .getChTimeout => m.readInputFor m.pointer.toNat
  | .elapsedMs =>
      let (reading, m) := m.now
      (m.setCount (reading.uptime - m.startedAt)).finished
  | .wallClock =>
      let (reading, m) := m.now
      let second := reading.secondOfDay % 86400
      (m.setAXY (UInt8.ofNat (second / 3600)) (UInt8.ofNat (second / 60 % 60))
        (UInt8.ofNat (second % 60))).finished
  | .cycles => (m.setCount m.cycles.toNat).finished
  | .clearCycles => finished { m with cycles := 0 }
  | .processEvents => m.giveTurn.finished
  | .fileOpen => m.openFile
  | .fileClose => m.closeFile
  | .fileRewind => m.rewindFile
  | .fileRead => m.readFile

def returnCycles : UInt64 :=
  match opcodes.lookup? .RTS .implied with
  | some e => e.cycles.toUInt64
  | none => 6

def returnToCaller (m : Machine δ) : Machine δ :=
  let (a, registers) := m.registers.pullWord m.memory
  { m with registers := registers.jump (a + 1), cycles := m.cycles + returnCycles }

def callTrap (m : Machine δ) (t : Trap) : Outcome δ :=
  let m := if t.isBlocking then m.giveTurn else m
  match m.serve t with
  | (m, none) => m.returnToCaller.finished
  | (m, some halt) => (m, some halt)

end Breadboard.Machine
