import Breadboard.Machine.Service

namespace Breadboard.Machine

variable {δ : Type} [Host δ]

def recordWrites (m : Machine δ) (writes : List Write) : Machine δ :=
  if m.isTracking then
    { m with changes := writes.foldl (fun c w => c.recordWrite w.1) m.changes }
  else m

def applyEffect (m : Machine δ) (e : Effect) : Machine δ :=
  match e.writes with
  | [] =>
      { m with
        registers := e.registers
        cycles := m.cycles + UInt64.ofNat e.cycles
        instructions := m.instructions + 1 }
  | writes =>
      recordWrites { m with
        registers := e.registers
        memory := m.memory.writeAll writes
        cycles := m.cycles + UInt64.ofNat e.cycles
        instructions := m.instructions + 1 } writes

def executeDecoded (m : Machine δ) (opcode : UInt8) : Option OpcodeEntry → Outcome δ
  | none => m.failed (.illegalOpcode opcode m.registers.pc)
  | some e =>
      match e.effect? m.settings m.registers m.memory with
      | none => m.failed (.unimplementedMode e.op e.mode)
      | some effect => (m.applyEffect effect).finished

def executeInstruction (m : Machine δ) : Outcome δ :=
  let opcode := m.memory.get m.registers.pc
  m.executeDecoded opcode (opcodes.decode? opcode)

def advance (m : Machine δ) : Outcome δ :=
  match Trap.at? m.registers.pc with
  | some t => m.callTrap t
  | none =>
      match m.executeInstruction with
      | (m, some halt) => (m, some halt)
      | (m, none) =>
          match Trap.at? m.registers.pc with
          | some t => m.callTrap t
          | none => m.finished

def step (m : Machine δ) : Outcome δ :=
  let before := m.registers
  let (m, halt) := m.advance
  if m.isTracking && m.registers ≠ before then
    ({ m with changes := m.changes.recordRegisters }, halt)
  else (m, halt)

end Breadboard.Machine
