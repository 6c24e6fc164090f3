import Breadboard.Proofs.Machine.Calls
import Breadboard.Proofs.Machine.Decoding

namespace Breadboard.Machine

variable {δ : Type} [Host δ] {m : Machine δ} {entry : OpcodeEntry} {effect : Effect}
    {next : UInt16} {v encoded : Int32}

/-- The machine executes the instruction of an entry at its program counter, with the
operand that a value denotes. The address after the instruction is `next`. A step does no
more than that, unless it begins or ends at a trap. -/
structure Executes (m : Machine δ) (entry : OpcodeEntry) (v : Int) (next : UInt16)
    (effect : Effect) :
    Prop where
  decodes : opcodes.decode? (m.memory.get m.registers.pc) = some entry
  advances : m.registers.pc + entry.size.toUInt16 = next
  resolves : (entry.mode.resolve m.registers.pc (m.registers.jump next) m.memory).1 =
    entry.mode.denoted v m.registers m.memory
  performs : entry.op.perform m.settings (entry.mode.denoted v m.registers m.memory)
    m.registers.pc (m.registers.jump next) m.memory = some effect
  proceeds : entry.op.transfers = false → effect.registers.pc = next
  branches : entry.op.isBranch = true →
    effect.registers.pc = if entry.op.branches m.registers.status then .ofInt v else next
  jumps : entry.op = .JMP ∨ entry.op = .JSR →
    entry.mode.denoted v m.registers m.memory = .address effect.registers.pc
  completes : ∃ m', m.executeInstruction = (m', none) ∧ m'.registers = effect.registers ∧
    m'.memory = m.memory.writeAll effect.writes
  steps : Trap.at? m.registers.pc = none → Trap.at? effect.registers.pc = none →
    ∃ m', m.step = (m', none) ∧ m'.registers = effect.registers ∧
      m'.memory = m.memory.writeAll effect.writes

omit [Host δ] in
theorem memory_applyEffect (m : Machine δ) (e : Effect) :
    (m.applyEffect e).memory = m.memory.writeAll e.writes := by
  unfold applyEffect recordWrites
  split
  · rename_i hnone
    rw [hnone]
    rfl
  · dsimp only
    split <;> rfl

theorem exists_step_of_executeInstruction {m' : Machine δ}
    (hbefore : Trap.at? m.registers.pc = none) (h : m.executeInstruction = (m', none))
    (hafter : Trap.at? m'.registers.pc = none) :
    ∃ m₁, m.step = (m₁, none) ∧ m₁.registers = m'.registers ∧ m₁.memory = m'.memory := by
  have hadvance : m.advance = (m', none) := by
    unfold advance
    rw [hbefore, h]
    simp only [hafter]
    rfl
  unfold step
  simp only [hadvance]
  split
  · exact ⟨_, rfl, rfl, rfl⟩
  · exact ⟨_, rfl, rfl, rfl⟩

omit [Host δ] in
theorem effect?_of_perform {operand : Operand} {s : Settings} {r : Registers}
    {memory : Memory}
    (hresolves :
      (entry.mode.resolve r.pc (r.jump (r.pc + entry.size.toUInt16)) memory).1 = operand)
    (hperforms :
      entry.op.perform s operand r.pc (r.jump (r.pc + entry.size.toUInt16)) memory =
        some effect) :
    ∃ cycles, entry.effect? s r memory = some { effect with cycles } := by
  unfold OpcodeEntry.effect?
  dsimp only
  rw [hresolves, hperforms]
  exact ⟨_, rfl⟩

theorem exists_executes (hdecodes : opcodes.decode? entry.opcode = some entry)
    (hsize : entry.size = entry.mode.size)
    (hbranch : entry.mode = .relative ↔ entry.op.isBranch = true)
    (hadmits : entry.op.need.admits entry.mode.blank = true)
    (hnext : m.registers.pc + entry.size.toUInt16 = next)
    (hencodes : entry.mode.Encodes next v encoded)
    (hbytes : m.memory.Holds m.registers.pc
      (Assembly.Item.instruction entry encoded).bytes) :
    ∃ effect, m.Executes entry v.toInt next effect := by
  rw [Assembly.Item.bytes, hsize] at hbytes
  have hopcode : m.memory.get m.registers.pc = entry.opcode := by
    cases hmode : entry.mode <;> rw [hmode] at hbytes <;> exact hbytes.1
  have hresolves :
      (entry.mode.resolve m.registers.pc (m.registers.jump next) m.memory).1 =
        entry.mode.denoted v.toInt m.registers m.memory :=
    (AddressingMode.resolve_eq_denoted (r := m.registers.jump next) hbytes hencodes).trans
      (entry.mode.denoted_jump v.toInt m.registers next m.memory)
  have hperformable :
      (entry.op.perform m.settings (entry.mode.denoted v.toInt m.registers m.memory)
        m.registers.pc (m.registers.jump next) m.memory).isSome :=
    Operation.isSome_perform
      ((entry.op.need.admits_denoted entry.mode v.toInt m.registers m.memory).trans
        hadmits)
  obtain ⟨effect, hperforms⟩ := Option.isSome_iff_exists.1 hperformable
  obtain ⟨cycles, heffect⟩ :=
    effect?_of_perform (s := m.settings) (hnext.symm ▸ hresolves) (hnext.symm ▸ hperforms)
  have hcompletes : m.executeInstruction =
    (m.applyEffect { effect with cycles }, none) := by
    rw [executeInstruction_eq, hopcode, hdecodes]
    unfold executeDecoded
    simp only [heffect]
    rfl
  have hregisters : (m.applyEffect { effect with cycles }).registers = effect.registers :=
    registers_applyEffect m _
  have hmemory : (m.applyEffect { effect with cycles }).memory =
    m.memory.writeAll effect.writes :=
    memory_applyEffect m _
  refine ⟨effect, ?_⟩
  refine {
    decodes := by rw [hopcode, hdecodes]
    advances := hnext
    resolves := hresolves
    performs := hperforms
    proceeds := fun hop => Operation.pc_of_perform hperforms hop
    branches := fun hop => ?_
    jumps := fun hop => Operation.pc_of_jump hperforms hop
    completes := ⟨_, hcompletes, hregisters, hmemory⟩
    steps := fun hbefore hafter => ?_ }
  · rw [hbranch.2 hop] at hperforms
    exact Operation.pc_of_branch hperforms hop
  · obtain ⟨m₁, hstep, hr, hm⟩ :=
      exists_step_of_executeInstruction hbefore hcompletes
        (by rw [hregisters]; exact hafter)
    exact ⟨m₁, hstep, hr.trans hregisters, hm.trans hmemory⟩

end Breadboard.Machine
