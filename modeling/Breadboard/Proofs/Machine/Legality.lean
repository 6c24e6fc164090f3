import Breadboard.Host.Silent
import Breadboard.Proofs.Machine.Execution

namespace Breadboard

private theorem Need.admits_resolve (need : Need) (mode : AddressingMode) (base : UInt16)
    (r : Registers) (m : Memory) :
    need.admits (mode.resolve base r m).1 = need.admits mode.blank := by
  cases need <;> cases mode <;> rfl

theorem OpcodeEntry.isSome_perform {e : OpcodeEntry} (he : e ∈ documented) (s : Settings)
    (base : UInt16) (r r' : Registers) (m : Memory) :
    (e.op.perform s (e.mode.resolve base r m).1 base r' m).isSome :=
  Operation.isSome_perform
    ((e.op.need.admits_resolve e.mode base r m).trans (admits_of_mem_documented e he))

namespace OpcodeEntry

def past (e : OpcodeEntry) (r : Registers) : Registers :=
  r.jump (r.pc + e.size.toUInt16)

def operand (e : OpcodeEntry) (r : Registers) (m : Memory) : Operand :=
  (e.mode.resolve r.pc (e.past r) m).1

private theorem exists_perform {e : OpcodeEntry} (he : e ∈ documented) (s : Settings)
    (r : Registers) (m : Memory) :
    ∃ effect, e.op.perform s (e.operand r m) r.pc (e.past r) m = some effect :=
  Option.isSome_iff_exists.1 (e.isSome_perform he s r.pc (e.past r) (e.past r) m)

end OpcodeEntry

namespace Machine

variable {δ : Type} {m : Machine δ}

variable [Host δ]

private theorem isOfFile_of_callTrap {t : Trap} {e : MachineError}
    (h : (m.callTrap t).2 = some (.error e)) : e.isOfFile = true := by
  obtain ⟨r, hfits, hserve⟩ := (m.ready t).exists_serve_eq t
  rw [callTrap_eq, hserve] at h
  refine r.isOfFile_of_fits hfits ?_
  change (((m.ready t).asked t).answer r).2 = _
  generalize ((m.ready t).asked t).answer r = o at h ⊢
  obtain ⟨m₁, halt⟩ := o
  cases halt with
  | none => cases h
  | some halt => exact h

omit [Host δ] in
private theorem executeInstruction_of_illegal
    (h : opcodes.decode? (m.memory.get m.registers.pc) = none) :
    m.executeInstruction =
      m.failed (.illegalOpcode (m.memory.get m.registers.pc) m.registers.pc) := by
  rw [executeInstruction_eq, h]
  rfl

omit [Host δ] in
theorem applyEffect_eq (m : Machine δ) (e : Effect) :
    m.applyEffect e =
      { m with
        registers := e.registers
        memory := m.memory.writeAll e.writes
        cycles := m.cycles + UInt64.ofNat e.cycles
        instructions := m.instructions + 1
        changes := (m.applyEffect e).changes } := by
  unfold applyEffect recordWrites
  split
  · rename_i hwrites
    rw [hwrites]
    rfl
  · dsimp only
    split
    · rfl
    · rfl

omit [Host δ] in
theorem exists_executeDecoded {opcode : UInt8} {e : OpcodeEntry} (m : Machine δ)
    (h : opcodes.decode? opcode = some e) :
    ∃ effect cycles,
      e.op.perform m.settings (e.operand m.registers m.memory) m.registers.pc
        (e.past m.registers) m.memory = some effect ∧
      m.executeDecoded opcode (some e) =
        (m.applyEffect { effect with cycles }).finished := by
  have he := mem_documented_of_decode? h
  obtain ⟨effect, hperform⟩ := e.exists_perform he m.settings m.registers m.memory
  obtain ⟨cycles, heffect⟩ := effect?_of_perform rfl hperform
  refine ⟨effect, cycles, hperform, ?_⟩
  unfold executeDecoded
  simp only [heffect]

private theorem halt_step (m : Machine δ) : m.step.2 = m.advance.2 := by
  unfold step
  dsimp only
  split
  · rfl
  · rfl

theorem step_of_illegal (hpc : Trap.at? m.registers.pc = none)
    (h : opcodes.decode? (m.memory.get m.registers.pc) = none) :
    m.step = m.failed (.illegalOpcode (m.memory.get m.registers.pc) m.registers.pc) := by
  obtain ⟨-, hadvance⟩ := advance_of_halt hpc (executeInstruction_of_illegal h)
  unfold step
  simp only [hadvance]
  rw [if_neg (by simp)]
  rfl

/-- An error of a step comes from a trap, or else from a byte without an entry in the
table. -/
theorem illegal_of_step {e : MachineError} (h : m.step.2 = some (.error e)) :
    e.isOfFile = true ∨
      Trap.at? m.registers.pc = none ∧
      opcodes.decode? (m.memory.get m.registers.pc) = none := by
  rw [halt_step] at h
  cases hpc : Trap.at? m.registers.pc with
  | some t =>
      rw [(advance_of_caller hpc).2] at h
      exact .inl (isOfFile_of_callTrap h)
  | none =>
      cases hdecode : opcodes.decode? (m.memory.get m.registers.pc) with
      | none => exact .inr ⟨rfl, rfl⟩
      | some entry =>
          obtain ⟨effect, cycles, -, hexecute⟩ := exists_executeDecoded m hdecode
          rw [← hdecode, ← executeInstruction_eq] at hexecute
          cases hafter : Trap.at? (m.applyEffect { effect with cycles }).registers.pc with
          | none =>
              rw [(advance_of_finished hpc hexecute hafter).2] at h
              cases h
          | some t =>
              rw [(advance_of_trap hpc hexecute hafter).2] at h
              exact .inl (isOfFile_of_callTrap h)

/-- Away from the traps a step fails with an illegal opcode if and only if the byte at the
program counter is the opcode of no instruction, and the error tells the byte and its
address. Whenever a step fails so, it leaves the machine as it was. No step ever fails for
the mode of its instruction, as the operation of every instruction can use whatever
operand the mode of the instruction yields. -/
theorem failures_of_step (m : Machine δ) :
    (Trap.at? m.registers.pc = none → ∀ opcode addr,
      m.step.2 = some (.error (.illegalOpcode opcode addr)) ↔
        (∀ e ∈ documented, e.opcode ≠ m.memory.get m.registers.pc) ∧
          opcode = m.memory.get m.registers.pc ∧ addr = m.registers.pc) ∧
      (∀ opcode addr, m.step.2 = some (.error (.illegalOpcode opcode addr)) →
        m.step.1 = m) ∧
      (∀ op mode, m.step.2 ≠ some (.error (.unimplementedMode op mode))) ∧
      ∀ e ∈ documented,
        ∀ (s : Settings) (base : UInt16) (r r' : Registers) (memory : Memory),
        (e.op.perform s (e.mode.resolve base r memory).1 base r' memory).isSome := by
  have hillegal : ∀ {e : MachineError}, m.step.2 = some (.error e) → e.isOfFile = false →
      Trap.at? m.registers.pc = none ∧
        opcodes.decode? (m.memory.get m.registers.pc) = none := by
    intro e hfails he
    obtain hfile | hillegal := illegal_of_step hfails
    · rw [he] at hfile
      cases hfile
    · exact hillegal
  refine ⟨fun hpc opcode addr => ?_, fun opcode addr hfails => ?_,
    fun op mode hfails => ?_,
    fun e he s base r r' memory => e.isSome_perform he s base r r' memory⟩
  · constructor
    · intro hfails
      obtain ⟨-, hdecode⟩ := hillegal hfails rfl
      rw [step_of_illegal hpc hdecode] at hfails
      cases hfails
      exact ⟨decode?_eq_none_iff.1 hdecode, rfl, rfl⟩
    · rintro ⟨hbyte, rfl, rfl⟩
      rw [step_of_illegal hpc (decode?_eq_none_iff.2 hbyte)]
      rfl
  · obtain ⟨hpc, hdecode⟩ := hillegal hfails rfl
    rw [step_of_illegal hpc hdecode]
    rfl
  · obtain ⟨hpc, hdecode⟩ := hillegal hfails rfl
    rw [step_of_illegal hpc hdecode] at hfails
    cases hfails

def jamming : Machine Silent :=
  { memory := (Memory.filled 0).set 0xFFFF 0x02
    registers := ⟨1, 2, 3, 0, 0xFFFF, .reset⟩
    state := .paused
    host := {} }

theorem failures_of_step_jamming :
    Trap.at? jamming.registers.pc = none ∧
      jamming.step = (jamming, some (.error (.illegalOpcode 0x02 0xFFFF))) := by
  have hpc : Trap.at? jamming.registers.pc = none := rfl
  have hbyte : jamming.memory.get jamming.registers.pc = 0x02 := Memory.get_set_self _ _ _
  obtain ⟨hillegal, hkeeps, -, -⟩ := failures_of_step jamming
  have hfails : jamming.step.2 = some (.error (.illegalOpcode 0x02 0xFFFF)) := by
    refine (hillegal hpc 0x02 0xFFFF).2 ⟨?_, hbyte.symm, rfl⟩
    rw [hbyte]
    decide +kernel
  exact ⟨hpc, Prod.ext (hkeeps 0x02 0xFFFF hfails) hfails⟩

end Machine

end Breadboard
