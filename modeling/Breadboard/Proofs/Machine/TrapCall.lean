import Breadboard.Host.Scripted
import Breadboard.Proofs.Machine.Execution

namespace Breadboard

namespace Machine

variable {δ : Type} {places : List Place} {m m₁ m' : Machine δ} {t : Trap}

/-- All registers but some are left alone, and so is the cycle count. -/
structure Answers (places : List Place) (m m' : Machine δ) : Prop where
  a : .a ∉ places → m'.registers.a = m.registers.a
  x : .x ∉ places → m'.registers.x = m.registers.x
  y : .y ∉ places → m'.registers.y = m.registers.y
  carry : .carry ∉ places → m'.registers.status.carry = m.registers.status.carry
  cycles : m'.cycles = m.cycles

variable [Host δ]

private theorem answers_serve (m : Machine δ) (t : Trap) :
    Answers t.results { m with cycles := if t = .clearCycles then 0 else m.cycles }
      (m.serve t).1 := by
  obtain ⟨r, hfits, hserve⟩ := m.exists_serve_eq t
  obtain ⟨ha, hx, hy, hcarry, -, hclears⟩ := r.of_fits hfits
  have hregisters : (m.asked t).registers = m.registers := by
    cases t with
    | _ => rfl
  have hcycles : (m.asked t).cycles = m.cycles := by
    cases t with
    | _ => rfl
  rw [hserve]
  constructor
  · intro hnot
    simp [answer, ha hnot, hregisters]
  · intro hnot
    simp [answer, hx hnot, hregisters]
  · intro hnot
    simp [answer, hy hnot, hregisters]
  · intro hnot
    simp [answer, hcarry hnot, hregisters]
  · simp [answer, hclears, hcycles]

private theorem exists_of_callTrap (h : m.callTrap t = (m', none)) :
    ∃ m₁, Serves m m₁ ∧
      Answers t.results { m with cycles := if t = .clearCycles then 0 else m.cycles } m₁ ∧
      m' = { m₁ with
        registers := (m₁.registers.pullWord m₁.memory).2.jump
          ((m₁.registers.pullWord m₁.memory).1 + 1)
        cycles := m₁.cycles + returnCycles } := by
  have hserves := (served_ready m t).serves
  have hanswers : Answers t.results
    { m with cycles := if t = .clearCycles then 0 else m.cycles }
      ((m.ready t).serve t).1 := by
    by_cases hblocking : t.isBlocking = true
    · rw [ready, if_pos hblocking]
      have hserve := answers_serve m.giveTurn t
      exact ⟨hserve.a, hserve.x, hserve.y, hserve.carry, hserve.cycles⟩
    · rw [ready, if_neg hblocking]
      exact answers_serve m t
  rw [callTrap_eq] at h
  generalize (m.ready t).serve t = o at hserves hanswers h
  obtain ⟨m₁, halt⟩ := o
  cases halt with
  | some halt => cases h
  | none =>
      cases h
      exact ⟨m₁, hserves, hanswers, rfl⟩

private theorem eq_of_mem_documented_JSR :
    ∀ e ∈ documented, e.op = .JSR → e = ⟨0x20, 3, 6, .JSR, .absolute⟩ := by
  decide +kernel

theorem stackAddress_injective {a b : UInt8} (h : stackAddress a = stackAddress b) :
    a = b := by
  have hlow := congrArg lowByte h
  rwa [stackAddress, stackAddress, lowByte_word, lowByte_word] at hlow

omit [Host δ] in
theorem counts_applyEffect (m : Machine δ) (e : Effect) :
    (m.applyEffect e).instructions = m.instructions + 1 ∧
      (m.applyEffect e).cycles = m.cycles + UInt64.ofNat e.cycles := by
  unfold applyEffect recordWrites
  split
  · exact ⟨rfl, rfl⟩
  · dsimp only
    split
    · exact ⟨rfl, rfl⟩
    · exact ⟨rfl, rfl⟩

/-- A machine that has called a subroutine at an address. -/
structure Calls (target : UInt16) (jsr : OpcodeEntry) (m m₁ : Machine δ) : Prop where
  registers : m₁.registers =
    { m.registers with sp := m.registers.sp - 1 - 1, pc := target }
  memory : m₁.memory =
    (m.memory.set (stackAddress m.registers.sp) (highByte (m.registers.pc + 2))).set
      (stackAddress (m.registers.sp - 1)) (lowByte (m.registers.pc + 2))
  instructions : m₁.instructions = m.instructions + 1
  cycles : m₁.cycles = m.cycles + jsr.cycles.toUInt64

omit [Host δ] in
theorem exists_calls {jsr : OpcodeEntry}
    (hjsr : opcodes.decode? (m.memory.get m.registers.pc) = some jsr)
    (hop : jsr.op = .JSR) :
    ∃ m₁, m.executeInstruction = (m₁, none) ∧
      Calls (m.memory.getWord (m.registers.pc + 1)) jsr m m₁ := by
  have hdocumented := mem_documented_of_decode? hjsr
  have hentry := eq_of_mem_documented_JSR jsr hdocumented hop
  subst hentry
  have hreturn : m.registers.pc + 3 - 1 = m.registers.pc + 2 := by grind
  rw [executeInstruction_eq, hjsr]
  refine ⟨_, rfl, ?_, ?_, ?_, ?_⟩
  · rw [registers_applyEffect]
    rfl
  · rw [memory_applyEffect, ← hreturn]
    rfl
  · exact (counts_applyEffect m _).1
  · exact (counts_applyEffect m _).2

omit [Host δ] in
theorem Calls.returnAddress {target : UInt16} {jsr : OpcodeEntry}
    (h : Calls target jsr m m₁) :
    word (m₁.memory.get (stackAddress (m.registers.sp - 1)))
      (m₁.memory.get (stackAddress m.registers.sp)) = m.registers.pc + 2 := by
  have hne : stackAddress (m.registers.sp - 1) ≠ stackAddress m.registers.sp := by
    intro hsame
    have := stackAddress_injective hsame
    grind
  rw [h.memory, Memory.get_set_self, Memory.get_set_ne _ _ hne, Memory.get_set_self,
    word_lowByte_highByte]

omit [Host δ] in
private theorem Calls.pulls {target : UInt16} {jsr : OpcodeEntry}
    (h : Calls target jsr m m₁) :
    m₁.Pulls ⟨m.registers.pc + 3, m.registers.sp⟩ := by
  have hlow : m.registers.sp - 1 - 1 + 1 = m.registers.sp - 1 := by grind
  have hhigh : m.registers.sp - 1 + 1 = m.registers.sp := by grind
  unfold Pulls Registers.peekWord
  rw [h.registers]
  dsimp only
  rw [hlow, hhigh, h.returnAddress]
  grind

/-- What is left of the call of a trap when the trap has returned: the answer of
its service, the cycles of the call and of the return, and the return address below
the top of the stack. -/
structure Returned (t : Trap) (jsr rts : OpcodeEntry) (m m' : Machine δ) : Prop where
  pc : m'.registers.pc = m.registers.pc + 3
  sp : m'.registers.sp = m.registers.sp
  memory : ∀ addr, addr ≠ stackAddress m.registers.sp →
    addr ≠ stackAddress (m.registers.sp - 1) →
    m'.memory.get addr = m.memory.get addr
  returnAddress : word (m'.memory.get (stackAddress (m.registers.sp - 1)))
    (m'.memory.get (stackAddress m.registers.sp)) = m.registers.pc + 2
  instructions : m'.instructions = m.instructions + 1
  cycles : m'.cycles =
    if t = .clearCycles then rts.cycles.toUInt64
    else m.cycles + jsr.cycles.toUInt64 + rts.cycles.toUInt64
  a : .a ∉ t.results → m'.registers.a = m.registers.a
  x : .x ∉ t.results → m'.registers.x = m.registers.x
  y : .y ∉ t.results → m'.registers.y = m.registers.y
  status : ∀ f, f ≠ .carry ∨ .carry ∉ t.results →
    m'.registers.status.get f = m.registers.status.get f

omit [Host δ] in
private theorem Serves.get_status (h : Serves m m') {f : Flag} (hf : f ≠ .carry) :
    m'.registers.status.get f = m.registers.status.get f := by
  obtain ⟨on, hstatus⟩ := h.status
  rw [hstatus, Status.get_set, if_neg hf.symm]

theorem Calls.returned {jsr rts : OpcodeEntry} (h : Calls t.address jsr m m₁)
    (hreturns : returnCycles = rts.cycles.toUInt64) (hcall : m₁.callTrap t = (m', none)) :
    Returned t jsr rts m m' := by
  have hreturned := hasReturned_of_callTrap h.pulls hcall
  obtain ⟨m₂, hserves, hanswers, rfl⟩ := exists_of_callTrap hcall
  have hmemory : m₂.memory = m₁.memory := hserves.untouched.memory
  have hcount : m₂.instructions = m₁.instructions := by rw [hserves.frame]
  have ha : m₁.registers.a = m.registers.a := by rw [h.registers]
  have hx : m₁.registers.x = m.registers.x := by rw [h.registers]
  have hy : m₁.registers.y = m.registers.y := by rw [h.registers]
  have hstatus : m₁.registers.status = m.registers.status := by rw [h.registers]
  refine {
    pc := hreturned.1
    sp := hreturned.2
    memory := fun addr hhigh hlow => ?_
    returnAddress := ?_
    instructions := hcount.trans h.instructions
    cycles := ?_
    a := fun hplace => (hanswers.a hplace).trans ha
    x := fun hplace => (hanswers.x hplace).trans hx
    y := fun hplace => (hanswers.y hplace).trans hy
    status := fun f hplace => ?_ }
  · dsimp only
    rw [hmemory, h.memory, Memory.get_set_ne _ _ hlow.symm,
      Memory.get_set_ne _ _ hhigh.symm]
  · dsimp only
    rw [hmemory, h.returnAddress]
  · dsimp only
    rw [hanswers.cycles, hreturns]
    dsimp only
    split
    · exact UInt64.zero_add _
    · rw [h.cycles]
  · change m₂.registers.status.get f = _
    rw [← hstatus]
    by_cases hf : f = .carry
    · subst hf
      exact hanswers.carry (hplace.resolve_left (fun hne => hne rfl))
    · exact hserves.get_status hf

/-- A step that calls a trap and finishes has returned behind the call. -/
theorem returned_of_step {jsr : OpcodeEntry} (hpc : Trap.at? m.registers.pc = none)
    (hjsr : opcodes.decode? (m.memory.get m.registers.pc) = some jsr)
    (hop : jsr.op = .JSR) (htarget : m.memory.getWord (m.registers.pc + 1) = t.address)
    (hstep : m.step = (m', none)) :
    ∃ rts, opcodes.lookup? .RTS .implied = some rts ∧ Returned t jsr rts m m' := by
  obtain ⟨rts, hrts, hreturns⟩ := exists_lookup?_RTS
  obtain ⟨m₁, hexecute, hcalls⟩ := exists_calls hjsr hop
  rw [htarget] at hcalls
  have htrap : Trap.at? m₁.registers.pc = some t := by
    rw [hcalls.registers]
    exact Trap.at?_address t
  obtain ⟨m₂, hadvance, hframe⟩ := advance_of_step hstep
  rw [(advance_of_trap hpc hexecute htrap).2] at hadvance
  have hreturned := hcalls.returned hreturns hadvance
  rw [hframe]
  exact ⟨rts, hrts, { hreturned with }⟩

omit [Host δ] in
theorem eq_finished_of_halt {o : Outcome δ} (h : o.2 = none) : o = o.1.finished :=
  Prod.ext rfl h

/-- A call of the trap that waits for a byte, whose return address goes
around the stack page. -/
def awaiting : Machine Scripted :=
  { memory := (Memory.filled 0).writeAll [(0x0200, 0x20), (0x0201, 0xE5), (0x0202, 0xFF)]
    registers := ⟨1, 0, 7, 0, 0x0200, .reset⟩
    state := .paused
    host := { script := [.byte 0x41] } }

theorem returned_of_step_awaiting :
    opcodes.decode? (awaiting.memory.get awaiting.registers.pc) =
        some ⟨0x20, 3, 6, .JSR, .absolute⟩ ∧
      awaiting.memory.getWord (awaiting.registers.pc + 1) = Trap.getChTimeout.address ∧
      ∃ m', awaiting.step = (m', none) ∧ ∃ rts, opcodes.lookup? .RTS .implied = some rts ∧
        Returned .getChTimeout ⟨0x20, 3, 6, .JSR, .absolute⟩ rts awaiting m' := by
  have hruns : (opcodes.decode? (awaiting.memory.get awaiting.registers.pc) =
      some ⟨0x20, 3, 6, .JSR, .absolute⟩ ∧
      awaiting.memory.getWord (awaiting.registers.pc + 1) = Trap.getChTimeout.address) ∧
      awaiting.step.2 = none := by
    decide +kernel
  obtain ⟨⟨hjsr, htarget⟩, hfinishes⟩ := hruns
  have hstep := eq_finished_of_halt hfinishes
  exact ⟨hjsr, htarget, _, hstep, returned_of_step rfl hjsr rfl htarget hstep⟩

end Machine

end Breadboard
