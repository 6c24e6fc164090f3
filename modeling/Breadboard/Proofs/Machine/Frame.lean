import Breadboard.Host.Silent
import Breadboard.Proofs.Machine.Stack

namespace Breadboard

/-- The registers that hold a byte of data. -/
inductive Register
  | a
  | x
  | y
  | sp
deriving DecidableEq, Repr, Inhabited

def Registers.get (r : Registers) : Register → UInt8
  | .a => r.a
  | .x => r.x
  | .y => r.y
  | .sp => r.sp

def Registers.put (r : Registers) (reg : Register) (v : UInt8) : Registers :=
  match reg with
  | .a => { r with a := v }
  | .x => { r with x := v }
  | .y => { r with y := v }
  | .sp => { r with sp := v }

namespace Operation

def pushes : Operation → Nat
  | .PHA | .PHP => 1
  | .JSR => 2
  | .BRK => 3
  | _ => 0

def stores : Operation → Bool
  | .STA | .STX | .STY | .ASL | .LSR | .ROL | .ROR | .INC | .DEC => true
  | _ => false

def written (op : Operation) (o : Operand) (sp : UInt8) : List UInt16 :=
  (if op.stores then o.address?.toList else []) ++ stackRoom sp op.pushes

def defined (op : Operation) (o : Operand) : List Register :=
  match op with
  | .LDA | .TXA | .TYA | .ADC | .SBC | .AND | .ORA | .EOR => [.a]
  | .LDX | .TAX | .TSX | .INX | .DEX => [.x]
  | .LDY | .TAY | .INY | .DEY => [.y]
  | .ASL | .LSR | .ROL | .ROR | .INC | .DEC => if o = .accumulator then [.a] else []
  | .PLA => [.a, .sp]
  | .TXS | .PHA | .PHP | .PLP | .JSR | .RTS | .RTI | .BRK => [.sp]
  | _ => []

def flags : Operation → List Flag
  | .LDA | .LDX | .LDY | .TAX | .TAY | .TSX | .TXA | .TYA | .AND | .ORA | .EOR | .INC
    | .DEC | .INX | .INY
  | .DEX | .DEY | .PLA => [.negative, .zero]
  | .CMP | .CPX | .CPY | .ASL | .LSR | .ROL | .ROR => [.negative, .zero, .carry]
  | .ADC | .SBC => [.negative, .overflow, .zero, .carry]
  | .BIT => [.negative, .overflow, .zero]
  | .BRK | .CLI | .SEI => [.interrupt]
  | .CLC | .SEC => [.carry]
  | .CLD | .SED => [.decimal]
  | .CLV => [.overflow]
  | .PLP | .RTI =>
    [.carry, .zero, .interrupt, .decimal, .brk, .unused, .overflow, .negative]
  | _ => []

def diverts (op : Operation) (p : Status) : Bool :=
  match op with
  | .JMP | .JSR | .RTS | .RTI | .BRK => true
  | op => op.branches p

end Operation

namespace Status

variable {p : Status} {f : Flag}

theorem get_setNZ (v : UInt8) (h : f ∉ [.negative, .zero]) :
    (p.setNZ v).get f = p.get f := by
  cases f <;> first | rfl | exact absurd (by decide) h

private theorem get_compare (register v : UInt8) (h : f ∉ [.negative, .zero, .carry]) :
    (p.compare register v).get f = p.get f := by
  cases f <;> first | rfl | exact absurd (by decide) h

private theorem get_add (decimal : Bool) (a v : UInt8)
    (h : f ∉ [.negative, .overflow, .zero, .carry]) :
    (p.add decimal a v).2.get f = p.get f := by
  unfold add
  dsimp only
  split <;> cases f <;> first | rfl | exact absurd (by decide) h

private theorem get_sub (decimal : Bool) (a v : UInt8)
    (h : f ∉ [.negative, .overflow, .zero, .carry]) :
    (p.sub decimal a v).2.get f = p.get f := by
  unfold sub
  dsimp only
  split <;> cases f <;> first | rfl | exact absurd (by decide) h

end Status

namespace Registers

/-- Two register files with the same data and flags, some aside. The
program counter may be any. -/
structure AlikeBut (registers : List Register) (flags : List Flag) (r r' : Registers) :
    Prop where
  data : ∀ reg ∉ registers, r'.get reg = r.get reg
  status : ∀ f ∉ flags, r'.status.get f = r.status.get f

variable {r r' : Registers} {registers : List Register} {flags : List Flag} {p : Status}

namespace AlikeBut

theorem refl (registers : List Register) (flags : List Flag) (r : Registers) :
    AlikeBut registers flags r r :=
  ⟨fun _ _ => rfl, fun _ _ => rfl⟩

theorem put (h : AlikeBut registers flags r r') (reg : Register) (hreg : reg ∈ registers)
    (v : UInt8) :
    AlikeBut registers flags r (r'.put reg v) := by
  refine ⟨fun other hother => ?_, fun f hf => ?_⟩
  · have hne : other ≠ reg := fun hsame => hother (hsame ▸ hreg)
    rw [← h.data other hother]
    cases reg <;> cases other <;> first | rfl | exact absurd rfl hne
  · rw [← h.status f hf]
    cases reg <;> rfl

theorem setStatus (h : AlikeBut registers flags r r')
    (hp : ∀ f ∉ flags, p.get f = r.status.get f) :
    AlikeBut registers flags r (r'.setStatus p) := by
  refine ⟨fun reg hreg => ?_, hp⟩
  rw [← h.data reg hreg]
  cases reg <;> rfl

theorem jump (h : AlikeBut registers flags r r') (a : UInt16) :
    AlikeBut registers flags r (r'.jump a) := by
  refine ⟨fun reg hreg => ?_, h.status⟩
  rw [← h.data reg hreg]
  cases reg <;> rfl

private theorem of_jump {a : UInt16} (h : AlikeBut registers flags (r.jump a) r') :
    AlikeBut registers flags r r' := by
  refine ⟨fun reg hreg => ?_, h.status⟩
  rw [h.data reg hreg]
  cases reg <;> rfl

end AlikeBut

theorem alikeBut_put (r : Registers) (reg : Register) (v : UInt8)
    (hp : ∀ f ∉ flags, p.get f = r.status.get f) :
    AlikeBut [reg] flags r ((r.put reg v).setStatus p) :=
  ((AlikeBut.refl _ _ r).put reg (List.mem_singleton.2 rfl) v).setStatus hp

private theorem alikeBut_loadA (r : Registers) (v : UInt8) :
    AlikeBut [.a] [.negative, .zero] r (r.loadA v) :=
  r.alikeBut_put .a v fun _ => Status.get_setNZ v

private theorem alikeBut_loadX (r : Registers) (v : UInt8) :
    AlikeBut [.x] [.negative, .zero] r (r.loadX v) :=
  r.alikeBut_put .x v fun _ => Status.get_setNZ v

private theorem alikeBut_loadY (r : Registers) (v : UInt8) :
    AlikeBut [.y] [.negative, .zero] r (r.loadY v) :=
  r.alikeBut_put .y v fun _ => Status.get_setNZ v

theorem alikeBut_sp (r : Registers) (sp : UInt8)
    (hp : ∀ f ∉ flags, p.get f = r.status.get f) :
    AlikeBut [.sp] flags r { r with sp, status := p } :=
  r.alikeBut_put .sp sp hp

private theorem alikeBut_setFlag (r : Registers) (f : Flag) (on : Bool) :
    AlikeBut [] [f] r (r.setFlag f on) := by
  refine (AlikeBut.refl _ _ r).setStatus fun g hg => ?_
  rw [Status.get_set, if_neg fun hsame => hg (List.mem_singleton.2 hsame.symm)]

end Registers

namespace Operation

variable {op : Operation} {s : Settings} {o : Operand} {base : UInt16} {r : Registers}
    {m : Memory} {effect : Effect} {flags : List Flag}

private theorem writes_of_modify {f : UInt8 → UInt8} {p : UInt8 → Status}
    (h : modify o r m f p = some effect) :
    effect.writes.map Prod.fst = o.address?.toList := by
  cases o with
  | accumulator | address a =>
      cases h
      rfl
  | _ => cases h

private theorem alikeBut_of_modify {f : UInt8 → UInt8} {p : UInt8 → Status}
    (h : modify o r m f p = some effect)
    (hp : ∀ v result, ∀ f ∉ flags, ((p v).setNZ result).get f = r.status.get f) :
    r.AlikeBut (if o = .accumulator then [.a] else []) flags effect.registers := by
  cases o with
  | accumulator =>
      cases h
      exact r.alikeBut_put .a _ (hp _ _)
  | address a =>
      cases h
      exact (Registers.AlikeBut.refl _ _ r).setStatus (hp _ _)
  | _ => cases h

theorem of_branch (h : op.branch s o r = some effect) :
    effect.writes = [] ∧ r.AlikeBut [] [] effect.registers ∧
      (op.branches r.status = false → effect.registers = r) := by
  unfold branch at h
  split at h
  · rename_i htaken
    obtain ⟨target, -, heffect⟩ := Option.bind_eq_some_iff.1 h
    cases heffect
    exact ⟨rfl, (Registers.AlikeBut.refl _ _ r).jump target,
      fun hnot => absurd htaken (by simp [hnot])⟩
  · cases h
    exact ⟨rfl, .refl _ _ r, fun _ => rfl⟩

private theorem writes_of_perform (h : op.perform s o base r m = some effect) :
    effect.writes.map Prod.fst = op.written o r.sp := by
  cases op with
  | STA | STX | STY =>
      obtain ⟨a, ha, heffect⟩ := Option.bind_eq_some_iff.1 h
      cases heffect
      change [a] = o.address?.toList ++ []
      rw [ha]
      rfl
  | ASL | LSR | ROL | ROR | INC | DEC =>
      rw [writes_of_modify h]
      exact (List.append_nil _).symm
  | BCC | BCS | BEQ | BMI | BNE | BPL | BVC | BVS =>
      rw [(of_branch h).1]
      rfl
  | LDA | LDX | LDY | ADC | SBC | AND | ORA | EOR | BIT | CMP | CPX | CPY | JMP | JSR =>
      obtain ⟨v, -, heffect⟩ := Option.bind_eq_some_iff.1 h
      cases heffect
      rfl
  | _ =>
      cases h
      rfl

private theorem alikeBut_of_perform (h : op.perform s o base r m = some effect) :
    r.AlikeBut (op.defined o) op.flags effect.registers := by
  cases op with
  | LDA | AND | ORA | EOR =>
      obtain ⟨v, -, heffect⟩ := Option.bind_eq_some_iff.1 h
      cases heffect
      exact r.alikeBut_loadA _
  | LDX =>
      obtain ⟨v, -, heffect⟩ := Option.bind_eq_some_iff.1 h
      cases heffect
      exact r.alikeBut_loadX _
  | LDY =>
      obtain ⟨v, -, heffect⟩ := Option.bind_eq_some_iff.1 h
      cases heffect
      exact r.alikeBut_loadY _
  | ADC =>
      obtain ⟨v, -, heffect⟩ := Option.bind_eq_some_iff.1 h
      cases heffect
      exact r.alikeBut_put .a _ fun f => Status.get_add _ _ _
  | SBC =>
      obtain ⟨v, -, heffect⟩ := Option.bind_eq_some_iff.1 h
      cases heffect
      exact r.alikeBut_put .a _ fun f => Status.get_sub _ _ _
  | CMP | CPX | CPY =>
      obtain ⟨v, -, heffect⟩ := Option.bind_eq_some_iff.1 h
      cases heffect
      exact (Registers.AlikeBut.refl _ _ r).setStatus fun f => Status.get_compare _ _
  | BIT =>
      obtain ⟨v, -, heffect⟩ := Option.bind_eq_some_iff.1 h
      cases heffect
      refine (Registers.AlikeBut.refl _ _ r).setStatus fun f hf => ?_
      cases f <;> first | rfl | exact absurd (by decide) hf
  | STA | STX | STY =>
      obtain ⟨a, -, heffect⟩ := Option.bind_eq_some_iff.1 h
      cases heffect
      exact .refl _ _ r
  | ASL | LSR | ROL | ROR =>
      refine alikeBut_of_modify h fun v result f hf => ?_
      cases f <;> first | rfl | exact absurd (by decide) hf
  | INC | DEC => exact alikeBut_of_modify h fun v result f => Status.get_setNZ _
  | BCC | BCS | BEQ | BMI | BNE | BPL | BVC | BVS => exact (of_branch h).2.1
  | TXA | TYA =>
      cases h
      exact r.alikeBut_loadA _
  | TAX | TSX | INX | DEX =>
      cases h
      exact r.alikeBut_loadX _
  | TAY | INY | DEY =>
      cases h
      exact r.alikeBut_loadY _
  | JMP =>
      obtain ⟨target, -, heffect⟩ := Option.bind_eq_some_iff.1 h
      cases heffect
      exact (Registers.AlikeBut.refl _ _ r).jump target
  | JSR =>
      obtain ⟨target, -, heffect⟩ := Option.bind_eq_some_iff.1 h
      cases heffect
      exact (r.alikeBut_sp _ fun _ _ => rfl).jump target
  | RTS =>
      cases h
      exact (r.alikeBut_sp _ fun _ _ => rfl).jump _
  | RTI =>
      cases h
      refine (r.alikeBut_sp _ fun f hf => ?_).jump _
      cases f <;> exact absurd (by decide) hf
  | BRK =>
      cases h
      refine (r.alikeBut_sp _ fun f hf => ?_).jump _
      exact (r.alikeBut_setFlag .interrupt true).status f hf
  | TXS | PHA | PHP =>
      cases h
      exact r.alikeBut_sp _ fun _ _ => rfl
  | PLA =>
      cases h
      -- The one operation that defines two registers.
      have hpulled := (Registers.AlikeBut.refl [.a, .sp] [.negative, .zero] r).put
        .sp (by decide) (r.sp + 1)
      have hloaded := hpulled.put .a (by decide) (m.get (stackAddress (r.sp + 1)))
      exact hloaded.setStatus fun f => Status.get_setNZ _
  | PLP =>
      cases h
      refine r.alikeBut_sp _ fun f hf => ?_
      cases f <;> exact absurd (by decide) hf
  | CLC | CLD | CLI | CLV | SEC | SED | SEI =>
      cases h
      exact r.alikeBut_setFlag _ _
  | NOP =>
      cases h
      exact .refl _ _ r

private theorem pc_of_perform_of_not_diverts (h : op.perform s o base r m = some effect)
    (hop : op.diverts r.status = false) : effect.registers.pc = r.pc := by
  cases hbranch : op.isBranch with
  | true =>
      rw [perform_of_isBranch hbranch] at h
      have hnot : op.branches r.status = false := by
        cases op <;> first | exact hop | cases hbranch
      rw [(of_branch h).2.2 hnot]
  | false =>
      refine pc_of_perform h ?_
      cases op <;> first | rfl | cases hop | cases hbranch

end Operation

namespace Machine

variable {δ : Type} {m m' : Machine δ} {e : OpcodeEntry}

/-- One machine has executed the instruction of an entry, and the other has not yet. They
differ in nothing but what the operation of the entry may change. -/
structure Framed (e : OpcodeEntry) (m m' : Machine δ) : Prop where
  writes : ∃ writes : List Write, m'.memory = m.memory.writeAll writes ∧
    writes.map Prod.fst = e.op.written (e.operand m.registers m.memory) m.registers.sp
  memory : ∀ a ∉ e.op.written (e.operand m.registers m.memory) m.registers.sp,
    m'.memory.get a = m.memory.get a
  registers : m.registers.AlikeBut (e.op.defined (e.operand m.registers m.memory))
    e.op.flags m'.registers
  pc : e.op.diverts m.registers.status = false →
    m'.registers.pc = m.registers.pc + e.size.toUInt16
  rest : m' = { m with
    memory := m'.memory
    registers := m'.registers
    cycles := m'.cycles
    instructions := m.instructions + 1
    changes := m'.changes }

private theorem framed_applyEffect {effect : Effect} (cycles : Nat)
    (h : e.op.perform m.settings (e.operand m.registers m.memory) m.registers.pc
      (e.past m.registers) m.memory = some effect) :
    Framed e m (m.applyEffect { effect with cycles }) := by
  have hregisters : (m.applyEffect { effect with cycles }).registers = effect.registers :=
    registers_applyEffect m _
  have hmemory : (m.applyEffect { effect with cycles }).memory =
    m.memory.writeAll effect.writes :=
    memory_applyEffect m _
  have hwritten := Operation.writes_of_perform h
  refine {
    writes := ⟨effect.writes, hmemory, hwritten⟩
    memory := fun a ha => ?_
    registers := ?_
    pc := fun hop => ?_
    rest := ?_ }
  · rw [hmemory]
    refine Memory.get_writeAll_of_notMem ?_
    rw [hwritten]
    exact ha
  · rw [hregisters]
    exact (Operation.alikeBut_of_perform h).of_jump
  · rw [hregisters]
    exact Operation.pc_of_perform_of_not_diverts h hop
  · rw [registers_applyEffect, memory_applyEffect, (counts_applyEffect m _).2]
    exact m.applyEffect_eq _

/-- The instruction of every entry of the table can be executed wherever it stands. It
writes to nothing but its effective address or the bytes that it pushes, changes only the
registers and the flags that its operation defines, and goes on to the next instruction
unless it is a jump, a call, a return, a break or a branch that is taken. -/
theorem exists_framed {opcode : UInt8} (h : opcodes.decode? opcode = some e)
    (m : Machine δ) :
    ∃ m', m.executeDecoded opcode (some e) = (m', none) ∧
      (m.memory.get m.registers.pc = opcode → m.executeInstruction = (m', none)) ∧
      Framed e m m' := by
  obtain ⟨effect, cycles, hperform, hexecute⟩ := exists_executeDecoded m h
  refine ⟨_, hexecute, fun hopcode => ?_, framed_applyEffect cycles hperform⟩
  rw [executeInstruction_eq, hopcode, h]
  exact hexecute

def selfModifying : Machine Silent :=
  { memory := (Memory.filled 0).writeAll [(0x0200, 0xEE), (0x0202, 0x02)]
    registers := ⟨1, 2, 3, 4, 0x0200, .reset⟩
    state := .paused
    host := {} }

theorem exists_framed_selfModifying :
    opcodes.decode? 0xEE = some ⟨0xEE, 3, 6, .INC, .absolute⟩ ∧
      selfModifying.memory.get selfModifying.registers.pc = 0xEE ∧
      ∃ m', selfModifying.executeInstruction = (m', none) ∧ m'.registers.pc = 0x0203 ∧
        (∀ reg, m'.registers.get reg = selfModifying.registers.get reg) ∧
        (∀ f, f ≠ .negative → f ≠ .zero →
          m'.registers.status.get f = selfModifying.registers.status.get f) ∧
        ∀ a, a ≠ 0x0200 → m'.memory.get a = selfModifying.memory.get a := by
  have hdecode := decode?_of_mem_documented (e := ⟨0xEE, 3, 6, .INC,
    .absolute⟩) (by decide)
  have hcode : selfModifying.memory.get 0x0200 = 0xEE ∧
      selfModifying.memory.getWord (0x0200 + 1) = 0x0200 := by
    simp [selfModifying, Memory.writeAll, Memory.getWord, Memory.get_set, word]
  obtain ⟨hopcode, htarget⟩ := hcode
  obtain ⟨m', -, hexecute, hframed⟩ := exists_framed hdecode selfModifying
  have hoperand : OpcodeEntry.operand ⟨0xEE, 3, 6, .INC,
    .absolute⟩ selfModifying.registers selfModifying.memory = .address 0x0200 :=
    congrArg Operand.address htarget
  have hmemory := hframed.memory
  have hregisters := hframed.registers
  rw [hoperand] at hmemory hregisters
  refine ⟨hdecode, hopcode, m', hexecute hopcode, hframed.pc rfl, fun reg => ?_,
    fun f hn hz => ?_, fun a ha => ?_⟩
  · exact hregisters.data reg List.not_mem_nil
  · refine hregisters.status f fun hmem => ?_
    obtain rfl | hlast := List.mem_cons.1 hmem
    · exact hn rfl
    · exact hz (List.mem_singleton.1 hlast)
  · exact hmemory a fun hmem => ha (List.mem_singleton.1 hmem)

end Machine

end Breadboard
