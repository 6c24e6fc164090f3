import Breadboard.Host.Silent
import Breadboard.Proofs.Machine.Legality
import Breadboard.Proofs.Machine.Notification
import Breadboard.Proofs.Machine.TrapCall

namespace Breadboard

theorem Memory.get_writeAll_of_notMem {m : Memory} {writes : List Write} {a : UInt16}
    (h : a ∉ writes.map Prod.fst) : (m.writeAll writes).get a = m.get a :=
  Decidable.byContradiction fun hne => h (mem_of_get_writeAll_ne hne)

def stackRoom (sp : UInt8) : Nat → List UInt16
  | 0 => []
  | n + 1 => stackAddress sp :: stackRoom (sp - 1) n

private theorem mem_stackRoom {sp : UInt8} {n : Nat} {a : UInt16} :
    a ∈ stackRoom sp n ↔ ∃ i < n, a = stackAddress (sp - UInt8.ofNat i) := by
  induction n generalizing sp with
  | zero => simp [stackRoom]
  | succ n ih =>
      have hnext (i : Nat) : sp - 1 - UInt8.ofNat i = sp - UInt8.ofNat (i + 1) := by
        rw [UInt8.ofNat_add]
        grind
      rw [stackRoom, List.mem_cons, ih]
      constructor
      · rintro (rfl | ⟨i, hi, rfl⟩)
        · exact ⟨0, Nat.zero_lt_succ n, by simp⟩
        · exact ⟨i + 1, Nat.succ_lt_succ hi, by rw [hnext]⟩
      · rintro ⟨i, hi, rfl⟩
        cases i with
        | zero => exact .inl (by simp)
        | succ i => exact .inr ⟨i, Nat.lt_of_succ_lt_succ hi, by rw [hnext]⟩

theorem highByte_of_mem_stackRoom {sp : UInt8} {n : Nat} {a : UInt16}
    (h : a ∈ stackRoom sp n) :
    highByte a = 1 := by
  obtain ⟨i, -, rfl⟩ := mem_stackRoom.1 h
  exact highByte_word _ _

private theorem stackAddress_notMem_stackRoom (sp : UInt8) {n : Nat} (h : n < 256) :
    stackAddress sp ∉ stackRoom (sp - 1) n := by
  intro hmem
  obtain ⟨i, hi, hsame⟩ := mem_stackRoom.1 hmem
  have hsp := congrArg UInt8.toNat (Machine.stackAddress_injective hsame)
  have hone : (1 : UInt8).toNat = 1 := rfl
  have := sp.toNat_lt
  simp only [UInt8.toNat_sub, UInt8.toNat_ofNat', hone] at hsp
  omega

namespace Registers

def pushAll (r : Registers) : List UInt8 → List Write × Registers
  | [] => ([], r)
  | b :: bs =>
      let rest := (r.push b).2.pushAll bs
      ((r.push b).1 :: rest.1, rest.2)

def pullAll (r : Registers) (m : Memory) : Nat → List UInt8 × Registers
  | 0 => ([], r)
  | n + 1 =>
      let rest := r.pullAll m n
      let last := rest.2.pull m
      (rest.1 ++ [last.1], last.2)

variable {r r' : Registers} {m m' : Memory}

theorem map_fst_pushAll (r : Registers) (bytes : List UInt8) :
    (r.pushAll bytes).1.map Prod.fst = stackRoom r.sp bytes.length := by
  induction bytes generalizing r with
  | nil => rfl
  | cons b bs ih => exact congrArg (stackAddress r.sp :: ·) (ih (r.push b).2)

private theorem get_writeAll_pushAll (r : Registers) (m : Memory) (bytes : List UInt8)
    {a : UInt16} (h : a < 0x0100 ∨ 0x01FF < a) :
    (m.writeAll (r.pushAll bytes).1).get a = m.get a := by
  apply Memory.get_writeAll_of_notMem
  rw [map_fst_pushAll]
  intro hmem
  have hpage := congrArg UInt8.toNat (highByte_of_mem_stackRoom hmem)
  rw [toNat_highByte, UInt8.toNat_one] at hpage
  rw [UInt16.lt_iff_toNat_lt, UInt16.lt_iff_toNat_lt] at h
  have hfirst : (0x0100 : UInt16).toNat = 256 := rfl
  have hlast : (0x01FF : UInt16).toNat = 511 := rfl
  omega

private theorem pull_push (r : Registers) (b : UInt8) (m : Memory) :
    (r.push b).2.pull m = (m.get (stackAddress r.sp), r) := by
  have hsp : r.sp - 1 + 1 = r.sp := by grind
  unfold push pull
  dsimp only
  rw [hsp]

private theorem pullAll_succ {bytes : List UInt8} {n : Nat}
    (h : r.pullAll m n = (bytes, r')) :
    r.pullAll m (n + 1) = (bytes ++ [(r'.pull m).1], (r'.pull m).2) := by
  rw [pullAll, h]

/-- The bytes come back in reverse order. The first one is still there when its turn
comes, as the others have not gone around the page to it. -/
theorem pullAll_pushAll (r : Registers) (m : Memory) {bytes : List UInt8}
    (h : bytes.length ≤ 256) :
    (r.pushAll bytes).2.pullAll (m.writeAll (r.pushAll bytes).1) bytes.length =
      (bytes.reverse, r) := by
  induction bytes generalizing r m with
  | nil => rfl
  | cons b bs ih =>
      have hroom : stackAddress r.sp ∉ ((r.push b).2.pushAll bs).1.map Prod.fst := by
        rw [map_fst_pushAll]
        exact stackAddress_notMem_stackRoom r.sp h
      have hfirst : (m.writeAll (r.pushAll (b :: bs)).1).get (stackAddress r.sp) = b := by
        change ((m.set (stackAddress r.sp) b).writeAll ((r.push b).2.pushAll bs).1).get
          _ = b
        rw [Memory.get_writeAll_of_notMem hroom, Memory.get_set_self]
      have hrest : (r.pushAll (b :: bs)).2.pullAll
        (m.writeAll (r.pushAll (b :: bs)).1) bs.length = (bs.reverse, (r.push b).2) :=
        ih (r.push b).2 (m.set (stackAddress r.sp) b) (Nat.le_of_lt h)
      rw [List.length_cons, pullAll_succ hrest, pull_push, hfirst, List.reverse_cons]

private theorem pullAll_of_sp (h : r'.sp = r.sp) (n : Nat) :
    (r'.pullAll m' n).2 = { r' with sp := (r.pullAll m n).2.sp } := by
  induction n with
  | zero => exact h ▸ rfl
  | succ n ih =>
      unfold pullAll
      dsimp only
      rw [ih]
      rfl

end Registers

namespace Machine

variable {δ : Type} {m m₁ m₂ : Machine δ}

def IsAt (m : Machine δ) (op : Operation) : Prop :=
  ∃ e, opcodes.decode? (m.memory.get m.registers.pc) = some e ∧ e.op = op

theorem isAt_of_mem_documented {e : OpcodeEntry} (he : e ∈ documented)
    (h : m.memory.get m.registers.pc = e.opcode) : m.IsAt e.op :=
  ⟨e, by rw [h, decode?_of_mem_documented he], rfl⟩

/-- Executing the instruction at the program counter leaves the registers and the memory
of another machine. A step does no more, unless it begins or ends at a trap. -/
structure Reaches [Host δ] (m m' : Machine δ) : Prop where
  executes : ∃ m₁, m.executeInstruction = (m₁, none) ∧ m₁.registers = m'.registers ∧
    m₁.memory = m'.memory
  steps : Trap.at? m.registers.pc = none → Trap.at? m'.registers.pc = none →
    ∃ m₁, m.step = (m₁, none) ∧ m₁.registers = m'.registers ∧ m₁.memory = m'.memory

/-- The stack pointer is as before, and so are the `n` bytes on top of the stack. -/
structure KeepsTop (n : Nat) (m m' : Machine δ) : Prop where
  sp : m'.registers.sp = m.registers.sp
  top : (m'.registers.pullAll m'.memory n).1 = (m.registers.pullAll m.memory n).1

def pushing (m : Machine δ) (bytes : List UInt8) : Machine δ :=
  { m with
    registers := (m.registers.pushAll bytes).2
    memory := m.memory.writeAll (m.registers.pushAll bytes).1 }

def callBytes (m : Machine δ) : List UInt8 :=
  [highByte (m.registers.pc + 2), lowByte (m.registers.pc + 2)]

def breakBytes (m : Machine δ) : List UInt8 :=
  m.callBytes ++ [m.registers.status.pushed.toByte]

def called (m : Machine δ) : Machine δ :=
  let pushed := m.pushing m.callBytes
  { pushed with
    registers := pushed.registers.jump (m.memory.getWord (m.registers.pc + 1)) }

def interrupted (m : Machine δ) : Machine δ :=
  let pushed := m.pushing m.breakBytes
  { pushed with
    registers := (pushed.registers.setFlag .interrupt true).jump
      (m.memory.getWord 0xFFFE) }

theorem get_pushing (m : Machine δ) {bytes : List UInt8} {a : UInt16}
    (h : a ∉ stackRoom m.registers.sp bytes.length) :
    (m.pushing bytes).memory.get a = m.memory.get a := by
  rw [← Registers.map_fst_pushAll] at h
  exact Memory.get_writeAll_of_notMem h

private theorem pc_called (m : Machine δ) :
    m.called.registers.pc = m.memory.getWord (m.registers.pc + 1) :=
  rfl

private theorem pc_interrupted (m : Machine δ) :
    m.interrupted.registers.pc = m.memory.getWord 0xFFFE :=
  rfl

theorem KeepsTop.of_pushing {bytes : List UInt8}
    (h : KeepsTop bytes.length (m.pushing bytes) m₁) (hlength : bytes.length ≤ 256) :
    m₁.registers.pullAll m₁.memory bytes.length =
      (bytes.reverse, { m₁.registers with sp := m.registers.sp }) := by
  have hpulled : (m.pushing bytes).registers.pullAll (m.pushing bytes).memory
    bytes.length = (bytes.reverse, m.registers) :=
    Registers.pullAll_pushAll m.registers m.memory hlength
  have hsp : (m₁.registers.pullAll m₁.memory bytes.length).2 = { m₁.registers with
      sp := ((m.pushing bytes).registers.pullAll (m.pushing bytes).memory
        bytes.length).2.sp } :=
    Registers.pullAll_of_sp h.sp bytes.length
  rw [hpulled] at hsp
  have htop := h.top
  rw [hpulled] at htop
  exact Prod.ext htop hsp

theorem IsAt.executeInstruction {op : Operation} (h : m.IsAt op) :
    ∃ e operand effect cycles,
      op.perform m.settings operand m.registers.pc
        (OpcodeEntry.past e m.registers) m.memory = some effect ∧
      m.executeInstruction = (m.applyEffect { effect with cycles }).finished := by
  obtain ⟨e, hdecode, rfl⟩ := h
  obtain ⟨effect, cycles, hperform, hexecute⟩ := exists_executeDecoded m hdecode
  rw [← hdecode, ← executeInstruction_eq] at hexecute
  exact ⟨e, _, effect, cycles, hperform, hexecute⟩

variable [Host δ]

private theorem Reaches.of_executeInstruction (h : m.executeInstruction = (m₁, none))
    (hregisters : m₁.registers = m₂.registers) (hmemory : m₁.memory = m₂.memory) :
    m.Reaches m₂ := by
  refine ⟨⟨m₁, h, hregisters, hmemory⟩, fun hbefore hafter => ?_⟩
  obtain ⟨m', hstep, hr, hm⟩ :=
    exists_step_of_executeInstruction hbefore h (by rw [hregisters]; exact hafter)
  exact ⟨m', hstep, hr.trans hregisters, hm.trans hmemory⟩

theorem IsAt.reaches {op : Operation} (h : m.IsAt op) :
    ∃ e operand effect,
      op.perform m.settings operand m.registers.pc
        (OpcodeEntry.past e m.registers) m.memory = some effect ∧
      m.Reaches { m with
        registers := effect.registers
        memory := m.memory.writeAll effect.writes } := by
  obtain ⟨e, operand, effect, cycles, hperform, hexecute⟩ := h.executeInstruction
  exact ⟨e, operand, effect, hperform, .of_executeInstruction hexecute
    (registers_applyEffect m { effect with cycles })
      (memory_applyEffect m { effect with cycles })⟩

private theorem reaches_called (h : m.IsAt .JSR) : m.Reaches m.called := by
  obtain ⟨e, hdecode, hop⟩ := h
  obtain ⟨m₁, hexecute, hcalls⟩ := exists_calls hdecode hop
  exact .of_executeInstruction hexecute hcalls.registers hcalls.memory

private theorem reaches_interrupted (h : m.IsAt .BRK)
    (hvector : m.memory.getWord 0xFFFE ≠ 0) :
    m.Reaches m.interrupted := by
  obtain ⟨e, operand, effect, hperform, hreaches⟩ := h.reaches
  cases hperform
  dsimp only at hreaches
  rw [if_neg hvector] at hreaches
  exact hreaches

private theorem reaches_of_RTS (h : m.IsAt .RTS) {low high : UInt8} {r : Registers}
    (hpull : m.registers.pullAll m.memory 2 = ([low, high], r)) :
    m.Reaches { m with registers := r.jump (word low high + 1) } := by
  obtain ⟨e, operand, effect, hperform, hreaches⟩ := h.reaches
  cases hperform
  cases hpull
  exact hreaches

private theorem reaches_of_RTI (h : m.IsAt .RTI) {p low high : UInt8} {r : Registers}
    (hpull : m.registers.pullAll m.memory 3 = ([p, low, high], r)) :
    m.Reaches { m with registers := (r.setStatus (.pulled p)).jump (word low high) } := by
  obtain ⟨e, operand, effect, hperform, hreaches⟩ := h.reaches
  cases hperform
  cases hpull
  exact hreaches

/-- Bytes that are pushed one by one, a page of them at most, come back in reverse order,
and with the last of them the stack pointer is back. Nothing outside the stack page
changes. So a return from a subroutine goes on three bytes behind the opcode of the call,
and a return from an interrupt two bytes behind that of the break with the status that the
break interrupted, if only the stack pointer and what the call or the break pushed are
left alone in between. -/
theorem stack_unwinds :
    (∀ (r : Registers) (memory : Memory) (bytes : List UInt8),
      (bytes.length ≤ 256 →
        (r.pushAll bytes).2.pullAll (memory.writeAll (r.pushAll bytes).1) bytes.length =
          (bytes.reverse, r)) ∧
      ∀ a, a < 0x0100 ∨ 0x01FF < a →
        (memory.writeAll (r.pushAll bytes).1).get a = memory.get a) ∧
    (∀ m : Machine δ, m.IsAt .JSR →
      m.Reaches m.called ∧
      ∀ m' : Machine δ, KeepsTop 2 m.called m' → m'.IsAt .RTS →
        m'.Reaches { m' with
          registers := { m'.registers with
            pc := m.registers.pc + 3, sp := m.registers.sp } }) ∧
    ∀ m : Machine δ, m.IsAt .BRK → m.memory.getWord 0xFFFE ≠ 0 →
      m.Reaches m.interrupted ∧
      ∀ m' : Machine δ, KeepsTop 3 m.interrupted m' → m'.IsAt .RTI →
        m'.Reaches { m' with
          registers := { m'.registers with
            pc := m.registers.pc + 2
            sp := m.registers.sp
            status := { m.registers.status with brk := false, unused := true } } } := by
  refine ⟨fun r memory bytes =>
      ⟨r.pullAll_pushAll memory, fun a => r.get_writeAll_pushAll memory bytes⟩,
    fun m hcall => ⟨reaches_called hcall, fun m' hkeeps hreturn => ?_⟩,
    fun m hbreak hvector => ⟨reaches_interrupted hbreak hvector,
      fun m' hkeeps hreturn => ?_⟩⟩
  · have hpushed : KeepsTop m.callBytes.length (m.pushing m.callBytes) m' :=
      ⟨hkeeps.sp, hkeeps.top⟩
    have hreaches := reaches_of_RTS hreturn (hpushed.of_pushing (show 2 ≤ 256 by decide))
    rw [word_lowByte_highByte] at hreaches
    have hnext : m.registers.pc + 2 + 1 = m.registers.pc + 3 := by grind
    rw [hnext] at hreaches
    exact hreaches
  · have hpushed : KeepsTop m.breakBytes.length (m.pushing m.breakBytes) m' :=
      ⟨hkeeps.sp, hkeeps.top⟩
    have hreaches := reaches_of_RTI hreturn (hpushed.of_pushing (show 3 ≤ 256 by decide))
    rw [word_lowByte_highByte, Status.pulled, Status.ofByte_toByte] at hreaches
    exact hreaches

/-- A subroutine and behind its call a break, with a stack that goes around the page. -/
def rewinding : Machine Silent :=
  { memory := (Memory.filled 0).writeAll
      [(0x0200, 0x20), (0x0202, 0x03), (0x0300, 0x60), (0x0400, 0x40), (0xFFFF, 0x04)]
    registers := ⟨1, 2, 3, 0, 0x0200, ⟨true, false, false, true, true, false,
      false, true⟩⟩
    state := .paused
    host := {} }

theorem stack_unwinds_rewinding :
    (rewinding.registers.pushAll [4, 5, 6]).2.pullAll
        (rewinding.memory.writeAll (rewinding.registers.pushAll [4, 5, 6]).1) 3 =
      ([6, 5, 4], rewinding.registers) ∧
    rewinding.IsAt .JSR ∧
    ∃ m₁ m₂ m₃ m₄ : Machine Silent,
      rewinding.step = (m₁, none) ∧ m₁.IsAt .RTS ∧ m₁.step = (m₂, none) ∧
      m₂.IsAt .BRK ∧ m₂.step = (m₃, none) ∧ m₃.IsAt .RTI ∧ m₃.step = (m₄, none) ∧
      m₂.registers = { rewinding.registers with pc := 0x0203 } ∧
      m₄.registers = { rewinding.registers with
        pc := 0x0205, status := ⟨true, false, true, false, true, false, false,
          true⟩ } := by
  obtain ⟨hbytes, hcall, hbreak⟩ := stack_unwinds (δ := Silent)
  have hcode : rewinding.memory.get 0x0200 = 0x20 ∧
    rewinding.memory.getWord (0x0200 + 1) = 0x0300 ∧
      rewinding.memory.get 0x0203 = 0x00 ∧ rewinding.memory.get 0x0300 = 0x60 ∧
      rewinding.memory.get 0x0400 = 0x40 ∧ rewinding.memory.getWord 0xFFFE = 0x0400 := by
    simp [rewinding, Memory.writeAll, Memory.getWord, Memory.get_set, word]
  obtain ⟨hopcode₁, htarget, hopcode₃, hopcode₂, hopcode₄, hvector⟩ := hcode
  have hpage (a : UInt16) (h : a < 0x0100 ∨ 0x01FF < a) :
      rewinding.called.memory.get a = rewinding.memory.get a :=
    (hbytes rewinding.registers rewinding.memory rewinding.callBytes).2 a h
  have hjsr : rewinding.IsAt .JSR :=
    isAt_of_mem_documented (e := ⟨0x20, 3, 6, .JSR, .absolute⟩) (by decide) hopcode₁
  obtain ⟨hcalled, hreturn⟩ := hcall rewinding hjsr
  have hpc₁ : rewinding.called.registers.pc = 0x0300 := (pc_called _).trans htarget
  obtain ⟨m₁, hstep₁, hr₁, hm₁⟩ := hcalled.steps rfl (by rw [hpc₁]; rfl)
  have hrts : m₁.IsAt .RTS := by
    refine isAt_of_mem_documented (e := ⟨0x60, 1, 6, .RTS, .implied⟩) (by decide) ?_
    rw [hm₁, hr₁, hpc₁, hpage _ (by decide)]
    exact hopcode₂
  have hkeeps₁ : KeepsTop 2 rewinding.called m₁ := ⟨by rw [hr₁], by rw [hr₁, hm₁]⟩
  obtain ⟨m₂, hstep₂, hr₂, hm₂⟩ :=
    (hreturn m₁ hkeeps₁ hrts).steps (by rw [hr₁, hpc₁]; rfl) rfl
  rw [hr₁] at hr₂
  have hpc₂ : m₂.registers.pc = 0x0203 := by rw [hr₂]; rfl
  have hmemory₂ (a : UInt16) (h : a < 0x0100 ∨ 0x01FF < a) :
      m₂.memory.get a = rewinding.memory.get a := by
    rw [hm₂, ← hpage a h, ← hm₁]
  have hbrk : m₂.IsAt .BRK := by
    refine isAt_of_mem_documented (e := ⟨0x00, 1, 7, .BRK, .implied⟩) (by decide) ?_
    rw [hpc₂, hmemory₂ _ (by decide)]
    exact hopcode₃
  have hvector₂ : m₂.memory.getWord 0xFFFE = 0x0400 := by
    rw [Memory.getWord, hmemory₂ _ (by decide), hmemory₂ _ (by decide)]
    exact hvector
  obtain ⟨hinterrupted, hresume⟩ := hbreak m₂ hbrk (by rw [hvector₂]; decide)
  have hpc₃ : m₂.interrupted.registers.pc = 0x0400 := (pc_interrupted _).trans hvector₂
  obtain ⟨m₃, hstep₃, hr₃, hm₃⟩ :=
    hinterrupted.steps (by rw [hpc₂]; rfl) (by rw [hpc₃]; rfl)
  have hrti : m₃.IsAt .RTI := by
    have hkept : m₂.interrupted.memory.get 0x0400 = m₂.memory.get 0x0400 :=
      (hbytes m₂.registers m₂.memory m₂.breakBytes).2 0x0400 (by decide)
    refine isAt_of_mem_documented (e := ⟨0x40, 1, 6, .RTI, .implied⟩) (by decide) ?_
    rw [hm₃, hr₃, hpc₃, hkept, hmemory₂ _ (by decide)]
    exact hopcode₄
  have hkeeps₃ : KeepsTop 3 m₂.interrupted m₃ := ⟨by rw [hr₃], by rw [hr₃, hm₃]⟩
  obtain ⟨m₄, hstep₄, hr₄, -⟩ :=
    (hresume m₃ hkeeps₃ hrti).steps (by rw [hr₃, hpc₃]; rfl) (by rw [hpc₂]; rfl)
  refine ⟨(hbytes _ _ [4, 5, 6]).1 (by decide), hjsr, m₁, m₂, m₃, m₄, hstep₁, hrts,
    hstep₂, hbrk, hstep₃, hrti, hstep₄, ?_, ?_⟩
  · rw [hr₂]
    rfl
  · rw [hr₄, hr₃]
    change { m₂.registers with
      pc := m₂.registers.pc + 2
      status := { m₂.registers.status with brk := false, unused := true } } = _
    rw [hr₂]
    rfl

end Machine

end Breadboard
