import Breadboard.Host.Buffered
import Breadboard.Machine.Run
import Breadboard.Proofs.Machine.Spelling
import Breadboard.Proofs.Machine.Stack

namespace Breadboard

private theorem Host.host_writeAll {δ : Type} [Host δ] (host : δ) (bytes : List UInt8) :
    (Host.writeAll host bytes).host =
      bytes.foldl (fun host b => (Host.writeByte host b).host) host := by
  have hfold (t : Turn δ) : (bytes.foldl (fun t b =>
      let u := Host.writeByte t.host b
      { u with stops := t.stops || u.stops }) t).host =
      bytes.foldl (fun host b => (Host.writeByte host b).host) t.host := by
    induction bytes generalizing t with
    | nil => rfl
    | cons b bytes ih => exact ih _
  exact hfold { host }

private theorem Registers.peekWord_of_pullAll {r r' : Registers} {m : Memory}
    {b low high : UInt8} (h : r.pullAll m 3 = ([b, low, high], r')) :
    r.peekWord m 2 = word low high := by
  cases h
  have hsp : r.sp + 1 + 1 = r.sp + 2 := by grind
  unfold peekWord
  rw [← hsp]
  rfl

namespace Machine

variable {δ : Type} [Host δ] {m : Machine δ} {bytes : List UInt8}

private theorem handleBreak_of_spells {pc : UInt16}
    (hret : m.registers.peekWord m.memory 2 = pc + 2)
    (hspells : m.memory.Spells 65536 (m.memory.getWord (pc + 1)) bytes) :
    m.handleBreak = (m.output bytes).stopped (.brk pc (Text.decodeUtf8Lossy bytes)) := by
  have hpointer : pc + 2 - 1 = pc + 1 := by grind
  have hpc : pc + 2 - 2 = pc := by grind
  have hmessage : m.memory.string (m.memory.getWord (pc + 1)) = bytes :=
    Memory.stringUpTo_eq_iff.2 hspells
  unfold handleBreak
  dsimp only
  rw [hret, hpointer, hpc, hmessage]

private theorem exists_step_of_advance {m₁ : Machine δ} {halt : Option Halt}
    (h : m.advance = (m₁, halt)) :
    ∃ m', m.step = (m', halt) ∧ m'.host = m₁.host := by
  unfold step
  simp only [h]
  split
  · exact ⟨_, rfl, rfl⟩
  · exact ⟨_, rfl, rfl⟩

private theorem callTrap_brkHandler (m : Machine δ) :
    m.callTrap .brkHandler = m.handleBreak :=
  rfl

omit [Host δ] in
private theorem IsAt.exists_unhandled (h : m.IsAt .BRK)
    (hvector : m.memory.getWord 0xFFFE = 0) :
    ∃ m₁, m.executeInstruction = (m₁, none) ∧ m₁.registers.pc = Trap.brkHandler.address ∧
      m₁.registers.peekWord m₁.memory 2 = m.registers.pc + 2 ∧
      m₁.memory = (m.pushing m.breakBytes).memory ∧ m₁.host = m.host := by
  obtain ⟨e, operand, effect, cycles, hperform, hexecute⟩ := h.executeInstruction
  cases hperform
  dsimp only at hexecute
  rw [if_pos hvector, applyEffect_eq] at hexecute
  refine ⟨_, hexecute, rfl, ?_, rfl, rfl⟩
  have hkeeps : KeepsTop m.breakBytes.length (m.pushing m.breakBytes)
    m.executeInstruction.1 := by
    rw [hexecute]
    exact ⟨rfl, rfl⟩
  have hpull := hkeeps.of_pushing (show 3 ≤ 256 by decide)
  rw [hexecute] at hpull
  have hpeek := Registers.peekWord_of_pullAll hpull
  rw [word_lowByte_highByte] at hpeek
  exact hpeek

/-- Away from the traps and without a vector, a break stops the run in one step. The stop
tells the address of the break and its message, which the host has written byte by byte,
if the bytes that the break pushes do not fall on the pointer behind its opcode or on the
message with the zero that ends it. -/
theorem step_of_break (hpc : Trap.at? m.registers.pc = none) (hbreak : m.IsAt .BRK)
    (hvector : m.memory.getWord 0xFFFE = 0)
    (hspells : m.memory.Spells 65536 (m.memory.getWord (m.registers.pc + 1)) bytes)
    (hspared : ∀ a ∈ stackRoom m.registers.sp 3, Memory.Beyond a (m.registers.pc + 1) 2 ∧
      Memory.Beyond a (m.memory.getWord (m.registers.pc + 1)) (bytes.length + 1)) :
    ∃ m', m.step = (m', some (.stop (.brk m.registers.pc (Text.decodeUtf8Lossy bytes)))) ∧
      m'.host = bytes.foldl (fun host b => (Host.writeByte host b).host) m.host ∧
      (m.stopRequested = false → ∀ plan n, m.round plan n =
        (m', .inl (.ok (.brk m.registers.pc (Text.decodeUtf8Lossy bytes))))) := by
  obtain ⟨m₁, hexecute, hafter, hret, hmemory, hhost⟩ := hbreak.exists_unhandled hvector
  -- The handler reads the memory after the pushes, while the message is one of the memory
  -- before.
  have hkept {a : UInt16} {n : Nat} (h : ∀ c ∈ stackRoom m.registers.sp 3,
    Memory.Beyond c a n) :
      ∀ i < n, m₁.memory.get (a + UInt16.ofNat i) =
        m.memory.get (a + UInt16.ofNat i) := by
    intro i hi
    rw [hmemory]
    exact m.get_pushing fun hmem => h _ hmem i hi rfl
  have hpointer : m₁.memory.getWord (m.registers.pc + 1) =
    m.memory.getWord (m.registers.pc + 1) :=
    Memory.getWord_of_agree (hkept fun c hc => (hspared c hc).1)
  have hmessage : m₁.memory.Spells 65536
    (m₁.memory.getWord (m.registers.pc + 1)) bytes := by
    rw [hpointer]
    exact hspells.of_agree (hkept fun c hc => (hspared c hc).2)
  have hadvance : m.advance =
      (m₁.output bytes).stopped (.brk m.registers.pc (Text.decodeUtf8Lossy bytes)) := by
    rw [(advance_of_trap hpc hexecute (Trap.at?_eq_some_iff.2 hafter)).2,
      callTrap_brkHandler]
    exact handleBreak_of_spells hret hmessage
  obtain ⟨m', hstep, hwritten⟩ := exists_step_of_advance hadvance
  refine ⟨m', hstep, ?_, fun hgoes plan n => round_of_halt plan n hgoes hstep⟩
  rw [hwritten, ← hhost]
  exact Host.host_writeAll m₁.host bytes

def dying : Machine Buffered :=
  { memory := (Memory.filled 0).writeAll
      [(0x0000, 0xFC), (0x0001, 0xFF), (0xFFFC, 0x48), (0xFFFD, 0x69)]
    registers := ⟨1, 2, 3, 1, 0xFFFF, .reset⟩
    state := .paused
    host := {} }

theorem step_of_break_dying :
    Trap.at? dying.registers.pc = none ∧ dying.IsAt .BRK ∧
    dying.memory.getWord 0xFFFE = 0 ∧
      dying.memory.Spells 65536 (dying.memory.getWord (dying.registers.pc + 1))
        [0x48, 0x69] ∧
      ∃ m', dying.step = (m', some (.stop (.brk 0xFFFF "Hi"))) ∧
        m'.host.output.toList = [0x48, 0x69] := by
  have hcode : dying.memory.get 0xFFFF = 0x00 ∧ dying.memory.getWord 0xFFFE = 0 ∧
      dying.memory.getWord (0xFFFF + 1) = 0xFFFC ∧
        dying.memory.Holds 0xFFFC [0x48, 0x69, 0x00] := by
    simp [dying, Memory.writeAll, Memory.getWord, Memory.get_set, word, Memory.Holds]
  obtain ⟨hopcode, hvector, hpointer, hmessage⟩ := hcode
  have hpc : Trap.at? dying.registers.pc = none := rfl
  have hbreak : dying.IsAt .BRK :=
    isAt_of_mem_documented (e := ⟨0x00, 1, 7, .BRK, .implied⟩) (by decide) hopcode
  have hspells : dying.memory.Spells 65536 (dying.memory.getWord (0xFFFF + 1))
    [0x48, 0x69] := by
    rw [hpointer]
    exact ⟨⟨hmessage.1, hmessage.2.1, trivial⟩, by decide, by decide,
      fun _ => hmessage.2.2.1⟩
  have houtside : (∀ i < 2, highByte (0xFFFF + 1 + UInt16.ofNat i) ≠ 1) ∧
      ∀ i < 3, highByte (0xFFFC + UInt16.ofNat i) ≠ 1 := by
    decide
  have hspared : ∀ a ∈ stackRoom 1 3, Memory.Beyond a (0xFFFF + 1) 2 ∧
      Memory.Beyond a (dying.memory.getWord (0xFFFF + 1)) 3 := by
    rw [hpointer]
    refine fun a ha =>
      ⟨fun i hi hsame => houtside.1 i hi ?_, fun i hi hsame => houtside.2 i hi ?_⟩
    · rw [hsame]
      exact highByte_of_mem_stackRoom ha
    · rw [hsame]
      exact highByte_of_mem_stackRoom ha
  obtain ⟨m', hstep, hhost, -⟩ := step_of_break hpc hbreak hvector hspells hspared
  have htext : Text.decodeUtf8Lossy [0x48, 0x69] = "Hi" := by decide +kernel
  rw [htext] at hstep
  refine ⟨hpc, hbreak, hvector, hspells, m', hstep, ?_⟩
  rw [hhost]
  rfl

end Machine

end Breadboard
