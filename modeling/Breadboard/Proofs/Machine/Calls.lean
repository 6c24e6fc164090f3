import Breadboard.Host.Silent
import Breadboard.Proofs.Machine.Stepping

namespace Breadboard

/-- A call that has not returned yet: where it returns to, and the stack pointer before
it. -/
structure Call where
  ret : UInt16
  sp : UInt8
deriving DecidableEq, Repr, Inhabited

namespace Machine

variable {δ : Type}

/-! Returns. -/

/-- The word on top of the stack is the one that the call pushed, where it pushed it. -/
def Pulls (m : Machine δ) (c : Call) : Prop :=
  m.registers.sp + 2 = c.sp ∧ m.registers.peekWord m.memory 1 + 1 = c.ret

instance (m : Machine δ) (c : Call) : Decidable (m.Pulls c) :=
  inferInstanceAs (Decidable (_ ∧ _))

def pulled? (m : Machine δ) : List Call → Option Call
  | [] => none
  | c :: _ => if m.Pulls c then some c else none

def close (m : Machine δ) (calls : List Call) : List Call :=
  if (m.pulled? calls).isSome then calls.tail else calls

def isReturn (m : Machine δ) : Bool :=
  (Trap.at? m.registers.pc).isNone &&
    (opcodes.decode? (m.memory.get m.registers.pc)).any (·.op = .RTS)

/-- The machine as a step calls a trap, which returns as a subroutine does. -/
def trapCaller? (m : Machine δ) : Option (Machine δ) :=
  if (Trap.at? m.registers.pc).isSome then some m
  else
    match m.executeInstruction with
    | (_, some _) => none
    | (m, none) => if (Trap.at? m.registers.pc).isSome then some m else none

variable [Host δ]

def HasReturned (m : Machine δ) (c : Call) : Prop :=
  m.registers.pc = c.ret ∧ m.registers.sp = c.sp

omit [Host δ] in
theorem Pulls.of_same {m m' : Machine δ} {c : Call} (h : m.Pulls c)
    (hsp : m'.registers.sp = m.registers.sp) (hmemory : m'.memory = m.memory) :
    m'.Pulls c := by
  unfold Pulls Registers.peekWord
  rw [hsp, hmemory]
  exact h

omit [Host δ] in
private theorem Pulls.hasReturned {m m₁ : Machine δ} {c : Call} (h : m.Pulls c)
    (hpc : m₁.registers.pc = (m.registers.pullWord m.memory).1 + 1)
    (hsp : m₁.registers.sp = (m.registers.pullWord m.memory).2.sp) :
    m₁.HasReturned c := by
  obtain ⟨hpulled, hret⟩ := h
  refine ⟨hpc.trans hret, hsp.trans ?_⟩
  rw [← hpulled]
  change m.registers.sp + 1 + 1 = m.registers.sp + 2
  rw [UInt8.add_assoc]
  rfl

theorem hasReturned_of_callTrap {m m₁ : Machine δ} {t : Trap} {c : Call} (h : m.Pulls c)
    (hcall : m.callTrap t = (m₁, none)) : m₁.HasReturned c := by
  have hserve := (served_ready m t).serves
  have hserved := h.of_same hserve.sp hserve.untouched.memory
  rw [callTrap_eq] at hcall
  generalize (m.ready t).serve t = outcome at hserved hcall
  obtain ⟨m₂, halt⟩ := outcome
  cases halt with
  | some halt => cases hcall
  | none =>
      cases hcall
      exact hserved.hasReturned rfl rfl

omit [Host δ] in
theorem registers_applyEffect (m : Machine δ) (e : Effect) :
    (m.applyEffect e).registers = e.registers := by
  unfold applyEffect recordWrites
  split
  · rfl
  · dsimp only
    split <;> rfl

omit [Host δ] in
private theorem hasReturned_of_isReturn {m m₁ : Machine δ} {c : Call}
    (hreturn : m.isReturn = true) (h : m.Pulls c)
    (hexecute : m.executeInstruction = (m₁, none)) : m₁.HasReturned c := by
  obtain ⟨-, hdecoded⟩ := Bool.and_eq_true_iff.1 hreturn
  rw [executeInstruction_eq] at hexecute
  generalize opcodes.decode? (m.memory.get m.registers.pc) = decoded at hdecoded hexecute
  cases decoded with
  | none => cases hdecoded
  | some e =>
      have hop : e.op = .RTS := of_decide_eq_true hdecoded
      cases heffect : e.effect? m.settings m.registers m.memory with
      | none => simp [executeDecoded, heffect, failed] at hexecute
      | some effect =>
          simp only [executeDecoded, heffect, finished, Prod.mk.injEq,
            and_true] at hexecute
          subst hexecute
          obtain ⟨opcode, size, cycles, op, mode⟩ := e
          subst hop
          cases heffect
          apply h.hasReturned
          · rw [registers_applyEffect]
            rfl
          · rw [registers_applyEffect]
            rfl

/-! What a step does to the calls that are open, the innermost first. -/

/-- The calls that are open after the instruction of a step. -/
def callsWithin (m : Machine δ) (calls : List Call) : List Call :=
  match m.callReturn? with
  | some ret => ⟨ret, m.registers.sp⟩ :: calls
  | none => if m.isReturn then m.close calls else calls

/-- The calls that are open after a step. -/
def callsAfter (m : Machine δ) (calls : List Call) : List Call :=
  match m.trapCaller? with
  | some m₁ => m₁.close (m.callsWithin calls)
  | none => m.callsWithin calls

/-- The call from which a step returns at its end, if it does return from one. -/
def returnsFrom? (m : Machine δ) (calls : List Call) : Option Call :=
  match m.trapCaller? with
  | some m₁ => m₁.pulled? (m.callsWithin calls)
  | none => if m.isReturn then m.pulled? calls else none

omit [Host δ] in
theorem pulled?_eq_some_iff {m : Machine δ} {calls : List Call} {c : Call} :
    m.pulled? calls = some c ↔ calls.head? = some c ∧ m.Pulls c := by
  cases calls with
  | nil => simp [pulled?]
  | cons d calls =>
      by_cases h : m.Pulls d
      · simp only [pulled?, h, if_true, List.head?_cons, Option.some.injEq]
        constructor
        · rintro rfl
          exact ⟨rfl, h⟩
        · exact And.left
      · simp only [pulled?, h, if_false, List.head?_cons, Option.some.injEq,
          reduceCtorEq, false_iff]
        rintro ⟨rfl, hpulls⟩
        exact h hpulls

theorem advance_of_step {m m₁ : Machine δ} {halt : Option Halt}
    (h : m.step = (m₁, halt)) :
    ∃ m₂, m.advance = (m₂, halt) ∧ m₁ = { m₂ with changes := m₁.changes } := by
  refine ⟨m.advance.1, ?_⟩
  unfold step at h
  dsimp only at h
  split at h
  · cases h
    exact ⟨rfl, rfl⟩
  · cases h
    exact ⟨rfl, rfl⟩

/-- A step that finishes ends with the return of the trap that it calls, or else with its
instruction. -/
theorem advance_cases {m m₁ : Machine δ} (h : m.advance = (m₁, none)) :
    (∃ m₀ t, m.trapCaller? = some m₀ ∧ m₀.callTrap t = (m₁, none)) ∨
      m.trapCaller? = none ∧ m.executeInstruction = (m₁, none) := by
  unfold advance at h
  unfold trapCaller?
  generalize m.executeInstruction = outcome at h ⊢
  obtain ⟨m₂, halt⟩ := outcome
  cases hbefore : Trap.at? m.registers.pc with
  | some t =>
      rw [hbefore] at h
      exact .inl ⟨m, t, rfl, h⟩
  | none =>
      rw [hbefore] at h
      cases halt with
      | some halt => cases h
      | none =>
          dsimp only at h ⊢
          cases hafter : Trap.at? m₂.registers.pc with
          | some t =>
              rw [hafter] at h
              exact .inl ⟨m₂, t, rfl, h⟩
          | none =>
              rw [hafter] at h
              exact .inr ⟨rfl, h⟩

theorem hasReturned_of_returnsFrom? {m m₁ : Machine δ} {calls : List Call} {c : Call}
    (hstep : m.step = (m₁, none)) (h : m.returnsFrom? calls = some c) :
    m₁.HasReturned c := by
  obtain ⟨m₂, hadvance, hframe⟩ := advance_of_step hstep
  have hreturned : m₂.HasReturned c := by
    unfold returnsFrom? at h
    obtain ⟨m₀, t, hcaller, hcall⟩ | ⟨hcaller, hexecute⟩ := advance_cases hadvance
    · rw [hcaller] at h
      exact hasReturned_of_callTrap (pulled?_eq_some_iff.1 h).2 hcall
    · rw [hcaller] at h
      dsimp only at h
      split at h
      · rename_i hreturn
        exact hasReturned_of_isReturn hreturn (pulled?_eq_some_iff.1 h).2 hexecute
      · cases h
  rw [hframe]
  exact hreturned

omit [Host δ] in
private theorem close_cases (m : Machine δ) (inner : List Call) (outer : Call) :
    (m.close (inner ++ [outer]) = [] ∧ m.pulled? (inner ++ [outer]) = some outer) ∨
      ∃ inner', m.close (inner ++ [outer]) = inner' ++ [outer] ∧
        (∀ c ∈ inner', c ∈ inner) ∧
        ∀ c, m.pulled? (inner ++ [outer]) = some c → c ∈ inner := by
  cases hpulled : m.pulled? (inner ++ [outer]) with
  | none =>
      refine .inr ⟨inner, ?_, fun _ hc => hc, fun _ hc => by cases hc⟩
      simp [close, hpulled]
  | some c =>
      obtain ⟨hhead, -⟩ := pulled?_eq_some_iff.1 hpulled
      cases inner with
      | nil =>
          cases hhead
          refine .inl ⟨?_, rfl⟩
          simp only [close, hpulled]
          rfl
      | cons d inner =>
          cases hhead
          refine .inr ⟨inner, ?_, fun _ hc => List.mem_cons_of_mem _ hc, ?_⟩
          · simp only [close, hpulled]
            rfl
          · rintro _ ⟨⟩
            exact List.mem_cons_self

omit [Host δ] in
private theorem isReturn_of_callReturn? {m : Machine δ} {ret : UInt16}
    (h : m.callReturn? = some ret) :
    m.isReturn = false := by
  unfold callReturn? at h
  unfold isReturn
  dsimp only at h
  generalize opcodes.decode? (m.memory.get m.registers.pc) = decoded at h ⊢
  split at h
  · cases h
  · cases decoded with
    | none => cases h
    | some e =>
        dsimp only at h
        split at h
        · rename_i hop
          simp [hop]
        · cases h

omit [Host δ] in
private theorem callsWithin_cases (m : Machine δ) (inner : List Call) (outer : Call) :
    (m.callsWithin (inner ++ [outer]) = [] ∧ m.isReturn = true ∧
        m.pulled? (inner ++ [outer]) = some outer) ∨
      ∃ inner', m.callsWithin (inner ++ [outer]) = inner' ++ [outer] ∧
        (∀ c ∈ inner', c ∈ inner ∨ m.callReturn? = some c.ret) ∧
        ∀ c, m.isReturn = true → m.pulled? (inner ++ [outer]) = some c → c ∈ inner := by
  unfold callsWithin
  cases hcall : m.callReturn? with
  | some ret =>
      refine .inr ⟨⟨ret, m.registers.sp⟩ :: inner, rfl, ?_, ?_⟩
      · intro c hc
        obtain rfl | hc := List.mem_cons.1 hc
        · exact .inr rfl
        · exact .inl hc
      · intro c hreturn
        rw [isReturn_of_callReturn? hcall] at hreturn
        cases hreturn
  | none =>
      dsimp only
      split
      · rename_i hreturn
        obtain ⟨hclose, hpulled⟩ | ⟨inner', hclose, hinner, hpulled⟩ :=
          m.close_cases inner outer
        · exact .inl ⟨hclose, hreturn, hpulled⟩
        · exact .inr ⟨inner', hclose, fun c hc => .inl (hinner c hc),
            fun c _ => hpulled c⟩
      · rename_i hreturn
        exact .inr ⟨inner, rfl, fun c hc => .inl hc, fun c h => absurd h hreturn⟩

omit [Host δ] in
private theorem executeInstruction_of_trapCaller? {m m₀ : Machine δ}
    (hreturn : m.isReturn = true) (h : m.trapCaller? = some m₀) :
    m.executeInstruction = (m₀, none) ∧ (Trap.at? m₀.registers.pc).isSome = true := by
  obtain ⟨hbefore, -⟩ := Bool.and_eq_true_iff.1 hreturn
  unfold trapCaller? at h
  rw [if_neg (by simpa using hbefore)] at h
  generalize m.executeInstruction = outcome at h ⊢
  obtain ⟨m₂, halt⟩ := outcome
  cases halt with
  | some halt => cases h
  | none =>
      dsimp only at h
      split at h
      · cases h
        exact ⟨rfl, ‹_›⟩
      · cases h

/-- What a step does to open calls, of which the outermost does not return into a trap. -/
theorem callsAfter_cases {m m₁ : Machine δ} {inner : List Call} {outer : Call}
    (hstep : m.step = (m₁, none)) (hret : Trap.at? outer.ret = none) :
    (m.callsAfter (inner ++ [outer]) = [] ∧ m₁.HasReturned outer) ∨
      ∃ inner', m.callsAfter (inner ++ [outer]) = inner' ++ [outer] ∧
        (∀ c ∈ inner', c ∈ inner ∨ m.callReturn? = some c.ret) ∧
        ∀ c, m.returnsFrom? (inner ++ [outer]) = some c →
          c ∈ inner ∨ m.callReturn? = some c.ret := by
  have hreturned : ∀ c, m.returnsFrom? (inner ++ [outer]) = some c → m₁.HasReturned c :=
    fun c => hasReturned_of_returnsFrom? hstep
  unfold callsAfter returnsFrom? at *
  obtain ⟨hwithin, hreturn, hpulled⟩ | ⟨inner', hwithin, hinner, hpulled⟩ :=
    m.callsWithin_cases inner outer
  · cases hcaller : m.trapCaller? with
    | none =>
        refine .inl ⟨hwithin, hreturned outer ?_⟩
        rw [hcaller]
        dsimp only
        rw [if_pos hreturn]
        exact hpulled
    | some m₀ =>
        -- The return would lead into a trap.
        obtain ⟨hexecute, htrap⟩ := executeInstruction_of_trapCaller? hreturn hcaller
        have hpc := (hasReturned_of_isReturn hreturn
          (pulled?_eq_some_iff.1 hpulled).2 hexecute).1
        rw [hpc, hret] at htrap
        cases htrap
  · cases hcaller : m.trapCaller? with
    | none =>
        refine .inr ⟨inner', hwithin, hinner, fun c hc => ?_⟩
        dsimp only at hc
        split at hc
        · exact .inl (hpulled c ‹_› hc)
        · cases hc
    | some m₀ =>
        rw [hcaller, hwithin] at hreturned
        dsimp only at hreturned ⊢
        rw [hwithin]
        obtain ⟨hclose, hlast⟩ | ⟨inner'', hclose, hinner'', hlast⟩ :=
          m₀.close_cases inner' outer
        · exact .inl ⟨hclose, hreturned outer hlast⟩
        · exact .inr ⟨inner'', hclose, fun c hc => hinner c (hinner'' c hc), fun c hc =>
            hinner c (hlast c hc)⟩

end Machine

/-! Runs, with the calls that are open. -/

/-- A machine in a run, the steps since its host's last turn, and the calls that are
open, the innermost first. -/
structure Stage (δ : Type) where
  machine : Machine δ
  count : Nat
  calls : List Call

namespace Stage

open Machine

variable {δ : Type} [Host δ]

/-- The stage after a step, if it finishes and leaves the stack pointer at or below its
value at every call that is open. -/
def next? (s : Stage δ) : Option (Stage δ) :=
  match s.machine.step with
  | (_, some _) => none
  | (m, none) =>
      let calls := s.machine.callsAfter s.calls
      let (m, count) := m.periodicTurn (s.count + 1)
      if calls.all (m.registers.sp ≤ ·.sp)
        then some { machine := m, count, calls } else none

def after? : Nat → Stage δ → Option (Stage δ)
  | 0, s => some s
  | n + 1, s => s.next?.bind (after? n)

/-- Every call that is open is returned from, and the stack pointer never rises above its
value at a call before that. -/
def Disciplined (s : Stage δ) : Prop :=
  ∃ n s', s.after? (n + 1) = some s' ∧ s'.calls = []

/-- The program counter gets to an address before all calls are returned from. -/
inductive Arrives (a : UInt16) : Stage δ → Prop
  | now {s s' : Stage δ} : s.next? = some s' → s'.calls ≠ [] →
    s'.machine.registers.pc = a →
      Arrives a s
  | later {s s' : Stage δ} : s.next? = some s' → s'.calls ≠ [] →
    Arrives a s' → Arrives a s

/-- Before all calls are returned from, a call is made within them that returns to an
address, or the program counter gets there by a step that does not return from a call. -/
inductive Strays (a : UInt16) : Stage δ → Prop
  | again {s : Stage δ} : s.calls ≠ [] → s.machine.callReturn? = some a → Strays a s
  | jumps {s s' : Stage δ} : s.next? = some s' → s'.calls ≠ [] →
    s'.machine.registers.pc = a →
      s.machine.returnsFrom? s.calls = none → Strays a s
  | later {s s' : Stage δ} : s.next? = some s' → s'.calls ≠ [] → Strays a s' → Strays a s

theorem after?_succ {s s' : Stage δ} (h : s.next? = some s') (n : Nat) :
    s.after? (n + 1) = s'.after? n := by
  simp [after?, h]

private theorem arrives_iff {s s' : Stage δ} {a : UInt16} (h : s.next? = some s') :
    Arrives a s ↔ s'.calls ≠ [] ∧ (s'.machine.registers.pc = a ∨ Arrives a s') := by
  constructor
  · rintro (⟨hnext, hopen, hpc⟩ | ⟨hnext, hopen, harrives⟩)
    · cases h.symm.trans hnext
      exact ⟨hopen, .inl hpc⟩
    · cases h.symm.trans hnext
      exact ⟨hopen, .inr harrives⟩
  · rintro ⟨hopen, hpc | harrives⟩
    · exact .now h hopen hpc
    · exact .later h hopen harrives

theorem next?_eq_some {s s' : Stage δ} (h : s.next? = some s') :
    ∃ m, s.machine.step = (m, none) ∧
    s'.machine = (m.periodicTurn (s.count + 1)).1 ∧
    s'.count = (m.periodicTurn (s.count + 1)).2 ∧
    s'.calls = s.machine.callsAfter s.calls := by
  unfold next? at h
  split at h
  · cases h
  · rename_i m hstep
    dsimp only at h
    split at h
    · cases h
      exact ⟨m, hstep, rfl, rfl, rfl⟩
    · cases h

theorem hasReturned_periodicTurn {m : Machine δ} {c : Call} (n : Nat)
    (h : m.HasReturned c) :
    (m.periodicTurn n).1.HasReturned c := by
  unfold periodicTurn
  split <;> exact h

theorem Disciplined.next {s : Stage δ} (h : Disciplined s) :
    ∃ s', s.next? = some s' ∧ (s'.calls ≠ [] → Disciplined s') := by
  obtain ⟨n, s'', hafter, hcalls⟩ := h
  obtain ⟨s', hnext, hrest⟩ := Option.bind_eq_some_iff.1 hafter
  refine ⟨s', hnext, fun hopen => ?_⟩
  cases n with
  | zero =>
      cases hrest
      exact absurd hcalls hopen
  | succ n => exact ⟨n, s'', hrest, hcalls⟩

theorem next?_cases {s s' : Stage δ} {inner : List Call} {outer : Call}
    (h : s.next? = some s') (hcalls : s.calls = inner ++ [outer])
    (hret : Trap.at? outer.ret = none) :
    (s'.calls = [] ∧ s'.machine.HasReturned outer) ∨
      ∃ inner', s'.calls = inner' ++ [outer] ∧
        (∀ c ∈ inner', c ∈ inner ∨ s.machine.callReturn? = some c.ret) ∧
        ∀ c, s.machine.returnsFrom? s.calls = some c →
          s'.machine.registers.pc = c.ret ∧
          (c ∈ inner ∨ s.machine.callReturn? = some c.ret) := by
  obtain ⟨m, hstep, hmachine, -, hafter⟩ := next?_eq_some h
  rw [hmachine, hafter, hcalls]
  obtain ⟨hclosed, hlast⟩ | ⟨inner', hopen, hinner, hlast⟩ := callsAfter_cases hstep hret
  · exact .inl ⟨hclosed, hasReturned_periodicTurn _ hlast⟩
  · refine .inr ⟨inner', hopen, hinner, fun c hc => ⟨?_, hlast c hc⟩⟩
    exact (hasReturned_periodicTurn _ (hasReturned_of_returnsFrom? hstep hc)).1

private theorem Arrives.strays {s : Stage δ} {a : UInt16} {inner : List Call}
    {outer : Call} (h : Arrives a s) (hcalls : s.calls = inner ++ [outer])
    (hret : Trap.at? outer.ret = none) :
    (∃ c ∈ inner, c.ret = a) ∨ Strays a s := by
  have hopen : s.calls ≠ [] := by simp [hcalls]
  induction h generalizing inner with
  | @now s s' hnext hopen' hpc =>
      obtain ⟨hclosed, -⟩ | ⟨inner', -, -, hreturns⟩ := next?_cases hnext hcalls hret
      · exact absurd hclosed hopen'
      · cases hlast : s.machine.returnsFrom? s.calls with
        | none => exact .inr (.jumps hnext hopen' hpc hlast)
        | some c =>
            obtain ⟨hpc', hc | hcall⟩ := hreturns c hlast
            · exact .inl ⟨c, hc, hpc'.symm.trans hpc⟩
            · rw [hpc'.symm.trans hpc] at hcall
              exact .inr (.again hopen hcall)
  | @later s s' hnext hopen' _ ih =>
      obtain ⟨hclosed, -⟩ | ⟨inner', hcalls', hinner, -⟩ := next?_cases hnext hcalls hret
      · exact absurd hclosed hopen'
      · obtain ⟨c, hc, hca⟩ | hstrays := ih hcalls' hopen'
        · obtain hc | hcall := hinner c hc
          · exact .inl ⟨c, hc, hca⟩
          · rw [hca] at hcall
            exact .inr (.again hopen hcall)
        · exact .inr (.later hnext hopen' hstrays)

end Stage

namespace Machine

variable {δ : Type} [Host δ] {m m' : Machine δ} {ret : UInt16}

def overPlan (ret : UInt16) : RunPlan :=
  { mode := .stepOver, single := false, target := some ret }

omit [Host δ] in
private theorem pauses?_overPlan (m : Machine δ) (ret : UInt16) :
    m.pauses? (overPlan ret) = if m.registers.pc = ret then some .step
    else if m.breakpoints.contains m.registers.pc then some (.breakpoint m.registers.pc)
    else none := by
  simp [pauses?, overPlan, @eq_comm _ ret]

private theorem runRounds_overPlan {fuel n : Nat}
    (h : runRounds (overPlan ret) fuel m n = some (m', .ok .step)) :
    ∃ fuel' m₁, fuel = fuel' + 1 ∧ m.step = (m₁, none) ∧
      (((m₁.periodicTurn (n + 1)).1.registers.pc = ret ∧
        m' = (m₁.periodicTurn (n + 1)).1) ∨
        ((m₁.periodicTurn (n + 1)).1.registers.pc ≠ ret ∧
          runRounds (overPlan ret) fuel' (m₁.periodicTurn (n + 1)).1
            (m₁.periodicTurn (n + 1)).2 = some (m', .ok .step))) := by
  cases fuel with
  | zero => cases h
  | succ fuel =>
      cases hstop : m.stopRequested with
      | true =>
          have hround : m.round (overPlan ret) n = (m, .inl (.ok .cancelled)) := by
            simp [round, hstop]
          rw [runRounds_of_inl hround] at h
          cases h
      | false =>
          cases hstep : m.step with
          | mk m₁ halt =>
              cases halt with
              | some halt =>
                  have hends := endsRun_step m
                  rw [hstep] at hends
                  rw [runRounds_of_inl (round_of_halt _ n hstop hstep)] at h
                  cases halt with
                  | error e => cases h
                  | stop reason =>
                      cases h
                      cases hends _ rfl
              | none =>
                  have hround := round_of_finished (overPlan ret) n hstop hstep
                  rw [pauses?_overPlan] at hround
                  refine ⟨fuel, m₁, rfl, rfl, ?_⟩
                  by_cases hpc : (m₁.periodicTurn (n + 1)).1.registers.pc = ret
                  · rw [if_pos hpc] at hround
                    rw [runRounds_of_inl hround] at h
                    cases h
                    exact .inl ⟨hpc, rfl⟩
                  · rw [if_neg hpc] at hround
                    refine .inr ⟨hpc, ?_⟩
                    split at hround
                    · rename_i reason hbreak
                      split at hbreak
                      · cases hbreak
                        rw [runRounds_of_inl hround] at h
                        cases h
                      · cases hbreak
                    · rw [runRounds_of_inr hround] at h
                      exact h

/-- A run that steps over a call, from a stage whose next step leaves the call open or
returns from it, ends either where the call has returned or where the program gets to its
return address before. -/
theorem runRounds_of_disciplined {s s₁ : Stage δ} {outer : Call} {fuel : Nat}
    (hnext : s.next? = some s₁) (hrest : s₁.calls ≠ [] → s₁.Disciplined)
    (hcases : (s₁.calls = [] ∧ s₁.machine.HasReturned outer) ∨
      ∃ inner, s₁.calls = inner ++ [outer])
    (hret : Trap.at? outer.ret = none)
    (hrun : runRounds (overPlan outer.ret) fuel s.machine s.count =
      some (m', .ok .step)) :
    m'.registers.pc = outer.ret ∧ ∃ n s', s.after? n = some s' ∧ s'.machine = m' ∧
      (s'.calls = [] ↔ ¬s.Arrives outer.ret) ∧ (s'.calls = [] →
        m'.registers.sp = outer.sp) := by
  -- Before each round the outer call has just returned, or it is the first of those that
  -- are open.
  induction fuel generalizing s s₁ with
  | zero => cases hrun
  | succ fuel ih =>
      obtain ⟨m₁, hstep, hmachine, hcount, -⟩ := Stage.next?_eq_some hnext
      obtain ⟨fuel', m₂, hfuel, hstep', hend⟩ := runRounds_overPlan hrun
      cases hfuel
      cases hstep.symm.trans hstep'
      rw [← hmachine, ← hcount] at hend
      rw [Stage.arrives_iff hnext]
      obtain ⟨hclosed, hreturned⟩ | ⟨inner, hcalls⟩ := hcases
      · obtain ⟨hpc, rfl⟩ | ⟨hpc, -⟩ := hend
        · refine ⟨hpc, 1, s₁, Stage.after?_succ hnext 0, rfl, ?_, fun _ => hreturned.2⟩
          exact iff_of_true hclosed fun ⟨hopen, _⟩ => hopen hclosed
        · exact absurd hreturned.1 hpc
      · have hopen : s₁.calls ≠ [] := by simp [hcalls]
        obtain ⟨hpc, rfl⟩ | ⟨hpc, hrun'⟩ := hend
        · refine ⟨hpc, 1, s₁, Stage.after?_succ hnext 0, rfl,
            ?_, fun hclosed => absurd hclosed hopen⟩
          exact iff_of_false hopen fun h => h ⟨hopen, .inl hpc⟩
        · obtain ⟨s₂, hnext', hrest'⟩ := (hrest hopen).next
          have hcases' := (Stage.next?_cases hnext' hcalls hret).imp_right
            fun ⟨inner', h, _⟩ =>
            Exists.intro inner' h
          obtain ⟨hpc', n, s', hafter, hm', hiff, hsp⟩ := ih hnext' hrest' hcases' hrun'
          refine ⟨hpc', n + 1, s', (Stage.after?_succ hnext n).trans hafter, hm', ?_, hsp⟩
          rw [hiff]
          simp [hopen, hpc]

def overStage (m : Machine δ) : Stage δ :=
  { machine := m.startRun .stepOver, count := 0, calls := [] }

private theorem callsAfter_of_callReturn? {m m₁ : Machine δ} {ret : UInt16}
    (hstep : m.step = (m₁, none)) (hcall : m.callReturn? = some ret) :
    (m.callsAfter [] = [] ∧ m₁.HasReturned ⟨ret, m.registers.sp⟩) ∨
      m.callsAfter [] = [⟨ret, m.registers.sp⟩] ∧ m.returnsFrom? [] = none := by
  have hwithin : m.callsWithin [] = [⟨ret, m.registers.sp⟩] := by
    simp [callsWithin, hcall]
  have hreturned : ∀ c, m.returnsFrom? [] = some c → m₁.HasReturned c :=
    fun c => hasReturned_of_returnsFrom? hstep
  unfold callsAfter returnsFrom? at *
  rw [hwithin] at hreturned ⊢
  cases hcaller : m.trapCaller? with
  | none =>
      refine .inr ⟨rfl, ?_⟩
      simp [isReturn_of_callReturn? hcall]
  | some m₀ =>
      rw [hcaller] at hreturned
      cases hpulled : m₀.pulled? [⟨ret, m.registers.sp⟩] with
      | none =>
          refine .inr ⟨?_, hpulled⟩
          simp [close, hpulled]
      | some c =>
          obtain ⟨hhead, -⟩ := pulled?_eq_some_iff.1 hpulled
          cases hhead
          refine .inl ⟨?_, hreturned _ hpulled⟩
          simp [close, hpulled]

theorem startRun_of_paused (h : m.state = .paused) (mode : RunMode) :
    m.startRun mode =
      { m with
        stopRequested := false, changes := m.changes.clear, state := .running mode } := by
  unfold startRun
  dsimp only
  rw [if_neg (by simp [h])]

private theorem callReturn?_startRun (h : m.state = .paused) (mode : RunMode) :
    (m.startRun mode).callReturn? = m.callReturn? := by
  have hregisters : (m.startRun mode).registers = m.registers := by
    rw [startRun_of_paused h]
  have hmemory : (m.startRun mode).memory = m.memory := by rw [startRun_of_paused h]
  unfold callReturn?
  rw [hregisters, hmemory]

private theorem overStage_cases {s : Stage δ} (hpaused : m.state = .paused)
    (hcall : m.callReturn? = some ret) (hnext : m.overStage.next? = some s) :
    (s.calls = [] ∧ s.machine.HasReturned ⟨ret, m.registers.sp⟩) ∨
      s.calls = [⟨ret, m.registers.sp⟩] ∧ m.overStage.machine.returnsFrom? [] = none := by
  have hcall' : m.overStage.machine.callReturn? = some ret :=
    (callReturn?_startRun hpaused .stepOver).trans hcall
  have hsp : m.overStage.machine.registers.sp = m.registers.sp := by
    unfold overStage
    rw [startRun_of_paused hpaused]
  have hcalls : m.overStage.calls = [] := rfl
  obtain ⟨m₁, hstep, hmachine, -, hafter⟩ := Stage.next?_eq_some hnext
  rw [hmachine, hafter, hcalls, ← hsp]
  exact (callsAfter_of_callReturn? hstep hcall').imp_left fun ⟨hclosed, hreturned⟩ =>
    ⟨hclosed, Stage.hasReturned_periodicTurn _ hreturned⟩

private theorem execute_stepOver_eq (hpaused : m.state = .paused)
    (hcall : m.callReturn? = some ret) (fuel : Nat) : execute fuel m .stepOver =
      (runRounds (overPlan ret) fuel (m.startRun .stepOver) 0).map fun (m, result) =>
        (m.endRun .stepOver result, result) := by
  have hplan : (m.startRun .stepOver).plan .stepOver = overPlan ret := by
    unfold plan
    dsimp only
    rw [callReturn?_startRun hpaused, hcall]
    simp [overPlan]
  unfold execute
  dsimp only
  rw [hplan]

/-- A run that steps over a call stops where the call returns to, but the call has
returned only if the program does not get there before. That it gets there before has one
of two causes: within the call a call is made that returns to the same place, or a step
that does not return from a call leads there. -/
theorem execute_stepOver_returns_iff {fuel : Nat} (hpaused : m.state = .paused)
    (hcall : m.callReturn? = some ret) (hret : Trap.at? ret = none)
    (hdisc : m.overStage.Disciplined)
    (hrun : execute fuel m .stepOver = some (m', .ok .step)) :
    m'.registers.pc = ret ∧
      (∃ n s, m.overStage.after? n = some s ∧
        m' = s.machine.endRun .stepOver (.ok .step) ∧
        (s.calls = [] ↔ ¬m.overStage.Arrives ret) ∧
        (s.calls = [] → m'.registers.sp = m.registers.sp)) ∧
      (m.overStage.Arrives ret → m.overStage.Strays ret) := by
  obtain ⟨s₁, hnext, hrest⟩ := hdisc.next
  have hfirst := overStage_cases hpaused hcall hnext
  rw [execute_stepOver_eq hpaused hcall] at hrun
  obtain ⟨⟨m₂, result⟩, hrounds, hend⟩ := Option.map_eq_some_iff.1 hrun
  cases hend
  have hcases : _ ∨ ∃ inner, s₁.calls = inner ++ [⟨ret, m.registers.sp⟩] :=
    hfirst.imp_right fun ⟨h, _⟩ => ⟨[], h⟩
  obtain ⟨hpc, n, s, hafter, rfl, hiff, hsp⟩ :=
    runRounds_of_disciplined hnext hrest hcases hret hrounds
  refine ⟨hpc, ⟨n, s, hafter, rfl, hiff, hsp⟩, fun harrives => ?_⟩
  obtain ⟨hopen, hnow⟩ := (Stage.arrives_iff hnext).1 harrives
  obtain ⟨hclosed, -⟩ | ⟨hcalls, hlast⟩ := hfirst
  · exact absurd hclosed hopen
  · obtain hpc | hlater := hnow
    · exact .jumps hnext hopen hpc hlast
    · have hinner : s₁.calls = [] ++ [⟨ret, m.registers.sp⟩] := hcalls
      obtain ⟨c, hc, -⟩ | hstrays := hlater.strays hinner hret
      · cases hc
      · exact .later hnext hopen hstrays

/-- A subroutine that calls itself, paused at that call. It counts down in X, and
Y counts the returns. -/
def recursing : Machine Silent :=
  { memory := (Memory.filled 0).load 0x0206
      [0xCA, 0xF0, 0x04, 0x20, 0x06, 0x02, 0xC8, 0x60]
    registers := { Registers.initial with x := 2, sp := 0xFB, pc := 0x0209 }
    state := .paused
    host := {} }

theorem runs_recursing :
    recursing.callReturn? = some 0x020C ∧
      ((recursing.overStage.after? 9).isSome = true ∧
        ∀ s ∈ recursing.overStage.after? 9, s.calls = []) ∧
      (execute 7 recursing .stepOver).isSome = true ∧
        ∀ run ∈ execute 7 recursing .stepOver, run.2 = .ok .step ∧
          run.1.registers.sp = 0xF9 := by
  decide +kernel

theorem disciplined_recursing : recursing.overStage.Disciplined := by
  obtain ⟨hsome, hclosed⟩ := runs_recursing.2.1
  obtain ⟨s, hs⟩ := Option.isSome_iff_exists.1 hsome
  exact ⟨8, s, hs, hclosed s hs⟩

private theorem execute_recursing :
    ∃ m', execute 7 recursing .stepOver = some (m', .ok .step) ∧
    m'.registers.sp = 0xF9 := by
  obtain ⟨hsome, hruns⟩ := runs_recursing.2.2
  obtain ⟨⟨m', result⟩, hrun⟩ := Option.isSome_iff_exists.1 hsome
  obtain ⟨hresult, hsp⟩ := hruns (m', result) hrun
  cases hresult
  exact ⟨m', hrun, hsp⟩

theorem execute_stepOver_returns_iff_recursing :
    recursing.state = .paused ∧ recursing.callReturn? = some 0x020C ∧
      recursing.overStage.Disciplined ∧
      ∃ m', execute 7 recursing .stepOver = some (m', .ok .step) ∧
        m'.registers.pc = 0x020C ∧
        (recursing.overStage.Arrives 0x020C → recursing.overStage.Strays 0x020C) := by
  obtain ⟨m', hrun, -⟩ := execute_recursing
  obtain ⟨hpc, -, hcause⟩ :=
    execute_stepOver_returns_iff rfl runs_recursing.1 rfl disciplined_recursing hrun
  exact ⟨rfl, runs_recursing.1, disciplined_recursing, m', hrun, hpc, hcause⟩

/-- The run stops as the inner call returns, and the outer one is still open. -/
theorem stepOver_stops_within_recursing :
    recursing.state = .paused ∧ recursing.callReturn? = some 0x020C ∧
      recursing.overStage.Disciplined ∧
      ∃ m', execute 7 recursing .stepOver = some (m', .ok .step) ∧
        m'.registers.sp ≠ recursing.registers.sp := by
  obtain ⟨m', hrun, hsp⟩ := execute_recursing
  refine ⟨rfl, runs_recursing.1, disciplined_recursing, m', hrun, ?_⟩
  rw [hsp]
  decide

end Machine

end Breadboard
