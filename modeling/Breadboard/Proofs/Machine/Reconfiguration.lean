import Breadboard.Proofs.Machine.Stepping
import Breadboard.Proofs.Machine.Decoding

namespace Breadboard

def Settings.lenient (s : Settings) : Settings :=
  { s with pageCrossPenalty := false }

def Settings.penalty (s : Settings) (crossings : Nat) : Nat :=
  if s.pageCrossPenalty then crossings else 0

def Effect.charge (f : Effect) (n : Nat) : Effect :=
  { f with cycles := f.cycles + n }

namespace Operation

def isArithmetic : Operation → Bool
  | .ADC | .SBC => true
  | _ => false

/-- How often the operation leaves the page: once if it is a branch that is
taken to another one. -/
def crossings (op : Operation) (o : Operand) (r : Registers) : Nat :=
  if op.branches r.status then o.address?.elim 0 fun target =>
    (!samePage target r.pc).toNat else 0

variable {op : Operation} {s s' : Settings} {o : Operand} {base : UInt16} {r : Registers}
    {m : Memory}

theorem crossings_le (op : Operation) (o : Operand) (r : Registers) :
    op.crossings o r ≤ 1 := by
  unfold crossings
  split
  · cases o.address? with
    | none => exact Nat.zero_le 1
    | some target => exact Bool.toNat_le _
  · exact Nat.zero_le 1

private theorem branch_eq (op : Operation) (s : Settings) (o : Operand) (r : Registers) :
    op.branch s o r =
      (op.branch s.lenient o r).map (·.charge (s.penalty (op.crossings o r))) := by
  unfold branch crossings
  split
  · cases o.address? with
    | none => rfl
    | some target =>
        cases hs : s.pageCrossPenalty with
        | false => simp [Settings.lenient, Settings.penalty, Effect.charge, hs]
        | true => simp [Settings.lenient, Settings.penalty, Effect.charge, hs]
  · simp [Settings.penalty, Effect.charge]

private theorem perform_eq (op : Operation) (s : Settings) (o : Operand) (base : UInt16)
    (r : Registers) (m : Memory) :
    op.perform s o base r m =
      (op.perform s.lenient o base r m).map
        (·.charge (s.penalty (op.crossings o r))) := by
  by_cases hbranch : op.isBranch = true
  · rw [perform_of_isBranch hbranch, perform_of_isBranch hbranch]
    exact op.branch_eq s o r
  · have hstays : op.branches r.status = false := by
      cases op <;> first | exact absurd rfl hbranch | rfl
    have hsame : op.perform s.lenient o base r m = op.perform s o base r m := by
      cases op <;> first | exact absurd rfl hbranch | rfl
    rw [hsame]
    simp [crossings, hstays, Settings.penalty, Effect.charge]

private theorem perform_lenient_congr
    (h : s'.decimalMode = s.decimalMode ∨
      ¬(op.isArithmetic = true ∧ r.status.decimal = true)) :
    op.perform s'.lenient o base r m = op.perform s.lenient o base r m := by
  have hdecimal : op.isArithmetic = true →
      (s'.decimalMode && r.status.decimal) = (s.decimalMode && r.status.decimal) := by
    intro hop
    obtain h | h := h
    · rw [h]
    · simp [Bool.eq_false_iff.2 fun hd => h ⟨hop, hd⟩]
  cases op with
  | ADC | SBC => simp only [perform, Settings.lenient, hdecimal rfl]
  | _ => rfl

private theorem cycles_le_of_perform {f : Effect} (h : op.perform s o base r m = some f) :
    f.cycles ≤ 2 := by
  by_cases hbranch : op.isBranch = true
  · rw [perform_of_isBranch hbranch] at h
    unfold branch at h
    split at h
    · obtain ⟨target, -, htaken⟩ := Option.bind_eq_some_iff.1 h
      cases htaken
      exact Nat.add_le_add_left (Bool.toNat_le _) 1
    · cases h
      exact Nat.zero_le 2
  · cases op <;> first
      | exact absurd rfl hbranch
      | (cases h; exact Nat.zero_le 2)
      | (cases o <;> first | (cases h; exact Nat.zero_le 2) | cases h)

end Operation

namespace OpcodeEntry

variable {e : OpcodeEntry} {s s' : Settings} {r : Registers} {m : Memory}

/-- How often the instruction leaves a page: when its operand is indexed,
and when it branches. -/
def crossings (e : OpcodeEntry) (r : Registers) (m : Memory) : Nat :=
  let next := r.jump (r.pc + e.size.toUInt16)
  let (operand, crossed) := e.mode.resolve r.pc next m
  crossed.toNat + e.op.crossings operand next

def AddsInDecimal (e : OpcodeEntry) (r : Registers) : Prop :=
  e.op.isArithmetic = true ∧ r.status.decimal = true

private theorem effect?_eq (e : OpcodeEntry) (s : Settings) (r : Registers) (m : Memory) :
    e.effect? s r m =
      (e.effect? s.lenient r m).map (·.charge (s.penalty (e.crossings r m))) := by
  unfold effect? crossings
  dsimp only
  rw [Operation.perform_eq]
  cases e.op.perform s.lenient _ _ _ m with
  | none => rfl
  | some f =>
      cases hs : s.pageCrossPenalty with
      | false => simp [Effect.charge, Settings.penalty, Settings.lenient, hs]
      | true =>
          simp [Effect.charge, Settings.penalty, Settings.lenient, hs]
          omega

private theorem effect?_lenient_congr
    (h : s'.decimalMode = s.decimalMode ∨ ¬e.AddsInDecimal r) :
    e.effect? s'.lenient r m = e.effect? s.lenient r m := by
  have hperform : ∀ o,
    e.op.perform s'.lenient o r.pc (r.jump (r.pc + e.size.toUInt16)) m =
      e.op.perform s.lenient o r.pc (r.jump (r.pc + e.size.toUInt16)) m :=
    fun _ => Operation.perform_lenient_congr h
  simp only [effect?, hperform]
  rfl

private theorem cycles_le_of_effect? {f : Effect} (h : e.effect? s r m = some f) :
    f.cycles ≤ 258 := by
  unfold effect? at h
  dsimp only at h
  generalize e.mode.resolve r.pc (r.jump (r.pc + e.size.toUInt16)) m = resolved at h
  obtain ⟨operand, crossed⟩ := resolved
  obtain ⟨performed, hperform, heffect⟩ := Option.bind_eq_some_iff.1 h
  cases heffect
  have hperformed := Operation.cycles_le_of_perform hperform
  have hcrossing := Bool.toNat_le (crossed && s.pageCrossPenalty)
  have htable := e.cycles.toNat_lt
  dsimp only
  omega

theorem crossings_le (e : OpcodeEntry) (r : Registers) (m : Memory) :
    e.crossings r m ≤ 2 := by
  unfold crossings
  exact Nat.add_le_add (Bool.toNat_le _) (Operation.crossings_le _ _ _)

end OpcodeEntry

/-- What a step does to the cycle count: it may clear it, and then adds to it. -/
structure Charge where
  clears : Bool := false
  cycles : Nat := 0
  crossings : Nat := 0

namespace Charge

def count (q : Charge) (s : Settings) (c : UInt64) : UInt64 :=
  (if q.clears then 0 else c) + UInt64.ofNat (q.cycles + s.penalty q.crossings)

def andThen (q q' : Charge) : Charge where
  clears := q.clears || q'.clears
  cycles := (if q'.clears then 0 else q.cycles) + q'.cycles
  crossings := (if q'.clears then 0 else q.crossings) + q'.crossings

variable {q q' : Charge} {s s' : Settings} {c c' : UInt64}

private theorem andThen_le (q q' : Charge) :
    (q.andThen q').cycles + (q.andThen q').crossings ≤
      (q.cycles + q.crossings) + (q'.cycles + q'.crossings) := by
  unfold andThen
  dsimp only
  split
  · omega
  · omega

private theorem count_empty (s : Settings) (c : UInt64) :
    ({} : Charge).count s c = c := by
  simp [count, Settings.penalty]

private theorem count_andThen (q q' : Charge) (s : Settings) (c : UInt64) :
    (q.andThen q').count s c = q'.count s (q.count s c) := by
  have hpenalty : ∀ n n', s.penalty (n + n') = s.penalty n + s.penalty n' := by
    intro n n'
    unfold Settings.penalty
    split <;> rfl
  unfold count andThen
  cases q'.clears with
  | true => simp
  | false =>
      simp only [hpenalty, Bool.or_false, Bool.false_eq_true, ite_false, UInt64.ofNat_add]
      ac_rfl

theorem count_congr (h : s'.pageCrossPenalty = s.pageCrossPenalty) :
    q.count s' c = q.count s c := by
  simp [count, Settings.penalty, h]

theorem count_le (hsmall : q.cycles + q.crossings < UInt64.size)
    (hs : s.pageCrossPenalty = false) (hc : c ≤ c')
    (hwrap : q.clears = true ∨ c' ≤ q.count s' c') : q.count s c ≤ q.count s' c' := by
  have hpenalty : s.penalty q.crossings = 0 := by simp [Settings.penalty, hs]
  have hpenalty' : s'.penalty q.crossings ≤ q.crossings := by
    unfold Settings.penalty
    split <;> simp
  unfold UInt64.size at hsmall
  unfold count at hwrap ⊢
  rw [hpenalty]
  generalize s'.penalty q.crossings = n at hpenalty' hwrap ⊢
  cases hclears : q.clears with
  | true =>
      simp only [if_true, UInt64.le_iff_toNat_le, UInt64.toNat_add, UInt64.toNat_ofNat',
        UInt64.toNat_zero]
      omega
  | false =>
      simp only [hclears, Bool.false_eq_true, false_or, if_false, UInt64.le_iff_toNat_le,
        UInt64.toNat_add, UInt64.toNat_ofNat'] at hwrap hc ⊢
      have := c'.toNat_lt
      omega

end Charge

namespace Machine

variable {δ : Type}

def reconfigured (m : Machine δ) (s : Settings) (c : UInt64) : Machine δ :=
  { m with settings := s, cycles := c }

def Outcome.reconfigured (o : Outcome δ) (s : Settings) (c : UInt64) : Outcome δ :=
  (o.1.reconfigured s c, o.2)

theorem reconfigured_self (m : Machine δ) : m.reconfigured m.settings m.cycles = m := rfl

private theorem registers_reconfigured (m : Machine δ) (s : Settings) (c : UInt64) :
    (m.reconfigured s c).registers = m.registers := rfl

theorem Outcome.cycles_reconfigured (o : Outcome δ) (s : Settings) (c : UInt64) :
    (o.reconfigured s c).1.cycles = c := rfl

def AddsInDecimal (m : Machine δ) : Prop :=
  Trap.at? m.registers.pc = none ∧
    ∃ e ∈ opcodes.decode? (m.memory.get m.registers.pc), e.AddsInDecimal m.registers

instance (m : Machine δ) : Decidable m.AddsInDecimal :=
  inferInstanceAs (Decidable (Trap.at? m.registers.pc = none ∧
    ∃ e ∈ opcodes.decode? (m.memory.get m.registers.pc),
      e.op.isArithmetic = true ∧ m.registers.status.decimal = true))

/-- What other settings and another count tell otherwise than the machine's own is
not read by the step. -/
structure Blind (m : Machine δ) (s : Settings) (c : UInt64) : Prop where
  decimal : s.decimalMode = m.settings.decimalMode ∨ ¬m.AddsInDecimal
  cycles : s.pageCrossPenalty = m.settings.pageCrossPenalty ∧ c = m.cycles ∨
    m.trapCalled? ≠ some .cycles

private theorem serve_reconfigured [Host δ] (m : Machine δ) (s : Settings)
    (c : UInt64) {t : Trap} (hcycles : t = .cycles → c = m.cycles) :
    (m.reconfigured s c).serve t =
      (m.serve t).reconfigured s (if t = .clearCycles then 0 else c) := by
  have hasked : (m.reconfigured s c).asked t = (m.asked t).reconfigured s c := by
    cases t with
    | _ => rfl
  have halike : ServedAlike t m (m.reconfigured s c) := by
    refine ⟨rfl, rfl, rfl, rfl, hcycles, fun _ => rfl, ?_⟩
    cases t with
    | _ => rfl
  obtain ⟨r, hfits, hserve⟩ := m.exists_reply t
  obtain ⟨-, -, -, -, -, hclears⟩ := r.of_fits hfits
  rw [hserve m (.refl t m), hserve _ halike, hasked]
  simp only [answer, Outcome.reconfigured, reconfigured, hclears, decide_eq_true_eq]

/-! What is charged. How large the bounds are does not matter, as long as the count can
hold them. -/

variable [Host δ] {m : Machine δ}

private theorem exists_charge_callTrap (m : Machine δ) (t : Trap) :
    ∃ q : Charge, q.cycles + q.crossings ≤ 255 ∧ q.clears = decide (t = .clearCycles) ∧
      ∀ s c, (t = .cycles → c = m.cycles) →
        (m.reconfigured s c).callTrap t =
          (m.callTrap t).reconfigured s (q.count s c) := by
  have hready : ∀ s c, (m.reconfigured s c).ready t = (m.ready t).reconfigured s c := by
    intro s c
    unfold ready
    split
    · rfl
    · rfl
  have hcount : (m.ready t).cycles = m.cycles := by
    unfold ready
    split
    · rfl
    · rfl
  obtain ⟨rts, -, hreturn⟩ := exists_lookup?_RTS
  simp only [callTrap_eq]
  cases hserve : (m.ready t).serve t with
  | mk m₁ halt =>
      cases halt with
      | some halt =>
          refine ⟨{ clears := decide (t = .clearCycles) }, Nat.zero_le _,
            rfl, fun s c hc => ?_⟩
          rw [hready, serve_reconfigured _ s c fun ht => (hc ht).trans hcount.symm,
            hserve]
          simp [Outcome.returning, Outcome.reconfigured, Charge.count, Settings.penalty]
      | none =>
          refine ⟨{ clears := decide (t = .clearCycles), cycles := rts.cycles.toNat },
            Nat.le_of_lt_succ rts.cycles.toNat_lt, rfl, fun s c hc => ?_⟩
          rw [hready, serve_reconfigured _ s c fun ht => (hc ht).trans hcount.symm,
            hserve]
          simp [Outcome.returning, Outcome.reconfigured, Charge.count, Settings.penalty,
            returnToCaller, finished, Machine.reconfigured, hreturn]

omit [Host δ] in
private theorem recordWrites_reconfigured (m : Machine δ) (s : Settings) (c : UInt64)
    (writes : List Write) :
    (m.reconfigured s c).recordWrites writes =
      (m.recordWrites writes).reconfigured s c := by
  unfold recordWrites
  by_cases htracking : m.isTracking = true
  · rw [if_pos htracking,
      if_pos (show (m.reconfigured s c).isTracking = true from htracking)]
    rfl
  · rw [if_neg htracking,
      if_neg (show ¬(m.reconfigured s c).isTracking = true from htracking)]

omit [Host δ] in
private theorem applyEffect_reconfigured (m : Machine δ) (s : Settings) (c : UInt64)
    (f : Effect) (n n' : Nat) :
    (m.reconfigured s c).applyEffect (f.charge n') =
      ((m.applyEffect (f.charge n)).reconfigured s
        (c + UInt64.ofNat (f.cycles + n'))) := by
  unfold applyEffect
  dsimp only [Effect.charge]
  split
  · rfl
  · refine Eq.trans ?_ (recordWrites_reconfigured _ s _ _)
    rfl

omit [Host δ] in
private theorem exists_charge_executeInstruction (m : Machine δ) :
    ∃ q : Charge, q.cycles + q.crossings ≤ 260 ∧ q.clears = false ∧
      ∀ s c, (s.decimalMode = m.settings.decimalMode ∨
          ∀ e ∈ opcodes.decode? (m.memory.get m.registers.pc), ¬e.AddsInDecimal
            m.registers) →
        (m.reconfigured s c).executeInstruction =
          m.executeInstruction.reconfigured s (q.count s c) := by
  have hdecoded : ∀ s c, (m.reconfigured s c).executeInstruction =
      (m.reconfigured s c).executeDecoded (m.memory.get m.registers.pc)
        (opcodes.decode? (m.memory.get m.registers.pc)) := fun _ _ => rfl
  simp only [hdecoded]
  rw [executeInstruction_eq]
  cases opcodes.decode? (m.memory.get m.registers.pc) with
  | none =>
      refine ⟨{}, Nat.zero_le _, rfl, fun s c _ => ?_⟩
      rw [Charge.count_empty]
      rfl
  | some e =>
      have heffect : ∀ s c, (s.decimalMode = m.settings.decimalMode ∨
          ∀ e' ∈ some e, ¬OpcodeEntry.AddsInDecimal e' m.registers) →
          e.effect? (m.reconfigured s c).settings (m.reconfigured s c).registers
              (m.reconfigured s c).memory =
            (e.effect? m.settings.lenient m.registers m.memory).map
              (·.charge (s.penalty (e.crossings m.registers m.memory))) := by
        intro s c h
        refine (e.effect?_eq s m.registers m.memory).trans ?_
        rw [OpcodeEntry.effect?_lenient_congr (h.imp_right fun h => h e rfl)]
      have hown : e.effect? m.settings m.registers m.memory = _ :=
        heffect m.settings m.cycles (.inl rfl)
      unfold executeDecoded
      dsimp only
      rw [hown]
      cases hbase : e.effect? m.settings.lenient m.registers m.memory with
      | none =>
          refine ⟨{}, Nat.zero_le _, rfl, fun s c h => ?_⟩
          rw [heffect s c h, hbase, Charge.count_empty]
          rfl
      | some f =>
          refine ⟨⟨false, f.cycles, e.crossings m.registers m.memory⟩,
            Nat.add_le_add (OpcodeEntry.cycles_le_of_effect? hbase) (e.crossings_le _ _),
            rfl, fun s c h => ?_⟩
          rw [heffect s c h, hbase]
          exact congrArg finished (m.applyEffect_reconfigured s c f _ _)

/-- Machines that differ in their settings and in their cycle counts make the same step,
and charge for it by the same rule. -/
theorem exists_charge_advance (m : Machine δ) :
    ∃ q : Charge, q.cycles + q.crossings ≤ 515 ∧
      (q.clears = true ↔ m.trapCalled? = some .clearCycles) ∧
      ∀ s c, m.Blind s c → (m.reconfigured s c).trapCalled? = m.trapCalled? ∧
        (m.reconfigured s c).advance = m.advance.reconfigured s (q.count s c) := by
  -- A trap at the program counter is all of the step. An instruction may be followed by
  -- one, whose charge is counted from where the instruction's has left the count.
  cases hbefore : Trap.at? m.registers.pc with
  | some t =>
      obtain ⟨q, hsmall, hclears, hcall⟩ := m.exists_charge_callTrap t
      obtain ⟨hcalled, hadvance⟩ := advance_of_caller hbefore
      refine ⟨q, Nat.le_trans hsmall (by decide), by simp [hclears, hcalled],
        fun s c h => ?_⟩
      obtain ⟨hcalled', hadvance'⟩ := advance_of_caller (m := m.reconfigured s c) hbefore
      refine ⟨hcalled'.trans hcalled.symm, ?_⟩
      rw [hadvance, hadvance']
      refine hcall s c fun ht => ?_
      obtain ⟨-, hc⟩ | hother := h.cycles
      · exact hc
      · exact absurd (ht ▸ hcalled) hother
  | none =>
      obtain ⟨q, hsmall, hclears, hexecute⟩ := m.exists_charge_executeInstruction
      have hblind : ∀ s c, m.Blind s c →
          (m.reconfigured s c).executeInstruction =
            m.executeInstruction.reconfigured s (q.count s c) := fun s c h =>
        hexecute s c (h.decimal.imp_right fun hnot e he hadds => hnot ⟨hbefore,
          e, he, hadds⟩)
      have hown : m.executeInstruction.1.cycles = q.count m.settings m.cycles := by
        have hself := hexecute m.settings m.cycles (.inl rfl)
        rw [m.reconfigured_self] at hself
        rw [hself, Outcome.cycles_reconfigured]
      cases hm : m.executeInstruction with
      | mk m₁ halt =>
          rw [hm] at hblind hown
          cases halt with
          | some halt =>
              obtain ⟨hcalled, hadvance⟩ := advance_of_halt hbefore hm
              refine ⟨q, Nat.le_trans hsmall (by decide), by simp [hclears, hcalled],
                fun s c h => ?_⟩
              obtain ⟨hcalled', hadvance'⟩ :=
                advance_of_halt (m := m.reconfigured s c) hbefore (hblind s c h)
              exact ⟨hcalled'.trans hcalled.symm, by rw [hadvance', hadvance]; rfl⟩
          | none =>
              cases hafter : Trap.at? m₁.registers.pc with
              | none =>
                  obtain ⟨hcalled, hadvance⟩ := advance_of_finished hbefore hm hafter
                  refine ⟨q, Nat.le_trans hsmall (by decide), by simp [hclears, hcalled],
                    fun s c h => ?_⟩
                  obtain ⟨hcalled', hadvance'⟩ :=
                    advance_of_finished (m := m.reconfigured s c) hbefore
                      (hblind s c h) hafter
                  exact ⟨hcalled'.trans hcalled.symm, by rw [hadvance', hadvance]; rfl⟩
              | some t =>
                  obtain ⟨hcalled, hadvance⟩ := advance_of_trap hbefore hm hafter
                  obtain ⟨q', hsmall', hclears', hcall⟩ := m₁.exists_charge_callTrap t
                  refine ⟨q.andThen q',
                    ?_, by simp [Charge.andThen, hclears, hclears', hcalled],
                    fun s c h => ?_⟩
                  · exact Nat.le_trans (Charge.andThen_le q q')
                      (Nat.add_le_add hsmall hsmall')
                  · obtain ⟨hcalled', hadvance'⟩ :=
                      advance_of_trap (m := m.reconfigured s c) hbefore
                        (hblind s c h) hafter
                    refine ⟨hcalled'.trans hcalled.symm, ?_⟩
                    rw [hadvance, hadvance', Charge.count_andThen]
                    refine hcall s _ fun ht => ?_
                    obtain ⟨hpenalty, rfl⟩ | hother := h.cycles
                    · exact (Charge.count_congr hpenalty).trans hown.symm
                    · exact absurd (ht ▸ hcalled) hother

theorem exists_charge_step (m : Machine δ) :
    ∃ q : Charge, q.cycles + q.crossings ≤ 515 ∧
      (q.clears = true ↔ m.trapCalled? = some .clearCycles) ∧
      ∀ s c, m.Blind s c → (m.reconfigured s c).trapCalled? = m.trapCalled? ∧
        (m.reconfigured s c).step = m.step.reconfigured s (q.count s c) := by
  obtain ⟨q, hsmall, hclears, hadvance⟩ := m.exists_charge_advance
  refine ⟨q, hsmall, hclears, fun s c h => ?_⟩
  obtain ⟨hcalled, hstep⟩ := hadvance s c h
  refine ⟨hcalled, ?_⟩
  unfold step
  rw [hstep]
  generalize m.advance = o
  obtain ⟨m₁, halt⟩ := o
  have htracking : (m₁.reconfigured s (q.count s c)).isTracking = m₁.isTracking := rfl
  dsimp only [Outcome.reconfigured]
  rw [htracking, m₁.registers_reconfigured, m.registers_reconfigured]
  split
  · rfl
  · rfl

end Machine

end Breadboard
