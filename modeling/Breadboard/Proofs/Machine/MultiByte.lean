import Breadboard.Proofs.Machine.Decoding
import Mathlib.Data.Nat.Digits.Defs
import Mathlib.Tactic.LinearCombination

namespace Breadboard

/-- How a byte is read as a digit: as it stands, or as two decimal digits. -/
inductive Coding
  | binary
  | decimal
deriving DecidableEq, Repr, Inhabited

namespace Coding

def base : Coding → Nat
  | .binary => 256
  | .decimal => 100

def digit (c : Coding) (b : UInt8) : Nat :=
  match c with
  | .binary => b.toNat
  | .decimal => 10 * (b.toNat / 16) + b.toNat % 16

def Admits (c : Coding) (b : UInt8) : Prop :=
  match c with
  | .binary => True
  | .decimal => b.toNat / 16 ≤ 9 ∧ b.toNat % 16 ≤ 9

instance (c : Coding) (b : UInt8) : Decidable (c.Admits b) :=
  match c with
  | .binary => inferInstanceAs (Decidable True)
  | .decimal => inferInstanceAs (Decidable (_ ∧ _))

def value (c : Coding) (bytes : List UInt8) : Nat :=
  Nat.ofDigits c.base (bytes.map c.digit)

variable {c : Coding} {p : Status} {a v : UInt8}

private theorem value_cons (c : Coding) (b : UInt8) (bytes : List UInt8) :
    c.value (b :: bytes) = c.digit b + c.base * c.value bytes := by
  unfold value
  rw [List.map_cons, Nat.ofDigits_cons]

private theorem digit_lt (h : c.Admits v) : c.digit v < c.base := by
  cases c with
  | binary => exact v.toNat_lt
  | decimal =>
      change 10 * (v.toNat / 16) + v.toNat % 16 < 100
      obtain ⟨hhigh, hlow⟩ := h
      omega

private theorem value_lt {bytes : List UInt8} (h : ∀ b ∈ bytes, c.Admits b) :
    c.value bytes < c.base ^ bytes.length := by
  have hbase : 1 < c.base := by cases c <;> decide
  rw [← List.length_map (f := c.digit)]
  refine Nat.ofDigits_lt_base_pow_length hbase ?_
  intro d hd
  obtain ⟨b, hb, rfl⟩ := List.mem_map.1 hd
  exact digit_lt (h b hb)

theorem toNat_decide (q : Prop) [Decidable q] : (decide q).toNat =
    if q then 1 else 0 := by
  by_cases hq : q <;> simp [hq]

private theorem digit_add_binary (p : Status) (a v : UInt8) :
    (p.add false a v).1.toNat + 256 * (p.add false a v).2.carry.toNat =
      a.toNat + v.toNat + p.carry.toNat := by
  have := a.toNat_lt
  have := v.toNat_lt
  have := Bool.toNat_le p.carry
  change (UInt8.ofNat (a.toNat + v.toNat + p.carry.toNat)).toNat +
    256 * (decide (255 < a.toNat + v.toNat + p.carry.toNat)).toNat = _
  rw [UInt8.toNat_ofNat', toNat_decide]
  split <;> omega

private theorem digit_add_decimal (p : Status) {a v : UInt8} (ha : decimal.Admits a)
    (hv : decimal.Admits v) :
    decimal.Admits (p.add true a v).1 ∧
      decimal.digit (p.add true a v).1 + 100 * (p.add true a v).2.carry.toNat =
        decimal.digit a + decimal.digit v + p.carry.toNat := by
  have := Bool.toNat_le p.carry
  obtain ⟨hah, hal⟩ := ha
  obtain ⟨hvh, hvl⟩ := hv
  simp only [Status.add, if_true, Admits, digit, UInt8.toNat_ofNat', toNat_decide]
  generalize a.toNat / 16 = ah at *
  generalize a.toNat % 16 = al at *
  generalize v.toNat / 16 = vh at *
  generalize v.toNat % 16 = vl at *
  split <;> split <;> split <;> split <;> omega

private theorem digit_sub_binary (p : Status) (a v : UInt8) :
    (p.sub false a v).1.toNat + v.toNat + (!p.carry).toNat =
      a.toNat + 256 * (!(p.sub false a v).2.carry).toNat := by
  have := a.toNat_lt
  have := v.toNat_lt
  have := Bool.toNat_le !p.carry
  change (UInt8.ofInt (a.toNat - v.toNat - (!p.carry).toNat)).toNat + v.toNat +
    (!p.carry).toNat =
    a.toNat + 256 * (!decide (0 ≤ (a.toNat : Int) - v.toNat - (!p.carry).toNat)).toNat
  rw [toNat_ofInt_byte, ← decide_not, toNat_decide]
  split <;> omega

private theorem digit_sub_decimal (p : Status) {a v : UInt8} (ha : decimal.Admits a)
    (hv : decimal.Admits v) :
    decimal.Admits (p.sub true a v).1 ∧
      decimal.digit (p.sub true a v).1 + decimal.digit v + (!p.carry).toNat =
        decimal.digit a + 100 * (!(p.sub true a v).2.carry).toNat := by
  have := Bool.toNat_le !p.carry
  obtain ⟨hah, hal⟩ := ha
  obtain ⟨hvh, hvl⟩ := hv
  -- The carry is that of the binary difference, so the bytes are needed besides their
  -- halves.
  have ha := Nat.div_add_mod a.toNat 16
  have hv := Nat.div_add_mod v.toNat 16
  simp only [Status.sub, if_true, Admits, digit, toNat_ofInt_byte, ← decide_not,
    toNat_decide]
  generalize a.toNat / 16 = ah at *
  generalize a.toNat % 16 = al at *
  generalize v.toNat / 16 = vh at *
  generalize v.toNat % 16 = vl at *
  split <;> split <;> split <;> omega

private theorem digit_add (p : Status) (ha : c.Admits a) (hv : c.Admits v) :
    c.Admits (p.add (c = .decimal) a v).1 ∧
      c.digit (p.add (c = .decimal) a v).1 + c.base *
        (p.add (c = .decimal) a v).2.carry.toNat =
        c.digit a + c.digit v + p.carry.toNat := by
  cases c with
  | binary => exact ⟨trivial, digit_add_binary p a v⟩
  | decimal => exact digit_add_decimal p ha hv

private theorem digit_sub (p : Status) (ha : c.Admits a) (hv : c.Admits v) :
    c.Admits (p.sub (c = .decimal) a v).1 ∧
      c.digit (p.sub (c = .decimal) a v).1 + c.digit v + (!p.carry).toNat =
        c.digit a + c.base * (!(p.sub (c = .decimal) a v).2.carry).toNat := by
  cases c with
  | binary => exact ⟨trivial, digit_sub_binary p a v⟩
  | decimal => exact digit_sub_decimal p ha hv

end Coding

private theorem Status.decimal_add (p : Status) (decimal : Bool) (a v : UInt8) :
    (p.add decimal a v).2.decimal = p.decimal := by
  unfold add
  dsimp only
  split <;> rfl

private theorem Status.decimal_sub (p : Status) (decimal : Bool) (a v : UInt8) :
    (p.sub decimal a v).2.decimal = p.decimal := by
  unfold sub
  dsimp only
  split <;> rfl

/-- Decimal mode has to be both allowed and switched on. -/
def Settings.coding (s : Settings) (p : Status) : Coding :=
  if s.decimalMode && p.decimal then .decimal else .binary

private theorem Settings.decide_coding (s : Settings) (p : Status) :
    decide (s.coding p = .decimal) = (s.decimalMode && p.decimal) := by
  unfold coding
  cases s.decimalMode && p.decimal <;> rfl

private theorem Settings.coding_congr (s : Settings) {p q : Status}
    (h : q.decimal = p.decimal) :
    s.coding q = s.coding p := by
  unfold coding
  rw [h]

namespace Operation

variable {op : Operation} {sign : Int} {passed : Status → Bool}

/-- Performs an operation with each pair of bytes, of which the first is put into
A and the second is the operand. It gives what A holds each time, and the
registers in the end. -/
def performAll? (op : Operation) (s : Settings) (base : UInt16) (m : Memory) :
    Registers → List (UInt8 × UInt8) → Option (List UInt8 × Registers)
  | r, [] => some ([], r)
  | r, (a, v) :: columns => do
      let effect ← op.perform s (.immediate v) base { r with a } m
      let (bytes, r) ← op.performAll? s base m effect.registers columns
      some (effect.registers.a :: bytes, r)

/-- The operation adds the operand to A, or subtracts it if the sign is negative,
together with what has passed from the byte before, and what passes out of this byte
makes up for the base. -/
def Chains (op : Operation) (sign : Int) (passed : Status → Bool) : Prop :=
  ∀ (s : Settings) (base : UInt16) (m : Memory) (r : Registers) (v : UInt8),
    (s.coding r.status).Admits r.a → (s.coding r.status).Admits v →
    ∃ effect, op.perform s (.immediate v) base r m = some effect ∧
      s.coding effect.registers.status = s.coding r.status ∧
      (s.coding r.status).Admits effect.registers.a ∧
      (s.coding r.status).digit effect.registers.a +
          sign * ((s.coding r.status).base * (passed effect.registers.status).toNat) =
        (s.coding r.status).digit r.a +
          sign * ((s.coding r.status).digit v + (passed r.status).toNat)

private theorem perform_ADC (s : Settings) (base : UInt16) (m : Memory) (r : Registers)
    (v : UInt8) :
    ADC.perform s (.immediate v) base r m = some {
      registers := { r with
        a := (r.status.add (s.decimalMode && r.status.decimal) r.a v).1
        status := (r.status.add (s.decimalMode && r.status.decimal) r.a v).2 } } :=
  rfl

private theorem perform_SBC (s : Settings) (base : UInt16) (m : Memory) (r : Registers)
    (v : UInt8) :
    SBC.perform s (.immediate v) base r m = some {
      registers := { r with
        a := (r.status.sub (s.decimalMode && r.status.decimal) r.a v).1
        status := (r.status.sub (s.decimalMode && r.status.decimal) r.a v).2 } } :=
  rfl

private theorem chains_ADC : ADC.Chains 1 (·.carry) := by
  intro s base m r v ha hv
  have hdigit := Coding.digit_add r.status ha hv
  have hdecimal := r.status.decimal_add (s.coding r.status = .decimal) r.a v
  rw [s.decide_coding] at hdigit hdecimal
  refine ⟨_, perform_ADC s base m r v, s.coding_congr hdecimal, hdigit.1, ?_⟩
  have hsum := hdigit.2
  dsimp only
  omega

private theorem chains_SBC : SBC.Chains (-1) (!·.carry) := by
  intro s base m r v ha hv
  have hdigit := Coding.digit_sub r.status ha hv
  have hdecimal := r.status.decimal_sub (s.coding r.status = .decimal) r.a v
  rw [s.decide_coding] at hdigit hdecimal
  refine ⟨_, perform_SBC s base m r v, s.coding_congr hdecimal, hdigit.1, ?_⟩
  have hdifference := hdigit.2
  dsimp only
  omega

/-- What holds of one byte holds of all of them together. -/
theorem Chains.performAll? (h : op.Chains sign passed) (s : Settings) (base : UInt16)
    (m : Memory) (r : Registers) {columns : List (UInt8 × UInt8)}
    (hadmits : ∀ column ∈ columns,
      (s.coding r.status).Admits column.1 ∧ (s.coding r.status).Admits column.2) :
    ∃ bytes r', op.performAll? s base m r columns = some (bytes, r') ∧
      bytes.length = columns.length ∧ (∀ b ∈ bytes, (s.coding r.status).Admits b) ∧
      (s.coding r.status).value bytes +
          sign * (((s.coding r.status).base ^ columns.length : Nat) *
            (passed r'.status).toNat) =
        (s.coding r.status).value (columns.map Prod.fst) +
          sign * ((s.coding r.status).value (columns.map Prod.snd) +
            (passed r.status).toNat) := by
  induction columns generalizing r with
  | nil => exact ⟨[], r, rfl, rfl, nofun, by simp [Coding.value]⟩
  | cons column columns ih =>
      obtain ⟨a, v⟩ := column
      obtain ⟨⟨ha, hv⟩, hrest⟩ := List.forall_mem_cons.1 hadmits
      obtain ⟨effect, heffect, hcoding, hadmits₁, hdigit⟩ :=
        h s base m { r with a } v ha hv
      dsimp only at hcoding hadmits₁ hdigit
      obtain ⟨bytes, r', hbytes, hlength, hadmits', hvalue⟩ :=
        ih effect.registers (by rw [hcoding]; exact hrest)
      rw [hcoding] at hadmits' hvalue
      refine ⟨effect.registers.a :: bytes, r', ?_, congrArg (· + 1) hlength,
        List.forall_mem_cons.2 ⟨hadmits₁, hadmits'⟩, ?_⟩
      · rw [Operation.performAll?, heffect]
        simp only [Option.bind_eq_bind, Option.bind_some, hbytes]
      · simp only [List.map_cons, Coding.value_cons, List.length_cons, pow_succ]
        push_cast at hvalue ⊢
        linear_combination hdigit + (s.coding r.status).base * hvalue

private theorem sum_of_passed {n size a v : Nat} {carry carry' : Bool} (hlt : n < size)
    (h : (n : Int) + 1 * (size * carry'.toNat) = a + 1 * (v + carry.toNat)) :
    n = (a + v + carry.toNat) % size ∧ (carry' = true ↔ size ≤ a + v + carry.toNat) := by
  have hsum : n + size * carry'.toNat = a + v + carry.toNat := by omega
  rw [← hsum, Nat.add_mul_mod_self_left, Nat.mod_eq_of_lt hlt]
  cases carry' <;> simp [hlt]

private theorem difference_of_passed {n size a v : Nat} {carry carry' : Bool}
    (hlt : n < size)
    (h : (n : Int) + -1 * (size * (!carry').toNat) = a + -1 * (v + (!carry).toNat)) :
    (n : Int) = (a - v - (1 - carry.toNat)) % size ∧
      (carry' = false ↔ (a : Int) < v + (1 - carry.toNat)) := by
  have hborrow : ((!carry).toNat : Int) = 1 - carry.toNat := by cases carry <;> rfl
  have hdifference : (n : Int) + size * -(!carry').toNat = a - v - (1 - carry.toNat) := by
    linarith
  rw [← hdifference, Int.add_mul_emod_self_left, Int.emod_eq_of_lt (by omega) (by omega)]
  refine ⟨rfl, ?_⟩
  cases carry' <;> simp at hdifference ⊢ <;> omega

/-- Byte by byte from the lowest, `ADC` adds two numbers of as many bytes and the carry,
and `SBC` subtracts the second and the borrow from the first: as binary numbers, or as
decimal ones if the bytes hold decimal digits and decimal mode is on, and then the bytes
of the result do so too. -/
theorem value_of_chained (s : Settings) (base : UInt16) (m : Memory) (r : Registers)
    {columns : List (UInt8 × UInt8)} {c : Coding} (hcoding : s.coding r.status = c)
    (hadmits : ∀ column ∈ columns, c.Admits column.1 ∧ c.Admits column.2) :
    (∃ bytes r', ADC.performAll? s base m r columns = some (bytes, r') ∧
      bytes.length = columns.length ∧ (∀ b ∈ bytes, c.Admits b) ∧
      c.value bytes =
        (c.value (columns.map Prod.fst) + c.value (columns.map Prod.snd) +
          r.status.carry.toNat) % c.base ^ columns.length ∧
      (r'.status.carry = true ↔ c.base ^ columns.length ≤
        c.value (columns.map Prod.fst) + c.value (columns.map Prod.snd) +
          r.status.carry.toNat)) ∧
    (∃ bytes r', SBC.performAll? s base m r columns = some (bytes, r') ∧
      bytes.length = columns.length ∧ (∀ b ∈ bytes, c.Admits b) ∧
      (c.value bytes : Int) =
        (c.value (columns.map Prod.fst) - c.value (columns.map Prod.snd) -
          (1 - r.status.carry.toNat)) % (c.base ^ columns.length : Nat) ∧
      (r'.status.carry = false ↔ (c.value (columns.map Prod.fst) : Int) <
        c.value (columns.map Prod.snd) + (1 - r.status.carry.toNat))) := by
  subst hcoding
  obtain ⟨bytes, r', hbytes, hlength, hdigits, hvalue⟩ :=
    chains_ADC.performAll? s base m r hadmits
  obtain ⟨bytes', r'', hbytes', hlength', hdigits', hvalue'⟩ :=
    chains_SBC.performAll? s base m r hadmits
  have hlt := Coding.value_lt hdigits
  have hlt' := Coding.value_lt hdigits'
  rw [hlength] at hlt
  rw [hlength'] at hlt'
  exact ⟨⟨bytes, r', hbytes, hlength, hdigits, sum_of_passed hlt hvalue⟩,
    ⟨bytes', r'', hbytes', hlength', hdigits', difference_of_passed hlt' hvalue'⟩⟩

def tallying : Registers :=
  Registers.initial.setStatus { Status.reset with decimal := true, carry := true }

def tallied : List (UInt8 × UInt8) :=
  [(0x00, 0x99), (0x50, 0x50)]

/-- With the carry the sum has five digits, and the difference is negative. -/
theorem value_of_chained_tallied :
    Settings.coding {} tallying.status = .decimal ∧
      (∀ column ∈ tallied, Coding.decimal.Admits column.1 ∧
        Coding.decimal.Admits column.2) ∧
      (∃ bytes r', ADC.performAll? {} 0 (.filled 0) tallying tallied = some (bytes, r') ∧
        Coding.decimal.value bytes = 100 ∧ r'.status.carry = true) ∧
      ∃ bytes r', SBC.performAll? {} 0 (.filled 0) tallying tallied = some (bytes, r') ∧
        Coding.decimal.value bytes = 9901 ∧ r'.status.carry = false := by
  have hcoding : Settings.coding {} tallying.status = .decimal := rfl
  have hadmits : ∀ column ∈ tallied,
      Coding.decimal.Admits column.1 ∧ Coding.decimal.Admits column.2 := by
    simp only [tallied, List.forall_mem_cons]
    exact ⟨by decide, by decide, nofun⟩
  have hfirst : Coding.decimal.value (tallied.map Prod.fst) = 5000 := rfl
  have hsecond : Coding.decimal.value (tallied.map Prod.snd) = 5099 := rfl
  obtain ⟨⟨bytes, r', hbytes, -, -, hvalue, hcarry⟩,
    bytes', r'', hbytes', -, -, hvalue', hcarry'⟩ :=
    value_of_chained {} 0 (.filled 0) tallying hcoding hadmits
  rw [hfirst, hsecond] at hvalue hcarry hvalue' hcarry'
  exact ⟨hcoding, hadmits, ⟨bytes, r', hbytes, hvalue, hcarry.2 (by decide)⟩,
    bytes', r'', hbytes', Int.ofNat_inj.1 hvalue', hcarry'.2 (by decide)⟩

end Operation

end Breadboard
