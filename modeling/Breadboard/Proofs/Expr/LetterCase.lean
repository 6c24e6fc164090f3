import Breadboard.Expr.Evaluator
import Breadboard.Isa.Operation
import Breadboard.Proofs.Token.LetterCase

namespace Breadboard

def Word.folded : Word → Word
  | .number n => .number n
  | .symbol name => .symbol name.toLower

private theorem hexDigit?_toLower (c : Char) :
    Radix.hexDigit? c.toLower = Radix.hexDigit? c :=
  congr_toLower (f := Radix.hexDigit?) (by decide) c

namespace Radix

variable (r : Radix)

private theorem digit?_toLower (c : Char) : r.digit? c.toLower = r.digit? c := by
  unfold digit?
  rw [hexDigit?_toLower]

private theorem readFrom_map_toLower (value : Nat) (cs : List Char) :
    r.readFrom value (cs.map Char.toLower) = r.readFrom value cs := by
  induction cs generalizing value with
  | nil => rfl
  | cons c cs ih =>
      rw [List.map_cons, readFrom, readFrom, digit?_toLower]
      split
      · rfl
      · rw [ih]

theorem read_of_ne_plus {c : Char} (h : c ≠ '+') (cs : List Char) :
    r.read (c :: cs) = (r.readFrom 0 (c :: cs)).map Int32.ofNat := by
  unfold read
  split
  · rename_i hnil
    cases hnil
  · rename_i hplus
    exact absurd (List.cons.inj hplus).1 h
  · rfl

theorem read_map_toLower (digits : List Char) :
    r.read (digits.map Char.toLower) = r.read digits := by
  cases digits with
  | nil => rfl
  | cons c cs =>
      by_cases hplus : c = '+'
      · subst hplus
        cases cs with
        | nil => rfl
        | cons d cs =>
          exact congrArg (·.map Int32.ofNat) (r.readFrom_map_toLower 0 (d :: cs))
      · have hplus' : c.toLower ≠ '+' := mt (toLower_eq_iff rfl).1 hplus
        rw [List.map_cons, r.read_of_ne_plus hplus, r.read_of_ne_plus hplus',
          ← List.map_cons, readFrom_map_toLower]

end Radix

namespace Word

theorem number_folded (read : Except LexError Int32) :
    (read.map number).map folded = read.map number := by
  cases read <;> rfl

theorem ofChars_of_ne {c : Char} (hhex : c ≠ '$') (hbinary : c ≠ '%') (cs : List Char) :
    ofChars (c :: cs) =
      if c.isDigit then (Radix.decimal.read (c :: cs)).map .number
      else .ok (.symbol (String.ofList (c :: cs))) := by
  unfold ofChars
  split
  · rename_i h
    exact absurd (List.cons.inj h).1 hhex
  · rename_i h
    exact absurd (List.cons.inj h).1 hbinary
  · rename_i h
    cases h
    rfl
  · rename_i h
    cases h

private theorem ofChars_map_toLower (cs : List Char) :
    ofChars (cs.map Char.toLower) = (ofChars cs).map folded := by
  have hdigit : ∀ c : Char, c.toLower.isDigit = c.isDigit := congr_toLower (by decide)
  cases cs with
  | nil => exact congrArg (Except.ok ∘ symbol) (Text.toLower_ofList []).symm
  | cons c cs =>
      by_cases hhex : c = '$'
      · subst hhex
        change (Radix.hex.read (cs.map Char.toLower)).map number =
          ((Radix.hex.read cs).map number).map folded
        rw [number_folded, Radix.read_map_toLower]
      · by_cases hbinary : c = '%'
        · subst hbinary
          change (Radix.binary.read (cs.map Char.toLower)).map number =
            ((Radix.binary.read cs).map number).map folded
          rw [number_folded, Radix.read_map_toLower]
        · have hhex' : c.toLower ≠ '$' := mt (toLower_eq_iff rfl).1 hhex
          have hbinary' : c.toLower ≠ '%' := mt (toLower_eq_iff rfl).1 hbinary
          rw [List.map_cons, ofChars_of_ne hhex hbinary,
            ofChars_of_ne hhex' hbinary', hdigit, ← List.map_cons, Radix.read_map_toLower]
          split
          · exact (number_folded _).symm
          · rw [← Text.toLower_ofList]
            rfl

private theorem classify_toLower (word : String) :
    classify word.toLower = (classify word).map folded := by
  unfold classify
  rw [Text.toList_toLower, ofChars_map_toLower]

end Word

theorem isLabelName_toLower (word : String) :
    isLabelName word.toLower = isLabelName word := by
  have hletter : ∀ c : Char, c.toLower.isAlpha = c.isAlpha := congr_toLower (by decide)
  have hletters : ∀ c : Char, c.toLower.isAlphanum = c.isAlphanum :=
    congr_toLower (by decide)
  have hscore : ∀ c : Char, c.toLower = '_' ↔ c = '_' := fun c => toLower_eq_iff rfl
  have hdot : ∀ c : Char, c.toLower = '.' ↔ c = '.' := fun c => toLower_eq_iff rfl
  unfold isLabelName
  rw [Text.toList_toLower]
  cases word.toList with
  | nil => rfl
  | cons first rest =>
    simp [List.all_map, Function.comp_def, hletter, hletters, hscore, hdot]

theorem Operation.ofMnemonic?_toLower (word : String) :
    ofMnemonic? word.toLower = ofMnemonic? word := by
  unfold ofMnemonic?
  rw [Text.toUpper_toLower]

section

variable {ε α β γ δ : Type} {fold : ε → ε} {f : α → β} {g : γ → δ} {x : Except ε α}
    {y : Except ε β}

/-- `y` gives under `f` what `x` gives, and fails if `x` does, for a reason that is
the same under `fold`. -/
def Mirrors (fold : ε → ε) (f : α → β) (x : Except ε α) (y : Except ε β) : Prop :=
  match x with
  | .ok a => y = .ok (f a)
  | .error e => ∃ e', y = .error e' ∧ fold e' = fold e

namespace Mirrors

theorem ok {a : α} {b : β} (h : b = f a) : Mirrors fold f (.ok a) (.ok b) :=
  congrArg Except.ok h

theorem error {e e' : ε} (h : fold e' = fold e) :
    Mirrors fold f (.error e : Except ε α) (.error e' : Except ε β) :=
  ⟨e', rfl, h⟩

theorem map (hx : Mirrors fold f x y) {h : α → γ} {h' : β → δ}
    (hmap : ∀ a, h' (f a) = g (h a)) :
    Mirrors fold g (x.map h) (y.map h') := by
  cases x with
  | error e =>
      obtain ⟨e', rfl, he⟩ := hx
      exact error he
  | ok a =>
      obtain rfl : y = .ok (f a) := hx
      exact ok (hmap a)

theorem bind (hx : Mirrors fold f x y) {h : α → Except ε γ} {h' : β → Except ε δ}
    (hbind : ∀ a, Mirrors fold g (h a) (h' (f a))) :
    Mirrors fold g (x >>= h) (y >>= h') := by
  cases x with
  | error e =>
      obtain ⟨e', rfl, he⟩ := hx
      exact error he
  | ok a =>
      obtain rfl : y = .ok (f a) := hx
      exact hbind a

end Mirrors

end

namespace Expr

def Context.Insensitive (ctx : Context) : Prop :=
  ∀ name, ctx.resolve name.toLower = ctx.resolve name

def Error.folded : Error → Error
  | .unexpectedToken token => .unexpectedToken token.toLower
  | .undefinedSymbol name => .undefinedSymbol name.toLower
  | e => e

def Failure.folded (f : Failure) : Failure :=
  ⟨f.error.folded, f.asked.map String.toLower⟩

def Success.folded (r : Success) : Success :=
  ⟨r.operand, r.asked.map String.toLower, r.rest.folded⟩

def State.folded (s : State) : State :=
  { s with asked := s.asked.map String.toLower }

def Move.folded : Move → Move
  | .read s => .read s.folded
  | .stop => .stop

variable {ctx : Context} {s : State} {v : Value} {t : Token}

theorem map_toLower_map_toLower (names : List String) :
    (names.map String.toLower).map String.toLower = names.map String.toLower := by
  rw [List.map_map]
  exact List.map_congr_left fun name _ => Text.toLower_toLower name

namespace State

theorem mirrors_fail {α β : Type} {f : α → β} {e e' : Error} (h : e'.folded = e.folded) :
    Mirrors Failure.folded f (.error (s.fail e)) (.error (s.folded.fail e')) := by
  refine .error ?_
  change Failure.mk e'.folded _ = Failure.mk e.folded _
  rw [h]
  exact congrArg _ (map_toLower_map_toLower s.asked)

private theorem mirrors_readWord (hctx : ctx.Insensitive) (word : String) :
    Mirrors Failure.folded folded (s.readWord ctx word)
      (s.folded.readWord ctx word.toLower) := by
  unfold readWord
  rw [Word.classify_toLower]
  cases Word.classify word with
  | error e => exact mirrors_fail rfl
  | ok w =>
      cases w with
      | number n => exact .ok rfl
      | symbol name =>
          have hasked : s.folded.asked ++ [name.toLower] =
            (s.asked ++ [name]).map String.toLower := by
            simp [folded]
          dsimp only [Except.map, Word.folded]
          rw [hctx, hasked]
          cases ctx.resolve name with
          | some v => exact .ok rfl
          | none =>
              dsimp only
              split
              · exact .ok rfl
              · exact mirrors_fail (s := { s with asked := s.asked ++ [name] })
                  (congrArg Error.undefinedSymbol (Text.toLower_toLower name))

theorem pending_folded (s : State) : s.folded.pending = s.pending :=
  rfl

private theorem enclosure_folded (s : State) : s.folded.enclosure = s.enclosure :=
  rfl

private theorem mirrors_readPunct (c : Char) :
    Mirrors Failure.folded folded (s.readPunct ctx c) (s.folded.readPunct ctx c) := by
  unfold readPunct
  split
  · exact .ok rfl
  · exact .ok rfl
  · exact .ok rfl
  · exact .ok rfl
  · exact .ok rfl
  · exact .ok rfl
  · exact mirrors_fail rfl

theorem mirrors_unexpected {α β : Type} {f : α → β} (t : Token) :
    Mirrors Failure.folded f (.error (s.fail (.unexpectedToken t.describe)))
      (.error (s.folded.fail (.unexpectedToken t.folded.describe))) :=
  mirrors_fail (congrArg Error.unexpectedToken t.toLower_describe_folded)

private theorem mirrors_readOperand (hctx : ctx.Insensitive) (t : Token) :
    Mirrors Failure.folded folded (s.readOperand ctx t)
      (s.folded.readOperand ctx t.folded) := by
  cases t with
  | word w => exact mirrors_readWord hctx w
  | char c => exact .ok rfl
  | punct c => exact mirrors_readPunct c
  | text content => exact mirrors_unexpected (.text content)
  | shiftLeft => exact mirrors_unexpected .shiftLeft
  | shiftRight => exact mirrors_unexpected .shiftRight

private theorem mirrors_close (v : Value) :
    Mirrors Failure.folded folded (s.close v) (s.folded.close v) := by
  unfold close
  rw [pending_folded]
  cases Pending.close v s.pending with
  | error e => exact mirrors_fail rfl
  | ok r => exact .ok rfl

private theorem mirrors_readBinary (v : Value) (op : Binary) :
    Mirrors Failure.folded folded (s.readBinary v op) (s.folded.readBinary v op) := by
  unfold readBinary
  rw [pending_folded]
  cases Pending.reduce op.level v s.pending with
  | error e => exact mirrors_fail rfl
  | ok r => exact .ok rfl

private theorem mirrors_readAfter (v : Value) (t : Token) :
    Mirrors Failure.folded Move.folded (s.readAfter v t)
      (s.folded.readAfter v t.folded) := by
  have hmark : ∀ t, Mirrors Failure.folded Move.folded (s.readAfter v t)
    (s.folded.readAfter v t) := by
    intro t
    unfold readAfter
    rw [pending_folded]
    split
    · dsimp only
      rw [enclosure_folded]
      split
      · exact .ok rfl
      · exact mirrors_fail rfl
    · split
      · exact .ok rfl
      · exact (mirrors_close v).map fun _ => rfl
    · split
      · exact .ok rfl
      · exact (mirrors_readBinary v _).map fun _ => rfl
  cases t with
  | word w => exact .ok rfl
  | _ => exact hmark _

private theorem mirrors_read (hctx : ctx.Insensitive) (t : Token) :
    Mirrors Failure.folded Move.folded (s.read ctx t) (s.folded.read ctx t.folded) := by
  obtain ⟨position, pending, enclosure, asked⟩ := s
  cases position with
  | operand => exact (mirrors_readOperand hctx t).map fun _ => rfl
  | after v => exact mirrors_readAfter v t

private theorem mirrors_finish (rest : Line) :
    Mirrors Failure.folded Success.folded (s.finish rest)
      (s.folded.finish rest.folded) := by
  obtain ⟨position, pending, enclosure, asked⟩ := s
  cases position with
  | operand => exact mirrors_fail rfl
  | after v =>
      unfold finish
      dsimp only [folded]
      cases Pending.unwind enclosure v pending with
      | error e => exact mirrors_fail rfl
      | ok value => exact .ok rfl

private theorem mirrors_run (hctx : ctx.Insensitive) (fault : Option Fault)
    (lexemes : List Lexeme) :
    Mirrors Failure.folded Success.folded (s.run ctx fault lexemes)
      (s.folded.run ctx (fault.map Fault.folded) (lexemes.map Lexeme.folded)) := by
  induction lexemes generalizing s with
  | nil =>
      cases fault with
      | none => exact mirrors_finish ⟨[], none⟩
      | some f =>
        exact mirrors_fail (congrArg (fun e => (Error.lex e).folded) f.error_folded)
  | cons l rest ih =>
      have hread := mirrors_read (s := s) hctx l.token
      rw [List.map_cons, run, run]
      cases hmove : s.read ctx l.token with
      | error f =>
          rw [hmove] at hread
          obtain ⟨f', hread, hf⟩ := hread
          rw [show s.folded.read ctx l.folded.token = _ from hread]
          exact .error hf
      | ok move =>
          rw [hmove] at hread
          rw [show s.folded.read ctx l.folded.token = _ from hread]
          cases move with
          | read s' => exact ih
          | stop => exact mirrors_finish ⟨l :: rest, fault⟩

end State

theorem mirrors_evalOperand (hctx : ctx.Insensitive) (indirect : Bool) (line : Line) :
    Mirrors Failure.folded Success.folded (evalOperand ctx indirect line)
      (evalOperand ctx indirect line.folded) := by
  have hopens : (line.folded.tokens.head? == some (.punct '(')) =
      (line.tokens.head? == some (.punct '(')) := by
    rw [Bool.eq_iff_iff, beq_iff_eq, beq_iff_eq, Line.tokens_folded, List.head?_map]
    cases line.tokens.head? with
    | none => exact .rfl
    | some t => simp [Token.folded_eq_punct_iff]
  unfold evalOperand
  rw [hopens]
  exact State.mirrors_run hctx line.fault line.lexemes

end Expr

end Breadboard
