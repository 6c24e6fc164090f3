import Breadboard.Proofs.Assembly.Complaint
import Breadboard.Proofs.Assembly.Encoding
import Breadboard.Proofs.Expr.LetterCase
import Breadboard.Proofs.Symbol.Names

namespace Breadboard.Assembly

/-! What differs. -/

def ErrorKind.folded : ErrorKind → ErrorKind
  | .expr e => .expr e.folded
  | .unknownMnemonic word => .unknownMnemonic word.toLower
  | .unknownDirective word => .unknownDirective word.toLower
  | .malformed complaint => .malformed complaint.toLower
  | .invalidLabel name => .invalidLabel name.toLower
  | .missingColon name => .missingColon name.toLower
  | kind => kind

/-- The other warnings name symbols as they are kept. -/
def WarningKind.folded : WarningKind → WarningKind
  | .localOutsideScope name => .localOutsideScope name.toLower
  | kind => kind

def Warning.folded (w : Warning) : Warning :=
  { w with kind := w.kind.folded }

namespace Pass

def folded (p : Pass) : Pass :=
  { p with warnings := p.warnings.map Warning.folded }

def Insensitive (p : Pass) : Prop :=
  p.flags.caseSensitive = false

variable {p : Pass}

private theorem normalize_toLower (h : p.Insensitive) (name : String) :
    p.normalize name.toLower = p.normalize name := by
  unfold normalize
  rw [h, if_neg Bool.false_ne_true, if_neg Bool.false_ne_true, Text.toLower_toLower]

theorem qualify_toLower (h : p.Insensitive) (name : String) :
    p.qualify name.toLower = p.qualify name := by
  unfold qualify
  rw [normalize_toLower h]

private theorem context_insensitive (h : p.Insensitive) : p.context.Insensitive :=
  fun name => congrArg p.symbols.value? (qualify_toLower h name)

variable (p)

theorem round_folded : p.folded.round = p.round :=
  rfl

private theorem flags_folded : p.folded.flags = p.flags :=
  rfl

private theorem address_folded : p.folded.address = p.address :=
  rfl

private theorem folded_warn (kind : WarningKind) :
    (p.warn kind).folded = p.folded.warn kind.folded := by
  unfold warn
  rw [round_folded]
  split
  · rfl
  · simp [folded, Warning.folded]

theorem folded_warnIf (condition : Bool) (kind : WarningKind) :
    (p.warnIf condition kind).folded = p.folded.warnIf condition kind.folded := by
  unfold warnIf
  split
  · exact p.folded_warn kind
  · rfl

private theorem folded_recordReferences (names : List String) :
    (p.recordReferences names).folded = p.folded.recordReferences names := by
  unfold recordReferences
  induction names generalizing p with
  | nil => rfl
  | cons name names ih => exact ih _

private theorem recordReferences_toLower {p : Pass} (h : p.Insensitive)
    (names : List String) :
    p.recordReferences (names.map String.toLower) = p.recordReferences names := by
  unfold recordReferences
  induction names generalizing p with
  | nil => rfl
  | cons name names ih =>
      rw [List.map_cons, List.foldl_cons, List.foldl_cons, qualify_toLower h]
      exact ih h

private theorem folded_complaint {key : String} {value : Int32} {kind : SymbolKind}
    {definition : Definition} {complaint : WarningKind}
    (h : p.complaint? key value kind definition = some complaint) :
    complaint.folded = complaint := by
  unfold complaint? at h
  split at h
  · split at h
    · cases h
      rfl
    · cases h
  · split at h
    · obtain ⟨_, -, rfl⟩ := Option.map_eq_some_iff.1 h
      rfl
    · cases h

theorem folded_define (key : String) (value : Int32) (kind : SymbolKind) :
    (p.define key value kind).folded = p.folded.define key value kind := by
  have hsame : p.folded.complaintAbout? key value kind =
    p.complaintAbout? key value kind := rfl
  unfold complaintAbout? at hsame
  unfold define
  dsimp only
  rw [hsame]
  cases hcomplaint :
      p.complaint? key value kind (p.symbols.define key ⟨value, kind, some p.line⟩).1 with
  | none => rfl
  | some complaint =>
      dsimp only
      rw [folded_warn, p.folded_complaint hcomplaint]
      rfl

private theorem folded_defineLabel {p : Pass} (h : p.Insensitive) (name : String) :
    (p.defineLabel name).folded = p.folded.defineLabel name.toLower := by
  unfold defineLabel
  rw [isLocalName_toLower]
  split
  · have hwarn := p.folded_warnIf p.scope.isNone (.localOutsideScope name)
    have hwarned : (p.warnIf p.scope.isNone (.localOutsideScope name)).Insensitive := by
      rw [warnIf_eq]
      exact h
    change _ = p.folded.warnIf p.folded.scope.isNone (.localOutsideScope name.toLower)
      at hwarn
    dsimp only
    rw [← hwarn, folded_define, qualify_toLower (p := Pass.folded _) hwarned]
    rfl
  · dsimp only
    rw [folded_define, normalize_toLower (p := p.folded) h]
    rfl

private theorem folded_markInstruction :
    p.markInstruction.folded = p.folded.markInstruction := by
  unfold markInstruction
  rw [round_folded]
  split
  · rfl
  · exact folded_warnIf _ _ _

private theorem folded_moveTo (value : Int32) :
    (p.moveTo value).folded = p.folded.moveTo value := by
  unfold moveTo
  dsimp only
  have hwarn := p.folded_warnIf (value < 0 || 0xFFFF < value) (.originOutOfRange value)
  rw [show WarningKind.folded (.originOutOfRange value) = .originOutOfRange value
    from rfl] at hwarn
  rw [← hwarn]
  rfl

private theorem folded_markBreakpoint :
    p.markBreakpoint.folded = p.folded.markBreakpoint := by
  unfold markBreakpoint
  rw [round_folded]
  split
  · rfl
  · rfl

end Pass

/-! Reading a line. -/

theorem Directive.ofWord?_toLower (word : String) :
    ofWord? word.toLower = ofWord? word := by
  unfold ofWord?
  rw [Text.toLower_toLower]

private theorem beginsStatement_toLower (word : String) :
    beginsStatement word.toLower = beginsStatement word := by
  unfold beginsStatement
  rw [Operation.ofMnemonic?_toLower, Directive.ofWord?_toLower]

open Read

variable {line : Line}

theorem skip_folded (line : Line) : skip line.folded = (skip line).folded := by
  unfold skip Line.folded
  rw [List.map_tail]

private theorem mirrors_ofLex {α β : Type} {f : α → β} {x : Except LexError α}
    {y : Except LexError β} (h : y = x.map f) :
    Mirrors ErrorKind.folded f (ofLex x) (ofLex y) := by
  subst h
  cases x with
  | ok a => exact .ok rfl
  | error e => exact .error rfl

theorem mirrors_next? (line : Line) :
    Mirrors ErrorKind.folded (Option.map (Prod.map Token.folded Line.folded)) (next? line)
      (next? line.folded) :=
  mirrors_ofLex line.next?_folded

theorem mirrors_peek? (line : Line) :
    Mirrors ErrorKind.folded (Option.map Token.folded) (peek? line) (peek? line.folded) :=
  mirrors_ofLex line.peek?_folded

theorem mirrors_complain {α β : Type} {f : α → β} {complaint complaint' : String}
    (h : complaint'.toLower = complaint.toLower) :
    Mirrors ErrorKind.folded f (complain complaint) (complain complaint') :=
  .error (congrArg ErrorKind.malformed h)

private theorem toLower_inQuotes_folded (t : Token) :
    (inQuotes t.folded.describe).toLower = (inQuotes t.describe).toLower := by
  simp only [inQuotes, Text.toLower_append, t.toLower_describe_folded]

private theorem mirrors_expectEnd (line : Line) :
    Mirrors ErrorKind.folded id (expectEnd line) (expectEnd line.folded) := by
  refine (mirrors_next? line).bind fun next? => ?_
  cases next? with
  | none => exact .ok rfl
  | some next =>
      refine mirrors_complain ?_
      rw [Text.toLower_append, Text.toLower_append, toLower_inQuotes_folded]

private theorem mirrors_comma? (line : Line) :
    Mirrors ErrorKind.folded (Option.map Line.folded) (comma? line)
      (comma? line.folded) := by
  refine (mirrors_peek? line).bind fun token? => ?_
  cases token? with
  | none => exact .ok rfl
  | some t =>
      cases t with
      | punct c =>
          dsimp only [Option.map, Token.folded]
          split
          · exact .ok (congrArg some (skip_folded line))
          · exact .ok rfl
      | _ => exact .ok rfl

theorem mirrors_index? (line : Line) :
    Mirrors ErrorKind.folded (Prod.map id Line.folded) (index? line)
      (index? line.folded) := by
  refine (mirrors_comma? line).bind fun rest? => ?_
  cases rest? with
  | none => exact .ok rfl
  | some rest =>
      refine (mirrors_next? rest).bind fun next? => ?_
      cases next? with
      | none => exact .error rfl
      | some next =>
          obtain ⟨t, rest⟩ := next
          cases t with
          | word w =>
              dsimp only [Option.map, Prod.map, Token.folded]
              rw [Text.toLower_toLower]
              split
              · exact .ok rfl
              · split
                · exact .ok rfl
                · exact .error rfl
          | _ => exact .error rfl

private theorem mirrors_shape (enclosure : Expr.Enclosure) (line : Line) :
    Mirrors ErrorKind.folded (Prod.map id Line.folded) (shape enclosure line)
      (shape enclosure line.folded) := by
  cases enclosure with
  | closed =>
      refine (mirrors_index? line).bind fun r => ?_
      obtain ⟨index?, rest⟩ := r
      cases index? with
      | none => exact .ok rfl
      | some index =>
          cases index with
          | x => exact .error rfl
          | y => exact .ok rfl
  | opened =>
      refine (mirrors_index? line).bind fun r => ?_
      obtain ⟨index?, rest⟩ := r
      cases index? with
      | none => exact .error rfl
      | some index =>
          cases index with
          | y => exact .error rfl
          | x =>
              refine (mirrors_next? rest).bind fun next? => ?_
              cases next? with
              | none => exact .error rfl
              | some next =>
                  obtain ⟨t, rest⟩ := next
                  cases t with
                  | punct c =>
                      dsimp only [Option.map, Prod.map, Token.folded]
                      split
                      · rename_i hclose
                        cases hclose
                        exact .ok rfl
                      · rename_i hother
                        split
                        · rename_i hclose
                          cases hclose
                          exact absurd rfl (hother _)
                        · exact .error rfl
                  | _ => exact .error rfl
  | bare =>
      refine (mirrors_index? line).bind fun r => ?_
      obtain ⟨index?, rest⟩ := r
      cases index? with
      | none => exact .ok rfl
      | some index =>
          cases index with
          | x => exact .ok rfl
          | y => exact .ok rfl

def Beginning.folded : Beginning → Beginning
  | .nothing => .nothing
  | .label name rest => .label name.toLower rest.folded
  | .bareLabel name rest => .bareLabel name.toLower rest.folded
  | .assignment name rest => .assignment name.toLower rest.folded
  | .statement => .statement

private theorem mayFollowLabel_folded (token? : Option Token) :
    mayFollowLabel (token?.map Token.folded) = mayFollowLabel token? := by
  cases token? with
  | none => rfl
  | some t =>
      cases t with
      | word w => exact beginsStatement_toLower w
      | _ => rfl

private theorem folded_unknown (word : String) :
    (if isLocalName word.toLower then ErrorKind.unknownDirective word.toLower
      else .unknownMnemonic word.toLower).folded =
    (if isLocalName word then ErrorKind.unknownDirective word
      else .unknownMnemonic word).folded := by
  rw [isLocalName_toLower]
  split
  · exact congrArg ErrorKind.unknownDirective (Text.toLower_toLower word)
  · exact congrArg ErrorKind.unknownMnemonic (Text.toLower_toLower word)

private theorem mirrors_beginning (line : Line) :
    Mirrors ErrorKind.folded Beginning.folded (beginning line)
      (beginning line.folded) := by
  refine (mirrors_next? line).bind fun next? => ?_
  cases next? with
  | none => exact .ok rfl
  | some next =>
      obtain ⟨t, rest⟩ := next
      cases t with
      | word name =>
          have hword : ∀ token? : Option Token, Mirrors ErrorKind.folded Beginning.folded
              (if beginsStatement name then pure .statement
                else if mayFollowLabel token? then pure (.bareLabel name rest)
                else throw (if isLocalName name then .unknownDirective name
                  else .unknownMnemonic name))
              (if beginsStatement name.toLower then pure .statement
                else if mayFollowLabel (token?.map Token.folded) then
                  pure (.bareLabel name.toLower rest.folded)
                else throw (if isLocalName name.toLower
                  then .unknownDirective name.toLower
                  else .unknownMnemonic name.toLower)) := by
            intro token?
            rw [beginsStatement_toLower, mayFollowLabel_folded]
            split
            · exact .ok rfl
            · split
              · exact .ok rfl
              · exact .error (folded_unknown name)
          refine (mirrors_peek? rest).bind fun token? => ?_
          cases token? with
          | none => exact hword none
          | some t =>
              cases t with
              | punct c =>
                  dsimp only [Option.map, Prod.map, Token.folded]
                  split
                  · exact .ok (congrArg (Beginning.label _) (skip_folded rest))
                  · exact .ok (congrArg (Beginning.assignment _) (skip_folded rest))
                  · exact hword (some (.punct c))
              | _ => exact hword (some _)
      | _ => exact mirrors_complain rfl

/-! Actions. -/

section

variable {α β γ δ : Type} {f : α → β} {g : γ → δ}

/-- `y` does in lower case what `x` does, whether or not that fails. -/
def Echoes (f : α → β) (x : Assembling α) (y : Assembling β) : Prop :=
  ∀ p, p.Insensitive → match x p with
    | .ok a p' => p'.Insensitive ∧ y p.folded = .ok (f a) p'.folded
    | .error e p' => ∃ e', y p.folded = .error e' p'.folded ∧ e'.folded = e.folded

namespace Echoes

theorem pure {a : α} {b : β} (h : b = f a) : Echoes f (Pure.pure a) (Pure.pure b) := by
  intro p hp
  rw [h]
  exact ⟨hp, rfl⟩

theorem throw {e e' : ErrorKind} (h : e'.folded = e.folded) :
    Echoes f (MonadExcept.throw e) (MonadExcept.throw e') :=
  fun _ _ => ⟨e', rfl, h⟩

theorem get : Echoes Pass.folded (MonadState.get : Assembling Pass) MonadState.get :=
  fun _ hp => ⟨hp, rfl⟩

theorem lift {x : Except ErrorKind α} {y : Except ErrorKind β}
    (h : Mirrors ErrorKind.folded f x y) :
    Echoes f (liftM x : Assembling α) (liftM y : Assembling β) := by
  intro p hp
  cases x with
  | ok a =>
      obtain rfl : y = .ok (f a) := h
      exact ⟨hp, rfl⟩
  | error e =>
      obtain ⟨e', rfl, he⟩ := h
      exact ⟨e', rfl, he⟩

theorem modify_of {change change' : Pass → Pass}
    (h : ∀ p, p.Insensitive → (change p).flags = p.flags ∧
      (change p).folded = change' p.folded) :
    Echoes id (modify change : Assembling PUnit) (modify change') := by
  intro p hp
  obtain ⟨hflags, hfolded⟩ := h p hp
  refine ⟨(congrArg Flags.caseSensitive hflags).trans hp, ?_⟩
  rw [hfolded]
  rfl

theorem bind {x : Assembling α} {y : Assembling β} {k : α → Assembling γ}
    {k' : β → Assembling δ} (hx : Echoes f x y) (hk : ∀ a, Echoes g (k a) (k' (f a))) :
    Echoes g (x >>= k) (y >>= k') := by
  intro p hp
  have hfirst := hx p hp
  cases hrun : x p with
  | error e p₁ =>
      rw [hrun] at hfirst
      obtain ⟨e', hrun', he⟩ := hfirst
      rw [bind_of_error hrun, bind_of_error hrun']
      exact ⟨e', rfl, he⟩
  | ok a p₁ =>
      rw [hrun] at hfirst
      obtain ⟨hp₁, hrun'⟩ := hfirst
      rw [bind_of_ok hrun, bind_of_ok hrun']
      exact hk a p₁ hp₁

end Echoes

end

private theorem folded_ofExpr (e : Expr.Error) :
    (ErrorKind.ofExpr e).folded = .ofExpr e.folded := by
  cases e with
  | _ => rfl

private theorem operandValue_of_error {p : Pass} {indirect : Bool} {line : Line}
    {f : Expr.Failure} (h : Expr.evalOperand p.context indirect line = .error f) :
    operandValue indirect line p =
      .error (.ofExpr f.error) (p.recordReferences f.asked) := by
  have hget : (get : Assembling Pass) p = .ok p p := rfl
  unfold operandValue
  refine (bind_of_ok hget).trans ?_
  simp only [h]
  rfl

private theorem echoes_operandValue (indirect : Bool) (line : Line) :
    Echoes (Prod.map id Line.folded) (operandValue indirect line)
      (operandValue indirect line.folded) := by
  intro p hp
  have hasked : ∀ {names names' : List String}, names'.map String.toLower =
    names.map String.toLower →
      p.folded.recordReferences names' = (p.recordReferences names).folded := by
    intro names names' h
    rw [p.folded_recordReferences,
      ← Pass.recordReferences_toLower (p := p.folded) hp names, ← h,
      Pass.recordReferences_toLower (p := p.folded) hp]
  have hmirrors := Expr.mirrors_evalOperand (p.context_insensitive hp) indirect line
  cases heval : Expr.evalOperand p.context indirect line with
  | ok r =>
      rw [heval] at hmirrors
      rw [operandValue_eq_ok_iff.2 ⟨r, heval, rfl, rfl⟩]
      refine ⟨(congrArg Flags.caseSensitive (Idle.recordReferences p r.asked).flags).trans
        hp, ?_⟩
      exact operandValue_eq_ok_iff.2
        ⟨r.folded, hmirrors, rfl, (hasked (Expr.map_toLower_map_toLower r.asked)).symm⟩
  | error f =>
      rw [heval] at hmirrors
      obtain ⟨f', heval', hf⟩ := hmirrors
      obtain ⟨herror, hnames⟩ := Expr.Failure.mk.inj hf
      rw [operandValue_of_error heval, operandValue_of_error (p := p.folded) heval',
        hasked hnames]
      refine ⟨_, rfl, ?_⟩
      rw [folded_ofExpr, folded_ofExpr, herror]

theorem echoes_value (line : Line) :
    Echoes (Prod.map id Line.folded) (value line) (value line.folded) :=
  (echoes_operandValue false line).bind fun _ => .pure rfl

private theorem echoes_valueOrZero (line : Line) :
    Echoes (Prod.map id Line.folded) (valueOrZero line) (valueOrZero line.folded) :=
  (echoes_value line).bind fun _ => .pure rfl

def foldedRest (r : AddressingMode × Expr.Value × Line) :
    AddressingMode × Expr.Value × Line :=
  (r.1, r.2.1, r.2.2.folded)

theorem echoes_addressOperand (op : Operation) (modes : ModeSet) (line : Line) :
    Echoes foldedRest (addressOperand op modes line)
      (addressOperand op modes line.folded) := by
  refine (echoes_operandValue modes.hasIndirect line).bind fun r => ?_
  dsimp only [Prod.map, id]
  split
  · exact .pure rfl
  · exact (Echoes.lift (mirrors_shape r.1.enclosure r.2)).bind fun _ => .pure rfl

private theorem echoes_operand (op : Operation) (modes : ModeSet) (line : Line) :
    Echoes foldedRest (operand op modes line) (operand op modes line.folded) := by
  refine (Echoes.lift (mirrors_peek? line)).bind fun token? => ?_
  cases token? with
  | none => exact .pure rfl
  | some t =>
      cases t with
      | punct c =>
          dsimp only [Option.map, Token.folded]
          split
          · rename_i hnone
            cases hnone
          · rw [skip_folded]
            exact (echoes_value (skip line)).bind fun _ => .pure rfl
          · rename_i hword
            cases hword
          · exact echoes_addressOperand op modes line
      | word w =>
          dsimp only [Option.map, Token.folded]
          rw [Text.toLower_toLower, skip_folded, Line.atEnd_folded]
          split
          · exact .pure rfl
          · exact echoes_addressOperand op modes line
      | _ => exact echoes_addressOperand op modes line

private theorem echoes_warnIf (condition : Bool) {kind : WarningKind}
    (h : kind.folded = kind) :
    Echoes id (modify (·.warnIf condition kind) : Assembling PUnit)
      (modify (·.warnIf condition kind)) := by
  refine .modify_of fun p _ => ⟨(Idle.warnIf p condition kind).flags, ?_⟩
  rw [p.folded_warnIf, h]

private theorem echoes_settleBranch (value : Expr.Value) :
    Echoes id (settleBranch value) (settleBranch value) := by
  refine Echoes.get.bind fun p => ?_
  rw [p.round_folded, p.address_folded]
  dsimp only
  split
  · exact (Echoes.throw (f := id) rfl).bind fun _ => .pure rfl
  · exact .pure rfl

private theorem echoes_settle (modes : ModeSet) (mode : AddressingMode)
    (value : Expr.Value) :
    Echoes id (settle modes mode value) (settle modes mode value) := by
  have hpointer : ∀ (mode : AddressingMode) (v : Int32),
      Echoes id
        (do
          if !inZeroPage v && (← MonadState.get).round = .second then
            throw (.zeroPageRequired v)
          return (mode, v) : Assembling (AddressingMode × Int32))
        (do
          if !inZeroPage v && (← MonadState.get).round = .second then
            throw (.zeroPageRequired v)
          return (mode, v)) := by
    intro mode v
    refine Echoes.get.bind fun p => ?_
    rw [p.round_folded]
    split
    · exact (Echoes.throw (f := id) rfl).bind fun _ => .pure rfl
    · exact .pure rfl
  unfold settle
  split
  · exact (echoes_settleBranch _).bind fun _ => .pure rfl
  · exact .pure rfl
  · exact .pure rfl
  · exact .pure rfl
  · exact (echoes_warnIf _ rfl).bind fun _ => .pure rfl
  · exact hpointer _ _
  · exact hpointer _ _
  · exact (echoes_warnIf _ rfl).bind fun _ => .pure rfl

private theorem echoes_placeEntry (op : Operation) (mode : AddressingMode) (value : Int32)
    (found : Option OpcodeEntry) :
    Echoes id (placeEntry op mode value found) (placeEntry op mode value found) := by
  cases found with
  | none => exact .throw rfl
  | some entry =>
      refine .modify_of fun p _ => ⟨(Idle.markInstruction p).flags, ?_⟩
      rw [← p.folded_markInstruction]
      rfl

private theorem echoes_instruction (op : Operation) (line : Line) :
    Echoes Line.folded (instruction op line) (instruction op line.folded) := by
  refine (echoes_operand op _ line).bind fun r => ?_
  refine Echoes.bind (.modify_of fun p _ => ⟨rfl, rfl⟩) fun _ => ?_
  refine (echoes_settle _ _ _).bind fun settled => ?_
  obtain ⟨mode, v⟩ := settled
  dsimp only [id]
  generalize opcodes.lookup? op mode = found
  exact (echoes_placeEntry op mode v found).bind fun _ => .pure rfl

theorem echoes_valueItem (line : Line) (outside : Int32 → Bool) (item : Int32 → Item) :
    Echoes Line.folded
      (valueOrZero line >>= fun r => do
        modify fun p => (p.warnIf (outside r.1) (.valueOutOfRange r.1)).place (item r.1)
        pure r.2)
      (valueOrZero line.folded >>= fun r => do
        modify fun p => (p.warnIf (outside r.1) (.valueOutOfRange r.1)).place (item r.1)
        pure r.2) := by
  refine (echoes_valueOrZero line).bind fun r => ?_
  refine Echoes.bind (.modify_of fun p _ => ⟨(Idle.warnIf p _ _).flags, ?_⟩) fun _ =>
    .pure rfl
  exact congrArg (·.place (item r.1)) (p.folded_warnIf _ _)

private theorem echoes_byteItem (line : Line) :
    Echoes Line.folded (byteItem line) (byteItem line.folded) := by
  refine (Echoes.lift (mirrors_peek? line)).bind fun token? => ?_
  cases token? with
  | none => exact echoes_valueItem line (!inByteRange ·) .byte
  | some t =>
      cases t with
      | text content =>
          refine Echoes.bind (.modify_of fun p _ => ⟨rfl, rfl⟩) fun _ => ?_
          exact .pure (skip_folded line)
      | _ => exact echoes_valueItem line (!inByteRange ·) .byte

private theorem echoes_wordItem (line : Line) :
    Echoes Line.folded (wordItem line) (wordItem line.folded) :=
  echoes_valueItem line (!inWordRange ·) .word

private theorem echoes_items {item : Line → Assembling Line}
    (h : ∀ line : Line, Echoes Line.folded (item line) (item line.folded)) (n : Nat)
    (line : Line) :
    Echoes Line.folded (items item n line) (items item n line.folded) := by
  induction n generalizing line with
  | zero => exact .pure rfl
  | succ n ih =>
      refine (h line).bind fun rest => ?_
      refine (Echoes.lift (mirrors_comma? rest)).bind fun next? => ?_
      cases next? with
      | none => exact .pure rfl
      | some next => exact ih next

private theorem echoes_directive (d : Directive) (line : Line) :
    Echoes (Prod.map id Line.folded) (directive d line) (directive d line.folded) := by
  have hlength : line.folded.lexemes.length = line.lexemes.length := List.length_map _
  cases d with
  | byte =>
      unfold directive
      rw [hlength]
      exact (echoes_items echoes_byteItem _ line).bind fun _ => .pure rfl
  | word =>
      unfold directive
      rw [hlength]
      exact (echoes_items echoes_wordItem _ line).bind fun _ => .pure rfl
  | origin =>
      refine (echoes_value line).bind fun r => ?_
      obtain ⟨v, rest⟩ := r
      cases v with
      | undefined => exact .throw rfl
      | known v =>
          refine Echoes.bind (.modify_of fun p _ => ⟨?_, p.folded_moveTo v⟩) fun _ =>
            .pure rfl
          rw [p.moveTo_eq]
  | «include» =>
      refine (Echoes.lift (mirrors_next? line)).bind fun next? => ?_
      cases next? with
      | none => exact .throw rfl
      | some next =>
          obtain ⟨t, rest⟩ := next
          cases t with
          | text name => exact .pure rfl
          | _ => exact .throw rfl
  | breakpoint =>
      refine Echoes.bind (.modify_of fun p _ => ⟨?_, p.folded_markBreakpoint⟩) fun _ =>
        .pure rfl
      rw [p.markBreakpoint_eq]

theorem echoes_statement (line : Line) :
    Echoes id (statement line) (statement line.folded) := by
  have hend : ∀ (rest : Line) (file? : Option String),
      Echoes id (do expectEnd rest; pure file? : Assembling (Option String))
        (do expectEnd rest.folded; pure file?) :=
    fun rest file? => (Echoes.lift (mirrors_expectEnd rest)).bind fun _ => .pure rfl
  refine (Echoes.lift (mirrors_next? line)).bind fun next? => ?_
  cases next? with
  | none => exact .pure rfl
  | some next =>
      obtain ⟨t, rest⟩ := next
      cases t with
      | word w =>
          dsimp only [Option.map, Prod.map, Token.folded]
          rw [Operation.ofMnemonic?_toLower, Directive.ofWord?_toLower]
          split
          · exact (echoes_instruction _ rest).bind fun rest => hend rest none
          · exact (echoes_directive _ rest).bind fun r => hend r.2 r.1
          · exact .throw (folded_unknown w)
      | _ => exact .lift (mirrors_complain rfl)

theorem echoes_label (name : String) : Echoes id (label name) (label name.toLower) := by
  unfold label
  rw [isLabelName_toLower]
  split
  · exact .modify_of fun p hp =>
      ⟨(preserved_flags p.flags).defineLabel name rfl, Pass.folded_defineLabel hp name⟩
  · exact .throw (congrArg ErrorKind.invalidLabel (Text.toLower_toLower name))

private theorem echoes_assignment (name : String) (line : Line) :
    Echoes id (assignment name line) (assignment name.toLower line.folded) := by
  unfold assignment
  rw [isLabelName_toLower]
  split
  · refine (echoes_value line).bind fun r => ?_
    refine Echoes.bind (.modify_of fun p _ => ⟨rfl, rfl⟩) fun _ => ?_
    refine (Echoes.lift (mirrors_expectEnd r.2)).bind fun _ => ?_
    obtain ⟨v, rest⟩ := r
    cases v with
    | undefined => exact .pure rfl
    | known v =>
        refine .modify_of fun p hp => ⟨?_, ?_⟩
        · rw [p.define_eq]
        · rw [p.folded_define, Pass.qualify_toLower (p := p.folded) hp]
          rfl
  · exact .throw (congrArg ErrorKind.invalidLabel (Text.toLower_toLower name))

private theorem echoes_readLine (line : Line) :
    Echoes id (readLine line) (readLine line.folded) := by
  refine (Echoes.lift (mirrors_beginning line)).bind fun b => ?_
  cases b with
  | nothing => exact .pure rfl
  | label name rest => exact (echoes_label name).bind fun _ => echoes_statement rest
  | bareLabel name rest =>
      refine Echoes.get.bind fun p => ?_
      rw [p.flags_folded]
      split
      · refine (Echoes.throw (f := id) ?_).bind fun _ =>
          (echoes_label name).bind fun _ => echoes_statement rest
        exact congrArg ErrorKind.missingColon (Text.toLower_toLower name)
      · exact (echoes_label name).bind fun _ => echoes_statement rest
  | assignment name rest => exact (echoes_assignment name rest).bind fun _ => .pure rfl
  | statement => exact echoes_statement line

theorem echoes_assembleLine (l : Location) (text : String) :
    Echoes id (assembleLine l text) (assembleLine l (uncased text)) := by
  refine Echoes.bind (.modify_of fun p _ => ⟨rfl, rfl⟩) fun _ => ?_
  rw [Line.ofString_uncased]
  exact echoes_readLine (.ofString text)

end Breadboard.Assembly
