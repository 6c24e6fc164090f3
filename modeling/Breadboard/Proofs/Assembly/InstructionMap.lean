import Breadboard.Proofs.Assembly.Truncation
import Breadboard.Proofs.Symbol.LineMap

namespace Breadboard.Assembly

open Read

variable {p p' q : Pass} {event : Event} {line rest : Line} {l : Location} {text : String}
  {file? : Option String} {lines : List Location}

/-! Instructions in a listing. -/

def Event.isInstruction : Event → Bool
  | .place _ (.instruction ..) => true
  | _ => false

/-- Where the instructions of a part of a listing start, in order, and the
lines that they come from. -/
def instructionsIn (entries : List ListingEntry) : List (UInt16 × Location) :=
  entries.filterMap fun e =>
    match e.event with
    | .place addr (.instruction ..) => some (addr, e.location)
    | _ => none

private theorem instructionsIn_append (before after : List ListingEntry) :
    instructionsIn (before ++ after) = instructionsIn before ++ instructionsIn after :=
  List.filterMap_append

private theorem instructionsIn_singleton (l : Location)
    (h : event.isInstruction = false) :
    instructionsIn [⟨l, event⟩] = [] := by
  cases event with
  | place addr item =>
      cases item with
      | instruction => cases h
      | _ => rfl
  | _ => rfl

def WarningKind.ofOverlap : WarningKind → Bool
  | .overlappingCode _ => true
  | _ => false

def overlapsIn (warnings : Array Warning) : Nat :=
  warnings.countP (·.kind.ofOverlap)

private theorem overlapsIn_warn {kind : WarningKind} (h : kind.ofOverlap = false)
    (p : Pass) :
    overlapsIn (p.warn kind).warnings = overlapsIn p.warnings := by
  unfold Pass.warn
  split
  · rfl
  · rw [overlapsIn, Array.countP_push, if_neg (by rw [h]; exact Bool.false_ne_true)]
    rfl

private theorem ofOverlap_of_complaint {key : String} {value : Int32} {kind : SymbolKind}
    {definition : Definition} {complaint : WarningKind}
    (h : p.complaint? key value kind definition = some complaint) :
    complaint.ofOverlap = false := by
  unfold Pass.complaint? at h
  split at h
  · split at h
    · cases h
      rfl
    · cases h
  · split at h
    · obtain ⟨_, -, rfl⟩ := Option.map_eq_some_iff.1 h
      rfl
    · cases h

/-! What a pass does apart from instructions. -/

/-- No instruction is marked, and none is placed. -/
structure Unmarked (p p' : Pass) : Prop where
  round : p'.round = p.round
  line : p'.line = p.line
  lineMap : p'.lineMap = p.lineMap
  entry : p'.entry? = p.entry?
  instructions : instructionsIn p'.listing.toList = instructionsIn p.listing.toList
  overlaps : overlapsIn p'.warnings = overlapsIn p.warnings

namespace Unmarked

theorem refl (p : Pass) : Unmarked p p :=
  ⟨rfl, rfl, rfl, rfl, rfl, rfl⟩

theorem trans (h : Unmarked p q) (h' : Unmarked q p') : Unmarked p p' where
  round := h'.round.trans h.round
  line := h'.line.trans h.line
  lineMap := h'.lineMap.trans h.lineMap
  entry := h'.entry.trans h.entry
  instructions := h'.instructions.trans h.instructions
  overlaps := h'.overlaps.trans h.overlaps

theorem of_record (event : Event)
    (hp' : p' = { p.record event with address := p'.address })
    (h : event.isInstruction = false) : Unmarked p p' := by
  rw [hp']
  refine ⟨rfl, rfl, rfl, rfl, ?_, rfl⟩
  change instructionsIn (p.listing.push ⟨p.line, event⟩).toList = _
  rw [Array.toList_push, instructionsIn_append, instructionsIn_singleton p.line h,
    List.append_nil]

theorem record (p : Pass) (event : Event) (h : event.isInstruction = false) :
    Unmarked p (p.record event) :=
  of_record event rfl h

theorem recordReferences (p : Pass) (names : List String) :
    Unmarked p (p.recordReferences names) := by
  unfold Pass.recordReferences
  induction names generalizing p with
  | nil => exact refl p
  | cons name names ih => exact (record p _ rfl).trans (ih _)

theorem warnIf (p : Pass) (condition : Bool) {kind : WarningKind}
    (h : kind.ofOverlap = false) :
    Unmarked p (p.warnIf condition kind) := by
  have hoverlaps : overlapsIn (p.warnIf condition kind).warnings =
    overlapsIn p.warnings := by
    unfold Pass.warnIf
    split
    · exact overlapsIn_warn h p
    · rfl
  rw [p.warnIf_eq] at hoverlaps ⊢
  exact ⟨rfl, rfl, rfl, rfl, rfl, hoverlaps⟩

theorem place (p : Pass) {item : Item}
    (h : (Event.place p.address item).isInstruction = false) :
    Unmarked p (p.place item) :=
  of_record (.place p.address item) rfl h

theorem moveTo (p : Pass) (value : Int32) : Unmarked p (p.moveTo value) :=
  (warnIf p _ rfl).trans (of_record (.origin value) rfl rfl)

theorem markBreakpoint (p : Pass) : Unmarked p p.markBreakpoint := by
  rw [p.markBreakpoint_eq]
  exact ⟨rfl, rfl, rfl, rfl, rfl, rfl⟩

theorem define (p : Pass) (key : String) (value : Int32) (kind : SymbolKind) :
    Unmarked p (p.define key value kind) := by
  have hoverlaps : overlapsIn (p.define key value kind).warnings =
    overlapsIn p.warnings := by
    unfold Pass.define
    dsimp only
    split
    · rename_i complaint hcomplaint
      exact overlapsIn_warn (ofOverlap_of_complaint hcomplaint) _
    · rfl
  have hlisting := (record p (.define key value kind) rfl).instructions
  rw [p.define_eq] at hoverlaps ⊢
  exact ⟨rfl, rfl, rfl, rfl, hlisting, hoverlaps⟩

theorem defineLabel (p : Pass) (name : String) : Unmarked p (p.defineLabel name) := by
  unfold Pass.defineLabel
  dsimp only
  split
  · exact (warnIf p _ rfl).trans (define _ _ _ _)
  · have hopened : Unmarked p (p.openScope (p.normalize name)) :=
      ⟨rfl, rfl, rfl, rfl, rfl, rfl⟩
    exact hopened.trans (define _ _ _ _)

theorem labelled (p : Pass) (b : Beginning) : Unmarked p (Assembly.labelled p b) := by
  unfold Assembly.labelled
  split
  · exact defineLabel p _
  · exact refl p

end Unmarked

private theorem unmarked_of_valueOrZero {a : Int32 × Line}
    (h : valueOrZero line p = .ok a p') :
    Unmarked p p' := by
  obtain ⟨r, -, -, rfl⟩ := exists_of_valueOrZero h
  exact .recordReferences p r.asked

private theorem unmarked_of_byteItem (h : byteItem line p = .ok rest p') :
    Unmarked p p' := by
  obtain ⟨token?, -, h⟩ := lift_bind_eq_ok_iff.1 h
  split at h
  · cases h
    exact .place p rfl
  · obtain ⟨_, p₁, hvalue, h⟩ := bind_eq_ok_iff.1 h
    cases h
    exact ((unmarked_of_valueOrZero hvalue).trans (.warnIf p₁ _ rfl)).trans (.place _ rfl)

private theorem unmarked_of_wordItem (h : wordItem line p = .ok rest p') :
    Unmarked p p' := by
  obtain ⟨_, p₁, hvalue, h⟩ := bind_eq_ok_iff.1 h
  cases h
  exact ((unmarked_of_valueOrZero hvalue).trans (.warnIf p₁ _ rfl)).trans (.place _ rfl)

private theorem unmarked_of_items {item : Line → Assembling Line}
    (hitem : ∀ {line rest p p'}, item line p = .ok rest p' → Unmarked p p') (n : Nat)
    (h : items item n line p = .ok rest p') : Unmarked p p' := by
  induction n generalizing line p with
  | zero =>
      cases h
      exact .refl _
  | succ n ih =>
      obtain ⟨next, p₁, hfirst, h⟩ := bind_eq_ok_iff.1 h
      obtain ⟨next?, -, h⟩ := lift_bind_eq_ok_iff.1 h
      cases next? with
      | none =>
          cases h
          exact hitem hfirst
      | some next => exact (hitem hfirst).trans (ih h)

private theorem unmarked_of_directive {d : Directive}
    (h : directive d line p = .ok (file?, rest) p') :
    Unmarked p p' := by
  cases d with
  | byte =>
      obtain ⟨_, _, hitems, hpure⟩ := bind_eq_ok_iff.1 h
      cases hpure
      exact unmarked_of_items unmarked_of_byteItem _ hitems
  | word =>
      obtain ⟨_, _, hitems, hpure⟩ := bind_eq_ok_iff.1 h
      cases hpure
      exact unmarked_of_items unmarked_of_wordItem _ hitems
  | origin =>
      obtain ⟨r, v, -, -, -, rfl⟩ := exists_of_origin h
      exact (Unmarked.recordReferences p r.asked).trans (.moveTo _ v)
  | «include» =>
      obtain ⟨next, -, hname⟩ := lift_bind_eq_ok_iff.1 h
      split at hname
      · cases hname
        exact .refl p
      · cases hname
  | breakpoint =>
      cases h
      exact .markBreakpoint p

private theorem unmarked_of_assignment {name : String}
    (h : assignment name line p = .ok () p') :
    Unmarked p p' := by
  obtain ⟨v, rest, p₁, hvalue, rfl⟩ := exists_of_assignment h
  obtain ⟨r, -, -, rfl⟩ := value_eq_ok_iff.1 hvalue
  have hassign : ∀ v, Unmarked p ((p.recordReferences r.asked).record (.assign v)) :=
    fun v => (Unmarked.recordReferences p r.asked).trans (.record _ (.assign v) rfl)
  cases v with
  | undefined => exact hassign .undefined
  | known v => exact (hassign (.known v)).trans (.define _ _ v .value)

private theorem unmarked_of_settle {modes : ModeSet} {mode : AddressingMode}
    {value : Expr.Value} {a : AddressingMode × Int32}
    (h : settle modes mode value p = .ok a p') : Unmarked p p' := by
  obtain ⟨condition, kind, hrange, rfl⟩ := exists_warnIf_of_settle h
  refine .warnIf p condition ?_
  cases kind <;> first | rfl | cases hrange

/-! What a line does. -/

/-- The statement of a line that begins so is what is left of it after its label. -/
def Beginning.statement? (line : Line) : Beginning → Option Line
  | .label _ rest | .bareLabel _ rest => some rest
  | .statement => some line
  | .nothing | .assignment .. => none

def beginsInstruction (line : Line) : Bool :=
  match line.tokens with
  | .word w :: _ => (Operation.ofMnemonic? w).isSome
  | _ => false

/-- Whether there is an instruction on a line. -/
def hasInstruction (line : Line) : Bool :=
  match beginning line with
  | .ok b => (b.statement? line).any beginsInstruction
  | .error _ => false

/-- One instruction is marked and placed at the end, if there is one. -/
inductive Advances (p : Pass) : Bool → Pass → Prop
  | unmarked {p' : Pass} (rest : Unmarked p p') : Advances p false p'
  | marked {q : Pass} (entry : OpcodeEntry) (value : Int32) (rest : Unmarked p q) :
      Advances p true (q.markInstruction.place (.instruction entry value))

theorem Unmarked.advances {marks : Bool} (h : Unmarked p q) (h' : Advances q marks p') :
    Advances p marks p' := by
  cases h' with
  | unmarked rest => exact .unmarked (h.trans rest)
  | marked entry value rest => exact .marked entry value (h.trans rest)

private theorem advances_of_instruction {op : Operation}
    (h : instruction op line p = .ok rest p') :
    Advances p true p' := by
  obtain ⟨mode, value, p₁, mode', v, p₂, entry, hoperand, hsettle, -, rfl⟩ :=
    instruction_eq_ok_iff.1 h
  obtain ⟨names, rfl⟩ := exists_recordReferences_of_operand hoperand
  have hread := (Unmarked.recordReferences p names).trans
    (.record _ (.operand op mode value) rfl)
  exact .marked entry v (hread.trans (unmarked_of_settle hsettle))

private theorem advances_of_statement (h : statement line p = .ok file? p') :
    Advances p (beginsInstruction line) p' := by
  unfold beginsInstruction
  obtain ⟨htokens, -, rfl⟩ | ⟨w, rest, op, rest', htokens, hop, -, hinstruction, -⟩ |
    ⟨w, rest, d, rest', htokens, hop, -, hdirective, -⟩ := statement_eq_ok h
  · rw [htokens]
    exact .unmarked (.refl p')
  · rw [htokens]
    dsimp only
    rw [hop]
    exact advances_of_instruction hinstruction
  · rw [htokens]
    dsimp only
    rw [hop]
    exact .unmarked (unmarked_of_directive hdirective)

private theorem advances_of_afterLabel {b : Beginning}
    (h : afterLabel line b p = .ok file? p') :
    Advances p ((b.statement? line).any beginsInstruction) p' := by
  cases b with
  | nothing =>
      cases h
      exact .unmarked (.refl p)
  | label name rest | bareLabel name rest => exact advances_of_statement h
  | assignment name rest =>
      obtain ⟨_, _, hassignment, hpure⟩ := bind_eq_ok_iff.1 h
      cases hpure
      exact .unmarked (unmarked_of_assignment hassignment)
  | statement => exact advances_of_statement h

private theorem advances_of_assembleLine (h : assembleLine l text p = .ok file? p') :
    Advances (p.enterLine l) (hasInstruction (.ofString text)) p' := by
  obtain ⟨b, hbeginning, hrest⟩ := exists_of_assembleLine h
  unfold hasInstruction
  rw [hbeginning]
  exact (Unmarked.labelled (p.enterLine l) b).advances (advances_of_afterLabel hrest)

/-! What is mapped. -/

theorem markInstruction_of_second (h : p.round = .second) : p.markInstruction = { p with
    lineMap := p.lineMap.insert p.address p.line
    entry? := p.entry?.or (some p.address)
    warnings :=
      if p.lineMap.contains p.address then
        p.warnings.push ⟨.overlappingCode p.address, p.line⟩
      else p.warnings } := by
  unfold Pass.markInstruction Pass.warnIf Pass.warn
  rw [h]
  dsimp only
  split <;> rfl

def lastAt (instructions : List (UInt16 × Location)) (addr : UInt16) : Option Location :=
  (instructions.reverse.find? (·.1 = addr)).map Prod.snd

private theorem lastAt_concat (instructions : List (UInt16 × Location))
    (addr addr' : UInt16) (l : Location) :
    lastAt (instructions ++ [(addr, l)]) addr' =
      if addr = addr' then some l else lastAt instructions addr' := by
  unfold lastAt
  rw [List.reverse_append, List.reverse_singleton, List.singleton_append, List.find?_cons]
  by_cases haddr : addr = addr' <;> simp [haddr]

private theorem lastAt_eq_some_iff {instructions : List (UInt16 × Location)}
    {addr : UInt16} :
    lastAt instructions addr = some l ↔ ∃ before after,
      instructions = before ++ (addr, l) :: after ∧ ∀ i ∈ after, i.1 ≠ addr := by
  unfold lastAt
  rw [Option.map_eq_some_iff]
  constructor
  · rintro ⟨⟨addr', l⟩, hfound, rfl⟩
    obtain ⟨haddr, after, before, hsplit, hafter⟩ :=
      List.find?_eq_some_iff_append.1 hfound
    obtain rfl := of_decide_eq_true haddr
    refine ⟨before.reverse, after.reverse, ?_, fun i hi => ?_⟩
    · simpa using congrArg List.reverse hsplit
    · simpa using hafter i (List.mem_reverse.1 hi)
  · rintro ⟨before, after, rfl, hafter⟩
    refine ⟨(addr, l), List.find?_eq_some_iff_append.2 ?_, rfl⟩
    refine ⟨decide_eq_true rfl, after.reverse, before.reverse, by simp, fun i hi => ?_⟩
    simpa using hafter i (List.mem_reverse.1 hi)

private theorem isSome_lastAt_iff {instructions : List (UInt16 × Location)}
    {addr : UInt16} :
    (lastAt instructions addr).isSome ↔ ∃ l, (addr, l) ∈ instructions := by
  simp [lastAt]

/-- A second pass that has come to instructions on these lines has mapped them. -/
structure Mapped (lines : List Location) (p : Pass) : Prop where
  round : p.round = .second
  lines : (instructionsIn p.listing.toList).map Prod.snd = lines
  last : ∀ addr, p.lineMap[addr]? = lastAt (instructionsIn p.listing.toList) addr
  count : (instructionsIn p.listing.toList).length =
    p.lineMap.size + overlapsIn p.warnings
  entry : p.entry? = (instructionsIn p.listing.toList).head?.map Prod.fst

theorem Unmarked.mapped (h : Unmarked p p') (hp : Mapped lines p) : Mapped lines p' := by
  refine ⟨h.round.trans hp.round, ?_, fun addr => ?_, ?_, ?_⟩
  · rw [h.instructions, hp.lines]
  · rw [h.lineMap, h.instructions, hp.last]
  · rw [h.instructions, h.lineMap, h.overlaps, hp.count]
  · rw [h.entry, h.instructions, hp.entry]

namespace Mapped

theorem enterLine (h : Mapped lines p) (l : Location) : Mapped lines (p.enterLine l) := by
  have hmoved : Mapped lines { p with line := l, scope := p.scopes.at? l.file l.line } :=
    ⟨h.round, h.lines, h.last, h.count, h.entry⟩
  exact (Unmarked.record _ _ rfl).mapped hmoved

/-- The step lemma: an instruction is mapped where it is placed, and takes the place
of one that was there. -/
theorem place_markInstruction (h : Mapped lines p) (entry : OpcodeEntry) (value : Int32) :
    Mapped (lines ++ [p.line]) (p.markInstruction.place (.instruction entry value)) := by
  have hmark := markInstruction_of_second h.round
  have hinstructions : instructionsIn
      (p.markInstruction.place (.instruction entry value)).listing.toList =
        instructionsIn p.listing.toList ++ [(p.address, p.line)] := by
    change instructionsIn (Array.toList (p.markInstruction.listing.push _)) = _
    rw [hmark, Array.toList_push, instructionsIn_append]
    rfl
  have hmap : p.markInstruction.lineMap = p.lineMap.insert p.address p.line := by
    rw [hmark]
  have hentry : p.markInstruction.entry? = p.entry?.or (some p.address) := by rw [hmark]
  have hoverlaps : overlapsIn p.markInstruction.warnings =
      overlapsIn p.warnings + if p.lineMap.contains p.address then 1 else 0 := by
    rw [hmark]
    dsimp only
    split
    · exact Array.countP_push
    · rfl
  refine ⟨?_, ?_, fun addr => ?_, ?_, ?_⟩
  · change p.markInstruction.round = _
    rw [hmark]
    exact h.round
  · rw [hinstructions, List.map_append, h.lines]
    rfl
  · change p.markInstruction.lineMap[addr]? = _
    rw [hinstructions, hmap, Std.ExtTreeMap.getElem?_insert, lastAt_concat, h.last]
    simp
  · -- Either the map grows or an overlap is reported.
    change _ = p.markInstruction.lineMap.size + overlapsIn p.markInstruction.warnings
    rw [hinstructions, List.length_append, h.count, hmap, hoverlaps,
      Std.ExtTreeMap.size_insert]
    simp only [List.length_singleton]
    split <;> omega
  · change p.markInstruction.entry? = _
    rw [hinstructions, hentry, h.entry]
    cases instructionsIn p.listing.toList with
    | nil => rfl
    | cons first rest => rfl

theorem advances (h : Mapped lines p) {marks : Bool} (hline : Advances p marks p') :
    Mapped (lines ++ if marks then [p.line] else []) p' := by
  cases hline with
  | unmarked rest =>
      rw [if_neg Bool.false_ne_true, List.append_nil]
      exact rest.mapped h
  | marked entry value rest =>
      rw [if_pos rfl, ← rest.line]
      exact (rest.mapped h).place_markInstruction entry value

end Mapped

def instructionLines (lines : List (Location × String)) : List Location :=
  (lines.filter fun line => hasInstruction (.ofString line.2)).map Prod.fst

private theorem instructionLines_cons (l : Location) (text : String)
    (read : List (Location × String)) :
    instructionLines ((l, text) :: read) =
      (if hasInstruction (.ofString text) then [l] else []) ++ instructionLines read := by
  unfold instructionLines
  rw [List.filter_cons]
  split <;> rfl

/-- The run lemma, by induction on the lines that are read. -/
theorem Mapped.runs {d : Disk} {lib : Library} {read : List (Location × String)}
    {r : PassResult} (h : Runs d lib p read r) (hnone : r.error? = none)
    (hp : Mapped lines p) :
    Mapped (lines ++ instructionLines read) r.pass := by
  induction h generalizing lines with
  | done => rwa [instructionLines, List.filter_nil, List.map_nil, List.append_nil]
  | refused | unopened => cases hnone
  | line next hread goes rest ih =>
      rw [instructionLines_cons, ← List.append_assoc]
      exact ih hnone ((hp.enterLine _).advances (advances_of_assembleLine hread))

private theorem mapped_of_empty (hround : p.round = .second) (hlisting : p.listing = #[])
    (hmap : p.lineMap = ∅) (hwarnings : p.warnings = #[]) (hentry : p.entry? = none) :
    Mapped [] p := by
  refine ⟨hround, ?_, fun addr => ?_, ?_, ?_⟩
  · rw [hlisting]
    rfl
  · rw [hmap, hlisting]
    exact Std.ExtTreeMap.getElem?_empty
  · rw [hlisting, hmap, hwarnings]
    rfl
  · rw [hentry, hlisting]
    rfl

/-- What the line map and the entry point tell of the instructions in the listing, which
are those on the lines in the order in which these are read. -/
structure Accounted (read : List (Location × String)) (asm : Assembly) : Prop where
  lines : (instructionsIn asm.listing.toList).map Prod.snd = instructionLines read
  keys : ∀ addr, addr ∈ asm.lineMap ↔ ∃ l, (addr, l) ∈ instructionsIn asm.listing.toList
  last : ∀ addr l, asm.lineMap[addr]? = some l ↔ ∃ before after,
    instructionsIn asm.listing.toList = before ++ (addr, l) :: after ∧
      ∀ i ∈ after, i.1 ≠ addr
  count : (instructionsIn asm.listing.toList).length =
    asm.lineMap.size + overlapsIn asm.warnings
  entry : asm.entry? = (instructionsIn asm.listing.toList).head?.map Prod.fst
  found : ∀ file line, asm.lineMap.Finds file line (asm.addressOf? file line)

private theorem Mapped.accounted {read : List (Location × String)}
    (h : Mapped (instructionLines read) p) :
    Accounted read (ofPass p) := by
  have hlast : ∀ addr, (ofPass p).lineMap[addr]? =
    lastAt (instructionsIn p.listing.toList) addr :=
    h.last
  refine ⟨h.lines, fun addr => ?_, fun addr l => ?_, h.count,
    h.entry, fun file line => ?_⟩
  · rw [← Std.ExtTreeMap.isSome_getElem?_iff_mem, hlast]
    exact isSome_lastAt_iff
  · rw [hlast]
    exact lastAt_eq_some_iff
  · exact LineMap.finds_find? p.lineMap file line

end Breadboard.Assembly

namespace Breadboard.Assembler

open Assembly

variable {a : Assembler} {d : Disk} {root : FileId} {m : Memory} {asm : Assembly}

theorem accounted_of_assemble (h : (a.assemble d root m).1 = .ok asm) :
    ∃ read, Passes d root (a.firstPass d root).library (a.firstPass d root).pass.next read
        (secondPass d root (a.firstPass d root)) ∧ Accounted read asm := by
  obtain ⟨-, hsecond, rfl⟩ := assemble_eq_ok_iff.1 h
  obtain ⟨lib₀, read, hstart, hruns⟩ := exists_runs_of_runPass rfl hsecond
  have hmapped : Mapped [] (a.firstPass d root).pass.next :=
    mapped_of_empty rfl rfl rfl rfl rfl
  exact ⟨read, .opened hstart hruns, (hmapped.runs hruns hsecond).accounted⟩

def overwriting : Assembler :=
  (addText {} "overwriting" ("\n".intercalate
    ["  .org $300", "a: NOP", "  LDA #1", "  .org a", "b: RTS"])).2

theorem accounted_of_assemble_overwriting : ∃ asm,
    (overwriting.assemble {} 0 (.filled 0)).1 = .ok asm ∧
      asm.warnings.map (·.kind) = #[.overlappingCode 0x300] ∧
      asm.addressOf? 0 1 true = none ∧
      asm.addressOf? 0 1 false = some 0x301 ∧ asm.addressOf? 0 3 false = some 0x300 ∧
      ∃ read,
        Passes {} 0 (overwriting.firstPass {} 0).library
          (overwriting.firstPass {} 0).pass.next read
          (secondPass {} 0 (overwriting.firstPass {} 0)) ∧
        Accounted read asm := by
  have hassembled : ∃ asm ∈ (overwriting.assemble {} 0 (.filled 0)).1.toOption,
      asm.warnings.map (·.kind) = #[.overlappingCode 0x300] ∧
        asm.addressOf? 0 1 true = none ∧
        asm.addressOf? 0 1 false = some 0x301 ∧ asm.addressOf? 0 3 false =
          some 0x300 := by
    decide +kernel
  obtain ⟨asm, hasm, hwarnings, hexact, hnext, hover⟩ := hassembled
  have hok := eq_ok_of_toOption hasm
  exact ⟨asm, hok, hwarnings, hexact, hnext, hover, accounted_of_assemble hok⟩

end Breadboard.Assembler
