import Breadboard.Proofs.Assembly.Situation
import Breadboard.Proofs.Isa.OpcodeTable

namespace Breadboard.Assembly

variable {p p' : Pass} {l : Location}

private theorem operation_of_misjudged {op : Operation} {line : Line}
    {mode : AddressingMode} (h : Misjudged op line mode p) :
    op = .STX ∧ mode = .absoluteY ∨ op = .STY ∧ mode = .absoluteX := by
  have htable : ∀ e ∈ documented, ∀ mode ∈ AddressingMode.all,
      mode.zeroPageForm? = some e.mode →
        (∀ e' ∈ documented, ¬(e'.op = e.op ∧ e'.mode = mode)) →
          e.op = .STX ∧ mode = .absoluteY ∨ e.op = .STY ∧ mode = .absoluteX := by
    decide +kernel
  obtain ⟨-, hnone, short, hform, hsome⟩ := h
  obtain ⟨e, he⟩ := Option.isSome_iff_exists.1 hsome
  obtain ⟨hmem, rfl, rfl⟩ := holds_opcodes.lookup?_eq_some_iff.1 he
  exact htable e hmem mode mode.mem_all hform (holds_opcodes.lookup?_eq_none_iff.1 hnone)

private theorem assembleLine_of_misjudged {i : InstructionLine} {mode : AddressingMode}
    (h : Misjudged i.op i.rest mode (p.enterLine l)) :
    ∃ p', assembleLine l i.text p = .error (.unsupportedMode i.op mode) p' := by
  obtain ⟨p', hp'⟩ := instruction_of_misjudged h
  rw [i.assembleLine_eq]
  exact ⟨p', bind_of_error hp'⟩

/-- The lines of a program: an instruction, with definitions before and after it. -/
def linesAround (before : List ConstantLine) (i : InstructionLine)
    (after : List ConstantLine) :
    List String :=
  before.map ConstantLine.text ++ i.text :: after.map ConstantLine.text

private theorem flat_linesAround (before after : List ConstantLine)
    (i : InstructionLine) :
    Flat (linesAround before i after) := by
  have hconstant : ∀ (c : ConstantLine) l p file? p',
      assembleLine l c.text p = .ok file? p' → file? = none := by
    intro c l p file? p' h
    obtain ⟨b, hbeginning, hrest⟩ := exists_of_assembleLine h
    rw [c.begins] at hbeginning
    cases hbeginning
    obtain ⟨_, _, -, hrest⟩ := bind_eq_ok_iff.1 hrest
    cases hrest
    rfl
  intro text hmem l p file? p' h
  unfold linesAround at hmem
  rw [List.mem_append, List.mem_cons, List.mem_map, List.mem_map] at hmem
  obtain ⟨c, -, rfl⟩ | rfl | ⟨c, -, rfl⟩ := hmem
  · exact hconstant c l p file? p' h
  · exact (InstructionLine.instruction_of_assembleLine h).1
  · exact hconstant c l p file? p' h

section

variable {before after : List ConstantLine} {i : InstructionLine} {s : Situation}
    {item : Item}

theorem flat_of_splitLines {text : String}
    (h : Text.splitLines text = linesAround before i after) :
    Flat (Text.splitLines text) := by
  rw [h]
  exact flat_linesAround before after i

namespace Situated

theorem exists_readAll_eq (h : Situated s p) (l : Location) (before : List ConstantLine)
    (i : InstructionLine) (after : List ConstantLine) : ∃ l₁ p₁,
    Situated { s with known := learnAll s.flags s.known before } p₁ ∧
      readAll l (linesAround before i after) p =
        readAll l₁ (i.text :: after.map ConstantLine.text) p₁ := by
  obtain ⟨p₁, hbefore, h₁⟩ := h.exists_readAll_constants before l
  refine ⟨{ l with line := l.line + (before.map ConstantLine.text).length }, p₁, h₁, ?_⟩
  unfold linesAround
  rw [readAll_append, bind_of_ok hbefore]

private theorem readAll_of_assembleLine {p₂ : Pass} (h₂ : Situated { s.place item with
      known := learnAll s.flags s.known before } p₂)
    (hline : assembleLine l i.text p = .ok none p₂) :
    ∃ p', readAll l (i.text :: after.map ConstantLine.text) p = .ok () p' ∧
      Situated { s.place item with known := learnAll s.flags s.known (before ++ after) }
        p' := by
  obtain ⟨p', hafter, h'⟩ :=
    h₂.exists_readAll_constants after { l with line := l.line + 1 }
  refine ⟨p', (bind_of_ok hline).trans hafter, ?_⟩
  unfold learnAll
  rw [List.foldl_append]
  exact h'

theorem of_readAll (h : Situated s p)
    (hread : readAll l (linesAround before i after) p = .ok () p') :
    ∃ item l₁ p₁ p₂, Encodes i.op item ∧
      Situated { s with known := learnAll s.flags s.known before } p₁ ∧
      assembleLine l₁ i.text p₁ = .ok none p₂ ∧
      Situated { s.place item with known := learnAll s.flags s.known before } p₂ ∧
      Situated { s.place item with known := learnAll s.flags s.known (before ++ after) }
        p' := by
  obtain ⟨l₁, p₁, h₁, heq⟩ := h.exists_readAll_eq l before i after
  rw [heq] at hread
  obtain ⟨file?, p₂, hline, -⟩ := bind_eq_ok_iff.1 hread
  obtain ⟨item, p₃, hencodes, h₂, hagain, -⟩ := h₁.exists_assembleLine l₁ h₁ id hline
  rw [hline] at hagain
  cases hagain
  have hplaced : Situated { s.place item with known := learnAll s.flags s.known before }
    p₂ := h₂
  obtain ⟨p₄, hall, h₄⟩ := hplaced.readAll_of_assembleLine hline
  rw [hread] at hall
  cases hall
  exact ⟨item, l₁, p₁, p₂, hencodes, h₁, hline, hplaced, h₄⟩

theorem initial (flags : Flags) : Situated
    ⟨flags, .first, SymbolTable.value? builtins, flags.defaultOrigin,
      []⟩ (.initial flags) :=
  ⟨rfl, rfl, rfl, fun _ => rfl, rfl, rfl⟩

theorem next (h : Situated s p) : Situated { s with
    round := .second, address := s.flags.defaultOrigin, placements := [] } p.next where
  flags := h.flags
  round := rfl
  scopes := h.scopes
  symbols := h.symbols
  address := congrArg Flags.defaultOrigin h.flags
  placements := rfl

end Situated

private theorem learnAll_cases (flags : Flags) (constants : List ConstantLine)
    (key : String) :
    (∀ known, learnAll flags known constants key = known key) ∨
      (∃ c ∈ constants, flags.key c.name = key) ∧
        ∃ v, ∀ known, learnAll flags known constants key = some v := by
  induction constants with
  | nil => exact .inl fun _ => rfl
  | cons c constants ih =>
      obtain hsame | ⟨⟨c', hmem, hkey⟩, v, hlast⟩ := ih
      · by_cases hkey : flags.key c.name = key
        · refine .inr ⟨⟨c, List.mem_cons_self, hkey⟩, c.value, fun known => ?_⟩
          exact (hsame _).trans (if_pos hkey)
        · exact .inl fun known => (hsame _).trans (if_neg hkey)
      · exact .inr ⟨⟨c', List.mem_cons_of_mem _ hmem, hkey⟩, v, fun known => hlast _⟩

private theorem learnAll_learnAll (flags : Flags) (known : String → Option Int32)
    (constants : List ConstantLine) :
    learnAll flags (learnAll flags known constants) constants =
      learnAll flags known constants := by
  funext key
  obtain hsame | ⟨-, v, hlast⟩ := learnAll_cases flags constants key
  · exact hsame _
  · rw [hlast, hlast]

private theorem learnAll_of_spare {flags : Flags} {known : String → Option Int32}
    {constants : List ConstantLine}
    (hspare : ∀ c ∈ constants, known (flags.key c.name) = none) {key : String} {v : Int32}
    (h : known key = some v) :
    learnAll flags known constants key = some v := by
  obtain hsame | ⟨⟨c, hmem, rfl⟩, -⟩ := learnAll_cases flags constants key
  · rw [hsame]
    exact h
  · rw [hspare c hmem] at h
    cases h

def EncodedIn (flags : Flags) (known : String → Option Int32) (i : InstructionLine)
    (item : Item) :
    Prop :=
  ∃ l p p', Encodes i.op item ∧
    Situated ⟨flags, .second, known, flags.defaultOrigin, []⟩ p ∧
      assembleLine l i.text p = .ok none p' ∧
      Situated ⟨flags, .second, known,
        flags.defaultOrigin + UInt16.ofNat item.bytes.length,
        [(flags.defaultOrigin, item)]⟩ p'

end

end Breadboard.Assembly

namespace Breadboard.Assembler

open Assembly

variable {flags : Flags} {name text : String} {d : Disk} {m : Memory} {asm : Assembly}
  {before after constants : List ConstantLine} {i : InstructionLine} {item : Item}

/-- The program assembles, and all that it writes is one item. -/
def Writes (a : Assembler) (d : Disk) (m : Memory) (addr : UInt16) (item : Item) : Prop :=
  ∃ asm, (a.assemble d 0 m).1 = .ok asm ∧ (a.assemble d 0 m).2.2 = m.load addr item.bytes

def IsRefused (a : Assembler) (d : Disk) (m : Memory) : Prop :=
  ∃ e, (a.assemble d 0 m).1 = .error e

theorem isRefused_of_not_ok {a : Assembler} (h : ∀ asm, (a.assemble d 0 m).1 ≠ .ok asm) :
    a.IsRefused d m := by
  unfold IsRefused
  cases hresult : (a.assemble d 0 m).1 with
  | error e => exact ⟨e, rfl⟩
  | ok asm => exact absurd hresult (h asm)

abbrev allKnown (flags : Flags) (constants : List ConstantLine) : String → Option Int32 :=
  learnAll flags (SymbolTable.value? builtins) constants

private theorem exists_encodedIn_of_assemble
    (hlines : Text.splitLines text = linesAround before i after)
    (hall : before ++ after = constants)
    (hknown : learnAll flags (allKnown flags constants) before = allKnown flags constants)
    (h : ((ofText flags name text).assemble d 0 m).1 = .ok asm) :
    ∃ item, EncodedIn flags (allKnown flags constants) i item := by
  subst hall
  obtain ⟨p, p', hfirst, hsecond⟩ :=
    exists_of_assemble_ofText (flat_of_splitLines hlines) h
  rw [hlines] at hfirst hsecond
  obtain ⟨_, _, _, _, -, -, -, -, hp⟩ := (Situated.initial flags).of_readAll hfirst
  obtain ⟨item, l, p₁, p₂, hencodes, hp₁, hline, hp₂, -⟩ := hp.next.of_readAll hsecond
  dsimp only [Situation.place] at hp₁ hp₂
  rw [hknown] at hp₁ hp₂
  exact ⟨item, l, p₁, p₂, hencodes, hp₁, hline, hp₂⟩

private theorem writes_of_encodedIn
    (hlines : Text.splitLines text = linesAround before i after)
    (hall : before ++ after = constants)
    (hknown : learnAll flags (allKnown flags constants) before = allKnown flags constants)
    (hencoded : EncodedIn flags (allKnown flags constants) i item) {p : Pass}
    (hfirst : readAll ⟨0, name, 0⟩ (linesAround before i after) (.initial flags) =
      .ok () p) :
    (ofText flags name text).Writes d m flags.defaultOrigin item := by
  subst hall
  obtain ⟨_, _, _, _, -, -, -, -, hp⟩ := (Situated.initial flags).of_readAll hfirst
  obtain ⟨l, p₁, hp₁, heq⟩ := hp.next.exists_readAll_eq ⟨0, name, 0⟩ before i after
  dsimp only [Situation.place] at hp₁
  rw [hknown] at hp₁
  obtain ⟨l', q, q', hencodes, hq, hline', hq'⟩ := hencoded
  obtain ⟨item', p₂, -, hplaced', hline, hplaced⟩ :=
    hp₁.exists_assembleLine l hq id hline'
  -- Both have placed one item at the same address, so the items are the same.
  have hitem : [(flags.defaultOrigin, item')] = [(flags.defaultOrigin, item)] :=
    hplaced'.placements.symm.trans hq'.placements
  cases hitem
  obtain ⟨p', hafter, hp'⟩ :=
    hplaced.exists_readAll_constants after { l with line := l.line + 1 }
  have hsecond : readAll ⟨0, name, 0⟩ (linesAround before i after) p.next = .ok () p' :=
    heq.trans ((bind_of_ok hline).trans hafter)
  have hflat := flat_of_splitLines hlines
  rw [← hlines] at hfirst hsecond
  obtain ⟨hok, hmemory⟩ := assemble_ofText_of_ok (d := d) (m := m) hflat hfirst hsecond
  refine ⟨_, hok, ?_⟩
  rw [hmemory]
  unfold Listing.writeTo
  rw [hp'.placements]
  rfl

private theorem writes_backward
    (hlines : Text.splitLines text = linesAround constants i [])
    (hencoded : EncodedIn flags (allKnown flags constants) i item) :
    (ofText flags name text).Writes d m flags.defaultOrigin item := by
  obtain ⟨l, p, hp, heq⟩ := (Situated.initial flags).exists_readAll_eq ⟨0, name,
    0⟩ constants i []
  have ⟨l', q, q', _, hq, hline', _⟩ := hencoded
  obtain ⟨item', p', -, -, hline, hp'⟩ :=
    hp.exists_assembleLine l hq (fun _ => rfl) hline'
  have hfirst : readAll ⟨0, name, 0⟩ (linesAround constants i []) (.initial flags) =
    .ok () p' :=
    heq.trans (bind_of_ok hline)
  exact writes_of_encodedIn hlines (List.append_nil constants)
    (learnAll_learnAll _ _ _) hencoded hfirst

private theorem writes_forward_or_misjudged
    (hlines : Text.splitLines text = linesAround [] i constants)
    (hspare : ∀ c ∈ constants, builtins.value? (flags.key c.name) = none)
    (hencoded : EncodedIn flags (allKnown flags constants) i item) :
    (ofText flags name text).Writes d m flags.defaultOrigin item ∨
      ∃ mode, Misjudged i.op i.rest mode ((Pass.initial flags).enterLine ⟨0,
        name, 0⟩) := by
  have ⟨l', q, q', _, hq, hline', _⟩ := hencoded
  obtain ⟨item', p', hline, hp'⟩ | hmisjudged :=
    (Situated.initial flags).exists_assembleLine_or_misjudged ⟨0, name, 0⟩ hq rfl
      (learnAll_of_spare hspare) hline'
  · obtain ⟨p'', hafter, -⟩ := hp'.exists_readAll_constants constants ⟨0, name, 1⟩
    have hfirst : readAll ⟨0, name, 0⟩ (linesAround [] i constants) (.initial flags) =
      .ok () p'' :=
      (bind_of_ok hline).trans hafter
    exact .inl (writes_of_encodedIn hlines (List.nil_append constants) rfl
      hencoded hfirst)
  · exact .inr hmisjudged

private theorem assemble_of_misjudged {mode : AddressingMode}
    (hlines : Text.splitLines text = linesAround [] i constants)
    (h : Misjudged i.op i.rest mode ((Pass.initial flags).enterLine ⟨0, name, 0⟩)) :
    ∃ l, ((ofText flags name text).assemble d 0 m).1 =
      .error ⟨.unsupportedMode i.op mode, some l⟩ := by
  obtain ⟨p', hline⟩ := assembleLine_of_misjudged h
  have hfirst : readAll ⟨0, name, 0⟩ (linesAround [] i constants) (.initial flags) =
      .error (.unsupportedMode i.op mode) p' := bind_of_error hline
  have hflat := flat_of_splitLines hlines
  rw [← hlines] at hfirst
  exact assemble_ofText_of_first hflat hfirst

/-- Definitions may stand after the instruction that refers to them, unless that makes the
first pass misjudge its mode. Only two operations have a mode in page zero and not the
mode that is assumed for it. -/
theorem forward_agrees_unless_misjudged {backward forward : String}
    (hbackward : Text.splitLines backward = constants.map ConstantLine.text ++ [i.text])
    (hforward : Text.splitLines forward = i.text :: constants.map ConstantLine.text)
    (hspare : ∀ c ∈ constants, builtins.value? (flags.key c.name) = none) :
    ((∀ mode, ¬Misjudged i.op i.rest mode ((Pass.initial flags).enterLine ⟨0, name, 0⟩)) →
      (∃ item, Encodes i.op item ∧
        (ofText flags name backward).Writes d m flags.defaultOrigin item ∧
        (ofText flags name forward).Writes d m flags.defaultOrigin item) ∨
      (ofText flags name backward).IsRefused d m ∧
      (ofText flags name forward).IsRefused d m) ∧
    ∀ mode, Misjudged i.op i.rest mode ((Pass.initial flags).enterLine ⟨0, name, 0⟩) →
      (i.op = .STX ∧ mode = .absoluteY ∨ i.op = .STY ∧ mode = .absoluteX) ∧
        ∃ l, ((ofText flags name forward).assemble d 0 m).1 =
          .error ⟨.unsupportedMode i.op mode, some l⟩ := by
  have hforward' : Text.splitLines forward = linesAround [] i constants := hforward
  refine ⟨fun hjudged => ?_, fun mode h => ⟨operation_of_misjudged h,
    assemble_of_misjudged hforward h⟩⟩
  by_cases hencoded : ∃ item, EncodedIn flags (allKnown flags constants) i item
  · obtain ⟨item, hencoded⟩ := hencoded
    have hwrites : (ofText flags name backward).Writes d m flags.defaultOrigin item :=
      writes_backward hbackward hencoded
    have hwrites' : (ofText flags name forward).Writes d m flags.defaultOrigin item ∨
        ∃ mode, Misjudged i.op i.rest mode ((Pass.initial flags).enterLine ⟨0,
          name, 0⟩) :=
      writes_forward_or_misjudged hforward hspare hencoded
    have ⟨_, _, _, hencodes, _⟩ := hencoded
    obtain hwrites' | ⟨mode, hmisjudged⟩ := hwrites'
    · exact .inl ⟨item, hencodes, hwrites, hwrites'⟩
    · exact absurd hmisjudged (hjudged mode)
  · refine .inr ⟨isRefused_of_not_ok fun asm hok => hencoded ?_,
      isRefused_of_not_ok fun asm hok => hencoded ?_⟩
    · exact exists_encodedIn_of_assemble hbackward (List.append_nil constants)
        (learnAll_learnAll _ _ _) hok
    · exact exists_encodedIn_of_assemble hforward' (List.nil_append constants) rfl hok

def cell : ConstantLine where
  text := "v = $10"
  name := "v"
  value := 0x10
  rest := ⟨[⟨.word "$10", 4, 7⟩], none⟩
  begins := eq_ok_of_toOption (by decide +kernel)
  named := by decide +kernel
  evaluates ctx := evalOperand_number rfl ctx 4 7

def loading : InstructionLine where
  text := "  LDA v"
  op := .LDA
  mnemonic := "LDA"
  rest := ⟨[⟨.word "v", 6, 7⟩], none⟩
  reads := eq_ok_of_toOption (by decide +kernel)
  names := by decide +kernel
  defines _ h := nomatch h

def storing : InstructionLine where
  text := "  STX v,Y"
  op := .STX
  mnemonic := "STX"
  rest := ⟨[⟨.word "v", 6, 7⟩, ⟨.punct ',', 7, 8⟩, ⟨.word "Y", 8, 9⟩], none⟩
  reads := eq_ok_of_toOption (by decide +kernel)
  names := by decide +kernel
  defines _ h := nomatch h

private theorem assembled_cell :
    ((ofText {} "cell" "v = $10\n  LDA v").assemble {} 0 (.filled 0)).1.toOption.isSome =
      true ∧
      ((ofText {} "cell" "v = $10\n  STX v,Y").assemble {} 0
        (.filled 0)).1.toOption.isSome = true ∧
        ((ofText {} "cell" "  STX v,Y\nv = $10").assemble {} 0 (.filled 0)).1.toOption =
          none := by
  decide +kernel

/-- The first pass takes the forward reference for three bytes, the second
one encodes it in two. -/
theorem forward_agrees_loading :
    Text.splitLines "v = $10\n  LDA v" = [cell].map ConstantLine.text ++ [loading.text] ∧
      Text.splitLines "  LDA v\nv = $10" = loading.text :: [cell].map ConstantLine.text ∧
      (∀ c ∈ [cell], builtins.value? (Flags.key {} c.name) = none) ∧
      ∃ item, Encodes .LDA item ∧
        (ofText {} "cell" "v = $10\n  LDA v").Writes {} (.filled 0) 0x0200 item ∧
        (ofText {} "cell" "  LDA v\nv = $10").Writes {} (.filled 0) 0x0200 item := by
  have hbackward : Text.splitLines "v = $10\n  LDA v" =
      [cell].map ConstantLine.text ++ [loading.text] := by decide +kernel
  have hforward : Text.splitLines "  LDA v\nv = $10" =
      loading.text :: [cell].map ConstantLine.text := by decide +kernel
  have hspare : ∀ c ∈ [cell], builtins.value? (Flags.key {} c.name) = none := by
    decide +kernel
  obtain ⟨hagrees, hrefused⟩ :=
    @forward_agrees_unless_misjudged {} "cell" {} (.filled 0) [cell] loading _ _
      hbackward hforward hspare
  refine ⟨hbackward, hforward, hspare, ?_⟩
  have hjudged : ∀ mode, ¬Misjudged loading.op loading.rest mode
      ((Pass.initial {}).enterLine ⟨0, "cell", 0⟩) := by
    intro mode hmisjudged
    obtain ⟨⟨h, -⟩ | ⟨h, -⟩, -⟩ := hrefused mode hmisjudged
    · cases h
    · cases h
  obtain hsame | ⟨⟨e, herror⟩, -⟩ := hagrees hjudged
  · exact hsame
  · have hok := assembled_cell.1
    rw [herror] at hok
    cases hok

/-- Storing X has a mode indexed by Y in page zero only, and a forward
reference is refused. -/
theorem forward_refused_storing :
    Text.splitLines "v = $10\n  STX v,Y" =
      [cell].map ConstantLine.text ++ [storing.text] ∧
      Text.splitLines "  STX v,Y\nv = $10" =
        storing.text :: [cell].map ConstantLine.text ∧
      builtins.value? (Flags.key {} cell.name) = none ∧
      ¬(ofText {} "cell" "v = $10\n  STX v,Y").IsRefused {} (.filled 0) ∧
      (ofText {} "cell" "  STX v,Y\nv = $10").IsRefused {} (.filled 0) := by
  obtain ⟨-, hsome, hnone⟩ := assembled_cell
  refine ⟨by decide +kernel, by decide +kernel, by decide +kernel, ?_, ?_⟩
  · rintro ⟨e, herror⟩
    rw [herror] at hsome
    cases hsome
  · refine isRefused_of_not_ok fun asm hok => ?_
    rw [hok] at hnone
    cases hnone

end Breadboard.Assembler
