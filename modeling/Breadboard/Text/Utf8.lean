/-!
UTF-8. A byte sequence is read as units, each of which is a character or a maximal piece
that begins no character; the lossy reading shows such a piece as one replacement
character.
-/

namespace Breadboard.Text

def encodeUtf8 (text : String) : List UInt8 :=
  text.toList.flatMap String.utf8EncodeChar

/-- What a leading byte announces: the bounds of the byte after it, how many more bytes
follow that one, and the bits it contributes itself. -/
structure Lead where
  low : UInt8
  high : UInt8
  more : Nat
  bits : Nat

/-- The bounds of the second byte exclude overlong forms, surrogates and values
past the last character. -/
def lead? (b : UInt8) : Option Lead :=
  if b < 0xC2 then none
  else if b < 0xE0 then some ⟨0x80, 0xBF, 0, b.toNat - 0xC0⟩
  else if b = 0xE0 then some ⟨0xA0, 0xBF, 1, 0⟩
  else if b = 0xED then some ⟨0x80, 0x9F, 1, 0xD⟩
  else if b < 0xF0 then some ⟨0x80, 0xBF, 1, b.toNat - 0xE0⟩
  else if b = 0xF0 then some ⟨0x90, 0xBF, 2, 0⟩
  else if b < 0xF4 then some ⟨0x80, 0xBF, 2, b.toNat - 0xF0⟩
  else if b = 0xF4 then some ⟨0x80, 0x8F, 2, 4⟩
  else none

def continued : Nat → Nat → List UInt8 → Option Char × List UInt8
  | 0, value, rest => (some (Char.ofNat value), rest)
  | _ + 1, _, [] => (none, [])
  | n + 1, value, b :: rest =>
      if 0x80 ≤ b ∧ b ≤ 0xBF then continued n (value * 64 + (b.toNat - 0x80)) rest
      else (none, b :: rest)

def readUnit (b : UInt8) (rest : List UInt8) : Option Char × List UInt8 :=
  if b < 0x80 then (some (Char.ofNat b.toNat), rest)
  else
    match lead? b, rest with
    | none, _ => (none, rest)
    | some _, [] => (none, [])
    | some l, c :: rest =>
        if l.low ≤ c ∧ c ≤ l.high then continued l.more
          (l.bits * 64 + (c.toNat - 0x80)) rest
        else (none, c :: rest)

private theorem length_continued_le (n value : Nat) (bytes : List UInt8) :
    (continued n value bytes).2.length ≤ bytes.length := by
  fun_induction continued n value bytes with
  | case1 => simp
  | case2 => simp
  | case3 _ _ _ _ _ ih => simp only [List.length_cons]; omega
  | case4 => simp

theorem length_readUnit_le (b : UInt8) (rest : List UInt8) :
    (readUnit b rest).2.length ≤ rest.length := by
  unfold readUnit
  split
  · simp
  · split
    · simp
    · simp
    · split
      · have := length_continued_le
        grind
      · simp

/-- The units of a byte sequence, `none` standing for a piece that begins no character. -/
def units : List UInt8 → List (Option Char)
  | [] => []
  | b :: rest =>
      let unit := readUnit b rest
      unit.1 :: units unit.2
termination_by bytes => bytes.length
decreasing_by
  have := length_readUnit_le b rest
  simp only [List.length_cons]
  omega

def decodeUtf8? (bytes : List UInt8) : Option String :=
  ((units bytes).mapM id).map String.ofList

/-- The text of any byte sequence, each piece that begins no character shown as U+FFFD. -/
def decodeUtf8Lossy (bytes : List UInt8) : String :=
  String.ofList ((units bytes).map (·.getD '\uFFFD'))

end Breadboard.Text
