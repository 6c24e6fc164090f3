namespace Breadboard

def word (low high : UInt8) : UInt16 :=
  UInt16.ofNat (low.toNat + 256 * high.toNat)

def lowByte (w : UInt16) : UInt8 :=
  UInt8.ofNat (w.toNat % 256)

def highByte (w : UInt16) : UInt8 :=
  UInt8.ofNat (w.toNat / 256)

theorem toNat_word (low high : UInt8) :
    (word low high).toNat = low.toNat + 256 * high.toNat := by
  have := low.toNat_lt
  have := high.toNat_lt
  simp only [word, UInt16.toNat_ofNat']
  omega

theorem toNat_lowByte (w : UInt16) : (lowByte w).toNat = w.toNat % 256 := by
  simp only [lowByte, UInt8.toNat_ofNat']
  omega

theorem toNat_highByte (w : UInt16) : (highByte w).toNat = w.toNat / 256 := by
  have := w.toNat_lt
  simp only [highByte, UInt8.toNat_ofNat']
  omega

@[simp] theorem lowByte_word (low high : UInt8) : lowByte (word low high) = low := by
  have := low.toNat_lt
  rw [← UInt8.toNat_inj, toNat_lowByte, toNat_word]
  omega

@[simp] theorem highByte_word (low high : UInt8) : highByte (word low high) = high := by
  have := low.toNat_lt
  rw [← UInt8.toNat_inj, toNat_highByte, toNat_word]
  omega

@[simp] theorem word_lowByte_highByte (w : UInt16) :
    word (lowByte w) (highByte w) = w := by
  rw [← UInt16.toNat_inj, toNat_word, toNat_lowByte, toNat_highByte]
  omega

structure Memory where
  cells : Vector UInt8 65536
deriving DecidableEq

namespace Memory

def filled (b : UInt8) : Memory :=
  ⟨Vector.replicate 65536 b⟩

def ofFn (f : UInt16 → UInt8) : Memory :=
  ⟨Vector.ofFn fun i => f (UInt16.ofNat i.val)⟩

def get (m : Memory) (a : UInt16) : UInt8 :=
  m.cells.get ⟨a.toNat, a.toNat_lt⟩

def set (m : Memory) (a : UInt16) (b : UInt8) : Memory :=
  ⟨m.cells.set a.toNat b a.toNat_lt⟩

@[simp] theorem get_filled (b : UInt8) (a : UInt16) : (filled b).get a = b := by
  simp [get, filled, Vector.get]

@[simp] theorem get_ofFn (f : UInt16 → UInt8) (a : UInt16) : (ofFn f).get a = f a := by
  have h := Vector.getElem_ofFn (f := fun i : Fin 65536 => f (UInt16.ofNat i.val))
    a.toNat_lt
  simp only [UInt16.ofNat_toNat] at h
  exact h

theorem get_set (m : Memory) (a c : UInt16) (b : UInt8) :
    (m.set a b).get c = if a = c then b else m.get c := by
  have hc : c.toNat < 65536 := c.toNat_lt
  have h : (m.cells.set a.toNat b a.toNat_lt)[c.toNat] = _ :=
    Vector.getElem_set a.toNat_lt hc
  simp only [UInt16.toNat_inj] at h
  exact h

@[simp] theorem get_set_self (m : Memory) (a : UInt16) (b : UInt8) :
    (m.set a b).get a = b := by
  simp [get_set]

theorem get_set_ne (m : Memory) {a c : UInt16} (b : UInt8) (h : a ≠ c) :
    (m.set a b).get c = m.get c := by
  simp [get_set, h]

theorem ext {m n : Memory} (h : ∀ a, m.get a = n.get a) : m = n := by
  cases m
  cases n
  congr 1
  refine Vector.ext fun i hi => ?_
  have := h (UInt16.ofNat i)
  simpa [get, Vector.get, Nat.mod_eq_of_lt hi] using this

def getWord (m : Memory) (a : UInt16) : UInt16 :=
  word (m.get a) (m.get (a + 1))

def setWord (m : Memory) (a w : UInt16) : Memory :=
  (m.set a (lowByte w)).set (a + 1) (highByte w)

/-- The pointer at an address of page zero. Its high byte stays in page zero. -/
def getZeroPageWord (m : Memory) (a : UInt8) : UInt16 :=
  word (m.get a.toUInt16) (m.get (a + 1).toUInt16)

/-- The word at an address, its high byte taken from the same page. -/
def getWordInPage (m : Memory) (a : UInt16) : UInt16 :=
  word (m.get a) (m.get (word (lowByte a + 1) (highByte a)))

def load (m : Memory) (a : UInt16) : List UInt8 → Memory
  | [] => m
  | b :: bs => (m.set a b).load (a + 1) bs

/-- At most `n` bytes from an address on, up to the first that is zero. -/
def stringUpTo (m : Memory) : Nat → UInt16 → List UInt8
  | 0, _ => []
  | n + 1, a => if m.get a = 0 then [] else m.get a :: m.stringUpTo n (a + 1)

def string (m : Memory) (a : UInt16) : List UInt8 :=
  m.stringUpTo 65536 a

def toList (m : Memory) : List UInt8 :=
  m.cells.toList

/-- A memory is not shown byte by byte. -/
def describe (_ : Memory) : String :=
  "Memory \x7b .. \x7d"

end Memory

inductive Fill
  | zeroed
  | known (value : UInt8)
  | seeded (seed : UInt64)
deriving DecidableEq, Repr, Inhabited

namespace Fill

/-- The `n`th word of the stream of a seed. Each step is invertible, so different seeds
differ in the first word. -/
def streamWord (seed : UInt64) (n : Nat) : UInt64 :=
  let z := seed + UInt64.ofNat (n + 1) * 0x9E3779B97F4A7C15
  let z := (z ^^^ (z >>> 30)) * 0xBF58476D1CE4E5B9
  let z := (z ^^^ (z >>> 27)) * 0x94D049BB133111EB
  z ^^^ (z >>> 31)

def streamByte (seed : UInt64) (a : UInt16) : UInt8 :=
  (streamWord seed (a.toNat / 8) >>> UInt64.ofNat (8 * (a.toNat % 8))).toUInt8

def memory : Fill → Memory
  | .zeroed => .filled 0
  | .known value => .filled value
  | .seeded seed => .ofFn (streamByte seed)

def describe : Fill → String
  | .zeroed => "Zeroed"
  | .known value => "Known \x7b value: " ++ toString value.toNat ++ " \x7d"
  | .seeded seed => "Seeded \x7b seed: " ++ toString seed.toNat ++ " \x7d"

end Fill

end Breadboard
