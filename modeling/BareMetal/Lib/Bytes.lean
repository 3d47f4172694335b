import Mathlib.Data.UInt
import Mathlib.Tactic.Ring

/-!
# Byte-addressed memory

`Bytes`: a memory of bytes, read and written by the byte, by the little-endian 32-bit word
(`word`, `setWord`) and in bulk (`fill`, `copy`, `setBytes`). Every write has one lemma for what
it leaves alone at byte level; words follow from their four bytes (`word_congr`).
-/

namespace Lib

abbrev Bytes := Nat → UInt8

namespace Bytes

variable {m m' : Bytes} {a b n v : Nat}

/-- The 32-bit little-endian word at `a`. -/
def word (m : Bytes) (a : Nat) : Nat :=
  (m a).toNat + 2 ^ 8 * (m (a + 1)).toNat + 2 ^ 16 * (m (a + 2)).toNat +
    2 ^ 24 * (m (a + 3)).toNat

def setByte (m : Bytes) (a : Nat) (c : UInt8) : Bytes := fun x => if x = a then c else m x

def setWord (m : Bytes) (a v : Nat) : Bytes := fun x =>
  if a ≤ x ∧ x < a + 4 then UInt8.ofNat (v / 2 ^ (8 * (x - a))) else m x

/-- `n` bytes from `a` set to `c`. -/
def fill (m : Bytes) (a : Nat) (c : UInt8) (n : Nat) : Bytes := fun x =>
  if a ≤ x ∧ x < a + n then c else m x

/-- The `n` bytes `c 0, c 1, …` placed at `a`. -/
def setBytes (m : Bytes) (a n : Nat) (c : Nat → UInt8) : Bytes := fun x =>
  if a ≤ x ∧ x < a + n then c (x - a) else m x

/-- `n` bytes copied from `src` to `dst` (non-overlapping). -/
def copy (m : Bytes) (src dst n : Nat) : Bytes := m.setBytes dst n fun i => m (src + i)

/-! ## Words -/

theorem word_lt (m : Bytes) (a : Nat) : m.word a < 2 ^ 32 := by
  have h0 := (m a).toNat_lt
  have h1 := (m (a + 1)).toNat_lt
  have h2 := (m (a + 2)).toNat_lt
  have h3 := (m (a + 3)).toNat_lt
  unfold word
  omega

/-- A word is its four bytes. -/
theorem word_congr (h : ∀ i < 4, m (a + i) = m' (a + i)) : m.word a = m'.word a := by
  have h0 := h 0 (by omega)
  have h1 := h 1 (by omega)
  have h2 := h 2 (by omega)
  have h3 := h 3 (by omega)
  simp only [Nat.add_zero] at h0
  simp only [word, h0, h1, h2, h3]

theorem setWord_byte {i : Nat} (hi : i < 4) :
    m.setWord a v (a + i) = UInt8.ofNat (v / 2 ^ (8 * i)) := by
  unfold setWord
  rw [if_pos (by omega), Nat.add_sub_cancel_left]

theorem setWord_ne (h : b < a ∨ a + 4 ≤ b) : m.setWord a v b = m b :=
  if_neg (by omega)

@[simp] theorem word_setWord (hv : v < 2 ^ 32) : (m.setWord a v).word a = v := by
  have h0 : m.setWord a v a = UInt8.ofNat (v / 2 ^ (8 * 0)) :=
    setWord_byte (i := 0) (by omega)
  have h1 : m.setWord a v (a + 1) = UInt8.ofNat (v / 2 ^ (8 * 1)) :=
    setWord_byte (i := 1) (by omega)
  have h2 : m.setWord a v (a + 2) = UInt8.ofNat (v / 2 ^ (8 * 2)) :=
    setWord_byte (i := 2) (by omega)
  have h3 : m.setWord a v (a + 3) = UInt8.ofNat (v / 2 ^ (8 * 3)) :=
    setWord_byte (i := 3) (by omega)
  simp only [word, h0, h1, h2, h3, UInt8.toNat_ofNat']
  omega

theorem word_setWord_ne (h : b + 4 ≤ a ∨ a + 4 ≤ b) : (m.setWord a v).word b = m.word b :=
  word_congr fun i hi => setWord_ne (by omega)

/-! ## Bulk writes -/

theorem setBytes_at {c : Nat → UInt8} {i : Nat} (hi : i < n) : m.setBytes a n c (a + i) = c i := by
  unfold setBytes
  rw [if_pos (by omega), Nat.add_sub_cancel_left]

theorem setBytes_ne {c : Nat → UInt8} (h : b < a ∨ a + n ≤ b) : m.setBytes a n c b = m b :=
  if_neg (by omega)

theorem fill_in {c : UInt8} (h : a ≤ b ∧ b < a + n) : m.fill a c n b = c := if_pos h

theorem fill_ne {c : UInt8} (h : b < a ∨ a + n ≤ b) : m.fill a c n b = m b :=
  if_neg (by omega)

theorem word_fill_zero (h : a ≤ b ∧ b + 4 ≤ a + n) : (m.fill a 0 n).word b = 0 := by
  have hz : ∀ i < 4, m.fill a 0 n (b + i) = 0 := fun i hi => fill_in (by omega)
  have h0 : m.fill a 0 n b = 0 := hz 0 (by omega)
  simp only [word, h0, hz 1 (by omega), hz 2 (by omega), hz 3 (by omega)]
  rfl

theorem setByte_ne {c : UInt8} (h : b ≠ a) : m.setByte a c b = m b := if_neg h

@[simp] theorem setByte_self {c : UInt8} : m.setByte a c a = c := if_pos rfl

end Bytes

end Lib
