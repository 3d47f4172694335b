import BareMetal.Phys.Layout

/-!
# Address translation in hardware

The Sv32 page-table walk as the processor makes it, on the words in memory. `userLoad` is the
physical address that a load by the user program reads, `userStore` the one that a store writes.
-/

namespace BareMetal

open Lib

namespace Sv32

/-- R, W or X is set: the entry is a leaf. -/
def isLeaf (e : Nat) : Prop := e / 2 % 8 ≠ 0

instance (e : Nat) : Decidable (isLeaf e) := inferInstanceAs (Decidable (_ ≠ _))

/-- The leaf entry for `va` and the physical address it leads to. -/
def walk (m : Bytes) (root va : Nat) : Option (Nat × Nat) :=
  if va < USIZE then
    let e₁ := m.word (root + 4 * (va / 2 ^ 22))
    if e₁ % 2 = 0 then
      none
    else if isLeaf e₁ then
      -- a megapage, which must be aligned
      if e₁ / 2 ^ 10 % 2 ^ 10 = 0 then some (e₁, e₁ / 2 ^ 20 * 2 ^ 22 + va % 2 ^ 22) else none
    else
      let e₀ := m.word (e₁ / 2 ^ 10 * 2 ^ 12 + 4 * (va / 2 ^ 12 % 2 ^ 10))
      if e₀ % 2 = 0 ∨ ¬ isLeaf e₀ then none else some (e₀, e₀ / 2 ^ 10 * 2 ^ 12 + va % 2 ^ 12)
  else
    none

/-- The algorithm of the privileged architecture, `i` levels left and the table at `a`, without the
checks of permissions and of the A and D bits: a physical address of 34 bits. -/
def translationFrom (m : Bytes) (va : Nat) : Nat → Nat → Option Nat
  | 0, _ => none
  | i + 1, a =>
    let pte := m.word (a + 4 * (va / 2 ^ (12 + 10 * i) % 2 ^ 10))
    if pte % 2 = 0 ∨ pte / 2 % 2 = 0 ∧ pte / 4 % 2 = 1 then
      none
    else if pte / 2 % 2 = 1 ∨ pte / 8 % 2 = 1 then
      -- a leaf; a superpage must be aligned
      if pte / 2 ^ 10 % 2 ^ (10 * i) ≠ 0 then none
      else some (pte / 2 ^ (10 + 10 * i) * 2 ^ (12 + 10 * i) + va % 2 ^ (12 + 10 * i))
    else
      translationFrom m va i (pte / 2 ^ 10 * 2 ^ 12)

def translation (m : Bytes) (root va : Nat) : Option Nat := translationFrom m va 2 root

/-- A leaf that may not be written without being read, of a page below 4 GiB. -/
structure LegalLeaf (e : Nat) : Prop where
  leaf : isLeaf e
  legal : e / 4 % 2 = 1 → e / 2 % 2 = 1
  low : e / 2 ^ 10 < 2 ^ 20

/-- A table that the kernel can read, of leaves. -/
structure LeafTable (m : Bytes) (t : Nat) : Prop where
  read : Readable t PAGESIZE
  entry : ∀ j < 1024, m.word (t + 4 * j) % 2 = 0 ∨ LegalLeaf (m.word (t + 4 * j))

/-- A valid root entry that is a leaf. -/
def IsMegapage (m : Bytes) (root i : Nat) : Prop :=
  m.word (root + 4 * i) % 2 = 1 ∧ isLeaf (m.word (root + 4 * i))

/-- A table that the kernel can read: each root entry is invalid, a pointer to a table of leaves, or
an aligned megapage. -/
structure WellFormed (m : Bytes) (root : Nat) : Prop where
  read : Readable root PAGESIZE
  pointer : ∀ i < 1024, m.word (root + 4 * i) % 2 = 1 → ¬ IsMegapage m root i →
    m.word (root + 4 * i) / 2 ^ 10 < 2 ^ 20 ∧ LeafTable m (m.word (root + 4 * i) / 2 ^ 10 * 2 ^ 12)
  megapage : ∀ i < 1024, IsMegapage m root i →
    LegalLeaf (m.word (root + 4 * i)) ∧ m.word (root + 4 * i) / 2 ^ 10 % 2 ^ 10 = 0

/-- The physical address that `va` translates to, and the R, W, X and U bits of the entry. -/
def translate (m : Bytes) (root va : Nat) : Option (Nat × Nat) :=
  (walk m root va).map fun (e, pa) => (pa, e / 2 % 16 * 2)

/-- Something is mapped at `va`. -/
def Mapped (m : Bytes) (root va : Nat) : Prop := (walk m root va).isSome

/-- Where a user program's load from `va` reads: the page must have U and R set. -/
def userLoad (m : Bytes) (root va : Nat) : Option Nat :=
  match walk m root va with
  | some (e, pa) => if e / 16 % 2 = 1 ∧ e / 2 % 2 = 1 then some pa else none
  | none => none

/-- Where a user program's store to `va` writes: the page must have U and W set. -/
def userStore (m : Bytes) (root va : Nat) : Option Nat :=
  match walk m root va with
  | some (e, pa) => if e / 16 % 2 = 1 ∧ e / 4 % 2 = 1 then some pa else none
  | none => none

end Sv32

end BareMetal
