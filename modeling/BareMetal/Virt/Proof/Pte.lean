import BareMetal.Lib.Bits
import BareMetal.Virt.Pte
import Mathlib.Tactic.IntervalCases

/-!
# Decoding entries and addresses

The fields of `Pte.fromUsize` and `VA.fromUsize` as quotients and remainders of the word, the
words the kernel writes (`ptrWord` for a second-level table, `leafWord` for a page), and that
decoding them gives back what was encoded.
-/

namespace BareMetal

open Lib

namespace Pte

variable {w : Nat}

theorem ppn_eq (hw : w < USIZE) : (fromUsize w).ppn = w / 1024 := by
  have h := Bits.and_field_shift w 22 10
  norm_num at h
  have hlt : w < 2 ^ 32 := hw
  simp only [fromUsize, h]
  omega

theorem table_eq (hw : w < USIZE) : (fromUsize w).table = w / 1024 * 4096 % USIZE := by
  rw [table, ppn_eq hw, Nat.shiftLeft_eq]

theorem pa_eq : (fromUsize w).pa = w / 1024 * 4096 % USIZE := by
  have h := Bits.and_field w 22 10
  norm_num at h
  simp only [fromUsize, h, Nat.shiftLeft_eq]
  unfold USIZE at *
  omega

theorem perm_eq : (fromUsize w).perm = w / 2 % 16 * 2 := by
  have h := Bits.and_field w 4 1
  norm_num at h
  simp only [fromUsize, h]

theorem v_eq : (fromUsize w).v = decide (w % 2 = 1) := by
  have h := Bits.one_le_and_bit w 0
  norm_num at h
  simp [fromUsize]
  omega

theorem r_eq : (fromUsize w).r = decide (w / 2 % 2 = 1) := by
  have h := Bits.one_le_and_bit w 1
  simpa [fromUsize] using h

theorem w_eq : (fromUsize w).w = decide (w / 4 % 2 = 1) := by
  have h := Bits.one_le_and_bit w 2
  simpa [fromUsize] using h

theorem x_eq : (fromUsize w).x = decide (w / 8 % 2 = 1) := by
  have h := Bits.one_le_and_bit w 3
  simpa [fromUsize] using h

theorem u_eq : (fromUsize w).u = decide (w / 16 % 2 = 1) := by
  have h := Bits.one_le_and_bit w 4
  simpa [fromUsize] using h

end Pte

theorem VA.fromUsize_vpn1 (va : Nat) : (VA.fromUsize va).vpn1 = va / 2 ^ 22 % 1024 := by
  have h := Bits.and_field_shift va 10 22
  norm_num at h
  simpa [VA.fromUsize] using h

theorem VA.fromUsize_vpn0 (va : Nat) : (VA.fromUsize va).vpn0 = va / 2 ^ 12 % 1024 := by
  have h := Bits.and_field_shift va 10 12
  norm_num at h
  simpa [VA.fromUsize] using h

/-! ## The words the kernel writes -/

/-- The root entry for a second-level table. -/
def ptrWord (t : Nat) : Nat := t / 4 + 1

/-- The leaf entry for a page. -/
def leafWord (f perm : Nat) : Nat := f / 4 + perm + 1

/-- The permissions a mapping may have: any of R, W, X and U. -/
def PermOk (perm : Nat) : Prop := perm < 32 ∧ perm % 2 = 0

/-- A page-aligned address. -/
def Aligned (f : Nat) : Prop := f % PAGESIZE = 0 ∧ f < USIZE

theorem Pte.intoUsize_fromAddr {f : Nat} (hf : Aligned f) :
    Pte.intoUsize { Pte.fromAddr f with v := true } = ptrWord f := by
  obtain ⟨h1, h2⟩ := hf
  have hk : (f &&& 0b11111111111111111111000000000000) >>> 2 = f / 4096 * 1024 := by
    have h := Bits.and_field f 20 12
    norm_num at h
    rw [h, Nat.shiftRight_eq_div_pow]
    unfold USIZE at h2
    omega
  have hw : f / 4096 * 1024 < USIZE := by unfold USIZE at *; omega
  have hb : ∀ k < 10, f / 4096 * 1024 / 2 ^ k % 2 = 0 := by
    intro k hk
    interval_cases k <;> omega
  have hrsw : (Pte.fromUsize (f / 4096 * 1024)).rsw = 0 := by
    have h := Bits.and_field_shift (f / 4096 * 1024) 2 8
    norm_num at h
    simp only [Pte.fromUsize, h]
    omega
  have hd : (Pte.fromUsize (f / 4096 * 1024)).d = false := by
    have h := Bits.one_le_and_bit (f / 4096 * 1024) 7
    rw [hb 7 (by omega)] at h
    simpa [Pte.fromUsize] using h
  have ha : (Pte.fromUsize (f / 4096 * 1024)).a = false := by
    have h := Bits.one_le_and_bit (f / 4096 * 1024) 6
    rw [hb 6 (by omega)] at h
    simpa [Pte.fromUsize] using h
  have hg : (Pte.fromUsize (f / 4096 * 1024)).g = false := by
    have h := Bits.one_le_and_bit (f / 4096 * 1024) 5
    rw [hb 5 (by omega)] at h
    simpa [Pte.fromUsize] using h
  have hu : (Pte.fromUsize (f / 4096 * 1024)).u = false := by
    rw [Pte.u_eq]; simpa using hb 4 (by omega)
  have hx : (Pte.fromUsize (f / 4096 * 1024)).x = false := by
    rw [Pte.x_eq]; simpa using hb 3 (by omega)
  have hw' : (Pte.fromUsize (f / 4096 * 1024)).w = false := by
    rw [Pte.w_eq]; simpa using hb 2 (by omega)
  have hr : (Pte.fromUsize (f / 4096 * 1024)).r = false := by
    rw [Pte.r_eq]; simpa using hb 1 (by omega)
  have hppn : f / 4096 * 1024 / 1024 = f / 4096 := Nat.mul_div_cancel _ (by omega)
  have hmod : f / 4096 * 2 ^ 10 % USIZE = f / 4096 * 2 ^ 10 := Nat.mod_eq_of_lt hw
  simp only [Pte.fromAddr, hk, Pte.intoUsize, Pte.ppn_eq hw, hrsw, hd, ha, hg, hu, hx, hw', hr,
    Bool.toNat_false, Bool.toNat_true, Nat.shiftLeft_eq, Nat.zero_mul, Nat.or_zero, hppn, hmod]
  rw [Bits.or_field (by omega)]
  unfold ptrWord PAGESIZE at *
  omega

theorem ptrWord_or {f perm : Nat} (hf : Aligned f) (hp : PermOk perm) :
    ptrWord f ||| perm = leafWord f perm := by
  obtain ⟨h1, h2⟩ := hf
  obtain ⟨h3, h4⟩ := hp
  have e1 : ptrWord f = f / 4096 * 2 ^ 10 + 1 := by unfold ptrWord PAGESIZE at *; omega
  have hp1 : 1 ||| perm = perm + 1 := by interval_cases perm <;> simp_all
  rw [e1, ← Bits.or_field (by omega : 1 < 2 ^ 10), Nat.or_assoc, hp1, Bits.or_field (by omega)]
  unfold leafWord PAGESIZE at *
  omega

theorem leafWord_ne_zero (f perm : Nat) : leafWord f perm ≠ 0 := by
  unfold leafWord; omega

theorem leafWord_lt {f perm : Nat} (hf : Aligned f) (hp : PermOk perm) :
    leafWord f perm < 2 ^ 32 := by
  unfold leafWord Aligned PermOk USIZE at *; omega

theorem ptrWord_lt {f : Nat} (hf : Aligned f) : ptrWord f < 2 ^ 32 := by
  unfold ptrWord Aligned USIZE at *; omega

theorem ptrWord_decode {t : Nat} (ht : Aligned t) :
    (Pte.fromUsize (ptrWord t)).v = true ∧ (Pte.fromUsize (ptrWord t)).table = t ∧
      (Pte.fromUsize (ptrWord t)).r = false ∧ (Pte.fromUsize (ptrWord t)).w = false ∧
      (Pte.fromUsize (ptrWord t)).x = false := by
  have hlt := ptrWord_lt ht
  obtain ⟨h1, h2⟩ := ht
  rw [Pte.v_eq, Pte.table_eq hlt, Pte.r_eq, Pte.w_eq, Pte.x_eq]
  unfold ptrWord PAGESIZE USIZE at *
  simp only [decide_eq_true_eq, decide_eq_false_iff_not]
  omega

theorem leafWord_decode {f perm : Nat} (hf : Aligned f) (hp : PermOk perm) :
    (Pte.fromUsize (leafWord f perm)).v = true ∧ (Pte.fromUsize (leafWord f perm)).pa = f ∧
      (Pte.fromUsize (leafWord f perm)).table = f ∧
      (Pte.fromUsize (leafWord f perm)).perm = perm := by
  have hlt := leafWord_lt hf hp
  obtain ⟨h1, h2⟩ := hf
  obtain ⟨h3, h4⟩ := hp
  rw [Pte.v_eq, Pte.pa_eq, Pte.table_eq hlt, Pte.perm_eq]
  unfold leafWord PAGESIZE USIZE at *
  simp only [decide_eq_true_eq]
  omega

@[simp] theorem zero_decode : (Pte.fromUsize 0).v = false := by rw [Pte.v_eq]; rfl

end BareMetal
