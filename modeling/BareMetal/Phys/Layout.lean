import BareMetal.Lib.Bytes

/-!
# The physical layout

The constants of `virtmemory.rs`, the addresses the linker script provides (`Cfg`), and the
frames the allocator manages. `usize` is 32 bits wide; addresses are natural numbers.
-/

namespace BareMetal

open Lib

@[irreducible] def PAGESIZE : Nat := 4 * 1024
def RAMSIZE : Nat := 62 * 1024 * 1024
def RAMSTART : Nat := 0x80200000
def RAMEND : Nat := RAMSTART + RAMSIZE
def KERNEL_START : Nat := 0x80200000
def USER_START : Nat := 0x10000
def UART : Nat := 0x10000000
/-- What the linker script leaves for the boot stack, between the image and `ekernel`. -/
def BOOT_STACK : Nat := 0x8000

/-- The first address of the last page: the end of the address space does not fit in 32 bits. -/
def VIRT_END : Nat := 0xffffffff - PAGESIZE + 1
def TRAMPOLINE : Nat := VIRT_END - PAGESIZE
def TRAPFRAME : Nat := TRAMPOLINE - PAGESIZE

/-- One above the largest `usize`. -/
def USIZE : Nat := 2 ^ 32

/-- A byte slice of the kernel image. -/
structure Slice where
  ptr : Nat
  len : Nat

/-- The page an address lies in. -/
def pageOf (a : Nat) : Nat := a / PAGESIZE * PAGESIZE

/-- A status address that `copy_out` writes within one page. -/
def AddrOk (addr : Nat) : Prop := addr = 0 ∨ addr % PAGESIZE + 4 ≤ PAGESIZE

/-- The program as linked, and the parts of it that are not in the repository: the linker's
symbols, the embedded user programs, and the choices of the buddy allocator. -/
structure Cfg where
  /-- `&_trampoline`: the page of the trap vectors. -/
  trampoline : Nat
  etext : Nat
  ekernel : Nat
  /-- `usertrap as *const () as usize`. -/
  usertrap : Nat
  INIT : Slice
  PRIME : Slice
  /-- The frame the buddy allocator picks at a given call, from the frames it holds free. -/
  buddy : Nat → List Nat → Option Nat
  tramp_start : KERNEL_START ≤ trampoline
  tramp_page : trampoline % PAGESIZE = 0
  tramp_end : trampoline + PAGESIZE ≤ RAMEND
  etext_start : KERNEL_START ≤ etext
  etext_page : etext % PAGESIZE = 0
  etext_end : etext ≤ ekernel
  ekernel_page : ekernel % PAGESIZE = 0
  ekernel_end : ekernel ≤ RAMEND
  init_in : etext ≤ INIT.ptr ∧ INIT.ptr + INIT.len + BOOT_STACK ≤ ekernel
  prime_in : etext ≤ PRIME.ptr ∧ PRIME.ptr + PRIME.len + BOOT_STACK ≤ ekernel

/-- The linker script asserts that the trampoline is the last page of the text. -/
def Cfg.Linked (c : Cfg) : Prop := c.trampoline + PAGESIZE = c.etext

/-- The page frames given to the allocator at boot. -/
structure Cfg.IsFrame (c : Cfg) (f : Nat) : Prop where
  page : f % PAGESIZE = 0
  start : c.ekernel ≤ f
  fit : f + PAGESIZE ≤ RAMEND

/-- The kernel's identity map reaches `[a, a + n)`. -/
def Readable (a n : Nat) : Prop := KERNEL_START ≤ a ∧ a + n ≤ RAMEND

/-- The kernel's identity map lets the kernel write `[a, a + n)`: the text is mapped read-only. -/
def Cfg.Writable (c : Cfg) (a n : Nat) : Prop := c.etext ≤ a ∧ a + n ≤ RAMEND

instance (a n : Nat) : Decidable (Readable a n) := inferInstanceAs (Decidable (_ ∧ _))

instance (c : Cfg) (a n : Nat) : Decidable (c.Writable a n) := inferInstanceAs (Decidable (_ ∧ _))

/-! ## Pages -/

theorem PAGESIZE_eq : PAGESIZE = 4096 := by unfold PAGESIZE; rfl

theorem USIZE_eq : USIZE = 2 ^ 32 := rfl

theorem pageOf_eq_of {f a : Nat} (hf : f % PAGESIZE = 0) (h : f ≤ a ∧ a < f + PAGESIZE) :
    pageOf a = f := by
  unfold pageOf PAGESIZE at *
  omega

theorem pageOf_self {f : Nat} (hf : f % PAGESIZE = 0) : pageOf f = f :=
  pageOf_eq_of hf (by unfold PAGESIZE; omega)

theorem pageOf_mod (a : Nat) : pageOf a % PAGESIZE = 0 := Nat.mul_mod_left _ _

theorem pageOf_le (a : Nat) : pageOf a ≤ a ∧ a < pageOf a + PAGESIZE := by
  unfold pageOf PAGESIZE
  omega

namespace Cfg.IsFrame

variable {c : Cfg} {f : Nat}

theorem bound (h : c.IsFrame f) : 0x80200000 ≤ f ∧ f < 0x84000000 := by
  have h1 := c.etext_start
  have h2 := c.etext_end
  have h3 := h.start
  have h4 := h.fit
  unfold KERNEL_START RAMEND RAMSTART RAMSIZE PAGESIZE at *
  omega

theorem writable (h : c.IsFrame f) {a n : Nat} (ha : pageOf a = f)
    (hn : a % PAGESIZE + n ≤ PAGESIZE) : c.Writable a n := by
  have h3 := c.etext_end
  have h4 := h.start
  have h5 := h.fit
  unfold Cfg.Writable pageOf PAGESIZE at *
  omega

theorem readable (h : c.IsFrame f) {a n : Nat} (ha : pageOf a = f)
    (hn : a % PAGESIZE + n ≤ PAGESIZE) : Readable a n := by
  have h1 := h.bound
  have h5 := h.fit
  unfold Readable pageOf PAGESIZE KERNEL_START at *
  omega

end Cfg.IsFrame

end BareMetal
