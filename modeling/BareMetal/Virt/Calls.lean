import BareMetal.Virt.PageTable
import BareMetal.Virt.Sv32

/-!
# A page table over its life

`PageTable.Reach`: a page table made by `new` and changed by calls of `map` and `unmap` with any
arguments, other code running in between. What is assumed of the allocator is in `TableStep`.
-/

namespace BareMetal

open Lib

/-- Physical memory, and the frames that were handed out for tables. -/
structure TableState where
  phys : Phys
  tables : Finset Nat

/-- One operation. `HEAP_ALLOCATOR.alloc` answers null or a page frame that is not in use as a
table; the methods of `PageTable` allocate nothing but tables. -/
def TableStep (c : Cfg) : (o : MemOp) → TableState → o.Resp → TableState → Prop
  | .alloc, s, f, s' => s.phys.alloc c = (f, s'.phys) ∧ (f ≠ 0 → c.IsFrame f ∧ f ∉ s.tables) ∧
      s'.tables = if f = 0 then s.tables else insert f s.tables
  | o, s, r, s' => Phys.exec c o s.phys = .ok (r, s'.phys) ∧ s'.tables = s.tables

/-- A call that returns `r`. -/
def TableCall {α : Type} (c : Cfg) (p : M α) (s : TableState) (r : α) (s' : TableState) : Prop :=
  ∃ tr, Free.Ends (TableStep c) p s tr r s'

inductive PageTable.Reach (c : Cfg) : PageTable → TableState → Prop
  | new {phys t s} (h : TableCall c PageTable.new ⟨phys, ∅⟩ t s) : Reach c t s
  | map {t s virt phys size perm r s'} (h : Reach c t s) (hv : virt < USIZE)
    (hr : TableCall c (t.map virt phys size perm) s r s') : Reach c t s'
  | unmap {t s virt size free r s'} (h : Reach c t s) (hv : virt < USIZE)
    (hr : TableCall c (t.unmap virt size free) s r s') : Reach c t s'
  | other {t s phys} (h : Reach c t s)
    (hm : ∀ a, pageOf a ∈ s.tables → phys.mem a = s.phys.mem a) : Reach c t ⟨phys, s.tables⟩

/-- The frame of the user page at `va`, if there is one. -/
def userFrame (m : Bytes) (root va : Nat) : Option Nat :=
  match Sv32.walk m root va with
  | some (e, pa) => if e / 16 % 2 = 1 then some (pa % USIZE) else none
  | none => none

/-- The frames of the user pages in `[virt, virt + size)`, page by page. -/
def userFrames (m : Bytes) (root virt size : Nat) : List Nat :=
  (List.range (size / PAGESIZE)).filterMap fun k => userFrame m root (virt + k * PAGESIZE)

/-- `f` is a frame of the page table at `root`: the root itself, or one that an entry of it leads
to. -/
def IsTable (m : Bytes) (root f : Nat) : Prop :=
  f = root ∨ ∃ i < 1024, m.word (root + 4 * i) % 2 = 1 ∧ m.word (root + 4 * i) / 1024 * 4096 = f

end BareMetal
