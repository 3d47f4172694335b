import BareMetal.Proc.Trapframe
import BareMetal.Virt.Uvm

/-!
# Address spaces over their lives

`World`: physical memory with any number of live address spaces and trapframe boxes. A step is one
operation on one of them, run to its end; the operations of different address spaces follow one
another in any order. `account` follows the allocator: the frames that left its free list in the
operations of an address space and have not come back.
-/

namespace BareMetal

structure World where
  phys : Phys
  uvms : Nat → Option Uvm
  account : Nat → Finset Nat
  boxes : Finset Nat

/-- The methods of a `Uvm`, `new`, `clone` and `drop` apart. -/
inductive UvmOp
  | initProc (trapframe : Nat)
  | alloc (size perm : Nat)
  | grow (size perm : Nat)
  | load (va : Nat) (img : Slice)
  | dealloc (size : Nat)

namespace UvmOp

/-- The address space after the call, whether it returned `Ok` or `Err`. -/
def run (c : Cfg) (u : Uvm) : UvmOp → M Uvm
  | .initProc trapframe => do
    let _ ← u.initProc c trapframe
    return u
  | .alloc size perm => return (← u.alloc size perm).2
  | .grow size perm => return (← u.grow size perm).2
  | .load va img => do
    let _ ← u.load va img
    return u
  | .dealloc size => return (← u.dealloc size).2

/-- What the callers ensure: a live trapframe, permission bits, a range below the trapframe's page, a
size not above the current one. -/
def Valid (w : World) (u : Uvm) : UvmOp → Prop
  | .initProc trapframe => trapframe ∈ w.boxes
  | .alloc _ perm => perm < 32 ∧ perm % 2 = 0
  | .grow _ perm => perm < 32 ∧ perm % 2 = 0
  | .load va img => va + img.len ≤ TRAPFRAME
  | .dealloc size => size ≤ u.size

end UvmOp

namespace World

/-- At boot the allocator holds every frame. -/
structure Init (c : Cfg) (w : World) : Prop where
  linked : c.Linked
  nodup : w.phys.free.Nodup
  frames : ∀ f ∈ w.phys.free, c.IsFrame f
  uvms : ∀ k, w.uvms k = none
  account : ∀ k, w.account k = ∅
  boxes : w.boxes = ∅

/-- The frames of address space `k` after an operation of it moved the allocator to `free'`. -/
def charge (w : World) (k : Nat) (free' : List Nat) : Finset Nat :=
  (w.account k ∪ w.phys.free.toFinset) \ free'.toFinset

/-- Operations on address space `k` move memory to `s` and the address space to `u`. -/
def put (w : World) (k : Nat) (u : Option Uvm) (s : Phys) : World where
  phys := s
  uvms := Function.update w.uvms k u
  account := Function.update w.account k (w.charge k s.free)
  boxes := w.boxes

/-- A handle taken for a new address space. -/
def fresh (w : World) (k : Nat) : World :=
  { w with account := Function.update w.account k ∅ }

inductive Step (c : Cfg) (w : World) : World → Prop
  | new {k u s} (hk : w.uvms k = none) (h : Uvm.new.run c w.phys = .ok (u, s)) :
    Step c w ((w.fresh k).put k (some u) s)
  | op {k u u' s} (o : UvmOp) (hk : w.uvms k = some u) (hv : o.Valid w u)
    (h : (o.run c u).run c w.phys = .ok (u', s)) : Step c w (w.put k (some u') s)
  | clone {k k' u u' s} (hk : w.uvms k = some u) (hk' : w.uvms k' = none)
    (h : u.clone.run c w.phys = .ok (u', s)) :
    Step c w ((w.fresh k').put k' (some u') s)
  | drop {k u s} (hk : w.uvms k = some u) (h : u.drop.run c w.phys = .ok ((), s)) :
    Step c w (w.put k none s)
  | box {f s} (h : Trapframe.newIn.run c w.phys = .ok (f, s)) :
    Step c w { w with phys := s, boxes := insert f w.boxes }
  | unbox {f s} (hf : f ∈ w.boxes) (h : (M.dealloc f).run c w.phys = .ok ((), s)) :
    Step c w { w with phys := s, boxes := w.boxes.erase f }

/-- The worlds reached from boot. -/
inductive Reach (c : Cfg) : World → Prop
  | init {w} (h : Init c w) : Reach c w
  | step {w w'} (h : Reach c w) (hs : Step c w w') : Reach c w'

end World

end BareMetal
