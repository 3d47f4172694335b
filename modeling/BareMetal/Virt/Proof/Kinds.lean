import BareMetal.Virt.Uvm

/-!
# Which operations memory code performs

The code on page tables reads and writes words, fills pages, and panics (`TableOps`); it allocates
in `new` and `map`, and frees in `unmap` and `free`. `Uvm::load` copies besides. The lemmas below
say this for each function: where `P` holds of such operations, it holds of every operation that
the function can come to.
-/

namespace BareMetal

open Lib

/-- `P` holds of what all code on page tables does. -/
structure TableOps (P : MemOp → Prop) : Prop where
  read : ∀ a, P (.read a)
  write : ∀ a x, P (.write a x)
  fill : ∀ a b n, P (.writeBytes a b n)
  panic : ∀ msg, P (.panic msg)

def MemOp.NoAlloc : MemOp → Prop
  | .alloc => False
  | _ => True

def MemOp.NoFree : MemOp → Prop
  | .dealloc _ => False
  | _ => True

/-- Bytes are not written one by one. -/
def MemOp.NoByte : MemOp → Prop
  | .writeByte .. => False
  | _ => True

theorem tableOps_noAlloc : TableOps MemOp.NoAlloc :=
  ⟨fun _ => trivial, fun _ _ => trivial, fun _ _ _ => trivial, fun _ => trivial⟩

theorem tableOps_noFree : TableOps MemOp.NoFree :=
  ⟨fun _ => trivial, fun _ _ => trivial, fun _ _ _ => trivial, fun _ => trivial⟩

theorem tableOps_noByte : TableOps MemOp.NoByte :=
  ⟨fun _ => trivial, fun _ _ => trivial, fun _ _ _ => trivial, fun _ => trivial⟩

section
variable {P : MemOp → Prop} (h : TableOps P)
include h

namespace M

theorem panic_only {α : Type} (msg : String) : (panic msg : M α).Only P :=
  ⟨h.panic msg, fun e => nomatch e⟩

theorem read_only (a : Nat) : (read a).Only P := Free.only_perform (h.read a)

theorem write_only (a x : Nat) : (write a x).Only P := Free.only_perform (h.write a x)

theorem add_only (a b : Nat) : (add a b).Only P := by
  unfold add
  split
  · trivial
  · exact panic_only h _

/-- A check that panics. -/
theorem check_only {α : Type} {p : Prop} [Decidable p] {msg : String} {f : PUnit → M α}
    (hf : ∀ x, (f x).Only P) : (if p then panic msg >>= f else f ⟨⟩).Only P := by
  split
  · exact Free.only_bind (panic_only h msg) hf
  · exact hf ⟨⟩

theorem unwrap_only {α : Type} (o : Option α) : (unwrap o).Only P := by
  cases o with
  | none => exact panic_only h _
  | some a => trivial

theorem unwrapOk_only (r : Except Unit Unit) : (unwrapOk r).Only P := by
  cases r with
  | error a => exact panic_only h _
  | ok a => trivial

end M

/-! ## Page tables -/

namespace PageTable

theorem new_only (ha : P .alloc) : new.Only P := by
  unfold new
  refine Free.only_bind (Free.only_perform ha) fun ptr => ?_
  exact Free.only_bind (Free.only_perform (h.fill _ _ _)) fun _ => M.check_only h fun _ => trivial

theorem walk_only (t : PageTable) (va : Nat) {w : WalkType} (ha : w = .Alloc → P .alloc) :
    (t.walk va w).Only P := by
  unfold walk
  refine Free.only_bind (M.read_only h _) fun x => Free.only_bind ?_ fun o => ?_
  · unfold walkNext
    split
    · trivial
    split
    · trivial
    · next hw =>
      have hw : w = .Alloc := by
        cases w with
        | Alloc => rfl
        | Walk => exact absurd rfl hw
      refine Free.only_bind (Free.only_perform (ha hw)) fun page => ?_
      split
      · trivial
      · exact Free.only_bind (Free.only_perform (h.fill _ _ _)) fun _ =>
          Free.only_bind (M.write_only h _ _) fun _ => trivial
  · cases o <;> trivial

theorem walkaddr_only (t : PageTable) (va : Nat) : (t.walkaddr va).Only P := by
  unfold walkaddr
  refine Free.only_bind (walk_only h t va fun hw => by cases hw) fun o => ?_
  cases o with
  | none => trivial
  | some a =>
    refine Free.only_bind (M.read_only h _) fun w => ?_
    dsimp only
    split
    · trivial
    · exact Free.only_bind (M.add_only h _ _) fun _ => trivial

theorem map_only (ha : P .alloc) (t : PageTable) (virt phys size perm : Nat) :
    (t.map virt phys size perm).Only P := by
  have hloop : ∀ n va pa, (t.mapLoop perm n va pa).Only P := by
    intro n
    induction n with
    | zero => exact fun _ _ => trivial
    | succ n ih =>
      intro va pa
      refine Free.only_bind (Free.only_bind (walk_only h t va fun _ => ha) fun o => ?_) fun r => ?_
      · cases o with
        | none => trivial
        | some a => exact Free.only_bind (M.write_only h _ _) fun _ => trivial
      · cases r with
        | error e => trivial
        | ok a =>
          exact Free.only_bind (M.add_only h _ _) fun va =>
            Free.only_bind (M.add_only h _ _) fun pa => ih va pa
  unfold map
  exact M.check_only h fun _ => M.check_only h fun _ => M.check_only h fun _ =>
    Free.only_bind (M.add_only h _ _) fun _ => hloop _ _ _

theorem unmap_only (hd : ∀ f, P (.dealloc f)) (t : PageTable) (virt size : Nat) (free : Bool) :
    (t.unmap virt size free).Only P := by
  have hpage : ∀ va, (t.unmapPage free va).Only P := by
    intro va
    unfold unmapPage
    refine Free.only_bind (walk_only h t va fun hw => by cases hw) fun o => ?_
    cases o with
    | none => trivial
    | some a =>
      refine Free.only_bind (M.read_only h _) fun w => ?_
      dsimp only
      split
      · split
        · exact Free.only_bind (Free.only_perform (hd _)) fun _ => M.write_only h _ _
        · exact M.write_only h _ _
      · trivial
  have hloop : ∀ n va, (t.unmapLoop free n va).Only P := by
    intro n
    induction n with
    | zero => exact fun _ => trivial
    | succ n ih =>
      intro va
      exact Free.only_bind (hpage va) fun _ => Free.only_bind (M.add_only h _ _) fun a => ih a
  unfold unmap
  split
  · trivial
  · exact Free.only_bind (hloop _ _) fun _ => trivial

theorem free_only (hd : ∀ f, P (.dealloc f)) (t : PageTable) : t.free.Only P := by
  have hreq : ∀ depth root, (freeReq depth root).Only P := by
    intro depth
    induction depth with
    | zero => exact fun _ => M.panic_only h _
    | succ depth ih =>
      intro root
      unfold freeReq
      refine Free.only_forRange (fun i => Free.only_bind (M.read_only h _) fun w => ?_) 1024
      dsimp only
      split
      · split
        · exact Free.only_bind (M.unwrap_only h _) fun root =>
            Free.only_bind (ih root) fun _ => M.write_only h _ _
        · exact M.panic_only h _
      · trivial
  exact Free.only_bind (hreq _ _) fun _ => Free.only_perform (hd _)

end PageTable

/-! ## Address spaces -/

namespace Uvm

theorem new_only (ha : P .alloc) : new.Only P :=
  Free.only_bind (PageTable.new_only h ha) fun _ => trivial

theorem drop_only (hd : ∀ f, P (.dealloc f)) (u : Uvm) : u.drop.Only P := by
  have hunmap := PageTable.unmap_only h hd u.pagetable
  refine Free.only_bind ?_ fun _ => PageTable.free_only h hd _
  unfold free
  refine Free.only_bind (hunmap _ _ _) fun r => Free.only_bind (M.unwrapOk_only h r) fun _ => ?_
  refine Free.only_bind (hunmap _ _ _) fun r => Free.only_bind (M.unwrapOk_only h r) fun _ => ?_
  split
  · exact Free.only_bind (hunmap _ _ _) fun r => M.unwrapOk_only h r
  · trivial

theorem initProc_only (ha : P .alloc) (c : Cfg) (u : Uvm) (tf : Nat) : (u.initProc c tf).Only P := by
  refine Free.only_bind (PageTable.map_only h ha _ _ _ _ _) fun r => ?_
  cases r with
  | error e => trivial
  | ok a => exact PageTable.map_only h ha _ _ _ _ _

theorem alloc_only (ha : P .alloc) (hd : ∀ f, P (.dealloc f)) (u : Uvm) (size perm : Nat) :
    (u.alloc size perm).Only P := by
  have hloop : ∀ n u, (allocLoop perm n u).Only P := by
    intro n
    induction n with
    | zero => exact fun _ => trivial
    | succ n ih =>
      intro u
      unfold allocLoop
      split
      · exact Free.only_bind (M.add_only h _ _) fun _ => ih _
      refine Free.only_bind (Free.only_perform ha) fun page => ?_
      split
      · trivial
      refine Free.only_bind (M.add_only h _ _) fun e => ?_
      refine Free.only_bind (PageTable.map_only h ha _ _ _ _ _) fun r => ?_
      cases r with
      | error e => exact Free.only_bind (Free.only_perform (hd _)) fun _ => trivial
      | ok a => exact Free.only_bind (M.add_only h _ _) fun _ => ih _
  exact hloop _ u

theorem grow_only (ha : P .alloc) (hd : ∀ f, P (.dealloc f)) (u : Uvm) (size perm : Nat) :
    (u.grow size perm).Only P :=
  Free.only_bind (M.add_only h _ _) fun _ => alloc_only h ha hd u _ _

theorem load_only (hc : ∀ src dst n, P (.copy src dst n)) (u : Uvm) (va : Nat) (img : Slice) :
    (u.load va img).Only P := by
  have hloop : ∀ n va src, (u.loadLoop n va src).Only P := by
    intro n
    induction n with
    | zero => exact fun _ _ => trivial
    | succ n ih =>
      intro va src
      refine Free.only_bind (PageTable.walk_only h _ _ fun hw => by cases hw) fun o => ?_
      cases o with
      | none => trivial
      | some a =>
        refine Free.only_bind (M.read_only h _) fun w => ?_
        refine Free.only_bind (Free.only_perform (h.fill _ _ _)) fun _ => ?_
        refine Free.only_bind (Free.only_perform (hc _ _ _)) fun _ => ?_
        exact Free.only_bind (M.add_only h _ _) fun _ => ih _ _
  unfold load
  split
  · trivial
  · exact hloop _ _ _

end Uvm

end

end BareMetal
