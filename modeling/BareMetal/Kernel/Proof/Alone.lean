import BareMetal.Kernel.Ops
import BareMetal.Phys.Logic

/-!
# Kernel code with nothing else running

What kernel code does from one state to another (`K.Ends`) when no interrupt comes: its memory
operations are those of the memory code in it (`lift_ends`), and locks and the heap's own objects
change neither memory nor the kernel's data.
-/

namespace BareMetal

open Lib

/-- The memory operations of a run, each with the memory before it. -/
def memOps (tr : List (KOp × Sys)) : List (MemOp × Phys) :=
  tr.filterMap fun x => match x.1 with
    | .mem o => some (o, x.2.phys)
    | _ => none

theorem memOps_append (tr₁ tr₂ : List (KOp × Sys)) :
    memOps (tr₁ ++ tr₂) = memOps tr₁ ++ memOps tr₂ := List.filterMap_append

/-- The run did nothing to memory or to the kernel's data. -/
structure Idle (tr : List (KOp × Sys)) (s s' : Sys) : Prop where
  ops : memOps tr = []
  phys : s'.phys = s.phys
  data : s'.data = s.data

theorem Idle.refl (s : Sys) : Idle [] s s := ⟨rfl, rfl, rfl⟩

theorem Idle.trans {tr₁ tr₂ : List (KOp × Sys)} {s₁ s₂ s₃ : Sys} (h₁ : Idle tr₁ s₁ s₂)
    (h₂ : Idle tr₂ s₂ s₃) : Idle (tr₁ ++ tr₂) s₁ s₃ where
  ops := by rw [memOps_append, h₁.ops, h₂.ops]; rfl
  phys := h₂.phys.trans h₁.phys
  data := h₂.data.trans h₁.data

/-- The locks `H` are held, and interrupts were `b` before the first of them was taken. -/
structure Locks.Holds (l : Locks) (b : Bool) (H : Finset LockId) : Prop where
  held : l.held = H
  stack : l.interrupt_off_stack = H.card
  sie : l.sie = if H = ∅ then b else false
  prev : H ≠ ∅ → l.interrupt_prev_state = b

section
variable {l : Locks} {b : Bool} {H : Finset LockId} {x : LockId}

theorem Locks.Holds.take (h : l.Holds b H) (hx : x ∉ H) :
    Locks.Holds { l.pushInterruptOff l.sie with held := insert x l.held } b (insert x H) := by
  have hne : insert x H ≠ ∅ := Finset.insert_ne_empty x H
  refine ⟨?_, ?_, (if_neg hne).symm, fun _ => ?_⟩
  · show insert x l.held = _
    rw [h.held]
  · show l.interrupt_off_stack + 1 = _
    rw [h.stack, Finset.card_insert_of_notMem hx]
  · show (if l.interrupt_off_stack = 0 then l.sie else l.interrupt_prev_state) = b
    rw [h.stack, h.sie]
    split
    · next h0 => exact if_pos (Finset.card_eq_zero.1 h0)
    · next h0 => exact h.prev fun hH => h0 (Finset.card_eq_zero.2 hH)

theorem Locks.Holds.give (h : l.Holds b H) (hx : x ∈ H) :
    Locks.Holds { l.popInterruptOff with held := l.held.erase x } b (H.erase x) := by
  have hne : H ≠ ∅ := Finset.ne_empty_of_mem hx
  have hcard : (H.erase x).card = H.card - 1 := Finset.card_erase_of_mem hx
  have hsie := h.sie
  rw [if_neg hne] at hsie
  refine ⟨?_, ?_, ?_, fun _ => h.prev hne⟩
  · show l.held.erase x = _
    rw [h.held]
  · show l.interrupt_off_stack - 1 = _
    rw [h.stack, hcard]
  · show (if l.interrupt_off_stack - 1 = 0 ∧ l.interrupt_prev_state = true then true else l.sie) = _
    rw [h.stack, ← hcard, h.prev hne, hsie]
    by_cases h0 : H.erase x = ∅
    · rw [if_pos h0, h0, Finset.card_empty]
      cases b <;> rfl
    · rw [if_neg h0, if_neg fun hb => h0 (Finset.card_eq_zero.1 hb.1)]

end

namespace K

variable {c : Cfg} {s s' : Sys} {tr : List (KOp × Sys)}

/-- A single operation. -/
theorem perform_ends {o : KOp} {r : o.Resp} (h : Ends c (perform o) s tr r s') :
    KOp.Does c o s r s' ∧ tr = [(o, s)] := by
  cases h with
  | op h hk =>
    obtain ⟨rfl, rfl, rfl⟩ := hk.ret_inv
    exact ⟨h, rfl⟩

theorem acquire_ends {l : LockId} {old : Bool} {r : Unit} (h : Ends c (acquire l old) s tr r s') :
    Idle tr s s' := by
  obtain ⟨⟨t, n, hx⟩, rfl⟩ := perform_ends h
  simp only [KOp.exec] at hx
  split at hx
  · cases hx
  · cases hx
    exact ⟨rfl, rfl, rfl⟩

theorem release_ends {l : LockId} {r : Unit} (h : Ends c (release l) s tr r s') :
    Idle tr s s' := by
  obtain ⟨⟨t, n, hx⟩, rfl⟩ := perform_ends h
  simp only [KOp.exec] at hx
  split at hx
  · cases hx
  · cases hx
    exact ⟨rfl, rfl, rfl⟩

theorem lock_ends {l : LockId} {r : Unit} (h : Ends c (lock l) s tr r s') : Idle tr s s' := by
  obtain ⟨a, s₁, tr₁, tr₂, h1, h2, rfl⟩ := h.bind
  obtain ⟨⟨t, n, hx⟩, rfl⟩ := perform_ends h1
  cases hx
  have h3 := acquire_ends h2
  exact ⟨h3.ops, h3.phys, h3.data⟩

theorem heapUseLoop_ends (n : Nat) : ∀ {s : Sys} {tr : List (KOp × Sys)} {r : Unit},
    Ends c (heapUseLoop n) s tr r s' → Idle tr s s' := by
  induction n with
  | zero =>
    intro s tr r h
    obtain ⟨-, rfl, rfl⟩ := h.ret_inv
    exact .refl s'
  | succ n ih =>
    intro s tr r h
    obtain ⟨u, s₁, tr₁, tr₂, h1, h2, rfl⟩ := h.bind
    obtain ⟨u', s₂, tr₃, tr₄, h3, h4, rfl⟩ := h2.bind
    exact (lock_ends h1).trans ((release_ends h3).trans (ih h4))

theorem heapUse_ends {r : Unit} (h : Ends c heapUse s tr r s') : Idle tr s s' := by
  obtain ⟨n, s₁, tr₁, tr₂, h1, h2, rfl⟩ := h.bind
  obtain ⟨⟨t, k, hx⟩, rfl⟩ := perform_ends h1
  cases hx
  have h3 := heapUseLoop_ends n h2
  exact ⟨h3.ops, h3.phys, h3.data⟩

/-- One memory operation, with the heap's lock around it where the allocator is called. -/
theorem memOp_ends {o : MemOp} {r : o.Resp} (h : Ends c (memOp o) s tr r s') :
    Phys.exec c o s.phys = .ok (r, s'.phys) ∧ memOps tr = [(o, s.phys)] ∧ s'.data = s.data := by
  -- an operation that is not a call of the allocator
  have hmem : ∀ {o : MemOp} {r : o.Resp} {s s' tr}, Ends c (mem o) s tr r s' →
      Phys.exec c o s.phys = .ok (r, s'.phys) ∧ memOps tr = [(o, s.phys)] ∧ s'.data = s.data := by
    intro o r s s' tr h
    obtain ⟨⟨t, n, hx⟩, rfl⟩ := perform_ends h
    simp only [KOp.exec, Sys.execMem] at hx
    split at hx
    · rename_i hp
      cases hx
      exact ⟨hp, rfl, rfl⟩
    · cases hx
  cases o with
  | alloc =>
    obtain ⟨u, s₁, tr₁, tr₂, h1, h2, rfl⟩ := h.bind
    obtain ⟨f, s₂, tr₃, tr₄, h3, h4, rfl⟩ := h2.bind
    obtain ⟨u', s₃, tr₅, tr₆, h5, h6, rfl⟩ := h4.bind
    obtain ⟨rfl, rfl, rfl⟩ := h6.ret_inv
    have hl := lock_ends h1
    obtain ⟨hp, ho, hd⟩ := hmem h3
    have hr := release_ends h5
    refine ⟨?_, ?_, hr.data.trans (hd.trans hl.data)⟩
    · rw [← hl.phys, hr.phys]
      exact hp
    · rw [memOps_append, memOps_append, memOps_append, hl.ops, ho, hr.ops, hl.phys]
      rfl
  | dealloc f =>
    simp only [memOp] at h
    by_cases hf : f = 0
    · rw [if_pos hf] at h
      obtain ⟨e, -⟩ := h.bind
      exact e.elim
    · rw [if_neg hf] at h
      obtain ⟨u, s₁, tr₁, tr₂, h1, h2, rfl⟩ := h.bind
      obtain ⟨f', s₂, tr₃, tr₄, h3, h4, rfl⟩ := h2.bind
      have hl := lock_ends h1
      obtain ⟨hp, ho, hd⟩ := hmem h3
      have hr := release_ends h4
      refine ⟨?_, ?_, hr.data.trans (hd.trans hl.data)⟩
      · rw [← hl.phys, hr.phys]
        exact hp
      · rw [memOps_append, memOps_append, hl.ops, ho, hr.ops, hl.phys]
        rfl
  | read a => exact hmem h
  | write a v => exact hmem h
  | readByte a => exact hmem h
  | writeByte a b => exact hmem h
  | writeBytes a b n => exact hmem h
  | copy src dst n => exact hmem h
  | panic msg => exact hmem h

/-- **Memory code in the kernel** does what it does on memory alone. -/
theorem lift_ends {α : Type} {p : M α} {a : α} (h : Ends c (lift p) s tr a s') :
    M.Ends c p s.phys (memOps tr) a s'.phys ∧ s'.data = s.data := by
  induction p generalizing s tr with
  | ret b =>
    obtain ⟨rfl, rfl, rfl⟩ := h.ret_inv
    exact ⟨.ret _ _, rfl⟩
  | op o k ih =>
    obtain ⟨r, s₁, tr₁, tr₂, h1, h2, rfl⟩ := h.bind
    obtain ⟨he, ho, hd⟩ := memOp_ends h1
    obtain ⟨h3, hd'⟩ := ih r h2
    rw [memOps_append, ho]
    exact ⟨.op he h3, hd'.trans hd⟩

/-! ## Locks -/

theorem lock_takes {l : LockId} {r : Unit} (h : Ends c (lock l) s tr r s') :
    l ∉ s.locks.held ∧ s'.locks.held = insert l s.locks.held ∧
      s'.locks.interrupt_off_stack = s.locks.interrupt_off_stack + 1 := by
  obtain ⟨a, s₁, tr₁, tr₂, h1, h2, -⟩ := h.bind
  obtain ⟨⟨t, n, hx⟩, -⟩ := perform_ends h1
  cases hx
  obtain ⟨⟨t, n, hx⟩, -⟩ := perform_ends h2
  simp only [KOp.exec] at hx
  split at hx
  · cases hx
  · next hl =>
    cases hx
    exact ⟨hl, rfl, rfl⟩

theorem release_gives {l : LockId} {r : Unit} (h : Ends c (release l) s tr r s') :
    s'.locks.held = s.locks.held.erase l ∧
      s'.locks.interrupt_off_stack = s.locks.interrupt_off_stack - 1 := by
  obtain ⟨⟨t, n, hx⟩, -⟩ := perform_ends h
  simp only [KOp.exec] at hx
  split at hx
  · cases hx
  · cases hx
    exact ⟨rfl, rfl⟩

theorem lock_holds {l : LockId} {r : Unit} {b : Bool} {H : Finset LockId}
    (h : Ends c (lock l) s tr r s') (hb : s.locks.Holds b H) : s'.locks.Holds b (insert l H) := by
  obtain ⟨a, s₁, tr₁, tr₂, h1, h2, -⟩ := h.bind
  obtain ⟨⟨t, n, hx⟩, -⟩ := perform_ends h1
  cases hx
  obtain ⟨⟨t, n, hx⟩, -⟩ := perform_ends h2
  simp only [KOp.exec] at hx
  split at hx
  · cases hx
  · next hl =>
    cases hx
    exact hb.take (hb.held ▸ hl)

theorem release_holds {l : LockId} {r : Unit} {b : Bool} {H : Finset LockId}
    (h : Ends c (release l) s tr r s') (hb : s.locks.Holds b H) (hl : l ∈ H) :
    s'.locks.Holds b (H.erase l) := by
  obtain ⟨⟨t, n, hx⟩, -⟩ := perform_ends h
  simp only [KOp.exec] at hx
  split at hx
  · cases hx
  · cases hx
    exact hb.give hl

/-- The locks that are held, and how often the interrupts were turned off, are the same. -/
structure SameLocks (s s' : Sys) : Prop where
  held : s'.locks.held = s.locks.held
  stack : s'.locks.interrupt_off_stack = s.locks.interrupt_off_stack
  holds : ∀ {b H}, s.locks.Holds b H → s'.locks.Holds b H

theorem SameLocks.of_eq (h : s'.locks = s.locks) : SameLocks s s' :=
  ⟨by rw [h], by rw [h], fun hb => by rwa [h]⟩

/-- It is about the locks only. -/
theorem SameLocks.congr {s₁ s₂ : Sys} (h : SameLocks s₁ s₂) (hs : s.locks = s₁.locks)
    (hs' : s'.locks = s₂.locks) : SameLocks s s' :=
  ⟨by rw [hs, hs', h.held], by rw [hs, hs', h.stack], fun hb => hs' ▸ h.holds (hs ▸ hb)⟩

theorem SameLocks.trans {s₁ s₂ s₃ : Sys} (h₁ : SameLocks s₁ s₂) (h₂ : SameLocks s₂ s₃) :
    SameLocks s₁ s₃ := ⟨h₂.1.trans h₁.1, h₂.2.trans h₁.2, fun hb => h₂.3 (h₁.3 hb)⟩

/-- A lock that is taken and given back. -/
theorem locked_same {l : LockId} {u u' : Unit} {s₁ s₂ : Sys} {tr₁ tr₂ : List (KOp × Sys)}
    (h₁ : Ends c (lock l) s tr₁ u s₁) (hp : SameLocks s₁ s₂)
    (h₂ : Ends c (release l) s₂ tr₂ u' s') : SameLocks s s' := by
  obtain ⟨hl, hh, hd⟩ := lock_takes h₁
  obtain ⟨hh', hd'⟩ := release_gives h₂
  refine ⟨?_, ?_, fun {b H} hb => ?_⟩
  · rw [hh', hp.1, hh, Finset.erase_insert hl]
  · rw [hd', hp.2, hd, Nat.add_sub_cancel]
  · have hlH : l ∉ H := hb.held ▸ hl
    have hgive := release_holds h₂ (hp.holds (lock_holds h₁ hb)) (Finset.mem_insert_self l H)
    rwa [Finset.erase_insert hlH] at hgive

theorem mem_same {o : MemOp} {r : o.Resp} (h : Ends c (mem o) s tr r s') : SameLocks s s' := by
  obtain ⟨⟨t, n, hx⟩, -⟩ := perform_ends h
  simp only [KOp.exec, Sys.execMem] at hx
  split at hx
  · cases hx
    exact .of_eq rfl
  · cases hx

theorem memOp_same {o : MemOp} {r : o.Resp} (h : Ends c (memOp o) s tr r s') : SameLocks s s' := by
  cases o with
  | alloc =>
    obtain ⟨u, s₁, tr₁, tr₂, h1, h2, -⟩ := h.bind
    obtain ⟨f, s₂, tr₃, tr₄, h3, h4, -⟩ := h2.bind
    obtain ⟨u', s₃, tr₅, tr₆, h5, h6, -⟩ := h4.bind
    obtain ⟨-, rfl, -⟩ := h6.ret_inv
    exact locked_same h1 (mem_same h3) h5
  | dealloc f =>
    simp only [memOp] at h
    split at h
    · obtain ⟨e, -⟩ := h.bind
      exact e.elim
    · obtain ⟨u, s₁, tr₁, tr₂, h1, h2, -⟩ := h.bind
      obtain ⟨f', s₂, tr₃, tr₄, h3, h4, -⟩ := h2.bind
      exact locked_same h1 (mem_same h3) h4
  | read a => exact mem_same h
  | write a v => exact mem_same h
  | readByte a => exact mem_same h
  | writeByte a b => exact mem_same h
  | writeBytes a b n => exact mem_same h
  | copy src dst n => exact mem_same h
  | panic msg => exact mem_same h

theorem lift_same {α : Type} {p : M α} {a : α} (h : Ends c (lift p) s tr a s') : SameLocks s s' := by
  induction p generalizing s tr with
  | ret b =>
    obtain ⟨-, rfl, -⟩ := h.ret_inv
    exact .of_eq rfl
  | op o k ih =>
    obtain ⟨r, s₁, tr₁, tr₂, h1, h2, -⟩ := h.bind
    exact (memOp_same h1).trans (ih r h2)

/-! ## What can run -/

/-- A free lock can be taken, and given back. -/
theorem lock_can {l : LockId} (h : l ∉ s.locks.held) :
    ∃ tr s', Ends c (lock l) s tr () s' ∧ s'.phys = s.phys ∧ s'.data = s.data ∧
      s'.locks.held = insert l s.locks.held ∧ 1 ≤ s'.locks.interrupt_off_stack := by
  have h1 : KOp.Does c .locks s s.locks s := ⟨0, 0, rfl⟩
  have h2 : KOp.Does c (.acquire l s.locks.sie) s ()
      { s with locks := { s.locks.pushInterruptOff s.locks.sie with
        held := insert l s.locks.held } } := ⟨0, 0, if_neg h⟩
  exact ⟨_, _, .seq (.perform h1) (.perform h2), rfl, rfl, rfl, Nat.le_add_left ..⟩

theorem release_can {l : LockId} (h : 1 ≤ s.locks.interrupt_off_stack) :
    ∃ tr s', Ends c (release l) s tr () s' ∧ s'.phys = s.phys ∧ s'.data = s.data ∧
      s'.locks.held = s.locks.held.erase l := by
  have h1 : KOp.Does c (.release l) s () { s with locks := { s.locks.popInterruptOff with
      held := s.locks.held.erase l } } := ⟨0, 0, if_neg (by omega)⟩
  exact ⟨_, _, .perform h1, rfl, rfl, rfl⟩

theorem mem_can {o : MemOp} {r : o.Resp} {phys : Phys} (h : Phys.exec c o s.phys = .ok (r, phys)) :
    ∃ tr, Ends c (mem o) s tr r { s with phys } := by
  have h1 : KOp.Does c (.mem o) s r { s with phys } := ⟨0, 0, by simp only [KOp.exec, Sys.execMem, h]⟩
  exact ⟨_, .perform h1⟩

/-- The heap's own objects may need nothing. -/
theorem heapUse_can : ∃ tr, Ends c heapUse s tr () s :=
  have h1 : KOp.Does c .any s (0 : Nat) s := ⟨0, 0, rfl⟩
  ⟨_, .seq (.perform h1) (.ret () s)⟩

/-- An operation between taking and giving back the heap's lock. -/
theorem heap_can {o : MemOp} {r : o.Resp} {phys : Phys} {α : Type} {f : o.Resp → α}
    (hh : LockId.heap ∉ s.locks.held) (h : Phys.exec c o s.phys = .ok (r, phys)) :
    ∃ tr s', Ends c (lock .heap >>= fun _ => mem o >>= fun r => release .heap >>= fun _ =>
        pure (f r)) s tr (f r) s' ∧ s'.phys = phys ∧ s'.data = s.data ∧
      LockId.heap ∉ s'.locks.held := by
  obtain ⟨tr₁, s₁, h1, p1, d1, l1, n1⟩ := lock_can (c := c) hh
  rw [← p1] at h
  obtain ⟨tr₂, h2⟩ := mem_can h
  obtain ⟨tr₃, s₃, h3, p3, d3, l3⟩ := release_can (c := c) (s := { s₁ with phys }) (l := .heap) n1
  refine ⟨_, s₃, .seq h1 (.seq h2 (.seq h3 (.ret _ _))), p3, d3.trans d1, ?_⟩
  rw [l3]
  exact Finset.notMem_erase _ _

theorem memOp_can {o : MemOp} {r : o.Resp} {phys : Phys} (hh : LockId.heap ∉ s.locks.held)
    (h : Phys.exec c o s.phys = .ok (r, phys)) :
    ∃ tr s', Ends c (memOp o) s tr r s' ∧ s'.phys = phys ∧ s'.data = s.data ∧
      LockId.heap ∉ s'.locks.held := by
  have hmem : ∀ {o : MemOp} {r : o.Resp}, Phys.exec c o s.phys = .ok (r, phys) →
      ∃ tr s', Ends c (mem o) s tr r s' ∧ s'.phys = phys ∧ s'.data = s.data ∧
        LockId.heap ∉ s'.locks.held := fun h => by
    obtain ⟨tr, he⟩ := mem_can h
    exact ⟨tr, _, he, rfl, rfl, hh⟩
  cases o with
  | alloc => exact heap_can (f := fun r => r) hh h
  | dealloc f =>
    simp only [memOp]
    by_cases hf : f = 0
    · simp only [Phys.exec, if_pos hf] at h
      cases h
    · rw [if_neg hf]
      exact heap_can (f := fun r => r) hh h
  | read a => exact hmem h
  | write a v => exact hmem h
  | readByte a => exact hmem h
  | writeByte a b => exact hmem h
  | writeBytes a b n => exact hmem h
  | copy src dst n => exact hmem h
  | panic msg => exact hmem h

/-- Memory code that runs on memory alone can run in the kernel. -/
theorem lift_can {α : Type} {p : M α} {a : α} {phys : Phys} (hh : LockId.heap ∉ s.locks.held)
    (h : p.run c s.phys = .ok (a, phys)) :
    ∃ tr s', Ends c (lift p) s tr a s' ∧ s'.phys = phys ∧ s'.data = s.data ∧
      LockId.heap ∉ s'.locks.held := by
  induction p generalizing s with
  | ret b =>
    cases h
    exact ⟨[], s, .ret _ _, rfl, rfl, hh⟩
  | op o k ih =>
    unfold M.run at h
    rw [Free.run_op] at h
    cases hx : Phys.exec c o s.phys with
    | error e =>
      rw [hx] at h
      cases h
    | ok q =>
      obtain ⟨r, phys₁⟩ := q
      rw [hx] at h
      obtain ⟨tr₁, s₁, h1, p1, d1, l1⟩ := memOp_can hh hx
      subst p1
      obtain ⟨tr₂, s₂, h2, p2, d2, l2⟩ := ih r l1 h
      exact ⟨_, s₂, .seq h1 h2, p2, d2.trans d1, l2⟩

end K

end BareMetal
