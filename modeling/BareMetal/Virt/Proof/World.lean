import BareMetal.Phys.Plenty
import BareMetal.Virt.Proof.Ops

/-!
# Frames over the life of an address space

`World.Inv`: in every reachable world each address space owns exactly the frames charged to its
account, apart from those of the others, of the boxes and of the allocator. `drop_returns_iff`
says when dropping an address space returns all of them.
-/

namespace BareMetal

open Lib

/-- Code that runs alone, with an allocator that may return null at any time. -/
def alone (c : Cfg) (stop : Prop) : Mode := ⟨c, false, fun _ => True, stop, False⟩

theorem alone_oom (c : Cfg) (stop : Prop) (total : Finset Nat) : (alone c stop).Oom total :=
  fun _ _ _ _ _ => trivial

namespace World

structure Inv (c : Cfg) (w : World) : Prop where
  nodup : w.phys.free.Nodup
  frames : ∀ f ∈ w.phys.free, c.IsFrame f
  box : ∀ f ∈ w.boxes, c.IsFrame f ∧ f ∉ w.phys.free
  acc : ∀ k, ∀ f ∈ w.account k, c.IsFrame f ∧ f ∉ w.phys.free ∧ f ∉ w.boxes
  disj : ∀ k l f, f ∈ w.account k → f ∈ w.account l → k = l
  space : ∀ k u, w.uvms k = some u → ∃ tab, Space c ⟨w.account k, w.phys.mem⟩ u tab ∧
    ((∀ i, tab i = none) → w.account k = {u.pagetable.root})

variable {c : Cfg} {w : World} {k : Nat} {s : Phys}

theorem Inv.init (h : Init c w) : Inv c w where
  nodup := h.nodup
  frames := h.frames
  box f hf := by rw [h.boxes] at hf; cases hf
  acc k f hf := by rw [h.account] at hf; cases hf
  disj k l f hf := by rw [h.account] at hf; cases hf
  space k u hk := by rw [h.uvms] at hk; cases hk

theorem fresh_self (w : World) (k : Nat) : (w.fresh k).account k = ∅ := Function.update_self ..

theorem fresh_ne {w : World} {k l : Nat} (h : l ≠ k) : (w.fresh k).account l = w.account l :=
  Function.update_of_ne h ..

/-- The frames of a dead address space need not be remembered. -/
theorem Inv.clear (h : Inv c w) (hk : w.uvms k = none) :
    Inv c (w.fresh k) := by
  have hsub : ∀ l f, f ∈ (w.fresh k).account l → f ∈ w.account l := fun l f hf => by
    by_cases hl : l = k
    · subst hl
      rw [fresh_self] at hf
      cases hf
    · rwa [fresh_ne hl] at hf
  refine ⟨h.nodup, h.frames, h.box, fun l f hf => h.acc l f (hsub l f hf),
    fun l l' f hf hf' => h.disj l l' f (hsub l f hf) (hsub l' f hf'), fun l u hl => ?_⟩
  have hlk : l ≠ k := fun he => by
    change w.uvms l = some u at hl
    rw [he, hk] at hl
    cases hl
  rw [fresh_ne hlk]
  exact h.space l u hl

/-- Memory code run by the party that owns `o`. -/
theorem Inv.run (h : Inv c w) {stop : Prop} {o : Finset Nat}
    (ho : ∀ f ∈ o, c.IsFrame f ∧ f ∉ w.phys.free) {α : Type} {p : M α} {Q : α → View → Prop}
    (hwp : M.wp (alone c stop) p Q ⟨o, w.phys.mem⟩) :
    Free.Meets (fun a s => ∃ v', v'.Of c (o ∪ w.phys.free.toFinset) w.phys.mem s ∧ Q a v') stop
      (p.run c w.phys) := by
  refine M.run_wp rfl (alone_oom c stop _) ⟨rfl, fun _ _ => rfl, h.nodup, fun f hf => (ho f hf).2,
    fun f => ?_, fun f hf => ?_⟩ hwp
  · rw [Finset.mem_union, List.mem_toFinset]
  · rcases Finset.mem_union.1 hf with hf | hf
    · exact (ho f hf).1
    · exact h.frames f (List.mem_toFinset.1 hf)

theorem Inv.run_ok (h : Inv c w) {o : Finset Nat} (ho : ∀ f ∈ o, c.IsFrame f ∧ f ∉ w.phys.free)
    {α : Type} {p : M α} {a : α} {Q : α → View → Prop}
    (hwp : M.wp (alone c True) p Q ⟨o, w.phys.mem⟩) (hr : p.run c w.phys = .ok (a, s)) :
    ∃ v', v'.Of c (o ∪ w.phys.free.toFinset) w.phys.mem s ∧ Q a v' := by
  have := h.run ho hwp
  rwa [hr] at this

/-- Code that may not panic runs to its end. -/
theorem Inv.returns (h : Inv c w) {o : Finset Nat} (ho : ∀ f ∈ o, c.IsFrame f ∧ f ∉ w.phys.free)
    {α : Type} {p : M α} {Q : α → View → Prop}
    (hwp : M.wp (alone c False) p Q ⟨o, w.phys.mem⟩) :
    ∃ a s v', p.run c w.phys = .ok (a, s) ∧
      v'.Of c (o ∪ w.phys.free.toFinset) w.phys.mem s ∧ Q a v' := by
  have hm := h.run ho hwp
  cases hr : p.run c w.phys with
  | error e =>
    rw [hr] at hm
    exact hm.elim
  | ok q =>
    rw [hr] at hm
    obtain ⟨v', hof, hq⟩ := hm
    exact ⟨q.1, q.2, v', rfl, hof, hq⟩

/-- What an operation on address space `k` must leave. -/
theorem Inv.put (h : Inv c w) {u' : Option Uvm} (hn : s.free.Nodup)
    (hf : ∀ f ∈ s.free, f ∈ w.account k ∨ f ∈ w.phys.free)
    (hm : ∀ l ≠ k, ∀ a, pageOf a ∈ w.account l → s.mem a = w.phys.mem a)
    (hs : ∀ u, u' = some u → ∃ tab, Space c ⟨w.charge k s.free, s.mem⟩ u tab ∧
      ((∀ i, tab i = none) → w.charge k s.free = {u.pagetable.root})) : Inv c (w.put k u' s) := by
  have hch : ∀ f, f ∈ w.charge k s.free → (f ∈ w.account k ∨ f ∈ w.phys.free) ∧ f ∉ s.free := by
    intro f hf
    unfold charge at hf
    simpa only [Finset.mem_sdiff, Finset.mem_union, List.mem_toFinset] using hf
  -- every other account is as it was
  have hacc : ∀ l f, f ∈ (w.put k u' s).account l →
      (l = k ∧ f ∈ w.charge k s.free) ∨ (l ≠ k ∧ f ∈ w.account l) := fun l f hf => by
    unfold World.put at hf
    by_cases hl : l = k
    · subst hl
      simp only [Function.update_self] at hf
      exact .inl ⟨rfl, hf⟩
    · simp only [Function.update_of_ne hl] at hf
      exact .inr ⟨hl, hf⟩
  have hnew : ∀ l f, l ≠ k → f ∈ w.charge k s.free → f ∉ w.account l := fun l f hl hf hfl => by
    rcases (hch f hf).1 with hf | hf
    · exact hl (h.disj l k f hfl hf)
    · exact (h.acc l f hfl).2.1 hf
  have hfree : ∀ f, f ∈ w.account k ∨ f ∈ w.phys.free → c.IsFrame f ∧ f ∉ w.boxes := fun f hf => by
    rcases hf with hf | hf
    · exact ⟨(h.acc k f hf).1, (h.acc k f hf).2.2⟩
    · exact ⟨h.frames f hf, fun hb => (h.box f hb).2 hf⟩
  refine ⟨hn, fun f hfs => (hfree f (hf f hfs)).1, fun f hb => ⟨(h.box f hb).1, fun hfs =>
    (hfree f (hf f hfs)).2 hb⟩, fun l f hl => ?_, fun l l' f hl hl' => ?_, fun l u hl => ?_⟩
  · rcases hacc l f hl with ⟨-, hc⟩ | ⟨hne, hc⟩
    · exact ⟨(hfree f (hch f hc).1).1, (hch f hc).2, (hfree f (hch f hc).1).2⟩
    · refine ⟨(h.acc l f hc).1, fun hfs => ?_, (h.acc l f hc).2.2⟩
      rcases hf f hfs with hk | hk
      · exact hne (h.disj l k f hc hk)
      · exact (h.acc l f hc).2.1 hk
  · rcases hacc l f hl with ⟨he, hc⟩ | ⟨hne, hc⟩ <;> rcases hacc l' f hl' with ⟨he', hc'⟩ | ⟨hne', hc'⟩
    · exact he.trans he'.symm
    · exact absurd hc' (hnew l' f hne' hc)
    · exact absurd hc (hnew l f hne hc')
    · exact h.disj l l' f hc hc'
  · unfold World.put at hl ⊢
    by_cases hlk : l = k
    · subst hlk
      simp only [Function.update_self] at hl ⊢
      exact hs u hl
    · simp only [Function.update_of_ne hlk] at hl ⊢
      obtain ⟨tab, hsp, hno⟩ := h.space l u hl
      exact ⟨tab, hsp.congr (fun _ hf => hf) fun a ha =>
        hm l hlk a (hsp.tree.has_own ha), hno⟩

/-- An operation that owns exactly the account of `k`. -/
theorem Inv.put_of (h : Inv c w) {u' : Option Uvm} {v' : View}
    (hof : v'.Of c (w.account k ∪ w.phys.free.toFinset) w.phys.mem s)
    (hs : ∀ u, u' = some u → ∃ tab, Space c v' u tab ∧
      ((∀ i, tab i = none) → v'.own = {u.pagetable.root})) : Inv c (w.put k u' s) := by
  have hch : w.charge k s.free = v'.own := by
    ext f
    unfold charge
    rw [Finset.mem_sdiff, hof.cover, List.mem_toFinset]
    exact ⟨fun hf => hf.1.resolve_right hf.2, fun hf => ⟨.inl hf, hof.disj f hf⟩⟩
  refine h.put hof.nodup (fun f hf => ?_) (fun l hl a ha => hof.same a fun hm => ?_) fun u hu => ?_
  · simpa only [Finset.mem_union, List.mem_toFinset] using (hof.cover f).2 (.inr hf)
  · rcases Finset.mem_union.1 hm with hm | hm
    · exact hl (h.disj l k _ ha hm)
    · exact (h.acc l _ ha).2.1 (List.mem_toFinset.1 hm)
  · rw [hch, ← hof.mem]
    exact hs u hu

theorem Inv.own (h : Inv c w) (k : Nat) : ∀ f ∈ w.account k, c.IsFrame f ∧ f ∉ w.phys.free :=
  fun f hf => ⟨(h.acc k f hf).1, (h.acc k f hf).2.1⟩

/-- The owner of `k` ran code that gave back none of its frames. -/
theorem clone_free {v' : View}
    (hof : v'.Of c (w.account k ∪ w.phys.free.toFinset) w.phys.mem s)
    (hsub : ∀ f ∈ w.account k, f ∈ v'.own) : ∀ f ∈ s.free, f ∈ w.phys.free := fun f hf => by
  have := (hof.cover f).2 (.inr hf)
  rw [Finset.mem_union, List.mem_toFinset] at this
  exact this.resolve_left fun ha => hof.disj f (hsub f ha) hf

/-- The new frames are charged to the clone. -/
theorem Inv.clone_charge (h : Inv c w) (k' : Nat) {v' : View}
    (hof : v'.Of c (w.account k ∪ w.phys.free.toFinset) w.phys.mem s) :
    (w.fresh k').charge k' s.free = v'.own \ w.account k := by
  ext f
  unfold charge
  rw [fresh_self, Finset.empty_union, Finset.mem_sdiff, Finset.mem_sdiff, List.mem_toFinset,
    List.mem_toFinset]
  refine ⟨fun hf => ?_, fun hf => ⟨?_, hof.disj f hf.1⟩⟩
  · have h1 := (hof.cover f).1 (Finset.mem_union_right _ (List.mem_toFinset.2 hf.1))
    exact ⟨h1.resolve_right hf.2, fun ha => (h.acc k f ha).2.1 hf.1⟩
  · have h1 := (hof.cover f).2 (.inl hf.1)
    rw [Finset.mem_union, List.mem_toFinset] at h1
    exact h1.resolve_left hf.2

/-- A call of `clone` that returns. -/
theorem Inv.cloned (h : Inv c w) {u u' : Uvm} {tab : Nat → Option Nat}
    (hsp : Space c ⟨w.account k, w.phys.mem⟩ u tab) (hr : u.clone.run c w.phys = .ok (u', s)) :
    ∃ (v' : View) (tab' : Nat → Option Nat) (fr : Nat → Nat),
      v'.Of c (w.account k ∪ w.phys.free.toFinset) w.phys.mem s ∧
      Copied c ⟨w.account k, w.phys.mem⟩ v' u tab u' tab' fr := by
  obtain ⟨v', hof, tab', fr, hcp⟩ := h.run_ok (h.own k)
    (wp_clone_space (E := alone c True) id hsp (fun _ _ _ => trivial) (fun _ => trivial)
      (fun _ _ _ => trivial)
      (Q := fun u' v' => ∃ tab' fr, Copied c ⟨w.account k, w.phys.mem⟩ v' u tab u' tab' fr)
      fun u' v' tab' fr hcp _ _ => ⟨tab', fr, hcp⟩) hr
  exact ⟨v', tab', fr, hof, hcp⟩

/-- A call of `drop` that returns keeps what is not `Returned`. -/
theorem Inv.dropped (h : Inv c w) {u : Uvm} {tab : Nat → Option Nat}
    (hsp : Space c ⟨w.account k, w.phys.mem⟩ u tab) (hr : u.drop.run c w.phys = .ok ((), s)) :
    ∃ v' : View, v'.Of c (w.account k ∪ w.phys.free.toFinset) w.phys.mem s ∧
      (u.size ≠ 0 → USER_START + u.size < USIZE) ∧
      ∀ f, f ∈ v'.own ↔ f ∈ w.account k ∧ ¬ Returned w.phys.mem tab u f :=
  h.run_ok (h.own k)
    (wp_drop (E := alone c True) id hsp (fun _ _ => trivial)
      (Q := fun _ v' => (u.size ≠ 0 → USER_START + u.size < USIZE) ∧
        ∀ f, f ∈ v'.own ↔ f ∈ w.account k ∧ ¬ Returned w.phys.mem tab u f)
      fun _ hlt ho _ => ⟨hlt, ho⟩) hr

/-- A trapframe box takes one frame, and its registers are zero. -/
theorem wp_newIn {E : Mode} {v : View} {Q : Nat → View → Prop} (hnull : E.oom v.own → E.stop)
    (hok : ∀ f v', E.cfg.IsFrame f → f ∉ v.own → v'.own = insert f v.own →
      (∀ a, pageOf a ≠ f → v'.mem a = v.mem a) →
      (∀ i < Trapframe.SIZE, v'.mem (f + i) = 0) → Q f v') : M.wp E Trapframe.newIn Q v := by
  unfold Trapframe.newIn
  rw [← bind_assoc, M.wp_bind]
  refine M.wp_allocate_unwrap hnull fun f hf hfo m' hm' => ?_
  have hfit : f % PAGESIZE + Trapframe.SIZE ≤ PAGESIZE := by
    rw [hf.page, PAGESIZE_eq]
    decide
  have hown : View.Owns { own := insert f v.own, mem := m' } f Trapframe.SIZE :=
    ⟨by rw [pageOf_self hf.page]; exact Finset.mem_insert_self _ _, hfit⟩
  rw [M.wp_bind]
  refine M.wp_writeBytes hown (hok f _ hf hfo rfl (fun a ha => ?_) fun i hi => ?_)
  · rw [← hm' a (.inr ha)]
    exact Bytes.fill_ne (hown.out (by rwa [pageOf_self hf.page]))
  · exact Bytes.fill_in (by omega)

/-- A box is given back. -/
theorem Inv.unboxed (h : Inv c w) {f : Nat} (hf : f ∈ w.boxes)
    (hr : (M.dealloc f).run c w.phys = .ok ((), s)) : s = w.phys.dealloc f := by
  have hf0 : f ≠ 0 := (h.box f hf).1.ne_zero
  have hr' : (Except.ok ((), w.phys.dealloc f) : Except String (Unit × Phys)) = .ok ((), s) := by
    rw [← hr]
    show _ = Free.run (Phys.exec c) (Free.perform (MemOp.dealloc f)) w.phys
    simp only [Free.perform, Free.run_op, Phys.exec, if_neg hf0, Free.run_ret]
  cases hr'
  rfl

/-- **Every step** keeps the invariant. -/
theorem Inv.step {w' : World} (h : Inv c w) (hs : Step c w w') : Inv c w' := by
  cases hs with
  | @new k u s hk hr =>
    have h' := h.clear hk
    have hwp : M.wp (alone c True) Uvm.new (fun u v' => ∃ tab, Space c v' u tab ∧
        ((∀ i, tab i = none) → v'.own = {u.pagetable.root})) ⟨∅, w.phys.mem⟩ :=
      wp_uvmNew (fun _ => trivial) fun v' f _ ho _ hsp => ⟨_, hsp, fun _ => ho⟩
    obtain ⟨v', hof, hq⟩ := h.run_ok (fun f hf => by cases hf) hwp hr
    have hof' : v'.Of c ((w.fresh k).account k ∪ w.phys.free.toFinset) w.phys.mem s := by
      rw [fresh_self]
      exact hof
    refine h'.put_of hof' fun u' hu' => ?_
    cases hu'
    exact hq
  | @op k u u' s o hk hv hr =>
    obtain ⟨tab, hsp, hno⟩ := h.space k u hk
    obtain ⟨v', hof, tab', hkept, -⟩ := h.run_ok (h.own k)
      (wp_op (E := alone c True) id hsp trivial o hv fun f hf => (h.box f hf).1) hr
    refine h.put_of hof fun u'' hu' => ?_
    cases hu'
    refine ⟨tab', hkept.space, fun hn => ?_⟩
    rw [hkept.own hn, hkept.root]
    refine hno fun i => ?_
    by_contra hi
    obtain ⟨t, ht⟩ := Option.ne_none_iff_exists'.1 hi
    have := hn i
    rw [hkept.keep ht] at this
    cases this
  | @clone k k' u u' s hk hk' hr =>
    obtain ⟨tab, hsp, -⟩ := h.space k u hk
    have hne : k ≠ k' := fun he => by rw [he, hk'] at hk; cases hk
    obtain ⟨v', tab', fr, hof, hcp⟩ := h.cloned hsp hr
    have hfs := clone_free hof hcp.sub
    have hch := h.clone_charge k' hof
    refine (h.clear hk').put hof.nodup (fun f hf => .inr (hfs f hf)) (fun l hl a ha => ?_)
      fun u'' hu => ?_
    · rw [fresh_ne hl] at ha
      by_cases hlk : l = k
      · subst hlk
        rw [← hof.mem]
        exact hcp.mem a ha
      · refine hof.same a fun hm => ?_
        rcases Finset.mem_union.1 hm with hm | hm
        · exact hlk (h.disj l k _ ha hm)
        · exact (h.acc l _ ha).2.1 (List.mem_toFinset.1 hm)
    · cases hu
      rw [hch, ← hof.mem]
      refine ⟨tab', hcp.space, fun hn => ?_⟩
      ext f
      refine (hcp.own f).trans ?_
      rw [Finset.mem_singleton]
      refine ⟨fun hf => ?_, fun hf => .inl (.inl hf)⟩
      rcases hf with (hf | ⟨i, hi⟩) | ⟨q, hq, -⟩
      · exact hf
      · rw [hn] at hi; cases hi
      · have := hcp.entry q hq
        rw [pte_none hn] at this
        exact absurd this.symm (leafWord_ne_zero _ _)
  | @drop k u s hk hr =>
    obtain ⟨tab, hsp, -⟩ := h.space k u hk
    obtain ⟨v', hof, -⟩ := h.dropped hsp hr
    exact h.put_of hof fun _ hu => by cases hu
  | @box f s hr =>
    obtain ⟨v', hof, ho⟩ := h.run_ok (o := ∅) (fun f hf => by cases hf)
      (wp_newIn (E := alone c True) (Q := fun f v' => v'.own = insert f ∅) (fun _ => trivial)
        fun f v' _ _ ho _ _ => ho) hr
    have hff : f ∈ v'.own := by rw [ho]; exact Finset.mem_insert_self _ _
    have hw : f ∈ w.phys.free := by
      have := (hof.cover f).2 (.inl hff)
      rwa [Finset.empty_union, List.mem_toFinset] at this
    have hfs : ∀ g ∈ s.free, g ∈ w.phys.free := fun g hg => by
      have := (hof.cover g).2 (.inr hg)
      rwa [Finset.empty_union, List.mem_toFinset] at this
    refine ⟨hof.nodup, fun g hg => h.frames g (hfs g hg), fun g hg => ?_, fun l g hg => ?_, h.disj,
      fun l u hl => ?_⟩
    · rcases Finset.mem_insert.1 hg with rfl | hg
      · exact ⟨h.frames g hw, hof.disj g hff⟩
      · exact ⟨(h.box g hg).1, fun hs => (h.box g hg).2 (hfs g hs)⟩
    · obtain ⟨h1, h2, h3⟩ := h.acc l g hg
      refine ⟨h1, fun hs => h2 (hfs g hs), fun hb => ?_⟩
      rcases Finset.mem_insert.1 hb with rfl | hb
      · exact h2 hw
      · exact h3 hb
    · obtain ⟨tab, hsp, hno⟩ := h.space l u hl
      refine ⟨tab, hsp.congr (fun _ hf => hf) fun a ha => hof.same a fun hm => ?_, hno⟩
      rw [Finset.empty_union, List.mem_toFinset] at hm
      exact (h.acc l _ (hsp.tree.has_own ha)).2.1 hm
  | @unbox f s hf hr =>
    have hb := h.box f hf
    obtain rfl := h.unboxed hf hr
    refine ⟨List.nodup_cons.2 ⟨hb.2, h.nodup⟩, fun g hg => ?_, fun g hg => ?_, fun l g hg => ?_,
      h.disj, h.space⟩
    · rcases List.mem_cons.1 hg with rfl | hg
      · exact hb.1
      · exact h.frames g hg
    · obtain ⟨hne, hg⟩ := Finset.mem_erase.1 hg
      refine ⟨(h.box g hg).1, fun hg' => ?_⟩
      exact (List.mem_cons.1 hg').elim hne (h.box g hg).2
    · obtain ⟨h1, h2, h3⟩ := h.acc l g hg
      refine ⟨h1, fun hg' => ?_, fun hb' => h3 (Finset.mem_of_mem_erase hb')⟩
      rcases List.mem_cons.1 hg' with rfl | hg'
      · exact h3 hf
      · exact h2 hg'

theorem Reach.linked (h : Reach c w) : c.Linked := by
  induction h with
  | init h => exact h.linked
  | step _ _ ih => exact ih

theorem Reach.inv (h : Reach c w) : Inv c w := by
  induction h with
  | init h => exact .init h
  | step _ hs ih => exact ih.step hs

/-! ## Dropping an address space -/

/-- Dropping `u` returns every frame in `acc` to the allocator. -/
def Returns (c : Cfg) (w : World) (u : Uvm) (acc : Finset Nat) : Prop :=
  ∃ s, u.drop.run c w.phys = .ok ((), s) ∧ ∀ f ∈ acc, f ∈ s.free

/-- What `drop` returns when it returns: not the second-level tables. -/
theorem Inv.drop_ok (h : Inv c w) {u : Uvm} {tab : Nat → Option Nat}
    (hsp : Space c ⟨w.account k, w.phys.mem⟩ u tab) (hr : Returns c w u (w.account k)) :
    (∀ i, tab i = none) ∧ USER_START + u.size < USIZE := by
  obtain ⟨s, hr, hall⟩ := hr
  obtain ⟨v', hof, hlt, ho⟩ := h.dropped hsp hr
  refine ⟨fun i => ?_, ?_⟩
  · by_contra hi
    obtain ⟨t, ht⟩ := Option.ne_none_iff_exists'.1 hi
    have hta := hsp.tree.own ht
    refine hof.disj t ((ho t).2 ⟨hta, ?_⟩) (hall t hta)
    rintro (he | ⟨q, -, hu⟩)
    · exact hsp.tree.ne_root ht he
    · exact (hsp.user q t hu.maps).2 (.inr ⟨i, ht⟩)
  · by_cases h0 : u.size = 0
    · rw [h0, USIZE_eq]
      decide
    · exact hlt h0

/-- The demo image at boot: every page holds its number. -/
def demo : World where
  phys := ⟨fun a => .ofNat (a / 4096), demoFrames 3000, 0⟩
  uvms := fun _ => none
  account := fun _ => ∅
  boxes := ∅

theorem demo_init : Init Cfg.demo demo where
  linked := Cfg.demo_linked
  nodup := demoFrames_nodup _
  frames _ hf := demoFrames_frame (by omega) hf
  uvms _ := rfl
  account _ := rfl
  boxes := rfl

/-- With frames to spare an operation that may not fail runs to its end. -/
theorem Inv.run_plenty (h : Inv c w) (hc : c.Eager) {k : Nat} {α : Type} {p : M α}
    {Q : α → View → Prop}
    (hwp : M.wp (plenty c (w.account k ∪ w.phys.free.toFinset).card) p Q
      ⟨w.account k, w.phys.mem⟩) :
    ∃ a s v', p.run c w.phys = .ok (a, s) ∧
      v'.Of c (w.account k ∪ w.phys.free.toFinset) w.phys.mem s ∧ Q a v' := by
  refine plenty_run hc ⟨rfl, fun _ _ => rfl, h.nodup, fun f hf => (h.own k f hf).2, fun f => ?_,
    fun f hf => ?_⟩ hwp
  · rw [Finset.mem_union, List.mem_toFinset]
  · rcases Finset.mem_union.1 hf with hf | hf
    · exact (h.own k f hf).1
    · exact h.frames f (List.mem_toFinset.1 hf)

/-- A box takes a frame that is free. -/
theorem Reach.box {c : Cfg} {w : World} (h : Reach c w) (hc : c.Eager) (hf : w.phys.free ≠ []) :
    ∃ w', Reach c w' ∧ w'.uvms = w.uvms ∧ w'.account = w.account ∧
      (∀ a, pageOf a ∉ w.phys.free → w'.phys.mem a = w.phys.mem a) ∧
      w'.phys.free.length + 1 = w.phys.free.length ∧ w'.boxes.card = w.boxes.card + 1 := by
  have hi := h.inv
  have hpos := List.length_pos_iff.2 hf
  have hof := View.Of.start hi.nodup hi.frames
  obtain ⟨f, s, v', hr, hof', ho⟩ := plenty_run hc hof (p := Trapframe.newIn)
    (Q := fun f v' => v'.own = {f})
    (wp_newIn (fun ho => by
      have ho : w.phys.free.toFinset.card ≤ (∅ : Finset Nat).card := ho
      rw [List.toFinset_card_of_nodup hi.nodup, Finset.card_empty] at ho
      show False
      omega) fun f v' _ _ ho _ _ => ho)
  have hcard := hof'.card
  rw [List.toFinset_card_of_nodup hi.nodup, ho, Finset.card_singleton] at hcard
  have hfree : f ∈ w.phys.free :=
    List.mem_toFinset.1 ((hof'.cover f).2 (.inl (ho ▸ Finset.mem_singleton_self f)))
  refine ⟨{ w with phys := s, boxes := insert f w.boxes }, h.step (.box hr), rfl, rfl,
    fun a ha => hof'.same a fun ht => ha (List.mem_toFinset.1 ht), ?_, ?_⟩
  · show s.free.length + 1 = _
    omega
  · exact Finset.card_insert_of_notMem fun hb => (hi.box f hb).2 hfree

/-- Boxes until `n` frames are free. -/
theorem Reach.boxes {c : Cfg} (hc : c.Eager) {n : Nat} (m : Nat) : ∀ {w : World}, Reach c w →
    w.phys.free.length = n + m → ∃ w', Reach c w' ∧ w'.uvms = w.uvms ∧ w'.account = w.account ∧
      (∀ k, ∀ a, pageOf a ∈ w.account k → w'.phys.mem a = w.phys.mem a) ∧
      w'.phys.free.length = n ∧ m + w.boxes.card ≤ w'.boxes.card := by
  induction m with
  | zero => exact fun {w} h hn => ⟨w, h, rfl, rfl, fun _ _ _ => rfl, hn, (Nat.zero_add _).le⟩
  | succ m ih =>
    intro w h hn
    obtain ⟨w₁, h₁, hu₁, ha₁, hm₁, hf₁, hb₁⟩ := h.box hc fun h0 => by
      rw [h0, List.length_nil] at hn
      omega
    obtain ⟨w₂, h₂, hu₂, ha₂, hm₂, hf₂, hb₂⟩ := ih h₁ (by omega)
    refine ⟨w₂, h₂, hu₂.trans hu₁, ha₂.trans ha₁, fun k a ha => ?_, hf₂, ?_⟩
    · rw [hm₂ k a (ha₁ ▸ ha)]
      exact hm₁ a (h.inv.acc k _ ha).2.1
    · omega

theorem put_union {w : World} {k : Nat} {u : Option Uvm} {s : Phys} {v' : View}
    (hof : v'.Of c (w.account k ∪ w.phys.free.toFinset) w.phys.mem s) :
    (w.put k u s).account k = v'.own ∧
      (w.put k u s).account k ∪ (w.put k u s).phys.free.toFinset =
        w.account k ∪ w.phys.free.toFinset := by
  have hacc : (w.put k u s).account k = v'.own := by
    show Function.update w.account k (w.charge k s.free) k = _
    rw [Function.update_self]
    unfold charge
    ext f
    rw [Finset.mem_sdiff, hof.cover, List.mem_toFinset]
    exact ⟨fun hf => hf.1.resolve_right hf.2, fun hf => ⟨.inl hf, hof.disj f hf⟩⟩
  refine ⟨hacc, ?_⟩
  ext f
  rw [hacc, hof.cover, Finset.mem_union]
  exact or_congr_right List.mem_toFinset

/-- The demo image with a new address space. -/
def demoNew (f : Nat) (s : Phys) : World := (demo.fresh 0).put 0 (some ⟨USER_START, 0, ⟨f⟩⟩) s

theorem demo_new : ∃ f s, Uvm.new.run Cfg.demo demo.phys = .ok (⟨USER_START, 0, ⟨f⟩⟩, s) ∧
    Space Cfg.demo ⟨(demoNew f s).account 0, (demoNew f s).phys.mem⟩ ⟨USER_START, 0, ⟨f⟩⟩
      (fun _ => none) ∧
    (demoNew f s).account 0 = {f} ∧
    (demoNew f s).account 0 ∪ (demoNew f s).phys.free.toFinset = (demoFrames 3000).toFinset ∧
    ∀ a, pageOf a ≠ f → s.mem a = demo.phys.mem a := by
  have hdem : demo.account 0 ∪ demo.phys.free.toFinset = (demoFrames 3000).toFinset :=
    Finset.empty_union _
  have htot : (demo.account 0 ∪ demo.phys.free.toFinset).card = 3000 := by
    rw [hdem, List.toFinset_card_of_nodup (demoFrames_nodup _), demoFrames_length]
  obtain ⟨u, s, v, hr, hof, f, rfl, ho, hs, hm⟩ := (Inv.init demo_init).run_plenty Cfg.demo_eager
    (k := 0) (p := Uvm.new) (Q := fun u v' => ∃ f, u = ⟨USER_START, 0, ⟨f⟩⟩ ∧ v'.own = {f} ∧
      Space Cfg.demo v' u (fun _ => none) ∧ ∀ a, pageOf a ≠ f → v'.mem a = demo.phys.mem a)
    (wp_uvmNew (fun ho => by
        show False
        have ho : (demo.account 0 ∪ demo.phys.free.toFinset).card ≤ (∅ : Finset Nat).card := ho
        rw [htot, Finset.card_empty] at ho
        omega)
      fun v' f _ ho hm hs => ⟨f, rfl, by rw [ho]; rfl, hs, hm⟩)
  have hd : demo.fresh 0 = demo := by
    unfold fresh
    rw [show (∅ : Finset Nat) = demo.account 0 from rfl, Function.update_eq_self]
  obtain ⟨ha, hu⟩ := put_union (u := some ⟨USER_START, 0, ⟨f⟩⟩) hof
  rw [← hd] at ha hu
  refine ⟨f, s, hr, ?_, ha.trans ho, hu.trans ?_, hof.mem ▸ hm⟩
  · rw [show (demoNew f s).account 0 = v.own from ha]
    exact hof.mem ▸ hs
  · rw [hd]
    exact hdem

/-- `new` and `alloc` of `n` pages on the demo image. -/
theorem demo_alloc_run {n perm : Nat} (hn : n ≤ 100) (h0 : perm ≠ 0) (hp : PermOk perm) :
    ∃ (f : Nat) (s₁ s₂ : Phys) (w : World) (tab : Nat → Option Nat) (fr : Nat → Nat),
      Uvm.new.run Cfg.demo demo.phys = .ok (⟨USER_START, 0, ⟨f⟩⟩, s₁) ∧
      (UvmOp.run Cfg.demo ⟨USER_START, 0, ⟨f⟩⟩ (.alloc (n * PAGESIZE) perm)).run Cfg.demo
        (demoNew f s₁).phys = .ok (⟨USER_START, n * PAGESIZE, ⟨f⟩⟩, s₂) ∧
      w = (demoNew f s₁).put 0 (some ⟨USER_START, n * PAGESIZE, ⟨f⟩⟩) s₂ ∧
      Space Cfg.demo ⟨w.account 0, w.phys.mem⟩ ⟨USER_START, n * PAGESIZE, ⟨f⟩⟩ tab ∧
      (∀ q, InPages (pageNo USER_START) n q →
        pte w.phys.mem tab q = leafWord (fr q) (perm ||| PTE_U) ∧ fr q ∈ demoFrames 3000) ∧
      (∀ q r, InPages (pageNo USER_START) n q → InPages (pageNo USER_START) n r → fr q = fr r →
        q = r) ∧ 1800 ≤ w.phys.free.length ∧
      (∀ g, Tree.Has f tab g → g ∈ demoFrames 3000) ∧
      ∀ a, ¬ Tree.Has f tab (pageOf a) → w.phys.mem a = demo.phys.mem a := by
  have hsz := PAGESIZE_eq
  obtain ⟨f, s₁, hr₁, hs₁, ha₁, hu₁, hm₁⟩ := demo_new
  let w₁ := demoNew f s₁
  have hr : Reach Cfg.demo w₁ := .step (.init demo_init) (.new rfl hr₁)
  have htot : (w₁.account 0 ∪ w₁.phys.free.toFinset).card = 3000 := by
    rw [hu₁, List.toFinset_card_of_nodup (demoFrames_nodup _), demoFrames_length]
  have hone : (w₁.account 0).card = 1 := by
    rw [ha₁, Finset.card_singleton]
  have hpu := permOk_or hp
  have hus : USER_START = 0x10000 := rfl
  have hnp : pagesTo 0 (n * PAGESIZE) = n := by
    unfold pagesTo
    rw [hsz]
    omega
  obtain ⟨u₂, s₂, v₂, hr₂, hof₂, tab, fr, rfl, hadd, hm₂⟩ := hr.inv.run_plenty Cfg.demo_eager (k := 0)
    (p := UvmOp.run Cfg.demo ⟨USER_START, 0, ⟨f⟩⟩ (.alloc (n * PAGESIZE) perm))
    (Q := fun u v' => ∃ tab fr, u = ⟨USER_START, n * PAGESIZE, ⟨f⟩⟩ ∧
      Added Cfg.demo ⟨w₁.account 0, w₁.phys.mem⟩ v' f (fun _ => none) tab
        (InPages (pageNo (USER_START + 0)) n) (fun _ => perm ||| PTE_U) fr ∧
      ∀ a, ¬ Tree.Has f tab (pageOf a) → v'.mem a = w₁.phys.mem a) (by
      refine (M.wp_bind _ _ _ _).2 ?_
      unfold Uvm.alloc
      rw [hnp]
      refine wp_allocLoop id h0 hpu n hs₁.tree hs₁.end_page (fun hov => ?_)
        (fun v' tab' fr _ ha hm => ⟨tab', fr, by rw [Nat.zero_add], ha, hm rfl⟩)
        fun k hk v' tab' fr _ ha hr => ?_
      · show False
        dsimp only at hov
        rw [hsz, hus, USIZE_eq] at hov
        omega
      · exfalso
        obtain ⟨o, ho, hc⟩ := hr.ran
        have ho : (w₁.account 0 ∪ w₁.phys.free.toFinset).card ≤ o.card := ho
        rw [htot] at ho
        have h1 := ha.own_card fun q hq => hq
        have h2 : (View.mk (w₁.account 0) w₁.phys.mem).own.card = 1 := hone
        omega)
  obtain ⟨ha₂, hu₂⟩ := put_union (u := some ⟨USER_START, n * PAGESIZE, ⟨f⟩⟩) hof₂
  have hsp := hs₁.alloc hpu hadd
  rw [Nat.zero_add] at hsp
  have hfr : ∀ q, InPages (pageNo USER_START) n q → fr q ∈ demoFrames 3000 := fun q hq => by
    have h1 := (hof₂.cover (fr q)).2 (.inl ((hadd.own _).2 (.inr (.inr ⟨q, hq, rfl⟩))))
    rw [hu₁] at h1
    exact List.mem_toFinset.1 h1
  refine ⟨f, s₁, s₂, w₁.put 0 (some ⟨USER_START, n * PAGESIZE, ⟨f⟩⟩) s₂, tab, fr, hr₁, hr₂, rfl, ?_,
    fun q hq => ⟨?_, hfr q hq⟩, fun q r hq hr => hadd.inj hq hr, ?_, fun g hg => ?_, fun a ha => ?_⟩
  · rw [ha₂]
    exact hof₂.mem ▸ hsp
  · exact hof₂.mem ▸ hadd.new hq
  · -- what the address space does not own is free
    have h1 := hadd.own_card fun q hq => hq
    have h2 : (View.mk (w₁.account 0) w₁.phys.mem).own.card = 1 := hone
    have h3 := congrArg Finset.card hu₂
    rw [htot, ha₂] at h3
    have h4 := Finset.card_union_le v₂.own s₂.free.toFinset
    have h5 := List.toFinset_card_le s₂.free
    show 1800 ≤ s₂.free.length
    have h6 : (v₂.own ∪ s₂.free.toFinset).card = 3000 := h3
    omega
  · have h1 := (hof₂.cover g).2 (.inl (hsp.tree.has_own hg))
    rw [hu₁] at h1
    exact List.mem_toFinset.1 h1
  · show s₂.mem a = _
    rw [← hof₂.mem, hm₂ a ha]
    exact hm₁ a fun he => ha (.inl he)

/-- The demo image with an address space of `n` pages. -/
theorem demo_alloc {n perm : Nat} (hn : n ≤ 100) (h0 : perm ≠ 0) (hp : PermOk perm) :
    ∃ (w : World) (u : Uvm) (tab : Nat → Option Nat) (fr : Nat → Nat),
      Reach Cfg.demo w ∧ w.uvms 0 = some u ∧
      Space Cfg.demo ⟨w.account 0, w.phys.mem⟩ u tab ∧ u.size = n * PAGESIZE ∧
      (∀ q, InPages (pageNo USER_START) n q →
        pte w.phys.mem tab q = leafWord (fr q) (perm ||| PTE_U) ∧ fr q ∈ demoFrames 3000) ∧
      (∀ q r, InPages (pageNo USER_START) n q → InPages (pageNo USER_START) n r → fr q = fr r →
        q = r) ∧
      1800 ≤ w.phys.free.length ∧ (∀ g, Tree.Has u.pagetable.root tab g → g ∈ demoFrames 3000) ∧
      ∀ a, ¬ Tree.Has u.pagetable.root tab (pageOf a) → w.phys.mem a = demo.phys.mem a := by
  obtain ⟨f, s₁, s₂, w, tab, fr, hr₁, hr₂, rfl, hsp, hp', hrest⟩ := demo_alloc_run hn h0 hp
  exact ⟨_, _, tab, fr, .step (.step (.init demo_init) (.new rfl hr₁))
    (.op (.alloc (n * PAGESIZE) perm) rfl hp hr₂), rfl, hsp, rfl, hp', hrest⟩

/-- **Frame conservation**: dropping an address space returns every frame charged to it exactly
when its root table has no entry, that is no second-level table was ever made for it, and its end
is an address. -/
theorem drop_returns_iff (h : Reach c w) {u : Uvm} (hk : w.uvms k = some u) :
    Returns c w u (w.account k) ↔
      (∀ i < 1024, w.phys.mem.word (u.pagetable.root + 4 * i) = 0) ∧
        USER_START + u.size < USIZE := by
  obtain ⟨tab, hsp, hno⟩ := h.inv.space k u hk
  constructor
  · intro hr
    obtain ⟨hn, hlt⟩ := h.inv.drop_ok hsp hr
    exact ⟨hsp.tree.bare_iff.2 hn, hlt⟩
  · rintro ⟨hz, hlt⟩
    have hn := hsp.tree.bare_iff.1 hz
    obtain ⟨_, s, v', hr, hof, ho⟩ := h.inv.returns (h.inv.own k)
      (wp_drop (E := alone c False) id hsp (fun _ hov => by show False; omega)
        (Q := fun _ v' => ∀ f, f ∈ v'.own ↔ f ∈ w.account k ∧ ¬ Returned w.phys.mem tab u f)
        fun v' _ ho _ => ho)
    refine ⟨s, hr, fun f hf => ?_⟩
    refine ((hof.cover f).1 (Finset.mem_union_left _ hf)).resolve_left fun hv => ?_
    rw [hno hn, Finset.mem_singleton] at hf
    exact ((ho f).1 hv).2 (.inl hf)

theorem drop_returns_iff_demo : ∃ w u, Reach Cfg.demo w ∧ w.uvms 0 = some u ∧
    (Returns Cfg.demo w u (w.account 0) ↔
      (∀ i < 1024, w.phys.mem.word (u.pagetable.root + 4 * i) = 0) ∧
        USER_START + u.size < USIZE) := by
  obtain ⟨w, u, -, -, h, hk, -⟩ := demo_alloc (n := 1) (by omega)
    (show PTE_R ≠ 0 by decide) ⟨by decide, by decide⟩
  exact ⟨w, u, h, hk, drop_returns_iff h hk⟩

/-- A single page is enough: dropping the address space does not return the table it needed. -/
theorem drop_leaks : ∃ w u, Reach Cfg.demo w ∧ w.uvms 0 = some u ∧ u.size = PAGESIZE ∧
    ¬ Returns Cfg.demo w u (w.account 0) := by
  obtain ⟨w, u, tab, fr, h, hk, hsp, hsz, hp, -⟩ := demo_alloc (n := 1) (by omega)
    (show PTE_R ||| PTE_W ||| PTE_X ≠ 0 by decide) ⟨by decide, by decide⟩
  refine ⟨w, u, h, hk, by rw [hsz, Nat.one_mul], fun hr => ?_⟩
  have h0 := pte_none (h.inv.drop_ok hsp hr).1 w.phys.mem (pageNo USER_START)
  rw [(hp _ ⟨by omega, by omega⟩).1] at h0
  exact leafWord_ne_zero _ _ h0

end World

/-! ## Boxes -/

/-- A new frame was taken, and only it was written. -/
structure Boxed (c : Cfg) (v v' : View) (f : Nat) : Prop where
  frame : c.IsFrame f
  fresh : f ∉ v.own
  own : v'.own = insert f v.own
  mem : ∀ a, pageOf a ≠ f → v'.mem a = v.mem a

section
variable {E : Mode} {v : View}

theorem wp_newIn_boxed (hnull : E.oom v.own → E.stop) :
    M.wp E Trapframe.newIn (fun f v' => Boxed E.cfg v v' f) v :=
  World.wp_newIn hnull fun _ _ hf hfo ho hm _ => ⟨hf, hfo, ho, hm⟩

theorem wp_cloneIn {tf : Nat} (htf : E.cfg.IsFrame tf) (hnull : E.oom v.own → E.stop) :
    M.wp E (Trapframe.cloneIn tf) (fun f v' => Boxed E.cfg v v' f) v := by
  unfold Trapframe.cloneIn
  rw [← bind_assoc, M.wp_bind]
  refine M.wp_allocate_unwrap hnull fun f hf hfo m' hm' => ?_
  have hs : Trapframe.SIZE ≤ PAGESIZE := by rw [PAGESIZE_eq]; decide
  have hown : View.Owns { own := insert f v.own, mem := m' } f Trapframe.SIZE := by
    refine ⟨?_, by rw [hf.page]; omega⟩
    rw [pageOf_self hf.page]
    exact Finset.mem_insert_self _ _
  rw [M.wp_bind]
  refine M.wp_copy (.inl (htf.readable (pageOf_self htf.page) (by rw [htf.page]; omega))) hown
    fun b _ => ⟨hf, hfo, rfl, fun a ha => ?_⟩
  rw [← hm' a (.inr ha)]
  exact Bytes.setBytes_ne (hown.out (by rwa [pageOf_self hf.page]))

end

end BareMetal
