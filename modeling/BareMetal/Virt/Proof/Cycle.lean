import BareMetal.Virt.Proof.World

/-!
# A cycle of address spaces

`Cycle`: work that begins in a world and leaves the address spaces and the boxes of that world
alone, as a process does between its fork and the wait that frees it. `Ledger` says where every frame
that was free at its beginning is. `cycle_free_iff`: a cycle that dropped all it made leaves as many
free frames as it found exactly when no address space that it dropped had a second-level table.
-/

namespace BareMetal

namespace World

/-- `ds` are the address spaces that were dropped, each with the world it was dropped in. -/
inductive Cycle (c : Cfg) (w : World) : World → List (World × Uvm) → Prop
  | start : Cycle c w w []
  | new {w₁ ds k u s} (h : Cycle c w w₁ ds) (hw : w.uvms k = none) (hk : w₁.uvms k = none)
    (hr : Uvm.new.run c w₁.phys = .ok (u, s)) : Cycle c w ((w₁.fresh k).put k (some u) s) ds
  | op {w₁ ds k u u' s} (h : Cycle c w w₁ ds) (o : UvmOp) (hw : w.uvms k = none)
    (hk : w₁.uvms k = some u) (hv : o.Valid w₁ u) (hr : (o.run c u).run c w₁.phys = .ok (u', s)) :
    Cycle c w (w₁.put k (some u') s) ds
  | clone {w₁ ds k k' u u' s} (h : Cycle c w w₁ ds) (hw : w.uvms k' = none)
    (hk : w₁.uvms k = some u) (hk' : w₁.uvms k' = none) (hr : u.clone.run c w₁.phys = .ok (u', s)) :
    Cycle c w ((w₁.fresh k').put k' (some u') s) ds
  | drop {w₁ ds k u s} (h : Cycle c w w₁ ds) (hw : w.uvms k = none) (hk : w₁.uvms k = some u)
    (hr : u.drop.run c w₁.phys = .ok ((), s)) : Cycle c w (w₁.put k none s) ((w₁, u) :: ds)
  | box {w₁ ds f s} (h : Cycle c w w₁ ds) (hr : Trapframe.newIn.run c w₁.phys = .ok (f, s)) :
    Cycle c w { w₁ with phys := s, boxes := insert f w₁.boxes } ds
  | unbox {w₁ ds f s} (h : Cycle c w w₁ ds) (hw : f ∉ w.boxes) (hf : f ∈ w₁.boxes)
    (hr : (M.dealloc f).run c w₁.phys = .ok ((), s)) :
    Cycle c w { w₁ with phys := s, boxes := w₁.boxes.erase f } ds

variable {c : Cfg} {w w₁ : World} {ds : List (World × Uvm)} {lost lost' : Finset Nat} {k : Nat}
  {s : Phys}

theorem Cycle.reach (hc : Cycle c w w₁ ds) (h : Reach c w) : Reach c w₁ := by
  induction hc with
  | start => exact h
  | new _ _ hk hr ih => exact ih.step (.new hk hr)
  | op _ o _ hk hv hr ih => exact ih.step (.op o hk hv hr)
  | clone _ _ hk hk' hr ih => exact ih.step (.clone hk hk' hr)
  | drop _ _ hk hr ih => exact ih.step (.drop hk hr)
  | box _ hr ih => exact ih.step (.box hr)
  | unbox _ _ hf hr ih => exact ih.step (.unbox hf hr)

/-- The frames that were free in `w` are free, charged to a new address space, in a new box, or
`lost`. -/
structure Ledger (w w₁ : World) (lost : Finset Nat) : Prop where
  frames : ∀ f, f ∈ w.phys.free ↔ f ∈ w₁.phys.free ∨
    (∃ k, w.uvms k = none ∧ w₁.uvms k ≠ none ∧ f ∈ w₁.account k) ∨
    (f ∈ w₁.boxes ∧ f ∉ w.boxes) ∨ f ∈ lost
  free : ∀ f ∈ lost, f ∉ w₁.phys.free
  acc : ∀ f ∈ lost, ∀ k, w₁.uvms k ≠ none → f ∉ w₁.account k
  box : ∀ f ∈ lost, f ∉ w₁.boxes
  boxes : w.boxes ⊆ w₁.boxes

namespace Ledger

theorem start (w : World) : Ledger w w ∅ where
  frames f := by
    refine ⟨.inl, fun h => ?_⟩
    rcases h with h | ⟨k, h1, h2, -⟩ | ⟨h1, h2⟩ | h
    · exact h
    · exact absurd h1 h2
    · exact absurd h1 h2
    · cases h
  free f hf := by cases hf
  acc f hf := by cases hf
  box f hf := by cases hf
  boxes := Finset.Subset.refl _

/-- A handle that is taken for a new address space. -/
theorem fresh (h : Ledger w w₁ lost) (hk : w₁.uvms k = none) : Ledger w (w₁.fresh k) lost where
  frames f := by
    rw [h.frames f]
    refine or_congr_right (or_congr_left (exists_congr fun l => and_congr_right fun _ =>
      and_congr_right fun hl => ?_))
    rw [fresh_ne fun he => hl (by rw [he]; exact hk)]
  free := h.free
  acc f hf l hl := by
    rw [fresh_ne fun he => hl (by rw [he]; exact hk)]
    exact h.acc f hf l hl
  box := h.box
  boxes := h.boxes

/-- An operation for address space `k`. What is still charged to an address space that is dropped is
lost. -/
theorem put (h : Ledger w w₁ lost) (hi : Inv c w₁) {u' : Option Uvm} (hw : w.uvms k = none)
    (hlive : w₁.uvms k ≠ none ∨ w₁.account k = ∅)
    (hf : ∀ f ∈ s.free, f ∈ w₁.account k ∨ f ∈ w₁.phys.free)
    (hl : ∀ f, f ∈ lost' ↔ f ∈ lost ∨ (u' = none ∧ f ∈ w₁.charge k s.free)) :
    Ledger w (w₁.put k u' s) lost' := by
  have hch : ∀ f, f ∈ w₁.charge k s.free ↔ (f ∈ w₁.account k ∨ f ∈ w₁.phys.free) ∧ f ∉ s.free := by
    intro f
    unfold charge
    rw [Finset.mem_sdiff, Finset.mem_union, List.mem_toFinset, List.mem_toFinset]
  have hself : (w₁.put k u' s).account k = w₁.charge k s.free := Function.update_self ..
  have huself : (w₁.put k u' s).uvms k = u' := Function.update_self ..
  have hne : ∀ {l}, l ≠ k → (w₁.put k u' s).account l = w₁.account l ∧
      (w₁.put k u' s).uvms l = w₁.uvms l := fun hlk =>
    ⟨Function.update_of_ne hlk .., Function.update_of_ne hlk ..⟩
  -- what `k` could give or take was free when the cycle began
  have hown : ∀ f, f ∈ w₁.account k ∨ f ∈ w₁.phys.free → f ∈ w.phys.free := fun f hf => by
    refine (h.frames f).2 (hf.symm.imp_right fun ha => .inl ⟨k, hw, hlive.resolve_right fun h0 => ?_,
      ha⟩)
    rw [h0] at ha
    cases ha
  -- nothing that is lost comes back
  have hlost : ∀ f ∈ lost, ¬ (f ∈ w₁.account k ∨ f ∈ w₁.phys.free) := fun f hf ha => by
    rcases ha with ha | ha
    · rcases hlive with hk | h0
      · exact h.acc f hf k hk ha
      · rw [h0] at ha
        cases ha
    · exact h.free f hf ha
  have hnew : ∀ {f}, f ∈ lost' → f ∈ lost ∨
      ((f ∈ w₁.account k ∨ f ∈ w₁.phys.free) ∧ f ∉ s.free ∧ u' = none) := fun {f} hf =>
    ((hl f).1 hf).imp_right fun ⟨hu, hc⟩ => ⟨((hch f).1 hc).1, ((hch f).1 hc).2, hu⟩
  refine ⟨fun f => ⟨fun h0 => ?_, fun h0 => ?_⟩, fun f hfl => ?_, fun f hfl l hul => ?_,
    fun f hfl => ?_, h.boxes⟩
  · -- a frame of `k` or of the allocator stays, or goes from one to the other
    have hmove : f ∈ w₁.account k ∨ f ∈ w₁.phys.free → f ∈ s.free ∨
        (∃ l, w.uvms l = none ∧ (w₁.put k u' s).uvms l ≠ none ∧ f ∈ (w₁.put k u' s).account l) ∨
        (f ∈ w₁.boxes ∧ f ∉ w.boxes) ∨ f ∈ lost' := fun ha => by
      by_cases hs : f ∈ s.free
      · exact .inl hs
      · have hc := (hch f).2 ⟨ha, hs⟩
        by_cases hu : u' = none
        · exact .inr (.inr (.inr ((hl f).2 (.inr ⟨hu, hc⟩))))
        · exact .inr (.inl ⟨k, hw, by rwa [huself], by rwa [hself]⟩)
    rcases (h.frames f).1 h0 with h1 | ⟨l, h1, h2, h3⟩ | h1 | h1
    · exact hmove (.inr h1)
    · by_cases hlk : l = k
      · exact hmove (.inl (hlk ▸ h3))
      · exact .inr (.inl ⟨l, h1, by rwa [(hne hlk).2], by rwa [(hne hlk).1]⟩)
    · exact .inr (.inr (.inl h1))
    · exact .inr (.inr (.inr ((hl f).2 (.inl h1))))
  · rcases h0 with h1 | ⟨l, h1, h2, h3⟩ | h1 | h1
    · exact hown f (hf f h1)
    · by_cases hlk : l = k
      · subst hlk
        rw [hself] at h3
        exact hown f ((hch f).1 h3).1
      · rw [(hne hlk).1] at h3
        rw [(hne hlk).2] at h2
        exact (h.frames f).2 (.inr (.inl ⟨l, h1, h2, h3⟩))
    · exact (h.frames f).2 (.inr (.inr (.inl h1)))
    · exact (hnew h1).elim (fun h1 => (h.frames f).2 (.inr (.inr (.inr h1)))) fun h1 => hown f h1.1
  · exact (hnew hfl).elim (fun h1 hs => hlost f h1 (hf f hs)) fun h1 => h1.2.1
  · by_cases hlk : l = k
    · subst hlk
      rw [huself] at hul
      rw [hself]
      refine fun hc => (hnew hfl).elim (fun h1 => hlost f h1 ((hch f).1 hc).1) fun h1 => hul h1.2.2
    · rw [(hne hlk).1]
      rw [(hne hlk).2] at hul
      refine fun ha => (hnew hfl).elim (fun h1 => h.acc f h1 l hul ha) fun h1 => ?_
      rcases h1.1 with h1 | h1
      · exact hlk (hi.disj l k f ha h1)
      · exact (hi.acc l f ha).2.1 h1
  · refine (hnew hfl).elim (fun h1 => h.box f h1) fun h1 hb => ?_
    rcases h1.1 with h1 | h1
    · exact (hi.acc k f h1).2.2 hb
    · exact (hi.box f hb).2 h1

/-- A box took a frame. -/
theorem boxed (h : Ledger w w₁ lost) (hi : Inv c w₁) {f : Nat}
    (hr : Trapframe.newIn.run c w₁.phys = .ok (f, s)) :
    Ledger w { w₁ with phys := s, boxes := insert f w₁.boxes } lost := by
  obtain ⟨v', hof, ho⟩ := hi.run_ok (o := ∅) (fun f hf => by cases hf)
    (wp_newIn (E := alone c True) (Q := fun f v' => v'.own = insert f ∅) (fun _ => trivial)
      fun f v' _ _ ho _ _ => ho) hr
  have hs : ∀ g, g ∈ w₁.phys.free ↔ g = f ∨ g ∈ s.free := fun g => by
    have := hof.cover g
    rwa [Finset.empty_union, List.mem_toFinset, ho, Finset.mem_insert,
      or_iff_left (Finset.notMem_empty g)] at this
  have hff := (hs f).2 (.inl rfl)
  have hfb : f ∉ w.boxes := fun hb => (hi.box f (h.boxes hb)).2 hff
  refine ⟨fun g => ?_, fun g hg hgs => h.free g hg ((hs g).2 (.inr hgs)), h.acc, fun g hg hb => ?_,
    fun g hg => Finset.mem_insert_of_mem (h.boxes hg)⟩
  · rw [h.frames g, hs g]
    dsimp only
    rw [Finset.mem_insert]
    constructor
    · rintro ((rfl | h1) | h1 | h1 | h1)
      · exact .inr (.inr (.inl ⟨.inl rfl, hfb⟩))
      · exact .inl h1
      · exact .inr (.inl h1)
      · exact .inr (.inr (.inl ⟨.inr h1.1, h1.2⟩))
      · exact .inr (.inr (.inr h1))
    · rintro (h1 | h1 | ⟨rfl | h1, h2⟩ | h1)
      · exact .inl (.inr h1)
      · exact .inr (.inl h1)
      · exact .inl (.inl rfl)
      · exact .inr (.inr (.inl ⟨h1, h2⟩))
      · exact .inr (.inr (.inr h1))
  · rcases Finset.mem_insert.1 hb with rfl | hb
    · exact h.free g hg hff
    · exact h.box g hg hb

/-- A box of the cycle gave its frame back. -/
theorem unboxed (h : Ledger w w₁ lost) (hi : Inv c w₁) {f : Nat} (hw : f ∉ w.boxes)
    (hf : f ∈ w₁.boxes) (hr : (M.dealloc f).run c w₁.phys = .ok ((), s)) :
    Ledger w { w₁ with phys := s, boxes := w₁.boxes.erase f } lost := by
  obtain rfl := hi.unboxed hf hr
  have hfree : ∀ g, g ∈ (w₁.phys.dealloc f).free ↔ g = f ∨ g ∈ w₁.phys.free := fun g => List.mem_cons
  refine ⟨fun g => ?_, fun g hg hgs => ?_, h.acc, fun g hg hb =>
    h.box g hg (Finset.mem_of_mem_erase hb), fun g hg => ?_⟩
  · rw [h.frames g]
    dsimp only
    rw [hfree, Finset.mem_erase]
    constructor
    · rintro (h1 | h1 | h1 | h1)
      · exact .inl (.inr h1)
      · exact .inr (.inl h1)
      · by_cases hg : g = f
        · exact .inl (.inl hg)
        · exact .inr (.inr (.inl ⟨⟨hg, h1.1⟩, h1.2⟩))
      · exact .inr (.inr (.inr h1))
    · rintro ((rfl | h1) | h1 | h1 | h1)
      · exact .inr (.inr (.inl ⟨hf, hw⟩))
      · exact .inl h1
      · exact .inr (.inl h1)
      · exact .inr (.inr (.inl ⟨h1.1.2, h1.2⟩))
      · exact .inr (.inr (.inr h1))
  · rcases (hfree g).1 hgs with rfl | h1
    · exact h.box g hg hf
    · exact h.free g hg h1
  · refine Finset.mem_erase.2 ⟨?_, h.boxes hg⟩
    rintro rfl
    exact hw hg

end Ledger

/-- The root table of the address space that is dropped has no entry. -/
def Bare (d : World × Uvm) : Prop :=
  ∀ i < 1024, d.1.phys.mem.word (d.2.pagetable.root + 4 * i) = 0

/-- **What a cycle loses**: nothing exactly when every address space that it dropped was bare. -/
theorem Cycle.ledger (hc : Cycle c w w₁ ds) (h : Reach c w) :
    ∃ lost, Ledger w w₁ lost ∧ (lost = ∅ ↔ ∀ d ∈ ds, Bare d) := by
  induction hc with
  | start => exact ⟨∅, .start w, by simp⟩
  | @new w₁ ds k u s hc hw hk hr ih =>
    obtain ⟨lost, hl, he⟩ := ih
    have hi := (hc.reach h).inv
    have hwp : M.wp (alone c True) Uvm.new (fun _ _ => True) ⟨∅, w₁.phys.mem⟩ :=
      wp_uvmNew (fun _ => trivial) fun _ _ _ _ _ _ => trivial
    obtain ⟨v', hof, -⟩ := hi.run_ok (fun f hf => by cases hf) hwp hr
    refine ⟨lost, (hl.fresh hk).put (hi.clear hk) hw (.inr (fresh_self ..)) (fun f hf => .inr ?_)
      (fun f => by simp), he⟩
    have := (hof.cover f).2 (.inr hf)
    rwa [Finset.empty_union, List.mem_toFinset] at this
  | @op w₁ ds k u u' s hc o hw hk hv hr ih =>
    obtain ⟨lost, hl, he⟩ := ih
    have hi := (hc.reach h).inv
    obtain ⟨tab, hsp, -⟩ := hi.space k u hk
    obtain ⟨v', hof, -⟩ := hi.run_ok (hi.own k)
      (wp_op (E := alone c True) id hsp trivial o hv fun f hf => (hi.box f hf).1) hr
    refine ⟨lost, hl.put hi hw (.inl (by rw [hk]; simp)) (fun f hf => ?_) (fun f => by simp), he⟩
    simpa only [Finset.mem_union, List.mem_toFinset] using (hof.cover f).2 (.inr hf)
  | @clone w₁ ds k k' u u' s hc hw hk hk' hr ih =>
    obtain ⟨lost, hl, he⟩ := ih
    have hi := (hc.reach h).inv
    obtain ⟨tab, hsp, -⟩ := hi.space k u hk
    obtain ⟨v', tab', fr, hof, hcp⟩ := hi.cloned hsp hr
    exact ⟨lost, (hl.fresh hk').put (hi.clear hk') hw (.inr (fresh_self ..))
      (fun f hf => .inr (clone_free hof hcp.sub f hf)) (fun f => by simp), he⟩
  | @drop w₁ ds k u s hc hw hk hr ih =>
    obtain ⟨lost, hl, he⟩ := ih
    have hi := (hc.reach h).inv
    obtain ⟨tab, hsp, hno⟩ := hi.space k u hk
    obtain ⟨v', hof, -, ho⟩ := hi.dropped hsp hr
    have hcover : ∀ f, f ∈ v'.own ∨ f ∈ s.free ↔ f ∈ w₁.account k ∨ f ∈ w₁.phys.free := fun f => by
      simpa only [Finset.mem_union, List.mem_toFinset] using (hof.cover f).symm
    have hch : w₁.charge k s.free = v'.own := by
      rw [← (put_union (u := none) hof).1]
      exact (Function.update_self k (w₁.charge k s.free) w₁.account).symm
    -- nothing stays behind exactly when there is no second-level table
    have hbare : w₁.charge k s.free = ∅ ↔ Bare (w₁, u) := by
      refine Iff.trans ?_ hsp.tree.bare_iff.symm
      rw [hch]
      constructor
      · intro h0
        refine (hi.drop_ok hsp ⟨s, hr, fun f hf => ?_⟩).1
        refine ((hcover f).2 (.inl hf)).resolve_left fun hv => ?_
        rw [h0] at hv
        cases hv
      · intro hn
        refine Finset.eq_empty_of_forall_notMem fun f hf => ?_
        obtain ⟨h1, h2⟩ := (ho f).1 hf
        rw [hno hn, Finset.mem_singleton] at h1
        exact h2 (.inl h1)
    refine ⟨lost ∪ w₁.charge k s.free, hl.put hi hw (.inl (by rw [hk]; simp))
      (fun f hf => (hcover f).1 (.inr hf)) (fun f => by simp), ?_⟩
    rw [Finset.union_eq_empty, he, hbare, List.forall_mem_cons]
    exact and_comm
  | box hc hr ih =>
    obtain ⟨lost, hl, he⟩ := ih
    exact ⟨lost, hl.boxed (hc.reach h).inv hr, he⟩
  | unbox hc hw hf hr ih =>
    obtain ⟨lost, hl, he⟩ := ih
    exact ⟨lost, hl.unboxed (hc.reach h).inv hw hf hr, he⟩

/-- **A cycle that ends with the address spaces and the boxes it began with** leaves no more free
frames than it found, and as many exactly when no address space that it dropped had a second-level
table. -/
theorem cycle_free_iff (h : Reach c w) (hc : Cycle c w w₁ ds) (hu : w₁.uvms = w.uvms)
    (hb : w₁.boxes = w.boxes) : w₁.phys.free.length ≤ w.phys.free.length ∧
      (w₁.phys.free.length = w.phys.free.length ↔ ∀ d ∈ ds, Bare d) := by
  obtain ⟨lost, hl, he⟩ := hc.ledger h
  have hset : w.phys.free.toFinset = w₁.phys.free.toFinset ∪ lost := by
    ext f
    rw [List.mem_toFinset, Finset.mem_union, List.mem_toFinset, hl.frames f, hu, hb]
    refine or_congr_right ⟨fun h0 => ?_, fun h0 => .inr (.inr h0)⟩
    rcases h0 with ⟨k, h1, h2, -⟩ | ⟨h1, h2⟩ | h0
    · exact absurd h1 h2
    · exact absurd h1 h2
    · exact h0
  have hcard := congrArg Finset.card hset
  rw [Finset.card_union_of_disjoint (Finset.disjoint_left.2 fun f hf hlf =>
    hl.free f hlf (List.mem_toFinset.1 hf)), List.toFinset_card_of_nodup h.inv.nodup,
    List.toFinset_card_of_nodup (hc.reach h).inv.nodup] at hcard
  refine ⟨by omega, ?_⟩
  rw [← he, ← Finset.card_eq_zero]
  omega

/-- An address space of one page, made and dropped: fewer frames are free. -/
theorem cycle_leaks : ∃ w ds, Cycle Cfg.demo demo w ds ∧ w.uvms = demo.uvms ∧
    w.boxes = demo.boxes ∧ w.phys.free.length < demo.phys.free.length := by
  obtain ⟨f, s₁, s₂, w, tab, fr, hr₁, hr₂, rfl, hsp, he, -⟩ := demo_alloc_run (n := 1) (by omega)
    (show PTE_R ||| PTE_W ≠ 0 by decide) ⟨by decide, by decide⟩
  have hnew : Cycle Cfg.demo demo (demoNew f s₁) [] := Cycle.start.new rfl rfl hr₁
  have hk : (demoNew f s₁).uvms 0 = some ⟨USER_START, 0, ⟨f⟩⟩ := rfl
  have hc := hnew.op (.alloc (1 * PAGESIZE) (PTE_R ||| PTE_W)) rfl hk ⟨by decide, by decide⟩ hr₂
  have hi := (hc.reach (.init demo_init)).inv
  have hlt : USER_START + 1 * PAGESIZE < USIZE := by
    rw [PAGESIZE_eq, USIZE_eq]
    decide
  obtain ⟨⟨⟩, s, v', hr, -⟩ := hi.returns (hi.own 0)
    (wp_drop (E := alone Cfg.demo False) id hsp (fun _ hov => absurd hov (Nat.not_le_of_lt hlt))
      (Q := fun _ _ => True) fun _ _ _ _ => trivial)
  have hk₂ : ((demoNew f s₁).put 0 (some ⟨USER_START, 1 * PAGESIZE, ⟨f⟩⟩) s₂).uvms 0 =
    some ⟨USER_START, 1 * PAGESIZE, ⟨f⟩⟩ := rfl
  have hd := hc.drop rfl hk₂ hr
  have huvms : (((demoNew f s₁).put 0 (some ⟨USER_START, 1 * PAGESIZE, ⟨f⟩⟩) s₂).put 0 none s).uvms =
      demo.uvms := by
    funext k
    by_cases hk : k = 0
    · subst hk
      rfl
    · exact (Function.update_of_ne hk ..).trans ((Function.update_of_ne hk ..).trans
        (Function.update_of_ne hk ..))
  refine ⟨_, _, hd, huvms, rfl, ?_⟩
  obtain ⟨hle, hiff⟩ := cycle_free_iff (.init demo_init) hd huvms rfl
  refine Nat.lt_of_le_of_ne hle fun heq => ?_
  -- the page had a second-level table
  have hz := hsp.tree.bare_iff.1 (hiff.1 heq _ (List.mem_cons_self ..))
  have hp := (he (pageNo USER_START) ⟨Nat.le_refl _, by omega⟩).1
  rw [pte_none hz] at hp
  exact leafWord_ne_zero _ _ hp.symm

end World

end BareMetal
