import BareMetal.Kernel.Proof.Enter

/-!
# A fork that succeeds

With a free slot and frames enough `kfork` ends, and makes a child that can run
(`MemInv.always_kfork`).
-/

namespace BareMetal

open Lib K

/-! ## The child -/

/-- The kernel's data after slot `i` has forked a child into slot `j`, with the box `f` and the
address space `u`. -/
def Data.forked (d : Data) (i j f sp : Nat) (u : Uvm) : Data :=
  (d.claimed j f sp).updProc j fun p =>
    { p with
      pagetable := u, dropping := false, parent := (d.process_table i).pid, state := .Runnable }

/-- Slot `i` has forked a child into slot `j`. -/
structure Data.Forks (d d' : Data) (i j : Nat) : Prop where
  nproc : d'.nproc = d.nproc
  pid : d'.pid = d.pid + 1
  current : d'.current = d.current
  log : d'.log = d.log
  others : ∀ k, k ≠ j → d'.process_table k = d.process_table k
  child : ∃ f sp u, u.size = (d.process_table i).pagetable.size ∧ d'.process_table j =
    { d.process_table j with
      pid := some d.pid, state := .Runnable, trapframe := f, unboxing := false
      context := .forkret sp, pagetable := u, dropping := false
      parent := (d.process_table i).pid }

theorem Data.forked_forks (d : Data) {i j f sp : Nat} {u : Uvm}
    (hu : u.size = (d.process_table i).pagetable.size) : d.Forks (d.forked i j f sp u) i j := by
  refine ⟨rfl, rfl, rfl, rfl, fun k hk => ?_, f, sp, u, hu, ?_⟩
  · rw [Data.forked, Data.updProc_ne _ _ hk, Data.claimed_ne _ _ _ hk]
  · rw [Data.forked, Data.updProc_self, Data.claimed_self]

section
variable {c : Cfg} {s : Sys} {i j : Nat} {v : View} {total P : Finset Nat} {m₀ : Bytes} {b : Bool}

/-- The child gets its address space, and can run. -/
theorem always_startChild {u : Uvm} {pid : Nat} {tab : Nat → Option Nat} (hc : c.Eager)
    (hof : v.Of c total m₀ s.phys) (hb : s.locks.Holds b {.proc j, .kernel}) (hij : i ≠ j)
    (hi : (s.data.process_table i).trapframe ∈ v.own)
    (hj : (s.data.process_table j).trapframe ∈ v.own) (hP : ∀ f ∈ P, f ∈ v.own)
    (hs : Space c { v with own := P } (s.data.process_table j).pagetable tab)
    (hend : USER_START + (s.data.process_table j).pagetable.size < USIZE)
    (hpid : (s.data.process_table j).pid = some pid) :
    K.Always c (fun _ _ => True) (startChild i j u) (fun r s' => r = .ok pid ∧
      s'.data = s.data.updProc j (fun p => { p with
        pagetable := u, dropping := false, parent := (s.data.process_table i).pid
        state := .Runnable }) ∧
      s.phys.free.length ≤ s'.phys.free.length ∧ s'.locks.Holds b {.kernel}) s := by
  have hheap : LockId.heap ∉ s.locks.held := by
    rw [hb.held]
    simp
  unfold startChild
  refine always_newPagetable hc hof hheap hP hs hend fun v₁ s₁ hof₁ hold hsub d1 l1 => ?_
  have hb₁ := l1.holds hb
  have hfi : c.IsFrame (s.data.process_table i).trapframe :=
    hof.frame _ ((hof.cover _).2 (.inl hi))
  have hfj : c.IsFrame (s.data.process_table j).trapframe :=
    hof.frame _ ((hof.cover _).2 (.inl hj))
  have hpi : s₁.data.process_table i = s.data.process_table i := by
    rw [d1, Data.updProc_ne _ _ hij]
  have hpj : s₁.data.process_table j =
      { s.data.process_table j with pagetable := u, dropping := false } := by
    rw [d1, Data.updProc_self]
  refine always_writeField hfj (by rw [hpj]) (by decide) (always_bind (always_proc ?_))
  rw [show (s₁.data.process_table j).pid = some pid by rw [hpj]; exact hpid]
  refine always_writeField hfi (by rw [hpi]) (by decide) (always_bind (always_give hb₁ (by simp)
    fun s₂ p2 d2 hb₂ => always_bind (always_proc (always_bind (always_setProc ?_)))))
  rw [Finset.erase_insert (by simp)] at hb₂
  refine always_bind (always_take hb₂ (by simp) fun s₃ p3 d3 hb₃ => always_bind (always_setProc
    (always_bind (always_give hb₃ (by simp) fun s₄ p4 d4 hb₄ => always_bind (always_proc ?_)))))
  rw [Finset.erase_insert (by simp)] at hb₄
  have hd₄ : s₄.data = s.data.updProc j fun p => { p with
      pagetable := u, dropping := false, parent := (s.data.process_table i).pid
      state := .Runnable } := by
    rw [d4]
    dsimp only
    rw [d3]
    dsimp only
    rw [d2]
    dsimp only
    rw [hpi, d1, Data.updProc_twice, Data.updProc_twice]
  rw [show (s₄.data.process_table j).pid = some pid by rw [hd₄, Data.updProc_self]; exact hpid]
  refine ⟨rfl, hd₄, ?_, hb₄⟩
  have hp₄ : s₄.phys.free = s₁.phys.free := by
    rw [p4]
    dsimp only
    rw [p3]
    dsimp only
    rw [p2]
  have hcard := hof.card
  have hcard₁ := hof₁.card
  have hle := Finset.card_le_card hsub
  rw [hp₄]
  omega

/-- With a frame left for the last table the copy of the caller's address space becomes the
child's. -/
theorem always_finishFork {u : Uvm} {pid : Nat} {tab tab' : Nat → Option Nat} (hc : c.Eager)
    (hof : v.Of c total m₀ s.phys) (hb : s.locks.Holds b {.proc j, .kernel}) (hij : i ≠ j)
    (hi : (s.data.process_table i).trapframe ∈ v.own)
    (hj : (s.data.process_table j).trapframe ∈ v.own) (hu : Space c v u tab)
    (hP : ∀ f ∈ P, c.IsFrame f ∧ f ∉ total)
    (hs : Space c ⟨P, m₀⟩ (s.data.process_table j).pagetable tab')
    (hend : USER_START + (s.data.process_table j).pagetable.size < USIZE)
    (hpid : (s.data.process_table j).pid = some pid) (hfree : s.phys.free ≠ []) :
    K.Always c (fun _ _ => True) (finishFork c i j u) (fun r s' => r = .ok pid ∧
      s'.data = s.data.updProc j (fun p => { p with
        pagetable := u, dropping := false, parent := (s.data.process_table i).pid
        state := .Runnable }) ∧
      s.phys.free.length ≤ s'.phys.free.length + 1 ∧ s'.locks.Holds b {.kernel}) s := by
  unfold finishFork
  refine always_bind (always_proc ?_)
  refine always_part (E := tight c total.card False) rfl id (tight_oom hc total False) hof
    (by rw [hb.held]; simp) (wp_initProc_child hu (hof.frame _ ((hof.cover _).2 (.inl hj))))
    fun r v₁ s₁ hof₁ hinit d1 l1 => ?_
  rcases hinit with ⟨rfl, hsub, hle, -⟩ | ⟨-, -, hall, -⟩
  · have hofP := hof₁.add hP
    have hsP : Space c ⟨P, v₁.mem⟩ (s₁.data.process_table j).pagetable tab' := by
      rw [d1]
      refine hs.congr (fun _ hf => hf) fun a ha => ?_
      rw [hof₁.mem]
      exact hof₁.same a (hP _ (hs.tree.has_own ha)).2
    refine (always_startChild (v := ⟨P ∪ v₁.own, v₁.mem⟩) hc hofP (l1.holds hb) hij
      (by rw [d1]; exact Finset.mem_union_right _ (hsub _ hi))
      (by rw [d1]; exact Finset.mem_union_right _ (hsub _ hj))
      (fun f hf => Finset.mem_union_left _ hf) hsP (by rwa [d1]) (by rwa [d1])).mono
        fun r s' hq => ?_
    obtain ⟨hr, hd, hfr, hb'⟩ := hq
    rw [d1] at hd
    have hcard := hof.card
    have hcard₁ := hof₁.card
    exact ⟨hr, hd, by omega, hb'⟩
  · -- not every frame is taken
    have hcard := hof.card
    have hpos := List.length_pos_iff.2 hfree
    omega

end

/-! ## `kfork` -/

section
variable {c : Cfg} {own : Party → Finset Nat} {s : Sys} {i j : Nat} {b : Bool}

/-- The caller's frames and the box of the slot for the child. -/
theorem MemInv.forkView (ho : Owned c own s.phys.free) (hm : MemInv c own s.phys.mem s.data)
    (hi : i < s.data.nproc) (hj : j < s.data.nproc) (hij : i ≠ j) :
    ForkView c (insert (s.data.process_table j).trapframe (own (.slot i)) ∪ s.phys.free.toFinset)
      s.phys.mem (s.data.process_table i).pagetable i j
      (insert (s.data.process_table j).trapframe (own (.slot i))).card
      ((own (.slot i)).erase (s.data.process_table i).trapframe) s
      ⟨insert (s.data.process_table j).trapframe (own (.slot i)), s.phys.mem⟩ := by
  have hti := (hm.slot i hi).trapframe
  have htj := (hm.slot j hj).trapframe
  have hno : (s.data.process_table j).trapframe ∉ own (.slot i) := fun hf =>
    hij (Party.slot.inj (ho.disj _ _ _ hf htj))
  have hown : ∀ f ∈ insert (s.data.process_table j).trapframe (own (.slot i)),
      c.IsFrame f ∧ f ∉ s.phys.free := fun f hf => by
    rcases Finset.mem_insert.1 hf with rfl | hf
    · exact ⟨ho.frame _ _ htj, ho.not_free _ _ htj⟩
    · exact ⟨ho.frame _ _ hf, ho.not_free _ _ hf⟩
  refine ⟨⟨rfl, fun _ _ => rfl, ho.nodup, fun f hf => (hown f hf).2, fun f => ?_, fun f hf => ?_⟩,
    Finset.mem_insert_of_mem hti, Finset.mem_insert_self _ _, fun he => hno (he ▸ hti), rfl,
    fun f hf => Finset.mem_insert_of_mem (Finset.mem_of_mem_erase hf),
    fun hf => hno (Finset.mem_of_mem_erase hf), fun _ _ => rfl, rfl⟩
  · rw [Finset.mem_union, List.mem_toFinset]
  · rcases Finset.mem_union.1 hf with hf | hf
    · exact (hown f hf).1
    · exact ho.free_frame f (List.mem_toFinset.1 hf)

/-- What the fork of a child into slot `j` needs. -/
structure CanFork (s : Sys) (i j : Nat) : Prop where
  first : FirstFree s j
  pid : s.data.pid + 1 < USIZE
  kstack : (s.data.process_table j).kstack + KERNEL_STACK_PAGES * PAGESIZE < USIZE
  old : USER_START + (s.data.process_table j).pagetable.size < USIZE
  covered : World.Covered s.phys.mem (s.data.process_table i).pagetable
  frames : forkFrames s.phys.mem (s.data.process_table i).pagetable < s.phys.free.length

/-- Slot `i` has forked a child into slot `j`, with the locks `H` held. -/
structure Forked (b : Bool) (H : Finset LockId) (i j : Nat) (s s' : Sys) : Prop where
  data : s.data.Forks s'.data i j
  holds : s'.locks.Holds b H
  free : s.phys.free.length ≤ s'.phys.free.length +
    forkFrames s.phys.mem (s.data.process_table i).pagetable + 1

theorem MemInv.always_kforkLocked (ho : Owned c own s.phys.free)
    (hm : MemInv c own s.phys.mem s.data) (hc : c.Eager) (hi : i < s.data.nproc)
    (hd : (s.data.process_table i).dropping = false)
    (hused : (s.data.process_table i).state ≠ .Unused) (hf : CanFork s i j)
    (hb : s.locks.Holds b {.kernel}) :
    K.Always c (fun _ _ => True) (kforkLocked c i)
      (fun r s' => r = .ok s.data.pid ∧ Forked b {.kernel} i j s s') s := by
  have hij : i ≠ j := by
    rintro rfl
    exact hused hf.first.unused
  have hj : SlotMem c (own (.slot j)) s.phys.mem (s.data.process_table j) (s.data.Live j) :=
    hm.slot j hf.first.lt
  have hdead : ¬ s.data.Live j := fun hl => by
    have := hl.2
    rw [hf.first.unused] at this
    simp at this
  obtain ⟨tab, hs, -⟩ := (hm.slot i hi).space hd
  obtain ⟨tab', hs', -⟩ := hj.space (hj.whole_of hdead)
  have hview := hm.forkView ho hi hf.first.lt hij
  have hneed := hs.forkFrames_eq hf.covered.1
  dsimp only at hneed
  have hcl : Claims s j :=
    ⟨by rw [hb.held]; simp, by rw [hb.held]; simp, hf.pid, hf.kstack⟩
  -- the child's old address space is none of these frames
  have hold : ∀ g ∈ (own (.slot j)).erase (s.data.process_table j).trapframe, c.IsFrame g ∧
      g ∉ insert (s.data.process_table j).trapframe (own (.slot i)) ∪ s.phys.free.toFinset :=
    fun g hg => by
      obtain ⟨hne, hg⟩ := Finset.mem_erase.1 hg
      refine ⟨ho.frame _ _ hg, fun hmem => ?_⟩
      rcases Finset.mem_union.1 hmem with hmem | hmem
      · rcases Finset.mem_insert.1 hmem with he | hmem
        · exact hne he
        · exact hij (Party.slot.inj (ho.disj _ _ _ hmem hg))
      · exact ho.not_free _ _ hg (List.mem_toFinset.1 hmem)
  refine BareMetal.always_kforkLocked hc hview hs hused hf.first hcl hf.covered hf.frames.le
    fun u v₁ s₁ tab₁ f sp hof₁ hbox hcaller hch d1 htook => ?_
  have hcard := hview.of.card
  have hcard₁ := hof₁.card
  have hchild := hch.card
  dsimp only at hcard
  rw [← hneed] at hchild
  have hframes := hf.frames
  have hpi : s₁.data.process_table i = s.data.process_table i := by
    rw [d1, Data.claimed_ne _ _ _ hij]
  have hpj : (s₁.data.process_table j).trapframe = f ∧ (s₁.data.process_table j).pagetable =
      (s.data.process_table j).pagetable ∧ (s₁.data.process_table j).pid = some s.data.pid := by
    rw [d1, Data.claimed_self]
    exact ⟨rfl, rfl, rfl⟩
  refine (always_finishFork hc hof₁ (htook.holds hb) hij (by rwa [hpi]) (by rwa [hpj.1]) hch.space
    hold (by rwa [hpj.2.1]) (by rw [hpj.2.1]; exact hf.old) hpj.2.2 fun h0 => ?_).mono
      fun r s' hq => ?_
  · rw [h0, List.length_nil] at hcard₁
    omega
  · obtain ⟨hr, hd', hlen, hb'⟩ := hq
    refine ⟨hr, ?_, hb', by omega⟩
    rw [hd', hpi, d1]
    exact s.data.forked_forks hch.size

/-- **A fork with a free slot and frames enough** makes a child that can run. -/
theorem MemInv.always_kfork (ho : Owned c own s.phys.free) (hm : MemInv c own s.phys.mem s.data)
    (hc : c.Eager) (hi : i < s.data.nproc) (hd : (s.data.process_table i).dropping = false)
    (hused : (s.data.process_table i).state ≠ .Unused) (hf : CanFork s i j)
    (hb : s.locks.Holds b ∅) :
    K.Always c (fun _ _ => True) (kfork c i)
      (fun r s' => r = .ok s.data.pid ∧ Forked b ∅ i j s s') s := by
  unfold kfork
  refine always_bind (always_take hb (Finset.notMem_empty _) fun s₁ p1 d1 hb₁ => ?_)
  obtain ⟨h1, h2, h3, h4, h5, h6⟩ := hf
  obtain ⟨hlt, hunused, hfirst⟩ := h1
  have hf₁ : CanFork s₁ i j := by
    refine ⟨⟨?_, ?_, ?_⟩, ?_, ?_, ?_, ?_, ?_⟩ <;> simpa only [p1, d1]
  have ha := MemInv.always_kforkLocked (s := s₁) (by rwa [p1]) (by rwa [p1, d1]) hc (by rwa [d1])
    (by rwa [d1]) (by rwa [d1]) hf₁ hb₁
  refine always_bind (ha.mono fun r s₂ hq => ?_)
  obtain ⟨hr, hdata, hb₂, hlen⟩ := hq
  rw [d1] at hr hdata
  rw [p1, d1] at hlen
  refine always_bind (always_give hb₂ (Finset.mem_singleton_self _) fun s' p' d' hb' => ?_)
  rw [Finset.erase_singleton] at hb'
  exact ⟨hr, by rw [d']; exact hdata, hb', by rw [p']; exact hlen⟩

end

/-! ## What it needs -/

/-- Every page of a program has a second-level table: that of the guard page is that of the page
before or of the page after. -/
theorem Program.covered {c : Cfg} {v : View} {img : Slice} {tf : Nat} {u : Uvm}
    {tab : Nat → Option Nat} {fr : Nat → Nat} (h : Program c v.mem img tf u tab fr)
    (hs : Space c v u tab) (hi : img.Fits c) : World.Covered v.mem u := by
  by_contra hno
  rcases World.not_covered hs hno with hend | ⟨q, hq, hslot⟩
  · have := h.end_lt hs hi
    omega
  · have h0 : 0 < PAGESIZE := by rw [PAGESIZE_eq]; omega
    have hstart := hi.pages.low
    rw [slot, Option.map_eq_none_iff] at hslot
    have hnone : ∀ x, x / 1024 = q / 1024 → pte v.mem tab x = 0 := fun x hx => by
      rw [pte, hx, hslot]
    rw [h.size, Nat.mul_div_cancel _ h0] at hq
    have himage : ∀ x, InPages (pageNo USER_START) (imagePages img) x → x / 1024 ≠ q / 1024 :=
      fun x hx he => by
        have hm := maps_leafWord (h.frame x (.inl hx)).aligned image_perm.1 image_perm.2
        rw [← h.image x hx, hnone x he] at hm
        exact not_maps_zero hm
    have hstack : stackPage img / 1024 ≠ q / 1024 := fun he => by
      have hm := maps_leafWord (h.frame _ (.inr rfl)).aligned stack_perm.1 stack_perm.2
      rw [← h.stack, hnone _ he] at hm
      exact not_maps_zero hm
    have h1 := himage q
    have h2 := himage (q - 1)
    unfold InPages at hq h1 h2
    unfold stackPage at hstack
    omega

/-- A copy takes a frame for each page, and no more tables than pages. -/
theorem forkFrames_le (m : Bytes) (u : Uvm) : forkFrames m u ≤ 1 + 2 * (u.size / PAGESIZE) := by
  unfold forkFrames cloneFrames cloneNeed
  have h1 := clonePages_card_le (e := entryOf m u.pagetable.root) (p := pageNo USER_START)
    (n := u.size / PAGESIZE)
  have h2 := (Finset.card_filter_le ((clonePages (entryOf m u.pagetable.root) (pageNo USER_START)
    (u.size / PAGESIZE)).image (· / 1024)) fun i => (fun _ => none : Nat → Option Nat) i = none).trans
    Finset.card_image_le
  omega

/-! ## What a trap leaves of this -/

section
variable {c : Cfg} {o : Finset Nat} {m m' : Bytes} {u : Uvm} {tab : Nat → Option Nat}

theorem Space.forkFrames_congr (h : Space c ⟨o, m⟩ u tab) (hend : USER_START + u.size < USIZE)
    (hm : ∀ a, pageOf a ∈ o → m' a = m a) : forkFrames m' u = forkFrames m u := by
  have hm : ∀ a, Tree.Has u.pagetable.root tab (pageOf a) → m' a = m a := fun a ha =>
    hm a (h.tree.has_own ha)
  have h' : Space c ⟨o, m'⟩ u tab := h.congr (fun _ hf => hf) hm
  have hpte : pte m' tab = pte m tab := funext (h.tree.pte_congr hm)
  have h1 := h.forkFrames_eq hend
  have h2 := h'.forkFrames_eq hend
  dsimp only at h1 h2
  rw [h1, h2, hpte]

theorem Space.covered_congr (h : Space c ⟨o, m⟩ u tab) (hcov : World.Covered m u)
    (hm : ∀ a, pageOf a ∈ o → m' a = m a) : World.Covered m' u := by
  have h' : Space c ⟨o, m'⟩ u tab := h.congr (fun _ hf => hf) fun a ha =>
    hm a (h.tree.has_own ha)
  refine ⟨hcov.1, fun va h1 h2 => ?_⟩
  have hk : va / 2 ^ 22 < 1024 := by
    have := hcov.1
    rw [USIZE_eq] at this
    omega
  have he := h.tree.dir _ hk
  have he' := h'.tree.dir _ hk
  dsimp only at he he'
  rw [he', ← he]
  exact hcov.2 va h1 h2

end

section
variable {c : Cfg} {own : Finset Nat} {s s' : Sys} {i j tf : Nat}

/-- What a fork needs does not depend on the caller's trapframe. -/
theorem CanFork.same {live : Prop}
    (hm : SlotMem c own s.phys.mem (s.data.process_table i) live)
    (hd : (s.data.process_table i).dropping = false) (hf : CanFork s i j)
    (hs : s.data.SameTable s'.data) (hfree : s'.phys.free = s.phys.free)
    (hmem : ∀ a, pageOf a ≠ (s.data.process_table i).trapframe → s'.phys.mem a = s.phys.mem a) :
    CanFork s' i j ∧ forkFrames s'.phys.mem (s.data.process_table i).pagetable =
      forkFrames s.phys.mem (s.data.process_table i).pagetable := by
  obtain ⟨tab, hsp, -⟩ := hm.space hd
  have hsame : ∀ a, pageOf a ∈ own.erase (s.data.process_table i).trapframe →
      s'.phys.mem a = s.phys.mem a := fun a ha => hmem a (Finset.ne_of_mem_erase ha)
  obtain ⟨⟨hlt, hunused, hfirst⟩, hpid, hk, hold, hcov, hfr⟩ := hf
  have hframes := hsp.forkFrames_congr hcov.1 hsame
  refine ⟨⟨⟨?_, ?_, ?_⟩, ?_, ?_, ?_, ?_, ?_⟩, hframes⟩
  · rwa [hs.nproc]
  · rwa [hs.process_table]
  · rwa [hs.process_table]
  · rwa [hs.pid]
  · rwa [hs.process_table]
  · rwa [hs.process_table]
  · rw [hs.process_table]
    exact hsp.covered_congr hcov hsame
  · rwa [hs.process_table, hframes, hfree]

theorem Data.Forks.between {d d₁ d₂ d' : Data} (h : d₁.Forks d₂ i j) (h₁ : d.SameTable d₁)
    (h₂ : d₂.SameTable d') : d.Forks d' i j := by
  obtain ⟨hn, hp, hc, hl, ho, hch⟩ := h
  rw [h₁.nproc] at hn
  rw [h₁.pid] at hp
  rw [h₁.current] at hc
  rw [h₁.log] at hl
  rw [h₁.process_table] at ho hch
  rw [h₁.pid] at hch
  refine ⟨h₂.nproc.trans hn, h₂.pid.trans hp, h₂.current.trans hc, h₂.log.trans hl, ?_, ?_⟩
  · rw [h₂.process_table]
    exact ho
  · rw [h₂.process_table]
    exact hch

/-- The system call. -/
theorem K.comes_fork {D : K Label → Sys → Prop} {own : Party → Finset Nat}
    (ho : Owned c own s.phys.free) (hm : MemInv c own s.phys.mem s.data) (hc : c.Eager)
    (hl : s.data.Live i) (hd : (s.data.process_table i).dropping = false) (hf : CanFork s i j)
    (hb : s.locks.Holds true ∅)
    (ha7 : s.phys.mem.word ((s.data.process_table i).trapframe + Trapframe.a7) = SYS_FORK)
    (h : ∀ s', Forked true ∅ i j s s' → D (usertrapret c i) s') :
    K.Comes c D (syscall c i) s := by
  have hframe : c.IsFrame (s.data.process_table i).trapframe :=
    ho.frame _ _ (hm.slot i hl.1).trapframe
  have hused : (s.data.process_table i).state ≠ .Unused := fun hu => by
    have := hl.2
    rw [hu] at this
    simp at this
  unfold syscall
  refine K.comes_bind (K.always_trapframeField hframe rfl (by decide) ?_)
  rw [ha7, if_neg (by decide), if_pos rfl]
  refine K.comes_bind (K.always_bind ((hm.always_kfork ho hc hl.1 hd hused hf hb).mono
    fun r s' hq => ?_))
  obtain ⟨rfl, hq⟩ := hq
  exact K.comes_here (h s' hq)

end

namespace Machine

variable {c : Cfg} {m : Machine} {i j : Nat}

/-- **A process in user mode can fork.** -/
theorem Later.fork (hc : c.Eager) (hr : Reach c StatusFits m) (hcode : m.code = .ret .user)
    (hcur : m.sys.data.current = some i)
    (hk : (m.sys.data.process_table i).kstack + KERNEL_STACK_PAGES * PAGESIZE < USIZE)
    (hf : CanFork m.sys i j) : ∃ s, m.sys.data.Forks s.data i j ∧
      m.sys.phys.free.length ≤ s.phys.free.length +
        forkFrames m.sys.phys.mem (m.sys.data.process_table i).pagetable + 1 ∧
      Later c StatusFits m { m with sys := s, code := .ret .user } := by
  obtain ⟨own, h, -, hset, -, -, hd, -⟩ := hr.user hcode hcur
  have hslot : SlotMem c (own (.slot i)) m.sys.phys.mem (m.sys.data.process_table i) True :=
    hset.inv.runSlot hr.linked
  -- the call
  obtain ⟨s₁, h₁, hl₁⟩ := Later.ecall hr hcode hcur (fun _ => SYS_FORK) fun _ => by decide
  obtain ⟨hf₁, hframes⟩ := hf.same hslot hd h₁.toSameTable h₁.free h₁.mem
  have hr₁ := hl₁.reach hr
  obtain ⟨own₁, g₁, how₁, hi₁⟩ := hr₁.settled h₁.holds.sie (h₁.current.trans hcur)
  obtain ⟨p, s₂, ⟨rfl, hfork⟩, hl₂⟩ := Later.comes (m := { m with
      sys := s₁, code := syscall c i }) rfl (K.comes_fork
    (D := fun p s => p = BareMetal.usertrapret c i ∧ Forked true ∅ i j s₁ s) how₁
    (hi₁.mem hr.linked) hc hi₁.table.run_live (by rw [h₁.process_table]; exact hd) hf₁ h₁.holds
    (by rw [h₁.process_table]; exact h₁.regs _ (by decide)) fun s h => ⟨rfl, h⟩)
  have hr₂ := hl₂.reach hr₁
  -- and back
  have hij : i ≠ j := by
    rintro rfl
    have hrun : (m.sys.data.process_table i).state = .Running := hset.inv.table.run_running.2
    rw [hf.first.unused] at hrun
    cases hrun
  have hpi : s₂.data.process_table i = m.sys.data.process_table i := by
    rw [hfork.data.others i hij, h₁.process_table]
  obtain ⟨s₃, h₃, hl₃⟩ := Later.usertrapret hr₂ rfl hfork.holds.sie hfork.holds.held
    (hfork.data.current.trans (h₁.current.trans hcur)) (by rw [hpi]; exact hd) (by rw [hpi]; exact hk)
  refine ⟨s₃, hfork.data.between h₁.toSameTable h₃.toSameTable, ?_, (hl₁.trans hl₂).trans hl₃⟩
  have hlen := hfork.free
  rw [h₁.process_table, hframes] at hlen
  rw [h₃.free, ← h₁.free]
  exact hlen

end Machine

end BareMetal
