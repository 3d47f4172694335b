import BareMetal.Virt.Proof.Sized

/-!
# Cloning an address space

`clones_iff`: with enough frames free, `clone` gives a copy of the address space, page by page on
new frames, exactly when every page below the end has a second-level table. A page without one, as
guard pages alone leave it, stops the kernel (`wp_clone_stops`).
-/

namespace BareMetal

open Lib

/-- Every method but `init_proc`. -/
def UvmOp.Plain (o : UvmOp) : Prop := ∀ tf, o ≠ .initProc tf

/-- Every entry is the user's. -/
def AllUser (e : Nat → Nat) : Prop := ∀ q, e q ≠ 0 → e q / 16 % 2 = 1

theorem AllUser.move {c : Cfg} {u u' : Uvm} {e e' : Nat → Nat} {o : UvmOp} (h : AllUser e)
    (ho : o.Plain) (hp : ∀ perm, o.perm = some perm → PermOk perm) (hm : Move c u e o u' e') :
    AllUser e' := by
  cases hm with
  | initProc => exact absurd rfl (ho _)
  | guard => exact h
  | @pages o perm n fr e' hperm h0 hb hin hout =>
    intro q hq
    by_cases hn : InPages (pageNo (USER_START + u.size)) n q
    · obtain ⟨hf, he⟩ := hin q hn
      rw [he, leafWord_u hf.aligned (permOk_or (hp perm hperm))]
      exact or_u perm
    · rw [hout q hn] at hq ⊢
      exact h q hq
  | load => exact h
  | dealloc =>
    intro q hq
    unfold unmapRange at hq ⊢
    split at hq
    · exact absurd rfl hq
    · rename_i hn
      rw [if_neg hn]
      exact h q hq
  | refused => exact h

theorem AllUser.twin {c : Cfg} {u : Uvm} {e e' : Nat → Nat} (h : AllUser e) (ht : Twin c u e e') :
    AllUser e' := by
  intro q hq
  have ht := ht q
  split at ht
  · rename_i hv
    obtain ⟨f, hf, ht⟩ := ht
    have he : e q ≠ 0 := by
      intro h0
      have := hv.2
      rw [h0] at this
      cases this
    rw [ht, leafWord_u hf.aligned (permOf_ok _), permOf_u]
    exact h q he
  · exact absurd ht hq

/-! ## A page without a table -/

section
variable {E : Mode} {u vm : Uvm} {tab : Nat → Option Nat}

/-- The rounds of `clone` come to a page without a second-level table. -/
theorem wp_cloneLoop_stops (hns : ¬ E.strict) (hstop : E.stop) (n : Nat) :
    ∀ {v : View} {tab₁ : Nat → Option Nat} {addr : Nat}, Tree E.cfg v u.pagetable.root tab →
      Tree E.cfg v vm.pagetable.root tab₁ →
      (∀ f, Tree.Has u.pagetable.root tab f → ¬ Tree.Has vm.pagetable.root tab₁ f) →
      addr % PAGESIZE = 0 → addr + n * PAGESIZE < USIZE →
      (∀ q, ValidPages (pte v.mem tab) (pageNo addr) n q →
        Readable (frameOf (pte v.mem tab q)) PAGESIZE) →
      (∃ q, InPages (pageNo addr) n q ∧ slot tab q = none) →
      M.wp E (Uvm.cloneLoop u vm n addr) (fun _ _ => False) v := by
  induction n with
  | zero =>
    rintro v tab₁ addr _ _ _ _ _ _ ⟨q, hq, -⟩
    exact absurd hq (not_inPages_zero _ q)
  | succ n ih =>
    intro v tab₁ addr h h' hd hal hve hread hno
    have hsz := PAGESIZE_eq
    rw [hsz] at hve
    have hpn : pageNo (addr + PAGESIZE) = pageNo addr + 1 := by
      unfold pageNo
      rw [hsz]
      omega
    unfold Uvm.cloneLoop
    rw [M.wp_bind]
    by_cases hs : slot tab (pageNo addr) = none
    · unfold Uvm.clonePage
      rw [M.wp_bind]
      refine wp_walk_Walk h (by omega) ?_
      rw [hs, M.wp_bind]
      exact M.wp_unwrap_none hstop
    · refine wp_clonePage hns h h' hal (by rw [hsz]; omega) (fun h0 => absurd h0 hs)
        (fun hv => hread _ ⟨⟨by omega, by omega⟩, hv⟩) (fun _ _ => hstop)
        fun v₁ tab₂ fr₁ hc₁ => ?_
      obtain ⟨hs₁, hse, hsd⟩ := hc₁.added.other h hd
      refine ih hs₁ hc₁.added.tree hsd (by rw [Nat.add_mod_right, hal]) (by rw [hsz]; omega)
        (fun q hq => ?_) ?_
      · have hq1 := hq.1
        rw [hpn] at hq1
        have := hread q ⟨⟨by unfold InPages at hq1; omega, by unfold InPages at hq1; omega⟩, by
          rw [← hse]; exact hq.2⟩
        rwa [hse]
      · obtain ⟨q, hq, hq0⟩ := hno
        refine ⟨q, ?_, hq0⟩
        have hne : q ≠ pageNo addr := by
          rintro rfl
          exact hs hq0
        rw [hpn]
        unfold InPages at *
        omega

/-- `clone` does not return when a page has no second-level table, or the end is no address. -/
theorem wp_clone_stops {v : View} (hns : ¬ E.strict) (hstop : E.stop) (h : Space E.cfg v u tab)
    (hno : USIZE ≤ USER_START + u.size ∨
      ∃ q, InPages (pageNo USER_START) (u.size / PAGESIZE) q ∧ slot tab q = none) :
    M.wp E u.clone (fun _ _ => False) v := by
  have hsp := h.size_page
  have hua : u.begin + u.size = USER_START + u.size := by rw [h.begin_eq]
  unfold Uvm.clone
  rw [M.wp_bind]
  refine wp_uvmNew (fun _ => hstop) fun v₁ f hfo ho₁ hm₁ hs₁ => ?_
  have htab : ∀ a, Tree.Has u.pagetable.root tab (pageOf a) → v₁.mem a = v.mem a := fun a ha =>
    hm₁ a fun he => hfo (he ▸ h.tree.has_own ha)
  have ht₁ : Tree E.cfg v₁ u.pagetable.root tab := by
    refine h.tree.congr (fun g hg => ?_) htab
    rw [ho₁]
    exact Finset.mem_insert_of_mem (h.tree.has_own hg)
  unfold Uvm.end
  rw [M.wp_bind]
  refine M.wp_add_or (fun _ => hstop) fun hlt => ?_
  have hn : pagesTo USER_START (u.begin + u.size) = u.size / PAGESIZE := by
    unfold pagesTo
    rw [hua, PAGESIZE_eq] at *
    omega
  rw [hn, M.wp_bind]
  refine M.wp_conseq (wp_cloneLoop_stops hns hstop _ ht₁ (hs₁.tree : Tree E.cfg v₁
    (Uvm.mk u.begin u.size ⟨f⟩).pagetable.root _) (fun g hg hg' => ?_) userStart_page ?_
    (fun q hq => ?_) (hno.resolve_left (by omega))) fun _ _ hF => hF.elim
  · rcases hg' with he | ⟨i, hi⟩
    · exact hfo ((show g = f from he) ▸ h.tree.has_own hg)
    · cases hi
  · rw [size_div hsp]
    omega
  · have he : pte v₁.mem tab q = pte v.mem tab q := h.tree.pte_congr htab q
    have hv := hq.2
    rw [he] at hv ⊢
    exact (h.leaf q fun h0 => by rw [h0] at hv; cases hv).readable

end

/-! ## What a clone is -/

namespace World

/-- `clone` of address space `u` returns a copy: the same range, at every address the same
permissions and the same byte, on frames that were free; nothing above, and `u` as it was. -/
def Clones (c : Cfg) (w : World) (k : Nat) (u : Uvm) : Prop :=
  ∃ u' phys, u.clone.run c w.phys = .ok (u', phys) ∧ u'.begin = u.begin ∧ u'.size = u.size ∧
    (∀ va, u.begin ≤ va ∧ va < u.begin + u.size →
      match Sv32.translate w.phys.mem u.pagetable.root va with
      | some (pa, perm) => ∃ f ∈ w.phys.free,
          Sv32.translate phys.mem u'.pagetable.root va = some (f + va % PAGESIZE, perm) ∧
          phys.mem (f + va % PAGESIZE) = w.phys.mem pa
      | none => Sv32.translate phys.mem u'.pagetable.root va = none) ∧
    (∀ va va' pa perm perm', Sv32.translate phys.mem u'.pagetable.root va = some (pa, perm) →
      Sv32.translate phys.mem u'.pagetable.root va' = some (pa, perm') → va = va') ∧
    (∀ va, ¬ (u.begin ≤ va ∧ va < u.begin + u.size) →
      Sv32.translate phys.mem u'.pagetable.root va = none) ∧
    (∀ va, Sv32.translate phys.mem u.pagetable.root va =
      Sv32.translate w.phys.mem u.pagetable.root va) ∧
    ∀ a, pageOf a ∈ w.account k → phys.mem a = w.phys.mem a

variable {c : Cfg} {w : World} {p : Nat → Nat → Nat} {k : Nat} {u : Uvm}

theorem Lives.allUser {A : UvmOp → Uvm → Prop} (hA : ∀ o u', A o u' → o.Plain)
    (h : Lives c A w p) (hk : w.uvms k = some u) :
    ∃ tab, Space c ⟨w.account k, w.phys.mem⟩ u tab ∧ AllUser (pte w.phys.mem tab) :=
  Lives.entries (P := fun _ _ e => AllUser e) (fun _ _ h => absurd rfl h)
    (fun ha hp _ hm h => h.move (hA _ _ ha) hp hm) (fun _ ht h => h.twin ht) h k u hk

theorem Copied.clones {v' : View} {u' : Uvm} {phys : Phys} {tab tab' : Nat → Option Nat}
    {fr : Nat → Nat} (hsp : Space c ⟨w.account k, w.phys.mem⟩ u tab)
    (hu : AllUser (pte w.phys.mem tab)) (hr : u.clone.run c w.phys = .ok (u', phys))
    (hof : v'.Of c (w.account k ∪ w.phys.free.toFinset) w.phys.mem phys)
    (hcp : Copied c ⟨w.account k, w.phys.mem⟩ v' u tab u' tab' fr) : Clones c w k u := by
  have hm : v'.mem = phys.mem := hof.mem
  have hmem : ∀ a, pageOf a ∈ w.account k → phys.mem a = w.phys.mem a := by
    rw [← hm]
    exact hcp.mem
  have ht' : Tree c ⟨v'.own \ w.account k, phys.mem⟩ u'.pagetable.root tab' := by
    rw [← hm]
    exact hcp.space.tree
  have hin : ∀ va, InPages (pageNo USER_START) (u.size / PAGESIZE) (pageNo va) ↔
      u.begin ≤ va ∧ va < u.begin + u.size := by
    intro va
    rw [hsp.begin_eq]
    exact inPages_iff userStart_page hsp.size_page
  have hnone : ∀ q, ¬ ValidPages (pte w.phys.mem tab) (pageNo USER_START) (u.size / PAGESIZE) q →
      pte phys.mem tab' q = 0 := by
    rw [← hm]
    exact hcp.none
  -- the frame and the entry of a page that was copied
  have hnew : ∀ q, ValidPages (pte w.phys.mem tab) (pageNo USER_START) (u.size / PAGESIZE) q →
      c.IsFrame (fr q) ∧ fr q ∈ w.phys.free ∧
        pte phys.mem tab' q = leafWord (fr q) (permOf (pte w.phys.mem tab q)) := by
    intro q hq
    obtain ⟨h1, h2⟩ := Finset.mem_sdiff.1 ((hcp.own (fr q)).2 (.inr ⟨q, hq, rfl⟩))
    have h3 := (hof.cover _).2 (.inl h1)
    refine ⟨hof.frame _ h3, ?_, ?_⟩
    · rw [Finset.mem_union, List.mem_toFinset] at h3
      exact h3.resolve_left h2
    · rw [← hm]
      exact hcp.entry q hq
  have hsome : ∀ va pa perm, Sv32.translate phys.mem u'.pagetable.root va = some (pa, perm) →
      ValidPages (pte w.phys.mem tab) (pageNo USER_START) (u.size / PAGESIZE) (pageNo va) ∧
        pa = fr (pageNo va) + va % PAGESIZE := by
    intro va pa perm h
    have hq : ValidPages (pte w.phys.mem tab) (pageNo USER_START) (u.size / PAGESIZE)
        (pageNo va) := by
      by_contra hq
      have h0 : Sv32.translate phys.mem u'.pagetable.root va = none :=
        ht'.translate_even (by dsimp only; rw [hnone _ hq])
      rw [h0] at h
      cases h
    obtain ⟨hfr, -, he⟩ := hnew _ hq
    have hlt := hsp.tree.lt_of_odd hq.2
    refine ⟨hq, ?_⟩
    by_cases hl : Sv32.isLeaf (permOf (pte w.phys.mem tab (pageNo va)))
    · have h1 := ht'.translate_leaf hlt he hfr.aligned (permOf_ok _) hl
      dsimp only at h1
      rw [h1] at h
      exact (Prod.mk.inj (Option.some.inj h)).1.symm
    · have h1 : Sv32.translate phys.mem u'.pagetable.root va = none := by
        refine (ht'.translate_eq hlt).trans (if_pos (.inr ?_))
        dsimp only
        rwa [he, isLeaf_leafWord hfr.aligned (permOf_ok _)]
      rw [h1] at h
      cases h
  have hinj : ∀ q r, ValidPages (pte w.phys.mem tab) (pageNo USER_START) (u.size / PAGESIZE) q →
      ValidPages (pte w.phys.mem tab) (pageNo USER_START) (u.size / PAGESIZE) r → fr q = fr r →
      q = r := by
    intro q r hq hr he
    have hmaps : ∀ q, ValidPages (pte w.phys.mem tab) (pageNo USER_START) (u.size / PAGESIZE) q →
        Maps (pte v'.mem tab' q) (fr q) := by
      intro q hq
      obtain ⟨hfr, -, he⟩ := hnew q hq
      have h0 : pte w.phys.mem tab q ≠ 0 := by
        intro h0
        have := hq.2
        rw [h0] at this
        cases this
      have hlw : Leaf (leafWord (fr q) (permOf (pte w.phys.mem tab q))) :=
        ⟨_, _, permOf_ok _, hfr.page, hfr.readable (pageOf_self hfr.page) (by rw [hfr.page]; omega),
          rfl⟩
      rw [hm, he]
      refine ⟨hlw.odd, ?_, frameOf_leafWord hfr.aligned (permOf_ok _)⟩
      rw [leafWord_u hfr.aligned (permOf_ok _), permOf_u]
      exact hu q h0
    exact hcp.space.inj q r (fr q) (hmaps q hq) (he ▸ hmaps r hr)
  refine ⟨u', phys, hr, hcp.begin_eq, hcp.size_eq, fun va hva => ?_, fun va va' pa perm perm' h h' => ?_,
    fun va hva => ?_, fun va => ?_, hmem⟩
  · have hq := (hin va).2 hva
    by_cases hv : pte w.phys.mem tab (pageNo va) % 2 = 1
    · obtain ⟨hfr, hfree, he⟩ := hnew _ ⟨hq, hv⟩
      have hlt := hsp.tree.lt_of_odd hv
      have h0 : pte w.phys.mem tab (pageNo va) ≠ 0 := by
        intro h0
        rw [h0] at hv
        cases hv
      have hown := (hsp.user _ _ ⟨hv, hu _ h0, rfl⟩).1
      obtain ⟨f, perm, hp, hf, hrd, hw⟩ := hsp.leaf _ h0
      have hal := hrd.aligned hf
      dsimp only at hw
      rw [hw, permOf_leafWord hal hp] at he
      by_cases hl : Sv32.isLeaf perm
      · have h1 : Sv32.translate w.phys.mem u.pagetable.root va = some (f + va % PAGESIZE, perm) :=
          hsp.tree.translate_leaf hlt hw hal hp hl
        rw [h1]
        refine ⟨fr (pageNo va), hfree, ht'.translate_leaf hlt he hfr.aligned hp hl, ?_⟩
        have h0 : 0 < PAGESIZE := by rw [PAGESIZE_eq]; decide
        have hd := hcp.data _ ⟨hq, hv⟩ hown (va % PAGESIZE) (Nat.mod_lt _ h0)
        dsimp only at hd
        rwa [hm, hw, frameOf_leafWord hal hp] at hd
      · have h1 : Sv32.translate w.phys.mem u.pagetable.root va = none := by
          refine (hsp.tree.translate_eq hlt).trans (if_pos (.inr ?_))
          dsimp only
          rwa [hw, isLeaf_leafWord hal hp]
        rw [h1]
        refine (ht'.translate_eq hlt).trans (if_pos (.inr ?_))
        dsimp only
        rwa [he, isLeaf_leafWord hfr.aligned hp]
    · have h1 : Sv32.translate w.phys.mem u.pagetable.root va = none :=
        hsp.tree.translate_even (by dsimp only; omega)
      rw [h1]
      refine ht'.translate_even ?_
      dsimp only
      rw [hnone _ fun h => hv h.2]
  · obtain ⟨hq, hpa⟩ := hsome va pa perm h
    obtain ⟨hq', hpa'⟩ := hsome va' pa perm' h'
    have h1 := (hnew _ hq).1.page
    have h2 := (hnew _ hq').1.page
    have hfr : fr (pageNo va) = fr (pageNo va') ∧ va % PAGESIZE = va' % PAGESIZE := by
      rw [hpa] at hpa'
      rw [PAGESIZE_eq] at *
      omega
    have := hinj _ _ hq hq' hfr.1
    unfold pageNo at this
    rw [PAGESIZE_eq] at *
    omega
  · exact ht'.translate_even (by
      dsimp only
      rw [hnone _ fun hq => hva ((hin va).1 hq.1)])
  · have ht : Tree c ⟨w.account k, phys.mem⟩ u.pagetable.root tab :=
      hsp.tree.congr (fun f hf => hsp.tree.has_own hf) fun a ha => hmem a (hsp.tree.has_own ha)
    exact hsp.tree.translate_congr ht (hsp.tree.pte_congr (fun a ha =>
      hmem a (hsp.tree.has_own ha)) _)

/-- The end is an address, and every page below it has a second-level table. -/
def Covered (m : Bytes) (u : Uvm) : Prop :=
  USER_START + u.size < USIZE ∧ ∀ va, USER_START ≤ va → va < USER_START + u.size →
    m.word (u.pagetable.root + 4 * (va / 2 ^ 22)) % 2 = 1

section
variable {v : View} {tab : Nat → Option Nat}

theorem Covered.slot (h : Covered v.mem u) (hsp : Space c v u tab) {q : Nat}
    (hq : InPages (pageNo USER_START) (u.size / PAGESIZE) q) : slot tab q ≠ none := by
  have h0 : 0 < PAGESIZE := by rw [PAGESIZE_eq]; decide
  have hpq : pageNo (q * PAGESIZE) = q := Nat.mul_div_cancel _ h0
  have hend := h.1
  rw [← hpq] at hq ⊢
  have hr := (inPages_iff userStart_page hsp.size_page).1 hq
  exact fun hn => (hsp.tree.slot_none_iff (by omega)).1 hn (h.2 _ hr.1 hr.2)

theorem Covered.of_mapped (hsp : Space c v u tab) (hend : USER_START + u.size < USIZE)
    (h : ∀ q, InPages (pageNo USER_START) (u.size / PAGESIZE) q → pte v.mem tab q ≠ 0) :
    Covered v.mem u := by
  refine ⟨hend, fun va h1 h2 => ?_⟩
  have hin := (inPages_iff userStart_page hsp.size_page).2 ⟨h1, h2⟩
  by_contra hw
  have hslot := (hsp.tree.slot_none_iff (by omega)).2 hw
  rw [BareMetal.slot, Option.map_eq_none_iff] at hslot
  refine h _ hin ?_
  rw [pte, hslot]

theorem not_covered (hsp : Space c v u tab) (h : ¬ Covered v.mem u) :
    USIZE ≤ USER_START + u.size ∨
      ∃ q, InPages (pageNo USER_START) (u.size / PAGESIZE) q ∧ slot tab q = none := by
  by_contra hno
  rw [not_or, not_exists] at hno
  refine h ⟨by omega, fun va h1 h2 => ?_⟩
  by_contra hw
  have hlt : va < USIZE := by omega
  exact hno.2 _ ⟨(inPages_iff userStart_page hsp.size_page).2 ⟨h1, h2⟩,
    (hsp.tree.slot_none_iff hlt).2 hw⟩

end

/-- A page without a second-level table stops the kernel. -/
theorem Reach.covered (h : Reach c w) (hk : w.uvms k = some u) {u' : Uvm} {phys : Phys}
    (hr : u.clone.run c w.phys = .ok (u', phys)) : Covered w.phys.mem u := by
  obtain ⟨tab, hsp, -⟩ := h.inv.space k u hk
  by_contra hcond
  have hwp := wp_clone_stops (E := alone c True) id trivial hsp (not_covered hsp hcond)
  obtain ⟨v', -, hF⟩ := h.inv.run_ok (h.inv.own k) hwp hr
  exact hF

/-- **Cloning**: with enough frames free `clone` makes a copy exactly when every page below the end
has a second-level table and the end is an address; otherwise it stops the kernel. -/
theorem clones_iff (h : Lives c (fun o _ => o.Plain) w p) (hk : w.uvms k = some u) (hc : c.Eager)
    (hfree : 1027 + u.size / PAGESIZE ≤ w.phys.free.length) :
    Clones c w k u ↔ Covered w.phys.mem u := by
  obtain ⟨tab, hsp, hu⟩ := h.allUser (fun _ _ ho => ho) hk
  have hi := h.reach.inv
  have hsz := PAGESIZE_eq
  constructor
  · rintro ⟨u', phys, hr, -⟩
    exact h.reach.covered hk hr
  · intro hcov
    have hend := hcov.1
    have htotal : (w.account k ∪ w.phys.free.toFinset).card =
        (w.account k).card + w.phys.free.length := by
      rw [Finset.card_union_of_disjoint, List.toFinset_card_of_nodup hi.nodup]
      rw [Finset.disjoint_left]
      intro f hf hf'
      exact (hi.own k f hf).2 (List.mem_toFinset.1 hf')
    have hwp : M.wp (plenty c (w.account k ∪ w.phys.free.toFinset).card) u.clone (fun u' v' =>
        ∃ tab' fr, Copied c ⟨w.account k, w.phys.mem⟩ v' u tab u' tab' fr)
        ⟨w.account k, w.phys.mem⟩ := by
      refine wp_clone_space id hsp (fun q hq h0 => ?_) (fun hov => ?_) (fun o ho hlt => ?_)
        fun u' v' tab' fr hcp _ _ => ⟨tab', fr, hcp⟩
      · exact hcov.slot hsp hq h0
      · show False
        omega
      · have ho : (w.account k ∪ w.phys.free.toFinset).card ≤ o.card := ho
        have hneed := hsp.tree.cloneNeed_le (fun _ => none) (pageNo USER_START) (u.size / PAGESIZE)
        unfold cloneFrames at hlt
        show False
        dsimp only at *
        omega
    obtain ⟨u', phys, v', hr, hof, tab', fr, hcp⟩ := hi.run_plenty hc hwp
    exact Copied.clones hsp hu hr hof hcp

theorem clones_iff_demo : ∃ w u, w.uvms 0 = some u ∧ u.size = 2 * PAGESIZE ∧
    Clones Cfg.demo w 0 u := by
  have hsz := PAGESIZE_eq
  obtain ⟨w, p, u, tab, h, hk, hs, hsp, he, hlen⟩ := demo_life (n := 2) (by omega)
    (show PTE_R ||| PTE_W ≠ 0 by decide) (A := fun o _ => o.Plain) ⟨by decide, by decide⟩
    fun u _ tf ho => by cases ho
  have hsize : u.size / PAGESIZE = 2 := by
    rw [hs, hsz]
  refine ⟨w, u, hk, hs, (clones_iff h hk Cfg.demo_eager (by omega)).2 (.of_mapped hsp ?_ ?_)⟩
  · rw [hs, hsz, USIZE_eq]
    decide
  · rwa [hsize]

/-- A guard page in a new address space has no second-level table. -/
theorem clone_guard_stops : ∃ w p u, Lives Cfg.demo (fun o _ => o.Plain) w p ∧ w.uvms 0 = some u ∧
    Cfg.demo.Eager ∧ 1027 + u.size / PAGESIZE ≤ w.phys.free.length ∧ ¬ Clones Cfg.demo w 0 u := by
  obtain ⟨f, s, hr, hsp, hacc, hunion, -⟩ := demo_new
  have hsz := PAGESIZE_eq
  have hnew : Lives Cfg.demo (fun o _ => o.Plain) (demoNew f s) _ := .new (.init demo_init) rfl hr
  have hrun : (UvmOp.run Cfg.demo ⟨USER_START, 0, ⟨f⟩⟩ (.alloc PAGESIZE 0)).run Cfg.demo
      (demoNew f s).phys = .ok (⟨USER_START, 0 + PAGESIZE, ⟨f⟩⟩, s) := by
    have h1 : pagesTo 0 PAGESIZE = 1 := by
      unfold pagesTo
      rw [hsz]
    have hlt : 0 + PAGESIZE < USIZE := by
      rw [hsz]
      decide
    unfold UvmOp.run Uvm.alloc
    dsimp only
    rw [h1]
    unfold Uvm.allocLoop M.add
    rw [if_pos rfl, if_pos hlt]
    rfl
  have hk : (demoNew f s).uvms 0 = some ⟨USER_START, 0, ⟨f⟩⟩ := rfl
  have hlife := hnew.op (.alloc PAGESIZE 0) hk ⟨by decide, by decide⟩ (fun tf ho => by cases ho) hrun
  have hsp' := hsp.grow 1
  refine ⟨(demoNew f s).put 0 (some ⟨USER_START, 0 + PAGESIZE, ⟨f⟩⟩) s, _,
    ⟨USER_START, 0 + PAGESIZE, ⟨f⟩⟩, hlife, rfl, Cfg.demo_eager, ?_, ?_⟩
  · -- one of the 3000 frames is the root
    have h3 := congrArg Finset.card hunion
    rw [hacc, List.toFinset_card_of_nodup (demoFrames_nodup _), demoFrames_length] at h3
    have h4 := Finset.card_union_le {f} s.free.toFinset
    have h5 := List.toFinset_card_le s.free
    have h6 : ({f} ∪ s.free.toFinset).card = 3000 := h3
    rw [Finset.card_singleton] at h4
    have h7 : (0 + PAGESIZE) / PAGESIZE = 1 := by
      rw [hsz]
    show 1027 + (0 + PAGESIZE) / PAGESIZE ≤ s.free.length
    omega
  · rintro ⟨u', phys, hr, -⟩
    have hpos : USER_START < USER_START + (0 + PAGESIZE) := by
      rw [hsz]
      omega
    have hk' : ((demoNew f s).put 0 (some ⟨USER_START, 0 + PAGESIZE, ⟨f⟩⟩) s).uvms 0 =
      some ⟨USER_START, 0 + PAGESIZE, ⟨f⟩⟩ := rfl
    have hcov := (hlife.reach.covered hk' hr).2 USER_START (Nat.le_refl _) hpos
    have hw := hsp.tree.dir (USER_START / 2 ^ 22) (by decide)
    have hw : s.mem.word (f + 4 * (USER_START / 2 ^ 22)) = 0 := hw
    have hcov : s.mem.word (f + 4 * (USER_START / 2 ^ 22)) % 2 = 1 := hcov
    rw [hw] at hcov
    cases hcov

end World

end BareMetal
