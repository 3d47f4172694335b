import BareMetal.Virt.Proof.Drop
import BareMetal.Virt.World

/-!
# Each operation keeps the invariant

One specification per method of `Uvm`: from an address space in `Space` to one in `Space`, with the
second-level tables it had and maybe more (`Kept`).
-/

namespace BareMetal

open Lib

/-- An operation left the address space `u'`: its invariant holds, no table went, and an owner
without second-level tables owns what it did. -/
structure Kept (c : Cfg) (v v' : View) (u u' : Uvm) (tab tab' : Nat → Option Nat) : Prop where
  space : Space c v' u' tab'
  root : u'.pagetable = u.pagetable
  keep : ∀ {i t}, tab i = some t → tab' i = some t
  own : (∀ i, tab' i = none) → v'.own = v.own

/-- No second-level table, no entry. -/
theorem pte_none {tab : Nat → Option Nat} (h : ∀ i, tab i = none) (m : Bytes) (q : Nat) :
    pte m tab q = 0 := by
  rw [pte, h]

theorem Grown.own_none {c : Cfg} {v v' : View} {root : Nat} {tab tab' : Nat → Option Nat}
    (h : Grown c v v' root tab tab') (hn : ∀ i, tab' i = none) : v'.own = v.own := by
  ext f
  rw [h.own]
  simp [hn]

theorem Added.own_none {c : Cfg} {v v' : View} {root : Nat} {tab tab' : Nat → Option Nat}
    {S : Nat → Prop} {perm fr : Nat → Nat} (h : Added c v v' root tab tab' S perm fr)
    (hn : ∀ i, tab' i = none) : v'.own = v.own := by
  ext f
  rw [h.own]
  refine ⟨fun hf => ?_, .inl⟩
  rcases hf with hf | ⟨i, hi⟩ | ⟨q, hq, -⟩
  · exact hf
  · rw [hn] at hi; cases hi
  · have := h.new hq
    rw [pte_none hn] at this
    exact absurd this.symm (leafWord_ne_zero _ _)

/-- What `clone` made: an address space of its own, with a copy of each page of `u`. -/
structure Copied (c : Cfg) (v v' : View) (u : Uvm) (tab : Nat → Option Nat) (u' : Uvm)
    (tab' : Nat → Option Nat) (fr : Nat → Nat) : Prop where
  begin_eq : u'.begin = u.begin
  size_eq : u'.size = u.size
  sub : ∀ f ∈ v.own, f ∈ v'.own
  mem : ∀ a, pageOf a ∈ v.own → v'.mem a = v.mem a
  space : Space c { v' with own := v'.own \ v.own } u' tab'
  own : ∀ f, f ∈ v'.own \ v.own ↔ Tree.Has u'.pagetable.root tab' f ∨
    ∃ q, ValidPages (pte v.mem tab) (pageNo USER_START) (u.size / PAGESIZE) q ∧ fr q = f
  entry : ∀ q, ValidPages (pte v.mem tab) (pageNo USER_START) (u.size / PAGESIZE) q →
    pte v'.mem tab' q = leafWord (fr q) (permOf (pte v.mem tab q))
  none : ∀ q, ¬ ValidPages (pte v.mem tab) (pageNo USER_START) (u.size / PAGESIZE) q →
    pte v'.mem tab' q = 0
  data : ∀ q, ValidPages (pte v.mem tab) (pageNo USER_START) (u.size / PAGESIZE) q →
    frameOf (pte v.mem tab q) ∈ v.own → ∀ i < PAGESIZE,
    v'.mem (fr q + i) = v.mem (frameOf (pte v.mem tab q) + i)

/-- The permissions that a call asks for the pages it adds. -/
def UvmOp.perm : UvmOp → Option Nat
  | .alloc _ perm => some perm
  | .grow _ perm => some perm
  | _ => none

/-- What a method does to the size of an address space and the entries of its pages. -/
inductive Move (c : Cfg) (u : Uvm) (e : Nat → Nat) : UvmOp → Uvm → (Nat → Nat) → Prop
  | initProc {tf} {e' : Nat → Nat} (htf : c.IsFrame tf) (h : ∀ q, e' q = e q ∨
      (q = pageNo TRAMPOLINE ∧ e' q = leafWord c.trampoline (PTE_R ||| PTE_X)) ∨
      (q = pageNo TRAPFRAME ∧ e' q = leafWord tf (PTE_R ||| PTE_W))) :
    Move c u e (.initProc tf) u e'
  | guard {o n} (ho : o.perm = some 0) (hb : u.size + n * PAGESIZE < USIZE ∨ n = 0) :
    Move c u e o { u with size := u.size + n * PAGESIZE } e
  | pages {o perm n} {fr e' : Nat → Nat} (ho : o.perm = some perm) (h0 : perm ≠ 0)
    (hb : USER_START + u.size + n * PAGESIZE < USIZE ∨ n = 0)
    (hin : ∀ q, InPages (pageNo (USER_START + u.size)) n q →
      c.IsFrame (fr q) ∧ e' q = leafWord (fr q) (perm ||| PTE_U))
    (hout : ∀ q, ¬ InPages (pageNo (USER_START + u.size)) n q → e' q = e q) :
    Move c u e o { u with size := u.size + n * PAGESIZE } e'
  | load {va img} : Move c u e (.load va img) u e
  | dealloc {size} (hle : size ≤ u.size) (hs : size % PAGESIZE = 0) :
    Move c u e (.dealloc size) { u with size }
      (unmapRange (pageNo (USER_START + size)) ((u.size - size) / PAGESIZE) e)
  | refused {size} (hs : size % PAGESIZE ≠ 0) : Move c u e (.dealloc size) u e

/-- The pages that `n` rounds of `alloc` add. -/
theorem Space.alloc {c : Cfg} {v v' : View} {u : Uvm} {tab tab' : Nat → Option Nat}
    (h : Space c v u tab) {n perm : Nat} (hp : PermOk (perm ||| PTE_U)) {fr : Nat → Nat}
    (ha : Added c v v' u.pagetable.root tab tab' (InPages (pageNo (u.begin + u.size)) n)
      (fun _ => perm ||| PTE_U) fr) :
    Space c v' { u with size := u.size + n * PAGESIZE } tab' := by
  have h0 : 0 < PAGESIZE := by rw [PAGESIZE_eq]; omega
  refine h.added ha (fun _ _ => hp) (fun _ _ => .inl (or_u perm)) ?_ (Nat.le_add_right ..)
    fun q hq => ?_
  · rw [Nat.add_mul_mod_self_right]
    exact h.size_page
  · rw [h.pageNo_end] at hq
    rw [Nat.add_mul_div_right _ _ h0]
    generalize u.size / PAGESIZE = k at *
    unfold InPages at *
    omega

section
variable {E : Mode} {v : View} {u : Uvm} {tab : Nat → Option Nat}

theorem wp_uvmNew {Q : Uvm → View → Prop} (hnull : E.oom v.own → E.stop)
    (hok : ∀ v' f, f ∉ v.own → v'.own = insert f v.own →
      (∀ a, pageOf a ≠ f → v'.mem a = v.mem a) →
      Space E.cfg v' ⟨USER_START, 0, ⟨f⟩⟩ (fun _ => none) → Q ⟨USER_START, 0, ⟨f⟩⟩ v') :
    M.wp E Uvm.new Q v := by
  unfold Uvm.new
  rw [M.wp_bind]
  exact wp_new hnull fun v' f _ hfo ho ht hm => hok v' f hfo ho hm (.new ht)

theorem permOk_or {perm : Nat} (hp : PermOk perm) : PermOk (perm ||| PTE_U) := by
  refine ⟨Nat.or_lt_two_pow (n := 5) hp.1 (by decide), ?_⟩
  have h : ¬ (perm ||| PTE_U) % 2 = 1 := by
    rw [Nat.or_mod_two_eq_one, hp.2]
    decide
  omega

theorem Added.move {c : Cfg} {v v' : View} {tab tab' : Nat → Option Nat} {o : UvmOp} {n perm : Nat}
    {fr : Nat → Nat} (h : Space c v u tab) (ho : o.perm = some perm) (h0 : perm ≠ 0)
    (hb : u.begin + u.size + n * PAGESIZE < USIZE ∨ n = 0)
    (ha : Added c v v' u.pagetable.root tab tab' (InPages (pageNo (u.begin + u.size)) n)
      (fun _ => perm ||| PTE_U) fr) :
    Move c u (pte v.mem tab) o { u with size := u.size + n * PAGESIZE } (pte v'.mem tab') := by
  rw [h.begin_eq] at hb ha
  exact .pages ho h0 hb (fun q hq => ⟨(ha.page hq).1, ha.new hq⟩) fun q hq => ha.old hq

theorem wp_alloc_space (hns : ¬ E.strict) (h : Space E.cfg v u tab) (hstop : E.stop) (o : UvmOp)
    {size perm : Nat} (ho : o.perm = some perm) (hp : PermOk perm)
    {Q : Except Unit Unit × Uvm → View → Prop}
    (hok : ∀ r u' v' tab', Kept E.cfg v v' u u' tab tab' →
      Move E.cfg u (pte v.mem tab) o u' (pte v'.mem tab') → Q (r, u') v') :
    M.wp E (u.alloc size perm) Q v := by
  unfold Uvm.alloc
  have hpu := permOk_or hp
  by_cases h0 : perm = 0
  · subst h0
    exact wp_allocLoop_guard _ (fun _ => hstop) fun hb =>
      hok _ _ v tab ⟨h.grow _, rfl, id, fun _ => rfl⟩ (.guard ho hb)
  · exact wp_allocLoop hns h0 hpu _ h.tree h.end_page (fun _ => hstop)
      (fun v' tab' fr hb ha _ => hok _ _ v' tab' ⟨h.alloc hpu ha, rfl, ha.keep, ha.own_none⟩
        (ha.move h ho h0 hb))
      fun k _ v' tab' fr hb ha _ => hok _ _ v' tab' ⟨h.alloc hpu ha, rfl, ha.keep, ha.own_none⟩
        (ha.move h ho h0 hb)

/-- Mapping one page changes its entry only. -/
theorem mapRange_one_case (p pa perm : Nat) (e : Nat → Nat) (q : Nat) :
    mapRange p 1 pa perm e q = e q ∨ q = p ∧ mapRange p 1 pa perm e q = leafWord pa perm := by
  by_cases hq : q = p
  · subst hq
    exact .inr ⟨rfl, mapRange_one ..⟩
  · exact .inl (mapRange_one_ne hq ..)

theorem wp_initProc_space (hns : ¬ E.strict) (h : Space E.cfg v u tab) {tf : Nat} (htf : E.cfg.IsFrame tf)
    {Q : Except Unit Unit → View → Prop}
    (hok : ∀ r v' tab', Kept E.cfg v v' u u tab tab' →
      Move E.cfg u (pte v.mem tab) (.initProc tf) u (pte v'.mem tab') → Q r v') :
    M.wp E (u.initProc E.cfg tf) Q v := by
  have hb := htf.bound
  unfold Uvm.initProc
  rw [M.wp_bind]
  refine wp_map_one h.tree trampoline_va.1 trampoline_va.2.1 E.cfg.trampoline_bound.1
    E.cfg.trampoline_bound.2 ⟨by decide, by decide⟩ (fun hs => absurd hs hns)
    (fun v₁ tab₁ hg₁ _ he₁ => ?_)
    fun v₁ hg₁ _ _ he₁ => ?_
  · have h₁ : Space E.cfg v₁ u tab₁ := h.sysRange hg₁ he₁ (.inl rfl) E.cfg.trampoline_sysLeaf
    have hc₁ := mapRange_one_case (pageNo TRAMPOLINE) E.cfg.trampoline (PTE_R ||| PTE_X)
      (pte v.mem tab)
    rw [← he₁] at hc₁
    dsimp only
    refine wp_map_one hg₁.tree trapframe_va.1 trapframe_va.2.1 htf.page
      (by rw [PAGESIZE_eq, USIZE_eq]; omega) ⟨by decide, by decide⟩ (fun hs => absurd hs hns)
      (fun v₂ tab₂ hg₂ _ he₂ => ?_)
      fun v₂ hg₂ _ _ he₂ => ?_
    · have hc₂ := mapRange_one_case (pageNo TRAPFRAME) tf (PTE_R ||| PTE_W) (pte v₁.mem tab₁)
      rw [← he₂] at hc₂
      refine hok _ v₂ tab₂ ⟨h₁.sysRange hg₂ he₂ (.inr rfl) htf.sysLeaf, rfl,
        fun hi => hg₂.keep (hg₁.keep hi), (hg₁.trans hg₂).own_none⟩ (.initProc htf fun q => ?_)
      rcases hc₂ q with h2 | h2
      · rw [h2]
        exact (hc₁ q).imp_right .inl
      · exact .inr (.inr h2)
    · refine hok _ v₂ tab₁ ⟨h₁.grown hg₂ he₂, rfl, hg₁.keep,
        (hg₁.trans hg₂).own_none⟩ (.initProc htf fun q => ?_)
      rw [he₂]
      exact (hc₁ q).imp_right .inl
  · exact hok _ v₁ tab ⟨h.grown hg₁ he₁, rfl, hg₁.keep, hg₁.own_none⟩
      (.initProc htf fun q => .inl (by rw [he₁]))

/-- Below the pages of the system every page is the user's own. -/
theorem Space.own_page (h : Space E.cfg v u tab) {q : Nat} (hq : ¬ SysPage q)
    (h0 : pte v.mem tab q ≠ 0) : Maps (pte v.mem tab q) (frameOf (pte v.mem tab q)) := by
  refine ⟨(h.leaf q h0).odd, ?_, rfl⟩
  by_contra hu
  exact hq (h.sys q h0 (by omega))

/-- The pages of a range that stays below the trapframe's. -/
theorem below_pages {va len : Nat} (hva : va % PAGESIZE = 0) (h : va + len ≤ TRAPFRAME) :
    va < USIZE ∧ va + pagesTo 0 len * PAGESIZE < USIZE ∧
      ∀ q, InPages (pageNo va) (pagesTo 0 len) q → ¬ SysPage q := by
  have hn : pagesTo 0 len * PAGESIZE < len + PAGESIZE := by
    unfold pagesTo
    rw [PAGESIZE_eq]
    omega
  have ht : TRAPFRAME = 0xffffd000 := by
    unfold TRAPFRAME TRAMPOLINE VIRT_END
    rw [PAGESIZE_eq]
  rw [PAGESIZE_eq] at *
  rw [ht] at h
  refine ⟨by rw [USIZE_eq]; omega, by rw [USIZE_eq]; omega, fun q hq hs => ?_⟩
  unfold SysPage at hs
  rw [trampoline_va.2.2, trapframe_va.2.2] at hs
  unfold InPages pageNo at hq
  rw [PAGESIZE_eq] at hq
  omega

theorem wp_load_space (h : Space E.cfg v u tab) (hstop : E.stop) {va : Nat} {img : Slice}
    (hr : va + img.len ≤ TRAPFRAME) {Q : Except Unit Unit → View → Prop}
    (hok : ∀ r v', Kept E.cfg v v' u u tab tab →
      Move E.cfg u (pte v.mem tab) (.load va img) u (pte v'.mem tab) → Q r v') :
    M.wp E (u.load va img) Q v := by
  unfold Uvm.load
  by_cases hva : va % PAGESIZE = 0
  swap
  · rw [if_pos hva]
    exact hok _ v ⟨h, rfl, id, fun _ => rfl⟩ .load
  rw [if_neg (not_not_intro hva)]
  obtain ⟨hlt, hend, hsys⟩ := below_pages hva hr
  have hown : ∀ q, InPages (pageNo va) (pagesTo 0 img.len) q → pte v.mem tab q ≠ 0 →
      frameOf (pte v.mem tab q) ∈ v.own ∧
        ¬ Tree.Has u.pagetable.root tab (frameOf (pte v.mem tab q)) := fun q hq h0 =>
    h.user q _ (h.own_page (hsys q hq) h0)
  refine wp_loadLoop _ h.tree hlt hend (.inr hstop) (fun _ _ _ => hstop) hown
    fun m r _ hm _ => ?_
  have htab : ∀ a, Tree.Has u.pagetable.root tab (pageOf a) → m a = v.mem a := by
    intro a ha
    refine hm a fun q hq h0 hpg => ?_
    rw [hpg] at ha
    exact (hown q hq h0).2 ha
  refine hok r _ ⟨h.congr (fun _ hf => hf) htab, rfl, id, fun _ => rfl⟩ ?_
  rw [show pte m tab = pte v.mem tab from funext (h.tree.pte_congr htab)]
  exact .load

theorem wp_dealloc_space (hns : ¬ E.strict) (h : Space E.cfg v u tab) (hstop : E.stop) {size : Nat}
    (hle : size ≤ u.size) {Q : Except Unit Unit × Uvm → View → Prop}
    (hok : ∀ r u' v', Kept E.cfg v v' u u' tab tab →
      Move E.cfg u (pte v.mem tab) (.dealloc size) u' (pte v'.mem tab) → Q (r, u') v') :
    M.wp E (u.dealloc size) Q v := by
  unfold Uvm.dealloc
  by_cases hs : size % PAGESIZE = 0
  · have hsz := PAGESIZE_eq
    have hsp := h.size_page
    rw [if_neg (by omega), M.wp_bind]
    refine M.wp_add_or (fun _ => hstop) fun hlt => ?_
    rw [M.wp_bind]
    refine M.wp_sub hle ?_
    rw [M.wp_bind]
    have hnp : (USER_START + size) % PAGESIZE = 0 := by
      rw [Nat.add_mod, userStart_page, hs, Nat.zero_mod]
    rw [hsz] at hs hsp
    refine wp_unmap hns h.tree (by rw [hsz]; omega) hnp hlt (fun _ => hstop) h.clean
      (fun f _ hf => ?_) (fun q r f _ hq hr => h.inj q r f hq.maps hr.maps) fun v' _ hc he => ?_
    · obtain ⟨q, -, hq⟩ := hf
      exact h.user q f hq.maps
    · refine hok _ _ v' ⟨h.cut hc he (fun f hf => hf.2) (by rw [hsz]; exact hs)
        fun q hq => ?_, rfl, id, fun hn => ?_⟩ (by rw [he]; exact .dealloc hle (by rwa [hsz]))
      · rw [he] at hq
        unfold unmapRange at hq
        split at hq
        · exact absurd rfl hq
        · rename_i hn
          refine (h.range q hq).imp_right fun hr => ?_
          have hu : USER_START = 0x10000 := rfl
          unfold InPages pageNo at *
          rw [hsz] at hn hr ⊢
          omega
      · ext f
        rw [hc.own]
        refine ⟨fun hf => hf.1, fun hf => ⟨hf, ?_⟩⟩
        rintro ⟨-, q, -, hu⟩
        exact hu.ne_zero (pte_none hn _ q)
  · rw [if_pos hs]
    exact hok _ _ v ⟨h, rfl, id, fun _ => rfl⟩ (.refused hs)

/-- **Every method** keeps the invariant, and does what `Move` says. -/
theorem wp_op (hns : ¬ E.strict) (h : Space E.cfg v u tab) (hstop : E.stop) {w : World} (o : UvmOp)
    (hv : o.Valid w u) (hb : ∀ f ∈ w.boxes, E.cfg.IsFrame f) :
    M.wp E (o.run E.cfg u) (fun u' v' => ∃ tab', Kept E.cfg v v' u u' tab tab' ∧
      Move E.cfg u (pte v.mem tab) o u' (pte v'.mem tab')) v := by
  cases o with
  | initProc tf =>
    exact (M.wp_bind _ _ _ _).2 (wp_initProc_space hns h (hb tf hv)
      fun r v' tab' hk hm => ⟨tab', hk, hm⟩)
  | alloc size perm =>
    exact (M.wp_bind _ _ _ _).2 (wp_alloc_space hns h hstop _ rfl hv
      fun r u' v' tab' hk hm => ⟨tab', hk, hm⟩)
  | grow size perm =>
    refine (M.wp_bind _ _ _ _).2 ((M.wp_bind _ _ _ _).2 (M.wp_add_or (fun _ => hstop) fun _ => ?_))
    exact wp_alloc_space hns h hstop (.grow size perm) rfl hv
      fun r u' v' tab' hk hm => ⟨tab', hk, hm⟩
  | load va img =>
    exact (M.wp_bind _ _ _ _).2 (wp_load_space h hstop hv fun r v' hk hm => ⟨tab, hk, hm⟩)
  | dealloc size =>
    exact (M.wp_bind _ _ _ _).2 (wp_dealloc_space hns h hstop hv
      fun r u' v' hk hm => ⟨tab, hk, hm⟩)

theorem permOf_u (w : Nat) : permOf w / 16 % 2 = w / 16 % 2 := by
  unfold permOf; omega

/-- The frames that `clone` takes: a root, and the pages with their tables. -/
def cloneFrames (e : Nat → Nat) (u : Uvm) : Nat :=
  1 + cloneNeed e (fun _ => none) (pageNo USER_START) (u.size / PAGESIZE)

/-- **`clone`**: the new address space owns a new tree with a copy of every page. -/
theorem wp_clone_space (hns : ¬ E.strict) (h : Space E.cfg v u tab)
    (hslot : ∀ q, InPages (pageNo USER_START) (u.size / PAGESIZE) q → slot tab q = none → E.stop)
    (hend : USIZE ≤ USER_START + u.size → E.stop)
    (hran : ∀ o, E.oom o → o.card < v.own.card + cloneFrames (pte v.mem tab) u → E.stop)
    {Q : Uvm → View → Prop}
    (hok : ∀ u' v' tab' fr, Copied E.cfg v v' u tab u' tab' fr →
      v'.own.card = v.own.card + cloneFrames (pte v.mem tab) u →
      (∀ i, tab' i = none ↔ ∀ q, ValidPages (pte v.mem tab) (pageNo USER_START)
        (u.size / PAGESIZE) q → q / 1024 ≠ i) → Q u' v') :
    M.wp E u.clone Q v := by
  have hsz := PAGESIZE_eq
  have hsp := h.size_page
  have hua : u.begin + u.size = USER_START + u.size := by rw [h.begin_eq]
  unfold Uvm.clone
  rw [M.wp_bind]
  refine wp_uvmNew (fun ho => hran _ ho (by unfold cloneFrames; omega)) fun v₁ f hfo ho₁ hm₁ hs₁ => ?_
  have hcard₁ : v₁.own.card = v.own.card + 1 := by
    rw [ho₁, Finset.card_insert_of_notMem hfo]
  have hsub : ∀ g ∈ v.own, g ∈ v₁.own := fun g hg => by
    rw [ho₁]; exact Finset.mem_insert_of_mem hg
  have hnf : ∀ a, pageOf a ∈ v.own → v₁.mem a = v.mem a := fun a ha =>
    hm₁ a fun he => hfo (he ▸ ha)
  have htab : ∀ a, Tree.Has u.pagetable.root tab (pageOf a) → v₁.mem a = v.mem a := fun a ha =>
    hnf a (h.tree.has_own ha)
  have ht₁ : Tree E.cfg v₁ u.pagetable.root tab :=
    h.tree.congr (fun g hg => hsub g (h.tree.has_own hg)) htab
  have hpe : pte v₁.mem tab = pte v.mem tab := funext (h.tree.pte_congr htab)
  unfold Uvm.end
  rw [M.wp_bind]
  refine M.wp_add_or (fun hov => hend (by omega)) fun hlt => ?_
  have hn : pagesTo USER_START (u.begin + u.size) = u.size / PAGESIZE := by
    unfold pagesTo
    rw [hua, hsz] at *
    omega
  rw [hn, M.wp_bind]
  have hdiv : USER_START + u.size / PAGESIZE * PAGESIZE < USIZE := by
    rw [Nat.div_mul_cancel (Nat.dvd_of_mod_eq_zero hsp)]
    omega
  have ht' : Tree E.cfg v₁ (Uvm.mk u.begin u.size ⟨f⟩).pagetable.root fun _ => none := hs₁.tree
  have hroot : ∀ g, g ∈ v.own → ¬ Tree.Has (Uvm.mk u.begin u.size ⟨f⟩).pagetable.root
      (fun _ => none) g := by
    rintro g hg (he | ⟨i, hi⟩)
    · have he : g = f := he
      exact hfo (he ▸ hg)
    · cases hi
  refine wp_cloneLoop hns _ ht₁ ht' (fun g hg hg' => ?_) userStart_page hdiv hslot
    (fun q hq => ?_) (fun o ho hc => hran o ho ?_) fun v' tab' fr hc => ?_
  · exact hroot g (h.tree.has_own hg) hg'
  · rw [hpe] at hq ⊢
    exact (h.leaf q fun h0 => by have := hq.2; omega).readable
  · rw [hpe] at hc
    unfold cloneFrames
    omega
  · have ha := hc.added
    have hcard := hc.card_eq ht'
    rw [hpe] at ha hcard
    have hfull : Space E.cfg v' ⟨USER_START, u.size, ⟨f⟩⟩ tab' := by
      refine hs₁.added ha (fun _ _ => permOf_ok _) (fun q hq => ?_) hsp (Nat.zero_le _)
        fun q hq => hq.1
      rw [permOf_u]
      by_cases hu : pte v.mem tab q / 16 % 2 = 1
      · exact .inl hu
      · exact .inr (h.sys q (fun h0 => by have := hq.2; omega) (by omega))
    have hown : ∀ g, g ∈ v'.own \ v.own ↔ Tree.Has f tab' g ∨ ∃ q,
        ValidPages (pte v.mem tab) (pageNo USER_START) (u.size / PAGESIZE) q ∧ fr q = g := by
      intro g
      rw [Finset.mem_sdiff, ha.own, ho₁, Finset.mem_insert]
      constructor
      · rintro ⟨(h1 | h1) | h1 | h1, h2⟩
        · exact .inl (.inl h1)
        · exact absurd h1 h2
        · exact .inl (.inr h1)
        · exact .inr h1
      · rintro ((h1 | ⟨i, hi⟩) | ⟨q, hq, h1⟩)
        · exact ⟨.inl (.inl h1), h1 ▸ hfo⟩
        · exact ⟨.inr (.inl ⟨i, hi⟩), fun h2 => ha.fresh hi rfl (hsub g h2)⟩
        · exact ⟨.inr (.inr ⟨q, hq, h1⟩), fun h2 => (ha.page hq).2.1 (h1 ▸ hsub g h2)⟩
    have hvp : ∀ q, pte v'.mem tab' q ≠ 0 →
        ValidPages (pte v.mem tab) (pageNo USER_START) (u.size / PAGESIZE) q := fun q h0 => by
      by_contra hq
      exact h0 ((ha.old hq).trans (pte_none (fun _ => rfl) _ _))
    refine hok _ v' tab' fr ⟨rfl, rfl, fun g hg => ha.own_sub (hsub g hg), fun a hag => ?_, ?_,
      hown, fun q hq => ha.new hq, fun q hq => ?_, fun q hq ho i hi => ?_⟩ ?_ fun i => ?_
    · rw [ha.mem a (hsub _ hag) (hroot _ hag), hnf a hag]
    · rw [h.begin_eq]
      refine hfull.narrow (fun g hg => (hown g).2 (.inl hg)) fun q g hg => (hown g).2 (.inr ?_)
      have hq := hvp q fun h0 => not_maps_zero (h0 ▸ hg)
      have hal := (ha.page hq).1.aligned
      refine ⟨q, hq, ?_⟩
      rw [← hg.2.2, ha.new hq, frameOf_leafWord hal (permOf_ok _)]
    · by_contra h0
      exact hq (hvp q h0)
    · have hpi : pageOf (frameOf (pte v.mem tab q) + i) = frameOf (pte v.mem tab q) :=
        pageOf_eq_of (frameOf_page _) (by omega)
      have := hc.data q (by rw [hpe]; exact hq) (by rw [hpe]; exact hsub _ ho)
        (by rw [hpe]; exact hroot _ ho) i hi
      rw [this, hpe]
      exact hnf _ (by rw [hpi]; exact ho)
    · unfold cloneFrames
      omega
    · rw [ha.tab_none]
      exact ⟨And.right, fun hn => ⟨rfl, hn⟩⟩

end

end BareMetal
