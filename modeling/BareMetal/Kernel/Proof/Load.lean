import BareMetal.Kernel.Exec
import BareMetal.Virt.Proof.World

/-!
# Loading a program

`Private c v₀ v u tab`: the address space `u` is made of frames taken since `v₀`. `wp_kexecLoad`
says what `kexec` builds (`Program`): the pages of the image, a guard page, a page of stack, the
trampoline and the trapframe. Alone, the pages of the image hold what follows the image's first byte
in the kernel's memory, whole pages of it, and the stack holds what its frame held.
-/

namespace BareMetal

open Lib

/-- An address space built of frames that nobody had in `v₀`. -/
structure Private (c : Cfg) (v₀ v : View) (u : Uvm) (tab : Nat → Option Nat) : Prop where
  space : Space c v u tab
  sub : ∀ f ∈ v₀.own, f ∈ v.own
  mem : ∀ a, pageOf a ∈ v₀.own → v.mem a = v₀.mem a
  tables : ∀ f, Tree.Has u.pagetable.root tab f → f ∉ v₀.own
  pages : ∀ q f, Maps (pte v.mem tab q) f → f ∉ v₀.own

namespace Private

variable {c : Cfg} {v₀ v v' : View} {u u' : Uvm} {tab tab' : Nat → Option Nat}

/-- A new address space. -/
theorem new {r : Nat} (hr : r ∉ v₀.own) (ho : v.own = insert r v₀.own)
    (hm : ∀ a, pageOf a ≠ r → v.mem a = v₀.mem a)
    (hs : Space c v ⟨USER_START, 0, ⟨r⟩⟩ fun _ => none) :
    Private c v₀ v ⟨USER_START, 0, ⟨r⟩⟩ fun _ => none where
  space := hs
  sub f hf := by
    rw [ho]
    exact Finset.mem_insert_of_mem hf
  mem a ha := hm a fun he => hr (he ▸ ha)
  tables f hf := by
    rcases hf with rfl | ⟨i, hi⟩
    · exact hr
    · cases hi
  pages q f hf := by
    rw [pte_none fun _ => rfl] at hf
    exact absurd hf not_maps_zero

theorem of_space (h : Space c v u tab) : Private c ⟨∅, v.mem⟩ v u tab :=
  ⟨h, fun _ hf => absurd hf (Finset.notMem_empty _), fun _ _ => rfl,
    fun _ _ => Finset.notMem_empty _, fun _ _ _ => Finset.notMem_empty _⟩

/-- What is owned beyond `v₀` is enough. -/
theorem narrow (h : Private c v₀ v u tab) : Space c ⟨v.own \ v₀.own, v.mem⟩ u tab :=
  h.space.narrow (fun f hf => Finset.mem_sdiff.2 ⟨h.space.tree.has_own hf, h.tables f hf⟩)
    fun q f hf => Finset.mem_sdiff.2 ⟨(h.space.user q f hf).1, h.pages q f hf⟩

/-- Tables were added, and entries that are not the user's. -/
theorem grown (h : Private c v₀ v u tab) (hg : Grown c v v' u.pagetable.root tab tab')
    (hs : Space c v' u tab')
    (hm : ∀ q f, Maps (pte v'.mem tab' q) f → Maps (pte v.mem tab q) f) :
    Private c v₀ v' u tab' where
  space := hs
  sub f hf := hg.own_sub (h.sub f hf)
  mem a ha := (hg.mem a (hg.not_has (h.sub _ ha) fun ht => h.tables _ ht ha)).trans (h.mem a ha)
  tables f hf hv := hg.not_has (h.sub f hv) (fun ht => h.tables f ht hv) hf
  pages q f hf := h.pages q f (hm q f hf)

/-- Pages were added. -/
theorem added (h : Private c v₀ v u tab) {S : Nat → Prop} {perm fr : Nat → Nat}
    (ha : Added c v v' u.pagetable.root tab tab' S perm fr) (hp : ∀ q, S q → PermOk (perm q))
    (hs : Space c v' u' tab') (hr : u'.pagetable = u.pagetable) : Private c v₀ v' u' tab' where
  space := hs
  sub f hf := ha.own_sub (h.sub f hf)
  mem a hv := (ha.mem a (h.sub _ hv) fun ht => h.tables _ ht hv).trans (h.mem a hv)
  tables f hf hv := by
    rw [hr] at hf
    exact ha.not_has (h.sub f hv) (fun ht => h.tables f ht hv) hf
  pages q f hf hv := by
    by_cases hS : S q
    · have hal := (ha.page hS).1.aligned
      have he := hf.2.2
      rw [ha.new hS, frameOf_leafWord hal (hp q hS)] at he
      exact (ha.page hS).2.1 (he ▸ h.sub f hv)
    · rw [ha.old hS] at hf
      exact h.pages q f hf hv

/-- Memory changed in the user's pages. -/
theorem write (h : Private c v₀ v u tab) {m : Bytes}
    (hm : ∀ a, (∀ q, ¬ Maps (pte v.mem tab q) (pageOf a)) → m a = v.mem a) :
    Private c v₀ { v with mem := m } u tab := by
  have hna : ∀ a, (pageOf a ∈ v₀.own ∨ Tree.Has u.pagetable.root tab (pageOf a)) →
      m a = v.mem a := fun a ha => hm a fun q hq =>
    ha.elim (fun hv => h.pages q _ hq hv) fun ht => (h.space.user q _ hq).2 ht
  have he : ∀ q, pte m tab q = pte v.mem tab q :=
    h.space.tree.pte_congr fun a ha => hna a (.inr ha)
  refine ⟨h.space.congr (fun _ hf => hf) fun a ha => hna a (.inr ha), h.sub,
    fun a ha => (hna a (.inl ha)).trans (h.mem a ha), h.tables, fun q f hf => ?_⟩
  rw [show ({ v with mem := m } : View).mem = m from rfl, he] at hf
  exact h.pages q f hf

/-- The end moved, over pages that are not mapped. -/
theorem grow (h : Private c v₀ v u tab) (n : Nat) :
    Private c v₀ v { u with size := u.size + n * PAGESIZE } tab :=
  ⟨h.space.grow n, h.sub, h.mem, h.tables, h.pages⟩

end Private

/-! ## What `kexec` builds -/

/-- The pages of an image. -/
def imagePages (img : Slice) : Nat := pagesTo 0 img.len

/-- The page of the stack. -/
def stackPage (img : Slice) : Nat := pageNo USER_START + imagePages img + 1

/-- The permissions of the image's pages and of the stack. -/
def IMAGE_PERM : Nat := PTE_R ||| PTE_W ||| PTE_X ||| PTE_U
def STACK_PERM : Nat := PTE_W ||| PTE_R ||| PTE_U

/-- The address space of a program, in the frames `fr`. -/
structure Program (c : Cfg) (m : Bytes) (img : Slice) (tf : Nat) (u : Uvm)
    (tab : Nat → Option Nat) (fr : Nat → Nat) : Prop where
  begin_eq : u.begin = USER_START
  size : u.size = (imagePages img + 2) * PAGESIZE
  trampoline : pte m tab (pageNo TRAMPOLINE) = leafWord c.trampoline (PTE_R ||| PTE_X)
  trapframe : pte m tab (pageNo TRAPFRAME) = leafWord tf (PTE_R ||| PTE_W)
  image : ∀ q, InPages (pageNo USER_START) (imagePages img) q →
    pte m tab q = leafWord (fr q) IMAGE_PERM
  stack : pte m tab (stackPage img) = leafWord (fr (stackPage img)) STACK_PERM
  none : ∀ q, ¬ SysPage q → ¬ InPages (pageNo USER_START) (imagePages img) q → q ≠ stackPage img →
    pte m tab q = 0
  frame : ∀ q, (InPages (pageNo USER_START) (imagePages img) q ∨ q = stackPage img) →
    c.IsFrame (fr q)

/-- It depends on the entries only. -/
theorem Program.congr {c : Cfg} {m m' : Bytes} {img : Slice} {tf : Nat} {u : Uvm}
    {tab : Nat → Option Nat} {fr : Nat → Nat} (h : Program c m img tf u tab fr)
    (he : pte m' tab = pte m tab) : Program c m' img tf u tab fr := by
  obtain ⟨h1, h2, h3, h4, h5, h6, h7, h8⟩ := h
  rw [← he] at h3 h4 h5 h6 h7
  exact ⟨h1, h2, h3, h4, h5, h6, h7, h8⟩

/-- What the pages hold after a run alone from memory `m₀`. -/
structure LoadedData (m₀ m : Bytes) (img : Slice) (fr : Nat → Nat) : Prop where
  image : ∀ j < imagePages img * PAGESIZE,
    m (fr (pageNo USER_START + j / PAGESIZE) + j % PAGESIZE) = m₀ (img.ptr + j)
  stack : ∀ j < PAGESIZE, m (fr (stackPage img) + j) = m₀ (fr (stackPage img) + j)

/-! ## How many frames it takes -/

/-- The tables of `n` pages from `USER_START`. -/
def userTables (n : Nat) : Nat := if n = 0 then 0 else (n + 15) / 1024 + 1

/-- The frames of the root, the table of the trampoline and the trapframe, and the image. -/
def imageFrames (img : Slice) : Nat := 2 + imagePages img + userTables (imagePages img)

/-- The frames of the whole address space. -/
def programFrames (img : Slice) : Nat := 4 + imagePages img + (imagePages img + 17) / 1024

theorem imageFrames_lt (img : Slice) : imageFrames img < programFrames img := by
  unfold imageFrames programFrames userTables
  split <;> omega

/-- The tree has its last table and the first `t`. -/
def Tabs (tab : Nat → Option Nat) (t : Nat) : Prop := ∀ i, tab i = none ↔ i ≠ 1023 ∧ t ≤ i

namespace Tabs

variable {c : Cfg} {v v' : View} {root t : Nat} {tab tab' : Nat → Option Nat}

theorem card {t' : Nat} (h : Tabs tab t) (h' : Tabs tab' t') (ht : t' ≤ 1023) :
    (newTables tab tab').card = t' - t := by
  have he : newTables tab tab' = Finset.Ico t t' := by
    ext i
    rw [newTables, Finset.mem_filter, Finset.mem_range, Finset.mem_Ico, ne_eq, h, h']
    omega
  rw [he, Nat.card_Ico]

theorem same {p : Nat} {perm fr : Nat → Nat} (h : Tabs tab t)
    (ha : Added c v v' root tab tab' (InPages p 0) perm fr) : Tabs tab' t := by
  intro i
  rw [ha.tab_none, ← h i]
  exact and_iff_left fun q hq => absurd hq (not_inPages_zero p q)

/-- The tables after pages were added at the end. -/
theorem added {p n : Nat} {perm fr : Nat → Nat} (h : Tabs tab t)
    (ha : Added c v v' root tab tab' (InPages p n) perm fr) (hn : 0 < n) (hp : p / 1024 ≤ t)
    (ht : t ≤ (p + n - 1) / 1024 + 1) : Tabs tab' ((p + n - 1) / 1024 + 1) := by
  intro i
  rw [ha.tab_none, h]
  constructor
  · rintro ⟨⟨h1, h2⟩, hq⟩
    refine ⟨h1, ?_⟩
    by_contra hlt
    -- the first of the pages that table `i` maps
    refine hq (max p (i * 1024)) ⟨by omega, by omega⟩ (by omega)
  · rintro ⟨h1, h2⟩
    refine ⟨⟨h1, by omega⟩, fun q hq => ?_⟩
    unfold InPages at hq
    omega

/-- The tables after the first `n` pages. -/
theorem user {n : Nat} {perm fr : Nat → Nat} (h : Tabs tab 0)
    (ha : Added c v v' root tab tab' (InPages 0x10 n) perm fr) : Tabs tab' (userTables n) := by
  unfold userTables
  split
  · next hn =>
    subst hn
    exact h.same ha
  · have := h.added ha (by omega) (by omega) (by omega)
    rwa [show 0x10 + n - 1 = n + 15 by omega] at this

end Tabs

/-- The image and its tail lie in the kernel's own memory. -/
structure Slice.Fits (c : Cfg) (img : Slice) : Prop where
  start : c.etext ≤ img.ptr
  fit : img.ptr + img.len + BOOT_STACK ≤ c.ekernel

/-- Where the pages of a program lie. -/
structure PagesOk (c : Cfg) (img : Slice) : Prop where
  src : img.ptr + imagePages img * PAGESIZE ≤ c.ekernel
  read : ∀ j < imagePages img, Readable (img.ptr + j * PAGESIZE) PAGESIZE
  low : pageNo USER_START = 0x10
  high : imagePages img < 0x4000

theorem Slice.Fits.pages {c : Cfg} {img : Slice} (h : img.Fits c) : PagesOk c img := by
  have h1 := h.fit
  have h2 := h.start
  have h3 := c.etext_start
  have h4 := c.ekernel_end
  have hb : BOOT_STACK = 0x8000 := rfl
  have hk : KERNEL_START = 0x80200000 := rfl
  have hr : RAMEND = 0x84000000 := rfl
  have hn : imagePages img = (img.len + 4095) / 4096 := by
    unfold imagePages pagesTo
    rw [PAGESIZE_eq]
    congr 1
  have hsrc : img.ptr + imagePages img * PAGESIZE ≤ c.ekernel := by
    rw [hn, PAGESIZE_eq]
    omega
  refine ⟨hsrc, fun j hj => ⟨by omega, ?_⟩, ?_, ?_⟩
  · have := Nat.mul_le_mul_right PAGESIZE hj
    rw [Nat.succ_mul] at this
    omega
  · unfold pageNo
    rw [PAGESIZE_eq]
    rfl
  · rw [hn]
    omega

/-- A byte of the image or of its tail is in no frame. -/
theorem PagesOk.not_frame {c : Cfg} {img : Slice} (h : PagesOk c img) {f j : Nat}
    (hj : j < imagePages img * PAGESIZE) (hf : c.IsFrame f) : pageOf (img.ptr + j) ≠ f := by
  have h1 := h.src
  have h2 := hf.start
  have h3 := (pageOf_le (img.ptr + j)).1
  omega

/-- Entries of the pages above were set. -/
theorem Private.sysEntries {c : Cfg} {v₀ v v' : View} {u : Uvm} {tab tab' : Nat → Option Nat}
    (h : Private c v₀ v u tab) (hg : Grown c v v' u.pagetable.root tab tab')
    (hcase : ∀ q, (SysPage q ∧ SysLeaf (pte v'.mem tab' q)) ∨
      pte v'.mem tab' q = pte v.mem tab q) : Private c v₀ v' u tab' := by
  refine h.grown hg (h.space.sysEntries hg hcase) fun q f hf => ?_
  rcases hcase q with ⟨-, pa, perm, hp, hpa, hr, hu, hq⟩ | hq
  · rw [hq] at hf
    have := hf.2.1
    rw [leafWord_u (hr.aligned hpa) hp] at this
    omega
  · rwa [hq] at hf

section
variable {E : Mode} {v₀ v : View} {u : Uvm} {tab : Nat → Option Nat} {tf : Nat} {img : Slice}

/-- `init_proc`, whether it succeeds or not. -/
theorem wp_initProc_private (hns : ¬ E.strict) (h : Private E.cfg v₀ v u tab)
    (htf : E.cfg.IsFrame tf) {Q : Except Unit Unit → View → Prop}
    (hok : ∀ v' tab', Grown E.cfg v v' u.pagetable.root tab tab' →
      Touched tab tab' (· / 1024 = 1023) → Private E.cfg v₀ v' u tab' →
      pte v'.mem tab' = procMap E.cfg tf (pte v.mem tab) → Q (.ok ()) v')
    (herr : ∀ v' tab', Grown E.cfg v v' u.pagetable.root tab tab' →
      Touched tab tab' (· / 1024 = 1023) → Private E.cfg v₀ v' u tab' → E.oom v'.own →
      tab' 1023 = none → Q (.error ()) v') :
    M.wp E (Uvm.initProc E.cfg u tf) Q v := by
  have hb := htf.bound
  refine wp_initProc hns h.space.tree htf.page (by rw [PAGESIZE_eq, USIZE_eq]; omega)
    (fun v' tab' hg ht he => ?_) fun v' tab' hg ht ho hn he => ?_
  · refine hok v' tab' hg ht (h.sysEntries hg fun q => ?_) he
    rw [he]
    exact procMap_case htf _ q
  · refine herr v' tab' hg ht (h.sysEntries hg fun q => ?_) ho hn
    rcases he with he | he
    · rw [he]
      exact .inr rfl
    · rw [he]
      exact mapRange_case (.inl rfl) E.cfg.trampoline_sysLeaf _ q

/-- `alloc` of `n` pages, whether it succeeds or not. -/
theorem wp_alloc_private (hns : ¬ E.strict) (h : Private E.cfg v₀ v u tab) {perm n : Nat}
    (hp0 : perm ≠ 0) (hp : PermOk perm) (hlt : USER_START + u.size + n * PAGESIZE < USIZE)
    {Q : Except Unit Unit × Uvm → View → Prop}
    (hok : ∀ v' tab' fr, Added E.cfg v v' u.pagetable.root tab tab'
        (InPages (pageNo USER_START + u.size / PAGESIZE) n) (fun _ => perm ||| PTE_U) fr →
      Private E.cfg v₀ v' { u with size := u.size + n * PAGESIZE } tab' →
      (E.shared = false → ∀ a, ¬ Tree.Has u.pagetable.root tab' (pageOf a) → v'.mem a = v.mem a) →
      Q (.ok (), { u with size := u.size + n * PAGESIZE }) v')
    (herr : ∀ k < n, ∀ v' u' tab' fr, u'.size ≤ u.size + n * PAGESIZE →
      Added E.cfg v v' u.pagetable.root tab tab'
        (InPages (pageNo USER_START + u.size / PAGESIZE) k) (fun _ => perm ||| PTE_U) fr →
      Private E.cfg v₀ v' u' tab' →
      RanAt E v' tab' (pageNo USER_START + u.size / PAGESIZE + k) → Q (.error (), u') v') :
    M.wp E (u.allocLoop perm n) Q v := by
  have hpu := permOk_or hp
  have hs := h.space
  have hend := hs.pageNo_end
  have hub := hs.begin_eq
  refine wp_allocLoop hns hp0 hpu n hs.tree hs.end_page (fun hov => by rw [hub] at hov; omega)
    (fun v' tab' fr _ ha hm => ?_) fun k hk v' tab' fr _ ha hr => ?_
  · have hpr := h.added ha (fun _ _ => hpu) (hs.alloc hpu ha) rfl
    rw [hend] at ha
    exact hok v' tab' fr ha hpr hm
  · have hpr := h.added ha (fun _ _ => hpu) (hs.alloc hpu ha) rfl
    rw [hend] at ha hr
    exact herr k hk v' _ tab' fr
      (Nat.add_le_add_left (Nat.mul_le_mul_right _ (Nat.le_of_lt hk)) _) ha hpr hr

theorem image_perm : PermOk IMAGE_PERM ∧ IMAGE_PERM / 16 % 2 = 1 := ⟨⟨by decide, by decide⟩, by decide⟩

theorem stack_perm : PermOk STACK_PERM ∧ STACK_PERM / 16 % 2 = 1 := ⟨⟨by decide, by decide⟩, by decide⟩

/-- **`load`** of an image into pages that are mapped. -/
theorem wp_load_private (h : Private E.cfg v₀ v u tab) (hi : img.Fits E.cfg) {fr : Nat → Nat}
    (hpg : ∀ q, InPages (pageNo USER_START) (imagePages img) q →
      pte v.mem tab q = leafWord (fr q) IMAGE_PERM ∧ E.cfg.IsFrame (fr q))
    {Q : Except Unit Unit → View → Prop}
    (hok : ∀ m, (∀ a, (∀ q, InPages (pageNo USER_START) (imagePages img) q → pageOf a ≠ fr q) →
        m a = v.mem a) → Private E.cfg v₀ { v with mem := m } u tab →
      pte m tab = pte v.mem tab →
      (E.shared = false → ∀ j < imagePages img * PAGESIZE,
        m (fr (pageNo USER_START + j / PAGESIZE) + j % PAGESIZE) = v.mem (img.ptr + j)) →
      Q (.ok ()) { v with mem := m }) :
    M.wp E (u.load USER_START img) Q v := by
  have hp := hi.pages
  have hsz := PAGESIZE_eq
  have hlt : USER_START + imagePages img * PAGESIZE < USIZE := by
    have := hp.high
    rw [hsz, USIZE_eq, show USER_START = 0x10000 from rfl]
    omega
  have hfo : ∀ q, InPages (pageNo USER_START) (imagePages img) q →
      frameOf (pte v.mem tab q) = fr q := fun q hq => by
    rw [(hpg q hq).1, frameOf_leafWord (hpg q hq).2.aligned image_perm.1]
  have hmaps : ∀ q, InPages (pageNo USER_START) (imagePages img) q →
      Maps (pte v.mem tab q) (fr q) := fun q hq => by
    rw [(hpg q hq).1]
    exact maps_leafWord (hpg q hq).2.aligned image_perm.1 image_perm.2
  have hne : ∀ q, InPages (pageNo USER_START) (imagePages img) q → pte v.mem tab q ≠ 0 :=
    fun q hq => by
      rw [(hpg q hq).1]
      exact leafWord_ne_zero _ _
  unfold Uvm.load
  rw [if_neg (by rw [userStart_page]; omega)]
  refine wp_loadLoop (imagePages img) h.space.tree (by rw [USIZE_eq]; decide) hlt (.inl hp.read)
    (fun q hq h0 => absurd h0 (hne q hq)) (fun q hq _ => ?_) fun m r hr hm hdata => ?_
  · rw [hfo q hq]
    exact h.space.user q _ (hmaps q hq)
  · have hm' : ∀ a, (∀ q, InPages (pageNo USER_START) (imagePages img) q → pageOf a ≠ fr q) →
        m a = v.mem a := fun a ha => hm a fun q hq _ => by
      rw [hfo q hq]
      exact ha q hq
    have hpr : Private E.cfg v₀ { v with mem := m } u tab := h.write fun a ha => hm' a fun q hq hf =>
      ha q (hf ▸ hmaps q hq)
    have hr : r = .ok () := hr.resolve_right fun ⟨q, hq, hn⟩ => by
      have := hne q hq
      unfold pte at this
      unfold slot at hn
      cases ht : tab (q / 1024) with
      | none =>
        rw [ht] at this
        exact this rfl
      | some t =>
        rw [ht] at hn
        cases hn
    subst hr
    refine hok m hm' hpr (funext (h.space.tree.pte_congr fun a ha => hm' a fun q hq hf =>
      (h.space.user q _ (hmaps q hq)).2 (hf ▸ ha))) fun hsh j hj => ?_
    have hq : InPages (pageNo USER_START) (imagePages img) (pageNo USER_START + j / PAGESIZE) := by
      refine ⟨Nat.le_add_right _ _, ?_⟩
      have := Nat.div_lt_of_lt_mul (by rwa [Nat.mul_comm] at hj)
      omega
    rw [← hfo _ hq]
    refine hdata rfl hsh (fun q hq i hi' => ?_) (fun p q h1 h2 he => ?_) j hj
    · rw [hfo q hq]
      exact hp.not_frame hi' (hpg q hq).2
    · rw [hfo p h1, hfo q h2] at he
      exact h.space.inj p q _ (hmaps p h1) (he ▸ hmaps q h2)

theorem procMap_high (c : Cfg) (tf : Nat) (e : Nat → Nat) :
    procMap c tf e (pageNo TRAMPOLINE) = leafWord c.trampoline (PTE_R ||| PTE_X) ∧
      procMap c tf e (pageNo TRAPFRAME) = leafWord tf (PTE_R ||| PTE_W) := by
  unfold procMap
  rw [trampoline_va.2.2, trapframe_va.2.2]
  exact ⟨by rw [mapRange_one_ne (by omega), mapRange_one], mapRange_one ..⟩

/-- **What `kexec` builds.** -/
theorem wp_kexecLoad (hns : ¬ E.strict) {r : Nat}
    (h : Private E.cfg v₀ v ⟨USER_START, 0, ⟨r⟩⟩ fun _ => none) (htf : E.cfg.IsFrame tf)
    (hi : img.Fits E.cfg) {Q : Except Unit Unit × Uvm → View → Prop}
    (hran : ∀ o, E.oom o → v.own.card + imageFrames img ≤ o.card + 1 →
      o.card + 1 < v.own.card + programFrames img → E.stop)
    (hok : ∀ u' v' tab' fr, u'.pagetable = ⟨r⟩ → Private E.cfg v₀ v' u' tab' →
      Program E.cfg v'.mem img tf u' tab' fr → (E.shared = false → LoadedData v.mem v'.mem img fr) →
      v'.own.card + 1 = v.own.card + programFrames img → Q (.ok (), u') v')
    (herr : ∀ u' v' tab' o, Private E.cfg v₀ v' u' tab' →
      u'.size ≤ imagePages img * PAGESIZE → E.oom o →
      o.card + 1 < v.own.card + imageFrames img → Q (.error (), u') v') :
    M.wp E (kexecLoad E.cfg ⟨USER_START, 0, ⟨r⟩⟩ tf img) Q v := by
  have hp := hi.pages
  have hlow := hp.low
  have hhigh := hp.high
  have hsz := PAGESIZE_eq
  have hus := USIZE_eq
  have hst : USER_START = 0x10000 := rfl
  have hz : pte v.mem (fun _ => none) = fun _ => 0 := funext fun q => pte_none (fun _ => rfl) _ _
  unfold kexecLoad
  rw [M.wp_bind]
  refine wp_initProc_private hns h htf (fun v₁ tab₁ hg₁ ht₁ h₁ he₁ => ?_)
    fun v' tab' hg ht hpr ho hn => ?_
  rotate_left
  · -- there is no table, the last one included
    have hnew : newTables (fun _ => none) tab' = ∅ := by
      refine Finset.eq_empty_of_forall_notMem fun i hi => ?_
      rw [newTables, Finset.mem_filter] at hi
      obtain ⟨q, hq, hqi⟩ := ht i fun he => hi.2.2 he
      rw [← hqi, hq] at hi
      exact hi.2.2 hn
    have hc := hg.card_eq h.space.tree
    rw [hnew, Finset.card_empty] at hc
    refine herr _ v' tab' _ hpr (Nat.zero_le _) ho ?_
    unfold imageFrames
    omega
  rw [hz] at he₁
  have htab₁ : Tabs tab₁ 0 := by
    intro i
    constructor
    · rintro hn
      refine ⟨?_, Nat.zero_le i⟩
      rintro rfl
      have h1 : pte v₁.mem tab₁ 0xffffd ≠ 0 := by
        rw [he₁, ← trapframe_va.2.2, (procMap_high E.cfg tf fun _ => 0).2]
        exact leafWord_ne_zero _ _
      rw [pte, hn] at h1
      exact h1 rfl
    · rintro ⟨hi, -⟩
      by_contra hne
      obtain ⟨q, hq, hqi⟩ := ht₁ i hne
      exact hi (hqi.symm.trans hq)
  have hc₁ : v₁.own.card = v.own.card + 1 := by
    have hnew : newTables (fun _ => none) tab₁ = {1023} := by
      ext i
      rw [newTables, Finset.mem_filter, Finset.mem_range, Finset.mem_singleton, ne_eq, htab₁]
      simp only [true_and, Nat.zero_le, and_true, Decidable.not_not]
      omega
    have hc := hg₁.card_eq h.space.tree
    rwa [hnew, Finset.card_singleton] at hc
  dsimp only
  unfold Uvm.alloc
  rw [M.wp_bind]
  refine wp_alloc_private hns h₁ (n := imagePages img) (by decide) ⟨by decide, by decide⟩
    (by rw [hst, hsz, hus]; dsimp only; omega) (fun v₂ tab₂ fr₁ ha₂ h₂ hm₂ => ?_)
    fun k hk v' u' tab' fr hle ha hpr hr => ?_
  rotate_left
  · dsimp only at ha hr hle
    rw [Nat.zero_div, Nat.add_zero, hlow] at ha hr
    obtain ⟨o, ho, hc⟩ := hr
    have htab := htab₁.user ha
    have hcard := ha.card_eq h₁.space.tree
    rw [htab₁.card htab (by unfold userTables; split <;> omega)] at hcard
    refine herr u' v' tab' o hpr (by omega) ho ?_
    rw [htab] at hc
    unfold imageFrames
    unfold userTables at *
    rw [if_neg (by omega : imagePages img ≠ 0)]
    split at hcard <;> rename_i hk0
    · rw [if_pos hk0] at hc
      omega
    · rw [if_neg hk0] at hc
      omega
  dsimp only at ha₂ h₂ hm₂
  rw [Nat.zero_div, Nat.add_zero, show (PTE_R ||| PTE_W ||| PTE_X) ||| PTE_U = IMAGE_PERM from rfl]
    at ha₂
  rw [Nat.zero_add] at h₂
  have htab₂ : Tabs tab₂ (userTables (imagePages img)) := htab₁.user (by rwa [hlow] at ha₂)
  have hc₂ : v₂.own.card + 1 = v.own.card + imageFrames img := by
    have hcard := ha₂.card_eq h₁.space.tree
    rw [htab₁.card htab₂ (by unfold userTables; split <;> omega)] at hcard
    unfold imageFrames
    omega
  dsimp only
  rw [Nat.zero_add, M.wp_bind]
  have hpg₂ : ∀ q, InPages (pageNo USER_START) (imagePages img) q →
      pte v₂.mem tab₂ q = leafWord (fr₁ q) IMAGE_PERM ∧ E.cfg.IsFrame (fr₁ q) :=
    fun q hq => ⟨ha₂.new hq, (ha₂.page hq).1⟩
  refine wp_load_private h₂ hi hpg₂
    fun m hm₃ h₃ he₃ hdata => ?_
  dsimp only
  -- the guard page
  have hn1 : ∀ s, pagesTo s (s + PAGESIZE) = 1 := fun s => by
    unfold pagesTo
    rw [hsz]
    omega
  unfold Uvm.grow
  rw [M.wp_bind, M.wp_bind]
  refine M.wp_add (by rw [hsz, hus]; dsimp only; omega) ?_
  unfold Uvm.alloc
  dsimp only
  rw [hn1]
  refine wp_allocLoop_guard 1 (fun hov => ?_) fun _ => ?_
  · rw [hsz, hus] at hov
    dsimp only at hov
    omega
  dsimp only
  rw [M.wp_bind]
  refine M.wp_unwrapOk (fun _ => ?_) fun he => by cases he
  -- the stack
  have hpage : pageNo USER_START + (imagePages img * PAGESIZE + 1 * PAGESIZE) / PAGESIZE =
      stackPage img := by
    unfold stackPage
    rw [← Nat.add_mul, Nat.mul_div_cancel _ (by rw [hsz]; omega)]
    omega
  have hstack : stackPage img = imagePages img + 17 := by
    unfold stackPage
    omega
  have h₄ := h₃.grow 1
  dsimp only at h₄
  rw [M.wp_bind, M.wp_bind]
  refine M.wp_add (by rw [hsz, hus]; omega) ?_
  rw [hn1]
  refine wp_alloc_private hns h₄ (n := 1) (by decide) ⟨by decide, by decide⟩
    (by rw [hst, hsz, hus]; dsimp only; omega) (fun v₅ tab₅ fr₂ ha₅ h₅ hm₅ => ?_)
    fun k hk v' u' tab' fr _ ha hpr hr => ?_
  · rw [M.wp_bind]
    refine M.wp_unwrapOk (fun _ => ?_) fun he => by cases he
    dsimp only at ha₅ h₅ hm₅
    rw [hpage, show (PTE_W ||| PTE_R) ||| PTE_U = STACK_PERM from rfl] at ha₅
    have hin : ∀ {q}, InPages (stackPage img) 1 q ↔ q = stackPage img := fun {q} => by
      unfold InPages
      omega
    have hold : ∀ {q}, q ≠ stackPage img → pte v₅.mem tab₅ q = pte v₂.mem tab₂ q := fun {q} hq => by
      rw [ha₅.old fun hq' => hq (hin.1 hq')]
      exact congrFun he₃ q
    have hsys : ∀ {q}, 0xffffd ≤ q → pte v₅.mem tab₅ q = procMap E.cfg tf (fun _ => 0) q :=
      fun {q} hq => by
        rw [hold (by unfold stackPage; omega), ha₂.old fun hq' => by unfold InPages at hq'; omega, he₁]
    have hc₅ : v₅.own.card + 1 = v.own.card + programFrames img := by
      have htab₅ := htab₂.added (p := stackPage img) (n := 1) (t := userTables (imagePages img)) ha₅
        (by omega) (by unfold userTables; split <;> omega) (by unfold userTables; split <;> omega)
      have hcard := ha₅.card_eq h₄.space.tree
      rw [htab₂.card htab₅ (by omega)] at hcard
      dsimp only at hcard
      unfold programFrames
      unfold imageFrames at hc₂
      unfold userTables at hc₂ hcard
      split at hc₂ <;> rename_i hn0
      · rw [if_pos hn0] at hcard
        omega
      · rw [if_neg hn0] at hcard
        omega
    obtain ⟨hs1, hs2⟩ := procMap_high E.cfg tf fun _ => 0
    obtain ⟨hf1, hf2, hf3⟩ := ha₅.page (hin.2 rfl)
    have hne : ∀ {q}, InPages (pageNo USER_START) (imagePages img) q → q ≠ stackPage img :=
      fun {q} hq => by
        unfold InPages at hq
        unfold stackPage
        omega
    -- the frames of the image's pages are the owner's, and no tables
    have hfr : ∀ {q}, InPages (pageNo USER_START) (imagePages img) q →
        fr₁ q ∈ v₂.own ∧ ¬ Tree.Has r tab₅ (fr₁ q) := fun {q} hq => by
      have ho : fr₁ q ∈ v₂.own := (ha₂.own _).2 (.inr (.inr ⟨q, hq, rfl⟩))
      exact ⟨ho, ha₅.not_has ho (ha₂.page hq).2.2⟩
    refine hok _ v₅ tab₅ (fun q => if q = stackPage img then fr₂ q else fr₁ q) rfl h₅ ⟨rfl, ?_, ?_, ?_,
      fun q hq => ?_, ?_, fun q hq1 hq2 hq3 => ?_, fun q hq => ?_⟩
      (fun hsh => ⟨fun j hj => ?_, fun j hj => ?_⟩) hc₅
    · dsimp only
      rw [hsz]
      omega
    · rw [hsys (by rw [trampoline_va.2.2]; omega), hs1]
    · rw [hsys (by rw [trapframe_va.2.2]), hs2]
    · rw [hold (hne hq), ha₂.new hq, if_neg (hne hq)]
    · rw [ha₅.new (hin.2 rfl), if_pos rfl]
    · rw [hold hq3, ha₂.old hq2, he₁]
      unfold procMap
      rw [mapRange_one_ne fun h => hq1 (.inr h), mapRange_one_ne fun h => hq1 (.inl h)]
    · by_cases hq' : q = stackPage img
      · rw [if_pos hq', hq']
        exact hf1
      · rw [if_neg hq']
        exact (ha₂.page (hq.resolve_right hq')).1
    · have hq : InPages (pageNo USER_START) (imagePages img) (pageNo USER_START + j / PAGESIZE) := by
        refine ⟨Nat.le_add_right _ _, ?_⟩
        have := Nat.div_lt_of_lt_mul (by rwa [Nat.mul_comm] at hj)
        omega
      have hfq := (ha₂.page hq).1
      have hpa : pageOf (fr₁ (pageNo USER_START + j / PAGESIZE) + j % PAGESIZE) =
          fr₁ (pageNo USER_START + j / PAGESIZE) :=
        pageOf_eq_of hfq.page ⟨by omega, by rw [hsz]; omega⟩
      rw [if_neg (hne hq), hm₅ hsh _ (by rw [hpa]; exact (hfr hq).2), hdata hsh j hj,
        hm₂ hsh _ fun ht => hp.not_frame hj (h₂.space.tree.frame_of ht) rfl,
        hg₁.mem _ fun ht => hp.not_frame hj (h₁.space.tree.frame_of ht) rfl]
    · have hpa : pageOf (fr₂ (stackPage img) + j) = fr₂ (stackPage img) :=
        pageOf_eq_of hf1.page ⟨by omega, by omega⟩
      rw [if_pos rfl, hm₅ hsh _ (by rw [hpa]; exact hf3), hm₃ _ fun q hq he => ?_,
        hm₂ hsh _ (by rw [hpa]; exact fun ht => hf2 (h₂.space.tree.has_own ht)),
        hg₁.mem _ (by rw [hpa]; exact fun ht => hf2 (ha₂.own_sub (h₁.space.tree.has_own ht)))]
      rw [hpa] at he
      exact hf2 (he ▸ (hfr hq).1)
  · rw [M.wp_bind]
    refine M.wp_unwrapOk (fun he => by cases he) fun _ => ?_
    obtain rfl : k = 0 := by omega
    obtain ⟨o, ho, hc⟩ := hr
    dsimp only at ha hc
    rw [hpage] at ha hc
    have htab := htab₂.same ha
    have hcard := ha.card_eq h₄.space.tree
    rw [htab₂.card htab (by unfold userTables; split <;> omega), Nat.sub_self] at hcard
    dsimp only at hcard
    rw [htab] at hc
    refine hran o ho (by omega) ?_
    unfold programFrames
    unfold imageFrames at hc₂
    unfold userTables at hc₂ hc
    split at hc₂ <;> rename_i hn0
    · rw [if_pos hn0] at hc
      omega
    · rw [if_neg hn0] at hc
      omega

end

end BareMetal
