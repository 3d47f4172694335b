import BareMetal.Virt.Proof.Life
import BareMetal.Virt.Proof.Translate

/-!
# The size of an address space and what is mapped below it

`Proper` calls ask for no page, guard pages or pages with one of R, W and X, and leave the end at or
below the trapframe. `Lives.tidy`: over a life of proper calls every page below the end has the
entry it was last added with, and nothing else is mapped but the pages of the system.
`size_invariant` says what follows for the translation in every world reached, for one more call of
`alloc`, and for one more call of `dealloc` with any size.
-/

namespace BareMetal

open Lib

/-- Permissions that are 0 or contain one of R, W and X, and an end at or below the trapframe. -/
def UvmOp.Proper (o : UvmOp) (u' : Uvm) : Prop :=
  (∀ perm, o.perm = some perm → perm = 0 ∨ Sv32.isLeaf perm) ∧ USER_START + u'.size ≤ TRAPFRAME

/-- The entry of a page of the system. -/
def SysEntry (w : Nat) : Prop :=
  ∃ f perm, Aligned f ∧ PermOk perm ∧ Sv32.isLeaf perm ∧ perm / 16 % 2 = 0 ∧ w = leafWord f perm

/-- The entries `e` of an address space whose pages were last added with the permissions `p`. -/
structure Tidy (c : Cfg) (u : Uvm) (p e : Nat → Nat) : Prop where
  bound : USER_START + u.size ≤ TRAPFRAME
  pages : ∀ q, InPages (pageNo USER_START) (u.size / PAGESIZE) q → p q = 0 ∧ e q = 0 ∨
    PermOk (p q) ∧ Sv32.isLeaf (p q) ∧ ∃ f, c.IsFrame f ∧ e q = leafWord f (p q ||| PTE_U)
  above : ∀ q, ¬ InPages (pageNo USER_START) (u.size / PAGESIZE) q → e q ≠ 0 →
    SysPage q ∧ SysEntry (e q)

/-- The pages of the system lie above. -/
theorem SysPage.not_in {n q : Nat} (h : SysPage q) (hn : USER_START + n * PAGESIZE ≤ TRAPFRAME) :
    ¬ InPages (pageNo USER_START) n q := by
  have hu : pageNo USER_START = 0x10 := by
    unfold pageNo
    rw [PAGESIZE_eq]
    rfl
  have ht : TRAPFRAME = 0xffffd000 := by
    unfold TRAPFRAME TRAMPOLINE VIRT_END
    rw [PAGESIZE_eq]
  have hs : USER_START = 0x10000 := rfl
  unfold SysPage at h
  rw [trampoline_va.2.2, trapframe_va.2.2] at h
  rw [hu]
  rw [hs, ht, PAGESIZE_eq] at hn
  unfold InPages
  omega

theorem size_div {s : Nat} (h : s % PAGESIZE = 0) : s / PAGESIZE * PAGESIZE = s :=
  Nat.div_mul_cancel (Nat.dvd_of_mod_eq_zero h)

theorem permOf_user {f perm : Nat} (hf : Aligned f) (hp : PermOk perm) :
    permOf (leafWord f (perm ||| PTE_U)) = perm ||| PTE_U :=
  permOf_leafWord hf (permOk_or hp)

theorem isLeaf_or {perm : Nat} (h : Sv32.isLeaf perm) : Sv32.isLeaf (perm ||| PTE_U) := by
  have hb : ∀ i, i < 3 → perm.testBit (i + 1) = true → (perm ||| PTE_U).testBit (i + 1) = true := by
    intro i _ hi
    rw [Nat.testBit_or, hi, Bool.true_or]
  have h0 := hb 0 (by omega)
  have h1 := hb 1 (by omega)
  have h2 := hb 2 (by omega)
  simp only [Nat.testBit_eq_decide_div_mod_eq, decide_eq_true_eq] at h0 h1 h2
  unfold Sv32.isLeaf at *
  omega

theorem userPage_leafWord {f perm : Nat} (hf : Aligned f) (hp : PermOk perm)
    (hl : Sv32.isLeaf perm) (hu : perm / 16 % 2 = 1) : UserPage (leafWord f perm) f := by
  have hf' := hf.1
  have hp' := hp
  refine ⟨?_, ?_, by rw [leafWord_u hf hp, hu], frameOf_leafWord hf hp⟩
  · unfold leafWord PermOk at *
    rw [PAGESIZE_eq] at hf'
    omega
  · unfold leafWord PermOk Sv32.isLeaf at *
    rw [PAGESIZE_eq] at hf'
    omega

section
variable {c : Cfg} {u u' : Uvm} {p e e' : Nat → Nat} {o : UvmOp}

/-- The pages that a call added. -/
theorem UvmOp.asked_added {n perm : Nat} (ho : o.perm = some perm) (q : Nat) :
    o.asked u { u with size := u.size + n * PAGESIZE } p q =
      if InPages (pageNo (USER_START + u.size)) n q then perm else p q := by
  have h0 : 0 < PAGESIZE := by rw [PAGESIZE_eq]; decide
  unfold UvmOp.asked
  rw [ho]
  dsimp only
  rw [Nat.add_sub_cancel_left, Nat.mul_div_cancel _ h0]

/-- The pages up to an end are those below an earlier one and those from there. -/
theorem inPages_split {s n q : Nat} (hs : s % PAGESIZE = 0) :
    InPages (pageNo USER_START) ((s + n * PAGESIZE) / PAGESIZE) q ↔
      InPages (pageNo USER_START) (s / PAGESIZE) q ∨ InPages (pageNo (USER_START + s)) n q := by
  have h0 : 0 < PAGESIZE := by rw [PAGESIZE_eq]; decide
  have hp : pageNo (USER_START + s) = pageNo USER_START + s / PAGESIZE := by
    have hu := userStart_page
    unfold pageNo
    rw [PAGESIZE_eq] at *
    omega
  rw [Nat.add_mul_div_right _ _ h0, hp]
  generalize s / PAGESIZE = k
  unfold InPages
  omega

theorem inPages_disjoint {s n q : Nat} (hs : s % PAGESIZE = 0)
    (h : InPages (pageNo (USER_START + s)) n q) :
    ¬ InPages (pageNo USER_START) (s / PAGESIZE) q := by
  have hu := userStart_page
  unfold InPages pageNo at *
  rw [PAGESIZE_eq] at *
  omega

theorem Proper.not_sys {q : Nat} (ha : o.Proper u') (hs : u'.size % PAGESIZE = 0)
    (hq : InPages (pageNo USER_START) (u'.size / PAGESIZE) q) : ¬ SysPage q := by
  intro h
  refine h.not_in ?_ hq
  rw [size_div hs]
  exact ha.2

theorem sysEntry_trampoline (c : Cfg) : SysEntry (leafWord c.trampoline (PTE_R ||| PTE_X)) :=
  ⟨_, _, c.trampoline_readable.aligned c.tramp_page, ⟨by decide, by decide⟩, by decide, by decide,
    rfl⟩

theorem sysEntry_trapframe {f : Nat} (hf : c.IsFrame f) : SysEntry (leafWord f (PTE_R ||| PTE_W)) :=
  ⟨_, _, hf.aligned, ⟨by decide, by decide⟩, by decide, by decide, rfl⟩

/-- **One call** keeps the entries tidy. -/
theorem Tidy.move (h : Tidy c u p e) (ha : o.Proper u')
    (hp : ∀ perm, o.perm = some perm → PermOk perm) (hs : u.size % PAGESIZE = 0)
    (hm : Move c u e o u' e') : Tidy c u' (o.asked u u' p) e' := by
  have hsum : ∀ n, (u.size + n * PAGESIZE) % PAGESIZE = 0 := by
    intro n
    rw [Nat.add_mul_mod_self_right]
    exact hs
  cases hm with
  | @initProc tf e' htf hm =>
    refine ⟨h.bound, fun q hq => ?_, fun q hq h0 => ?_⟩
    · -- a page of the system is not the user's
      have hn := Proper.not_sys ha hs hq
      have he : e' q = e q := by
        refine (hm q).resolve_right ?_
        rintro (⟨rfl, -⟩ | ⟨rfl, -⟩)
        · exact hn (.inl rfl)
        · exact hn (.inr rfl)
      rw [he]
      exact h.pages q hq
    · rcases hm q with he | ⟨hq', he⟩ | ⟨hq', he⟩
      · rw [he] at h0 ⊢
        exact h.above q hq h0
      · rw [he]
        exact ⟨.inl hq', sysEntry_trampoline c⟩
      · rw [he]
        exact ⟨.inr hq', sysEntry_trapframe htf⟩
  | @guard o n ho hb =>
    refine ⟨ha.2, fun q hq => ?_, fun q hq h0 => ?_⟩
    · rw [UvmOp.asked_added ho]
      rcases (inPages_split hs).1 hq with hq' | hq'
      · rw [if_neg fun hn => inPages_disjoint hs hn hq']
        exact h.pages q hq'
      · rw [if_pos hq']
        refine .inl ⟨rfl, ?_⟩
        by_contra h0
        exact Proper.not_sys ha (hsum n) hq (h.above q (inPages_disjoint hs hq') h0).1
    · exact h.above q (fun hq' => hq ((inPages_split hs).2 (.inl hq'))) h0
  | @pages o perm n fr e' ho h0 hb hin hout =>
    have hleaf := (ha.1 perm ho).resolve_left h0
    refine ⟨ha.2, fun q hq => ?_, fun q hq h0 => ?_⟩
    · rw [UvmOp.asked_added ho]
      by_cases hn : InPages (pageNo (USER_START + u.size)) n q
      · rw [if_pos hn]
        exact .inr ⟨hp perm ho, hleaf, fr q, hin q hn⟩
      · rw [if_neg hn, hout q hn]
        exact h.pages q (((inPages_split hs).1 hq).resolve_right hn)
    · have hn : ¬ InPages (pageNo (USER_START + u.size)) n q := fun hn =>
        hq ((inPages_split hs).2 (.inr hn))
      rw [hout q hn] at h0 ⊢
      exact h.above q (fun hq' => hq ((inPages_split hs).2 (.inl hq'))) h0
  | load => exact h
  | @dealloc size hle hsz =>
    have hb := h.bound
    -- the pages below the old end, those that stay and those that go
    have hsplit : ∀ q, InPages (pageNo USER_START) (u.size / PAGESIZE) q ↔
        InPages (pageNo USER_START) (size / PAGESIZE) q ∨
          InPages (pageNo (USER_START + size)) ((u.size - size) / PAGESIZE) q := by
      intro q
      have hd : size + (u.size - size) / PAGESIZE * PAGESIZE = u.size := by
        rw [size_div (Nat.sub_mod_eq_zero_of_mod_eq (hs.trans hsz.symm))]
        omega
      have := inPages_split (n := (u.size - size) / PAGESIZE) (q := q) hsz
      rwa [hd] at this
    refine ⟨?_, fun q hq => ?_, fun q hq h0 => ?_⟩
    · dsimp only
      omega
    · have he : unmapRange (pageNo (USER_START + size)) ((u.size - size) / PAGESIZE) e q = e q :=
        if_neg fun hn => inPages_disjoint hsz hn hq
      rw [he]
      exact h.pages q ((hsplit q).2 (.inl hq))
    · unfold unmapRange at h0 ⊢
      split at h0
      · exact absurd rfl h0
      · rename_i hn
        rw [if_neg hn]
        exact h.above q (fun hq' => ((hsplit q).1 hq').elim hq hn) h0
  | refused hsz => exact h

theorem Tidy.new (root : Nat) : Tidy c ⟨USER_START, 0, ⟨root⟩⟩ (fun _ => 0) fun _ => 0 := by
  refine ⟨?_, fun q hq => .inl ⟨rfl, rfl⟩, fun q _ h0 => absurd rfl h0⟩
  have hu : USER_START = 0x10000 := rfl
  unfold TRAPFRAME TRAMPOLINE VIRT_END
  rw [PAGESIZE_eq]
  dsimp only
  omega

theorem Tidy.twin {root : Nat} (h : Tidy c u p e) (ht : Twin c u e e') :
    Tidy c ⟨USER_START, u.size, ⟨root⟩⟩ p e' := by
  refine ⟨h.bound, fun q hq => ?_, fun q hq h0 => ?_⟩
  · have ht := ht q
    rcases h.pages q hq with ⟨hp, he⟩ | ⟨hp, hl, f, hf, he⟩
    · rw [if_neg fun hv => by have := hv.2; rw [he] at this; cases this] at ht
      exact .inl ⟨hp, ht⟩
    · have hodd : e q % 2 = 1 := by
        rw [he]
        exact Leaf.odd ⟨f, _, permOk_or hp, hf.page, hf.readable (pageOf_self hf.page)
          (by rw [hf.page]; omega), rfl⟩
      rw [if_pos ⟨hq, hodd⟩] at ht
      obtain ⟨g, hg, ht⟩ := ht
      rw [he, permOf_user hf.aligned hp] at ht
      exact .inr ⟨hp, hl, g, hg, ht⟩
  · have ht := ht q
    rw [if_neg fun hv => hq hv.1] at ht
    exact absurd ht h0

end

namespace World

variable {c : Cfg} {w : World} {p : Nat → Nat → Nat} {k : Nat} {u : Uvm}

/-- **The tidiness of every address space reached.** -/
theorem Lives.tidy (h : Lives c UvmOp.Proper w p) (hk : w.uvms k = some u) :
    ∃ tab, Space c ⟨w.account k, w.phys.mem⟩ u tab ∧ Tidy c u (p k) (pte w.phys.mem tab) :=
  Lives.entries (P := Tidy c) Tidy.new (fun ha hp hs hm h => h.move ha hp hs hm)
    (fun _ ht h => h.twin ht) h k u hk

end World

/-! ## What the memory holds -/

section
variable {c : Cfg} {v : View} {u : Uvm} {tab : Nat → Option Nat} {root : Nat}

theorem Tree.isTable_iff (h : Tree c v root tab) {f : Nat} :
    IsTable v.mem root f ↔ Tree.Has root tab f := by
  have hptr : ∀ t, c.IsFrame t → ptrWord t / 1024 * 4096 = t ∧ ptrWord t % 2 = 1 := by
    intro t ht
    have hp := ht.page
    unfold ptrWord
    rw [PAGESIZE_eq] at hp
    omega
  refine or_congr_right ⟨?_, ?_⟩
  · rintro ⟨i, hi, hv, hf⟩
    rw [h.dir i hi] at hv hf
    cases ht : tab i with
    | none =>
      rw [ht] at hv
      cases hv
    | some t =>
      rw [ht, dirWord, (hptr t (h.frame ht)).1] at hf
      exact ⟨i, by rw [ht, hf]⟩
  · rintro ⟨i, hi⟩
    have hlt := h.lt hi
    obtain ⟨h1, h2⟩ := hptr f (h.frame hi)
    refine ⟨i, hlt, ?_⟩
    rw [h.dir i hlt, hi]
    exact ⟨h2, h1⟩

/-- Whether a page has a second-level table, as the root has it. -/
theorem Tree.slot_none_iff (h : Tree c v root tab) {va : Nat} (hva : va < USIZE) :
    slot tab (pageNo va) = none ↔ ¬ v.mem.word (root + 4 * (va / 2 ^ 22)) % 2 = 1 := by
  have hi : va / 2 ^ 22 = pageNo va / 1024 := by
    unfold pageNo
    rw [PAGESIZE_eq]
    omega
  rw [hi, h.dir _ (pageNo_lt hva), slot, Option.map_eq_none_iff]
  cases ht : tab (pageNo va / 1024) with
  | none => exact iff_of_true rfl (by decide)
  | some t =>
    refine iff_of_false (by simp) (not_not_intro ?_)
    have hp := (h.frame ht).page
    rw [PAGESIZE_eq] at hp
    dsimp only [dirWord]
    unfold ptrWord
    omega

/-- The frame of the user page at `va`, as its entry says. -/
theorem Tree.userFrame_iff {phys : Phys} {own : Finset Nat} (h : Tree c ⟨own, phys.mem⟩ root tab)
    {va f : Nat} (hva : va % PAGESIZE = 0) : userFrame phys.mem root va = some f ↔
      va < USIZE ∧ UserPage (pte phys.mem tab (pageNo va)) f := by
  by_cases hlt : va < USIZE
  · rw [userFrame_eq h hva hlt, userPage_eq_some, and_iff_right hlt]
  · refine iff_of_false (fun hf => ?_) fun hf => hlt hf.1
    unfold userFrame Sv32.walk at hf
    rw [if_neg hlt] at hf
    cases hf

end

namespace World

/-- Every user page of address space `k` lies below its end and has a frame of its own; a page below
the end that is not mapped was added as a guard page. -/
structure Sized (c : Cfg) (w : World) (k : Nat) (u : Uvm) (p : Nat → Nat) : Prop where
  size_page : u.size % PAGESIZE = 0
  inside : ∀ va f, va % PAGESIZE = 0 → userFrame w.phys.mem u.pagetable.root va = some f →
    u.begin ≤ va ∧ va < u.begin + u.size
  alone : ∀ va f, va % PAGESIZE = 0 → userFrame w.phys.mem u.pagetable.root va = some f →
    c.IsFrame f ∧ f ∉ w.phys.free ∧ f ∉ w.boxes ∧ ∀ l u', w.uvms l = some u' →
      ¬ IsTable w.phys.mem u'.pagetable.root f ∧ ∀ va', va' % PAGESIZE = 0 →
        userFrame w.phys.mem u'.pagetable.root va' = some f → l = k ∧ va' = va
  guard : ∀ va, u.begin ≤ va → va < u.begin + u.size →
    Sv32.translate w.phys.mem u.pagetable.root va = none → p (pageNo va) = 0

variable {c : Cfg} {w : World} {p : Nat → Nat → Nat} {k : Nat} {u : Uvm}

theorem Lives.sized (h : Lives c UvmOp.Proper w p) (hk : w.uvms k = some u) :
    Sized c w k u (p k) := by
  obtain ⟨tab, hsp, ht⟩ := h.tidy hk
  have hi := h.reach.inv
  have hrange : ∀ va, InPages (pageNo USER_START) (u.size / PAGESIZE) (pageNo va) ↔
      u.begin ≤ va ∧ va < u.begin + u.size := by
    intro va
    rw [hsp.begin_eq]
    exact inPages_iff userStart_page hsp.size_page
  refine ⟨hsp.size_page, fun va f hva hf => ?_, fun va f hva hf => ?_, fun va h1 h2 hn => ?_⟩
  · obtain ⟨hlt, hu⟩ := (hsp.tree.userFrame_iff hva).1 hf
    rw [← hrange]
    by_contra hq
    obtain ⟨-, g, perm, hg, hp, -, hpu, he⟩ := ht.above _ hq hu.ne_zero
    have := hu.2.2.1
    rw [he, leafWord_u hg hp] at this
    omega
  · obtain ⟨hlt, hu⟩ := (hsp.tree.userFrame_iff hva).1 hf
    have hown := (hsp.user _ f hu.maps).1
    obtain ⟨h1, h2, h3⟩ := hi.acc k f hown
    refine ⟨h1, h2, h3, fun l u' hl => ?_⟩
    by_cases hlk : l = k
    · subst hlk
      rw [hk] at hl
      obtain rfl := Option.some.inj hl
      refine ⟨fun hT => (hsp.user _ f hu.maps).2 (hsp.tree.isTable_iff.1 hT), fun va' hva' hf' => ?_⟩
      have hu' := ((hsp.tree.userFrame_iff hva').1 hf').2
      have hq := hsp.inj _ _ f hu.maps hu'.maps
      unfold pageNo at hq
      rw [PAGESIZE_eq] at hva hva' hq
      exact ⟨rfl, by omega⟩
    · -- the frames of another address space are others
      obtain ⟨tab', hsp', -⟩ := h.tidy hl
      have hno : f ∉ w.account l := fun hf => hlk (hi.disj l k f hf hown)
      refine ⟨fun hT => hno (hsp'.tree.has_own (hsp'.tree.isTable_iff.1 hT)), fun va' hva' hf' => ?_⟩
      exact absurd (hsp'.user _ f ((hsp'.tree.userFrame_iff hva').1 hf').2.maps).1 hno
  · rcases ht.pages _ ((hrange va).2 ⟨h1, h2⟩) with hp | ⟨hp, hl, f, hf, he⟩
    · exact hp.1
    · have hb := ht.bound
      have htf := trapframe_va.2.1
      rw [hsp.begin_eq] at h2
      have := hsp.tree.translate_leaf (by omega) he hf.aligned (permOk_or hp) (isLeaf_or hl)
      rw [show (View.mk (w.account k) w.phys.mem).mem = w.phys.mem from rfl, hn] at this
      cases this

/-! ## `alloc` -/

/-- What a call `alloc(size, perm)` that returned `r` did. -/
structure Allocated (c : Cfg) (w : World) (u : Uvm) (size perm : Nat) (r : Except Unit Unit)
    (u' : Uvm) (phys : Phys) : Prop where
  ok : r = .ok () → u'.size = max u.size ((size + PAGESIZE - 1) / PAGESIZE * PAGESIZE)
  err : r = .error () → u.size ≤ u'.size ∧ u'.size < size ∧ u'.size % PAGESIZE = 0
  same : u'.begin = u.begin ∧ u'.pagetable = u.pagetable
  earlier : ∀ va, ¬ (perm ≠ 0 ∧ u.begin + u.size ≤ va ∧ va < u.begin + u'.size) →
    Sv32.translate phys.mem u.pagetable.root va = Sv32.translate w.phys.mem u.pagetable.root va
  data : ∀ va a, va % PAGESIZE = 0 →
    userFrame w.phys.mem u.pagetable.root va = some (pageOf a) → phys.mem a = w.phys.mem a
  new : perm ≠ 0 → ∀ va, u.begin + u.size ≤ va → va < u.begin + u'.size → ∃ f ∈ w.phys.free,
    Sv32.translate phys.mem u.pagetable.root va = some (f + va % PAGESIZE, perm ||| PTE_U)
  frames : ∀ f ∈ w.phys.free, f ∉ phys.free → IsTable phys.mem u.pagetable.root f ∨
    ∃ va, va % PAGESIZE = 0 ∧ u.begin + u.size ≤ va ∧ va < u.begin + u'.size ∧
      userFrame phys.mem u.pagetable.root va = some f
  free : ∀ f ∈ phys.free, f ∈ w.phys.free

theorem pagesTo_end {cur size : Nat} (hc : cur % PAGESIZE = 0) :
    cur + pagesTo cur size * PAGESIZE = max cur ((size + PAGESIZE - 1) / PAGESIZE * PAGESIZE) := by
  unfold pagesTo
  rw [PAGESIZE_eq] at *
  omega

theorem pagesTo_lt {cur size n : Nat} (hn : n < pagesTo cur size) : cur + n * PAGESIZE < size := by
  unfold pagesTo at hn
  rw [PAGESIZE_eq] at *
  omega

/-- A target at or below the trapframe. -/
theorem pagesTo_bound {cur size : Nat} (hc : cur % PAGESIZE = 0) (hb : USER_START + cur ≤ TRAPFRAME)
    (hs : USER_START + size ≤ TRAPFRAME) :
    USER_START + cur + pagesTo cur size * PAGESIZE < USIZE := by
  have ht := trapframe_va
  have hu : USER_START = 0x10000 := rfl
  unfold pagesTo
  rw [PAGESIZE_eq] at *
  omega

/-- `n` pages were added: all that were asked for, or fewer. -/
theorem Inv.allocated (hi : Inv c w) {tab tab' : Nat → Option Nat} {fr : Nat → Nat} {v' : View}
    {phys : Phys} {size perm n : Nat} {r : Except Unit Unit}
    (hsp : Space c ⟨w.account k, w.phys.mem⟩ u tab)
    (hof : v'.Of c (w.account k ∪ w.phys.free.toFinset) w.phys.mem phys)
    (hb : u.begin + u.size + n * PAGESIZE < USIZE) (hp : PermOk perm) (hl : Sv32.isLeaf perm)
    (ha : Added c ⟨w.account k, w.phys.mem⟩ v' u.pagetable.root tab tab'
      (InPages (pageNo (u.begin + u.size)) n) (fun _ => perm ||| PTE_U) fr)
    (hok : r = .ok () → n = pagesTo u.size size) (herr : r = .error () → n < pagesTo u.size size) :
    Allocated c w u size perm r { u with size := u.size + n * PAGESIZE } phys := by
  have h0 : 0 < PAGESIZE := by rw [PAGESIZE_eq]; decide
  have hend := hsp.end_page
  have hm : v'.mem = phys.mem := hof.mem
  have ht := ha.tree
  rw [show v' = ⟨v'.own, phys.mem⟩ by rw [← hm]] at ht
  have hin : ∀ va, InPages (pageNo (u.begin + u.size)) n (pageNo va) ↔
      u.begin + u.size ≤ va ∧ va < u.begin + (u.size + n * PAGESIZE) := by
    intro va
    rw [← Nat.add_assoc, ← inPages_iff hend (Nat.mul_mod_left _ _), Nat.mul_div_cancel _ h0]
  have hnew : ∀ {q}, InPages (pageNo (u.begin + u.size)) n q →
      pte phys.mem tab' q = leafWord (fr q) (perm ||| PTE_U) := by
    intro q hq
    rw [← hm]
    exact ha.new hq
  have hfree : ∀ f, f ∈ v'.own → f ∉ w.account k → f ∈ w.phys.free := by
    intro f hf hn
    have := (hof.cover f).2 (.inl hf)
    rw [Finset.mem_union, List.mem_toFinset] at this
    exact this.resolve_left hn
  refine ⟨fun hr => ?_, fun hr => ?_, ⟨rfl, rfl⟩, fun va hva => ?_, fun va a hva hf => ?_,
    fun _ va h1 h2 => ?_, fun f hf hnf => ?_, fun f hf => ?_⟩
  · rw [← pagesTo_end hsp.size_page, ← hok hr]
  · refine ⟨Nat.le_add_right _ _, pagesTo_lt (herr hr), ?_⟩
    dsimp only
    rw [Nat.add_mul_mod_self_right]
    exact hsp.size_page
  · have hne : perm ≠ 0 := by
      rintro rfl
      exact hl rfl
    refine hsp.tree.translate_congr ht ?_
    dsimp only
    rw [← hm]
    exact ha.old fun hq => hva ⟨hne, (hin va).1 hq⟩
  · have hu := ((hsp.tree.userFrame_iff hva).1 hf).2
    obtain ⟨h1, h2⟩ := hsp.user _ _ hu.maps
    rw [← hm]
    exact ha.mem a h1 h2
  · have hq := (hin va).2 ⟨h1, h2⟩
    obtain ⟨hf, hno, -⟩ := ha.page hq
    refine ⟨fr (pageNo va), hfree _ ((ha.own _).2 (.inr (.inr ⟨_, hq, rfl⟩))) hno, ?_⟩
    dsimp only at h2
    exact ht.translate_leaf (by omega) (hnew hq) hf.aligned (permOk_or hp) (isLeaf_or hl)
  · have hown : f ∈ v'.own := by
      refine ((hof.cover f).1 (Finset.mem_union_right _ (List.mem_toFinset.2 hf))).resolve_right hnf
    rcases (ha.own f).1 hown with hk | hT | ⟨q, hq, rfl⟩
    · exact absurd hf (hi.own k f hk).2
    · exact .inl (ht.isTable_iff.2 (.inr hT))
    · have hva : q * PAGESIZE % PAGESIZE = 0 := Nat.mul_mod_left _ _
      have hpq : pageNo (q * PAGESIZE) = q := Nat.mul_div_cancel _ h0
      have hr := (hin (q * PAGESIZE)).1 (by rw [hpq]; exact hq)
      obtain ⟨hf', -, -⟩ := ha.page hq
      refine .inr ⟨q * PAGESIZE, hva, hr.1, hr.2, ?_⟩
      rw [ht.userFrame_iff hva, hpq]
      refine ⟨by omega, ?_⟩
      rw [hnew hq]
      exact userPage_leafWord hf'.aligned (permOk_or hp) (isLeaf_or hl) (or_u perm)
  · have := (hof.cover f).2 (.inr hf)
    rw [Finset.mem_union, List.mem_toFinset] at this
    refine this.resolve_left fun hk => hof.disj f (ha.own_sub hk) hf

/-- Guard pages take no frame. -/
theorem Inv.guarded (hi : Inv c w) {phys : Phys} {size : Nat} (hs : u.size % PAGESIZE = 0)
    (hof : View.Of c (w.account k ∪ w.phys.free.toFinset) w.phys.mem ⟨w.account k, w.phys.mem⟩
      phys) : Allocated c w u size 0 (.ok ())
        { u with size := u.size + pagesTo u.size size * PAGESIZE } phys := by
  have hm : phys.mem = w.phys.mem := hof.mem.symm
  refine ⟨fun _ => pagesTo_end hs, fun hr => ?_, ⟨rfl, rfl⟩, fun va _ => ?_, fun va a _ _ => ?_,
    fun h0 => absurd rfl h0, fun f hf hn => ?_, fun f hf => ?_⟩
  · cases hr
  · rw [hm]
  · rw [hm]
  · have hk := (hof.cover f).1 (Finset.mem_union_right _ (List.mem_toFinset.2 hf))
    exact absurd hf (hi.own k f (hk.resolve_right hn)).2
  · have hk := (hof.cover f).2 (.inr hf)
    rw [Finset.mem_union, List.mem_toFinset] at hk
    exact hk.resolve_left fun hk => hof.disj f hk hf

/-- **`alloc`** up to a target at or below the trapframe returns, and with `Err` keeps the pages it
added and gives back what it took for the one that failed. -/
theorem Lives.alloc (h : Lives c UvmOp.Proper w p) (hk : w.uvms k = some u) {size perm : Nat}
    (hp : perm = 0 ∨ PermOk perm ∧ Sv32.isLeaf perm) (hs : USER_START + size ≤ TRAPFRAME) :
    ∃ r u' phys, (u.alloc size perm).run c w.phys = .ok ((r, u'), phys) ∧
      Allocated c w u size perm r u' phys := by
  obtain ⟨tab, hsp, ht⟩ := h.tidy hk
  have hi := h.reach.inv
  have hlt := pagesTo_bound hsp.size_page ht.bound hs
  have hwp : M.wp (alone c False) (u.alloc size perm) (fun q v' => ∀ phys,
      v'.Of c (w.account k ∪ w.phys.free.toFinset) w.phys.mem phys →
      Allocated c w u size perm q.1 q.2 phys) ⟨w.account k, w.phys.mem⟩ := by
    unfold Uvm.alloc
    rcases hp with rfl | ⟨hp, hl⟩
    · refine wp_allocLoop_guard _ (fun hov => ?_) fun _ phys hof => ?_
      · show False
        omega
      · exact hi.guarded hsp.size_page hof
    · have hne : perm ≠ 0 := by
        rintro rfl
        exact hl rfl
      rw [← hsp.begin_eq] at hlt
      refine wp_allocLoop id hne (permOk_or hp) _ hsp.tree hsp.end_page (fun hov => ?_)
        (fun v' tab' fr _ ha _ phys hof => ?_) fun n hn v' tab' fr _ ha _ phys hof => ?_
      · show False
        omega
      · exact hi.allocated hsp hof hlt hp hl ha (fun _ => rfl) fun hr => by cases hr
      · refine hi.allocated hsp hof ?_ hp hl ha (fun hr => by cases hr) fun _ => hn
        have := Nat.mul_le_mul_right PAGESIZE (Nat.le_of_lt hn)
        omega
  obtain ⟨q, phys, v', hr, hof, hq⟩ := hi.returns (hi.own k) hwp
  exact ⟨q.1, q.2, phys, hr, hq phys hof⟩

/-! ## `dealloc` -/

/-- `dealloc(size)` sets the size, unmaps and frees the pages above it, or returns `Err` and changes
nothing. -/
def Shrinks (c : Cfg) (phys : Phys) (u : Uvm) (size : Nat) : Prop :=
  (∃ phys', (u.dealloc size).run c phys = .ok ((.ok (), { u with size }), phys') ∧ size ≤ u.size ∧
    (u.dealloc size).heapCalls c phys = (userFrames phys.mem u.pagetable.root (u.begin + size)
      (u.size - size)).map .dealloc ∧
    (∀ va, u.begin + size ≤ va ∧ va < u.begin + u.size →
      Sv32.translate phys'.mem u.pagetable.root va = none) ∧
    ∀ va, ¬ (u.begin + size ≤ va ∧ va < u.begin + u.size) →
      Sv32.translate phys'.mem u.pagetable.root va =
        Sv32.translate phys.mem u.pagetable.root va) ∨
  (u.dealloc size).run c phys = .ok ((.error (), u), phys)

/-- **`dealloc`** takes any size that is no whole number of pages for an error, and a larger size
than the current one for a panic. -/
theorem Lives.shrinks_iff (h : Lives c UvmOp.Proper w p) (hk : w.uvms k = some u) (size : Nat) :
    Shrinks c w.phys u size ↔ size % PAGESIZE ≠ 0 ∨ size ≤ u.size := by
  obtain ⟨tab, hsp, ht⟩ := h.tidy hk
  by_cases hs : size % PAGESIZE = 0
  · rw [or_iff_right (not_not_intro hs)]
    constructor
    · rintro (⟨phys', -, hle, -⟩ | hr)
      · exact hle
      · by_contra hle
        -- the end, or the number of bytes to unmap, is no `usize`
        unfold Uvm.dealloc M.run M.add M.sub at hr
        rw [if_neg (not_not_intro hs), if_neg hle] at hr
        split at hr <;> cases hr
    · intro hle
      have hb := ht.bound
      have htf := trapframe_va.2.1
      have hd : (u.size - size) % PAGESIZE = 0 :=
        Nat.sub_mod_eq_zero_of_mod_eq (hsp.size_page.trans hs.symm)
      have hnp : (USER_START + size) % PAGESIZE = 0 := by
        rw [Nat.add_mod, userStart_page, hs, Nat.zero_mod]
      have h0 : 0 ∉ freedPages true (pte w.phys.mem tab) (pageNo (USER_START + size))
          ((u.size - size) / PAGESIZE) := by
        intro h0
        obtain ⟨q, -, hq⟩ := List.mem_filterMap.1 h0
        have hq := userPage_eq_some.1 hq
        exact (h.reach.inv.acc k 0 (hsp.user q 0 hq.maps).1).1.ne_zero rfl
      have hlt : USER_START + size + (u.size - size) < USIZE := by omega
      obtain ⟨tr, phys', he, hx⟩ := unmap_ends hsp.tree hd hnp hlt h0
      have hrun : M.Ends c (u.dealloc size) w.phys tr (.ok (), { u with size }) phys' := by
        unfold Uvm.dealloc
        rw [if_neg (not_not_intro hs)]
        have hadd : USER_START + size < USIZE := by omega
        exact (M.add_ends hadd).seq ((M.sub_ends hle).seq (he.last (.ret _ _)))
      have hin : ∀ va, InPages (pageNo (USER_START + size)) ((u.size - size) / PAGESIZE)
          (pageNo va) ↔ USER_START + size ≤ va ∧ va < USER_START + size + (u.size - size) :=
        fun va => inPages_iff hnp hd
      refine .inl ⟨phys', hrun.run, hle, ?_, fun va hva => ?_, fun va hva => ?_⟩
      · rw [M.heapCalls, hrun.trace, hx.calls, hsp.begin_eq, userFrames_eq hsp.tree hnp hlt]
        rfl
      · refine hx.tree.translate_even ?_
        dsimp only
        rw [hx.entries]
        rw [hsp.begin_eq] at hva
        exact eraseRange_in ((hin va).2 (by omega)) _
      · refine hsp.tree.translate_congr hx.tree ?_
        dsimp only
        rw [hx.entries]
        rw [hsp.begin_eq] at hva
        refine eraseRange_out (fun hq => hva ?_) _
        have := (hin va).1 hq
        omega
  · refine iff_of_true (.inr ?_) (.inl hs)
    unfold Uvm.dealloc
    rw [if_pos hs]
    rfl

/-! ## The size invariant -/

/-- **The size invariant** holds in every world that proper calls reach; one more `alloc` adds the
pages up to its target or says how far it came, and one more `dealloc` shrinks the address space or
refuses, exactly for the sizes it may be called with. -/
theorem size_invariant (h : Lives c UvmOp.Proper w p) (hk : w.uvms k = some u) :
    Sized c w k u (p k) ∧
    (∀ size perm, perm = 0 ∨ PermOk perm ∧ Sv32.isLeaf perm → USER_START + size ≤ TRAPFRAME →
      ∃ r u' phys, (u.alloc size perm).run c w.phys = .ok ((r, u'), phys) ∧
        Allocated c w u size perm r u' phys) ∧
    ∀ size, Shrinks c w.phys u size ↔ size % PAGESIZE ≠ 0 ∨ size ≤ u.size :=
  ⟨h.sized hk, fun _ _ hp hs => h.alloc hk hp hs, h.shrinks_iff hk⟩

theorem demo_proper {n : Nat} (hn : n ≤ 100) : ∃ w p u, Lives Cfg.demo UvmOp.Proper w p ∧
    w.uvms 0 = some u ∧ u.size = n * PAGESIZE := by
  have hA : ∀ u : Uvm, u.size = n * PAGESIZE →
      UvmOp.Proper (.alloc (n * PAGESIZE) (PTE_R ||| PTE_W)) u := by
    intro u hu
    refine ⟨fun perm hp => ?_, ?_⟩
    · obtain rfl := Option.some.inj hp
      exact .inr (by decide)
    · rw [hu]
      unfold TRAPFRAME TRAMPOLINE VIRT_END
      rw [PAGESIZE_eq, show USER_START = 0x10000 from rfl]
      omega
  obtain ⟨w, p, u, -, h, hk, hs, -⟩ := demo_life hn (by decide) ⟨by decide, by decide⟩ hA
  exact ⟨w, p, u, h, hk, hs⟩

theorem size_invariant_demo : ∃ (w : World) (p : Nat → Nat → Nat) (u : Uvm), w.uvms 0 = some u ∧
    u.size = 2 * PAGESIZE ∧ Sized Cfg.demo w 0 u (p 0) ∧
    (∃ r u' phys, (u.alloc (5 * PAGESIZE) (PTE_R ||| PTE_W)).run Cfg.demo w.phys =
      .ok ((r, u'), phys) ∧ Allocated Cfg.demo w u (5 * PAGESIZE) (PTE_R ||| PTE_W) r u' phys) ∧
    Shrinks Cfg.demo w.phys u PAGESIZE := by
  obtain ⟨w, p, u, h, hk, hs⟩ := demo_proper (n := 2) (by omega)
  obtain ⟨h1, h2, h3⟩ := size_invariant h hk
  refine ⟨w, p, u, hk, hs, h1, h2 _ _ (.inr ⟨⟨by decide, by decide⟩, by decide⟩) ?_,
    (h3 PAGESIZE).2 (.inr (by omega))⟩
  unfold TRAPFRAME TRAMPOLINE VIRT_END
  rw [PAGESIZE_eq]
  decide

/-- A larger size: the number of bytes to unmap underflows. -/
theorem dealloc_larger : ∃ w p u, Lives Cfg.demo UvmOp.Proper w p ∧ w.uvms 0 = some u ∧
    ¬ Shrinks Cfg.demo w.phys u (2 * PAGESIZE) := by
  obtain ⟨w, p, u, h, hk, hs⟩ := demo_proper (n := 1) (by omega)
  refine ⟨w, p, u, h, hk, fun hsh => ?_⟩
  have := (h.shrinks_iff hk _).1 hsh
  rw [hs, PAGESIZE_eq] at this
  omega

end World

end BareMetal
