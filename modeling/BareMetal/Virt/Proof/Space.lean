import BareMetal.Virt.Sv32
import BareMetal.Virt.Proof.Clone

/-!
# The invariant of a user address space

`Space c v u tab`: the table of `u` maps the trampoline and a trapframe above, and below its end
user pages, each in a frame of its own (`Maps`). Every operation on a `Uvm` keeps it:
`Space.added` for `alloc` and `clone`, `Space.procMap` for `init_proc`, `Space.cut` for `dealloc`.
-/

namespace BareMetal

open Lib

/-- The valid entry `w` has U set and leads to `f`. -/
def Maps (w f : Nat) : Prop := w % 2 = 1 ∧ w / 16 % 2 = 1 ∧ frameOf w = f

theorem UserPage.maps {w f : Nat} (h : UserPage w f) : Maps w f := ⟨h.1, h.2.2.1, h.2.2.2⟩

theorem not_maps_zero {f : Nat} : ¬ Maps 0 f := fun h => by
  have := h.1
  omega

/-- `w` is the entry of a page of memory. -/
def Leaf (w : Nat) : Prop := ∃ f perm, PermOk perm ∧ f % PAGESIZE = 0 ∧ Readable f PAGESIZE ∧
  w = leafWord f perm

theorem Leaf.odd {w : Nat} (h : Leaf w) : w % 2 = 1 := by
  obtain ⟨f, perm, hp, hf, -, rfl⟩ := h
  have := hp.2
  unfold leafWord
  rw [PAGESIZE_eq] at hf
  omega

theorem Readable.aligned {f : Nat} (hf : f % PAGESIZE = 0) (hr : Readable f PAGESIZE) :
    Aligned f := by
  refine ⟨hf, ?_⟩
  have := hr.2
  unfold RAMEND RAMSTART RAMSIZE at this
  rw [PAGESIZE_eq] at this
  rw [USIZE_eq]
  omega

theorem frameOf_leafWord {f perm : Nat} (hf : Aligned f) (hp : PermOk perm) :
    frameOf (leafWord f perm) = f := by
  have := (leafWord_decode hf hp).2.1
  rwa [Pte.pa_eq] at this

theorem permOf_leafWord {f perm : Nat} (hf : Aligned f) (hp : PermOk perm) :
    permOf (leafWord f perm) = perm := by
  have := (leafWord_decode hf hp).2.2.2
  rwa [Pte.perm_eq] at this

theorem leafWord_u {f perm : Nat} (hf : Aligned f) (hp : PermOk perm) :
    leafWord f perm / 16 % 2 = perm / 16 % 2 := by
  have h1 := hf.1
  have h2 := hp
  unfold leafWord PermOk at *
  rw [PAGESIZE_eq] at h1
  omega

theorem maps_leafWord {f perm : Nat} (hf : Aligned f) (hp : PermOk perm) (hu : perm / 16 % 2 = 1) :
    Maps (leafWord f perm) f := by
  refine ⟨?_, by rw [leafWord_u hf hp, hu], frameOf_leafWord hf hp⟩
  have h1 := hf.1
  have h2 := hp.2
  rw [PAGESIZE_eq] at h1
  unfold leafWord
  omega

theorem isLeaf_leafWord {f perm : Nat} (hf : Aligned f) (hp : PermOk perm) :
    Sv32.isLeaf (leafWord f perm) ↔ Sv32.isLeaf perm := by
  have hf' := hf.1
  rw [PAGESIZE_eq] at hf'
  unfold leafWord PermOk Sv32.isLeaf at *
  omega

theorem Leaf.readable {w : Nat} (h : Leaf w) : Readable (frameOf w) PAGESIZE := by
  obtain ⟨f, perm, hp, hf, hr, rfl⟩ := h
  rwa [frameOf_leafWord (hr.aligned hf) hp]

theorem or_u (perm : Nat) : (perm ||| PTE_U) / 16 % 2 = 1 := by
  have h := Nat.testBit_or perm PTE_U 4
  rw [show PTE_U.testBit 4 = true from rfl, Bool.or_true, Nat.testBit_eq_decide_div_mod_eq,
    decide_eq_true_eq] at h
  exact h

/-- The pages above the user's. -/
def SysPage (q : Nat) : Prop := q = pageNo TRAMPOLINE ∨ q = pageNo TRAPFRAME

instance (q : Nat) : Decidable (SysPage q) := inferInstanceAs (Decidable (_ ∨ _))

/-- `w` is the entry of a page that is not the user's. -/
def SysLeaf (w : Nat) : Prop := ∃ f perm, PermOk perm ∧ f % PAGESIZE = 0 ∧ Readable f PAGESIZE ∧
  perm / 16 % 2 = 0 ∧ w = leafWord f perm

theorem Cfg.trampoline_readable (c : Cfg) : Readable c.trampoline PAGESIZE := by
  exact ⟨c.tramp_start, c.tramp_end⟩

theorem Cfg.trampoline_sysLeaf (c : Cfg) : SysLeaf (leafWord c.trampoline (PTE_R ||| PTE_X)) :=
  ⟨_, _, ⟨by decide, by decide⟩, c.tramp_page, c.trampoline_readable, by decide, rfl⟩

theorem Cfg.IsFrame.sysLeaf {c : Cfg} {f : Nat} (h : c.IsFrame f) :
    SysLeaf (leafWord f (PTE_R ||| PTE_W)) :=
  ⟨_, _, ⟨by decide, by decide⟩, h.page, h.readable (pageOf_self h.page) (by rw [h.page]; omega),
    by decide, rfl⟩

/-- Mapping a page of the system changes that page's entry only. -/
theorem mapRange_case {va pa perm : Nat} (hs : SysPage (pageNo va)) (hl : SysLeaf (leafWord pa perm))
    (e : Nat → Nat) (q : Nat) : (SysPage q ∧ SysLeaf (mapRange (pageNo va) 1 pa perm e q)) ∨
      mapRange (pageNo va) 1 pa perm e q = e q := by
  by_cases hq : q = pageNo va
  · subst hq
    rw [mapRange_one]
    exact .inl ⟨hs, hl⟩
  · rw [mapRange_one_ne hq]
    exact .inr rfl

theorem procMap_case {c : Cfg} {tf : Nat} (htf : c.IsFrame tf) (e : Nat → Nat) (q : Nat) :
    (SysPage q ∧ SysLeaf (procMap c tf e q)) ∨ procMap c tf e q = e q := by
  unfold procMap
  have hsys : SysPage (pageNo TRAPFRAME) := .inr rfl
  rcases mapRange_case hsys htf.sysLeaf
    (mapRange (pageNo TRAMPOLINE) 1 c.trampoline (PTE_R ||| PTE_X) e) q with h | h
  · exact .inl h
  · rw [h]
    exact mapRange_case (.inl rfl) c.trampoline_sysLeaf e q

structure Space (c : Cfg) (v : View) (u : Uvm) (tab : Nat → Option Nat) : Prop where
  tree : Tree c v u.pagetable.root tab
  begin_eq : u.begin = USER_START
  size_page : u.size % PAGESIZE = 0
  leaf : ∀ q, pte v.mem tab q ≠ 0 → Leaf (pte v.mem tab q)
  range : ∀ q, pte v.mem tab q ≠ 0 →
    SysPage q ∨ InPages (pageNo USER_START) (u.size / PAGESIZE) q
  user : ∀ q f, Maps (pte v.mem tab q) f → f ∈ v.own ∧ ¬ Tree.Has u.pagetable.root tab f
  inj : ∀ q r f, Maps (pte v.mem tab q) f → Maps (pte v.mem tab r) f → q = r
  sys : ∀ q, pte v.mem tab q ≠ 0 → pte v.mem tab q / 16 % 2 = 0 → SysPage q

theorem userStart_page : USER_START % PAGESIZE = 0 := by
  rw [PAGESIZE_eq]
  rfl

namespace Space

variable {c : Cfg} {v v' : View} {u : Uvm} {tab tab' : Nat → Option Nat}

theorem clean (h : Space c v u tab) : Clean (pte v.mem tab) := fun q hq => by
  by_contra h0
  have := (h.leaf q h0).odd
  omega

theorem end_page (h : Space c v u tab) : (u.begin + u.size) % PAGESIZE = 0 := by
  rw [h.begin_eq, Nat.add_mod, userStart_page, h.size_page]
  rfl

theorem pageNo_end (h : Space c v u tab) :
    pageNo (u.begin + u.size) = pageNo USER_START + u.size / PAGESIZE := by
  have h1 := h.size_page
  have h2 := userStart_page
  rw [h.begin_eq]
  unfold pageNo
  rw [PAGESIZE_eq] at *
  omega

/-- A new address space. -/
theorem new {root : Nat} (h : Tree c v root fun _ => none) :
    Space c v ⟨USER_START, 0, ⟨root⟩⟩ fun _ => none where
  tree := h
  begin_eq := rfl
  size_page := Nat.zero_mod _
  leaf _ h := absurd rfl h
  range _ h := absurd rfl h
  user _ _ h := absurd h not_maps_zero
  inj _ _ _ h := absurd h not_maps_zero
  sys _ h := absurd rfl h

/-- Guard pages, or any pages left out, above the end. -/
theorem grow (h : Space c v u tab) (n : Nat) :
    Space c v { u with size := u.size + n * PAGESIZE } tab where
  tree := h.tree
  begin_eq := h.begin_eq
  size_page := by rw [Nat.add_mul_mod_self_right]; exact h.size_page
  leaf := h.leaf
  range q hq := (h.range q hq).imp_right fun hr => by
    have h0 : 0 < PAGESIZE := by rw [PAGESIZE_eq]; omega
    rw [Nat.add_mul_div_right _ _ h0]
    unfold InPages at *
    omega
  user := h.user
  inj := h.inj
  sys := h.sys

/-- Memory changed in no table. -/
theorem congr (h : Space c v u tab) (ho : ∀ f, f ∈ v.own → f ∈ v'.own)
    (hm : ∀ a, Tree.Has u.pagetable.root tab (pageOf a) → v'.mem a = v.mem a) :
    Space c v' u tab := by
  have he := h.tree.pte_congr hm
  refine ⟨h.tree.congr (fun f hf => ho f (h.tree.has_own hf)) hm, h.begin_eq, h.size_page,
    fun q => ?_, fun q => ?_, fun q f hf => ?_, fun q r f hq hr => ?_, fun q => ?_⟩
  · rw [he]; exact h.leaf q
  · rw [he]; exact h.range q
  · rw [he] at hf
    exact ⟨ho f (h.user q f hf).1, (h.user q f hf).2⟩
  · rw [he] at hq hr; exact h.inj q r f hq hr
  · rw [he]; exact h.sys q

/-- The owner may part with frames that the address space does not use. -/
theorem narrow (h : Space c v u tab) {o : Finset Nat}
    (ht : ∀ f, Tree.Has u.pagetable.root tab f → f ∈ o)
    (hu : ∀ q f, Maps (pte v.mem tab q) f → f ∈ o) : Space c { v with own := o } u tab where
  tree := h.tree.congr ht fun _ _ => rfl
  begin_eq := h.begin_eq
  size_page := h.size_page
  leaf := h.leaf
  range := h.range
  user q f hf := ⟨hu q f hf, (h.user q f hf).2⟩
  inj := h.inj
  sys := h.sys

/-- Tables were added, and no entry changed. -/
theorem grown (h : Space c v u tab) (hg : Grown c v v' u.pagetable.root tab tab')
    (he : pte v'.mem tab' = pte v.mem tab) : Space c v' u tab' where
  tree := hg.tree
  begin_eq := h.begin_eq
  size_page := h.size_page
  leaf := by rw [he]; exact h.leaf
  range := by rw [he]; exact h.range
  user q f hf := by
    rw [he] at hf
    obtain ⟨h1, h2⟩ := h.user q f hf
    exact ⟨hg.own_sub h1, hg.not_has h1 h2⟩
  inj := by rw [he]; exact h.inj
  sys := by rw [he]; exact h.sys

/-- **`alloc` and `clone`**: pages were added below the end. -/
theorem added (h : Space c v u tab) {S : Nat → Prop} {perm fr : Nat → Nat} {size : Nat}
    (ha : Added c v v' u.pagetable.root tab tab' S perm fr) (hp : ∀ q, S q → PermOk (perm q))
    (hu : ∀ q, S q → perm q / 16 % 2 = 1 ∨ SysPage q) (hsz : size % PAGESIZE = 0)
    (hle : u.size ≤ size) (hr : ∀ q, S q → InPages (pageNo USER_START) (size / PAGESIZE) q) :
    Space c v' { u with size } tab' := by
  classical
  -- an entry is new, or it is an old one
  have hcase : ∀ q, (S q ∧ Aligned (fr q) ∧ pte v'.mem tab' q = leafWord (fr q) (perm q)) ∨
      (¬ S q ∧ pte v'.mem tab' q = pte v.mem tab q) := fun q => by
    by_cases hS : S q
    · exact .inl ⟨hS, (ha.page hS).1.aligned, ha.new hS⟩
    · exact .inr ⟨hS, ha.old hS⟩
  have hnew : ∀ q f, S q → Maps (pte v'.mem tab' q) f → f = fr q := fun q f hS hf => by
    rw [ha.new hS] at hf
    rw [← hf.2.2, frameOf_leafWord (ha.page hS).1.aligned (hp q hS)]
  have hne : ∀ q r f, S q → ¬ S r → Maps (pte v'.mem tab' q) f → ¬ Maps (pte v'.mem tab' r) f := by
    intro q r f hS hS' hq hr
    rw [ha.old hS'] at hr
    rw [hnew q f hS hq] at hr
    exact (ha.page hS).2.1 (h.user r _ hr).1
  refine ⟨ha.tree, h.begin_eq, hsz, fun q hq => ?_, fun q hq => ?_, fun q f hf => ?_,
    fun q r f hq hr' => ?_, fun q hq hz => ?_⟩
  · rcases hcase q with ⟨hS, -, he⟩ | ⟨-, he⟩
    · have hf := (ha.page hS).1
      exact ⟨fr q, perm q, hp q hS, hf.page, hf.readable (pageOf_self hf.page)
        (by rw [hf.page]; omega), he⟩
    · rw [he] at hq ⊢
      exact h.leaf q hq
  · rcases hcase q with ⟨hS, -, -⟩ | ⟨-, he⟩
    · exact .inr (hr q hS)
    · rw [he] at hq
      refine (h.range q hq).imp_right fun hi => ?_
      have := Nat.div_le_div_right (c := PAGESIZE) hle
      unfold InPages at *
      dsimp only
      omega
  · rcases hcase q with ⟨hS, -, -⟩ | ⟨-, he⟩
    · rw [hnew q f hS hf]
      exact ⟨(ha.own _).2 (.inr (.inr ⟨q, hS, rfl⟩)), (ha.page hS).2.2⟩
    · rw [he] at hf
      obtain ⟨h1, h2⟩ := h.user q f hf
      exact ⟨ha.own_sub h1, ha.not_has h1 h2⟩
  · rcases hcase q with ⟨hS, -, -⟩ | ⟨hS, he⟩ <;> rcases hcase r with ⟨hS', -, -⟩ | ⟨hS', he'⟩
    · exact ha.inj hS hS' ((hnew q f hS hq).symm.trans (hnew r f hS' hr'))
    · exact absurd hr' (hne q r f hS hS' hq)
    · exact absurd hq (hne r q f hS' hS hr')
    · rw [he] at hq
      rw [he'] at hr'
      exact h.inj q r f hq hr'
  · rcases hcase q with ⟨hS, hal, he⟩ | ⟨-, he⟩
    · rw [he, leafWord_u hal (hp q hS)] at hz
      exact (hu q hS).resolve_left (by omega)
    · rw [he] at hq hz
      exact h.sys q hq hz

/-- Entries of the pages above were set, with tables added. -/
theorem sysEntries (h : Space c v u tab) (hg : Grown c v v' u.pagetable.root tab tab')
    (hcase : ∀ q, (SysPage q ∧ SysLeaf (pte v'.mem tab' q)) ∨
      pte v'.mem tab' q = pte v.mem tab q) : Space c v' u tab' := by
  have hmaps : ∀ q f, Maps (pte v'.mem tab' q) f → Maps (pte v.mem tab q) f := fun q f hf => by
    rcases hcase q with ⟨-, pa, perm, hp, hpa, hr, hu, hq⟩ | hq
    · rw [hq] at hf
      have := hf.2.1
      rw [leafWord_u (hr.aligned hpa) hp] at this
      omega
    · rwa [hq] at hf
  refine ⟨hg.tree, h.begin_eq, h.size_page, fun q hq => ?_, fun q hq => ?_, fun q f hf => ?_,
    fun q r f hq hr' => h.inj q r f (hmaps q f hq) (hmaps r f hr'), fun q hq hz => ?_⟩
  · rcases hcase q with ⟨-, pa, perm, hp, hpa, hr, -, h1⟩ | h1
    · exact ⟨pa, perm, hp, hpa, hr, h1⟩
    · rw [h1] at hq ⊢
      exact h.leaf q hq
  · rcases hcase q with ⟨h1, -⟩ | h1
    · exact .inl h1
    · rw [h1] at hq
      exact h.range q hq
  · obtain ⟨h1, h2⟩ := h.user q f (hmaps q f hf)
    exact ⟨hg.own_sub h1, hg.not_has h1 h2⟩
  · rcases hcase q with ⟨h1, -⟩ | h1
    · exact h1
    · rw [h1] at hq hz
      exact h.sys q hq hz

/-- One of the pages above was mapped. -/
theorem sysRange (h : Space c v u tab) {va pa perm : Nat}
    (hg : Grown c v v' u.pagetable.root tab tab')
    (he : pte v'.mem tab' = mapRange (pageNo va) 1 pa perm (pte v.mem tab))
    (hs : SysPage (pageNo va)) (hl : SysLeaf (leafWord pa perm)) : Space c v' u tab' :=
  h.sysEntries hg fun q => by
    rw [he]
    exact mapRange_case hs hl _ q

/-- **`init_proc`**. -/
theorem procMap (h : Space c v u tab) {tf : Nat} (hg : Grown c v v' u.pagetable.root tab tab')
    (he : pte v'.mem tab' = BareMetal.procMap c tf (pte v.mem tab)) (htf : c.IsFrame tf) :
    Space c v' u tab' :=
  h.sysEntries hg fun q => by
    rw [he]
    exact procMap_case htf _ q

/-- Some entries were cleared, and their user pages given back. -/
theorem cut (h : Space c v u tab) {freed : Nat → Prop} {p n size : Nat}
    (hc : Cut c v v' u.pagetable.root tab freed)
    (he : pte v'.mem tab = BareMetal.unmapRange p n (pte v.mem tab))
    (hf : ∀ f, freed f → Pages (pte v.mem tab) p n f) (hsz : size % PAGESIZE = 0)
    (hr : ∀ q, pte v'.mem tab q ≠ 0 →
      SysPage q ∨ InPages (pageNo USER_START) (size / PAGESIZE) q) :
    Space c v' { u with size } tab := by
  have hcase : ∀ q, pte v'.mem tab q = 0 ∨
      (¬ (p ≤ q ∧ q < p + n) ∧ pte v'.mem tab q = pte v.mem tab q) := fun q => by
    rw [he]
    unfold BareMetal.unmapRange
    split
    · exact .inl rfl
    · rename_i hq
      exact .inr ⟨hq, rfl⟩
  have hmaps : ∀ q f, Maps (pte v'.mem tab q) f →
      ¬ (p ≤ q ∧ q < p + n) ∧ Maps (pte v.mem tab q) f := fun q f hf => by
    rcases hcase q with hq | ⟨hn, hq⟩
    · rw [hq] at hf
      exact absurd hf not_maps_zero
    · rw [hq] at hf
      exact ⟨hn, hf⟩
  refine ⟨hc.tree, h.begin_eq, hsz, fun q hq => ?_, hr, fun q f hm => ?_,
    fun q r f hq hr' => h.inj q r f (hmaps q f hq).2 (hmaps r f hr').2, fun q hq hz => ?_⟩
  · rcases hcase q with h1 | ⟨-, h1⟩
    · exact absurd h1 hq
    · rw [h1] at hq ⊢
      exact h.leaf q hq
  · obtain ⟨hn, hm⟩ := hmaps q f hm
    obtain ⟨h1, h2⟩ := h.user q f hm
    refine ⟨(hc.own f).2 ⟨h1, fun hfr => ?_⟩, h2⟩
    obtain ⟨r, hr', hu⟩ := hf f hfr
    exact hn (h.inj q r f hm hu.maps ▸ hr')
  · rcases hcase q with h1 | ⟨-, h1⟩
    · exact absurd h1 hq
    · rw [h1] at hq hz
      exact h.sys q hq hz

end Space

end BareMetal
