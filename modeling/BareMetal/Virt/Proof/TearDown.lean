import BareMetal.Virt.Proof.Sized

/-!
# Tearing an address space down

The run of `drop`, operation by operation: `free_ends` for `Uvm::free` (three calls of `unmap`),
`freeReq_ends` for `free_req` on tables that hold no leaf any more. `drop_safe` puts them together
for every address space that proper calls reach: `drop` runs to its end, touches the tables of the
tree only, and gives back each user page once, and the root.
-/

namespace BareMetal

open Lib

/-- The operation reads or writes a word of a table, and does not call the allocator. -/
def MemOp.Sweeps (root : Nat) (tab : Nat → Option Nat) (o : MemOp) : Prop :=
  o.Within root tab ∧ heapCall o = none

section
variable {c : Cfg} {own : Finset Nat} {root : Nat} {tab : Nat → Option Nat} {s : Phys}

/-- An entry of one of the tables is read. -/
theorem Tree.read_entry (h : Tree c ⟨own, s.mem⟩ root tab) {t i : Nat} (ht : Tree.Has root tab t)
    (hi : i < 1024) : M.Ends c (M.read (t + 4 * i)) s [(.read (t + 4 * i), s)]
      (s.mem.word (t + 4 * i)) s ∧ (MemOp.read (t + 4 * i)).Sweeps root tab := by
  have hf := h.frame_of ht
  have hp := entry_page hf.page hi (k := 0) (by omega)
  rw [Nat.add_zero] at hp
  refine ⟨M.read_ends (hf.entry_readable hi), ?_, rfl⟩
  show Tree.Has root tab (pageOf (t + 4 * i))
  rwa [hp]

/-- A table without valid entries is read. -/
theorem freeReq_empty_ends {t : Nat} (depth : Nat) (h : Tree c ⟨own, s.mem⟩ root tab)
    (ht : Tree.Has root tab t) (hz : ∀ i < 1024, s.mem.word (t + 4 * i) % 2 = 0) :
    ∃ tr s', M.Ends c (PageTable.freeReq (depth + 1) t) s tr () s' ∧ s' = s ∧
      ∀ x ∈ tr, x.1.Sweeps root tab := by
  unfold PageTable.freeReq
  refine Free.Ends.forRange (I := fun s' => s' = s) (fun i hi s' hs' => ?_) rfl
  subst hs'
  obtain ⟨hr, hs⟩ := h.read_entry ht hi
  refine ⟨_, s', hr.last ?_, rfl, fun x hx => ?_⟩
  · dsimp only
    rw [Pte.v_eq, if_neg (by simp [hz i hi])]
    exact .ret _ _
  · rw [List.mem_singleton.1 hx]
    exact hs

/-- **`free_req`** from the root of a tree that maps nothing: it reads every table and clears its
first word. -/
theorem freeReq_ends (depth : Nat) (h : Tree c ⟨own, s.mem⟩ root tab)
    (hz : ∀ q, pte s.mem tab q = 0) :
    ∃ tr s', M.Ends c (PageTable.freeReq (depth + 2) root) s tr () s' ∧
      (Tree c ⟨own, s'.mem⟩ root tab ∧ (∀ q, pte s'.mem tab q = 0)) ∧
      ∀ x ∈ tr, x.1.Sweeps root tab := by
  unfold PageTable.freeReq
  refine Free.Ends.forRange (I := fun (s : Phys) => Tree c ⟨own, s.mem⟩ root tab ∧
    ∀ q, pte s.mem tab q = 0) (fun i hi s hI => ?_) ⟨h, hz⟩
  obtain ⟨h, hz⟩ := hI
  obtain ⟨hr, hs⟩ := h.read_entry (.inl rfl) hi
  rw [show s.mem.word (root + 4 * i) = dirWord (tab i) from h.dir i hi] at hr
  have hread : ∀ x ∈ [(MemOp.read (root + 4 * i), s)], x.1.Sweeps root tab := by
    intro x hx
    rw [List.mem_singleton.1 hx]
    exact hs
  cases ht : tab i with
  | none =>
    rw [ht] at hr
    exact ⟨_, s, hr.last (.ret _ _), ⟨h, hz⟩, hread⟩
  | some t =>
    rw [ht] at hr
    have hT : Tree.Has root tab t := .inr ⟨i, ht⟩
    obtain ⟨hv, htt, hrr, hw, hx⟩ := ptrWord_decode (h.frame ht).aligned
    have hslot : slot tab (i * 1024) = some t := by
      rw [slot, show i * 1024 / 1024 = i by omega, ht, Option.map_some,
        show i * 1024 % 1024 = 0 by omega]
      rfl
    obtain ⟨tr, s₁, he, rfl, htr⟩ := freeReq_empty_ends depth h hT fun j hj => by
      have := hz (i * 1024 + j)
      rw [pte, show (i * 1024 + j) / 1024 = i by omega, ht] at this
      simp only [show (i * 1024 + j) % 1024 = j by omega] at this
      rw [this]
    obtain ⟨-, hwr, hTt⟩ := h.slot_frame hslot
    have hrun : M.Ends c (do
        PageTable.freeReq (depth + 1) t
        M.write t 0) s₁ (tr ++ [(.write t 0, s₁)]) () { s₁ with mem := s₁.mem.setWord t 0 } :=
      he.seq (M.write_ends hwr)
    refine ⟨[(.read (root + 4 * i), s₁)] ++ (tr ++ [(.write t 0, s₁)]),
      { s₁ with mem := s₁.mem.setWord t 0 }, hr.seq ?_, ⟨h.setWord hslot, fun q => ?_⟩, ?_⟩
    · dsimp only [dirWord]
      rw [if_pos hv, hrr, hw, hx, htt, nonNull, if_neg (h.frame ht).ne_zero]
      exact hrun
    · rw [h.pte_setWord hslot (by omega)]
      split
      · rfl
      · exact hz q
    · intro x hx
      rcases List.mem_append.1 hx with hx | hx
      · exact hread x hx
      rcases List.mem_append.1 hx with hx | hx
      · exact htr x hx
      · rw [List.mem_singleton.1 hx]
        exact ⟨hTt, rfl⟩

theorem eraseRange_clean {p n : Nat} {e : Nat → Nat} (h : Clean e) :
    eraseRange p n e = unmapRange p n e := by
  funext q
  unfold eraseRange unmapRange
  by_cases hq : p ≤ q ∧ q < p + n
  · rw [if_pos hq]
    by_cases h1 : e q % 2 = 1
    · rw [if_pos ⟨hq, h1⟩]
    · rw [if_neg fun h => h1 h.2]
      exact h q (by omega)
  · rw [if_neg hq, if_neg fun h => hq h.1]

/-- A sweep calls the allocator nowhere. -/
theorem sweeps_calls {tr : List (MemOp × Phys)} (h : ∀ x ∈ tr, x.1.Sweeps root tab) :
    tr.filterMap (fun x => heapCall x.1) = [] :=
  List.filterMap_eq_nil_iff.2 fun x hx => (h x hx).2

/-- One page of the system is unmapped. -/
theorem unmap_sys_ends (h : Tree c ⟨own, s.mem⟩ root tab) {va : Nat} (hva : va % PAGESIZE = 0)
    (hlt : va + PAGESIZE < USIZE) :
    ∃ tr s', M.Ends c (PageTable.unmap ⟨root⟩ va PAGESIZE false >>= M.unwrapOk) s tr () s' ∧
      Erased c own root tab (pageNo va) 1 s tr s' [] := by
  have h1 : PAGESIZE / PAGESIZE = 1 := Nat.div_self (by rw [PAGESIZE_eq]; decide)
  obtain ⟨tr, s', he, hx⟩ := @unmap_ends c own root tab s va PAGESIZE false h (Nat.mod_self _) hva hlt
    List.not_mem_nil
  rw [h1] at hx
  exact ⟨tr, s', he.last (.ret _ _), hx⟩

end

section
variable {c : Cfg} {own : Finset Nat} {u : Uvm} {tab : Nat → Option Nat} {s : Phys}

/-- **`Uvm::free`** clears every entry and frees the user pages, in order. -/
theorem uvmFree_ends (h : Space c ⟨own, s.mem⟩ u tab) (hown : ∀ f ∈ own, c.IsFrame f)
    (hb : USER_START + u.size ≤ TRAPFRAME) :
    ∃ tr s', M.Ends c u.free s tr () s' ∧ Tree c ⟨own, s'.mem⟩ u.pagetable.root tab ∧
      (∀ q, pte s'.mem tab q = 0) ∧
      tr.filterMap (fun x => heapCall x.1) =
        (userPages (pte s.mem tab) (pageNo USER_START) (u.size / PAGESIZE)).map .dealloc ∧
      ∀ x ∈ tr, x.1.Within u.pagetable.root tab := by
  obtain ⟨tr₁, s₁, he₁, hx₁⟩ := unmap_sys_ends h.tree trampoline_va.1 trampoline_va.2.1
  obtain ⟨tr₂, s₂, he₂, hx₂⟩ := unmap_sys_ends hx₁.tree trapframe_va.1 trapframe_va.2.1
  have hns : ∀ q, InPages (pageNo USER_START) (u.size / PAGESIZE) q → ¬ SysPage q := by
    intro q hq hs
    exact hs.not_in (by rw [size_div h.size_page]; exact hb) hq
  -- what is left of the entries
  have hlow : ∀ q, pte s₂.mem tab q = if SysPage q then 0 else pte s.mem tab q := by
    intro q
    have hc := h.clean
    rw [hx₂.entries, hx₁.entries, eraseRange_clean hc, eraseRange_clean (hc.unmapRange _ _),
      unmapRange_one, unmapRange_one]
    by_cases h1 : q = pageNo TRAPFRAME
    · rw [if_pos h1, if_pos (show SysPage q from .inr h1)]
    · rw [if_neg h1]
      by_cases h2 : q = pageNo TRAMPOLINE
      · rw [if_pos h2, if_pos (show SysPage q from .inl h2)]
      · rw [if_neg h2, if_neg (show ¬ SysPage q from fun h => h.elim h2 h1)]
  have hclean : Clean (pte s₂.mem tab) := by
    intro q hq
    rw [hlow] at hq ⊢
    split
    · rfl
    · rename_i hs
      rw [if_neg hs] at hq
      exact h.clean q hq
  have hpages : userPages (pte s₂.mem tab) (pageNo USER_START) (u.size / PAGESIZE) =
      userPages (pte s.mem tab) (pageNo USER_START) (u.size / PAGESIZE) :=
    userPages_congr fun q hq => by rw [hlow, if_neg (hns q hq)]
  have hrange : ∀ q, pte s₂.mem tab q ≠ 0 → InPages (pageNo USER_START) (u.size / PAGESIZE) q := by
    intro q hq
    rw [hlow] at hq
    split at hq
    · exact absurd rfl hq
    · rename_i hs
      exact (h.range q hq).resolve_left hs
  have hcalls : ∀ {tr₃ : List (MemOp × Phys)} {l : List Nat},
      tr₃.filterMap (fun x => heapCall x.1) = l.map .dealloc →
      (tr₁ ++ (tr₂ ++ tr₃)).filterMap (fun x => heapCall x.1) = l.map .dealloc := by
    intro tr₃ l hl
    rw [List.filterMap_append, List.filterMap_append, hx₁.calls, hx₂.calls, hl]
    rfl
  have hwithin : ∀ {tr₃ : List (MemOp × Phys)}, (∀ x ∈ tr₃, x.1.Within u.pagetable.root tab) →
      ∀ x ∈ tr₁ ++ (tr₂ ++ tr₃), x.1.Within u.pagetable.root tab := by
    intro tr₃ h₃ x hx
    rcases List.mem_append.1 hx with hx | hx
    · exact hx₁.within x hx
    · exact (List.mem_append.1 hx).elim (hx₂.within x) (h₃ x)
  unfold Uvm.free
  by_cases h0 : u.size = 0
  · rw [if_neg (by omega)]
    refine ⟨tr₁ ++ (tr₂ ++ []), s₂, ?_, hx₂.tree, fun q => ?_, hcalls ?_,
      hwithin fun x hx => (List.not_mem_nil hx).elim⟩
    · rw [← bind_assoc]
      refine he₁.seq ?_
      rw [← bind_assoc]
      exact he₂.seq (.ret _ _)
    · by_contra hq
      have := hrange q hq
      rw [h0, Nat.zero_div] at this
      exact not_inPages_zero _ q this
    · rw [h0, Nat.zero_div]
      rfl
  · rw [if_pos (by omega), h.begin_eq]
    have htf := trapframe_va.2.1
    have hlt : USER_START + u.size < USIZE := by omega
    have hfree : freedPages true (pte s₂.mem tab) (pageNo USER_START) (u.size / PAGESIZE) =
        userPages (pte s.mem tab) (pageNo USER_START) (u.size / PAGESIZE) := hpages
    obtain ⟨tr₃, s₃, he₃, hx₃⟩ := @unmap_ends c own _ tab s₂ USER_START u.size true
      hx₂.tree h.size_page userStart_page hlt
      (by
        rw [hfree]
        intro hz
        obtain ⟨q, -, hq⟩ := List.mem_filterMap.1 hz
        exact (hown 0 (h.user q 0 (userPage_eq_some.1 hq).maps).1).ne_zero rfl)
    rw [hfree] at hx₃
    refine ⟨tr₁ ++ (tr₂ ++ tr₃), s₃, ?_, hx₃.tree, fun q => ?_, hcalls hx₃.calls, hwithin hx₃.within⟩
    · rw [← bind_assoc]
      refine he₁.seq ?_
      rw [← bind_assoc]
      exact he₂.seq (he₃.last (.ret _ _))
    · rw [hx₃.entries, eraseRange_clean hclean]
      unfold unmapRange
      split
      · rfl
      · rename_i hq
        by_contra h1
        exact hq (hrange q h1)

/-- **Drop for `Uvm`**: the user pages and then the root are freed, and only the tables touched. -/
theorem drop_ends (h : Space c ⟨own, s.mem⟩ u tab) (hown : ∀ f ∈ own, c.IsFrame f)
    (hb : USER_START + u.size ≤ TRAPFRAME) :
    ∃ tr s', M.Ends c u.drop s tr () s' ∧
      tr.filterMap (fun x => heapCall x.1) =
        (userPages (pte s.mem tab) (pageNo USER_START) (u.size / PAGESIZE)).map .dealloc ++
          [.dealloc u.pagetable.root] ∧
      ∀ x ∈ tr, x.1.Within u.pagetable.root tab := by
  obtain ⟨tr₁, s₁, he₁, ht₁, hz, hc₁, hw₁⟩ := uvmFree_ends h hown hb
  obtain ⟨tr₂, s₂, he₂, -, hs₂⟩ := freeReq_ends 126 ht₁ hz
  have hroot := h.tree.root_frame.ne_zero
  refine ⟨tr₁ ++ (tr₂ ++ [(.dealloc u.pagetable.root, s₂)]), _,
    he₁.seq (he₂.seq (M.dealloc_ends hroot)), ?_, fun x hx => ?_⟩
  · rw [List.filterMap_append, List.filterMap_append, hc₁, sweeps_calls hs₂]
    rfl
  · rcases List.mem_append.1 hx with hx | hx
    · exact hw₁ x hx
    rcases List.mem_append.1 hx with hx | hx
    · exact (hs₂ x hx).1
    · rw [List.mem_singleton.1 hx]
      trivial

end

/-- The operation reads or writes a word of a table of the tree at `root`, or frees a frame. -/
def MemOp.OnTables (m : Bytes) (root : Nat) : MemOp → Prop
  | .read a => IsTable m root (pageOf a)
  | .write a _ => IsTable m root (pageOf a)
  | .dealloc _ => True
  | _ => False

theorem MemOp.Within.onTables {c : Cfg} {v : View} {root : Nat} {tab : Nat → Option Nat}
    (h : Tree c v root tab) {o : MemOp} (ho : o.Within root tab) : o.OnTables v.mem root := by
  cases o with
  | read a => exact h.isTable_iff.2 ho
  | write a x => exact h.isTable_iff.2 ho
  | dealloc f => exact trivial
  | readByte a => exact ho.elim
  | writeByte a b => exact ho.elim
  | writeBytes a b n => exact ho.elim
  | copy src dst n => exact ho.elim
  | alloc => exact ho.elim
  | panic msg => exact ho.elim

/-- The trampoline is part of the kernel image. -/
theorem Cfg.IsFrame.ne_trampoline {c : Cfg} {f : Nat} (h : c.IsFrame f) (hl : c.Linked) :
    f ≠ c.trampoline := by
  have h1 := h.start
  have h2 : c.trampoline + PAGESIZE = c.etext := hl
  have h3 := c.etext_end
  rw [PAGESIZE_eq] at h2
  omega

namespace World

variable {c : Cfg} {w : World} {p : Nat → Nat → Nat} {k : Nat} {u : Uvm}

theorem userPages_nodup {v : View} {tab : Nat → Option Nat} (h : Space c v u tab) (n : Nat) :
    (userPages (pte v.mem tab) (pageNo USER_START) n).Nodup := by
  refine List.Nodup.filterMap (fun q r f hq hr => ?_) List.nodup_range'
  exact h.inj q r f (userPage_eq_some.1 hq).maps (userPage_eq_some.1 hr).maps

/-- **Tear-down is safe**: dropping an address space that proper calls reach runs to its end. Every
word it reads or writes lies in a table of that tree, and it frees each user page once and the root;
none of these is the trampoline, a live trapframe or a table below the root. -/
theorem drop_safe (h : Lives c UvmOp.Proper w p) (hk : w.uvms k = some u) :
    (∃ phys, u.drop.run c w.phys = .ok ((), phys)) ∧
    (∀ o ∈ u.drop.ops c w.phys, o.OnTables w.phys.mem u.pagetable.root) ∧
    u.drop.heapCalls c w.phys = (userFrames w.phys.mem u.pagetable.root u.begin u.size ++
      [u.pagetable.root]).map .dealloc ∧
    (userFrames w.phys.mem u.pagetable.root u.begin u.size ++ [u.pagetable.root]).Nodup ∧
    (∀ va f, va % PAGESIZE = 0 → userFrame w.phys.mem u.pagetable.root va = some f →
      f ∈ userFrames w.phys.mem u.pagetable.root u.begin u.size ∧
        ¬ IsTable w.phys.mem u.pagetable.root f) ∧
    MemOp.dealloc c.trampoline ∉ u.drop.heapCalls c w.phys ∧
    ∀ tf ∈ w.boxes, MemOp.dealloc tf ∉ u.drop.heapCalls c w.phys := by
  obtain ⟨tab, hsp, ht⟩ := h.tidy hk
  have hi := h.reach.inv
  obtain ⟨tr, phys, he, hcalls, hwithin⟩ := drop_ends hsp (fun f hf => (hi.acc k f hf).1) ht.bound
  have hlt : u.begin + u.size < USIZE := by
    have := ht.bound
    have := trapframe_va.2.1
    rw [hsp.begin_eq]
    omega
  have hfr : userFrames w.phys.mem u.pagetable.root u.begin u.size =
      userPages (pte w.phys.mem tab) (pageNo USER_START) (u.size / PAGESIZE) := by
    rw [userFrames_eq hsp.tree (by rw [hsp.begin_eq]; exact userStart_page) hlt, hsp.begin_eq]
  have hheap : u.drop.heapCalls c w.phys =
      (userFrames w.phys.mem u.pagetable.root u.begin u.size ++ [u.pagetable.root]).map
        .dealloc := by
    rw [M.heapCalls, he.trace, hcalls, hfr, List.map_append]
    rfl
  -- what is freed is a frame of this address space
  have hmem : ∀ f, f ∈ userFrames w.phys.mem u.pagetable.root u.begin u.size →
      ∃ q, UserPage (pte w.phys.mem tab q) f := by
    intro f hf
    rw [hfr] at hf
    obtain ⟨q, -, hq⟩ := List.mem_filterMap.1 hf
    exact ⟨q, userPage_eq_some.1 hq⟩
  have hown : ∀ f, MemOp.dealloc f ∈ u.drop.heapCalls c w.phys → f ∈ w.account k := by
    intro f hf
    rw [hheap] at hf
    obtain ⟨g, hg, he⟩ := List.mem_map.1 hf
    cases he
    rcases List.mem_append.1 hg with hg | hg
    · obtain ⟨q, hq⟩ := hmem f hg
      exact (hsp.user q f hq.maps).1
    · rw [List.mem_singleton.1 hg]
      exact hsp.tree.root_own
  refine ⟨⟨phys, he.run⟩, fun o ho => ?_, hheap, ?_, fun va f hva hf => ⟨?_, ?_⟩, fun hf => ?_,
    fun tf htf hf => (hi.acc k tf (hown tf hf)).2.2 htf⟩
  · rw [M.ops, he.trace] at ho
    obtain ⟨x, hx, hxo⟩ := List.mem_filterMap.1 ho
    cases hxo
    exact (hwithin x hx).onTables hsp.tree
  · rw [List.nodup_append, hfr]
    refine ⟨userPages_nodup hsp _, List.nodup_singleton _, fun f hf g hg he => ?_⟩
    rw [← hfr] at hf
    obtain ⟨q, hq⟩ := hmem f hf
    rw [he, List.mem_singleton.1 hg] at hq
    exact (hsp.user q _ hq.maps).2 (.inl rfl)
  · obtain ⟨h1, h2⟩ := (h.sized hk).inside va f hva hf
    rw [hsp.begin_eq] at h1 h2
    rw [hfr]
    refine List.mem_filterMap.2 ⟨pageNo va, List.mem_range'_1.2 ?_, ?_⟩
    · exact (inPages_iff userStart_page hsp.size_page).2 ⟨h1, h2⟩
    · exact userPage_eq_some.2 ((hsp.tree.userFrame_iff hva).1 hf).2
  · intro hT
    exact (hsp.user _ f ((hsp.tree.userFrame_iff hva).1 hf).2.maps).2 (hsp.tree.isTable_iff.1 hT)
  · exact (hi.acc k _ (hown _ hf)).1.ne_trampoline h.reach.linked rfl

theorem drop_safe_demo : ∃ (w : World) (u : Uvm), w.uvms 0 = some u ∧ u.size = 3 * PAGESIZE ∧
    ∃ phys, u.drop.run Cfg.demo w.phys = .ok ((), phys) := by
  obtain ⟨w, p, u, h, hk, hs⟩ := demo_proper (n := 3) (by omega)
  exact ⟨w, u, hk, hs, (drop_safe h hk).1⟩

end World

end BareMetal
