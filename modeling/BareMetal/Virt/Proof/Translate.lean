import BareMetal.Phys.Plenty
import BareMetal.Virt.Calls
import BareMetal.Virt.Proof.CopyIn
import BareMetal.Virt.Proof.UnmapRun

/-!
# What `map` and `unmap` do to the translation

`Reach.tree`: a page table keeps the shape of a tree through any calls of `map` and `unmap`.
`map_exact` and `unmap_exact` say what one more call does to the translation of every address.
-/

namespace BareMetal

open Lib

/-! ## Calls and the logic of owned frames -/

/-- The view owns some of the tables. -/
structure View.In (c : Cfg) (v : View) (s : TableState) : Prop where
  mem : v.mem = s.phys.mem
  own : ∀ f ∈ v.own, f ∈ s.tables
  frame : ∀ f ∈ s.tables, c.IsFrame f

section
variable {c : Cfg} {s s' : TableState}

theorem TableStep.exec {o : MemOp} {r : o.Resp} (h : TableStep c o s r s') :
    Phys.exec c o s.phys = .ok (r, s'.phys) := by
  cases o with
  | alloc => exact congrArg _ h.1
  | _ => exact h.1

theorem TableCall.run {α : Type} {p : M α} {r : α} (h : TableCall c p s r s') :
    p.run c s.phys = .ok (r, s'.phys) := by
  obtain ⟨tr, h⟩ := h
  induction h with
  | ret a s => rfl
  | op hx _ ih =>
    unfold M.run
    rw [Free.run_op, hx.exec]
    exact ih

theorem View.In.step {v : View} {o : MemOp} {Q : o.Resp → View → Prop} {r : o.Resp}
    (hv : v.In c s) (hq : memSpec (alone c True) o Q v) (hs : TableStep c o s r s') :
    ∃ v', v'.In c s' ∧ Q r v' := by
  have hx := hs.exec
  have hst : ∀ a, v.Stable (alone c True) a := fun a => .inl rfl
  -- an operation that is not a call of `alloc` leaves the tables
  have hkeep : ∀ {v' : View}, o ≠ .alloc → v'.mem = s'.phys.mem → (∀ f ∈ v'.own, f ∈ v.own) →
      v'.In c s' := by
    intro v' ho hm hown
    have ht : s'.tables = s.tables := by
      cases o with
      | alloc => exact absurd rfl ho
      | _ => exact hs.2
    exact ⟨hm, fun f hf => by rw [ht]; exact hv.own f (hown f hf), by rw [ht]; exact hv.frame⟩
  cases o with
  | read a =>
    simp only [Phys.exec] at hx
    split at hx
    · obtain ⟨rfl, hp⟩ := Prod.mk.inj (Except.ok.inj hx)
      refine ⟨v, hkeep (by simp) (by rw [hv.mem, hp]) fun _ hf => hf,
        hq.2 _ (Bytes.word_lt _ _) fun _ => by rw [hv.mem]⟩
    · cases hx
  | write a x =>
    simp only [Phys.exec] at hx
    split at hx
    · rename_i hw
      obtain ⟨-, hp⟩ := Prod.mk.inj (Except.ok.inj hx)
      obtain ⟨-, hq⟩ := hq.2.resolve_left fun h => h.1 hw
      refine ⟨_, hkeep (by simp) ?_ ?_, hq⟩
      · rw [← hp, ← hv.mem]
      · exact fun _ hf => hf
    · cases hx
  | readByte a =>
    simp only [Phys.exec] at hx
    split at hx
    · obtain ⟨rfl, hp⟩ := Prod.mk.inj (Except.ok.inj hx)
      exact ⟨v, hkeep (by simp) (by rw [hv.mem, hp]) fun _ hf => hf,
        hq.2 _ fun _ => by rw [hv.mem]⟩
    · cases hx
  | writeByte a b =>
    simp only [Phys.exec] at hx
    split at hx
    · rename_i hw
      obtain ⟨-, hp⟩ := Prod.mk.inj (Except.ok.inj hx)
      obtain ⟨-, hq⟩ := hq.resolve_left fun h => h.1 hw
      refine ⟨_, hkeep (by simp) ?_ ?_, hq⟩
      · rw [← hp, ← hv.mem]
      · exact fun _ hf => hf
    · cases hx
  | writeBytes a b n =>
    simp only [Phys.exec] at hx
    split at hx
    · rename_i hw
      obtain ⟨-, hp⟩ := Prod.mk.inj (Except.ok.inj hx)
      obtain ⟨-, hq⟩ := hq.resolve_left fun h => h.1 hw
      refine ⟨_, hkeep (by simp) ?_ ?_, hq⟩
      · rw [← hp, ← hv.mem]
      · exact fun _ hf => hf
    · cases hx
  | copy src dst n =>
    simp only [Phys.exec] at hx
    split at hx
    · rename_i hw
      obtain ⟨-, hp⟩ := Prod.mk.inj (Except.ok.inj hx)
      obtain ⟨-, -, hq⟩ := hq.resolve_left fun h => h.1 hw.2
      refine ⟨_, hkeep (by simp) ?_ ?_, hq (fun i => v.mem (src + i)) fun _ _ _ => rfl⟩
      · rw [← hp, ← hv.mem]
        rfl
      · exact fun _ hf => hf
    · cases hx
  | alloc =>
    obtain ⟨ha, hf, ht⟩ := hs
    have hm : s'.phys.mem = s.phys.mem := by
      have hs' : s'.phys = (s.phys.alloc c).2 := by rw [ha]
      rw [hs']
      unfold Phys.alloc
      split
      · split <;> rfl
      · rfl
    by_cases hr : r = 0
    · subst hr
      rw [if_pos rfl] at ht
      exact ⟨v, ⟨by rw [hv.mem, hm], fun f hf => by rw [ht]; exact hv.own f hf,
        by rw [ht]; exact hv.frame⟩, hq.1 trivial⟩
    · rw [if_neg hr] at ht
      obtain ⟨hfr, hnt⟩ := hf hr
      refine ⟨_, ⟨?_, fun f hf => ?_, fun f hf => ?_⟩,
        hq.2 r hfr (fun ho => hnt (hv.own r ho)) v.mem fun _ _ => rfl⟩
      · rw [hm]
        exact hv.mem
      · rw [ht]
        rcases Finset.mem_insert.1 hf with rfl | hf
        · exact Finset.mem_insert_self _ _
        · exact Finset.mem_insert_of_mem (hv.own f hf)
      · rw [ht] at hf
        rcases Finset.mem_insert.1 hf with rfl | hf
        · exact hfr
        · exact hv.frame f hf
  | dealloc f =>
    simp only [Phys.exec] at hx
    split at hx
    · cases hx
    · obtain ⟨-, hp⟩ := Prod.mk.inj (Except.ok.inj hx)
      refine ⟨_, hkeep (by simp) ?_ ?_, hq.2⟩
      · rw [← hp]
        exact hv.mem
      · exact fun g hg => Finset.mem_of_mem_erase hg
  | panic msg => cases hx

/-- What the logic says of a program holds of its calls. -/
theorem TableCall.wp {α : Type} {p : M α} {r : α} {v : View} {Q : α → View → Prop}
    (h : TableCall c p s r s') (hv : v.In c s) (hq : M.wp (alone c True) p Q v) :
    ∃ v', v'.In c s' ∧ Q r v' := by
  obtain ⟨tr, h⟩ := h
  exact (Free.wp_ends (P := fun _ _ => True) (fun o Q v s hR hq => ⟨trivial, fun r s' hs =>
    hR.step hq hs⟩) hv hq h).2

end

/-! ## The tree of a reached table -/

section
variable {E : Mode} {v : View} {root : Nat} {tab : Nat → Option Nat}

/-- `map` with any arguments keeps a tree. -/
theorem wp_mapLoop_tree (hns : ¬ E.strict) (hstop : E.stop) (perm n : Nat) : ∀ {v : View}
    {tab : Nat → Option Nat} {va pa : Nat}, Tree E.cfg v root tab → va < USIZE →
    M.wp E (PageTable.mapLoop ⟨root⟩ perm n va pa)
      (fun _ v' => ∃ tab', Grown E.cfg v v' root tab tab') v := by
  induction n with
  | zero =>
    intro v tab va pa h _
    exact ⟨tab, .refl h⟩
  | succ n ih =>
    intro v tab va pa h hva
    unfold PageTable.mapLoop PageTable.mapPage
    rw [M.wp_bind, M.wp_bind]
    refine wp_walk_Alloc h hva (fun _ _ => ⟨tab, .refl h⟩) fun v₁ tab₁ a hg hs _ _ => ?_
    refine M.wp_write (fun h => absurd h hns) (hg.tree.slot_page hs).2 ?_
    have hg₁ := hg.setWord (w := ((Pte.intoUsize { Pte.fromAddr pa with v := true }) ||| perm)) hs
    dsimp only
    rw [M.wp_bind]
    refine M.wp_add_or (fun _ => hstop) fun hlt => ?_
    rw [M.wp_bind]
    refine M.wp_add_or (fun _ => hstop) fun _ => ?_
    refine M.wp_conseq (ih hg₁.tree hlt) ?_
    rintro r v₂ ⟨tab₂, hg₂⟩
    exact ⟨tab₂, hg₁.trans hg₂⟩

theorem wp_map_tree (hns : ¬ E.strict) (hstop : E.stop) (h : Tree E.cfg v root tab)
    {virt phys size perm : Nat} (hv : virt < USIZE) :
    M.wp E (PageTable.map ⟨root⟩ virt phys size perm)
      (fun _ v' => ∃ tab', Grown E.cfg v v' root tab tab') v := by
  unfold PageTable.map
  by_cases hp : phys % PAGESIZE ≠ 0
  · rw [if_pos hp]
    exact (M.wp_bind _ _ _ _).2 (M.wp_panic hstop)
  rw [if_neg hp]
  by_cases hva : virt % PAGESIZE ≠ 0
  · rw [if_pos hva]
    exact (M.wp_bind _ _ _ _).2 (M.wp_panic hstop)
  rw [if_neg hva]
  by_cases hs : size % PAGESIZE ≠ 0
  · rw [if_pos hs]
    exact (M.wp_bind _ _ _ _).2 (M.wp_panic hstop)
  rw [if_neg hs, M.wp_bind]
  exact M.wp_add_or (fun _ => hstop) fun _ => wp_mapLoop_tree hns hstop perm _ h hv

end

section
variable {c : Cfg} {t : PageTable} {s s' : TableState}

/-- A tree that the view owns is one of the tables. -/
theorem View.In.tree {v : View} {root : Nat} {tab : Nat → Option Nat} (hv : v.In c s)
    (h : Tree c v root tab) : Tree c ⟨s.tables, s.phys.mem⟩ root tab :=
  h.congr (fun f hf => hv.own f (h.has_own hf)) fun a _ => by rw [hv.mem]

theorem TableCall.tables {α : Type} {p : M α} {r : α} (h : TableCall c p s r s')
    (hp : p.Only MemOp.NoAlloc) : s'.tables = s.tables := by
  obtain ⟨tr, h⟩ := h
  induction h with
  | ret a s => rfl
  | @op o k s r s₁ tr a s' hx _ ih =>
    have h1 : s₁.tables = s.tables := by
      cases o with
      | alloc => exact hp.1.elim
      | _ => exact hx.2
    exact (ih (hp.2 r)).trans h1

/-- **The tree invariant**: the tables of a reached page table are distinct frames, and the root
leads to each second-level table by one entry. -/
theorem PageTable.Reach.tree (h : t.Reach c s) :
    (∃ tab, Tree c ⟨s.tables, s.phys.mem⟩ t.root tab) ∧ ∀ f ∈ s.tables, c.IsFrame f := by
  induction h with
  | @new phys t s h =>
    have hv : View.In c ⟨∅, phys.mem⟩ ⟨phys, ∅⟩ :=
      ⟨rfl, fun f hf => hf, fun f hf => absurd hf (Finset.notMem_empty f)⟩
    obtain ⟨v', hv', ht⟩ := h.wp hv (wp_new (E := alone c True)
      (Q := fun t v' => Tree c v' t.root fun _ => none) (fun _ => trivial)
      fun v' f _ _ _ ht _ => ht)
    exact ⟨⟨_, hv'.tree ht⟩, hv'.frame⟩
  | @map t s virt phys size perm r s' _ hv hr ih =>
    obtain ⟨⟨tab, ht⟩, hf⟩ := ih
    obtain ⟨v', hv', tab', hg⟩ := hr.wp ⟨rfl, fun f hf => hf, hf⟩
      (wp_map_tree (E := alone c True) id trivial ht hv)
    exact ⟨⟨tab', hv'.tree hg.tree⟩, hv'.frame⟩
  | @unmap t s virt size free r s' _ hv hr ih =>
    obtain ⟨⟨tab, ht⟩, hf⟩ := ih
    have htab := hr.tables (PageTable.unmap_only tableOps_noAlloc (fun _ => trivial) t virt size free)
    refine ⟨⟨tab, ?_⟩, by rw [htab]; exact hf⟩
    rw [htab]
    exact unmap_tree ht hv hr.run
  | @other t s phys _ hm ih =>
    obtain ⟨⟨tab, ht⟩, hf⟩ := ih
    exact ⟨⟨tab, ht.congr (fun f hf => ht.has_own hf) fun a ha => hm a (ht.has_own ha)⟩, hf⟩

end

/-! ## Translation -/

namespace Tree

variable {c : Cfg} {v v' : View} {root : Nat} {tab tab' : Nat → Option Nat}

theorem translate_leaf (h : Tree c v root tab) {va f perm : Nat} (hva : va < USIZE)
    (he : pte v.mem tab (pageNo va) = leafWord f perm) (hf : Aligned f) (hp : PermOk perm)
    (hl : perm / 2 % 8 ≠ 0) :
    Sv32.translate v.mem root va = some (f + va % PAGESIZE, perm) := by
  have hperm : leafWord f perm / 2 % 16 * 2 = perm := permOf_leafWord hf hp
  unfold Sv32.translate
  rw [h.sv32_leaf hva he hf hp hl, Option.map_some]
  dsimp only
  rw [hperm]

/-- The translation of an address, from its entry. -/
theorem translate_eq (h : Tree c v root tab) {va : Nat} (hva : va < USIZE) :
    Sv32.translate v.mem root va =
      if pte v.mem tab (pageNo va) % 2 = 0 ∨ ¬ Sv32.isLeaf (pte v.mem tab (pageNo va)) then none
      else some (pte v.mem tab (pageNo va) / 2 ^ 10 * 2 ^ 12 + va % 2 ^ 12,
        permOf (pte v.mem tab (pageNo va))) := by
  unfold Sv32.translate
  rw [h.sv32_walk hva]
  split <;> rfl

/-- Only an address has a valid entry. -/
theorem lt_of_odd (h : Tree c v root tab) {va : Nat} (he : pte v.mem tab (pageNo va) % 2 = 1) :
    va < USIZE := by
  by_contra hva
  rw [h.pte_ge (by unfold pageNo; rw [PAGESIZE_eq, USIZE_eq] at *; omega)] at he
  cases he

theorem translate_even (h : Tree c v root tab) {va : Nat}
    (he : pte v.mem tab (pageNo va) % 2 = 0) : Sv32.translate v.mem root va = none := by
  unfold Sv32.translate
  by_cases hva : va < USIZE
  · rw [h.sv32_walk hva, if_pos (.inl he), Option.map_none]
  · unfold Sv32.walk
    rw [if_neg hva, Option.map_none]

/-- The same entry, the same translation. -/
theorem translate_congr (h : Tree c v root tab) (h' : Tree c v' root tab') {va : Nat}
    (he : pte v'.mem tab' (pageNo va) = pte v.mem tab (pageNo va)) :
    Sv32.translate v'.mem root va = Sv32.translate v.mem root va := by
  unfold Sv32.translate
  by_cases hva : va < USIZE
  · rw [h.sv32_walk hva, h'.sv32_walk hva, he]
  · unfold Sv32.walk
    rw [if_neg hva, if_neg hva]

end Tree

/-- An address lies in a range of pages exactly when its page does. -/
theorem inPages_iff {virt size va : Nat} (hv : virt % PAGESIZE = 0) (hs : size % PAGESIZE = 0) :
    InPages (pageNo virt) (size / PAGESIZE) (pageNo va) ↔ virt ≤ va ∧ va < virt + size := by
  unfold InPages pageNo
  rw [PAGESIZE_eq] at *
  omega

/-- Where an address lies in a range of pages. -/
theorem page_offset {virt va : Nat} (hv : virt % PAGESIZE = 0) (h : virt ≤ va) :
    (pageNo va - pageNo virt) * PAGESIZE + va % PAGESIZE = va - virt := by
  unfold pageNo
  rw [PAGESIZE_eq] at *
  omega

theorem virtEnd_lt : VIRT_END < USIZE := by
  unfold VIRT_END USIZE
  rw [PAGESIZE_eq]
  decide

section
variable {c : Cfg} {t : PageTable} {s s' : TableState}

/-- What a call of `map` did to the entries: `k` pages were mapped, all of them or, with `Err`,
fewer. -/
theorem map_entries {virt phys size perm : Nat} {r : Except Unit Unit} (h : t.Reach c s)
    (hv : virt % PAGESIZE = 0) (hp : phys % PAGESIZE = 0) (hs : size % PAGESIZE = 0)
    (hve : virt + size ≤ VIRT_END) (hpe : phys + size < USIZE) (hperm : PermOk perm)
    (hr : TableCall c (t.map virt phys size perm) s r s') :
    ∃ tab tab' k, Tree c ⟨s.tables, s.phys.mem⟩ t.root tab ∧
      Tree c ⟨s'.tables, s'.phys.mem⟩ t.root tab' ∧ k ≤ size / PAGESIZE ∧
      (r = .ok () → k = size / PAGESIZE) ∧
      pte s'.phys.mem tab' = mapRange (pageNo virt) k phys perm (pte s.phys.mem tab) := by
  have hsz := PAGESIZE_eq
  have hend := virtEnd_lt
  obtain ⟨⟨tab, ht⟩, hf⟩ := h.tree
  have hd : size / PAGESIZE * PAGESIZE = size := Nat.div_mul_cancel (Nat.dvd_of_mod_eq_zero hs)
  have hn : size / PAGESIZE * PAGESIZE / PAGESIZE = size / PAGESIZE := by rw [hd]
  have hwp : M.wp (alone c True) (t.map virt phys size perm) (fun r v' => ∃ tab' k,
      Tree c v' t.root tab' ∧ k ≤ size / PAGESIZE ∧ (r = .ok () → k = size / PAGESIZE) ∧
      pte v'.mem tab' = mapRange (pageNo virt) k phys perm (pte s.phys.mem tab))
      ⟨s.tables, s.phys.mem⟩ := by
    rw [← hd]
    refine wp_map (E := alone c True) ht hv (by omega) hp (by omega) hperm (fun hst => hst.elim)
      (fun v' tab' hg _ he => ⟨tab', _, hg.tree, ?_, ?_, he⟩)
      fun k hk v' tab' hg _ _ _ he => ⟨tab', k, hg.tree, ?_, ?_, he⟩
    · rw [hn]
    · exact fun _ => hn.symm
    · rw [hn]
      exact Nat.le_of_lt hk
    · intro hr
      cases hr
  obtain ⟨v', hv', tab', k, ht', hk, hok, he⟩ := hr.wp ⟨rfl, fun f hf => hf, hf⟩ hwp
  rw [hv'.mem] at he
  exact ⟨tab, tab', k, ht, hv'.tree ht', hk, hok, he⟩

theorem map_outside {virt phys size perm : Nat} {r : Except Unit Unit} (h : t.Reach c s)
    (hv : virt % PAGESIZE = 0) (hp : phys % PAGESIZE = 0) (hs : size % PAGESIZE = 0)
    (hve : virt + size ≤ VIRT_END) (hpe : phys + size < USIZE) (hperm : PermOk perm)
    (hr : TableCall c (t.map virt phys size perm) s r s') {va : Nat}
    (hva : ¬ (virt ≤ va ∧ va < virt + size)) :
    Sv32.translate s'.phys.mem t.root va = Sv32.translate s.phys.mem t.root va := by
  obtain ⟨tab, tab', k, ht, ht', hk, -, he⟩ := map_entries h hv hp hs hve hpe hperm hr
  refine ht.translate_congr ht' ?_
  rw [show pte (View.mem ⟨s'.tables, s'.phys.mem⟩) tab' = _ from he]
  refine if_neg fun hin => hva ((inPages_iff hv hs).1 ?_)
  unfold InPages
  omega

theorem map_inside {virt phys size perm : Nat} {r : Except Unit Unit} (h : t.Reach c s)
    (hv : virt % PAGESIZE = 0) (hp : phys % PAGESIZE = 0) (hs : size % PAGESIZE = 0)
    (hve : virt + size ≤ VIRT_END) (hpe : phys + size < USIZE) (hperm : PermOk perm)
    (hl : perm / 2 % 8 ≠ 0) (hr : TableCall c (t.map virt phys size perm) s r s') {va : Nat}
    (hva : virt ≤ va ∧ va < virt + size) :
    Sv32.translate s'.phys.mem t.root va = some (phys + (va - virt), perm) ∨
      r = .error () ∧
        Sv32.translate s'.phys.mem t.root va = Sv32.translate s.phys.mem t.root va := by
  have hend := virtEnd_lt
  obtain ⟨tab, tab', k, ht, ht', hk, hok, he⟩ := map_entries h hv hp hs hve hpe hperm hr
  have hd : size / PAGESIZE * PAGESIZE = size := Nat.div_mul_cancel (Nat.dvd_of_mod_eq_zero hs)
  have he' : pte (View.mem ⟨s'.tables, s'.phys.mem⟩) tab' =
      mapRange (pageNo virt) k phys perm (pte s.phys.mem tab) := he
  by_cases hin : InPages (pageNo virt) k (pageNo va)
  · -- the page of `va` is the `j`-th that was mapped
    have hj : pageNo va - pageNo virt < k := by
      unfold InPages at hin
      omega
    have hle : (pageNo va - pageNo virt) * PAGESIZE + PAGESIZE ≤ size := by
      rw [← Nat.succ_mul, ← hd]
      exact Nat.mul_le_mul_right _ (by omega)
    have hsz := PAGESIZE_eq
    have hal : Aligned (phys + (pageNo va - pageNo virt) * PAGESIZE) := by
      refine ⟨?_, by omega⟩
      rw [Nat.add_mul_mod_self_right, hp]
    left
    rw [ht'.translate_leaf (by omega) (by rw [he']; exact if_pos hin) hal hperm hl, Nat.add_assoc,
      page_offset hv hva.1]
  · refine .inr ⟨?_, ht.translate_congr ht' (by rw [he']; exact if_neg hin)⟩
    cases r with
    | error e => rfl
    | ok a => exact absurd ((inPages_iff hv hs).2 hva) (by rw [← hok rfl]; exact hin)

/-- **`map`** establishes the requested translation and nothing else; when it returns `Err`, for a
part of the range. -/
theorem map_exact {virt phys size perm : Nat} {r : Except Unit Unit} (h : t.Reach c s)
    (hv : virt % PAGESIZE = 0) (hp : phys % PAGESIZE = 0) (hs : size % PAGESIZE = 0)
    (hve : virt + size ≤ VIRT_END) (hpe : phys + size < USIZE) (hperm : PermOk perm)
    (hl : perm / 2 % 8 ≠ 0) (hr : TableCall c (t.map virt phys size perm) s r s') :
    (∀ va, ¬ (virt ≤ va ∧ va < virt + size) →
      Sv32.translate s'.phys.mem t.root va = Sv32.translate s.phys.mem t.root va) ∧
    ∀ va, virt ≤ va ∧ va < virt + size →
      Sv32.translate s'.phys.mem t.root va = some (phys + (va - virt), perm) ∨
      r = .error () ∧
        Sv32.translate s'.phys.mem t.root va = Sv32.translate s.phys.mem t.root va :=
  ⟨fun _ => map_outside h hv hp hs hve hpe hperm hr,
    fun _ => map_inside h hv hp hs hve hpe hperm hl hr⟩

theorem userFrame_eq {own : Finset Nat} {phys : Phys} {root : Nat} {tab : Nat → Option Nat}
    (h : Tree c ⟨own, phys.mem⟩ root tab) {va : Nat} (hva : va % PAGESIZE = 0)
    (hlt : va < USIZE) : userFrame phys.mem root va = userPage (pte phys.mem tab (pageNo va)) := by
  have hw := h.sv32_walk hlt
  dsimp only at hw
  rw [PAGESIZE_eq] at hva
  unfold userFrame userPage
  rw [hw]
  generalize pte phys.mem tab (pageNo va) = w
  by_cases h1 : w % 2 = 0 ∨ ¬ Sv32.isLeaf w
  · rw [if_pos h1, if_neg]
    rintro ⟨h2, h3, -⟩
    exact h1.elim (fun h1 => by omega) fun h1 => h1 h3
  · rw [not_or, not_not] at h1
    rw [if_neg (by rw [not_or, not_not]; exact h1)]
    dsimp only
    by_cases h2 : w / 16 % 2 = 1
    · have hpa : w / 2 ^ 10 * 2 ^ 12 + va % 2 ^ 12 = w / 1024 * 4096 := by omega
      rw [if_pos h2, if_pos ⟨by omega, h1.2, h2⟩, hpa]
    · rw [if_neg h2, if_neg fun h3 => h2 h3.2.2]

theorem userFrames_eq {own : Finset Nat} {phys : Phys} {root : Nat} {tab : Nat → Option Nat}
    (h : Tree c ⟨own, phys.mem⟩ root tab) {virt size : Nat} (hv : virt % PAGESIZE = 0)
    (hve : virt + size < USIZE) : userFrames phys.mem root virt size =
      userPages (pte phys.mem tab) (pageNo virt) (size / PAGESIZE) := by
  unfold userFrames userPages
  rw [List.range'_eq_map_range, List.filterMap_map]
  refine List.filterMap_congr fun k hk => ?_
  have hk := List.mem_range.1 hk
  have hsz := PAGESIZE_eq
  have hle : k * PAGESIZE + PAGESIZE ≤ size := by
    rw [hsz] at hk ⊢
    omega
  rw [Function.comp_apply, userFrame_eq h (by rw [Nat.add_mul_mod_self_right, hv]) (by omega)]
  congr 2
  unfold pageNo
  rw [hsz] at *
  omega

/-- `unmap` of whole pages when no user page to be freed is at frame 0. -/
theorem unmap_runs {virt size : Nat} (free : Bool) (h : t.Reach c s) (hv : virt % PAGESIZE = 0)
    (hve : virt + size ≤ VIRT_END) (hs : size % PAGESIZE = 0)
    (h0 : free = true → 0 ∉ userFrames s.phys.mem t.root virt size) :
    ∃ phys, (t.unmap virt size free).run c s.phys = .ok (.ok (), phys) ∧
      (∀ va, virt ≤ va ∧ va < virt + size → Sv32.translate phys.mem t.root va = none) ∧
      (∀ va, ¬ (virt ≤ va ∧ va < virt + size) →
        Sv32.translate phys.mem t.root va = Sv32.translate s.phys.mem t.root va) ∧
      (t.unmap virt size free).heapCalls c s.phys =
        if free then (userFrames s.phys.mem t.root virt size).map .dealloc else [] := by
  have hlt : virt + size < USIZE := Nat.lt_of_le_of_lt hve virtEnd_lt
  obtain ⟨⟨tab, ht⟩, hf⟩ := h.tree
  rw [userFrames_eq ht hv hlt] at h0 ⊢
  have h0' : 0 ∉ freedPages free (pte s.phys.mem tab) (pageNo virt) (size / PAGESIZE) := by
    unfold freedPages
    split
    · rename_i hfree
      exact h0 hfree
    · exact List.not_mem_nil
  obtain ⟨tr, phys, he, hx⟩ := unmap_ends ht hs hv hlt h0'
  have hent : pte (View.mem ⟨s.tables, phys.mem⟩) tab =
      eraseRange (pageNo virt) (size / PAGESIZE) (pte s.phys.mem tab) := hx.entries
  refine ⟨phys, he.run, fun va hva => ?_, fun va hva => ?_, ?_⟩
  · refine hx.tree.translate_even ?_
    rw [hent]
    exact eraseRange_in ((inPages_iff hv hs).2 hva) _
  · refine ht.translate_congr hx.tree ?_
    rw [hent]
    exact eraseRange_out (fun hin => hva ((inPages_iff hv hs).1 hin)) _
  · rw [M.heapCalls, he.trace, hx.calls]
    unfold freedPages
    split <;> rfl

theorem unmap_stops {virt size : Nat} {free : Bool} (h : t.Reach c s) (hv : virt % PAGESIZE = 0)
    (hve : virt + size ≤ VIRT_END) (hs : size % PAGESIZE = 0) (hfree : free = true)
    (h0 : 0 ∈ userFrames s.phys.mem t.root virt size) :
    ∃ e, (t.unmap virt size free).run c s.phys = .error e := by
  have hlt : virt + size < USIZE := Nat.lt_of_le_of_lt hve virtEnd_lt
  obtain ⟨⟨tab, ht⟩, -⟩ := h.tree
  rw [userFrames_eq ht hv hlt] at h0
  refine unmap_null ht hs hv hlt ?_
  rw [freedPages, if_pos hfree]
  exact h0

theorem unmap_odd_size {virt size : Nat} (free : Bool) (phys : Phys) (hs : size % PAGESIZE ≠ 0) :
    (t.unmap virt size free).run c phys = .ok (.error (), phys) := by
  unfold PageTable.unmap
  rw [if_pos hs]
  rfl

/-- What `unmap` did when it returned `Ok`. -/
theorem unmap_range {virt size : Nat} {free : Bool} {phys : Phys} (h : t.Reach c s)
    (hv : virt % PAGESIZE = 0) (hve : virt + size ≤ VIRT_END)
    (hr : (t.unmap virt size free).run c s.phys = .ok (.ok (), phys)) :
    (∀ va, virt ≤ va ∧ va < virt + size → Sv32.translate phys.mem t.root va = none) ∧
      ∀ va, ¬ (virt ≤ va ∧ va < virt + size) →
        Sv32.translate phys.mem t.root va = Sv32.translate s.phys.mem t.root va := by
  by_cases hs : size % PAGESIZE = 0
  · by_cases h0 : free = true ∧ 0 ∈ userFrames s.phys.mem t.root virt size
    · obtain ⟨e, he⟩ := unmap_stops h hv hve hs h0.1 h0.2
      rw [he] at hr
      cases hr
    · obtain ⟨phys', hr', hin, hout, -⟩ := unmap_runs free h hv hve hs fun hf hm => h0 ⟨hf, hm⟩
      rw [hr'] at hr
      cases hr
      exact ⟨hin, hout⟩
  · rw [unmap_odd_size free _ hs] at hr
    cases hr

/-- **`unmap`** removes exactly its range and frees the user pages in it, once each, unless one
of them leads to frame 0: `dealloc` refuses the null pointer. After a `map` of an unmapped range it
restores the translation. -/
theorem unmap_exact {virt size : Nat} (h : t.Reach c s) (hv : virt % PAGESIZE = 0)
    (hve : virt + size ≤ VIRT_END) :
    (∀ free, size % PAGESIZE ≠ 0 →
      (t.unmap virt size free).run c s.phys = .ok (.error (), s.phys)) ∧
    (∀ free, size % PAGESIZE = 0 →
      (free = true → 0 ∉ userFrames s.phys.mem t.root virt size) →
      ∃ phys, (t.unmap virt size free).run c s.phys = .ok (.ok (), phys) ∧
        (∀ va, virt ≤ va ∧ va < virt + size → Sv32.translate phys.mem t.root va = none) ∧
        (∀ va, ¬ (virt ≤ va ∧ va < virt + size) →
          Sv32.translate phys.mem t.root va = Sv32.translate s.phys.mem t.root va) ∧
        (t.unmap virt size free).heapCalls c s.phys =
          if free then (userFrames s.phys.mem t.root virt size).map .dealloc else []) ∧
    (size % PAGESIZE = 0 → 0 ∈ userFrames s.phys.mem t.root virt size →
      ∃ e, (t.unmap virt size true).run c s.phys = .error e) ∧
    ∀ phys perm s' free phys', phys % PAGESIZE = 0 → size % PAGESIZE = 0 → phys + size < USIZE →
      PermOk perm → (∀ va, virt ≤ va ∧ va < virt + size → Sv32.translate s.phys.mem t.root va = none) →
      TableCall c (t.map virt phys size perm) s (.ok ()) s' →
      (t.unmap virt size free).run c s'.phys = .ok (.ok (), phys') →
      ∀ va, Sv32.translate phys'.mem t.root va = Sv32.translate s.phys.mem t.root va := by
  refine ⟨fun free hs => unmap_odd_size free _ hs, fun free => unmap_runs free h hv hve,
    fun hs => unmap_stops h hv hve hs rfl, ?_⟩
  intro phys perm s' free phys' hp hs hpe hperm hnone hmap hunmap va
  have hvu : virt < USIZE := by have := virtEnd_lt; omega
  obtain ⟨hin, hout⟩ := unmap_range (.map h hvu hmap) hv hve hunmap
  by_cases hva : virt ≤ va ∧ va < virt + size
  · rw [hin va hva, hnone va hva]
  · rw [hout va hva]
    exact map_outside h hv hp hs hve hpe hperm hmap hva

end

/-! ## A table on the demo image -/

/-- The allocator's free frames are page frames, each there once, and none of them a table. -/
structure TableState.Sane (c : Cfg) (s : TableState) : Prop where
  nodup : s.phys.free.Nodup
  free : ∀ f ∈ s.phys.free, c.IsFrame f ∧ f ∉ s.tables

section
variable {c : Cfg} {s : TableState}

/-- One operation of such a run. -/
theorem TableState.Sane.step {o : MemOp} {r : o.Resp} {phys : Phys} (h : s.Sane c)
    (ho : o.NoFree) (hx : Phys.exec c o s.phys = .ok (r, phys)) :
    ∃ T, TableStep c o s r ⟨phys, T⟩ ∧ TableState.Sane c ⟨phys, T⟩ := by
  -- only a call of the allocator moves the free frames
  have hsame : phys.free = s.phys.free → TableState.Sane c ⟨phys, s.tables⟩ := by
    intro hf
    refine ⟨?_, fun f hm => ?_⟩
    · rw [hf]
      exact h.nodup
    · dsimp only at hm
      rw [hf] at hm
      exact h.free f hm
  cases o with
  | alloc =>
    have ha : s.phys.alloc c = (r, phys) := Except.ok.inj hx
    have ha' := ha
    unfold Phys.alloc at ha'
    have hnull : r = 0 → phys.free = s.phys.free → ∃ T, TableStep c .alloc s r ⟨phys, T⟩ ∧
        TableState.Sane c ⟨phys, T⟩ := by
      intro hr hf
      exact ⟨s.tables, ⟨ha, fun h0 => absurd hr h0, by rw [if_pos hr]⟩, hsame hf⟩
    split at ha'
    · rename_i f hb
      split at ha'
      · rename_i hmem
        obtain ⟨rfl, rfl⟩ := Prod.mk.inj ha'
        obtain ⟨hfr, hnt⟩ := h.free f hmem
        refine ⟨insert f s.tables, ⟨ha, fun _ => ⟨hfr, hnt⟩, by rw [if_neg hfr.ne_zero]⟩,
          h.nodup.erase f, fun g hg => ?_⟩
        obtain ⟨hne, hg⟩ := (h.nodup.mem_erase_iff).1 hg
        refine ⟨(h.free g hg).1, fun hm => ?_⟩
        rcases Finset.mem_insert.1 hm with he | hm
        · exact hne he
        · exact (h.free g hg).2 hm
      · obtain ⟨rfl, rfl⟩ := Prod.mk.inj ha'
        exact hnull rfl rfl
    · obtain ⟨rfl, rfl⟩ := Prod.mk.inj ha'
      exact hnull rfl rfl
  | dealloc f => exact ho.elim
  | panic msg => cases hx
  | _ =>
    refine ⟨s.tables, ⟨hx, rfl⟩, hsame ?_⟩
    simp only [Phys.exec] at hx
    split at hx
    · obtain ⟨-, rfl⟩ := Prod.mk.inj (Except.ok.inj hx)
      rfl
    · cases hx

/-- With such an allocator a run that frees nothing is a call. -/
theorem TableState.Sane.call {α : Type} {p : M α} (hp : p.Only MemOp.NoFree) {r : α} {phys : Phys}
    (h : s.Sane c) (hr : p.run c s.phys = .ok (r, phys)) :
    ∃ T, TableCall c p s r ⟨phys, T⟩ ∧ TableState.Sane c ⟨phys, T⟩ := by
  induction p generalizing s with
  | ret a =>
    cases hr
    exact ⟨s.tables, ⟨[], .ret _ _⟩, h⟩
  | op o k ih =>
    unfold M.run at hr
    rw [Free.run_op] at hr
    cases hx : Phys.exec c o s.phys with
    | error e =>
      rw [hx] at hr
      cases hr
    | ok q =>
      rw [hx] at hr
      obtain ⟨T₁, hs, hsane⟩ := h.step hp.1 hx
      obtain ⟨T, ⟨tr, he⟩, hT⟩ := ih q.1 (hp.2 q.1) hsane hr
      exact ⟨T, ⟨_, .op hs he⟩, hT⟩

end

/-- A new page table on the demo image, and a page mapped in it. -/
theorem table_demo {virt phys perm : Nat} (hv : virt % PAGESIZE = 0)
    (hve : virt + PAGESIZE < USIZE) (hp : phys % PAGESIZE = 0) (hpe : phys + PAGESIZE < USIZE)
    (hperm : PermOk perm) : ∃ t s s', PageTable.Reach Cfg.demo t s ∧
      TableCall Cfg.demo (t.map virt phys PAGESIZE perm) s (.ok ()) s' ∧
      ∀ va, Sv32.translate s.phys.mem t.root va = none := by
  have hsane : TableState.Sane Cfg.demo ⟨World.demo.phys, ∅⟩ :=
    ⟨demoFrames_nodup _, fun f hf => ⟨demoFrames_frame (by omega) hf, Finset.notMem_empty f⟩⟩
  let total := (demoFrames 3000).toFinset
  have htot : total.card = 3000 := by
    rw [List.toFinset_card_of_nodup (demoFrames_nodup _), demoFrames_length]
  have hof : View.Of Cfg.demo total World.demo.phys.mem ⟨∅, World.demo.phys.mem⟩
      World.demo.phys := by
    refine ⟨rfl, fun _ _ => rfl, demoFrames_nodup _, fun f hf => ?_, fun f => ?_, fun f hf => ?_⟩
    · exact absurd hf (Finset.notMem_empty f)
    · rw [List.mem_toFinset]
      exact ⟨.inr, fun hf => hf.resolve_left (Finset.notMem_empty f)⟩
    · exact demoFrames_frame (by omega) (List.mem_toFinset.1 hf)
  -- `new`
  have hnew : M.wp (plenty Cfg.demo total.card) PageTable.new
      (fun t v => v.own.card = 1 ∧ Tree Cfg.demo v t.root fun _ => none)
      ⟨∅, World.demo.phys.mem⟩ := by
    refine wp_new (fun ho => ?_) fun v f _ _ ho ht _ => ⟨?_, ht⟩
    · have ho : total.card ≤ (∅ : Finset Nat).card := ho
      rw [htot, Finset.card_empty] at ho
      omega
    · rw [ho]
      exact Finset.card_singleton f
  obtain ⟨t, s, v, hr, hof, hcard, ht⟩ := plenty_run Cfg.demo_eager hof hnew
  obtain ⟨T, hcall, hsane⟩ := hsane.call (PageTable.new_only tableOps_noFree trivial) hr
  -- `map`
  have hmap : M.wp (plenty Cfg.demo total.card) (t.map virt phys PAGESIZE perm)
      (fun r _ => r = .ok ()) v := by
    refine wp_map_one ht hv hve hp hpe hperm (fun hs : False => hs.elim) (fun _ _ _ _ _ => rfl)
      fun v' hg ho _ _ => ?_
    have ho : total.card ≤ v'.own.card := ho
    have hc := hg.own_card
    omega
  obtain ⟨r, s', v', hr', -, hok⟩ := plenty_run Cfg.demo_eager hof hmap
  subst hok
  obtain ⟨T', hcall', -⟩ := hsane.call (PageTable.map_only tableOps_noFree trivial t virt phys PAGESIZE perm) hr'
  refine ⟨t, ⟨s, T⟩, ⟨s', T'⟩, .new hcall, hcall', fun va => ?_⟩
  rw [← hof.mem]
  exact ht.translate_even rfl

theorem map_exact_demo : ∃ t s s', PageTable.Reach Cfg.demo t s ∧
    TableCall Cfg.demo (t.map 0x10000 0x80300000 PAGESIZE PTE_R) s (.ok ()) s' ∧
    ∀ va, 0x10000 ≤ va ∧ va < 0x10000 + PAGESIZE →
      Sv32.translate s'.phys.mem t.root va = some (0x80300000 + (va - 0x10000), PTE_R) := by
  have hsz := PAGESIZE_eq
  have hv : 0x10000 % PAGESIZE = 0 := by rw [hsz]
  have hp : 0x80300000 % PAGESIZE = 0 := by rw [hsz]
  have hpe : 0x80300000 + PAGESIZE < USIZE := by rw [hsz]; decide
  have hperm : PermOk PTE_R := ⟨by decide, by decide⟩
  obtain ⟨t, s, s', hr, hm, -⟩ := table_demo hv (by rw [hsz]; decide) hp hpe hperm
  refine ⟨t, s, s', hr, hm, fun va hva => ?_⟩
  have hve : 0x10000 + PAGESIZE ≤ VIRT_END := by
    unfold VIRT_END
    rw [hsz]
    decide
  refine ((map_exact hr hv hp (Nat.mod_self _) hve hpe hperm (by decide) hm).2 va hva).resolve_right ?_
  rintro ⟨h, -⟩
  cases h

theorem userFrame_of_translate {m : Bytes} {root va pa perm : Nat}
    (h : Sv32.translate m root va = some (pa, perm)) (hu : perm / 16 % 2 = 1) :
    userFrame m root va = some (pa % USIZE) := by
  unfold Sv32.translate at h
  unfold userFrame
  cases hw : Sv32.walk m root va with
  | none =>
    rw [hw] at h
    cases h
  | some q =>
    rw [hw] at h
    obtain ⟨rfl, rfl⟩ := Prod.mk.inj (Option.some.inj h)
    exact if_pos (by omega)

theorem userFrames_page {m : Bytes} {root va pa perm : Nat}
    (h : Sv32.translate m root va = some (pa, perm)) (hu : perm / 16 % 2 = 1) :
    userFrames m root va PAGESIZE = [pa % USIZE] := by
  unfold userFrames
  rw [Nat.div_self (by rw [PAGESIZE_eq]; decide)]
  simp only [List.range_one, List.filterMap_cons, List.filterMap_nil, Nat.zero_mul, Nat.add_zero,
    userFrame_of_translate h hu]

/-- A user page is mapped and unmapped again. -/
theorem unmap_exact_demo : ∃ t s s' phys, PageTable.Reach Cfg.demo t s ∧
    TableCall Cfg.demo (t.map 0x10000 0x80300000 PAGESIZE (PTE_R ||| PTE_U)) s (.ok ()) s' ∧
    (t.unmap 0x10000 PAGESIZE true).run Cfg.demo s'.phys = .ok (.ok (), phys) ∧
    (t.unmap 0x10000 PAGESIZE true).heapCalls Cfg.demo s'.phys = [.dealloc 0x80300000] ∧
    ∀ va, Sv32.translate phys.mem t.root va = Sv32.translate s.phys.mem t.root va := by
  have hsz := PAGESIZE_eq
  have hv : 0x10000 % PAGESIZE = 0 := by rw [hsz]
  have hp : 0x80300000 % PAGESIZE = 0 := by rw [hsz]
  have hs : PAGESIZE % PAGESIZE = 0 := Nat.mod_self _
  have hpe : 0x80300000 + PAGESIZE < USIZE := by rw [hsz]; decide
  have hperm : PermOk (PTE_R ||| PTE_U) := ⟨by decide, by decide⟩
  have hve : 0x10000 + PAGESIZE ≤ VIRT_END := by
    unfold VIRT_END
    rw [hsz]
    decide
  obtain ⟨t, s, s', hr, hm, hnone⟩ := table_demo hv (by rw [hsz]; decide) hp hpe hperm
  have hpage := (map_inside hr hv hp hs hve hpe hperm (by decide) hm
    ⟨Nat.le_refl 0x10000, by rw [hsz]; decide⟩).resolve_right fun h => by cases h.1
  have hframes := userFrames_page hpage (by decide)
  have hs' := hr.map (by decide) hm
  obtain ⟨phys, hok, -, -, hcalls⟩ := (unmap_exact hs' hv hve).2.1 true hs fun _ => by
    rw [hframes]
    decide
  refine ⟨t, s, s', phys, hr, hm, hok, ?_, ?_⟩
  · rw [hcalls, hframes]
    rfl
  · exact (unmap_exact hr hv hve).2.2.2 0x80300000 _ s' true phys hp hs hpe hperm
      (fun va _ => hnone va) hm hok

/-- Page 0 mapped at frame 0 for the user: `unmap` panics when it frees it. -/
theorem unmap_null_frame : ∃ t s, PageTable.Reach Cfg.demo t s ∧
    ¬ ∃ phys, (t.unmap 0 PAGESIZE true).run Cfg.demo s.phys = .ok (.ok (), phys) := by
  have hsz := PAGESIZE_eq
  have h0 : 0 % PAGESIZE = 0 := Nat.zero_mod _
  have hlt : 0 + PAGESIZE < USIZE := by rw [hsz]; decide
  have hperm : PermOk (PTE_R ||| PTE_U) := ⟨by decide, by decide⟩
  obtain ⟨t, s, s', hr, hm, -⟩ := table_demo h0 hlt h0 hlt hperm
  have hve : 0 + PAGESIZE ≤ VIRT_END := by
    unfold VIRT_END
    rw [hsz]
    decide
  have hs' := hr.map (by decide) hm
  refine ⟨t, s', hs', ?_⟩
  have htr := (map_inside hr h0 h0 (Nat.mod_self _) hve hlt hperm (by decide) hm
    ⟨Nat.le_refl 0, by rw [hsz]; decide⟩).resolve_right fun h => by cases h.1
  have hu : userFrames s'.phys.mem t.root 0 PAGESIZE = [0] := userFrames_page htr (by decide)
  obtain ⟨e, he⟩ := unmap_stops hs' h0 hve (Nat.mod_self _) rfl (by rw [hu]; simp)
  rintro ⟨phys, hok⟩
  rw [he] at hok
  cases hok

end BareMetal
