import BareMetal.Virt.Proof.Space

/-!
# Dropping a user address space

Drop for `Uvm` clears every entry and gives the user pages back; Drop for `PageTable` then walks
the tables (`wp_freeReq`) and gives back the root. The second-level tables are walked and not
given back: the owner's frames after `drop` are its frames before, less the user pages and the
root (`wp_drop`).
-/

namespace BareMetal

open Lib

section
variable {E : Mode} {v : View} {root : Nat} {tab : Nat → Option Nat}

/-- The invariant rule of `for i in 0..n`. -/
theorem wp_forRange {f : Nat → M Unit} {n : Nat} (I : Nat → View → Prop)
    (hf : ∀ i < n, ∀ w, I i w → M.wp E (f i) (fun _ => I (i + 1)) w) (h0 : I 0 v)
    {Q : Unit → View → Prop} (hQ : ∀ w, I n w → Q () w) : M.wp E (Free.forRange f n) Q v :=
  M.wp_conseq (Free.wp_forRange (memSpec_mono E) hf h0) fun _ w hw => hQ w hw

/-- A table is read and left as it is; where an entry is still a leaf the code may panic. -/
theorem wp_freeReq_empty {t depth : Nat} (hf : E.cfg.IsFrame t) (ho : t ∈ v.own)
    (hz : ∀ i < 1024, v.mem.word (t + 4 * i) % 2 = 1 →
      E.stop ∧ Sv32.isLeaf (v.mem.word (t + 4 * i)))
    {Q : Unit → View → Prop} (h : Q () v) : M.wp E (PageTable.freeReq (depth + 1) t) Q v := by
  unfold PageTable.freeReq
  refine wp_forRange (fun _ w => w = v) (fun i hi w hw => ?_) rfl fun w hw => by rw [hw]; exact h
  subst hw
  rw [M.wp_bind]
  refine wp_read_entry hf ho hi ?_
  dsimp only
  rw [Pte.v_eq]
  by_cases hodd : w.mem.word (t + 4 * i) % 2 = 1
  · obtain ⟨hstop, hl⟩ := hz i hi hodd
    rw [if_pos (by simp [hodd]), if_neg]
    · exact M.wp_panic hstop
    · rw [Pte.r_eq, Pte.w_eq, Pte.x_eq]
      simp only [Bool.and_eq_true, Bool.not_eq_true', decide_eq_false_iff_not]
      unfold Sv32.isLeaf at hl
      omega
  · rw [if_neg (by simp [hodd])]
    exact rfl

/-- **`free_req`** from the root of a tree that maps nothing: no frame is given back. -/
theorem wp_freeReq (hns : ¬ E.strict) {depth : Nat} (h : Tree E.cfg v root tab)
    (hz : ∀ q, pte v.mem tab q % 2 = 1 → E.stop ∧ Sv32.isLeaf (pte v.mem tab q))
    {Q : Unit → View → Prop}
    (hok : ∀ m, (∀ a, ¬ Tree.Has root tab (pageOf a) → m a = v.mem a) → Q () { v with mem := m }) :
    M.wp E (PageTable.freeReq (depth + 2) root) Q v := by
  unfold PageTable.freeReq
  -- the invariant: the tables stay, with no new entry, and nothing else changes
  let I : Nat → View → Prop := fun _ w => w.own = v.own ∧ Tree E.cfg w root tab ∧
    (∀ q, pte w.mem tab q % 2 = 1 → E.stop ∧ Sv32.isLeaf (pte w.mem tab q)) ∧
    ∀ a, ¬ Tree.Has root tab (pageOf a) → w.mem a = v.mem a
  refine wp_forRange I (fun i hi w hw => ?_) ⟨rfl, h, hz, fun _ _ => rfl⟩ fun w hw => ?_
  · obtain ⟨hwo, hwt, hwz, hwm⟩ := hw
    rw [M.wp_bind]
    refine wp_read_entry hwt.root_frame hwt.root_own hi ?_
    rw [hwt.dir i hi]
    cases ht : tab i with
    | none => exact ⟨hwo, hwt, hwz, hwm⟩
    | some t =>
      obtain ⟨hv, htt, hr, hw', hx⟩ := ptrWord_decode (hwt.frame ht).aligned
      have hslot : slot tab (i * 1024) = some t := by
        rw [slot, show i * 1024 / 1024 = i by omega, ht, Option.map_some,
          show i * 1024 % 1024 = 0 by omega]
        rfl
      dsimp only [dirWord]
      rw [if_pos hv, hr, hw', hx, htt, nonNull, if_neg (hwt.frame ht).ne_zero]
      simp only [Bool.not_false, Bool.and_self, ↓reduceIte]
      rw [M.wp_bind]
      refine M.wp_unwrap_some ?_
      rw [M.wp_bind]
      refine wp_freeReq_empty (hwt.frame ht) (hwt.own ht) (fun j hj => ?_) ?_
      · have := hwz (i * 1024 + j)
        rw [pte, show (i * 1024 + j) / 1024 = i by omega, ht] at this
        simp only [show (i * 1024 + j) % 1024 = j by omega] at this
        exact this
      refine M.wp_write (fun h => absurd h hns) (hwt.slot_page hslot).2 ⟨hwo, hwt.setWord hslot, fun q => ?_, fun a ha => ?_⟩
      · rw [hwt.pte_setWord hslot (by omega)]
        split
        · exact fun h0 => by cases h0
        · exact hwz q
      · rw [← hwm a ha]
        obtain ⟨hp, ho⟩ := hwt.slot_page hslot
        exact Bytes.setWord_ne (ho.out fun he => ha (.inr ⟨_, by rw [he]; exact hp⟩))
  · obtain ⟨hwo, -, -, hwm⟩ := hw
    have := hok w.mem hwm
    rwa [← hwo] at this

/-- Drop for `PageTable` gives back the root. -/
theorem wp_free (hns : ¬ E.strict) (h : Tree E.cfg v root tab)
    (hz : ∀ q, pte v.mem tab q % 2 = 1 → E.stop ∧ Sv32.isLeaf (pte v.mem tab q))
    {Q : Unit → View → Prop}
    (hok : ∀ m, (∀ a, ¬ Tree.Has root tab (pageOf a) → m a = v.mem a) →
      Q () { own := v.own.erase root, mem := m }) :
    M.wp E (PageTable.free ⟨root⟩) Q v := by
  unfold PageTable.free
  rw [M.wp_bind, show FREE_DEPTH = 126 + 2 from rfl]
  exact wp_freeReq hns h hz fun m hm => M.wp_dealloc h.root_own (hok m hm)

end

/-! ## `Uvm` -/

/-- The frames that dropping `u` gives back: its user pages and its root. -/
def Returned (m : Bytes) (tab : Nat → Option Nat) (u : Uvm) (f : Nat) : Prop :=
  f = u.pagetable.root ∨ ∃ q, ¬ SysPage q ∧ UserPage (pte m tab q) f

section
variable {E : Mode} {v : View} {u : Uvm} {tab : Nat → Option Nat}

/-- One page above the user's is unmapped. -/
theorem wp_unmap_sys (hns : ¬ E.strict) (h : Space E.cfg v u tab) {va : Nat} (hva : va % PAGESIZE = 0)
    (hlt : va + PAGESIZE < USIZE) {Q : Unit → View → Prop}
    (hok : ∀ v', v'.own = v.own → Space E.cfg v' u tab →
      (∀ a, ¬ Tree.Has u.pagetable.root tab (pageOf a) → v'.mem a = v.mem a) →
      pte v'.mem tab = unmapRange (pageNo va) 1 (pte v.mem tab) → Q () v') :
    M.wp E (u.pagetable.unmap va PAGESIZE false >>= M.unwrapOk) Q v := by
  have h1 : PAGESIZE / PAGESIZE = 1 := Nat.div_self (by rw [PAGESIZE_eq]; omega)
  rw [M.wp_bind]
  refine wp_unmap hns h.tree (Nat.mod_self _) hva (by omega) (fun hov => by omega) h.clean
    (fun f hf => by cases hf) (fun q r f hf => by cases hf) fun v' _ hc he => ?_
  rw [h1] at hc he
  refine M.wp_unwrapOk (fun _ => hok v' ?_ ?_ hc.mem he) fun he => by cases he
  · ext f
    rw [hc.own]
    simp
  · refine h.cut hc he (fun f hf => by cases hf.1) h.size_page fun q hq => h.range q fun h0 => hq ?_
    rw [he, unmapRange, h0, ite_self]

/-- **`Uvm::free`** clears every entry and gives the user pages back. -/
theorem wp_uvmFree (hns : ¬ E.strict) (h : Space E.cfg v u tab)
    (hstop : u.size ≠ 0 → USIZE ≤ USER_START + u.size → E.stop) {Q : Unit → View → Prop}
    (hok : ∀ v', (u.size ≠ 0 → USER_START + u.size < USIZE) → Tree E.cfg v' u.pagetable.root tab →
      (∀ q, pte v'.mem tab q = 0) →
      (∀ f, f ∈ v'.own ↔ f ∈ v.own ∧ ¬ ∃ q, ¬ SysPage q ∧ UserPage (pte v.mem tab q) f) →
      (∀ a, ¬ Tree.Has u.pagetable.root tab (pageOf a) → v'.mem a = v.mem a) → Q () v') :
    M.wp E u.free Q v := by
  have hua : USER_START + u.size = u.begin + u.size := by rw [h.begin_eq]
  unfold Uvm.free
  rw [← bind_assoc, M.wp_bind]
  refine wp_unmap_sys hns h trampoline_va.1 trampoline_va.2.1 fun v₁ ho₁ h₁ hm₁ he₁ => ?_
  rw [← bind_assoc, M.wp_bind]
  refine wp_unmap_sys hns h₁ trapframe_va.1 trapframe_va.2.1 fun v₂ ho₂ h₂ hm₂ he₂ => ?_
  -- what is left of the entries lies below the end
  have he : ∀ q, pte v₂.mem tab q = if SysPage q then 0 else pte v.mem tab q := by
    intro q
    rw [he₂, he₁, unmapRange_one, unmapRange_one]
    by_cases h1 : q = pageNo TRAPFRAME
    · rw [if_pos h1, if_pos (show SysPage q from .inr h1)]
    · rw [if_neg h1]
      by_cases h2 : q = pageNo TRAMPOLINE
      · rw [if_pos h2, if_pos (show SysPage q from .inl h2)]
      · rw [if_neg h2, if_neg (show ¬ SysPage q from fun h => h.elim h2 h1)]
  have hown : v₂.own = v.own := ho₂.trans ho₁
  have hmem : ∀ a, ¬ Tree.Has u.pagetable.root tab (pageOf a) → v₂.mem a = v.mem a :=
    fun a ha => (hm₂ a ha).trans (hm₁ a ha)
  have husr : ∀ q, ¬ SysPage q → pte v₂.mem tab q = pte v.mem tab q := fun q hq => by
    rw [he, if_neg hq]
  have hlow : ∀ q, pte v₂.mem tab q ≠ 0 → ¬ SysPage q := fun q hq hs => hq (by rw [he, if_pos hs])
  by_cases h0 : u.size = 0
  · -- an empty user range
    rw [if_neg (by omega)]
    have hz : ∀ q, pte v₂.mem tab q = 0 := fun q => by
      by_contra hq
      have := (h₂.range q hq).resolve_left (hlow q hq)
      rw [h0, Nat.zero_div] at this
      exact not_inPages_zero _ q this
    refine hok v₂ (fun hn => absurd h0 hn) h₂.tree hz (fun f => ?_) hmem
    rw [hown]
    refine ⟨fun hf => ⟨hf, ?_⟩, fun hf => hf.1⟩
    rintro ⟨q, hq, hu⟩
    rw [← husr q hq] at hu
    exact hu.ne_zero (hz q)
  · rw [if_pos (by omega)]
    have hbp : pageNo u.begin = pageNo USER_START := by rw [h.begin_eq]
    rw [M.wp_bind]
    refine wp_unmap hns h₂.tree h.size_page (by rw [h.begin_eq]; exact userStart_page)
      (by rw [h.begin_eq, USIZE_eq]; decide) (fun hov => hstop h0 (by rw [hua]; omega)) h₂.clean
      (fun f _ hf => ?_) (fun q r f _ hq hr => h₂.inj q r f hq.maps hr.maps) fun v₃ hlt hc he₃ => ?_
    · obtain ⟨q, -, hq⟩ := hf
      exact h₂.user q f hq.maps
    · refine M.wp_unwrapOk (fun _ => hok v₃ (fun _ => by rw [hua]; omega) hc.tree (fun q => ?_)
        (fun f => ?_) fun a ha => (hc.mem a ha).trans (hmem a ha)) fun he => by cases he
      · rw [he₃, unmapRange, hbp]
        split
        · rfl
        · rename_i hq
          by_contra hq0
          exact hq ((h₂.range q hq0).resolve_left (hlow q hq0))
      · rw [hc.own, hown, hbp]
        refine and_congr_right fun _ => not_congr ⟨?_, ?_⟩
        · rintro ⟨-, q, -, hu⟩
          exact ⟨q, hlow q hu.ne_zero, by rw [← husr q (hlow q hu.ne_zero)]; exact hu⟩
        · rintro ⟨q, hq, hu⟩
          rw [← husr q hq] at hu
          exact ⟨rfl, q, (h₂.range q hu.ne_zero).resolve_left hq, hu⟩

/-- **Drop for `Uvm`**: the second-level tables are not given back. -/
theorem wp_drop (hns : ¬ E.strict) (h : Space E.cfg v u tab)
    (hstop : u.size ≠ 0 → USIZE ≤ USER_START + u.size → E.stop) {Q : Unit → View → Prop}
    (hok : ∀ v', (u.size ≠ 0 → USER_START + u.size < USIZE) →
      (∀ f, f ∈ v'.own ↔ f ∈ v.own ∧ ¬ Returned v.mem tab u f) →
      (∀ a, ¬ Tree.Has u.pagetable.root tab (pageOf a) → v'.mem a = v.mem a) → Q () v') :
    M.wp E u.drop Q v := by
  unfold Uvm.drop
  rw [M.wp_bind]
  refine wp_uvmFree hns h hstop fun v₁ hlt ht hz ho hm => ?_
  refine wp_free hns ht (fun q hq => (by rw [hz q] at hq; cases hq)) fun m hm' => hok _ hlt (fun f => ?_) fun a ha => (hm' a ha).trans (hm a ha)
  rw [Finset.mem_erase, ho]
  unfold Returned
  rw [not_or, and_left_comm]

end

end BareMetal
