import BareMetal.Virt.Proof.Map

/-!
# Unmapping

`unmap` clears the entries of its range and no others (`unmapRange`); with `free` it gives back
exactly the user pages mapped there (`UserPage`), and nothing else (`Cut`).
-/

namespace BareMetal

open Lib

/-- The entry `w` maps the user page `f`: it is a valid leaf with U set. -/
def UserPage (w f : Nat) : Prop :=
  w % 2 = 1 ∧ (w / 2 % 2 = 1 ∨ w / 4 % 2 = 1 ∨ w / 8 % 2 = 1) ∧ w / 16 % 2 = 1 ∧
    w / 1024 * 4096 % USIZE = f

/-- An entry is zero or valid. -/
def Clean (e : Nat → Nat) : Prop := ∀ q, e q % 2 = 0 → e q = 0

/-- The entries after unmapping `n` pages from page `p`. -/
def unmapRange (p n : Nat) (e : Nat → Nat) : Nat → Nat := fun q =>
  if p ≤ q ∧ q < p + n then 0 else e q

@[simp] theorem unmapRange_zero (p : Nat) (e : Nat → Nat) : unmapRange p 0 e = e := by
  funext q
  exact if_neg (by omega)

theorem unmapRange_one (p : Nat) (e : Nat → Nat) (q : Nat) :
    unmapRange p 1 e q = if q = p then 0 else e q := by
  unfold unmapRange
  by_cases h : q = p
  · rw [if_pos (by omega), if_pos h]
  · rw [if_neg (by omega), if_neg h]

theorem unmapRange_succ (p n : Nat) (e : Nat → Nat) :
    unmapRange (p + 1) n (unmapRange p 1 e) = unmapRange p (n + 1) e := by
  funext q
  simp only [unmapRange]
  by_cases h : p + 1 ≤ q ∧ q < p + 1 + n
  · rw [if_pos h, if_pos (by omega)]
  · rw [if_neg h]
    by_cases hq : q = p
    · rw [if_pos (by omega), if_pos (by omega)]
    · rw [if_neg (by omega), if_neg (by omega)]

theorem Clean.unmapRange {e : Nat → Nat} (h : Clean e) (p n : Nat) :
    Clean (BareMetal.unmapRange p n e) := by
  intro q hq
  unfold BareMetal.unmapRange at *
  split at hq <;> simp_all [h q]

theorem UserPage.ne_zero {w f : Nat} (h : UserPage w f) : w ≠ 0 := by
  rintro rfl
  exact absurd h.1 (by omega)

/-- The frame a user page is mapped to is determined by the entry. -/
theorem UserPage.inj {w f g : Nat} (hf : UserPage w f) (hg : UserPage w g) : f = g :=
  hf.2.2.2.symm.trans hg.2.2.2

/-- The owner gave back exactly the frames in `freed`; memory changed in the tables only. -/
structure Cut (c : Cfg) (v v' : View) (root : Nat) (tab : Nat → Option Nat) (freed : Nat → Prop) :
    Prop where
  tree : Tree c v' root tab
  own : ∀ f, f ∈ v'.own ↔ f ∈ v.own ∧ ¬ freed f
  mem : ∀ a, ¬ Tree.Has root tab (pageOf a) → v'.mem a = v.mem a

section
variable {E : Mode} {v : View} {root : Nat} {tab : Nat → Option Nat}

theorem wp_unmapPage (hns : ¬ E.strict) (h : Tree E.cfg v root tab) {va : Nat} (hva : va < USIZE) {free : Bool}
    (hc : Clean (pte v.mem tab))
    (hf : ∀ f, free = true → UserPage (pte v.mem tab (pageNo va)) f →
      f ∈ v.own ∧ ¬ Tree.Has root tab f)
    {Q : Unit → View → Prop}
    (hok : ∀ v', Cut E.cfg v v' root tab
        (fun f => free = true ∧ UserPage (pte v.mem tab (pageNo va)) f) →
      pte v'.mem tab = unmapRange (pageNo va) 1 (pte v.mem tab) → Q () v') :
    M.wp E (PageTable.unmapPage ⟨root⟩ free va) Q v := by
  generalize hp : pageNo va = p at *
  -- nothing is mapped: the table is as it was
  have hnone : pte v.mem tab p = 0 → Q () v := fun h0 => by
    refine hok v ⟨h, fun f => ⟨fun hfo => ⟨hfo, fun hu => hu.2.ne_zero h0⟩, fun hfo => hfo.1⟩,
      fun _ _ => rfl⟩ (funext fun q => ?_)
    unfold unmapRange
    split
    · rw [show q = p by omega, h0]
    · rfl
  unfold PageTable.unmapPage
  rw [M.wp_bind]
  refine wp_walk_Walk h hva ?_
  rw [hp]
  cases hs : slot tab p with
  | none =>
    refine hnone ?_
    rw [slot, Option.map_eq_none_iff] at hs
    rw [pte, hs]
  | some a =>
    dsimp only
    rw [M.wp_bind]
    refine wp_read_slot h hs ?_
    generalize hw : pte v.mem tab p = w at *
    have hwlt : w < 2 ^ 32 := by rw [← hw]; exact Tree.pte_lt v tab p
    have hut : (w % 2 = 1) → (((free && ((Pte.fromUsize w).r || (Pte.fromUsize w).w ||
        (Pte.fromUsize w).x)) && (Pte.fromUsize w).u) = true ↔
        free = true ∧ UserPage w (Pte.fromUsize w).table) := fun hv => by
      rw [Pte.table_eq hwlt]
      unfold UserPage
      simp only [Pte.r_eq, Pte.w_eq, Pte.x_eq, Pte.u_eq, Bool.and_eq_true, Bool.or_eq_true,
        decide_eq_true_eq, hv]
      tauto
    rw [Pte.v_eq]
    simp only [decide_eq_true_eq]
    by_cases hv : w % 2 = 1
    · rw [if_pos hv]
      have hclear : ∀ o : Finset Nat, (∀ f, Tree.Has root tab f → f ∈ o) →
          (∀ f, f ∈ o ↔ f ∈ v.own ∧ ¬ (free = true ∧ UserPage w f)) →
          M.wp E (M.write a 0) Q { v with own := o } := by
        intro o hto ho
        have h' : Tree E.cfg { v with own := o } root tab := h.congr hto fun _ _ => rfl
        refine M.wp_write (fun h => absurd h hns) (h'.slot_page hs).2 (hok _ ⟨h'.setWord hs, ho, fun b hb => ?_⟩
          (funext fun q => ?_))
        · obtain ⟨ht, hoa⟩ := h'.slot_page hs
          have hne : pageOf b ≠ pageOf a := fun he => hb (.inr ⟨_, by rw [he]; exact ht⟩)
          have h1 := hoa.2
          refine Bytes.setWord_ne ?_
          unfold pageOf at hne
          rw [PAGESIZE_eq] at *
          omega
        · rw [h'.pte_setWord hs (by omega)]
          unfold unmapRange
          by_cases hq : q = p
          · rw [if_pos hq, if_pos (by omega)]
          · rw [if_neg hq, if_neg (by omega)]
      by_cases hu : free = true ∧ UserPage w (Pte.fromUsize w).table
      · rw [if_pos ((hut hv).2 hu), M.wp_bind]
        obtain ⟨hfo, hnt⟩ := hf _ hu.1 hu.2
        refine M.wp_dealloc hfo (hclear _ (fun f hf => ?_) fun f => ?_)
        · exact Finset.mem_erase.2 ⟨fun he => hnt (he ▸ hf), h.has_own hf⟩
        · rw [Finset.mem_erase]
          constructor
          · rintro ⟨h1, h2⟩
            exact ⟨h2, fun h3 => h1 (h3.2.inj hu.2)⟩
          · rintro ⟨h1, h2⟩
            refine ⟨?_, h1⟩
            rintro rfl
            exact h2 hu
      · rw [if_neg fun hc => hu ((hut hv).1 hc)]
        refine hclear v.own (fun f hf => h.has_own hf) fun f => ⟨fun hfo => ⟨hfo, ?_⟩, And.left⟩
        rintro ⟨h1, h2⟩
        exact hu ⟨h1, by rw [Pte.table_eq hwlt, ← h2.2.2.2] at *; exact h2⟩
    · rw [if_neg hv]
      exact hnone (hw ▸ hc p (by omega))

/-- The user pages mapped in a range. -/
def Pages (e : Nat → Nat) (p n f : Nat) : Prop := ∃ q, (p ≤ q ∧ q < p + n) ∧ UserPage (e q) f

theorem wp_unmapLoop (hns : ¬ E.strict) {free : Bool} (n : Nat) :
    ∀ {v : View} {va : Nat}, Tree E.cfg v root tab → va % PAGESIZE = 0 → va < USIZE →
      (USIZE ≤ va + n * PAGESIZE → E.stop) → Clean (pte v.mem tab) →
      (∀ f, free = true → Pages (pte v.mem tab) (pageNo va) n f →
        f ∈ v.own ∧ ¬ Tree.Has root tab f) →
      (∀ q r f, free = true → UserPage (pte v.mem tab q) f → UserPage (pte v.mem tab r) f →
        q = r) →
      ∀ {Q : Unit → View → Prop},
      (∀ v', va + n * PAGESIZE < USIZE → Cut E.cfg v v' root tab
          (fun f => free = true ∧ Pages (pte v.mem tab) (pageNo va) n f) →
        pte v'.mem tab = unmapRange (pageNo va) n (pte v.mem tab) → Q () v') →
      M.wp E (PageTable.unmapLoop ⟨root⟩ free n va) Q v := by
  induction n with
  | zero =>
    intro v va h _ hlt _ _ _ _ Q hok
    refine hok v (by omega) ⟨h, fun f => ⟨fun hf => ⟨hf, ?_⟩, fun hf => hf.1⟩, fun _ _ => rfl⟩
      (unmapRange_zero ..).symm
    rintro ⟨-, q, hq, -⟩
    omega
  | succ n ih =>
    intro v va h hva hlt hve hc hf hinj Q hok
    have hsz := PAGESIZE_eq
    have hpn : pageNo (va + PAGESIZE) = pageNo va + 1 := by
      unfold pageNo; rw [hsz]; omega
    have hone : ∀ f, UserPage (pte v.mem tab (pageNo va)) f →
        Pages (pte v.mem tab) (pageNo va) (n + 1) f := fun f hu => ⟨_, by omega, hu⟩
    unfold PageTable.unmapLoop
    rw [M.wp_bind]
    refine wp_unmapPage hns h hlt hc (fun f hfr hu => hf f hfr (hone f hu)) fun v₁ hcut he => ?_
    have he' : ∀ q, q ≠ pageNo va → pte v₁.mem tab q = pte v.mem tab q := fun q hq => by
      rw [he]; exact if_neg (by omega)
    have he0 : pte v₁.mem tab (pageNo va) = 0 := by rw [he]; exact if_pos (by omega)
    have hback : ∀ {q f}, UserPage (pte v₁.mem tab q) f →
        q ≠ pageNo va ∧ UserPage (pte v.mem tab q) f := fun {q f} hu => by
      by_cases hq : q = pageNo va
      · subst hq
        exact absurd he0 hu.ne_zero
      · exact ⟨hq, he' q hq ▸ hu⟩
    rw [M.wp_bind]
    refine M.wp_add_or (fun hov => hve ?_) fun hlt' => ?_
    · rw [hsz] at *; omega
    -- the pages after the first: their frames are still owned, being other frames
    refine ih hcut.tree (by rw [Nat.add_mod_right, hva]) hlt' (fun hov => hve ?_)
      (he ▸ hc.unmapRange _ _) (fun f hfr hp => ?_) (fun q r f hfr hq hr => ?_)
      fun v' hend hcut' he2 => ?_
    · rw [hsz] at *; omega
    · obtain ⟨q, hq, hu⟩ := hp
      rw [hpn] at hq
      obtain ⟨hne, hu⟩ := hback hu
      obtain ⟨h1, h2⟩ := hf f hfr ⟨q, by omega, hu⟩
      exact ⟨(hcut.own f).2 ⟨h1, fun h3 => hne (hinj _ _ f hfr hu h3.2)⟩, h2⟩
    · exact hinj q r f hfr (hback hq).2 (hback hr).2
    · refine hok v' (by rw [hsz] at *; omega) ⟨hcut'.tree, fun f => ?_, fun a ha => ?_⟩
        (by rw [he2, hpn, he, unmapRange_succ])
      · rw [hcut'.own, hcut.own, hpn]
        constructor
        · rintro ⟨⟨h1, h2⟩, h3⟩
          refine ⟨h1, ?_⟩
          rintro ⟨hfr, q, hq, hu⟩
          by_cases hqp : q = pageNo va
          · exact h2 ⟨hfr, hqp ▸ hu⟩
          · exact h3 ⟨hfr, q, by omega, (he' q hqp).symm ▸ hu⟩
        · rintro ⟨h1, h2⟩
          refine ⟨⟨h1, fun h3 => h2 ⟨h3.1, hone f h3.2⟩⟩, ?_⟩
          rintro ⟨hfr, q, hq, hu⟩
          exact h2 ⟨hfr, q, by omega, (hback hu).2⟩
      · exact (hcut'.mem a ha).trans (hcut.mem a ha)

/-- **`unmap`** of whole pages: it returns `Ok`, or the address runs over. -/
theorem wp_unmap (hns : ¬ E.strict) (h : Tree E.cfg v root tab) {virt size : Nat} {free : Bool}
    (hs : size % PAGESIZE = 0) (hv : virt % PAGESIZE = 0) (hlt : virt < USIZE)
    (hve : USIZE ≤ virt + size → E.stop) (hc : Clean (pte v.mem tab))
    (hf : ∀ f, free = true → Pages (pte v.mem tab) (pageNo virt) (size / PAGESIZE) f →
      f ∈ v.own ∧ ¬ Tree.Has root tab f)
    (hinj : ∀ q r f, free = true → UserPage (pte v.mem tab q) f → UserPage (pte v.mem tab r) f →
      q = r)
    {Q : Except Unit Unit → View → Prop}
    (hok : ∀ v', virt + size < USIZE → Cut E.cfg v v' root tab
        (fun f => free = true ∧ Pages (pte v.mem tab) (pageNo virt) (size / PAGESIZE) f) →
      pte v'.mem tab = unmapRange (pageNo virt) (size / PAGESIZE) (pte v.mem tab) →
      Q (.ok ()) v') :
    M.wp E (PageTable.unmap ⟨root⟩ virt size free) Q v := by
  have hd : size / PAGESIZE * PAGESIZE = size := Nat.div_mul_cancel (Nat.dvd_of_mod_eq_zero hs)
  unfold PageTable.unmap
  rw [if_neg (by omega), M.wp_bind]
  exact wp_unmapLoop hns _ h hv hlt (by rwa [hd]) hc hf hinj fun v' hb => hok v' (by rwa [hd] at hb)

end

end BareMetal
