import BareMetal.Virt.Proof.Tree

/-!
# Walking and writing entries

What `new`, `walk`, `mapPage` and `unmapPage` do to a table, in the logic of owned frames: one
specification for each, in terms of the tree (`Tree`) and its entries (`pte`).
-/

namespace BareMetal

open Lib

/-- Tables were added to the tree, and memory changed in the tables only. -/
structure Grown (c : Cfg) (v v' : View) (root : Nat) (tab tab' : Nat → Option Nat) : Prop where
  tree : Tree c v' root tab'
  keep : ∀ {i t}, tab i = some t → tab' i = some t
  fresh : ∀ {i t}, tab' i = some t → tab i = none → t ∉ v.own
  own : ∀ f, f ∈ v'.own ↔ f ∈ v.own ∨ ∃ i, tab' i = some f
  mem : ∀ a, ¬ Tree.Has root tab' (pageOf a) → v'.mem a = v.mem a

namespace Grown

variable {c : Cfg} {v v₁ v₂ : View} {root : Nat} {tab tab₁ tab₂ : Nat → Option Nat}

theorem refl (h : Tree c v root tab) : Grown c v v root tab tab where
  tree := h
  keep h := h
  fresh h hn := by rw [hn] at h; cases h
  own f := ⟨.inl, fun hf => hf.elim id fun ⟨_, hi⟩ => h.own hi⟩
  mem _ _ := rfl

theorem own_sub (h : Grown c v v₁ root tab tab₁) {f : Nat} (hf : f ∈ v.own) : f ∈ v₁.own :=
  (h.own f).2 (.inl hf)

theorem has (h : Grown c v v₁ root tab tab₁) {f : Nat} (hf : Tree.Has root tab f) :
    Tree.Has root tab₁ f :=
  hf.imp id fun ⟨i, hi⟩ => ⟨i, h.keep hi⟩

theorem trans (h₁ : Grown c v v₁ root tab tab₁) (h₂ : Grown c v₁ v₂ root tab₁ tab₂) :
    Grown c v v₂ root tab tab₂ where
  tree := h₂.tree
  keep h := h₂.keep (h₁.keep h)
  fresh {i t} h hn := by
    cases h1 : tab₁ i with
    | none => exact fun ht => h₂.fresh h h1 (h₁.own_sub ht)
    | some u =>
      obtain rfl : u = t := by rw [h₂.keep h1] at h; exact Option.some.inj h
      exact h₁.fresh h1 hn
  own f := by
    rw [h₂.own, h₁.own]
    refine ⟨fun h => ?_, fun h => h.imp_left .inl⟩
    rcases h with (h | ⟨i, hi⟩) | h
    · exact .inl h
    · exact .inr ⟨i, h₂.keep hi⟩
    · exact .inr h
  mem a ha := (h₂.mem a ha).trans (h₁.mem a fun h => ha (h₂.has h))

/-- A frame that was owned and no table still is no table. -/
theorem not_has (h : Grown c v v₁ root tab tab₁) {f : Nat} (hf : f ∈ v.own)
    (hn : ¬ Tree.Has root tab f) : ¬ Tree.Has root tab₁ f := by
  rintro (rfl | ⟨i, hi⟩)
  · exact hn (.inl rfl)
  · cases h1 : tab i with
    | none => exact h.fresh hi h1 hf
    | some u =>
      obtain rfl : u = f := by rw [h.keep h1] at hi; exact Option.some.inj hi
      exact hn (.inr ⟨i, h1⟩)

end Grown

/-- The tables that were added are those of pages of `S`. -/
def Touched (tab tab' : Nat → Option Nat) (S : Nat → Prop) : Prop :=
  ∀ i, tab' i ≠ tab i → ∃ q, S q ∧ q / 1024 = i

theorem Touched.refl (tab : Nat → Option Nat) (S : Nat → Prop) : Touched tab tab S :=
  fun _ h => absurd rfl h

theorem Touched.trans {tab tab₁ tab₂ : Nat → Option Nat} {S : Nat → Prop}
    (h₁ : Touched tab tab₁ S) (h₂ : Touched tab₁ tab₂ S) : Touched tab tab₂ S := by
  intro i h
  by_cases h1 : tab₁ i = tab i
  · exact h₂ i (by rwa [h1])
  · exact h₁ i h1

theorem Touched.mono {tab tab' : Nat → Option Nat} {S T : Nat → Prop} (h : Touched tab tab' S)
    (hS : ∀ q, S q → T q) : Touched tab tab' T := by
  intro i hi
  obtain ⟨q, hq, he⟩ := h i hi
  exact ⟨q, hS q hq, he⟩

/-! ## Reading entries -/

section
variable {E : Mode} {v : View} {root : Nat} {tab : Nat → Option Nat}

theorem vpn1_eq {va : Nat} (hva : va < USIZE) : (VA.fromUsize va).vpn1 = pageNo va / 1024 := by
  rw [VA.fromUsize_vpn1]
  unfold pageNo PAGESIZE USIZE at *
  omega

theorem vpn0_eq (va : Nat) : (VA.fromUsize va).vpn0 = pageNo va % 1024 := by
  rw [VA.fromUsize_vpn0]
  unfold pageNo PAGESIZE
  omega

theorem pageNo_lt {va : Nat} (hva : va < USIZE) : pageNo va / 1024 < 1024 := by
  unfold pageNo PAGESIZE USIZE at *
  omega

/-- An owned table may be read. -/
theorem wp_read_entry {f i : Nat} (hf : E.cfg.IsFrame f) (ho : f ∈ v.own) (hi : i < 1024)
    {Q : Nat → View → Prop} (h : Q (v.mem.word (f + 4 * i)) v) : M.wp E (M.read (f + 4 * i)) Q v :=
  M.wp_read (hf.entry_readable hi) (fun _ hk => .inr (by rw [entry_page hf.page hi hk]; exact ho)) h

theorem wp_read_slot (h : Tree E.cfg v root tab) {p a : Nat} (hs : slot tab p = some a)
    {Q : Nat → View → Prop} (hQ : Q (pte v.mem tab p) v) : M.wp E (M.read a) Q v := by
  simp only [slot, Option.map_eq_some_iff] at hs
  obtain ⟨t, ht, rfl⟩ := hs
  refine wp_read_entry (h.frame ht) (h.own ht) (by omega) ?_
  simpa only [pte, ht] using hQ

/-- The root entry of a tree, decoded. -/
theorem walkNext_some (h : Tree E.cfg v root tab) {i t : Nat} (hi : tab i = some t) (pteAddr : Nat)
    (w : WalkType) :
    PageTable.walkNext pteAddr (Pte.fromUsize (dirWord (tab i))) w = pure (some t) := by
  obtain ⟨hv, ht, -⟩ := ptrWord_decode (h.frame hi).aligned
  unfold PageTable.walkNext
  simp only [hi, dirWord, hv, ht, ↓reduceIte, nonNull, if_neg (h.frame hi).ne_zero]

theorem wp_walk_Walk (h : Tree E.cfg v root tab) {va : Nat} (hva : va < USIZE)
    {Q : Option Nat → View → Prop} (hQ : Q (slot tab (pageNo va)) v) :
    M.wp E (PageTable.walk ⟨root⟩ va .Walk) Q v := by
  have hi := pageNo_lt hva
  unfold PageTable.walk
  simp only [VA.vpn, vpn1_eq hva, vpn0_eq]
  rw [M.wp_bind]
  refine wp_read_entry h.root_frame h.root_own hi ?_
  rw [h.dir _ hi]
  cases ht : tab (pageNo va / 1024) with
  | none =>
    simp only [slot, ht, Option.map_none] at hQ
    simpa [PageTable.walkNext, dirWord] using hQ
  | some t =>
    have hw := walkNext_some h ht (root + 4 * (pageNo va / 1024)) .Walk
    rw [ht] at hw
    simp only [slot, ht, Option.map_some] at hQ
    rw [hw]
    exact hQ

theorem slot_word {m : Bytes} {tab : Nat → Option Nat} {p a : Nat} (hs : slot tab p = some a) :
    m.word a = pte m tab p := by
  obtain ⟨t, ht, rfl⟩ := Option.map_eq_some_iff.1 hs
  rw [pte, ht]

/-! ## Adding a table -/

theorem wp_walkNext_none (h : Tree E.cfg v root tab) {i : Nat} (hi : i < 1024)
    (hn : tab i = none) {Q : Option Nat → View → Prop} (hnull : E.oom v.own → Q none v)
    (hok : ∀ v' tab' t, Grown E.cfg v v' root tab tab' → tab' i = some t →
      (∀ j, j ≠ i → tab' j = tab j) → (∀ q, pte v'.mem tab' q = pte v.mem tab q) →
      Q (some t) v') :
    M.wp E (PageTable.walkNext (root + 4 * i) (Pte.fromUsize 0) .Alloc) Q v := by
  unfold PageTable.walkNext
  simp only [zero_decode, Bool.false_eq_true, ↓reduceIte, reduceCtorEq]
  rw [M.wp_bind]
  refine M.wp_alloc (fun ho => ?_) fun f hf hfo m' hm' => ?_
  · simpa using hnull ho
  have hpf : pageOf f = f := pageOf_self hf.page
  have hrf : root ≠ f := fun he => hfo (he ▸ h.root_own)
  have hal := hf.aligned
  rw [if_neg hf.ne_zero, Pte.intoUsize_fromAddr hal]
  -- the new page is zeroed, then the root entry is written
  rw [M.wp_bind]
  refine M.wp_writeBytes ⟨by rw [hpf]; exact Finset.mem_insert_self _ _, ?_⟩ ?_
  · rw [hf.page]; unfold PAGESIZE; omega
  rw [M.wp_bind]
  refine M.wp_write (fun _ => ?_) ⟨?_, entry_fit h.root_frame.page⟩ ?_
  · have hz : (m'.fill f 0 4096).word (root + 4 * i) = v.mem.word (root + 4 * i) :=
      word_entry_congr h.root_frame.page hi fun a ha => by
        have hfp := hf.page
        unfold pageOf PAGESIZE at ha
        unfold PAGESIZE at hfp
        rw [Bytes.fill_ne (by omega)]
        exact hm' a (.inr (by unfold pageOf PAGESIZE; omega))
    show (m'.fill f 0 4096).word (root + 4 * i) % 2 = 0
    rw [hz, h.dir i hi, hn]
    rfl
  · have := entry_page h.root_frame.page hi (k := 0) (by omega)
    rw [Nat.add_zero] at this
    rw [this]
    exact Finset.mem_insert_of_mem h.root_own
  have hfp := hf.page
  have hrp := h.root_frame.page
  unfold PAGESIZE at hfp hrp
  have hmem : ∀ a, pageOf a ≠ f → pageOf a ≠ root →
      ((m'.fill f 0 4096).setWord (root + 4 * i) (ptrWord f)) a = v.mem a := by
    intro a ha har
    have h1 : a < f ∨ f + 4096 ≤ a := by unfold pageOf PAGESIZE at ha; omega
    have h2 : a < root + 4 * i ∨ root + 4 * i + 4 ≤ a := by
      unfold pageOf PAGESIZE at har; omega
    rw [Bytes.setWord_ne h2, Bytes.fill_ne h1]
    exact hm' a (.inr ha)
  have hroot : ∀ j < 1024,
      ((m'.fill f 0 4096).setWord (root + 4 * i) (ptrWord f)).word (root + 4 * j) =
        if j = i then ptrWord f else v.mem.word (root + 4 * j) := by
    intro j hj
    split
    · rename_i he
      rw [he]
      exact Bytes.word_setWord (ptrWord_lt hal)
    · rw [Bytes.word_setWord_ne (by omega)]
      refine Bytes.word_congr fun k hk => ?_
      rw [Bytes.fill_ne (by omega)]
      exact hm' _ (.inr (by rw [entry_page h.root_frame.page hj hk]; exact hrf))
  have htree := h.addTable hi hn hf hfo hroot
  refine hok _ _ f ⟨htree, fun {j t} hj => ?_, fun {j t} hj hjn => ?_, fun g => ?_, fun a ha => ?_⟩
    (Function.update_self ..) (fun j hj => Function.update_of_ne hj _ _) fun q => ?_
  · rw [Function.update_of_ne]
    · exact hj
    · rintro rfl; rw [hn] at hj; cases hj
  · by_cases hji : j = i
    · subst hji
      rw [Function.update_self] at hj
      exact Option.some.inj hj ▸ hfo
    · rw [Function.update_of_ne hji, hjn] at hj
      cases hj
  · rw [Finset.mem_insert]
    refine ⟨fun hg => hg.elim (fun he => .inr ⟨i, by rw [Function.update_self, he]⟩) .inl, ?_⟩
    rintro (hg | ⟨j, hj⟩)
    · exact .inr hg
    · exact Finset.mem_insert.1 (htree.own hj)
  · exact hmem a (fun he => ha (.inr ⟨i, by rw [Function.update_self, he]⟩)) fun he => ha (.inl he)
  · unfold pte
    by_cases hqi : q / 1024 = i
    · subst hqi
      rw [hn]
      simp only [Function.update_self]
      rw [Bytes.word_setWord_ne (by omega)]
      exact Bytes.word_fill_zero (by omega)
    · rw [Function.update_of_ne hqi]
      split
      · rfl
      · rename_i t ht
        have htf : t ≠ f := fun he => hfo (he ▸ h.own ht)
        refine word_entry_congr (h.frame ht).page (by omega) fun a ha => hmem a ?_ ?_
        · rw [ha]; exact htf
        · rw [ha]; exact h.ne_root ht

/-- `walk(Alloc)`: the entry's address, in a tree that may have grown by a table. -/
theorem wp_walk_Alloc (h : Tree E.cfg v root tab) {va : Nat} (hva : va < USIZE)
    {Q : Option Nat → View → Prop}
    (hnull : E.oom v.own → tab (pageNo va / 1024) = none → Q none v)
    (hok : ∀ v' tab' a, Grown E.cfg v v' root tab tab' → slot tab' (pageNo va) = some a →
      Touched tab tab' (· = pageNo va) → (∀ q, pte v'.mem tab' q = pte v.mem tab q) →
      Q (some a) v') :
    M.wp E (PageTable.walk ⟨root⟩ va .Alloc) Q v := by
  have hi := pageNo_lt hva
  unfold PageTable.walk
  simp only [VA.vpn, vpn1_eq hva, vpn0_eq]
  rw [M.wp_bind]
  refine wp_read_entry h.root_frame h.root_own hi ?_
  rw [h.dir _ hi]
  cases ht : tab (pageNo va / 1024) with
  | none =>
    rw [dirWord, M.wp_bind]
    refine wp_walkNext_none h hi ht (fun ho => hnull ho ht) fun v' tab' t hg ht' hother hp => ?_
    refine hok v' tab' _ hg (by rw [slot, ht', Option.map_some]) (fun j hj => ?_) hp
    exact ⟨_, rfl, Decidable.byContradiction fun hne => hj (hother j (Ne.symm hne))⟩
  | some t =>
    have hw := walkNext_some h ht (root + 4 * (pageNo va / 1024)) .Alloc
    rw [ht] at hw
    rw [hw]
    exact hok v tab _ (.refl h) (by rw [slot, ht, Option.map_some]) (.refl _ _) fun _ => rfl

end

end BareMetal
