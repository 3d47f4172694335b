import BareMetal.Virt.Proof.Walk

/-!
# Mapping

`new` makes an empty table, `map` sets the entries of its range and no others. The entries of a
table are a function of the virtual page; `mapRange` is what `map` does to it. When a table cannot
be allocated, `map` has set the entries of a first part of the range.
-/

namespace BareMetal

open Lib

/-- The entries after mapping `n` pages from page `p` to the frames from `pa`. -/
def mapRange (p n pa perm : Nat) (e : Nat → Nat) : Nat → Nat := fun q =>
  if p ≤ q ∧ q < p + n then leafWord (pa + (q - p) * PAGESIZE) perm else e q

@[simp] theorem mapRange_zero (p pa perm : Nat) (e : Nat → Nat) : mapRange p 0 pa perm e = e := by
  funext q
  exact if_neg (by omega)

@[simp] theorem mapRange_one (p pa perm : Nat) (e : Nat → Nat) :
    mapRange p 1 pa perm e p = leafWord pa perm := by
  unfold mapRange
  rw [if_pos (by omega), Nat.sub_self, Nat.zero_mul, Nat.add_zero]

theorem mapRange_one_ne {p q : Nat} (h : q ≠ p) (pa perm : Nat) (e : Nat → Nat) :
    mapRange p 1 pa perm e q = e q := if_neg (by omega)

/-- The pages `[p, p + n)`. -/
def InPages (p n q : Nat) : Prop := p ≤ q ∧ q < p + n

instance (p n q : Nat) : Decidable (InPages p n q) := inferInstanceAs (Decidable (_ ∧ _))

theorem not_inPages_zero (p q : Nat) : ¬ InPages p 0 q := fun h => by
  unfold InPages at h; omega

/-- Mapping a page, then the pages after it. -/
theorem mapRange_succ (p n pa perm : Nat) (e : Nat → Nat) :
    mapRange (p + 1) n (pa + PAGESIZE) perm (mapRange p 1 pa perm e) =
      mapRange p (n + 1) pa perm e := by
  funext q
  unfold mapRange
  by_cases h : p + 1 ≤ q ∧ q < p + 1 + n
  · rw [if_pos h, if_pos (by omega)]
    congr 1
    unfold PAGESIZE
    omega
  · rw [if_neg h]
    by_cases hq : q = p
    · subst hq
      rw [if_pos (by omega), if_pos (by omega)]
    · rw [if_neg (by omega), if_neg (by omega)]

theorem Grown.setWord {c : Cfg} {v v' : View} {root : Nat} {tab tab' : Nat → Option Nat}
    (h : Grown c v v' root tab tab') {p a w : Nat} (hs : slot tab' p = some a) :
    Grown c v { v' with mem := v'.mem.setWord a w } root tab tab' where
  tree := h.tree.setWord hs
  keep := h.keep
  fresh := h.fresh
  own := h.own
  mem b hb := by
    obtain ⟨ht, ho⟩ := h.tree.slot_page hs
    have h1 := ho.2
    have hne : pageOf b ≠ pageOf a := fun he => hb (.inr ⟨_, by rw [he]; exact ht⟩)
    rw [← h.mem b hb]
    refine Bytes.setWord_ne ?_
    unfold pageOf PAGESIZE at *
    omega

section
variable {E : Mode} {v : View} {root : Nat} {tab : Nat → Option Nat}

theorem wp_new {Q : PageTable → View → Prop} (hnull : E.oom v.own → E.stop)
    (hok : ∀ v' f, E.cfg.IsFrame f → f ∉ v.own → v'.own = insert f v.own →
      Tree E.cfg v' f (fun _ => none) → (∀ a, pageOf a ≠ f → v'.mem a = v.mem a) → Q ⟨f⟩ v') :
    M.wp E PageTable.new Q v := by
  unfold PageTable.new
  rw [M.wp_bind]
  refine M.wp_alloc (fun ho => ?_) fun f hf hfo m' hm' => ?_
  · rw [M.wp_bind]
    exact M.wp_writeBytes_null (hnull ho)
  have hpf : pageOf f = f := pageOf_self hf.page
  have hfp := hf.page
  rw [M.wp_bind, if_neg hf.ne_zero]
  refine M.wp_writeBytes ⟨by rw [hpf]; exact Finset.mem_insert_self _ _, ?_⟩ ?_
  · rw [hfp]; unfold PAGESIZE; omega
  unfold PAGESIZE at hfp
  refine hok _ f hf hfo rfl ⟨hf, Finset.mem_insert_self _ _, fun i hi => ?_, fun h => ?_,
    fun h => ?_, fun h => ?_, fun h => ?_, fun h => ?_⟩ fun a ha => ?_
  · exact Bytes.word_fill_zero (by omega)
  any_goals cases h
  · have hne : a < f ∨ f + 4096 ≤ a := by unfold pageOf PAGESIZE at ha; omega
    exact (Bytes.fill_ne hne).trans (hm' a (.inr ha))

theorem wp_mapPage (h : Tree E.cfg v root tab) {va pa perm : Nat} (hva : va < USIZE)
    (hpa : Aligned pa) (hp : PermOk perm) (hfree : E.strict → pte v.mem tab (pageNo va) % 2 = 0)
    {Q : Except Unit Unit → View → Prop}
    (hnull : E.oom v.own → tab (pageNo va / 1024) = none → Q (.error ()) v)
    (hok : ∀ v' tab', Grown E.cfg v v' root tab tab' → Touched tab tab' (· = pageNo va) →
      pte v'.mem tab' = mapRange (pageNo va) 1 pa perm (pte v.mem tab) → Q (.ok ()) v') :
    M.wp E (PageTable.mapPage ⟨root⟩ va pa perm) Q v := by
  unfold PageTable.mapPage
  rw [M.wp_bind]
  refine wp_walk_Alloc h hva hnull fun v' tab' a hg hs htab he => ?_
  dsimp only
  rw [Pte.intoUsize_fromAddr hpa, ptrWord_or hpa hp]
  refine M.wp_write (fun h => by rw [slot_word hs, he, hfree h]) (hg.tree.slot_page hs).2
    (hok _ tab' (hg.setWord hs) htab ?_)
  funext q
  rw [hg.tree.pte_setWord hs (leafWord_lt hpa hp), he]
  unfold mapRange
  by_cases hq : q = pageNo va
  · rw [if_pos hq, if_pos (by omega), hq, Nat.sub_self, Nat.zero_mul, Nat.add_zero]
  · rw [if_neg hq, if_neg (by omega)]

theorem wp_mapLoop {perm : Nat} (hp : PermOk perm) (n : Nat) :
    ∀ {v : View} {tab : Nat → Option Nat} {va pa : Nat}, Tree E.cfg v root tab →
      va % PAGESIZE = 0 → va + n * PAGESIZE < USIZE → pa % PAGESIZE = 0 →
      pa + n * PAGESIZE < USIZE →
      (E.strict → ∀ q, InPages (pageNo va) n q → pte v.mem tab q % 2 = 0) →
      ∀ {Q : Except Unit Unit → View → Prop},
      (∀ v' tab', Grown E.cfg v v' root tab tab' → Touched tab tab' (InPages (pageNo va) n) →
        pte v'.mem tab' = mapRange (pageNo va) n pa perm (pte v.mem tab) → Q (.ok ()) v') →
      (∀ k < n, ∀ v' tab', Grown E.cfg v v' root tab tab' →
        Touched tab tab' (InPages (pageNo va) k) → E.oom v'.own →
        tab' ((pageNo va + k) / 1024) = none →
        pte v'.mem tab' = mapRange (pageNo va) k pa perm (pte v.mem tab) → Q (.error ()) v') →
      M.wp E (PageTable.mapLoop ⟨root⟩ perm n va pa) Q v := by
  induction n with
  | zero =>
    intro v tab va pa h _ _ _ _ _ Q hok _
    exact hok v tab (.refl h) (.refl _ _) (mapRange_zero ..).symm
  | succ n ih =>
    intro v tab va pa h hva hve hpa hpe hfree Q hok herr
    have hsz := PAGESIZE_eq
    have husz := USIZE_eq
    rw [hsz, husz] at hve hpe
    unfold PageTable.mapLoop
    rw [M.wp_bind]
    refine wp_mapPage h (by omega) ⟨hpa, by omega⟩ hp
      (fun hs => hfree hs _ ⟨by omega, by omega⟩) (fun ho hn => ?_) fun v₁ tab₁ hg₁ ht₁ he₁ => ?_
    · exact herr 0 (by omega) v tab (.refl h) (.refl _ _) ho hn (mapRange_zero ..).symm
    have hva' : va + PAGESIZE < USIZE := by omega
    have hpa' : pa + PAGESIZE < USIZE := by omega
    dsimp only
    rw [M.wp_bind]
    refine M.wp_add hva' ?_
    rw [M.wp_bind]
    refine M.wp_add hpa' ?_
    have hpn : pageNo (va + PAGESIZE) = pageNo va + 1 := by unfold pageNo PAGESIZE; omega
    have hstep : ∀ {k tab'}, Touched tab₁ tab' (InPages (pageNo (va + PAGESIZE)) k) →
        Touched tab tab' (InPages (pageNo va) (k + 1)) := by
      intro k tab' ht
      rw [hpn] at ht
      refine (ht₁.mono fun q hq => ?_).trans (ht.mono fun q hq => ?_) <;> unfold InPages at *
      · omega
      · omega
    -- a round maps one page; the rest of the range is mapped by the rounds after it
    refine ih hg₁.tree (by rw [Nat.add_mod_right, hva]) (by rw [hsz]; omega)
      (by rw [Nat.add_mod_right, hpa]) (by rw [hsz]; omega) (fun hs q hq => ?_)
      (fun v' tab' hg ht he => ?_) fun k hk v' tab' hg ht ho hn he => ?_
    · rw [hpn] at hq
      unfold InPages at hq
      rw [he₁, mapRange_one_ne (by omega)]
      exact hfree hs q ⟨by omega, by omega⟩
    · exact hok v' tab' (hg₁.trans hg) (hstep ht) (by rw [he, he₁, hpn, mapRange_succ])
    · rw [hpn, Nat.add_assoc, Nat.add_comm 1 k] at hn
      exact herr (k + 1) (by omega) v' tab' (hg₁.trans hg) (hstep ht) ho hn
        (by rw [he, he₁, hpn, mapRange_succ])

/-- **`map`** of `n` pages. -/
theorem wp_map (h : Tree E.cfg v root tab) {virt phys n perm : Nat}
    (hv : virt % PAGESIZE = 0) (hve : virt + n * PAGESIZE < USIZE) (hp : phys % PAGESIZE = 0)
    (hpe : phys + n * PAGESIZE < USIZE) (hperm : PermOk perm)
    (hfree : E.strict → ∀ q, InPages (pageNo virt) n q → pte v.mem tab q % 2 = 0)
    {Q : Except Unit Unit → View → Prop}
    (hok : ∀ v' tab', Grown E.cfg v v' root tab tab' → Touched tab tab' (InPages (pageNo virt) n) →
      pte v'.mem tab' = mapRange (pageNo virt) n phys perm (pte v.mem tab) → Q (.ok ()) v')
    (herr : ∀ k < n, ∀ v' tab', Grown E.cfg v v' root tab tab' →
      Touched tab tab' (InPages (pageNo virt) k) → E.oom v'.own →
      tab' ((pageNo virt + k) / 1024) = none →
      pte v'.mem tab' = mapRange (pageNo virt) k phys perm (pte v.mem tab) → Q (.error ()) v') :
    M.wp E (PageTable.map ⟨root⟩ virt phys (n * PAGESIZE) perm) Q v := by
  have hn : n * PAGESIZE % PAGESIZE = 0 := Nat.mul_mod_left ..
  have hd : n * PAGESIZE / PAGESIZE = n := Nat.mul_div_cancel _ (by unfold PAGESIZE; omega)
  unfold PageTable.map
  simp only [hp, hv, hn, hd, ne_eq, not_true_eq_false, ↓reduceIte]
  rw [M.wp_bind]
  exact M.wp_add hve (wp_mapLoop hperm n h hv hve hp hpe hfree hok herr)

/-- **`map`** of a single page. -/
theorem wp_map_one (h : Tree E.cfg v root tab) {virt phys perm : Nat}
    (hv : virt % PAGESIZE = 0) (hve : virt + PAGESIZE < USIZE) (hp : phys % PAGESIZE = 0)
    (hpe : phys + PAGESIZE < USIZE) (hperm : PermOk perm)
    (hfree : E.strict → pte v.mem tab (pageNo virt) % 2 = 0) {Q : Except Unit Unit → View → Prop}
    (hok : ∀ v' tab', Grown E.cfg v v' root tab tab' → Touched tab tab' (· = pageNo virt) →
      pte v'.mem tab' = mapRange (pageNo virt) 1 phys perm (pte v.mem tab) → Q (.ok ()) v')
    (herr : ∀ v', Grown E.cfg v v' root tab tab → E.oom v'.own →
      tab (pageNo virt / 1024) = none → pte v'.mem tab = pte v.mem tab → Q (.error ()) v') :
    M.wp E (PageTable.map ⟨root⟩ virt phys PAGESIZE perm) Q v := by
  have := wp_map h (n := 1) hv (by omega) hp (by omega) hperm (fun hs q hq => ?_)
    (fun v' tab' hg ht he => hok v' tab' hg (ht.mono fun q hq => by unfold InPages at hq; omega) he)
    fun k hk v' tab' hg ht ho hn he => by
      obtain rfl : k = 0 := by omega
      -- the round that failed added no table
      obtain rfl : tab = tab' := funext fun i => by
        by_contra hne
        obtain ⟨q, hq, -⟩ := ht i (Ne.symm hne)
        exact not_inPages_zero _ q hq
      rw [mapRange_zero] at he
      exact herr v' hg ho hn he
  · rwa [Nat.one_mul] at this
  · unfold InPages at hq
    obtain rfl : q = pageNo virt := by omega
    exact hfree hs

end

end BareMetal
