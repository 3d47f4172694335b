import BareMetal.Virt.Proof.Alloc

/-!
# Cloning a user address space

`cloneLoop` gives every valid page of the range a fresh frame with the same contents and the same
permissions (`wp_cloneLoop`), and leaves the source as it was.
-/

namespace BareMetal

open Lib

/-- The permissions of an entry: R, W, X and U. -/
def permOf (w : Nat) : Nat := w / 2 % 16 * 2

theorem permOf_ok (w : Nat) : PermOk (permOf w) := by
  unfold PermOk permOf; omega

/-- The valid pages of a range. -/
def ValidPages (e : Nat → Nat) (p n q : Nat) : Prop := InPages p n q ∧ e q % 2 = 1

instance (e : Nat → Nat) (p n q : Nat) : Decidable (ValidPages e p n q) :=
  inferInstanceAs (Decidable (_ ∧ _))

namespace Added

variable {c : Cfg} {v v' : View} {root root' : Nat} {tab tab₁ tab₂ : Nat → Option Nat}
  {S : Nat → Prop} {perm fr : Nat → Nat}

/-- Adding to one tree leaves another alone. -/
theorem other (h : Added c v v' root' tab₁ tab₂ S perm fr) (ht : Tree c v root tab)
    (hd : ∀ f, Tree.Has root tab f → ¬ Tree.Has root' tab₁ f) :
    Tree c v' root tab ∧ (∀ q, pte v'.mem tab q = pte v.mem tab q) ∧
      ∀ f, Tree.Has root tab f → ¬ Tree.Has root' tab₂ f := by
  have hm : ∀ a, Tree.Has root tab (pageOf a) → v'.mem a = v.mem a := fun a ha =>
    h.mem a (ht.has_own ha) (hd _ ha)
  exact ⟨ht.congr (fun f hf => h.own_sub (ht.has_own hf)) hm, ht.pte_congr hm,
    fun f hf => h.not_has (ht.has_own hf) (hd f hf)⟩

end Added

/-! ## How many frames it takes -/

/-- The valid pages of a range, as a set. -/
def clonePages (e : Nat → Nat) (p n : Nat) : Finset Nat :=
  (Finset.Ico p (p + n)).filter fun q => e q % 2 = 1

/-- The frames that cloning the pages takes: one for each, and one for each table that the new tree
does not have. -/
def cloneNeed (e : Nat → Nat) (tab : Nat → Option Nat) (p n : Nat) : Nat :=
  (((clonePages e p n).image (· / 1024)).filter fun i => tab i = none).card +
    (clonePages e p n).card

section
variable {e : Nat → Nat} {tab tab' : Nat → Option Nat} {p n : Nat}

theorem mem_clonePages {q : Nat} : q ∈ clonePages e p n ↔ ValidPages e p n q := by
  unfold clonePages ValidPages InPages
  rw [Finset.mem_filter, Finset.mem_Ico]

theorem clonePages_card_le : (clonePages e p n).card ≤ n := by
  refine (Finset.card_filter_le _ _).trans ?_
  rw [Nat.card_Ico, Nat.add_sub_cancel_left]

theorem clonePages_one (h : e p % 2 = 1) : clonePages e p 1 = {p} := by
  ext q
  rw [mem_clonePages, Finset.mem_singleton]
  unfold ValidPages InPages
  constructor
  · rintro ⟨hq, -⟩
    omega
  · rintro rfl
    exact ⟨by omega, h⟩

/-- A valid page takes a frame, and another where its table is missing. -/
theorem cloneNeed_one (tab : Nat → Option Nat) (h : e p % 2 = 1) :
    cloneNeed e tab p 1 = if tab (p / 1024) = none then 2 else 1 := by
  unfold cloneNeed
  rw [clonePages_one h, Finset.image_singleton, Finset.card_singleton]
  by_cases ht : tab (p / 1024) = none
  · rw [if_pos ht, Finset.filter_true_of_mem (by simpa using ht), Finset.card_singleton]
  · rw [if_neg ht, Finset.filter_false_of_mem (by simpa using ht), Finset.card_empty]

theorem cloneNeed_mono (e : Nat → Nat) (tab : Nat → Option Nat) (p : Nat) {m n : Nat} (h : m ≤ n) :
    cloneNeed e tab p m ≤ cloneNeed e tab p n := by
  have hsub : clonePages e p m ⊆ clonePages e p n :=
    Finset.filter_subset_filter _ (Finset.Ico_subset_Ico_right (by omega))
  exact Nat.add_le_add
    (Finset.card_le_card (Finset.filter_subset_filter _ (Finset.image_subset_image hsub)))
    (Finset.card_le_card hsub)

/-- The first page, then the others with the tables that there are then. -/
theorem cloneNeed_succ
    (ht : ∀ i, tab' i = none ↔ tab i = none ∧ ∀ q, ValidPages e p 1 q → q / 1024 ≠ i) :
    cloneNeed e tab p (n + 1) = cloneNeed e tab p 1 + cloneNeed e tab' (p + 1) n := by
  have hv : ∀ q, q ∈ clonePages e p (n + 1) ↔
      q ∈ clonePages e p 1 ∨ q ∈ clonePages e (p + 1) n := by
    intro q
    simp only [mem_clonePages]
    unfold ValidPages InPages
    omega
  have hpages : (clonePages e p (n + 1)).card =
      (clonePages e p 1).card + (clonePages e (p + 1) n).card := by
    rw [← Finset.card_union_of_disjoint]
    · congr 1
      ext q
      rw [hv, Finset.mem_union]
    · rw [Finset.disjoint_left]
      intro q h1 h2
      rw [mem_clonePages] at h1 h2
      have h1 := h1.1
      have h2 := h2.1
      unfold InPages at h1 h2
      omega
  have htabs : (((clonePages e p (n + 1)).image (· / 1024)).filter fun i => tab i = none).card =
      (((clonePages e p 1).image (· / 1024)).filter fun i => tab i = none).card +
      (((clonePages e (p + 1) n).image (· / 1024)).filter fun i => tab' i = none).card := by
    rw [← Finset.card_union_of_disjoint]
    · congr 1
      ext i
      simp only [Finset.mem_union, Finset.mem_filter, Finset.mem_image, ht]
      constructor
      · rintro ⟨⟨q, hq, rfl⟩, hi⟩
        by_cases h1 : ∃ r ∈ clonePages e p 1, r / 1024 = q / 1024
        · exact .inl ⟨h1, hi⟩
        · refine .inr ⟨⟨q, ((hv q).1 hq).resolve_left fun hq1 => h1 ⟨q, hq1, rfl⟩, rfl⟩, hi, ?_⟩
          intro r hr he
          exact h1 ⟨r, mem_clonePages.2 hr, he⟩
      · rintro (⟨⟨q, hq, rfl⟩, hi⟩ | ⟨⟨q, hq, rfl⟩, hi, -⟩)
        · exact ⟨⟨q, (hv q).2 (.inl hq), rfl⟩, hi⟩
        · exact ⟨⟨q, (hv q).2 (.inr hq), rfl⟩, hi⟩
    · rw [Finset.disjoint_left]
      intro i h1 h2
      simp only [Finset.mem_filter, Finset.mem_image, ht] at h1 h2
      obtain ⟨⟨q, hq, rfl⟩, -⟩ := h1
      exact h2.2.2 q (mem_clonePages.1 hq) rfl
  unfold cloneNeed
  omega

end

/-- There are 1024 tables. -/
theorem Tree.cloneNeed_le {c : Cfg} {v : View} {root : Nat} {tab : Nat → Option Nat}
    (h : Tree c v root tab) (tab' : Nat → Option Nat) (p n : Nat) :
    cloneNeed (pte v.mem tab) tab' p n ≤ 1024 + n := by
  have h1 : (((clonePages (pte v.mem tab) p n).image (· / 1024)).filter
      fun i => tab' i = none).card ≤ 1024 := by
    refine (Finset.card_le_card (t := Finset.range 1024) fun i hi => ?_).trans
      (Finset.card_range _).le
    obtain ⟨hi, -⟩ := Finset.mem_filter.1 hi
    obtain ⟨q, hq, rfl⟩ := Finset.mem_image.1 hi
    have hodd := (mem_clonePages.1 hq).2
    unfold pte at hodd
    split at hodd
    · cases hodd
    · next t ht => exact Finset.mem_range.2 (h.lt ht)
  have h2 := clonePages_card_le (e := pte v.mem tab) (p := p) (n := n)
  unfold cloneNeed
  omega

/-- What a clone of the pages `[p, p + n)` adds to the new tree. -/
structure Cloned (c : Cfg) (v v' : View) (tab : Nat → Option Nat) (root' : Nat)
    (tab₁ tab₂ : Nat → Option Nat) (p n : Nat) (fr : Nat → Nat) : Prop where
  added : Added c v v' root' tab₁ tab₂ (ValidPages (pte v.mem tab) p n)
    (fun q => permOf (pte v.mem tab q)) fr
  data : ∀ q, ValidPages (pte v.mem tab) p n q → frameOf (pte v.mem tab q) ∈ v.own →
    ¬ Tree.Has root' tab₁ (frameOf (pte v.mem tab q)) →
    ∀ i < PAGESIZE, v'.mem (fr q + i) = v.mem (frameOf (pte v.mem tab q) + i)

/-- The frames that it took. -/
theorem Cloned.card_eq {c : Cfg} {v v' : View} {root' : Nat} {tab tab₁ tab₂ : Nat → Option Nat}
    {p n : Nat} {fr : Nat → Nat} (ht : Tree c v root' tab₁)
    (h : Cloned c v v' tab root' tab₁ tab₂ p n fr) :
    v'.own.card = v.own.card + cloneNeed (pte v.mem tab) tab₁ p n := by
  have ha := h.added
  have hcard := ha.tree.card_added (P := clonePages (pte v.mem tab) p n) fr ha.keep ht.own ha.fresh
    (fun q hq => ⟨(ha.page (mem_clonePages.1 hq)).2.1, fun i hi =>
      (ha.page (mem_clonePages.1 hq)).2.2 (.inr ⟨i, hi⟩)⟩)
    (fun q hq r hr => ha.inj (mem_clonePages.1 hq) (mem_clonePages.1 hr)) fun f => by
      rw [ha.own]
      simp only [mem_clonePages]
  have hnew : newTables tab₁ tab₂ =
      ((clonePages (pte v.mem tab) p n).image (· / 1024)).filter fun i => tab₁ i = none := by
    ext i
    rw [newTables, Finset.mem_filter, Finset.mem_filter, Finset.mem_image, Finset.mem_range]
    constructor
    · rintro ⟨-, hn, hs⟩
      by_contra hno
      refine hs ((ha.tab_none i).2 ⟨hn, fun q hq he => hno ⟨⟨q, mem_clonePages.2 hq, he⟩, hn⟩⟩)
    · rintro ⟨⟨q, hq, rfl⟩, hn⟩
      have hs : tab₂ (q / 1024) ≠ none := fun h0 =>
        ((ha.tab_none _).1 h0).2 q (mem_clonePages.1 hq) rfl
      obtain ⟨t, ht⟩ := Option.ne_none_iff_exists'.1 hs
      exact ⟨ha.tree.lt ht, hn, hs⟩
  rw [hcard, hnew, Nat.add_assoc]
  rfl

section
variable {E : Mode} {u vm : Uvm} {tab : Nat → Option Nat}

theorem wp_clonePage (hns : ¬ E.strict) {v : View} {tab₁ : Nat → Option Nat} {addr : Nat}
    (h : Tree E.cfg v u.pagetable.root tab) (h' : Tree E.cfg v vm.pagetable.root tab₁)
    (hal : addr % PAGESIZE = 0) (hve : addr + PAGESIZE < USIZE)
    (hslot : slot tab (pageNo addr) = none → E.stop)
    (hread : pte v.mem tab (pageNo addr) % 2 = 1 →
      Readable (frameOf (pte v.mem tab (pageNo addr))) PAGESIZE)
    (hran : pte v.mem tab (pageNo addr) % 2 = 1 → RanAt E v tab₁ (pageNo addr) → E.stop)
    {Q : Unit → View → Prop}
    (hok : ∀ v' tab₂ fr, Cloned E.cfg v v' tab vm.pagetable.root tab₁ tab₂ (pageNo addr) 1 fr →
      Q () v') :
    M.wp E (Uvm.clonePage u vm addr) Q v := by
  have hsz := PAGESIZE_eq
  unfold Uvm.clonePage
  rw [M.wp_bind]
  refine wp_walk_Walk h (by omega) ?_
  rw [M.wp_bind]
  cases hs : slot tab (pageNo addr) with
  | none => exact M.wp_unwrap_none (hslot hs)
  | some a =>
    refine M.wp_unwrap_some ?_
    rw [M.wp_bind]
    refine wp_read_slot h hs ?_
    generalize hw : pte v.mem tab (pageNo addr) = w at *
    dsimp only
    rw [Pte.v_eq, Pte.pa_eq, Pte.perm_eq, show w / 1024 * 4096 % USIZE = frameOf w from rfl,
      show w / 2 % 16 * 2 = permOf w from rfl]
    simp only [decide_eq_true_eq]
    by_cases hv : w % 2 = 1
    · rw [if_pos hv, ← bind_assoc, M.wp_bind]
      refine M.wp_allocate_unwrap (fun ho => hran hv ⟨_, ho, .inl rfl⟩) fun f hf hfo m' hm' => ?_
      have hpf : pageOf f = f := pageOf_self hf.page
      have hfb := hf.bound
      have hfn : ¬ Tree.Has vm.pagetable.root tab₁ f := fun h1 => hfo (h'.has_own h1)
      have hpin : ∀ {g i}, g % PAGESIZE = 0 → i < PAGESIZE → pageOf (g + i) = g :=
        fun hg hi => pageOf_eq_of hg (by omega)
      rw [M.wp_bind]
      refine M.wp_copy (.inl (hread hv)) ⟨by rw [hpf]; exact Finset.mem_insert_self _ _, ?_⟩
        fun c hc => ?_
      · rw [hf.page]; omega
      have hm : ∀ b, pageOf b ≠ f → (m'.setBytes f PAGESIZE c) b = v.mem b := by
        intro b hb
        rw [Bytes.setBytes_ne, hm' b (.inr hb)]
        unfold pageOf at hb
        have hfp := hf.page
        rw [hsz] at *
        omega
      rw [M.wp_bind]
      refine wp_map_one (h'.congr (fun g hg => Finset.mem_insert_of_mem (h'.has_own hg))
        fun b hb => hm b fun he => hfn (he ▸ hb)) hal hve hf.page (by rw [hsz, USIZE_eq]; omega)
        (permOf_ok w) (fun hs => absurd hs hns) (fun v₂ tab₂ hg ht he => ?_) fun v₂ hg ho hn he => ?_
      · have ha : Added E.cfg v v₂ vm.pagetable.root tab₁ tab₂ (· = pageNo addr)
            (fun q => permOf (pte v.mem tab q)) (fun _ => f) :=
          .page_round h' hf hfo rfl hm hg ht he (by rw [hw])
        refine M.wp_unwrapOk (fun _ => hok v₂ tab₂ (fun _ => f) ⟨ha.congr (fun q => ?_)
          (fun _ _ => rfl) fun _ _ => rfl, fun q hq ho' hn i hi => ?_⟩) fun he => by cases he
        · unfold ValidPages InPages
          constructor
          · rintro ⟨hq, -⟩
            omega
          · rintro rfl
            exact ⟨by omega, by rw [hw]; exact hv⟩
        · obtain rfl : q = pageNo addr := by
            have := hq.1
            unfold InPages at this
            omega
          rw [hw] at ho' ⊢
          have hi' := hpin (frameOf_page w) hi
          have hne : f ≠ frameOf w := fun he => hfo (he ▸ ho')
          rw [hg.mem _ (by
            rw [hpin hf.page hi]
            exact hg.not_has (Finset.mem_insert_self _ _) hfn)]
          refine (Bytes.setBytes_at hi).trans ((hc i hi (.inr ?_)).trans ?_)
          · rw [hi']
            exact Finset.mem_insert_of_mem ho'
          · exact hm' _ (.inr (by rw [hi']; exact hne.symm))
      · refine M.wp_unwrapOk (fun he => by cases he) fun _ => ?_
        -- no table was added: the frames are those at the start, and the page's
        have hnew : newTables tab₁ tab₁ = ∅ :=
          Finset.filter_eq_empty_iff.2 fun i _ hi => hi.2 hi.1
        have hcard := hg.card_eq (h'.congr (fun g hg => Finset.mem_insert_of_mem (h'.has_own hg))
          fun b hb => hm b fun he => hfn (he ▸ hb))
        rw [hnew, Finset.card_empty, Nat.add_zero] at hcard
        exact hran hv ⟨_, ho, .inr ⟨hcard.trans (Finset.card_insert_of_notMem hfo), hn⟩⟩
    · rw [if_neg hv]
      have hnv : ∀ q, ¬ ValidPages (pte v.mem tab) (pageNo addr) 1 q := by
        rintro q ⟨hq, hqv⟩
        unfold InPages at hq
        rw [show q = pageNo addr by omega, hw] at hqv
        exact hv hqv
      exact hok v tab₁ (fun _ => 0) ⟨(Added.refl h' _ fun _ => 0).congr
        (fun q => iff_of_false (hnv q) id) (fun _ _ => rfl) fun _ _ => rfl, fun q hq => absurd hq (hnv q)⟩

open Classical in
/-- **The rounds of `clone`**: the allocator may run out only before they have what they need. -/
theorem wp_cloneLoop (hns : ¬ E.strict) (n : Nat) :
    ∀ {v : View} {tab₁ : Nat → Option Nat} {addr : Nat}, Tree E.cfg v u.pagetable.root tab →
      Tree E.cfg v vm.pagetable.root tab₁ →
      (∀ f, Tree.Has u.pagetable.root tab f → ¬ Tree.Has vm.pagetable.root tab₁ f) →
      addr % PAGESIZE = 0 → addr + n * PAGESIZE < USIZE →
      (∀ q, InPages (pageNo addr) n q → slot tab q = none → E.stop) →
      (∀ q, ValidPages (pte v.mem tab) (pageNo addr) n q →
        Readable (frameOf (pte v.mem tab q)) PAGESIZE) →
      (∀ o, E.oom o → o.card < v.own.card + cloneNeed (pte v.mem tab) tab₁ (pageNo addr) n → E.stop) →
      ∀ {Q : Unit → View → Prop},
      (∀ v' tab₂ fr, Cloned E.cfg v v' tab vm.pagetable.root tab₁ tab₂ (pageNo addr) n fr →
        Q () v') →
      M.wp E (Uvm.cloneLoop u vm n addr) Q v := by
  induction n with
  | zero =>
    intro v tab₁ addr _ h' _ _ _ _ _ _ Q hok
    have hno : ∀ q, ¬ ValidPages (pte v.mem tab) (pageNo addr) 0 q := fun q hq =>
      not_inPages_zero _ q hq.1
    exact hok v tab₁ (fun _ => 0) ⟨(Added.refl h' _ fun _ => 0).congr
      (fun q => iff_of_false (hno q) id) (fun _ _ => rfl) fun _ _ => rfl, fun q hq => absurd hq (hno q)⟩
  | succ n ih =>
    intro v tab₁ addr h h' hd hal hve hslot hread hran Q hok
    have hsz := PAGESIZE_eq
    have hpn : pageNo (addr + PAGESIZE) = pageNo addr + 1 := by unfold pageNo; rw [hsz]; omega
    have hin : InPages (pageNo addr) (n + 1) (pageNo addr) := ⟨by omega, by omega⟩
    have hcons : ∀ {q}, InPages (pageNo addr) (n + 1) q ↔
        InPages (pageNo addr) 1 q ∨ InPages (pageNo (addr + PAGESIZE)) n q := by
      intro q
      rw [hpn]
      unfold InPages
      omega
    rw [hsz] at hve
    unfold Uvm.cloneLoop
    rw [M.wp_bind]
    refine wp_clonePage hns h h' hal (by rw [hsz]; omega) (hslot _ hin)
      (fun hv => hread _ ⟨hin, hv⟩) ?_ fun v₁ tab₂ fr₁ hc₁ => ?_
    · -- the first page takes a frame, and maybe one for its table
      intro hv hat
      obtain ⟨o, ho, hc⟩ := hat
      refine hran o ho ?_
      have hone := cloneNeed_one tab₁ hv
      have hle := cloneNeed_mono (pte v.mem tab) tab₁ (pageNo addr) (Nat.le_add_left 1 n)
      rcases hc with hc | ⟨hc, hn⟩
      · split at hone <;> omega
      · rw [if_pos hn] at hone
        omega
    -- the source is as it was; the rounds left clone the pages after the first
    obtain ⟨hs, hse, hsd⟩ := hc₁.added.other h hd
    have hpte : pte v₁.mem tab = pte v.mem tab := funext hse
    have hcard := hc₁.card_eq h'
    refine ih hs hc₁.added.tree hsd (by rw [Nat.add_mod_right, hal]) (by rw [hsz]; omega)
      (fun q hq => hslot q (hcons.2 (.inr hq))) (fun q hq => ?_) (fun o ho hc => hran o ho ?_)
      fun v' tab₃ fr₂ hc₂ => ?_
    · have := hread q ⟨hcons.2 (.inr hq.1), by rw [← hse]; exact hq.2⟩
      rwa [hse]
    · rw [hpte, hpn] at hc
      rw [cloneNeed_succ hc₁.added.tab_none]
      omega
    · have hdj : ∀ q, ValidPages (pte v.mem tab) (pageNo addr) 1 q →
          ¬ ValidPages (pte v₁.mem tab) (pageNo (addr + PAGESIZE)) n q := fun q h1 h2 => by
        have h1 := h1.1
        have h2 := h2.1
        rw [hpn] at h2
        unfold InPages at h1 h2
        omega
      have ha₂ : Added E.cfg v₁ v' vm.pagetable.root tab₂ tab₃
          (ValidPages (pte v₁.mem tab) (pageNo (addr + PAGESIZE)) n)
          (fun q => permOf (pte v.mem tab q)) fr₂ :=
        hc₂.added.congr (fun q => Iff.rfl) (fun q _ => by rw [hse]) fun _ _ => rfl
      have hsplit : ∀ q, ValidPages (pte v.mem tab) (pageNo addr) (n + 1) q ↔
          ValidPages (pte v.mem tab) (pageNo addr) 1 q ∨
            ValidPages (pte v₁.mem tab) (pageNo (addr + PAGESIZE)) n q := fun q => by
        unfold ValidPages
        rw [hse, hcons, or_and_right]
      refine hok v' tab₃ _ ⟨(hc₁.added.trans ha₂ hdj).congr hsplit (fun _ _ => rfl) fun _ _ => rfl,
        fun q hq ho hn i hi => ?_⟩
      rcases (hsplit q).1 hq with hq | hq
      · rw [if_pos hq]
        have hpg := hc₁.added.page hq
        have hpi : pageOf (fr₁ q + i) = fr₁ q := pageOf_eq_of hpg.1.page (by omega)
        rw [hc₂.added.mem, hc₁.data q hq ho hn i hi]
        · rw [hpi]
          exact (hc₁.added.own _).2 (.inr (.inr ⟨q, hq, rfl⟩))
        · rw [hpi]
          exact hpg.2.2
      · have hpi : pageOf (frameOf (pte v.mem tab q) + i) = frameOf (pte v.mem tab q) :=
          pageOf_eq_of (frameOf_page _) (by omega)
        rw [if_neg fun h1 => hdj q h1 hq]
        have := hc₂.data q hq (by rw [hse]; exact hc₁.added.own_sub ho)
          (by rw [hse]; exact hc₁.added.not_has ho hn) i hi
        rw [this, hse]
        exact hc₁.added.mem _ (by rw [hpi]; exact ho) (by rw [hpi]; exact hn)

end

end BareMetal
