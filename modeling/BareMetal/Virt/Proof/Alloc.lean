import BareMetal.Virt.Uvm
import BareMetal.Virt.Proof.Unmap
import Mathlib.Order.Interval.Finset.Nat

/-!
# User address spaces: adding pages

`alloc` and `clone` add user pages one by one, each a fresh frame mapped by one `map`. `Added`
says what a number of such rounds did: `Added.page` is one round, `Added.trans` puts rounds
together.
-/

namespace BareMetal

open Lib

/-- Tables and user pages were added: the entry of each page `q` in `S` leads to the fresh frame
`fr q`, the other entries are as before. -/
structure Added (c : Cfg) (v v' : View) (root : Nat) (tab tab' : Nat → Option Nat)
    (S : Nat → Prop) (perm fr : Nat → Nat) : Prop where
  tree : Tree c v' root tab'
  keep : ∀ {i t}, tab i = some t → tab' i = some t
  fresh : ∀ {i t}, tab' i = some t → tab i = none → t ∉ v.own
  page : ∀ {q}, S q → c.IsFrame (fr q) ∧ fr q ∉ v.own ∧ ¬ Tree.Has root tab' (fr q)
  inj : ∀ {q r}, S q → S r → fr q = fr r → q = r
  own : ∀ f, f ∈ v'.own ↔ f ∈ v.own ∨ (∃ i, tab' i = some f) ∨ ∃ q, S q ∧ fr q = f
  mem : ∀ a, pageOf a ∈ v.own → ¬ Tree.Has root tab (pageOf a) → v'.mem a = v.mem a
  new : ∀ {q}, S q → pte v'.mem tab' q = leafWord (fr q) (perm q)
  old : ∀ {q}, ¬ S q → pte v'.mem tab' q = pte v.mem tab q
  touch : Touched tab tab' S

namespace Added

variable {c : Cfg} {v v₁ v₂ : View} {root : Nat} {tab tab₁ tab₂ : Nat → Option Nat}
  {S S₁ S₂ : Nat → Prop} {perm fr fr₁ fr₂ : Nat → Nat}

/-- No page was added. -/
theorem of_grown (h : Grown c v v₁ root tab tab) (he : pte v₁.mem tab = pte v.mem tab)
    (perm fr : Nat → Nat) : Added c v v₁ root tab tab (fun _ => False) perm fr where
  tree := h.tree
  keep := h.keep
  fresh := h.fresh
  page h := h.elim
  inj h := h.elim
  own f := by
    rw [h.own]
    simp only [false_and, exists_false, or_false]
  mem a ha hn := h.mem a (h.not_has ha hn)
  new h := h.elim
  old _ := by rw [he]
  touch := .refl _ _

theorem refl (h : Tree c v root tab) (perm fr : Nat → Nat) :
    Added c v v root tab tab (fun _ => False) perm fr :=
  of_grown (.refl h) rfl perm fr

theorem own_sub (h : Added c v v₁ root tab tab₁ S perm fr) {f : Nat} (hf : f ∈ v.own) :
    f ∈ v₁.own := (h.own f).2 (.inl hf)

/-- A table of the new tree is one of the old or a fresh frame. -/
theorem has_old (h : Added c v v₁ root tab tab₁ S perm fr) {f : Nat}
    (hf : Tree.Has root tab₁ f) : Tree.Has root tab f ∨ f ∉ v.own := by
  rcases hf with rfl | ⟨i, hi⟩
  · exact .inl (.inl rfl)
  · cases h1 : tab i with
    | none => exact .inr (h.fresh hi h1)
    | some u =>
      obtain rfl : u = f := by rw [h.keep h1] at hi; exact Option.some.inj hi
      exact .inl (.inr ⟨i, h1⟩)

theorem not_has (h : Added c v v₁ root tab tab₁ S perm fr) {f : Nat} (hf : f ∈ v.own)
    (hn : ¬ Tree.Has root tab f) : ¬ Tree.Has root tab₁ f :=
  fun h1 => (h.has_old h1).elim hn fun h2 => h2 hf

theorem congr (h : Added c v v₁ root tab tab₁ S perm fr) {S' : Nat → Prop}
    {perm' fr' : Nat → Nat} (hS : ∀ q, S' q ↔ S q) (hp : ∀ q, S q → perm' q = perm q)
    (hf : ∀ q, S q → fr' q = fr q) : Added c v v₁ root tab tab₁ S' perm' fr' := by
  obtain rfl : S' = S := funext fun q => propext (hS q)
  refine ⟨h.tree, h.keep, h.fresh, fun {q} hq => ?_, fun {q r} hq hr he => ?_, fun f => ?_,
    h.mem, fun {q} hq => ?_, h.old, h.touch⟩
  · rw [hf q hq]; exact h.page hq
  · rw [hf q hq, hf r hr] at he; exact h.inj hq hr he
  · rw [h.own]
    refine or_congr_right (or_congr_right (exists_congr fun q => and_congr_right fun hq => ?_))
    rw [hf q hq]
  · rw [hf q hq, hp q hq]; exact h.new hq

open Classical in
/-- Rounds after rounds, on other pages. -/
theorem trans (h₁ : Added c v v₁ root tab tab₁ S₁ perm fr₁)
    (h₂ : Added c v₁ v₂ root tab₁ tab₂ S₂ perm fr₂) (hd : ∀ q, S₁ q → ¬ S₂ q) :
    Added c v v₂ root tab tab₂ (fun q => S₁ q ∨ S₂ q) perm
      (fun q => if S₁ q then fr₁ q else fr₂ q) := by
  have hfr2 : ∀ {q}, S₂ q → (if S₁ q then fr₁ q else fr₂ q) = fr₂ q := fun {q} hq =>
    if_neg fun h1 => hd q h1 hq
  have hown1 : ∀ {q}, S₁ q → fr₁ q ∈ v₁.own := fun {q} hq =>
    (h₁.own _).2 (.inr (.inr ⟨q, hq, rfl⟩))
  refine ⟨h₂.tree, fun hi => h₂.keep (h₁.keep hi), fun {i t} hi hn ht => ?_, fun {q} hq => ?_,
    fun {q r} hq hr he => ?_, fun f => ?_, fun a ha hn => ?_, fun {q} hq => ?_, fun {q} hq => ?_,
    (h₁.touch.mono fun _ => .inl).trans (h₂.touch.mono fun _ => .inr)⟩
  · cases h1 : tab₁ i with
    | none => exact h₂.fresh hi h1 (h₁.own_sub ht)
    | some u =>
      obtain rfl : u = t := by rw [h₂.keep h1] at hi; exact Option.some.inj hi
      exact h₁.fresh h1 hn ht
  · rcases hq with hq | hq
    · rw [if_pos hq]
      obtain ⟨h1, h2, h3⟩ := h₁.page hq
      exact ⟨h1, h2, h₂.not_has (hown1 hq) h3⟩
    · rw [hfr2 hq]
      obtain ⟨h1, h2, h3⟩ := h₂.page hq
      exact ⟨h1, fun h4 => h2 (h₁.own_sub h4), h3⟩
  · rcases hq with hq | hq <;> rcases hr with hr | hr
    · rw [if_pos hq, if_pos hr] at he
      exact h₁.inj hq hr he
    · rw [if_pos hq, hfr2 hr] at he
      exact absurd (he ▸ hown1 hq) (h₂.page hr).2.1
    · rw [hfr2 hq, if_pos hr] at he
      exact absurd (he ▸ hown1 hr) (h₂.page hq).2.1
    · rw [hfr2 hq, hfr2 hr] at he
      exact h₂.inj hq hr he
  · rw [h₂.own, h₁.own]
    constructor
    · rintro ((h | ⟨i, hi⟩ | ⟨q, hq, he⟩) | h | ⟨q, hq, he⟩)
      · exact .inl h
      · exact .inr (.inl ⟨i, h₂.keep hi⟩)
      · exact .inr (.inr ⟨q, .inl hq, by rw [if_pos hq]; exact he⟩)
      · exact .inr (.inl h)
      · exact .inr (.inr ⟨q, .inr hq, by rw [hfr2 hq]; exact he⟩)
    · rintro (h | h | ⟨q, hq | hq, he⟩)
      · exact .inl (.inl h)
      · exact .inr (.inl h)
      · rw [if_pos hq] at he
        exact .inl (.inr (.inr ⟨q, hq, he⟩))
      · rw [hfr2 hq] at he
        exact .inr (.inr ⟨q, hq, he⟩)
  · exact (h₂.mem a (h₁.own_sub ha) (h₁.not_has ha hn)).trans (h₁.mem a ha hn)
  · rcases hq with hq | hq
    · rw [if_pos hq, h₂.old (hd q hq), h₁.new hq]
    · rw [hfr2 hq, h₂.new hq]
  · rw [h₂.old fun h => hq (.inr h), h₁.old fun h => hq (.inl h)]

/-- One round: a fresh frame, filled in some way, is mapped at page `p`. -/
theorem page_round {f p perm' : Nat} (ht : Tree c v root tab) (hf : c.IsFrame f) (hfo : f ∉ v.own)
    (ho : v₁.own = insert f v.own) (hm : ∀ a, pageOf a ≠ f → v₁.mem a = v.mem a)
    (hg : Grown c v₁ v₂ root tab tab₁) (htab : Touched tab tab₁ (· = p))
    (he : pte v₂.mem tab₁ = mapRange p 1 f perm' (pte v₁.mem tab)) (hp : perm p = perm') :
    Added c v v₂ root tab tab₁ (· = p) perm (fun _ => f) := by
  have hsub : ∀ {g}, g ∈ v.own → g ∈ v₁.own := fun hg => by
    rw [ho]; exact Finset.mem_insert_of_mem hg
  have hfn : ¬ Tree.Has root tab f := fun h => hfo (ht.has_own h)
  have hf1 : f ∈ v₁.own := by rw [ho]; exact Finset.mem_insert_self _ _
  refine ⟨hg.tree, hg.keep, fun hi hn h => hg.fresh hi hn (hsub h), fun _ => ?_,
    fun hq hr _ => hq.trans hr.symm, fun g => ?_, fun a ha hn => ?_, fun {q} hq => ?_,
    fun {q} hq => ?_, htab⟩
  · exact ⟨hf, hfo, hg.not_has hf1 hfn⟩
  · rw [hg.own, ho, Finset.mem_insert]
    constructor
    · rintro ((rfl | h) | h)
      · exact .inr (.inr ⟨p, rfl, rfl⟩)
      · exact .inl h
      · exact .inr (.inl h)
    · rintro (h | h | ⟨-, -, rfl⟩)
      · exact .inl (.inr h)
      · exact .inr h
      · exact .inl (.inl rfl)
  · rw [hg.mem a (hg.not_has (hsub ha) hn), hm a fun h => hfo (h ▸ ha)]
  · rw [he, hq, mapRange, if_pos (by omega), Nat.sub_self, Nat.zero_mul, Nat.add_zero, hp]
  · rw [he, mapRange, if_neg (by omega)]
    exact ht.pte_congr (fun a ha => hm a fun h => hfn (h ▸ ha)) q

/-- A round that failed for want of a table: the frame was given back. -/
theorem none_round {f : Nat} (ht : Tree c v root tab) (hfo : f ∉ v.own)
    (ho : v₁.own = insert f v.own) (hm : ∀ a, pageOf a ≠ f → v₁.mem a = v.mem a)
    (hg : Grown c v₁ v₂ root tab tab) (he : pte v₂.mem tab = pte v₁.mem tab)
    (perm fr : Nat → Nat) :
    Added c v { v₂ with own := v₂.own.erase f } root tab tab (fun _ => False) perm fr := by
  have hsub : ∀ {g}, g ∈ v.own → g ∈ v₁.own := fun hg => by
    rw [ho]; exact Finset.mem_insert_of_mem hg
  have hfn : ¬ Tree.Has root tab f := fun h => hfo (ht.has_own h)
  refine ⟨hg.tree.congr (fun g hg' => ?_) fun _ _ => rfl, hg.keep,
    fun hi hn h => hg.fresh hi hn (hsub h), fun h => h.elim, fun h => h.elim, fun g => ?_,
    fun a ha hn => ?_, fun h => h.elim, fun {q} _ => ?_, .refl _ _⟩
  · exact Finset.mem_erase.2 ⟨fun h => hfn (h ▸ hg'), hg.tree.has_own hg'⟩
  · rw [Finset.mem_erase, hg.own, ho, Finset.mem_insert]
    simp only [false_and, exists_false, or_false]
    constructor
    · rintro ⟨hne, (h | h) | h⟩
      · exact absurd h hne
      · exact .inl h
      · exact .inr h
    · rintro (h | h)
      · exact ⟨fun he => hfo (he ▸ h), .inl (.inr h)⟩
      · exact ⟨fun he => hfn (.inr (he ▸ h)), .inr h⟩
  · exact (hg.mem a (hg.not_has (hsub ha) hn)).trans (hm a fun h => hfo (h ▸ ha))
  · rw [he]
    exact ht.pte_congr (fun a ha => hm a fun h => hfn (h ▸ ha)) q

end Added

/-! ## `alloc` -/

/-- There are at most 1024 tables. -/
theorem Grown.own_card {c : Cfg} {v v' : View} {root : Nat} {tab tab' : Nat → Option Nat}
    (h : Grown c v v' root tab tab') : v'.own.card ≤ v.own.card + 1024 := by
  have hsub : v'.own ⊆ v.own ∪ (Finset.range 1024).image fun i => (tab' i).getD 0 := by
    intro f hf
    rw [Finset.mem_union, Finset.mem_image]
    rcases (h.own f).1 hf with hf | ⟨i, hi⟩
    · exact .inl hf
    · exact .inr ⟨i, Finset.mem_range.2 (h.tree.lt hi), by rw [hi]; rfl⟩
  have h1 := Finset.card_le_card hsub
  have h2 := Finset.card_union_le v.own ((Finset.range 1024).image fun i => (tab' i).getD 0)
  have h3 := Finset.card_image_le (s := Finset.range 1024) (f := fun i => (tab' i).getD 0)
  rw [Finset.card_range] at h3
  omega

/-- There are at most 1024 tables, and a frame for each page. -/
theorem Added.own_card {c : Cfg} {v v' : View} {root : Nat} {tab tab' : Nat → Option Nat}
    {S : Nat → Prop} {perm fr : Nat → Nat} (h : Added c v v' root tab tab' S perm fr) {p n : Nat}
    (hS : ∀ q, S q → InPages p n q) : v'.own.card ≤ v.own.card + (1024 + n) := by
  have hsub : v'.own ⊆ v.own ∪ ((Finset.range 1024).image (fun i => (tab' i).getD 0) ∪
      (Finset.Ico p (p + n)).image fr) := by
    intro f hf
    rw [Finset.mem_union, Finset.mem_union, Finset.mem_image, Finset.mem_image]
    rcases (h.own f).1 hf with hf | ⟨i, hi⟩ | ⟨q, hq, hf⟩
    · exact .inl hf
    · exact .inr (.inl ⟨i, Finset.mem_range.2 (h.tree.lt hi), by rw [hi]; rfl⟩)
    · exact .inr (.inr ⟨q, Finset.mem_Ico.2 (hS q hq), hf⟩)
  have h1 := Finset.card_le_card hsub
  have h2 := Finset.card_union_le v.own ((Finset.range 1024).image (fun i => (tab' i).getD 0) ∪
    (Finset.Ico p (p + n)).image fr)
  have h3 := Finset.card_union_le ((Finset.range 1024).image fun i => (tab' i).getD 0)
    ((Finset.Ico p (p + n)).image fr)
  have h4 := Finset.card_image_le (s := Finset.range 1024) (f := fun i => (tab' i).getD 0)
  have h5 := Finset.card_image_le (s := Finset.Ico p (p + n)) (f := fr)
  rw [Finset.card_range] at h4
  rw [Nat.card_Ico, Nat.add_sub_cancel_left] at h5
  omega

/-! ## Counting frames -/

section
variable {c : Cfg} {v v' : View} {root : Nat} {tab tab' : Nat → Option Nat}

/-- Where tables were added. -/
def newTables (tab tab' : Nat → Option Nat) : Finset Nat :=
  (Finset.range 1024).filter fun i => tab i = none ∧ tab' i ≠ none

/-- Tables were added, and the frames `fr q` of the pages in `P`. -/
theorem Tree.card_added (h : Tree c v' root tab') {P : Finset Nat} (fr : Nat → Nat)
    (hkeep : ∀ {i t}, tab i = some t → tab' i = some t) (htab : ∀ {i t}, tab i = some t → t ∈ v.own)
    (hfresh : ∀ {i t}, tab' i = some t → tab i = none → t ∉ v.own)
    (hpage : ∀ q ∈ P, fr q ∉ v.own ∧ ∀ i, tab' i ≠ some (fr q))
    (hinj : ∀ q ∈ P, ∀ r ∈ P, fr q = fr r → q = r)
    (hown : ∀ f, f ∈ v'.own ↔ f ∈ v.own ∨ (∃ i, tab' i = some f) ∨ ∃ q ∈ P, fr q = f) :
    v'.own.card = v.own.card + (newTables tab tab').card + P.card := by
  have hnew : ∀ {i}, i ∈ newTables tab tab' ↔ tab i = none ∧ ∃ t, tab' i = some t := by
    intro i
    rw [newTables, Finset.mem_filter, Finset.mem_range, Option.ne_none_iff_exists']
    exact ⟨And.right, fun hi => ⟨h.lt hi.2.choose_spec, hi⟩⟩
  have hget : ∀ {i t}, tab' i = some t → (tab' i).getD 0 = t := fun hi => by rw [hi]; rfl
  have heq : v'.own = (v.own ∪ (newTables tab tab').image fun i => (tab' i).getD 0) ∪ P.image fr := by
    ext f
    rw [hown, Finset.mem_union, Finset.mem_union, Finset.mem_image, Finset.mem_image, or_assoc]
    constructor
    · rintro (hf | ⟨i, hi⟩ | hf)
      · exact .inl hf
      · cases hn : tab i with
        | none => exact .inr (.inl ⟨i, hnew.2 ⟨hn, f, hi⟩, hget hi⟩)
        | some t =>
          obtain rfl : t = f := Option.some.inj ((hkeep hn).symm.trans hi)
          exact .inl (htab hn)
      · exact .inr (.inr hf)
    · rintro (hf | ⟨i, hi, rfl⟩ | hf)
      · exact .inl hf
      · obtain ⟨-, t, ht⟩ := hnew.1 hi
        exact .inr (.inl ⟨i, by rw [hget ht]; exact ht⟩)
      · exact .inr (.inr hf)
  have hd1 : Disjoint v.own ((newTables tab tab').image fun i => (tab' i).getD 0) := by
    rw [Finset.disjoint_right]
    intro f hf
    obtain ⟨i, hi, rfl⟩ := Finset.mem_image.1 hf
    obtain ⟨hn, t, ht⟩ := hnew.1 hi
    rw [hget ht]
    exact hfresh ht hn
  have hd2 : Disjoint (v.own ∪ (newTables tab tab').image fun i => (tab' i).getD 0) (P.image fr) := by
    rw [Finset.disjoint_right]
    intro f hf hu
    obtain ⟨q, hq, rfl⟩ := Finset.mem_image.1 hf
    rcases Finset.mem_union.1 hu with hu | hu
    · exact (hpage q hq).1 hu
    · obtain ⟨i, hi, he⟩ := Finset.mem_image.1 hu
      obtain ⟨-, t, ht⟩ := hnew.1 hi
      rw [hget ht] at he
      exact (hpage q hq).2 i (he ▸ ht)
  rw [heq, Finset.card_union_of_disjoint hd2, Finset.card_union_of_disjoint hd1,
    Finset.card_image_of_injOn, Finset.card_image_of_injOn]
  · intro q hq r hr
    exact hinj q hq r hr
  · intro i hi j hj he
    obtain ⟨-, t, ht⟩ := hnew.1 hi
    obtain ⟨-, u, hu⟩ := hnew.1 hj
    dsimp only at he
    rw [hget ht, hget hu] at he
    exact h.inj ht (he ▸ hu)

/-- Tables were added, and nothing else. -/
theorem Grown.card_eq (ht : Tree c v root tab) (h : Grown c v v' root tab tab') :
    v'.own.card = v.own.card + (newTables tab tab').card := by
  have := h.tree.card_added (P := ∅) id h.keep ht.own h.fresh
    (fun q hq => absurd hq (Finset.notMem_empty q)) (fun q hq => absurd hq (Finset.notMem_empty q))
    fun f => by rw [h.own]; simp
  rwa [Finset.card_empty, Nat.add_zero] at this

/-- Tables and `n` pages were added. -/
theorem Added.card_eq {p n : Nat} {perm fr : Nat → Nat} (ht : Tree c v root tab)
    (h : Added c v v' root tab tab' (InPages p n) perm fr) :
    v'.own.card = v.own.card + (newTables tab tab').card + n := by
  have hmem : ∀ {q}, q ∈ Finset.Ico p (p + n) ↔ InPages p n q := Finset.mem_Ico
  have := h.tree.card_added (P := Finset.Ico p (p + n)) fr h.keep ht.own h.fresh
    (fun q hq => ⟨(h.page (hmem.1 hq)).2.1, fun i hi => (h.page (hmem.1 hq)).2.2 (.inr ⟨i, hi⟩)⟩)
    (fun q hq r hr => h.inj (hmem.1 hq) (hmem.1 hr)) fun f => by
      rw [h.own]
      simp only [hmem]
  rwa [Nat.card_Ico, Nat.add_sub_cancel_left] at this

/-- The tables are the old ones and those of the pages. -/
theorem Added.tab_none {S : Nat → Prop} {perm fr : Nat → Nat}
    (h : Added c v v' root tab tab' S perm fr) (i : Nat) :
    tab' i = none ↔ tab i = none ∧ ∀ q, S q → q / 1024 ≠ i := by
  constructor
  · intro hn
    refine ⟨?_, ?_⟩
    · cases ht : tab i with
      | none => rfl
      | some t => rw [h.keep ht] at hn; cases hn
    · rintro q hq rfl
      have h1 := h.new hq
      rw [pte, hn] at h1
      exact leafWord_ne_zero _ _ h1.symm
  · rintro ⟨hn, hS⟩
    by_contra h1
    obtain ⟨q, hq, he⟩ := h.touch i (by rwa [hn])
    exact hS q hq he

end

section
variable {E : Mode} {v : View} {root : Nat} {tab : Nat → Option Nat}

/-- The state after `k` of the rounds of `alloc` failed to be all: the allocator ran out. -/
def Ran (E : Mode) (v' : View) : Prop := ∃ o, E.oom o ∧ o.card ≤ v'.own.card + 1

/-- It ran out at page `q`: there was no frame for the page, or none for its table. -/
def RanAt (E : Mode) (v' : View) (tab' : Nat → Option Nat) (q : Nat) : Prop :=
  ∃ o, E.oom o ∧ (o.card = v'.own.card ∨ o.card = v'.own.card + 1 ∧ tab' (q / 1024) = none)

theorem RanAt.ran {E : Mode} {v' : View} {tab' : Nat → Option Nat} {q : Nat}
    (h : RanAt E v' tab' q) : Ran E v' := by
  obtain ⟨o, ho, hc⟩ := h
  exact ⟨o, ho, by omega⟩

/-- **`alloc`** of `n` pages with some permission: every page is mapped, or the allocator ran out
after `k` of them. -/
theorem wp_allocLoop (hns : ¬ E.strict) {perm : Nat} (hp0 : perm ≠ 0) (hp : PermOk (perm ||| PTE_U)) (n : Nat) :
    ∀ {v : View} {tab : Nat → Option Nat} {u : Uvm}, Tree E.cfg v u.pagetable.root tab →
      (u.begin + u.size) % PAGESIZE = 0 →
      (USIZE ≤ u.begin + u.size + n * PAGESIZE → E.stop) →
      ∀ {Q : Except Unit Unit × Uvm → View → Prop},
      (∀ v' tab' fr, u.begin + u.size + n * PAGESIZE < USIZE ∨ n = 0 →
        Added E.cfg v v' u.pagetable.root tab tab'
          (InPages (pageNo (u.begin + u.size)) n) (fun _ => perm ||| PTE_U) fr →
        (E.shared = false → ∀ a, ¬ Tree.Has u.pagetable.root tab' (pageOf a) →
          v'.mem a = v.mem a) →
        Q (.ok (), { u with size := u.size + n * PAGESIZE }) v') →
      (∀ k < n, ∀ v' tab' fr, u.begin + u.size + k * PAGESIZE < USIZE ∨ k = 0 →
        Added E.cfg v v' u.pagetable.root tab tab'
          (InPages (pageNo (u.begin + u.size)) k) (fun _ => perm ||| PTE_U) fr →
        RanAt E v' tab' (pageNo (u.begin + u.size) + k) →
        Q (.error (), { u with size := u.size + k * PAGESIZE }) v') →
      M.wp E (Uvm.allocLoop perm n u) Q v := by
  induction n with
  | zero =>
    intro v tab u h _ _ Q hok _
    have h0 : Added E.cfg v v u.pagetable.root tab tab
        (InPages (pageNo (u.begin + u.size)) 0) (fun _ => perm ||| PTE_U) (fun _ => 0) :=
      (Added.refl h (fun _ => perm ||| PTE_U) fun _ => 0).congr
        (fun q => iff_of_false (not_inPages_zero _ q) id) (fun _ _ => rfl) fun _ _ => rfl
    have := hok v tab _ (.inr rfl) h0 fun _ _ _ => rfl
    rwa [Nat.zero_mul, Nat.add_zero] at this
  | succ n ih =>
    intro v tab u h hal hstop Q hok herr
    have hsz := PAGESIZE_eq
    have hfail : ∀ v', Added E.cfg v v' u.pagetable.root tab tab (fun _ => False)
        (fun _ => perm ||| PTE_U) (fun _ => 0) → RanAt E v' tab (pageNo (u.begin + u.size)) →
        Q (.error (), u) v' := by
      intro v' ha hr
      have := herr 0 (by omega) v' tab (fun _ => 0) (.inr rfl)
        (ha.congr (fun q => iff_of_false (not_inPages_zero _ q) id) (fun _ _ => rfl) fun _ _ => rfl) hr
      rwa [Nat.zero_mul, Nat.add_zero] at this
    unfold Uvm.allocLoop
    rw [if_neg hp0, M.wp_bind]
    refine M.wp_alloc (fun ho => ?_) fun f hf hfo m' hm' => ?_
    · rw [if_pos rfl]
      exact hfail v (.refl h _ _) ⟨_, ho, .inl rfl⟩
    rw [if_neg hf.ne_zero, M.wp_bind]
    have hpf : pageOf f = f := pageOf_self hf.page
    have hfn : ¬ Tree.Has u.pagetable.root tab f := fun h1 => hfo (h.has_own h1)
    have hm : ∀ a, pageOf a ≠ f → m' a = v.mem a := fun a ha => hm' a (.inr ha)
    have h1 : Tree E.cfg { own := insert f v.own, mem := m' } u.pagetable.root tab :=
      h.congr (fun g hg => Finset.mem_insert_of_mem (h.has_own hg))
        fun a ha => hm a fun he => hfn (he ▸ ha)
    unfold Uvm.end
    refine M.wp_add_or (fun hov => hstop ?_) fun hlt => ?_
    · omega
    rw [M.wp_bind]
    have hbf := hf.bound
    have hfp := hf.page
    by_cases hend : USIZE ≤ u.begin + u.size + PAGESIZE
    · -- `map` computes the end of the page
      unfold PageTable.map
      have hpp : PAGESIZE % PAGESIZE = 0 := Nat.mod_self _
      simp only [hfp, hal, hpp, ne_eq, not_true_eq_false, ↓reduceIte]
      rw [M.wp_bind]
      refine M.wp_add_or (fun _ => hstop ?_) fun hlt2 => ?_
      · rw [hsz] at *; omega
      · omega
    refine wp_map_one h1 hal (by omega) hfp (by rw [hsz, USIZE_eq]; omega) hp
      (fun hs => absurd hs hns)
      (fun v₂ tab₁ hg htab he => ?_) fun v₂ hg ho hn he => ?_
    · -- the page is mapped; the remaining rounds go on from there
      rw [M.wp_bind]
      refine M.wp_add (by omega) ?_
      have ha : Added E.cfg v v₂ u.pagetable.root tab tab₁ (· = pageNo (u.begin + u.size))
          (fun _ => perm ||| PTE_U) (fun _ => f) :=
        .page_round h hf hfo rfl hm hg htab he rfl
      have hpn : pageNo (u.begin + (u.size + PAGESIZE)) = pageNo (u.begin + u.size) + 1 := by
        unfold pageNo; rw [hsz] at *; omega
      have hjoin : ∀ k v' tab' fr, Added E.cfg v₂ v' u.pagetable.root tab₁ tab'
          (InPages (pageNo (u.begin + u.size) + 1) k) (fun _ => perm ||| PTE_U) fr →
          ∃ fr', Added E.cfg v v' u.pagetable.root tab tab'
            (InPages (pageNo (u.begin + u.size)) (k + 1)) (fun _ => perm ||| PTE_U) fr' := by
        intro k v' tab' fr hk
        refine ⟨_, (ha.trans hk fun q hq => ?_).congr (fun q => ?_) (fun _ _ => rfl) fun _ _ => rfl⟩
        · unfold InPages; omega
        · unfold InPages; omega
      refine ih (u := { u with size := u.size + PAGESIZE }) hg.tree ?_ (fun hov => hstop ?_)
        (fun v' tab' fr hb hk hsame => ?_) fun k hk v' tab' fr hb hka hr => ?_
      · rw [← Nat.add_assoc, Nat.add_mod_right, hal]
      · dsimp only at hov
        rw [hsz] at *
        omega
      · rw [hpn] at hk
        have hkeep := @hk.keep
        obtain ⟨fr', hk⟩ := hjoin n v' tab' fr hk
        have := hok v' tab' fr' (by dsimp only at hb; rw [hsz] at *; omega) hk fun hs a ha => by
          have ha₁ : ¬ Tree.Has u.pagetable.root tab₁ (pageOf a) := fun h1 => ha <|
            h1.imp id fun ⟨i, hi⟩ => ⟨i, hkeep hi⟩
          rw [hsame hs a ha, hg.mem a ha₁]
          exact hm' a (.inl hs)
        rw [show u.size + (n + 1) * PAGESIZE = u.size + PAGESIZE + n * PAGESIZE by rw [hsz]; omega]
          at this
        exact this
      · rw [hpn] at hka
        obtain ⟨fr', hka⟩ := hjoin k v' tab' fr hka
        rw [hpn] at hr
        have := herr (k + 1) (by omega) v' tab' fr' (by dsimp only at hb; rw [hsz] at *; omega)
          hka (by rwa [Nat.add_assoc, Nat.add_comm 1 k] at hr)
        rw [show u.size + (k + 1) * PAGESIZE = u.size + PAGESIZE + k * PAGESIZE by rw [hsz]; omega]
          at this
        exact this
    · rw [M.wp_bind]
      refine M.wp_dealloc (hg.own_sub (Finset.mem_insert_self _ _)) ?_
      refine hfail _ (.none_round h hfo rfl hm hg he _ _) ⟨_, ho, .inr ⟨?_, ?_⟩⟩
      · exact (Finset.card_erase_add_one (hg.own_sub (Finset.mem_insert_self f v.own))).symm
      · exact hn

/-- With no permission, `alloc` only moves the end: the pages are guards. -/
theorem wp_allocLoop_guard (n : Nat) :
    ∀ {v : View} {u : Uvm}, (USIZE ≤ u.size + n * PAGESIZE → E.stop) →
      ∀ {Q : Except Unit Unit × Uvm → View → Prop},
      (u.size + n * PAGESIZE < USIZE ∨ n = 0 →
        Q (.ok (), { u with size := u.size + n * PAGESIZE }) v) →
      M.wp E (Uvm.allocLoop 0 n u) Q v := by
  induction n with
  | zero =>
    intro v u _ Q hok
    have := hok (.inr rfl)
    rwa [Nat.zero_mul, Nat.add_zero] at this
  | succ n ih =>
    intro v u hstop Q hok
    have hsz := PAGESIZE_eq
    unfold Uvm.allocLoop
    rw [if_pos rfl, M.wp_bind]
    refine M.wp_add_or (fun hov => hstop ?_) fun hlt => ?_
    · rw [hsz] at *; omega
    refine ih (u := { u with size := u.size + PAGESIZE }) (fun hov => hstop ?_) fun hb => ?_
    · dsimp only at hov
      rw [hsz] at *
      omega
    · have := hok (by dsimp only at hb; rw [hsz] at *; omega)
      rw [show u.size + (n + 1) * PAGESIZE = u.size + PAGESIZE + n * PAGESIZE by rw [hsz]; omega]
        at this
      exact this

/-! ## `init_proc` -/

/-- The entries after `init_proc`. -/
def procMap (c : Cfg) (tf : Nat) (e : Nat → Nat) : Nat → Nat :=
  mapRange (pageNo TRAPFRAME) 1 tf (PTE_R ||| PTE_W)
    (mapRange (pageNo TRAMPOLINE) 1 c.trampoline (PTE_R ||| PTE_X) e)

theorem Cfg.trampoline_bound (c : Cfg) : c.trampoline % PAGESIZE = 0 ∧
    c.trampoline + PAGESIZE < USIZE := by
  have h1 := c.tramp_page
  have h2 := c.tramp_end
  unfold RAMEND RAMSTART RAMSIZE at h2
  rw [USIZE_eq]
  exact ⟨h1, by omega⟩

theorem trampoline_va : TRAMPOLINE % PAGESIZE = 0 ∧ TRAMPOLINE + PAGESIZE < USIZE ∧
    pageNo TRAMPOLINE = 0xffffe := by
  unfold pageNo TRAMPOLINE VIRT_END
  rw [PAGESIZE_eq, USIZE_eq]
  omega

theorem trapframe_va : TRAPFRAME % PAGESIZE = 0 ∧ TRAPFRAME + PAGESIZE < USIZE ∧
    pageNo TRAPFRAME = 0xffffd := by
  unfold pageNo TRAPFRAME TRAMPOLINE VIRT_END
  rw [PAGESIZE_eq, USIZE_eq]
  omega

theorem wp_initProc (hns : ¬ E.strict) {u : Uvm} {tf : Nat} (h : Tree E.cfg v u.pagetable.root tab)
    (htf : tf % PAGESIZE = 0) (htb : tf + PAGESIZE < USIZE) {Q : Except Unit Unit → View → Prop}
    (hok : ∀ v' tab', Grown E.cfg v v' u.pagetable.root tab tab' →
      Touched tab tab' (· / 1024 = 1023) →
      pte v'.mem tab' = procMap E.cfg tf (pte v.mem tab) → Q (.ok ()) v')
    (herr : ∀ v' tab', Grown E.cfg v v' u.pagetable.root tab tab' →
      Touched tab tab' (· / 1024 = 1023) → E.oom v'.own → tab' 1023 = none →
      (pte v'.mem tab' = pte v.mem tab ∨ pte v'.mem tab' =
        mapRange (pageNo TRAMPOLINE) 1 E.cfg.trampoline (PTE_R ||| PTE_X) (pte v.mem tab)) →
      Q (.error ()) v') :
    M.wp E (Uvm.initProc E.cfg u tf) Q v := by
  unfold Uvm.initProc
  rw [M.wp_bind]
  refine wp_map_one h trampoline_va.1 trampoline_va.2.1 E.cfg.trampoline_bound.1
    E.cfg.trampoline_bound.2 ⟨by decide, by decide⟩ (fun hs => absurd hs hns)
    (fun v₁ tab₁ hg₁ ht₁ he₁ => ?_)
    fun v' hg ho hn he => herr v' tab hg (.refl _ _) ho (by rwa [trampoline_va.2.2] at hn) (.inl he)
  have ht₁ : Touched tab tab₁ (· / 1024 = 1023) := ht₁.mono fun q hq => by
    rw [hq, trampoline_va.2.2]
  dsimp only
  refine wp_map_one hg₁.tree trapframe_va.1 trapframe_va.2.1 htf htb ⟨by decide, by decide⟩
    (fun hs => absurd hs hns)
    (fun v' tab' hg ht he => ?_) fun v' hg ho hn he => ?_
  · refine hok v' tab' (hg₁.trans hg) (ht₁.trans (ht.mono fun q hq => ?_)) (by rw [he, he₁]; rfl)
    rw [hq, trapframe_va.2.2]
  · rw [trapframe_va.2.2] at hn
    exact herr v' tab₁ (hg₁.trans hg) ht₁ ho hn (.inr (by rw [he, he₁]))

/-! ## `load` -/

/-- The frame an entry leads to. -/
def frameOf (w : Nat) : Nat := w / 1024 * 4096 % USIZE

theorem frameOf_page (w : Nat) : frameOf w % PAGESIZE = 0 := by
  unfold frameOf; rw [PAGESIZE_eq, USIZE_eq]; omega

/-- **`load`** writes the pages of the image and nothing else. Alone, where no page of the source is
one of them and no two of them are the same, it copies the source, whole pages of it. -/
theorem wp_loadLoop {u : Uvm} (n : Nat) :
    ∀ {v : View} {va src : Nat}, Tree E.cfg v u.pagetable.root tab → va < USIZE →
      va + n * PAGESIZE < USIZE → ((∀ j < n, Readable (src + j * PAGESIZE) PAGESIZE) ∨ E.stop) →
      (∀ q, InPages (pageNo va) n q → pte v.mem tab q = 0 → E.stop) →
      (∀ q, InPages (pageNo va) n q → pte v.mem tab q ≠ 0 → frameOf (pte v.mem tab q) ∈ v.own ∧
        ¬ Tree.Has u.pagetable.root tab (frameOf (pte v.mem tab q))) →
      ∀ {Q : Except Unit Unit → View → Prop},
      (∀ m r, (r = .ok () ∨ ∃ q, InPages (pageNo va) n q ∧ slot tab q = none) →
        (∀ a, (∀ q, InPages (pageNo va) n q → pte v.mem tab q ≠ 0 →
          pageOf a ≠ frameOf (pte v.mem tab q)) → m a = v.mem a) →
        (r = .ok () → E.shared = false →
          (∀ q, InPages (pageNo va) n q → ∀ j < n * PAGESIZE,
            pageOf (src + j) ≠ frameOf (pte v.mem tab q)) →
          (∀ p q, InPages (pageNo va) n p → InPages (pageNo va) n q →
            frameOf (pte v.mem tab p) = frameOf (pte v.mem tab q) → p = q) →
          ∀ j < n * PAGESIZE, m (frameOf (pte v.mem tab (pageNo va + j / PAGESIZE)) + j % PAGESIZE) =
            v.mem (src + j)) →
        Q r { v with mem := m }) →
      M.wp E (Uvm.loadLoop u n va src) Q v := by
  induction n with
  | zero =>
    intro v va src _ _ _ _ _ _ Q hok
    exact hok _ _ (.inl rfl) (fun _ _ => rfl) fun _ _ _ _ j hj => by omega
  | succ n ih =>
    intro v va src h hlt hve hsrc hz hf Q hok
    have hsz := PAGESIZE_eq
    have hin : InPages (pageNo va) (n + 1) (pageNo va) := ⟨by omega, by omega⟩
    have hsrc₀ := hsrc.imp_left fun h => h 0 (by omega)
    rw [Nat.zero_mul, Nat.add_zero] at hsrc₀
    rw [hsz] at hve
    unfold Uvm.loadLoop
    rw [M.wp_bind]
    refine wp_walk_Walk h hlt ?_
    cases hs : slot tab (pageNo va) with
    | none => exact hok v.mem _ (.inr ⟨_, hin, hs⟩) (fun _ _ => rfl) fun hr => by cases hr
    | some a =>
      dsimp only
      rw [M.wp_bind]
      refine wp_read_slot h hs ?_
      generalize hw : pte v.mem tab (pageNo va) = w
      rw [Pte.pa_eq, show w / 1024 * 4096 % USIZE = frameOf w from rfl, M.wp_bind]
      by_cases hw0 : w = 0
      · -- nothing is mapped: the entry leads to page 0
        subst hw0
        rw [show frameOf 0 = 0 from rfl]
        exact M.wp_writeBytes_null (hz _ hin hw)
      obtain ⟨hfo, hft⟩ := hf _ hin (by rw [hw]; exact hw0)
      rw [hw] at hfo hft
      have hpf := pageOf_self (frameOf_page w)
      have how : ∀ m, View.Owns { v with mem := m } (frameOf w) PAGESIZE := fun m =>
        ⟨by rw [hpf]; exact hfo, by rw [frameOf_page]; omega⟩
      refine M.wp_writeBytes (how v.mem) ?_
      rw [M.wp_bind]
      refine M.wp_copy hsrc₀ (how _) fun c hc => ?_
      rw [M.wp_bind]
      refine M.wp_add (by rw [hsz]; omega) ?_
      have hm : ∀ b, pageOf b ≠ frameOf w →
          ((v.mem.fill (frameOf w) 0 PAGESIZE).setBytes (frameOf w) PAGESIZE c) b = v.mem b := by
        intro b hb
        have ho := (how v.mem).out (b := b) (by rw [hpf]; exact hb)
        exact (Bytes.setBytes_ne ho).trans (Bytes.fill_ne ho)
      have hp : ∀ q, pte ((v.mem.fill (frameOf w) 0 PAGESIZE).setBytes (frameOf w) PAGESIZE c) tab q
          = pte v.mem tab q := h.pte_congr fun b hb => hm b fun he => hft (he ▸ hb)
      have hpn : pageNo (va + PAGESIZE) = pageNo va + 1 := by unfold pageNo; rw [hsz]; omega
      have hsub : ∀ {q}, InPages (pageNo (va + PAGESIZE)) n q → InPages (pageNo va) (n + 1) q := by
        intro q hq
        rw [hpn] at hq
        unfold InPages at *
        omega
      refine ih ?_ (by omega) (by rw [hsz]; omega) (hsrc.imp_left fun hs j hj => ?_)
        (fun q hq hq0 => ?_) (fun q hq hq0 => ?_) fun m r hr hma hdata => ?_
      · exact h.congr (fun f hf => h.has_own hf) fun b hb => hm b fun he => hft (he ▸ hb)
      · have := hs (j + 1) (by omega)
        rwa [show src + (j + 1) * PAGESIZE = src + PAGESIZE + j * PAGESIZE by
          rw [Nat.succ_mul]; omega] at this
      · exact hz q (hsub hq) (by rw [← hp]; exact hq0)
      · rw [hp] at *
        exact hf q (hsub hq) hq0
      · refine hok m r (hr.imp id fun ⟨q, hq, h⟩ => ⟨q, hsub hq, h⟩) (fun b hb => ?_)
          fun hok' hsh hso hin' j hj => ?_
        · rw [hma b fun q hq hq0 => ?_]
          · refine hm b ?_
            have := hb _ hin (by rw [hw]; exact hw0)
            rwa [hw] at this
          · rw [hp] at *
            exact hb q (hsub hq) hq0
        · have hne : ∀ j < (n + 1) * PAGESIZE, pageOf (src + j) ≠ frameOf w := fun j hj => by
            have := hso _ hin j hj
            rwa [hw] at this
          by_cases hj0 : j < PAGESIZE
          · -- a byte of the first page
            have hpj : pageOf (frameOf w + j) = frameOf w := pageOf_eq_of (frameOf_page w) (by omega)
            rw [Nat.div_eq_of_lt hj0, Nat.mod_eq_of_lt hj0, Nat.add_zero, hw,
              hma _ fun q hq _ he => ?_]
            · dsimp only
              rw [Bytes.setBytes_at hj0, hc j hj0 (.inl hsh)]
              refine Bytes.fill_ne ?_
              have := (how v.mem).out (b := src + j) (by rw [hpf]; exact hne j hj)
              exact this
            · rw [hp, hpj, ← hw] at he
              have := hin' _ _ hin (hsub hq) he
              rw [hpn] at hq
              unfold InPages at hq
              omega
          · obtain ⟨k, rfl⟩ : ∃ k, j = PAGESIZE + k := ⟨j - PAGESIZE, by omega⟩
            have hk : k < n * PAGESIZE := by rw [Nat.add_mul, Nat.one_mul] at hj; omega
            have := hdata hok' hsh (fun q hq i hi => ?_) (fun p q h1 h2 he => ?_) k hk
            · rw [hp, hpn] at this
              rw [Nat.add_div_left _ (by omega), Nat.add_mod_left, ← Nat.add_assoc src,
                show pageNo va + (k / PAGESIZE).succ = pageNo va + 1 + k / PAGESIZE by omega, this]
              exact hm _ (by rw [Nat.add_assoc]; exact hne _ hj)
            · rw [hp]
              rw [Nat.add_assoc]
              exact hso q (hsub hq) _ (by rw [Nat.add_mul, Nat.one_mul]; omega)
            · rw [hp, hp] at he
              exact hin' p q (hsub h1) (hsub h2) he

end

end BareMetal
