import BareMetal.Phys.Logic
import BareMetal.Virt.PageTable
import BareMetal.Virt.Proof.Pte

/-!
# The shape of a page table

`Tree c v root tab`: in the view `v`, `root` is the root of a page table whose `i`-th entry leads
to the second-level table `tab i`; all tables are distinct frames the party owns. `pte m tab p` is
the entry of virtual page `p`: what `walk` and a read find.

Two relations say what the operations on a table do: `Grown`, tables were added and nothing else
changed outside the tables; `Frame.Only`, memory changed on given frames only.
-/

namespace BareMetal

open Lib

/-- Root entry for an optional second-level table. -/
def dirWord : Option Nat → Nat
  | none => 0
  | some t => ptrWord t

structure Tree (c : Cfg) (v : View) (root : Nat) (tab : Nat → Option Nat) : Prop where
  root_frame : c.IsFrame root
  root_own : root ∈ v.own
  dir : ∀ i < 1024, v.mem.word (root + 4 * i) = dirWord (tab i)
  lt : ∀ {i t}, tab i = some t → i < 1024
  frame : ∀ {i t}, tab i = some t → c.IsFrame t
  own : ∀ {i t}, tab i = some t → t ∈ v.own
  ne_root : ∀ {i t}, tab i = some t → t ≠ root
  inj : ∀ {i j t}, tab i = some t → tab j = some t → i = j

/-- The second-level entry of virtual page `p`. -/
def pte (m : Bytes) (tab : Nat → Option Nat) (p : Nat) : Nat :=
  match tab (p / 1024) with
  | none => 0
  | some t => m.word (t + 4 * (p % 1024))

/-- Where the entry of virtual page `p` is. -/
def slot (tab : Nat → Option Nat) (p : Nat) : Option Nat :=
  (tab (p / 1024)).map (· + 4 * (p % 1024))

/-- Virtual page number of an address. -/
def pageNo (va : Nat) : Nat := va / PAGESIZE

theorem Cfg.IsFrame.aligned {c : Cfg} {f : Nat} (h : c.IsFrame f) : Aligned f :=
  ⟨h.page, by have := h.bound; unfold USIZE; omega⟩

theorem Cfg.IsFrame.ne_zero {c : Cfg} {f : Nat} (h : c.IsFrame f) : f ≠ 0 := by
  have := h.bound; omega

/-- An entry of a table lies in the table's page. -/
theorem entry_page {f i : Nat} (hf : f % PAGESIZE = 0) (hi : i < 1024) {k : Nat} (hk : k < 4) :
    pageOf (f + 4 * i + k) = f :=
  pageOf_eq_of hf (by unfold PAGESIZE; omega)

theorem entry_fit {f i : Nat} (hf : f % PAGESIZE = 0) :
    (f + 4 * i) % PAGESIZE + 4 ≤ PAGESIZE := by
  unfold PAGESIZE at *; omega

theorem Cfg.IsFrame.entry_readable {c : Cfg} {f i : Nat} (hf : c.IsFrame f) (hi : i < 1024) :
    Readable (f + 4 * i) 4 :=
  hf.readable (entry_page hf.page hi (k := 0) (by omega)) (entry_fit hf.page)

/-- A word within a page is unchanged when the page is. -/
theorem word_entry_congr {m m' : Bytes} {f i : Nat} (hf : f % PAGESIZE = 0) (hi : i < 1024)
    (h : ∀ a, pageOf a = f → m' a = m a) : m'.word (f + 4 * i) = m.word (f + 4 * i) :=
  Bytes.word_congr fun _ hk => h _ (entry_page hf hi hk)

namespace Tree

variable {c : Cfg} {v v' : View} {root : Nat} {tab : Nat → Option Nat}

/-- The frames of a table. -/
def Has (root : Nat) (tab : Nat → Option Nat) (f : Nat) : Prop := f = root ∨ ∃ i, tab i = some f

theorem has_own (h : Tree c v root tab) {f : Nat} (hf : Has root tab f) : f ∈ v.own := by
  rcases hf with rfl | ⟨i, hi⟩
  · exact h.root_own
  · exact h.own hi

/-- A root without entries has no second-level table. -/
theorem bare_iff (h : Tree c v root tab) :
    (∀ i < 1024, v.mem.word (root + 4 * i) = 0) ↔ ∀ i, tab i = none := by
  constructor
  · intro hz i
    cases ht : tab i with
    | none => rfl
    | some t =>
      have h1 := h.dir i (h.lt ht)
      rw [ht, dirWord, ptrWord] at h1
      have := h1.symm.trans (hz i (h.lt ht))
      omega
  · intro hn i hi
    rw [h.dir i hi, hn]
    rfl

theorem frame_of (h : Tree c v root tab) {f : Nat} (hf : Has root tab f) : c.IsFrame f := by
  rcases hf with rfl | ⟨i, hi⟩
  · exact h.root_frame
  · exact h.frame hi

/-- A tree depends on its own frames only. -/
theorem congr (h : Tree c v root tab) (ho : ∀ f, Has root tab f → f ∈ v'.own)
    (hm : ∀ a, Has root tab (pageOf a) → v'.mem a = v.mem a) : Tree c v' root tab where
  root_frame := h.root_frame
  root_own := ho _ (.inl rfl)
  dir i hi := by
    rw [word_entry_congr h.root_frame.page hi fun a ha => hm a (.inl ha)]
    exact h.dir i hi
  lt := h.lt
  frame := h.frame
  own hi := ho _ (.inr ⟨_, hi⟩)
  ne_root := h.ne_root
  inj := h.inj

theorem pte_congr (h : Tree c v root tab) {m : Bytes}
    (hm : ∀ a, Has root tab (pageOf a) → m a = v.mem a) (p : Nat) :
    pte m tab p = pte v.mem tab p := by
  unfold pte
  split
  · rfl
  · rename_i t ht
    exact word_entry_congr (h.frame ht).page (by omega) fun a ha => hm a (.inr ⟨_, ha ▸ ht⟩)

theorem pte_lt (v : View) (tab : Nat → Option Nat) (p : Nat) : pte v.mem tab p < 2 ^ 32 := by
  unfold pte
  split
  · omega
  · exact Bytes.word_lt _ _

/-- No entry lies beyond the address space. -/
theorem pte_ge (h : Tree c v root tab) {p : Nat} (hp : 2 ^ 20 ≤ p) : pte v.mem tab p = 0 := by
  unfold pte
  split
  · rfl
  · rename_i t ht
    have := h.lt ht
    omega

/-- Distinct pages have distinct entries. -/
theorem slot_inj (h : Tree c v root tab) {p q a : Nat} (hp : slot tab p = some a)
    (hq : slot tab q = some a) : p = q := by
  simp only [slot, Option.map_eq_some_iff] at hp hq
  obtain ⟨t, ht, rfl⟩ := hp
  obtain ⟨u, hu, he⟩ := hq
  have h1 := (h.frame ht).page
  have h2 := (h.frame hu).page
  unfold PAGESIZE at h1 h2
  obtain rfl : u = t := by omega
  have := h.inj ht hu
  omega

/-- The entries after a write to one of them. -/
theorem pte_setWord (h : Tree c v root tab) {p a w : Nat} (hp : slot tab p = some a)
    (hw : w < 2 ^ 32) (q : Nat) :
    pte (v.mem.setWord a w) tab q = if q = p then w else pte v.mem tab q := by
  have hp' := hp
  simp only [slot, Option.map_eq_some_iff] at hp
  obtain ⟨t, ht, rfl⟩ := hp
  by_cases hqp : q = p
  · subst hqp
    simp only [pte, ht, ↓reduceIte]
    exact Bytes.word_setWord hw
  · rw [if_neg hqp]
    unfold pte
    split
    · rfl
    · rename_i u hu
      have hne : u + 4 * (q % 1024) ≠ t + 4 * (p % 1024) := fun he =>
        hqp (h.slot_inj (by rw [slot, hu, Option.map_some, he]) hp')
      have h1 := (h.frame ht).page
      have h2 := (h.frame hu).page
      unfold PAGESIZE at h1 h2
      exact Bytes.word_setWord_ne (by omega)

/-- Writing an entry keeps the tree. -/
theorem setWord (h : Tree c v root tab) {p a w : Nat} (hp : slot tab p = some a) :
    Tree c { v with mem := v.mem.setWord a w } root tab := by
  simp only [slot, Option.map_eq_some_iff] at hp
  obtain ⟨t, ht, rfl⟩ := hp
  refine ⟨h.root_frame, h.root_own, fun i hi => ?_, h.lt, h.frame, h.own, h.ne_root, h.inj⟩
  rw [← h.dir i hi]
  have h1 := (h.frame ht).page
  have h2 := h.root_frame.page
  have h3 := h.ne_root ht
  unfold PAGESIZE at h1 h2
  exact Bytes.word_setWord_ne (by omega)

/-- The page of an entry is a table. -/
theorem slot_page (h : Tree c v root tab) {p a : Nat} (hp : slot tab p = some a) :
    tab (p / 1024) = some (pageOf a) ∧ v.Owns a 4 := by
  simp only [slot, Option.map_eq_some_iff] at hp
  obtain ⟨t, ht, rfl⟩ := hp
  have hpg := entry_page (h.frame ht).page (show p % 1024 < 1024 by omega) (k := 0) (by omega)
  rw [Nat.add_zero] at hpg
  exact ⟨by rw [ht, hpg], by rw [hpg]; exact h.own ht, entry_fit (h.frame ht).page⟩

/-- A fresh zeroed frame becomes a second-level table. -/
theorem addTable (h : Tree c v root tab) {i t : Nat} (hi : i < 1024) (hn : tab i = none)
    (hf : c.IsFrame t) (ht : t ∉ v.own) {m : Bytes}
    (hd : ∀ j < 1024, m.word (root + 4 * j) = if j = i then ptrWord t else v.mem.word (root + 4 * j)) :
    Tree c { own := insert t v.own, mem := m } root (Function.update tab i (some t)) := by
  have hcase : ∀ {j u}, Function.update tab i (some t) j = some u →
      (j = i ∧ u = t) ∨ (j ≠ i ∧ tab j = some u) := by
    intro j u hj
    by_cases hji : j = i
    · subst hji
      rw [Function.update_self] at hj
      exact .inl ⟨rfl, (Option.some.inj hj).symm⟩
    · rw [Function.update_of_ne hji] at hj
      exact .inr ⟨hji, hj⟩
  have hnt : ∀ {j u}, tab j = some u → u ≠ t := fun hj he => ht (he ▸ h.own hj)
  refine ⟨h.root_frame, Finset.mem_insert_of_mem h.root_own, fun j hj => ?_, fun hj => ?_,
    fun hj => ?_, fun hj => ?_, fun hj => ?_, fun hj hk => ?_⟩
  · rw [hd j hj]
    by_cases hji : j = i
    · subst hji
      rw [if_pos rfl, Function.update_self]
      rfl
    · rw [if_neg hji, Function.update_of_ne hji]
      exact h.dir j hj
  · rcases hcase hj with ⟨rfl, rfl⟩ | ⟨-, hj⟩
    · exact hi
    · exact h.lt hj
  · rcases hcase hj with ⟨rfl, rfl⟩ | ⟨-, hj⟩
    · exact hf
    · exact h.frame hj
  · rcases hcase hj with ⟨rfl, rfl⟩ | ⟨-, hj⟩
    · exact Finset.mem_insert_self _ _
    · exact Finset.mem_insert_of_mem (h.own hj)
  · rcases hcase hj with ⟨rfl, rfl⟩ | ⟨-, hj⟩
    · exact fun he => ht (he ▸ h.root_own)
    · exact h.ne_root hj
  · rcases hcase hj with ⟨rfl, rfl⟩ | ⟨_, hj'⟩ <;> rcases hcase hk with ⟨rfl, hu⟩ | ⟨_, hk'⟩
    · rfl
    · exact absurd rfl (hnt hk')
    · exact absurd hu (hnt hj')
    · exact h.inj hj' hk'

end Tree

end BareMetal
