import BareMetal.Virt.Proof.Kinds
import BareMetal.Virt.Proof.Unmap
import BareMetal.Virt.Sv32

/-!
# What `unmap` does, operation by operation

`wp_unmap` speaks of pages that the owner of a table owns. Here the pages may be anyone's:
`unmap_ends` gives the run of `unmap` on any table, with the entries it erases (`eraseRange`), the
frames it gives to the allocator (`userPages`), and that it touches the tables only
(`MemOp.Within`).
-/

namespace BareMetal

open Lib

/-- A call of the allocator. -/
def heapCall : MemOp → Option MemOp
  | .alloc => some .alloc
  | .dealloc f => some (.dealloc f)
  | _ => none

/-- The calls of the allocator that `p` makes, in order. -/
abbrev M.heapCalls {α : Type} (c : Cfg) (p : M α) (s : Phys) : List MemOp :=
  Free.trace (Phys.exec c) heapCall p s

/-- The operations that `p` attempts, in order. -/
abbrev M.ops {α : Type} (c : Cfg) (p : M α) (s : Phys) : List MemOp :=
  Free.trace (Phys.exec c) some p s

theorem M.Ends.ops {α : Type} {c : Cfg} {p : M α} {s s' : Phys} {tr : List (MemOp × Phys)} {a : α}
    (he : M.Ends c p s tr a s') : p.ops c s = tr.map (·.1) := by
  rw [M.ops, Free.Ends.trace he, ← List.filterMap_eq_map]
  rfl

/-- The frame to free for the entry `w`: that of a valid leaf with U set. -/
def userPage (w : Nat) : Option Nat :=
  if w % 2 = 1 ∧ Sv32.isLeaf w ∧ w / 16 % 2 = 1 then some (w / 1024 * 4096 % USIZE) else none

theorem userPage_eq_some {w f : Nat} : userPage w = some f ↔ UserPage w f := by
  unfold userPage UserPage Sv32.isLeaf
  split
  · rename_i h
    rw [Option.some.injEq]
    exact ⟨fun hf => ⟨h.1, by omega, h.2.2, hf⟩, fun hf => hf.2.2.2⟩
  · rename_i h
    simp only [reduceCtorEq, false_iff]
    intro hu
    exact h ⟨hu.1, by omega, hu.2.2.1⟩

/-- The frames of the user pages among the pages `[p, p + n)`. -/
def userPages (e : Nat → Nat) (p n : Nat) : List Nat :=
  (List.range' p n).filterMap fun q => userPage (e q)

theorem userPages_succ (e : Nat → Nat) (p n : Nat) :
    userPages e p (n + 1) = (userPage (e p)).toList ++ userPages e (p + 1) n := by
  unfold userPages
  rw [List.range'_succ, List.filterMap_cons]
  cases userPage (e p) <;> rfl

theorem userPages_congr {e e' : Nat → Nat} {p n : Nat} (h : ∀ q, InPages p n q → e' q = e q) :
    userPages e' p n = userPages e p n := by
  unfold userPages
  refine List.filterMap_congr fun q hq => ?_
  rw [h q (List.mem_range'_1.1 hq)]

/-- The entries after unmapping the pages `[p, p + n)`: the valid ones are erased. -/
def eraseRange (p n : Nat) (e : Nat → Nat) : Nat → Nat := fun q =>
  if (p ≤ q ∧ q < p + n) ∧ e q % 2 = 1 then 0 else e q

theorem eraseRange_zero (p : Nat) (e : Nat → Nat) : eraseRange p 0 e = e := by
  funext q
  exact if_neg (by omega)

theorem eraseRange_out {p n q : Nat} (h : ¬ InPages p n q) (e : Nat → Nat) :
    eraseRange p n e q = e q := if_neg fun h1 => h h1.1

theorem eraseRange_in {p n q : Nat} (h : InPages p n q) (e : Nat → Nat) :
    eraseRange p n e q % 2 = 0 := by
  unfold eraseRange
  split
  · rfl
  · rename_i hn
    have : ¬ e q % 2 = 1 := fun h1 => hn ⟨h, h1⟩
    omega

theorem eraseRange_succ (p n : Nat) (e : Nat → Nat) :
    eraseRange (p + 1) n (eraseRange p 1 e) = eraseRange p (n + 1) e := by
  funext q
  by_cases hq : q = p
  · subst hq
    rw [eraseRange_out (by unfold InPages; omega)]
    unfold eraseRange
    by_cases h1 : e q % 2 = 1
    · rw [if_pos ⟨by omega, h1⟩, if_pos ⟨by omega, h1⟩]
    · rw [if_neg fun h => h1 h.2, if_neg fun h => h1 h.2]
  · unfold eraseRange
    rw [if_neg (by omega : ¬ ((p ≤ q ∧ q < p + 1) ∧ e q % 2 = 1))]
    by_cases h1 : (p + 1 ≤ q ∧ q < p + 1 + n) ∧ e q % 2 = 1
    · rw [if_pos h1, if_pos ⟨by omega, h1.2⟩]
    · rw [if_neg h1, if_neg fun h2 => h1 ⟨by omega, h2.2⟩]

/-- The operation reads and writes words of the tables only, and allocates nothing. -/
def MemOp.Within (root : Nat) (tab : Nat → Option Nat) : MemOp → Prop
  | .read a => Tree.Has root tab (pageOf a)
  | .write a _ => Tree.Has root tab (pageOf a)
  | .dealloc _ => True
  | _ => False

/-- A run `tr` from `s` to `s'` that unmapped the pages `[p, p + n)` and freed the frames `l`. -/
structure Erased (c : Cfg) (own : Finset Nat) (root : Nat) (tab : Nat → Option Nat) (p n : Nat)
    (s : Phys) (tr : List (MemOp × Phys)) (s' : Phys) (l : List Nat) : Prop where
  tree : Tree c ⟨own, s'.mem⟩ root tab
  entries : pte s'.mem tab = eraseRange p n (pte s.mem tab)
  mem : ∀ a, ¬ Tree.Has root tab (pageOf a) → s'.mem a = s.mem a
  calls : tr.filterMap (fun x => heapCall x.1) = l.map .dealloc
  within : ∀ x ∈ tr, x.1.Within root tab

/-! ## Single operations -/

namespace M

variable {c : Cfg} {s : Phys}

theorem read_ends {a : Nat} (h : Readable a 4) :
    M.Ends c (read a) s [(.read a, s)] (s.mem.word a) s :=
  .op (by simp only [Phys.exec, if_pos h]) (.ret _ _)

theorem write_ends {a x : Nat} (h : c.Writable a 4) :
    M.Ends c (write a x) s [(.write a x, s)] () { s with mem := s.mem.setWord a x } :=
  .op (by simp only [Phys.exec, if_pos h]) (.ret _ _)

/-- An operation that faults. -/
theorem perform_error {o : MemOp} {e : String} (h : Phys.exec c o s = .error e) :
    (perform o).run c s = .error e := by
  show Free.run (Phys.exec c) (.op o .ret) s = _
  rw [Free.run_op, h]

theorem writeBytes_ends {a n : Nat} {b : UInt8} (h : c.Writable a n) :
    M.Ends c (writeBytes a b n) s [(.writeBytes a b n, s)] () { s with mem := s.mem.fill a b n } :=
  .op (by simp only [Phys.exec, if_pos h]) (.ret _ _)

theorem copy_ends {src dst n : Nat} (h : Readable src n) (h' : c.Writable dst n) :
    M.Ends c (copyNonoverlapping src dst n) s [(.copy src dst n, s)] ()
      { s with mem := s.mem.copy src dst n } :=
  .op (by simp only [Phys.exec, if_pos (And.intro h h')]) (.ret _ _)

theorem dealloc_ends {f : Nat} (h : f ≠ 0) :
    M.Ends c (dealloc f) s [(.dealloc f, s)] () (s.dealloc f) :=
  .op (by simp only [Phys.exec, if_neg h]) (.ret _ _)

theorem add_ends {a b : Nat} (h : a + b < USIZE) : M.Ends c (add a b) s [] (a + b) s := by
  unfold add
  rw [if_pos h]
  exact .ret _ _

theorem sub_ends {a b : Nat} (h : b ≤ a) : M.Ends c (sub a b) s [] (a - b) s := by
  unfold sub
  rw [if_pos h]
  exact .ret _ _

end M

section
variable {c : Cfg} {own : Finset Nat} {root : Nat} {tab : Nat → Option Nat} {s : Phys}

theorem Tree.slot_frame (h : Tree c ⟨own, s.mem⟩ root tab) {p a : Nat} (hs : slot tab p = some a) :
    Readable a 4 ∧ c.Writable a 4 ∧ Tree.Has root tab (pageOf a) := by
  obtain ⟨ht, ho⟩ := h.slot_page hs
  have hf := h.frame ht
  exact ⟨hf.readable rfl ho.2, hf.writable rfl ho.2, .inr ⟨_, ht⟩⟩

/-- `walk(Walk)` reads the root entry. -/
theorem walk_ends (h : Tree c ⟨own, s.mem⟩ root tab) {va : Nat} (hva : va < USIZE) :
    M.Ends c (PageTable.walk ⟨root⟩ va .Walk) s [(.read (root + 4 * (pageNo va / 1024)), s)]
      (slot tab (pageNo va)) s := by
  have hi := pageNo_lt hva
  have hd : s.mem.word (root + 4 * (pageNo va / 1024)) = dirWord (tab (pageNo va / 1024)) :=
    h.dir _ hi
  have hr := M.read_ends (c := c) (s := s) (h.root_frame.entry_readable hi)
  rw [hd] at hr
  unfold PageTable.walk
  simp only [VA.vpn, vpn1_eq hva, vpn0_eq]
  refine hr.last ?_
  cases ht : tab (pageNo va / 1024) with
  | none =>
    simp only [dirWord, PageTable.walkNext, zero_decode, slot, ht, Option.map_none]
    exact .ret _ _
  | some t =>
    obtain ⟨hv, htb, -⟩ := ptrWord_decode (h.frame ht).aligned
    simp only [PageTable.walkNext, dirWord, hv, htb, ↓reduceIte, nonNull,
      if_neg (h.frame ht).ne_zero, slot, ht]
    exact .ret _ _

/-- The frames that unmapping the page with entry `w` frees. -/
def freedPage (free : Bool) (w : Nat) : Option Nat := if free then userPage w else none

/-- An entry that is not valid is left as it is. -/
theorem eraseRange_one_even {p : Nat} {e : Nat → Nat} (h : ¬ e p % 2 = 1) :
    eraseRange p 1 e = e := by
  funext q
  refine if_neg ?_
  rintro ⟨hq, h1⟩
  rw [show q = p by omega] at h1
  exact h h1

theorem eraseRange_one_odd {p : Nat} {e : Nat → Nat} (h : e p % 2 = 1) (q : Nat) :
    eraseRange p 1 e q = if q = p then 0 else e q := by
  unfold eraseRange
  by_cases hq : q = p
  · rw [if_pos hq, if_pos ⟨by omega, by rw [hq]; exact h⟩]
  · rw [if_neg hq, if_neg (by omega)]

/-- The condition for freeing in `unmap`. -/
theorem freedPage_some (free : Bool) {w : Nat} (hw : w < USIZE) (hv : w % 2 = 1) :
    freedPage free w = if (free && ((Pte.fromUsize w).r || (Pte.fromUsize w).w ||
      (Pte.fromUsize w).x)) && (Pte.fromUsize w).u then some (Pte.fromUsize w).table else none := by
  rw [Pte.table_eq hw, Pte.r_eq, Pte.w_eq, Pte.x_eq, Pte.u_eq]
  unfold freedPage userPage Sv32.isLeaf
  cases free with
  | false => rfl
  | true =>
    by_cases h : w / 2 % 8 ≠ 0 ∧ w / 16 % 2 = 1
    · rw [if_pos rfl, if_pos ⟨hv, h⟩, if_pos]
      simp only [Bool.true_and, Bool.and_eq_true, Bool.or_eq_true, decide_eq_true_eq]
      omega
    · rw [if_pos rfl, if_neg fun h1 => h h1.2, if_neg]
      simp only [Bool.true_and, Bool.and_eq_true, Bool.or_eq_true, decide_eq_true_eq]
      omega

/-- Clearing the entry at `a`. -/
theorem erase_ends (h : Tree c ⟨own, s.mem⟩ root tab) {p a : Nat} (hs : slot tab p = some a)
    (hv : pte s.mem tab p % 2 = 1) (s₀ : Phys) (hm : s₀.mem = s.mem) :
    ∃ tr s', M.Ends c (M.write a 0) s₀ tr () s' ∧ Erased c own root tab p 1 s tr s' [] := by
  obtain ⟨-, hw, ht⟩ := h.slot_frame hs
  refine ⟨_, _, M.write_ends hw, ?_, ?_, ?_, rfl, ?_⟩
  · rw [hm]
    exact h.setWord hs
  · funext q
    rw [hm, eraseRange_one_odd hv]
    exact h.pte_setWord hs (by omega) q
  · intro b hb
    rw [hm]
    refine Bytes.setWord_ne ((h.slot_page hs).2.out ?_)
    intro he
    exact hb (he ▸ ht)
  · intro x hx
    rw [List.mem_singleton.1 hx]
    exact ht

/-- Reads of the tables, and frees, before the rest. -/
theorem Erased.after {p n : Nat} {tr : List (MemOp × Phys)} {s' : Phys} {l : List Nat}
    (h : Erased c own root tab p n s tr s' l) {tr₀ : List (MemOp × Phys)} (l₀ : List Nat)
    (hc : tr₀.filterMap (fun x => heapCall x.1) = l₀.map .dealloc)
    (hw : ∀ x ∈ tr₀, x.1.Within root tab) :
    Erased c own root tab p n s (tr₀ ++ tr) s' (l₀ ++ l) where
  tree := h.tree
  entries := h.entries
  mem := h.mem
  calls := by rw [List.filterMap_append, hc, h.calls, List.map_append]
  within x hx := (List.mem_append.1 hx).elim (hw x) (h.within x)

/-- A page that has no valid entry. -/
theorem Erased.nothing (h : Tree c ⟨own, s.mem⟩ root tab) {p : Nat} (h0 : ¬ pte s.mem tab p % 2 = 1) :
    Erased c own root tab p 1 s [] s [] where
  tree := h
  entries := (eraseRange_one_even h0).symm
  mem _ _ := rfl
  calls := rfl
  within _ hx := (List.not_mem_nil hx).elim

theorem freedPage_even {free : Bool} {w : Nat} (h : ¬ w % 2 = 1) : freedPage free w = none := by
  have hn : userPage w = none := if_neg fun h1 => h h1.1
  unfold freedPage
  rw [hn, ite_self]

theorem unmapPage_ends (h : Tree c ⟨own, s.mem⟩ root tab) {va : Nat} (hva : va < USIZE)
    {free : Bool} (h0 : freedPage free (pte s.mem tab (pageNo va)) ≠ some 0) :
    ∃ tr s', M.Ends c (PageTable.unmapPage ⟨root⟩ free va) s tr () s' ∧
      Erased c own root tab (pageNo va) 1 s tr s'
        (freedPage free (pte s.mem tab (pageNo va))).toList := by
  generalize hp : pageNo va = p at *
  have hwalk := walk_ends h hva
  have hroot : ∀ x ∈ [(MemOp.read (root + 4 * (p / 1024)), s)], x.1.Within root tab := by
    intro x hx
    rw [List.mem_singleton.1 hx]
    have hi := pageNo_lt hva
    rw [hp] at hi
    have hpg := entry_page h.root_frame.page hi (k := 0) (by omega)
    rw [Nat.add_zero] at hpg
    exact .inl hpg
  rw [hp] at hwalk
  unfold PageTable.unmapPage
  cases hs : slot tab p with
  | none =>
    rw [hs] at hwalk
    have hn : pte s.mem tab p = 0 := by
      rw [slot, Option.map_eq_none_iff] at hs
      rw [pte, hs]
    have h1 : ¬ pte s.mem tab p % 2 = 1 := by rw [hn]; decide
    rw [freedPage_even h1]
    exact ⟨_, s, hwalk.last (.ret _ _), by simpa using (Erased.nothing h h1).after [] rfl hroot⟩
  | some a =>
    rw [hs] at hwalk
    obtain ⟨hra, hwa, hta⟩ := h.slot_frame hs
    have hread := M.read_ends (c := c) (s := s) hra
    rw [slot_word hs] at hread
    have hlt : pte s.mem tab p < USIZE := Tree.pte_lt ⟨own, s.mem⟩ tab p
    have hslot : ∀ x ∈ [(MemOp.read a, s)], x.1.Within root tab := by
      intro x hx
      rw [List.mem_singleton.1 hx]
      exact hta
    have hv := Pte.v_eq (w := pte s.mem tab p)
    have hreads : ∀ {tr s' l}, Erased c own root tab p 1 s tr s' l →
        Erased c own root tab p 1 s ([(.read (root + 4 * (p / 1024)), s)] ++
          ([(.read a, s)] ++ tr)) s' l :=
      fun {tr s' l} hx => (hx.after [] rfl hslot).after [] rfl hroot
    by_cases h1 : pte s.mem tab p % 2 = 1
    · rw [decide_eq_true h1] at hv
      have hfp := freedPage_some free hlt h1
      split at hfp
      · rename_i hc
        rw [hfp] at h0 ⊢
        generalize hf : (Pte.fromUsize (pte s.mem tab p)).table = f at *
        have hne : f ≠ 0 := fun he => h0 (by rw [he])
        obtain ⟨tr, s', he, hx⟩ := erase_ends h hs h1 (s.dealloc f) rfl
        have hfree : Erased c own root tab p 1 s ([(.dealloc f, s)] ++ tr) s' [f] := by
          refine hx.after [f] rfl fun x hx => ?_
          rw [List.mem_singleton.1 hx]
          trivial
        refine ⟨_, s', ?_, hreads hfree⟩
        refine hwalk.seq (hread.seq ?_)
        rw [if_pos hv, hf, if_pos hc]
        exact (M.dealloc_ends hne).seq he
      · rename_i hc
        rw [hfp]
        obtain ⟨tr, s', he, hx⟩ := erase_ends h hs h1 s rfl
        refine ⟨_, s', ?_, hreads hx⟩
        refine hwalk.seq (hread.seq ?_)
        rw [if_pos hv, if_neg hc]
        exact he
    · rw [decide_eq_false h1] at hv
      rw [freedPage_even h1]
      refine ⟨_, s, ?_, hreads (.nothing h h1)⟩
      refine hwalk.seq (hread.seq ?_)
      rw [if_neg (by rw [hv]; decide)]
      exact .ret _ _

/-- Freeing page 0 is freeing a null pointer. -/
theorem unmapPage_null (h : Tree c ⟨own, s.mem⟩ root tab) {va : Nat} (hva : va < USIZE)
    {free : Bool} (h0 : freedPage free (pte s.mem tab (pageNo va)) = some 0) :
    ∃ e, (PageTable.unmapPage ⟨root⟩ free va).run c s = .error e := by
  have hv : pte s.mem tab (pageNo va) % 2 = 1 := by
    by_contra h1
    rw [freedPage_even h1] at h0
    cases h0
  have hlt : pte s.mem tab (pageNo va) < USIZE := Tree.pte_lt ⟨own, s.mem⟩ tab _
  have hfp := freedPage_some free hlt hv
  rw [h0] at hfp
  split at hfp
  · rename_i hc
    have hwalk := (walk_ends h hva).run
    cases hs : slot tab (pageNo va) with
    | none =>
      rw [slot, Option.map_eq_none_iff] at hs
      rw [pte, hs] at hv
      cases hv
    | some a =>
      have hread := (M.read_ends (c := c) (s := s) (h.slot_frame hs).1).run
      rw [slot_word hs] at hread
      rw [hs] at hwalk
      refine ⟨"called `Option::unwrap()` on a `None` value", ?_⟩
      unfold PageTable.unmapPage M.run
      simp only [Free.run_bind, hwalk, hread]
      rw [if_pos (by rw [Pte.v_eq, decide_eq_true hv]), if_pos hc, ← Option.some.inj hfp]
      rfl
  · cases hfp

/-- Unmapping a page, then the pages after it. -/
theorem Erased.trans {p n : Nat} {s₁ s₂ : Phys} {tr₁ tr₂ : List (MemOp × Phys)} {l₁ l₂ : List Nat}
    (h₁ : Erased c own root tab p 1 s tr₁ s₁ l₁)
    (h₂ : Erased c own root tab (p + 1) n s₁ tr₂ s₂ l₂) :
    Erased c own root tab p (n + 1) s (tr₁ ++ tr₂) s₂ (l₁ ++ l₂) where
  tree := h₂.tree
  entries := by rw [h₂.entries, h₁.entries, eraseRange_succ]
  mem a ha := (h₂.mem a ha).trans (h₁.mem a ha)
  calls := by rw [List.filterMap_append, h₁.calls, h₂.calls, List.map_append]
  within x hx := (List.mem_append.1 hx).elim (h₁.within x) (h₂.within x)

/-- The frames that unmapping the pages `[p, p + n)` frees. -/
def freedPages (free : Bool) (e : Nat → Nat) (p n : Nat) : List Nat :=
  if free then userPages e p n else []

theorem freedPages_succ (free : Bool) (e : Nat → Nat) (p n : Nat) :
    freedPages free e p (n + 1) =
      (freedPage free (e p)).toList ++ freedPages free (eraseRange p 1 e) (p + 1) n := by
  have hcongr : userPages (eraseRange p 1 e) (p + 1) n = userPages e (p + 1) n := by
    refine userPages_congr fun q hq => eraseRange_out ?_ e
    unfold InPages at *
    omega
  unfold freedPages freedPage
  cases free with
  | false => rfl
  | true =>
    rw [if_pos rfl, if_pos rfl, if_pos rfl, hcongr]
    exact userPages_succ e p n

theorem unmapLoop_ends {free : Bool} (n : Nat) : ∀ {s : Phys} {va : Nat},
    Tree c ⟨own, s.mem⟩ root tab → va % PAGESIZE = 0 → va + n * PAGESIZE < USIZE →
    0 ∉ freedPages free (pte s.mem tab) (pageNo va) n →
    ∃ tr s', M.Ends c (PageTable.unmapLoop ⟨root⟩ free n va) s tr () s' ∧
      Erased c own root tab (pageNo va) n s tr s'
        (freedPages free (pte s.mem tab) (pageNo va) n) := by
  induction n with
  | zero =>
    intro s va h _ _ _
    have hl : freedPages free (pte s.mem tab) (pageNo va) 0 = [] := by
      unfold freedPages
      exact ite_self _
    rw [hl]
    exact ⟨[], s, .ret _ _, h, (eraseRange_zero ..).symm, fun _ _ => rfl, rfl,
      fun _ hx => (List.not_mem_nil hx).elim⟩
  | succ n ih =>
    intro s va h hva hlt h0
    have hsz := PAGESIZE_eq
    rw [hsz] at hlt
    have hpn : pageNo (va + PAGESIZE) = pageNo va + 1 := by
      unfold pageNo
      rw [hsz]
      omega
    rw [freedPages_succ, List.mem_append, not_or] at h0
    have hva' : va < USIZE := by omega
    obtain ⟨tr₁, s₁, he₁, hx₁⟩ := unmapPage_ends h hva' fun hf => h0.1 (by rw [hf]; simp)
    have hent := hx₁.entries
    obtain ⟨tr₂, s₂, he₂, hx₂⟩ := @ih s₁ (va + PAGESIZE) hx₁.tree
      (by rw [Nat.add_mod_right, hva]) (by rw [hsz]; omega) (by rw [hpn, hent]; exact h0.2)
    rw [hpn, hent] at hx₂
    refine ⟨_, s₂, ?_, by rw [freedPages_succ]; exact hx₁.trans hx₂⟩
    have hadd : va + PAGESIZE < USIZE := by rw [hsz]; omega
    exact he₁.seq ((M.add_ends hadd).seq he₂)

/-- **`unmap`** of whole pages, none of them a user page at frame 0. -/
theorem unmap_ends {virt size : Nat} {free : Bool} (h : Tree c ⟨own, s.mem⟩ root tab)
    (hs : size % PAGESIZE = 0) (hv : virt % PAGESIZE = 0) (hve : virt + size < USIZE)
    (h0 : 0 ∉ freedPages free (pte s.mem tab) (pageNo virt) (size / PAGESIZE)) :
    ∃ tr s', M.Ends c (PageTable.unmap ⟨root⟩ virt size free) s tr (.ok ()) s' ∧
      Erased c own root tab (pageNo virt) (size / PAGESIZE) s tr s'
        (freedPages free (pte s.mem tab) (pageNo virt) (size / PAGESIZE)) := by
  have hd : size / PAGESIZE * PAGESIZE = size := Nat.div_mul_cancel (Nat.dvd_of_mod_eq_zero hs)
  obtain ⟨tr, s', he, hx⟩ := unmapLoop_ends (size / PAGESIZE) h hv (by rwa [hd]) h0
  refine ⟨tr, s', ?_, hx⟩
  unfold PageTable.unmap
  rw [if_neg (by omega)]
  exact he.last (.ret _ _)

theorem unmapLoop_null {free : Bool} (n : Nat) : ∀ {s : Phys} {va : Nat},
    Tree c ⟨own, s.mem⟩ root tab → va % PAGESIZE = 0 → va + n * PAGESIZE < USIZE →
    0 ∈ freedPages free (pte s.mem tab) (pageNo va) n →
    ∃ e, (PageTable.unmapLoop ⟨root⟩ free n va).run c s = .error e := by
  induction n with
  | zero =>
    intro s va _ _ _ h0
    unfold freedPages at h0
    rw [show userPages (pte s.mem tab) (pageNo va) 0 = [] from rfl, ite_self] at h0
    exact absurd h0 List.not_mem_nil
  | succ n ih =>
    intro s va h hva hlt h0
    have hsz := PAGESIZE_eq
    rw [hsz] at hlt
    have hva' : va < USIZE := by omega
    have hpn : pageNo (va + PAGESIZE) = pageNo va + 1 := by
      unfold pageNo
      rw [hsz]
      omega
    unfold PageTable.unmapLoop M.run
    by_cases hf : freedPage free (pte s.mem tab (pageNo va)) = some 0
    · obtain ⟨e, he⟩ := unmapPage_null h hva' hf
      refine ⟨e, ?_⟩
      rw [Free.run_bind, show Free.run (Phys.exec c) _ s = .error e from he]
    · obtain ⟨tr₁, s₁, he₁, hx₁⟩ := unmapPage_ends h hva' hf
      have hadd : va + PAGESIZE < USIZE := by rw [hsz]; omega
      rw [freedPages_succ, List.mem_append] at h0
      have h0' := h0.resolve_left fun hm => hf (by simpa using hm)
      rw [← hx₁.entries, ← hpn] at h0'
      obtain ⟨e, he⟩ := ih hx₁.tree (by rw [Nat.add_mod_right, hva]) (by rw [hsz]; omega) h0'
      refine ⟨e, ?_⟩
      rw [Free.run_bind, he₁.run]
      dsimp only
      rw [Free.run_bind, (M.add_ends hadd).run]
      exact he

/-- A user page at frame 0: `dealloc` unwraps the null pointer. -/
theorem unmap_null {virt size : Nat} {free : Bool} (h : Tree c ⟨own, s.mem⟩ root tab)
    (hs : size % PAGESIZE = 0) (hv : virt % PAGESIZE = 0) (hve : virt + size < USIZE)
    (h0 : 0 ∈ freedPages free (pte s.mem tab) (pageNo virt) (size / PAGESIZE)) :
    ∃ e, (PageTable.unmap ⟨root⟩ virt size free).run c s = .error e := by
  have hd : size / PAGESIZE * PAGESIZE = size := Nat.div_mul_cancel (Nat.dvd_of_mod_eq_zero hs)
  obtain ⟨e, he⟩ := unmapLoop_null (size / PAGESIZE) h hv (by rwa [hd]) h0
  refine ⟨e, ?_⟩
  unfold PageTable.unmap M.run
  rw [if_neg (by omega), Free.run_bind, show Free.run (Phys.exec c) _ s = .error e from he]

theorem unmapLoop_tree {free : Bool} (n : Nat) : ∀ {s s' : Phys} {va : Nat} {r : Unit},
    Tree c ⟨own, s.mem⟩ root tab → va < USIZE →
    (PageTable.unmapLoop ⟨root⟩ free n va).run c s = .ok (r, s') →
    Tree c ⟨own, s'.mem⟩ root tab := by
  induction n with
  | zero =>
    intro s s' va r h _ hr
    cases hr
    exact h
  | succ n ih =>
    intro s s' va r h hva hr
    unfold PageTable.unmapLoop M.run at hr
    rw [Free.run_bind] at hr
    by_cases hf : freedPage free (pte s.mem tab (pageNo va)) = some 0
    · obtain ⟨e, he⟩ := unmapPage_null h hva hf
      rw [show Free.run (Phys.exec c) _ s = .error e from he] at hr
      cases hr
    · obtain ⟨tr, s₁, he, hx⟩ := unmapPage_ends h hva hf
      rw [he.run] at hr
      dsimp only at hr
      by_cases hlt : va + PAGESIZE < USIZE
      · rw [Free.run_bind, (M.add_ends hlt).run] at hr
        exact ih hx.tree hlt hr
      · unfold M.add at hr
        rw [if_neg hlt] at hr
        cases hr

/-- `unmap` with any arguments keeps a tree. -/
theorem unmap_tree {s' : Phys} {virt size : Nat} {free : Bool} {r : Except Unit Unit}
    (h : Tree c ⟨own, s.mem⟩ root tab) (hv : virt < USIZE)
    (hr : (PageTable.unmap ⟨root⟩ virt size free).run c s = .ok (r, s')) :
    Tree c ⟨own, s'.mem⟩ root tab := by
  unfold PageTable.unmap M.run at hr
  split at hr
  · cases hr
    exact h
  · rw [Free.run_bind] at hr
    cases hl : Free.run (Phys.exec c) (PageTable.unmapLoop ⟨root⟩ free (size / PAGESIZE) virt) s with
    | error e =>
      rw [hl] at hr
      cases hr
    | ok q =>
      rw [hl] at hr
      cases hr
      exact unmapLoop_tree _ h hv hl

end

end BareMetal
