import BareMetal.Virt.Proof.CopyIn

/-!
# Copying out

`copy_out` and `copy_out_cont` translate their first address and go on through physical memory.
`copyOut_lands_iff` says for which ranges the bytes land where the address space has them, and
nowhere else.
-/

namespace BareMetal

open Lib

section
variable {c : Cfg} {s : Phys}

/-- `data` placed at `a`. -/
def putAll (m : Bytes) (a : Nat) (data : List UInt8) : Bytes :=
  m.setBytes a data.length fun i => data.getD i 0

theorem putAll_cons (m : Bytes) (a : Nat) (b : UInt8) (data : List UInt8) :
    putAll (m.setByte a b) (a + 1) data = putAll m a (b :: data) := by
  funext x
  unfold putAll Bytes.setBytes Bytes.setByte
  rw [List.length_cons]
  by_cases h0 : x = a
  · subst h0
    rw [if_neg (by omega), if_pos rfl, if_pos (by omega), Nat.sub_self]
    rfl
  · by_cases h1 : a + 1 ≤ x ∧ x < a + 1 + data.length
    · rw [if_pos h1, if_pos (by omega), show x - a = x - (a + 1) + 1 by omega]
      rfl
    · rw [if_neg h1, if_neg h0, if_neg (by omega)]

theorem putAll_nil (m : Bytes) (a : Nat) : putAll m a [] = m := by
  funext x
  exact Bytes.setBytes_ne (by rw [List.length_nil]; omega)

theorem putAll_at {m : Bytes} {a i : Nat} {data : List UInt8} (hi : i < data.length) :
    data[i]? = some (putAll m a data (a + i)) := by
  unfold putAll
  rw [Bytes.setBytes_at hi, List.getD_eq_getElem?_getD, List.getElem?_eq_getElem hi]
  rfl

theorem putAll_ne {m : Bytes} {a x : Nat} {data : List UInt8}
    (h : ∀ i < data.length, x ≠ a + i) : putAll m a data x = m x := by
  refine Bytes.setBytes_ne ?_
  by_contra hx
  exact h (x - a) (by omega) (by omega)

/-- Memory that holds the bytes of a word holds the word. -/
theorem word_of_leBytes {m : Bytes} {a v : Nat} (h : ∀ j < 4, (leBytes v)[j]? = some (m (a + j))) :
    m.word a = v % 2 ^ 32 := by
  have h0 : UInt8.ofNat v = m a := Option.some.inj (h 0 (by omega))
  have h1 : UInt8.ofNat (v / 2 ^ 8) = m (a + 1) := Option.some.inj (h 1 (by omega))
  have h2 : UInt8.ofNat (v / 2 ^ 16) = m (a + 2) := Option.some.inj (h 2 (by omega))
  have h3 : UInt8.ofNat (v / 2 ^ 24) = m (a + 3) := Option.some.inj (h 3 (by omega))
  simp only [Bytes.word, ← h0, ← h1, ← h2, ← h3, UInt8.toNat_ofNat']
  omega

theorem writeByte_run {a : Nat} {b : UInt8} {α : Type} (f : Unit → M α) :
    (M.writeByte a b >>= f).run c s =
      if c.Writable a 1 then (f ()).run c { s with mem := s.mem.setByte a b }
      else .error "page fault" := by
  unfold M.run M.writeByte M.perform
  rw [Free.perform_bind, Free.run_op]
  simp only [Phys.exec]
  by_cases h : c.Writable a 1
  · rw [if_pos h, if_pos h]
  · rw [if_neg h, if_neg h]

/-- Bytes are written one by one, up to the first that the kernel may not write. -/
theorem writeAll_run (data : List UInt8) : ∀ (a : Nat) (s : Phys),
    (writeAll a data).run c s =
      if ∀ i < data.length, c.Writable (a + i) 1 then .ok ((), { s with mem := putAll s.mem a data })
      else .error "page fault" := by
  induction data with
  | nil =>
    intro a s
    have h0 : ∀ i < ([] : List UInt8).length, c.Writable (a + i) 1 := fun i hi =>
      absurd hi (Nat.not_lt_zero i)
    rw [if_pos h0, putAll_nil]
    rfl
  | cons b data ih =>
    intro a s
    unfold writeAll
    rw [writeByte_run, ih]
    dsimp only
    rw [putAll_cons]
    by_cases h0 : c.Writable a 1
    · rw [if_pos h0]
      refine if_congr ⟨fun h i hi => ?_, fun h i hi => ?_⟩ rfl rfl
      · cases i with
        | zero => exact h0
        | succ i =>
          have := h i (by rw [List.length_cons] at hi; omega)
          rwa [Nat.add_right_comm] at this
      · have := h (i + 1) (by rw [List.length_cons]; omega)
        rwa [← Nat.add_assoc, Nat.add_right_comm] at this
    · rw [if_neg h0, if_neg fun h => h0 (h 0 (by rw [List.length_cons]; omega))]

end

/-! ## In the logic -/

section
variable {E : Mode} {v : View} {u : Uvm} {tab : Nat → Option Nat}

theorem wp_writeAll (data : List UInt8) : ∀ {v : View} {a : Nat},
    (∀ i < data.length, pageOf (a + i) ∈ v.own) → ∀ {Q : Unit → View → Prop},
    Q () { v with mem := putAll v.mem a data } → M.wp E (writeAll a data) Q v := by
  induction data with
  | nil =>
    intro v a _ Q hQ
    rwa [putAll_nil] at hQ
  | cons b data ih =>
    intro v a ho Q hQ
    unfold writeAll
    rw [M.wp_bind]
    refine M.wp_writeByte ⟨ho 0 (by rw [List.length_cons]; omega), ?_⟩ (ih (fun i hi => ?_) ?_)
    · have := Nat.mod_lt a (show 0 < PAGESIZE by rw [PAGESIZE_eq]; omega)
      omega
    · have := ho (i + 1) (by rw [List.length_cons]; omega)
      rwa [Nat.add_right_comm, Nat.add_assoc]
    · rwa [putAll_cons]

/-- Where `walkaddr` leads. -/
theorem wp_walkaddr (h : Space E.cfg v u tab) {va : Nat} (hva : va < USIZE)
    {Q : Option Nat → View → Prop}
    (hnone : ¬ Sv32.isLeaf (pte v.mem tab (pageNo va)) → Q none v)
    (hsome : ∀ f perm, PermOk perm → f % PAGESIZE = 0 → Readable f PAGESIZE →
      pte v.mem tab (pageNo va) = leafWord f perm → Sv32.isLeaf (leafWord f perm) →
      Q (some (f + va % PAGESIZE)) v) :
    M.wp E (u.pagetable.walkaddr va) Q v := by
  unfold PageTable.walkaddr
  rw [M.wp_bind]
  refine wp_walk_Walk h.tree hva ?_
  cases hs : slot tab (pageNo va) with
  | none =>
    have h0 : pte v.mem tab (pageNo va) = 0 := by
      rw [slot, Option.map_eq_none_iff] at hs
      rw [pte, hs]
    rw [h0] at hnone
    exact hnone fun h => h rfl
  | some a =>
    dsimp only
    rw [M.wp_bind]
    refine wp_read_slot h.tree hs ?_
    have hleaf := h.leaf (pageNo va)
    generalize pte v.mem tab (pageNo va) = w at *
    rw [Pte.v_eq, Pte.r_eq, Pte.w_eq, Pte.x_eq, Pte.pa_eq]
    by_cases hw : w = 0
    · subst hw
      exact hnone fun h => h rfl
    · obtain ⟨f, perm, hp, hf, hr, rfl⟩ := hleaf hw
      have hodd := (hleaf hw).odd
      have hal := hr.aligned hf
      have hb := hr.2
      have hre : RAMEND = 0x84000000 := rfl
      by_cases hl : Sv32.isLeaf (leafWord f perm)
      · rw [if_neg (by unfold Sv32.isLeaf at hl; simp; omega), M.wp_bind,
          show leafWord f perm / 1024 * 4096 % USIZE = f from frameOf_leafWord hal hp]
        refine M.wp_add ?_ (hsome f perm hp hf hr rfl hl)
        rw [PAGESIZE_eq] at hb ⊢
        rw [USIZE_eq]
        omega
      · rw [if_pos (by unfold Sv32.isLeaf at hl; simp; omega)]
        exact hnone hl

end

/-! ## Where the bytes land -/

/-- `p` writes `data` at `addr` of the address space: the bytes the address space has there are
`data`, nothing else changes; and it fails, having changed nothing, when part of the range is not
mapped. -/
structure WritesUser (c : Cfg) (s : Phys) (u : Uvm) (addr : Nat) (data : List UInt8)
    (p : M (Except Unit Unit)) : Prop where
  ok : ∀ s', p.run c s = .ok (.ok (), s') →
    (∀ i < data.length, ∃ e a, Sv32.walk s.mem u.pagetable.root (addr + i) = some (e, a) ∧
      data[i]? = some (s'.mem a)) ∧
    (∀ a, (∀ i < data.length, ∀ e, Sv32.walk s.mem u.pagetable.root (addr + i) ≠ some (e, a)) →
      s'.mem a = s.mem a) ∧ s'.free = s.free
  err : (∃ i < data.length, ¬ Sv32.Mapped s.mem u.pagetable.root (addr + i)) →
    p.run c s = .ok (.error (), s)

/-- Nothing is mapped at `addr`; or all of `[addr, addr + n)` is mapped, and physical memory from
the first byte on is where the range is mapped to, or is not all the kernel's to write. -/
def LandsWell (c : Cfg) (m : Bytes) (root addr n : Nat) : Prop :=
  ¬ Sv32.Mapped m root addr ∨ (∀ i < n, Sv32.Mapped m root (addr + i)) ∧
    ∃ e₀ a₀, Sv32.walk m root addr = some (e₀, a₀) ∧
      ((∀ i < n, ∃ e, Sv32.walk m root (addr + i) = some (e, a₀ + i)) ∨
        ∃ i < n, ¬ c.Writable (a₀ + i) 1)

/-- Data of length `n` whose `i`-th byte is `y` and whose others are `x`. -/
def spike (n i : Nat) (x y : UInt8) : List UInt8 := (List.replicate n x).set i y

theorem spike_get {n i : Nat} (hi : i < n) (x y : UInt8) : (spike n i x y)[i]? = some y := by
  unfold spike
  rw [List.getElem?_set_self (by rwa [List.length_replicate])]

theorem spike_ne {n i j : Nat} (hij : j ≠ i) (hj : j < n) (x y : UInt8) :
    (spike n i x y)[j]? = some x := by
  unfold spike
  rw [List.getElem?_set_ne (Ne.symm hij), List.getElem?_replicate, if_pos hj]

/-- There is a byte other than two given ones. -/
theorem exists_other (x y : UInt8) : ∃ z : UInt8, z ≠ x ∧ z ≠ y := by
  by_cases h0 : (0 : UInt8) ≠ x ∧ (0 : UInt8) ≠ y
  · exact ⟨0, h0⟩
  by_cases h1 : (1 : UInt8) ≠ x ∧ (1 : UInt8) ≠ y
  · exact ⟨1, h1⟩
  refine ⟨2, ?_⟩
  have h01 : (0 : UInt8) ≠ 1 := by decide
  have h02 : (2 : UInt8) ≠ 0 := by decide
  have h12 : (2 : UInt8) ≠ 1 := by decide
  grind

section
variable {c : Cfg} {v : View} {u : Uvm} {tab : Nat → Option Nat} {s : Phys}

theorem copyOut_run (h : Space c v u tab) (hm : v.mem = s.mem) {addr : Nat} (ha : addr < USIZE)
    (data : List UInt8) : (copyOut u addr data).run c s =
      match Sv32.walk s.mem u.pagetable.root addr with
      | none => .ok (.error (), s)
      | some q => if ∀ i < data.length, c.Writable (q.2 + i) 1 then
          .ok (.ok (), { s with mem := putAll s.mem q.2 data }) else .error "page fault" := by
  unfold copyOut
  rw [(walkaddr_run h hm ha _).1]
  cases Sv32.walk s.mem u.pagetable.root addr with
  | none => rfl
  | some q =>
    show Free.run (Phys.exec c) (writeAll q.2 data >>= fun _ => pure (Except.ok ())) s = _
    have hr : Free.run (Phys.exec c) (writeAll q.2 data) s = _ := writeAll_run data q.2 s
    rw [Free.run_bind, hr]
    dsimp only
    by_cases hw : ∀ i < data.length, c.Writable (q.2 + i) 1
    · rw [if_pos hw, if_pos hw]
      rfl
    · rw [if_neg hw, if_neg hw]

theorem copyOut_iff (h : Space c v u tab) (hm : v.mem = s.mem) {addr n : Nat} (ha : addr < USIZE) :
    (∀ data : List UInt8, data.length = n → WritesUser c s u addr data (copyOut u addr data)) ↔
      LandsWell c s.mem u.pagetable.root addr n := by
  have hrun := copyOut_run h hm ha
  unfold LandsWell
  cases hq : Sv32.walk s.mem u.pagetable.root addr with
  | none =>
    -- nothing is mapped at the first address
    have hn : ¬ Sv32.Mapped s.mem u.pagetable.root addr := fun hmp => by
      unfold Sv32.Mapped at hmp
      rw [hq] at hmp
      cases hmp
    refine iff_of_true (fun data _ => ?_) (.inl hn)
    have hd := hrun data
    rw [hq] at hd
    refine ⟨fun s' hr => ?_, fun _ => hd⟩
    rw [hd] at hr
    cases hr
  | some q =>
    have hmp : Sv32.Mapped s.mem u.pagetable.root addr := by
      unfold Sv32.Mapped
      rw [hq]
      rfl
    obtain ⟨e₀, a₀⟩ := q
    have hd := fun data => hrun data
    simp only [hq] at hd
    constructor
    · intro hw
      refine .inr ?_
      have hall : ∀ i < n, Sv32.Mapped s.mem u.pagetable.root (addr + i) := by
        by_contra hno
        push Not at hno
        obtain ⟨i, hi, hno⟩ := hno
        have hlen : (List.replicate n (0 : UInt8)).length = n := List.length_replicate ..
        have := (hw _ hlen).err ⟨i, by rwa [hlen], hno⟩
        rw [hd] at this
        split at this <;> cases this
      refine ⟨hall, e₀, a₀, rfl, ?_⟩
      by_contra hno
      push Not at hno
      obtain ⟨⟨i, hi, hne⟩, hwr⟩ := hno
      -- the range is written, and its `i`-th byte is mapped elsewhere
      obtain ⟨⟨e, b⟩, hb⟩ := Option.isSome_iff_exists.1 (hall i hi)
      have hba : b ≠ a₀ + i := fun he => hne e (by rw [← he]; exact hb)
      obtain ⟨y, hy0, hyb⟩ := exists_other 0 (s.mem b)
      have hlen : (spike n i 0 y).length = n := by
        unfold spike
        rw [List.length_set, List.length_replicate]
      have hok := hd (spike n i 0 y)
      rw [if_pos fun j hj => hwr j (by rwa [hlen] at hj)] at hok
      obtain ⟨e', a, hea, hya⟩ := ((hw _ hlen).ok _ hok).1 i (by rwa [hlen])
      obtain rfl : b = a := congrArg Prod.snd (Option.some.inj (hb.symm.trans hea))
      rw [spike_get hi] at hya
      have hyv := Option.some.inj hya
      dsimp only at hyv
      by_cases hin : ∃ j < n, b = a₀ + j
      · obtain ⟨j, hj, rfl⟩ := hin
        have hj' : j < (spike n i 0 y).length := by rwa [hlen]
        have h1 := putAll_at (m := s.mem) (a := a₀) hj'
        rw [spike_ne (fun h => hba (by rw [h])) hj, ← hyv] at h1
        exact hy0 (Option.some.inj h1).symm
      · rw [putAll_ne fun j hj he => hin ⟨j, by rwa [hlen] at hj, he⟩] at hyv
        exact hyb hyv
    · rintro (hn | ⟨hall, e₁, a₁, he, hc⟩)
      · exact absurd hmp hn
      obtain ⟨rfl, rfl⟩ := Prod.mk.inj (Option.some.inj he)
      rintro data rfl
      refine ⟨fun s' hr => ?_, fun ⟨i, hi, hno⟩ => absurd (hall i hi) hno⟩
      rw [hd] at hr
      split at hr
      · rename_i hwr
        have hcont := hc.resolve_right fun ⟨i, hi, hno⟩ => hno (hwr i hi)
        cases hr
        refine ⟨fun i hi => ?_, fun a hne => ?_, rfl⟩
        · obtain ⟨e, hw⟩ := hcont i hi
          exact ⟨e, a₀ + i, hw, putAll_at hi⟩
        · refine putAll_ne fun i hi hai => ?_
          obtain ⟨e, hw⟩ := hcont i hi
          exact hne i hi e (by rw [hai]; exact hw)
      · cases hr

end

/-- **User writes land well** exactly when nothing is mapped at the first address, or the whole
range is mapped and its pages lie one after another in physical memory (or the write runs into
memory that the kernel may not write, and faults): only the first address is translated. -/
theorem copyOut_lands_iff {c : Cfg} {w : World} (h : World.Reach c w) {k : Nat} {u : Uvm}
    (hk : w.uvms k = some u) {addr : Nat} (ha : addr < USIZE) (n : Nat) :
    (∀ data : List UInt8, data.length = n →
      WritesUser c w.phys u addr data (copyOut u addr data) ∧
        WritesUser c w.phys u addr data (copyOutCont u addr data)) ↔
      LandsWell c w.phys.mem u.pagetable.root addr n := by
  obtain ⟨tab, hsp, -⟩ := h.inv.space k u hk
  rw [← copyOut_iff hsp rfl ha]
  exact ⟨fun hw data hl => (hw data hl).1, fun hw data hl => ⟨hw data hl, hw data hl⟩⟩

theorem copyOut_lands_iff_demo : ∃ w u, World.Reach Cfg.demo w ∧ w.uvms 0 = some u ∧
    ((∀ data : List UInt8, data.length = 4 →
      WritesUser Cfg.demo w.phys u USER_START data (copyOut u USER_START data) ∧
        WritesUser Cfg.demo w.phys u USER_START data (copyOutCont u USER_START data)) ↔
      LandsWell Cfg.demo w.phys.mem u.pagetable.root USER_START 4) := by
  obtain ⟨w, u, -, -, h, hk, -⟩ := World.demo_alloc (n := 2) (by omega)
    (show PTE_R ||| PTE_W ≠ 0 by decide) ⟨by decide, by decide⟩
  exact ⟨w, u, h, hk, copyOut_lands_iff h hk (by rw [USIZE_eq]; decide) 4⟩

/-- Two bytes across a page boundary: the second does not land in the user's page. -/
theorem copyOut_astray : ∃ w u data, World.Reach Cfg.demo w ∧ w.uvms 0 = some u ∧
    u.size = 2 * PAGESIZE ∧ data.length = 2 ∧
    ¬ WritesUser Cfg.demo w.phys u (USER_START + 0xfff) data
      (copyOut u (USER_START + 0xfff) data) := by
  obtain ⟨w, u, e, e', f, g, h, hk, hsize, hw, hw', hne, hf, -⟩ := World.demo_pair
  obtain ⟨tab, hsp, -⟩ := h.inv.space 0 u hk
  by_contra hno
  push Not at hno
  have hall : ∀ data : List UInt8, data.length = 2 →
      WritesUser Cfg.demo w.phys u (USER_START + 0xfff) data
        (copyOut u (USER_START + 0xfff) data) := fun data hl => hno w u data h hk hsize hl
  rw [copyOut_iff hsp rfl (by rw [USIZE_eq]; decide)] at hall
  rcases hall with hn | ⟨-, e₀, a₀, he, hc | ⟨i, hi, hwr⟩⟩
  · exact hn (by unfold Sv32.Mapped; rw [hw]; rfl)
  · obtain ⟨rfl, rfl⟩ := Prod.mk.inj (Option.some.inj (hw.symm.trans he))
    obtain ⟨e₁, h1⟩ := hc 1 (by omega)
    exact hne (congrArg Prod.snd (Option.some.inj (hw'.symm.trans h1)))
  · obtain ⟨rfl, rfl⟩ := Prod.mk.inj (Option.some.inj (hw.symm.trans he))
    exact hwr (hf i hi)

end BareMetal
