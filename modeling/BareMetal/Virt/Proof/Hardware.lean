import BareMetal.Virt.Proof.CopyIn

/-!
# The kernel's walk and the hardware's

`walkaddr_agrees_iff`: on a well-formed table `walkaddr` gives the translation of the hardware
exactly at the addresses outside megapages, the ones apart where the first frame of the megapage
happens to hold the right entry. `walk` follows every valid root entry as a pointer
(`quiet_walk_Walk`), also the leaf of a megapage.
-/

namespace BareMetal

open Lib

/-- At `va`, `walkaddr` returns what the hardware translates to, and `walk` changes nothing. -/
structure WalkAgrees (c : Cfg) (s : Phys) (t : PageTable) (va : Nat) : Prop where
  addr : ∃ s', (t.walkaddr va).run c s = .ok (Sv32.translation s.mem t.root va, s')
  walk : ∃ a, (t.walk va .Walk).run c s = .ok (a, s)

namespace Sv32

/-- The entry for `va` in the frame at `b`, read as a second-level table. -/
def slotIn (b va : Nat) : Nat := b + 4 * (va / 2 ^ 12 % 2 ^ 10)

/-- If `va` is in a megapage, its first frame can be read as a table and the entry for `va` in it is
a leaf for the frame that `va` is in. -/
def PassesAsTable (m : Bytes) (root va : Nat) : Prop :=
  IsMegapage m root (va / 2 ^ 22) →
    let b := m.word (root + 4 * (va / 2 ^ 22)) / 2 ^ 10 * 2 ^ 12
    let e := m.word (slotIn b va)
    Readable (slotIn b va) 4 ∧ e % 2 = 1 ∧ isLeaf e ∧
      e / 2 ^ 10 * 2 ^ 12 % USIZE = b + va / 2 ^ 12 % 2 ^ 10 * 2 ^ 12

/-! ## What the hardware does -/

section
variable {m : Bytes} {root va : Nat}

theorem translation_invalid (hva : va < USIZE)
    (h : m.word (root + 4 * (va / 2 ^ 22)) % 2 = 0) : translation m root va = none := by
  have hi : va / 2 ^ (12 + 10 * 1) % 2 ^ 10 = va / 2 ^ 22 := by rw [USIZE_eq] at hva; omega
  unfold translation translationFrom
  simp only [hi]
  rw [if_pos (.inl h)]

theorem translation_megapage (hva : va < USIZE) (h : IsMegapage m root (va / 2 ^ 22))
    (hl : LegalLeaf (m.word (root + 4 * (va / 2 ^ 22))))
    (ha : m.word (root + 4 * (va / 2 ^ 22)) / 2 ^ 10 % 2 ^ 10 = 0) :
    translation m root va =
      some (m.word (root + 4 * (va / 2 ^ 22)) / 2 ^ 10 * 2 ^ 12 + va % 2 ^ 22) := by
  have hi : va / 2 ^ (12 + 10 * 1) % 2 ^ 10 = va / 2 ^ 22 := by rw [USIZE_eq] at hva; omega
  unfold translation translationFrom
  simp only [hi]
  obtain ⟨hv, hleaf⟩ := h
  obtain ⟨-, hrw, -⟩ := hl
  unfold isLeaf at hleaf
  generalize m.word (root + 4 * (va / 2 ^ 22)) = e at *
  rw [if_neg (by omega), if_pos (by omega), if_neg (by omega)]
  have hb : e / 2 ^ (10 + 10 * 1) * 2 ^ (12 + 10 * 1) = e / 2 ^ 10 * 2 ^ 12 := by omega
  rw [hb]

/-- In a table of leaves, the leaf decides. -/
theorem translation_pointer (hva : va < USIZE) (h : m.word (root + 4 * (va / 2 ^ 22)) % 2 = 1)
    (hn : ¬ isLeaf (m.word (root + 4 * (va / 2 ^ 22))))
    (ht : LeafTable m (m.word (root + 4 * (va / 2 ^ 22)) / 2 ^ 10 * 2 ^ 12)) :
    translation m root va =
      let e := m.word (slotIn (m.word (root + 4 * (va / 2 ^ 22)) / 2 ^ 10 * 2 ^ 12) va)
      if e % 2 = 0 then none else some (e / 2 ^ 10 * 2 ^ 12 + va % 2 ^ 12) := by
  have hi : va / 2 ^ (12 + 10 * 1) % 2 ^ 10 = va / 2 ^ 22 := by rw [USIZE_eq] at hva; omega
  have hj : va / 2 ^ (12 + 10 * 0) % 2 ^ 10 = va / 2 ^ 12 % 2 ^ 10 := by norm_num
  have he := ht.entry (va / 2 ^ 12 % 2 ^ 10) (Nat.mod_lt _ (by decide))
  unfold isLeaf at hn
  unfold translation translationFrom
  simp only [hi]
  rw [if_neg (by omega), if_neg (by omega)]
  unfold translationFrom slotIn
  simp only [hj]
  generalize m.word (_ / 2 ^ 10 * 2 ^ 12 + _) = e at *
  by_cases hv : e % 2 = 0
  · rw [if_pos hv, if_pos (.inl hv)]
  · obtain ⟨hleaf, hrw, -⟩ := he.resolve_left hv
    unfold isLeaf at hleaf
    rw [if_neg hv, if_neg (by omega), if_pos (by omega), if_neg (by omega)]

end

end Sv32

/-! ## What the kernel does -/

section
variable {c : Cfg} {s : Phys} {t : PageTable} {va : Nat}

/-- Where `walk` finds the leaf entry: it follows every valid root entry. -/
def walkSlot (m : Bytes) (root va : Nat) : Option Nat :=
  if m.word (root + 4 * (va / 2 ^ 22)) % 2 = 0 then none
  else (nonNull (frameOf (m.word (root + 4 * (va / 2 ^ 22))))).map (Sv32.slotIn · va)

theorem quiet_walk_Walk (hr : Readable t.root PAGESIZE) (hva : va < USIZE) :
    M.Quiet c (t.walk va .Walk) s (walkSlot s.mem t.root va) := by
  have h1 : (VA.fromUsize va).vpn1 = va / 2 ^ 22 := by
    rw [VA.fromUsize_vpn1]
    rw [USIZE_eq] at hva
    omega
  have hra : Readable (t.root + 4 * (va / 2 ^ 22)) 4 := by
    unfold Readable at *
    rw [PAGESIZE_eq] at hr
    rw [USIZE_eq] at hva
    omega
  unfold PageTable.walk walkSlot
  simp only [VA.vpn, h1, VA.fromUsize_vpn0]
  refine (M.quiet_read hra).seq ?_
  have hlt := Bytes.word_lt s.mem (t.root + 4 * (va / 2 ^ 22))
  generalize s.mem.word (t.root + 4 * (va / 2 ^ 22)) = e at *
  by_cases he : e % 2 = 0
  · have hv : (Pte.fromUsize e).v = false := by rw [Pte.v_eq]; simpa using he
    rw [if_pos he]
    simp only [PageTable.walkNext, hv]
    exact M.quiet_pure _
  · have hv : (Pte.fromUsize e).v = true := by rw [Pte.v_eq]; simpa using he
    rw [if_neg he]
    simp only [PageTable.walkNext, hv, if_true, Pte.table_eq hlt]
    have hf : e / 1024 * 4096 % USIZE = frameOf e := rfl
    rw [hf]
    cases nonNull (frameOf e) with
    | none => exact M.quiet_pure _
    | some b => exact M.quiet_pure _

/-- `walkaddr` when the entry that `walk` finds can be read. -/
theorem run_walkaddr (hr : Readable t.root PAGESIZE) (hva : va < USIZE) {a : Nat}
    (ha : walkSlot s.mem t.root va = some a) (hread : Readable a 4) :
    (t.walkaddr va).run c s = .ok (if s.mem.word a % 2 = 0 ∨ ¬ Sv32.isLeaf (s.mem.word a) then none
      else some (frameOf (s.mem.word a) + va % 2 ^ 12), s) := by
  have hw := quiet_walk_Walk (c := c) (s := s) hr hva
  rw [ha] at hw
  unfold PageTable.walkaddr
  refine (hw.bind _).1.trans ?_
  refine ((M.quiet_read hread).bind _).1.trans ?_
  generalize s.mem.word a = e
  dsimp only
  rw [Pte.v_eq, Pte.r_eq, Pte.w_eq, Pte.x_eq, Pte.pa_eq]
  by_cases he : e % 2 = 0 ∨ ¬ Sv32.isLeaf e
  · rw [if_pos he, if_pos (by unfold Sv32.isLeaf at he; simp; omega)]
    rfl
  · rw [if_neg he, if_neg (by unfold Sv32.isLeaf at he; simp; omega)]
    have hadd : e / 1024 * 4096 % USIZE + va % PAGESIZE < USIZE := by
      rw [USIZE_eq, PAGESIZE_eq]
      omega
    refine ((M.quiet_add hadd).bind _).1.trans ?_
    rw [show 2 ^ 12 = PAGESIZE by rw [PAGESIZE_eq]; norm_num]
    rfl

theorem run_walkaddr_none (hr : Readable t.root PAGESIZE) (hva : va < USIZE)
    (ha : walkSlot s.mem t.root va = none) : (t.walkaddr va).run c s = .ok (none, s) := by
  have hw := quiet_walk_Walk (c := c) (s := s) hr hva
  rw [ha] at hw
  unfold PageTable.walkaddr
  exact (hw.bind _).1

theorem run_walkaddr_fault (hr : Readable t.root PAGESIZE) (hva : va < USIZE) {a : Nat}
    (ha : walkSlot s.mem t.root va = some a) (hread : ¬ Readable a 4) :
    (t.walkaddr va).run c s = .error "page fault" := by
  have hw := quiet_walk_Walk (c := c) (s := s) hr hva
  rw [ha] at hw
  unfold PageTable.walkaddr
  refine (hw.bind _).1.trans ?_
  dsimp only
  unfold M.run M.read M.perform
  rw [Free.perform_bind, Free.run_op]
  simp only [Phys.exec, if_neg hread]

/-! ## Where the two agree -/

theorem slotIn_readable {b : Nat} (h : Readable b PAGESIZE) : Readable (Sv32.slotIn b va) 4 := by
  unfold Readable Sv32.slotIn at *
  rw [PAGESIZE_eq] at h
  omega

/-- The frame of an entry below 4 GiB. -/
theorem frameOf_low {e : Nat} (h : e / 2 ^ 10 < 2 ^ 20) : frameOf e = e / 2 ^ 10 * 2 ^ 12 := by
  unfold frameOf
  rw [USIZE_eq]
  omega

/-- Outside megapages `walkaddr` is the hardware's walk. -/
theorem walkaddr_small (h : Sv32.WellFormed s.mem t.root) (hva : va < USIZE)
    (hn : ¬ Sv32.IsMegapage s.mem t.root (va / 2 ^ 22)) :
    (t.walkaddr va).run c s = .ok (Sv32.translation s.mem t.root va, s) := by
  have hi : va / 2 ^ 22 < 1024 := by rw [USIZE_eq] at hva; omega
  by_cases he : s.mem.word (t.root + 4 * (va / 2 ^ 22)) % 2 = 0
  · have hs : walkSlot s.mem t.root va = none := if_pos he
    rw [run_walkaddr_none h.read hva hs, Sv32.translation_invalid hva he]
  have he1 : s.mem.word (t.root + 4 * (va / 2 ^ 22)) % 2 = 1 := by omega
  have hl : ¬ Sv32.isLeaf (s.mem.word (t.root + 4 * (va / 2 ^ 22))) := fun hl => hn ⟨he1, hl⟩
  obtain ⟨hlow, ht⟩ := h.pointer _ hi he1 hn
  have hb0 : s.mem.word (t.root + 4 * (va / 2 ^ 22)) / 2 ^ 10 * 2 ^ 12 ≠ 0 := by
    have h1 := ht.read.1
    unfold KERNEL_START at h1
    omega
  have hs : walkSlot s.mem t.root va =
      some (Sv32.slotIn (s.mem.word (t.root + 4 * (va / 2 ^ 22)) / 2 ^ 10 * 2 ^ 12) va) := by
    unfold walkSlot nonNull
    rw [if_neg he, frameOf_low hlow, if_neg hb0, Option.map_some]
  rw [run_walkaddr h.read hva hs (slotIn_readable ht.read),
    Sv32.translation_pointer hva he1 hl ht]
  have hent := ht.entry (va / 2 ^ 12 % 2 ^ 10) (Nat.mod_lt _ (by decide))
  unfold Sv32.slotIn
  generalize s.mem.word (_ / 2 ^ 10 * 2 ^ 12 + _) = e at *
  by_cases hv : e % 2 = 0
  · rw [if_pos (.inl hv)]
    simp only [if_pos hv]
  · obtain ⟨hleaf, -, hlow'⟩ := hent.resolve_left hv
    have hne : ¬ (e % 2 = 0 ∨ ¬ Sv32.isLeaf e) := by simp [hv, hleaf]
    rw [if_neg hne, frameOf_low hlow']
    simp only [if_neg hv]

/-- In a megapage `walkaddr` reads an entry in its first frame. -/
theorem walkaddr_megapage (h : Sv32.WellFormed s.mem t.root) (hva : va < USIZE)
    (hm : Sv32.IsMegapage s.mem t.root (va / 2 ^ 22)) :
    (∃ s', (t.walkaddr va).run c s = .ok (Sv32.translation s.mem t.root va, s')) ↔
      Sv32.PassesAsTable s.mem t.root va := by
  have hi : va / 2 ^ 22 < 1024 := by rw [USIZE_eq] at hva; omega
  obtain ⟨hl, ha⟩ := h.megapage _ hi hm
  have hodd := hm.1
  have hlow := hl.low
  rw [Sv32.translation_megapage hva hm hl ha]
  unfold Sv32.PassesAsTable
  by_cases hb0 : s.mem.word (t.root + 4 * (va / 2 ^ 22)) / 2 ^ 10 * 2 ^ 12 = 0
  · -- the megapage at address 0 is null
    have hs : walkSlot s.mem t.root va = none := by
      unfold walkSlot nonNull
      rw [if_neg (by omega), frameOf_low hlow, if_pos hb0, Option.map_none]
    rw [run_walkaddr_none h.read hva hs]
    constructor
    · rintro ⟨s', h'⟩
      cases h'
    · intro h'
      have h1 := (h' hm).1.1
      unfold Sv32.slotIn KERNEL_START at h1
      omega
  have hs : walkSlot s.mem t.root va =
      some (Sv32.slotIn (s.mem.word (t.root + 4 * (va / 2 ^ 22)) / 2 ^ 10 * 2 ^ 12) va) := by
    unfold walkSlot nonNull
    rw [if_neg (by omega), frameOf_low hlow, if_neg hb0, Option.map_some]
  have hoff : va % 2 ^ 22 = va / 2 ^ 12 % 2 ^ 10 * 2 ^ 12 + va % 2 ^ 12 := by omega
  by_cases hread : Readable
      (Sv32.slotIn (s.mem.word (t.root + 4 * (va / 2 ^ 22)) / 2 ^ 10 * 2 ^ 12) va) 4
  · rw [run_walkaddr h.read hva hs hread]
    dsimp only
    generalize s.mem.word (Sv32.slotIn _ va) = e
    by_cases he : e % 2 = 0 ∨ ¬ Sv32.isLeaf e
    · rw [if_pos he]
      constructor
      · rintro ⟨s', h'⟩
        cases h'
      · intro h'
        obtain ⟨-, h1, h2, -⟩ := h' hm
        rcases he with he | he
        · omega
        · exact absurd h2 he
    · rw [if_neg he]
      have he1 : e % 2 = 1 := by
        have h1 : ¬ e % 2 = 0 := fun h0 => he (.inl h0)
        omega
      have he2 : Sv32.isLeaf e := by
        by_contra h0
        exact he (.inr h0)
      have hf : frameOf e = e / 2 ^ 10 * 2 ^ 12 % USIZE := rfl
      constructor
      · rintro ⟨s', h'⟩ -
        have h1 := Option.some.inj (Prod.mk.inj (Except.ok.inj h')).1
        refine ⟨hread, he1, he2, ?_⟩
        omega
      · intro h'
        obtain ⟨-, -, -, h1⟩ := h' hm
        refine ⟨s, ?_⟩
        rw [hf, h1, hoff, Nat.add_assoc]
  · rw [run_walkaddr_fault h.read hva hs hread]
    constructor
    · rintro ⟨s', h'⟩
      cases h'
    · intro h'
      exact absurd (h' hm).1 hread

/-- **The software walk**: on a well-formed table it agrees with the hardware at the addresses that
no megapage maps, and in a megapage only where its first frame holds, by chance, the entry of a
second-level table for the address. -/
theorem walkaddr_agrees_iff (c : Cfg) (s : Phys) (t : PageTable) (va : Nat)
    (h : Sv32.WellFormed s.mem t.root) (hva : va < USIZE) :
    WalkAgrees c s t va ↔ Sv32.PassesAsTable s.mem t.root va := by
  have hw := (quiet_walk_Walk (c := c) (s := s) h.read hva).1
  by_cases hm : Sv32.IsMegapage s.mem t.root (va / 2 ^ 22)
  · rw [← walkaddr_megapage (c := c) h hva hm]
    exact ⟨fun ha => ha.addr, fun ha => ⟨ha, _, hw⟩⟩
  · exact ⟨fun _ hm' => absurd hm' hm, fun _ => ⟨⟨s, walkaddr_small h hva hm⟩, _, hw⟩⟩

end

/-! ## Two tables -/

theorem word_zero (a : Nat) : Bytes.word (fun _ => 0) a = 0 := rfl

/-- A root with one entry, all else zero. -/
theorem word_one {root e i : Nat} (he : e < 2 ^ 32) :
    (Bytes.setWord (fun _ => 0) root e).word (root + 4 * i) = if i = 0 then e else 0 := by
  by_cases hi : i = 0
  · rw [if_pos hi, hi, Nat.mul_zero, Nat.add_zero, Bytes.word_setWord he]
  · rw [if_neg hi, Bytes.word_setWord_ne (by omega), word_zero]

/-- A page of the user at address 0. -/
theorem walkaddr_agrees_demo : ∃ s t, Sv32.WellFormed s.mem t.root ∧
    Sv32.translation s.mem t.root 0x123 = some 0x80302123 ∧ WalkAgrees Cfg.demo s t 0x123 := by
  let m₁ := Bytes.setWord (fun _ => 0) 0x80300000 (ptrWord 0x80301000)
  let m := m₁.setWord 0x80301000 (leafWord 0x80302000 (PTE_R ||| PTE_U))
  have hroot : ∀ i < 1024, m.word (0x80300000 + 4 * i) = if i = 0 then ptrWord 0x80301000 else 0 :=
    fun i hi => (Bytes.word_setWord_ne (by omega)).trans (word_one (by decide))
  have hleaf : ∀ j < 1024, m.word (0x80301000 + 4 * j) =
      if j = 0 then leafWord 0x80302000 (PTE_R ||| PTE_U) else 0 := by
    intro j hj
    by_cases h0 : j = 0
    · subst h0
      exact Bytes.word_setWord (by decide)
    · rw [if_neg h0]
      refine (Bytes.word_setWord_ne (by omega)).trans ?_
      exact (Bytes.word_setWord_ne (by omega)).trans (word_zero _)
  have hlegal : Sv32.LegalLeaf (leafWord 0x80302000 (PTE_R ||| PTE_U)) :=
    ⟨by decide, by decide, by decide⟩
  have htab : Sv32.LeafTable m 0x80301000 := by
    refine ⟨by rw [PAGESIZE_eq]; decide, fun j hj => ?_⟩
    rw [hleaf j hj]
    by_cases h0 : j = 0
    · rw [if_pos h0]
      exact .inr hlegal
    · rw [if_neg h0]
      exact .inl rfl
  have hno : ∀ i < 1024, ¬ Sv32.IsMegapage m 0x80300000 i := by
    rintro i hi ⟨hv, hl⟩
    rw [hroot i hi] at hv hl
    by_cases h0 : i = 0
    · rw [if_pos h0] at hl
      exact absurd hl (by decide)
    · rw [if_neg h0] at hv
      cases hv
  have hwf : Sv32.WellFormed m 0x80300000 := by
    refine ⟨by rw [PAGESIZE_eq]; decide, fun i hi hv _ => ?_, fun i hi h => absurd h (hno i hi)⟩
    rw [hroot i hi] at hv ⊢
    by_cases h0 : i = 0
    · rw [if_pos h0]
      exact ⟨by decide, htab⟩
    · rw [if_neg h0] at hv
      cases hv
  have he : m.word 0x80300000 = ptrWord 0x80301000 := hroot 0 (by decide)
  refine ⟨⟨m, [], 0⟩, ⟨0x80300000⟩, hwf, ?_,
    (walkaddr_agrees_iff Cfg.demo ⟨m, [], 0⟩ ⟨0x80300000⟩ 0x123 hwf (by decide)).2
      fun h => absurd h (hno 0 (by decide))⟩
  have h0 : 0x123 / 2 ^ 22 = 0 := by decide
  rw [Sv32.translation_pointer (by decide) (by rw [h0, Nat.mul_zero, Nat.add_zero, he]; decide)
    (by rw [h0, Nat.mul_zero, Nat.add_zero, he]; decide)
    (by rw [h0, Nat.mul_zero, Nat.add_zero, he]; exact htab), h0, Nat.mul_zero, Nat.add_zero, he]
  have hs : Sv32.slotIn (ptrWord 0x80301000 / 2 ^ 10 * 2 ^ 12) 0x123 = 0x80301000 + 4 * 0 := by
    decide
  rw [hs, hleaf 0 (by decide)]
  decide

/-- A megapage at address 0: the hardware translates, `walkaddr` finds nothing. -/
theorem walkaddr_misses_megapage : ∃ s t, Sv32.WellFormed s.mem t.root ∧
    Sv32.translation s.mem t.root 0 = some 0x80400000 ∧
    (t.walkaddr 0).run Cfg.demo s = .ok (none, s) ∧ ¬ WalkAgrees Cfg.demo s t 0 := by
  let m := Bytes.setWord (fun _ => 0) 0x80300000 0x2010000f
  have hroot : ∀ i, m.word (0x80300000 + 4 * i) = if i = 0 then 0x2010000f else 0 :=
    fun i => word_one (by decide)
  have he : m.word 0x80300000 = 0x2010000f := hroot 0
  have hlegal : Sv32.LegalLeaf 0x2010000f := ⟨by decide, by decide, by decide⟩
  have hread : Readable 0x80300000 PAGESIZE := by rw [PAGESIZE_eq]; decide
  have hmega : Sv32.IsMegapage m 0x80300000 0 := by
    unfold Sv32.IsMegapage
    rw [Nat.mul_zero, Nat.add_zero, he]
    decide
  have hwf : Sv32.WellFormed m 0x80300000 := by
    refine ⟨hread, fun i hi hv hn => ?_, fun i hi h => ?_⟩
    · by_cases h0 : i = 0
      · exact absurd (h0 ▸ hmega) hn
      · rw [hroot i, if_neg h0] at hv
        cases hv
    · by_cases h0 : i = 0
      · rw [hroot i, if_pos h0]
        exact ⟨hlegal, by decide⟩
      · have hv := h.1
        rw [hroot i, if_neg h0] at hv
        cases hv
  have h0 : 0 / 2 ^ 22 = 0 := Nat.zero_div _
  have htr : Sv32.translation m 0x80300000 0 = some 0x80400000 := by
    rw [Sv32.translation_megapage (by decide) hmega
      (by rw [h0, Nat.mul_zero, Nat.add_zero, he]; exact hlegal)
      (by rw [h0, Nat.mul_zero, Nat.add_zero, he]; decide), h0, Nat.mul_zero, Nat.add_zero, he]
    decide
  -- the first word of the megapage is no entry
  have hw : m.word 0x80400000 = 0 :=
    (Bytes.word_setWord_ne (by omega)).trans (word_zero _)
  have hslot : walkSlot m 0x80300000 0 = some 0x80400000 := by
    unfold walkSlot
    rw [h0, Nat.mul_zero, Nat.add_zero, he]
    decide
  have hrun : (PageTable.walkaddr ⟨0x80300000⟩ 0).run Cfg.demo ⟨m, [], 0⟩ =
      .ok (none, ⟨m, [], 0⟩) := by
    rw [run_walkaddr (s := ⟨m, [], 0⟩) (t := ⟨0x80300000⟩) hread (by decide) hslot (by decide), hw,
      if_pos (.inl rfl)]
  refine ⟨⟨m, [], 0⟩, ⟨0x80300000⟩, hwf, htr, hrun, fun ha => ?_⟩
  obtain ⟨s', hs⟩ := ha.addr
  rw [hrun] at hs
  rw [show Sv32.translation (Phys.mem ⟨m, [], 0⟩) 0x80300000 0 = some 0x80400000 from htr] at hs
  cases hs

end BareMetal
