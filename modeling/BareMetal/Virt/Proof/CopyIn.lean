import BareMetal.Virt.Copy
import BareMetal.Virt.Sv32
import BareMetal.Virt.Proof.World

/-!
# Copying in

`copy_in`, `copy_in_cont` and `copy_in_str` translate their first address and go on through
physical memory. `copyIn_faithful_iff` says when the bytes they read are the bytes that the user
program would read at the same virtual addresses.
-/

namespace BareMetal

open Lib

section
variable {c : Cfg} {v : View} {root : Nat} {tab : Nat → Option Nat}

/-- The hardware walk on a tree finds the tree's entry. -/
theorem Tree.sv32_walk (h : Tree c v root tab) {va : Nat} (hva : va < USIZE) :
    Sv32.walk v.mem root va =
      if pte v.mem tab (pageNo va) % 2 = 0 ∨ ¬ Sv32.isLeaf (pte v.mem tab (pageNo va)) then none
      else some (pte v.mem tab (pageNo va),
        pte v.mem tab (pageNo va) / 2 ^ 10 * 2 ^ 12 + va % 2 ^ 12) := by
  have hi := pageNo_lt hva
  have h1 : va / 2 ^ 22 = pageNo va / 1024 := by unfold pageNo; rw [PAGESIZE_eq]; omega
  have h0 : va / 2 ^ 12 % 2 ^ 10 = pageNo va % 1024 := by unfold pageNo; rw [PAGESIZE_eq]; norm_num
  unfold Sv32.walk
  rw [if_pos hva, h1, h.dir _ hi, h0]
  cases ht : tab (pageNo va / 1024) with
  | none => simp [dirWord, pte, ht]
  | some t =>
    obtain ⟨hp, hlt⟩ := (h.frame ht).aligned
    rw [PAGESIZE_eq] at hp
    have hv : ¬ (t / 4 + 1) % 2 = 0 := by omega
    have hl : ¬ Sv32.isLeaf (t / 4 + 1) := by unfold Sv32.isLeaf; omega
    have hb : (t / 4 + 1) / 2 ^ 10 * 2 ^ 12 = t := by omega
    simp only [dirWord, ptrWord, if_neg hv, if_neg hl, hb, pte, ht]

theorem Tree.sv32_leaf (h : Tree c v root tab) {va f perm : Nat} (hva : va < USIZE)
    (he : pte v.mem tab (pageNo va) = leafWord f perm) (hf : Aligned f) (hp : PermOk perm)
    (hl : perm / 2 % 8 ≠ 0) :
    Sv32.walk v.mem root va = some (leafWord f perm, f + va % PAGESIZE) := by
  have h1 := hf.1
  have h2 := hp.1
  have h3 := hp.2
  rw [PAGESIZE_eq] at h1
  have hb : leafWord f perm / 2 ^ 10 * 2 ^ 12 = f := by
    unfold leafWord
    omega
  have hn : ¬ (leafWord f perm % 2 = 0 ∨ ¬ Sv32.isLeaf (leafWord f perm)) := by
    unfold leafWord Sv32.isLeaf
    omega
  rw [h.sv32_walk hva, he, hb, if_neg hn, show 2 ^ 12 = PAGESIZE by rw [PAGESIZE_eq]; norm_num]

theorem Tree.sv32_none (h : Tree c v root tab) {va : Nat} (hva : va < USIZE)
    (he : pte v.mem tab (pageNo va) = 0) : Sv32.walk v.mem root va = none := by
  rw [h.sv32_walk hva, he]
  exact if_pos (.inl rfl)

/-- The same entries, the same translation. -/
theorem Tree.sv32_congr {v' : View} (h : Tree c v root tab) (h' : Tree c v' root tab)
    (he : ∀ q, pte v'.mem tab q = pte v.mem tab q) {va : Nat} :
    Sv32.walk v.mem root va = Sv32.walk v'.mem root va := by
  by_cases hva : va < USIZE
  · rw [h.sv32_walk hva, h'.sv32_walk hva, he]
  · unfold Sv32.walk
    rw [if_neg hva, if_neg hva]

/-- Where a page of the user is found its entry maps it. -/
theorem Space.walk_maps {u : Uvm} (h : Space c v u tab) {va e a : Nat}
    (hw : Sv32.walk v.mem u.pagetable.root va = some (e, a)) (hu : e / 16 % 2 = 1) :
    Maps (pte v.mem tab (pageNo va)) (pageOf a) := by
  have hva : va < USIZE := by
    by_contra hno
    unfold Sv32.walk at hw
    rw [if_neg hno] at hw
    cases hw
  rw [h.tree.sv32_walk hva] at hw
  split at hw
  · cases hw
  next hn =>
  obtain ⟨he, ha⟩ := Prod.mk.inj (Option.some.inj hw)
  have hne : pte v.mem tab (pageNo va) ≠ 0 := fun h0 => hn (.inl (by rw [h0]))
  obtain ⟨f, perm, hp, hf, hr, hl⟩ := h.leaf _ hne
  have hal : Aligned f := hr.aligned hf
  have hfr : frameOf (pte v.mem tab (pageNo va)) = f := by rw [hl, frameOf_leafWord hal hp]
  have hpa : pageOf a = f := by
    have h1 := hal.1
    have h2 := hp.1
    rw [hl] at ha
    unfold leafWord at ha
    rw [PAGESIZE_eq] at h1
    refine pageOf_eq_of hf ?_
    rw [PAGESIZE_eq]
    omega
  rw [hpa]
  refine ⟨?_, ?_, hfr⟩
  · have := fun h0 => hn (.inl h0)
    omega
  · rw [he]
    exact hu

/-- It is a page of the owner, and no table. -/
theorem Space.user_walk {u : Uvm} (h : Space c v u tab) {va e a : Nat}
    (hw : Sv32.walk v.mem u.pagetable.root va = some (e, a)) (hu : e / 16 % 2 = 1) :
    pageOf a ∈ v.own ∧ ¬ Tree.Has u.pagetable.root tab (pageOf a) :=
  h.user _ _ (h.walk_maps hw hu)

end

/-! ## What a run reads -/

/-- The bytes an operation reads as data. -/
def dataRead : MemOp → Option Nat
  | .readByte a => some a
  | _ => none

/-- The physical addresses that `p` reads bytes from, or faults at, in order. -/
abbrev M.reads {α : Type} (c : Cfg) (p : M α) (s : Phys) : List Nat :=
  Free.trace (Phys.exec c) dataRead p s

namespace M

variable {c : Cfg} {α β : Type} {s s' : Phys}

/-- `p` runs to `a` without reading data. -/
def Quiet (c : Cfg) (p : M α) (s : Phys) (a : α) : Prop :=
  p.run c s = .ok (a, s) ∧ p.reads c s = []

theorem Quiet.bind {p : M α} {a : α} (h : Quiet c p s a) (f : α → M β) :
    (p >>= f).run c s = (f a).run c s ∧ (p >>= f).reads c s = (f a).reads c s := by
  unfold M.run M.reads
  rw [Free.run_bind, Free.trace_bind]
  have h1 : Free.run (Phys.exec c) p s = .ok (a, s) := h.1
  have h2 : Free.trace (Phys.exec c) dataRead p s = [] := h.2
  rw [h1, h2]
  exact ⟨rfl, rfl⟩

theorem Quiet.seq {p : M α} {a : α} (h : Quiet c p s a) {f : α → M β} {b : β}
    (hf : Quiet c (f a) s b) : Quiet c (p >>= f) s b := by
  obtain ⟨h1, h2⟩ := h.bind f
  exact ⟨h1.trans hf.1, h2.trans hf.2⟩

theorem quiet_pure (a : α) : Quiet c (pure a) s a := ⟨rfl, rfl⟩

theorem quiet_read {a : Nat} (h : Readable a 4) : Quiet c (read a) s (s.mem.word a) := by
  unfold Quiet M.run M.reads read perform Free.perform
  rw [Free.run_op, Free.trace_op]
  simp only [Phys.exec, if_pos h]
  exact ⟨rfl, rfl⟩

theorem quiet_add {a b : Nat} (h : a + b < USIZE) : Quiet c (add a b) s (a + b) := by
  unfold add
  rw [if_pos h]
  exact quiet_pure _

end M

section
variable {c : Cfg} {v : View} {u : Uvm} {tab : Nat → Option Nat} {s : Phys}

theorem quiet_walk (h : Tree c v u.pagetable.root tab) (hm : v.mem = s.mem) {va : Nat}
    (hva : va < USIZE) : M.Quiet c (u.pagetable.walk va .Walk) s (slot tab (pageNo va)) := by
  have hi := pageNo_lt hva
  unfold PageTable.walk
  simp only [VA.vpn, vpn1_eq hva, vpn0_eq]
  refine (M.quiet_read (h.root_frame.entry_readable hi)).seq ?_
  rw [← hm, h.dir _ hi]
  cases ht : tab (pageNo va / 1024) with
  | none => simpa [PageTable.walkNext, dirWord, slot, ht] using M.quiet_pure _
  | some t =>
    obtain ⟨hv, htb, -⟩ := ptrWord_decode (h.frame ht).aligned
    simp only [PageTable.walkNext, dirWord, hv, htb, ↓reduceIte, nonNull,
      if_neg (h.frame ht).ne_zero, slot, ht]
    exact M.quiet_pure _

theorem quiet_walkaddr (h : Space c v u tab) (hm : v.mem = s.mem) {va : Nat} (hva : va < USIZE) :
    M.Quiet c (u.pagetable.walkaddr va) s
      ((Sv32.walk s.mem u.pagetable.root va).map fun q => q.2) := by
  have hw := h.tree.sv32_walk hva
  rw [hm] at hw
  rw [hw]
  unfold PageTable.walkaddr
  refine (quiet_walk h.tree hm hva).seq ?_
  cases hs : slot tab (pageNo va) with
  | none =>
    have h0 : pte s.mem tab (pageNo va) = 0 := by
      rw [slot, Option.map_eq_none_iff] at hs
      rw [pte, hs]
    rw [h0]
    exact M.quiet_pure _
  | some a =>
    obtain ⟨t, ht, rfl⟩ := Option.map_eq_some_iff.1 hs
    have hp : s.mem.word (t + 4 * (pageNo va % 1024)) = pte s.mem tab (pageNo va) := by
      rw [pte, ht]
    refine (M.quiet_read ((h.tree.frame ht).entry_readable (by omega))).seq ?_
    rw [hp]
    have hleaf := h.leaf (pageNo va)
    rw [hm] at hleaf
    generalize pte s.mem tab (pageNo va) = w at *
    dsimp only
    rw [Pte.v_eq, Pte.r_eq, Pte.w_eq, Pte.x_eq, Pte.pa_eq]
    by_cases hw0 : w % 2 = 0 ∨ ¬ Sv32.isLeaf w
    · rw [if_pos hw0, if_pos (by unfold Sv32.isLeaf at hw0; simp; omega)]
      exact M.quiet_pure _
    · rw [if_neg hw0, if_neg (by unfold Sv32.isLeaf at hw0; simp; omega)]
      obtain ⟨f, perm, hpm, hfp, hfr, rfl⟩ := hleaf fun h0 => by
        rw [h0] at hw0
        exact hw0 (.inl rfl)
      have hal := hfr.aligned hfp
      have hf : frameOf (leafWord f perm) = f := frameOf_leafWord hal hpm
      have hf' : leafWord f perm / 2 ^ 10 * 2 ^ 12 = f := by
        have h1 := hpm.1
        unfold leafWord
        rw [PAGESIZE_eq] at hfp
        omega
      have hb := hfr.2
      have hre : RAMEND = 0x84000000 := rfl
      rw [show leafWord f perm / 1024 * 4096 % USIZE = f from hf, hf', show 2 ^ 12 = PAGESIZE by
        rw [PAGESIZE_eq]; norm_num]
      rw [PAGESIZE_eq] at hb ⊢
      exact (M.quiet_add (by rw [USIZE_eq]; omega)).seq (M.quiet_pure _)

end

/-! ## Reading on in physical memory -/

section
variable {c : Cfg} {s : Phys}

theorem readByte_ok {a : Nat} (h : Readable a 1) {α : Type} (f : UInt8 → M α) :
    (M.readByte a >>= f).run c s = (f (s.mem a)).run c s ∧
      (M.readByte a >>= f).reads c s = a :: (f (s.mem a)).reads c s := by
  unfold M.run M.reads M.readByte M.perform
  rw [Free.perform_bind, Free.run_op, Free.trace_op]
  simp only [Phys.exec, if_pos h]
  exact ⟨trivial, rfl⟩

theorem readByte_fault {a : Nat} (h : ¬ Readable a 1) {α : Type} (f : UInt8 → M α) :
    (M.readByte a >>= f).run c s = .error "page fault" ∧
      (M.readByte a >>= f).reads c s = [a] := by
  unfold M.run M.reads M.readByte M.perform
  rw [Free.perform_bind, Free.run_op, Free.trace_op]
  simp only [Phys.exec, if_neg h]
  exact ⟨trivial, rfl⟩

/-- The reads of a program that goes on with a pure result. -/
theorem map_run {α β : Type} (p : M α) (f : α → β) :
    (p >>= fun a => pure (f a)).reads c s = p.reads c s ∧
      ∀ b s', (p >>= fun a => pure (f a)).run c s = .ok (b, s') ↔
        ∃ a, p.run c s = .ok (a, s') ∧ f a = b := by
  unfold M.run M.reads
  rw [Free.run_bind, Free.trace_bind]
  cases Free.run (Phys.exec c) p s with
  | error e =>
    refine ⟨List.append_nil _, fun b s' => ⟨fun h => ?_, fun ⟨a, h, _⟩ => ?_⟩⟩ <;> cases h
  | ok q =>
    refine ⟨List.append_nil _, fun b s' => ⟨fun h => ?_, fun ⟨a, h, hf⟩ => ?_⟩⟩
    · cases h
      exact ⟨q.1, rfl, rfl⟩
    · cases h
      rw [← hf]
      rfl

/-- The `i`-th read of `readBytes` is at the `i`-th address. -/
theorem readBytes_reads (n : Nat) : ∀ (a i x : Nat), ((readBytes a n).reads c s)[i]? = some x →
    x = a + i ∧ i < n := by
  induction n with
  | zero => intro a i x h; cases h
  | succ n ih =>
    intro a i x h
    unfold readBytes at h
    by_cases hr : Readable a 1
    · rw [(readByte_ok hr _).2, (map_run _ _).1] at h
      cases i with
      | zero => exact ⟨(Option.some.inj h).symm, by omega⟩
      | succ i =>
        have := ih (a + 1) i x h
        omega
    · rw [(readByte_fault hr _).2] at h
      cases i with
      | zero => exact ⟨(Option.some.inj h).symm, by omega⟩
      | succ i => cases h

/-- It is made when the reads before it do not fault. -/
theorem readBytes_get (n : Nat) : ∀ (a i : Nat), i < n → (∀ j < i, Readable (a + j) 1) →
    ((readBytes a n).reads c s)[i]? = some (a + i) := by
  induction n with
  | zero => intro a i hi; omega
  | succ n ih =>
    intro a i hi hr
    unfold readBytes
    cases i with
    | zero =>
      by_cases h0 : Readable a 1
      · rw [(readByte_ok h0 _).2]; rfl
      · rw [(readByte_fault h0 _).2]; rfl
    | succ i =>
      have h0 : Readable a 1 := hr 0 (by omega)
      rw [(readByte_ok h0 _).2, (map_run _ _).1, List.getElem?_cons_succ,
        ih (a + 1) i (by omega) fun j hj => ?_]
      · congr 1; omega
      · have := hr (j + 1) (by omega)
        rwa [← Nat.add_assoc, Nat.add_right_comm] at this

/-- The bytes read. -/
theorem readBytes_run (n : Nat) : ∀ {a : Nat} {bs : List UInt8} {s' : Phys},
    (readBytes a n).run c s = .ok (bs, s') → s' = s ∧ bs.length = n ∧
      ∀ i < n, bs[i]? = some (s.mem (a + i)) := by
  induction n with
  | zero =>
    intro a bs s' h
    cases h
    exact ⟨rfl, rfl, fun i hi => by omega⟩
  | succ n ih =>
    intro a bs s' h
    unfold readBytes at h
    by_cases hr : Readable a 1
    · rw [(readByte_ok hr _).1, (map_run _ _).2] at h
      obtain ⟨bs, h, rfl⟩ := h
      obtain ⟨h0, h1, h2⟩ := ih h
      refine ⟨h0, by rw [List.length_cons, h1], fun i hi => ?_⟩
      cases i with
      | zero => rfl
      | succ i =>
        rw [List.getElem?_cons_succ, h2 i (by omega)]
        congr 2; omega
    · rw [(readByte_fault hr _).1] at h
      cases h

/-- It ends when it can read them all. -/
theorem readBytes_ok (n : Nat) : ∀ {a : Nat}, (∀ i < n, Readable (a + i) 1) →
    ∃ bs, (readBytes a n).run c s = .ok (bs, s) := by
  induction n with
  | zero => exact fun _ => ⟨[], rfl⟩
  | succ n ih =>
    intro a hr
    obtain ⟨bs, h⟩ := ih (a := a + 1) fun i hi => by
      have := hr (i + 1) (by omega)
      rwa [← Nat.add_assoc, Nat.add_right_comm] at this
    unfold readBytes
    rw [(readByte_ok (a := a) (hr 0 (Nat.succ_pos n)) _).1]
    exact ⟨_, ((map_run _ _).2 _ _).2 ⟨bs, h, rfl⟩⟩

theorem readStr_reads (n : Nat) : ∀ (a i x : Nat), ((readStr a n).reads c s)[i]? = some x →
    x = a + i ∧ ∀ j < i, s.mem (a + j) ≠ 0 := by
  induction n with
  | zero => intro a i x h; cases h
  | succ n ih =>
    intro a i x h
    unfold readStr at h
    by_cases hr : Readable a 1
    · rw [(readByte_ok hr _).2] at h
      cases i with
      | zero => exact ⟨(Option.some.inj h).symm, fun j hj => by omega⟩
      | succ i =>
        by_cases h0 : s.mem a = 0
        · rw [if_pos h0] at h
          cases h
        · rw [if_neg h0, (map_run _ _).1] at h
          obtain ⟨hx, hz⟩ := ih (a + 1) i x h
          refine ⟨by omega, fun j hj => ?_⟩
          cases j with
          | zero => exact h0
          | succ j =>
            have := hz j (by omega)
            rwa [Nat.add_right_comm] at this
    · rw [(readByte_fault hr _).2] at h
      cases i with
      | zero => exact ⟨(Option.some.inj h).symm, fun j hj => by omega⟩
      | succ i => cases h

theorem readStr_get (n : Nat) : ∀ (a i : Nat), i < n →
    (∀ j < i, Readable (a + j) 1 ∧ s.mem (a + j) ≠ 0) →
    ((readStr a n).reads c s)[i]? = some (a + i) := by
  induction n with
  | zero => intro a i hi; omega
  | succ n ih =>
    intro a i hi hr
    unfold readStr
    cases i with
    | zero =>
      by_cases h0 : Readable a 1
      · rw [(readByte_ok h0 _).2]; rfl
      · rw [(readByte_fault h0 _).2]; rfl
    | succ i =>
      obtain ⟨h0, h1⟩ : Readable a 1 ∧ s.mem a ≠ 0 := hr 0 (by omega)
      rw [(readByte_ok h0 _).2, if_neg h1, (map_run _ _).1, List.getElem?_cons_succ,
        ih (a + 1) i (by omega) fun j hj => ?_]
      · congr 1; omega
      · have := hr (j + 1) (by omega)
        rwa [← Nat.add_assoc, Nat.add_right_comm] at this

theorem readStr_run (n : Nat) : ∀ {a : Nat} {bs : List UInt8} {s' : Phys},
    (readStr a n).run c s = .ok (bs, s') → s' = s ∧ s.mem (a + bs.length) = 0 ∧
      ∀ i < bs.length, bs[i]? = some (s.mem (a + i)) ∧ s.mem (a + i) ≠ 0 := by
  induction n with
  | zero => intro a bs s' h; cases h
  | succ n ih =>
    intro a bs s' h
    unfold readStr at h
    by_cases hr : Readable a 1
    · rw [(readByte_ok hr _).1] at h
      by_cases h0 : s.mem a = 0
      · rw [if_pos h0] at h
        cases h
        exact ⟨rfl, h0, fun i hi => by cases hi⟩
      · rw [if_neg h0, (map_run _ _).2] at h
        obtain ⟨bs, h, rfl⟩ := h
        obtain ⟨hs, h1, h2⟩ := ih h
        refine ⟨hs, by rwa [List.length_cons, ← Nat.add_assoc, Nat.add_right_comm], fun i hi => ?_⟩
        cases i with
        | zero => exact ⟨rfl, h0⟩
        | succ i =>
          rw [List.getElem?_cons_succ, ← Nat.add_assoc, Nat.add_right_comm]
          exact h2 i (by rw [List.length_cons] at hi; omega)
    · rw [(readByte_fault hr _).1] at h
      cases h

end

/-! ## Faithful reads -/

/-- `p` reads `len` bytes at `addr` as the user program would: every byte it reads is at the
address that the user's own load would read, and it fails when part of the range is not mapped. -/
structure ReadsUser (c : Cfg) (s : Phys) (u : Uvm) (addr len : Nat)
    (p : M (Except Unit (List UInt8))) : Prop where
  reads : ∀ i a, (p.reads c s)[i]? = some a →
    Sv32.userLoad s.mem u.pagetable.root (addr + i) = some a
  bytes : ∀ bs s', p.run c s = .ok (.ok bs, s') → bs.length = len ∧ ∀ i < len, ∃ a,
    Sv32.userLoad s.mem u.pagetable.root (addr + i) = some a ∧ bs[i]? = some (s.mem a)
  err : (∃ i < len, ¬ Sv32.Mapped s.mem u.pagetable.root (addr + i)) →
    ∃ s', p.run c s = .ok (.error (), s')

/-- `p` reads a string at `addr` as the user program would, up to the first NUL. -/
structure ReadsUserStr (c : Cfg) (s : Phys) (u : Uvm) (addr : Nat)
    (p : M (Except Unit (List UInt8))) : Prop where
  reads : ∀ i a, (p.reads c s)[i]? = some a →
    Sv32.userLoad s.mem u.pagetable.root (addr + i) = some a
  bytes : ∀ bs s', p.run c s = .ok (.ok bs, s') →
    (∀ i < bs.length, ∃ a, Sv32.userLoad s.mem u.pagetable.root (addr + i) = some a ∧
      bs[i]? = some (s.mem a) ∧ s.mem a ≠ 0) ∧
    ∃ a, Sv32.userLoad s.mem u.pagetable.root (addr + bs.length) = some a ∧ s.mem a = 0
  err : (∃ i, ¬ Sv32.Mapped s.mem u.pagetable.root (addr + i) ∧ ∀ j < i, ∃ a,
      Sv32.userLoad s.mem u.pagetable.root (addr + j) = some a ∧ s.mem a ≠ 0) →
    ∃ s', p.run c s = .ok (.error (), s')

/-- The user program can read `[addr, addr + len)`, and its pages lie one after another in
physical memory. -/
def Contiguous (m : Bytes) (root addr len : Nat) : Prop :=
  ∃ a₀, ∀ i < len, Sv32.userLoad m root (addr + i) = some (a₀ + i)

/-- The user program can read the string at `addr` up to its first NUL, and its pages lie one after
another in physical memory. -/
def ContiguousStr (m : Bytes) (root addr : Nat) : Prop :=
  ∃ n a₀, (∀ i ≤ n, Sv32.userLoad m root (addr + i) = some (a₀ + i)) ∧ m (a₀ + n) = 0 ∧
    ∀ i < n, m (a₀ + i) ≠ 0

theorem Sv32.mapped_of_userLoad {m : Bytes} {root va a : Nat}
    (h : Sv32.userLoad m root va = some a) : Sv32.Mapped m root va := by
  unfold Sv32.userLoad at h
  unfold Sv32.Mapped
  cases hw : Sv32.walk m root va with
  | none => rw [hw] at h; cases h
  | some q => rfl

theorem Sv32.userLoad_walk {m : Bytes} {root va a : Nat} {q : Nat × Nat}
    (hw : Sv32.walk m root va = some q) (h : Sv32.userLoad m root va = some a) : a = q.2 := by
  unfold Sv32.userLoad at h
  rw [hw] at h
  dsimp only at h
  split at h
  · exact (Option.some.inj h).symm
  · cases h

section
variable {c : Cfg} {v : View} {u : Uvm} {tab : Nat → Option Nat} {s : Phys}

/-- A user's load reads memory. -/
theorem Space.userLoad_readable (h : Space c v u tab) (hm : v.mem = s.mem) {va a : Nat}
    (hl : Sv32.userLoad s.mem u.pagetable.root va = some a) : Readable a 1 := by
  have hlt : va < USIZE := by
    by_contra hge
    unfold Sv32.userLoad Sv32.walk at hl
    rw [if_neg hge] at hl
    cases hl
  have hw := h.tree.sv32_walk hlt
  rw [hm] at hw
  split at hw
  · unfold Sv32.userLoad at hl
    rw [hw] at hl
    cases hl
  · rename_i hn
    rw [Sv32.userLoad_walk hw hl]
    have h0 : pte v.mem tab (pageNo va) ≠ 0 := fun h0 => hn (.inl (by rw [← hm, h0]))
    obtain ⟨f, perm, hp, hf, hr, he⟩ := h.leaf _ h0
    rw [hm] at he
    have h1 := hp.1
    rw [he]
    unfold leafWord
    have h2 := hr.1
    have h3 := hr.2
    rw [PAGESIZE_eq] at hf h3
    unfold Readable
    dsimp only
    omega

/-- The code after a translation. -/
theorem walkaddr_run (h : Space c v u tab) (hm : v.mem = s.mem) {addr : Nat} (ha : addr < USIZE)
    {α : Type} (f : Option Nat → M α) :
    (u.pagetable.walkaddr addr >>= f).run c s =
        (f ((Sv32.walk s.mem u.pagetable.root addr).map fun q => q.2)).run c s ∧
      (u.pagetable.walkaddr addr >>= f).reads c s =
        (f ((Sv32.walk s.mem u.pagetable.root addr).map fun q => q.2)).reads c s :=
  (quiet_walkaddr h hm ha).bind f

theorem copyInCont_iff (h : Space c v u tab) (hm : v.mem = s.mem) {addr len : Nat}
    (ha : addr < USIZE) : ReadsUser c s u addr len (copyInCont u addr len) ↔
      ¬ Sv32.Mapped s.mem u.pagetable.root addr ∨
        Contiguous s.mem u.pagetable.root addr len := by
  have hw := fun (f : Option Nat → M (Except Unit (List UInt8))) => walkaddr_run h hm ha f
  cases hq : Sv32.walk s.mem u.pagetable.root addr with
  | none =>
    -- the first page is not mapped
    refine iff_of_true ?_ (.inl fun hmp => ?_)
    · unfold copyInCont
      refine ⟨fun i a hi => ?_, fun bs s' hr => ?_, fun _ => ⟨s, ?_⟩⟩
      · rw [(hw _).2, hq] at hi
        cases hi
      · rw [(hw _).1, hq] at hr
        cases hr
      · rw [(hw _).1, hq]
        rfl
    · unfold Sv32.Mapped at hmp
      rw [hq] at hmp
      cases hmp
  | some q =>
    have hmp : Sv32.Mapped s.mem u.pagetable.root addr := by
      unfold Sv32.Mapped
      rw [hq]
      rfl
    have hreads : (copyInCont u addr len).reads c s = (readBytes q.2 len).reads c s := by
      unfold copyInCont
      rw [(hw _).2, hq]
      exact (map_run _ _).1
    have hrun : ∀ r s', (copyInCont u addr len).run c s = .ok (r, s') →
        ∃ bs, (readBytes q.2 len).run c s = .ok (bs, s') ∧ .ok bs = r := fun r s' hr => by
      unfold copyInCont at hr
      rw [(hw _).1, hq] at hr
      exact ((map_run _ _).2 _ _).1 hr
    constructor
    · -- each byte in turn is read, so it must be the user's
      intro hru
      refine .inr ⟨q.2, fun i => ?_⟩
      induction i using Nat.strong_induction_on with
      | _ i ih =>
        intro hi
        refine hru.reads i _ ?_
        rw [hreads]
        exact readBytes_get len q.2 i hi fun j hj => h.userLoad_readable hm (ih j hj (by omega))
    · rintro (hn | ⟨a₀, hc⟩)
      · exact absurd hmp hn
      · have ha₀ : ∀ i < len, a₀ + i = q.2 + i := fun i hi => by
          have : a₀ + 0 = q.2 := Sv32.userLoad_walk hq (hc 0 (by omega))
          omega
        refine ⟨fun i a hx => ?_, fun bs s' hr => ?_, fun ⟨i, hi, hn⟩ => ?_⟩
        · rw [hreads] at hx
          obtain ⟨rfl, hi⟩ := readBytes_reads len q.2 i a hx
          rw [hc i hi, ha₀ i hi]
        · obtain ⟨bs', hr, he⟩ := hrun _ _ hr
          cases he
          obtain ⟨-, h1, h2⟩ := readBytes_run len hr
          exact ⟨h1, fun i hi => ⟨a₀ + i, hc i hi, by rw [ha₀ i hi]; exact h2 i hi⟩⟩
        · exact absurd (Sv32.mapped_of_userLoad (hc i hi)) hn

theorem copyInStr_iff (h : Space c v u tab) (hm : v.mem = s.mem) {addr : Nat} (ha : addr < USIZE) :
    ReadsUserStr c s u addr (copyInStr u addr) ↔
      ¬ Sv32.Mapped s.mem u.pagetable.root addr ∨
        ContiguousStr s.mem u.pagetable.root addr := by
  have hw := fun (f : Option Nat → M (Except Unit (List UInt8))) => walkaddr_run h hm ha f
  cases hq : Sv32.walk s.mem u.pagetable.root addr with
  | none =>
    refine iff_of_true ?_ (.inl fun hmp => ?_)
    · unfold copyInStr
      refine ⟨fun i a hi => ?_, fun bs s' hr => ?_, fun _ => ⟨s, ?_⟩⟩
      · rw [(hw _).2, hq] at hi
        cases hi
      · rw [(hw _).1, hq] at hr
        cases hr
      · rw [(hw _).1, hq]
        rfl
    · unfold Sv32.Mapped at hmp
      rw [hq] at hmp
      cases hmp
  | some q =>
    have hmp : Sv32.Mapped s.mem u.pagetable.root addr := by
      unfold Sv32.Mapped
      rw [hq]
      rfl
    generalize hn : RAMEND - q.2 + 1 = n
    have hreads : (copyInStr u addr).reads c s = (readStr q.2 n).reads c s := by
      unfold copyInStr
      rw [(hw _).2, hq]
      dsimp only [Option.map_some]
      rw [hn]
      exact (map_run _ _).1
    have hrun : ∀ r s', (copyInStr u addr).run c s = .ok (r, s') →
        ∃ bs, (readStr q.2 n).run c s = .ok (bs, s') ∧ fromUtf8 bs = r := fun r s' hr => by
      unfold copyInStr at hr
      rw [(hw _).1, hq] at hr
      dsimp only [Option.map_some] at hr
      rw [hn] at hr
      exact ((map_run _ _).2 _ _).1 hr
    constructor
    · intro hru
      refine .inr ?_
      by_contra hno
      -- there is no NUL, so every byte is read and is the user's
      have hall : ∀ i, Sv32.userLoad s.mem u.pagetable.root (addr + i) = some (q.2 + i) ∧
          s.mem (q.2 + i) ≠ 0 := by
        intro i
        induction i using Nat.strong_induction_on with
        | _ i ih =>
          have hin : i < n := by
            cases i with
            | zero => omega
            | succ i =>
              have := (h.userLoad_readable hm (ih i (by omega)).1).2
              omega
          have hl : Sv32.userLoad s.mem u.pagetable.root (addr + i) = some (q.2 + i) := by
            refine hru.reads i _ ?_
            rw [hreads]
            exact readStr_get n q.2 i hin fun j hj =>
              ⟨h.userLoad_readable hm (ih j hj).1, (ih j hj).2⟩
          refine ⟨hl, fun h0 => hno ⟨i, q.2, fun j hj => ?_, h0, fun j hj => (ih j hj).2⟩⟩
          rcases Nat.lt_or_eq_of_le hj with hj | rfl
          · exact (ih j hj).1
          · exact hl
      have := (h.userLoad_readable hm (hall RAMEND).1).2
      omega
    · rintro (hn' | ⟨k, a₀, hc, h0, hk⟩)
      · exact absurd hmp hn'
      · obtain rfl : a₀ = q.2 := Sv32.userLoad_walk hq (hc 0 (by omega))
        have hle : ∀ i, (∀ j < i, s.mem (q.2 + j) ≠ 0) → i ≤ k := fun i hi => by
          by_contra hlt
          exact hi k (by omega) h0
        refine ⟨fun i a hx => ?_, fun bs s' hr => ?_, fun ⟨i, hnm, hi⟩ => ?_⟩
        · rw [hreads] at hx
          obtain ⟨rfl, hz⟩ := readStr_reads n q.2 i a hx
          exact hc i (hle i hz)
        · obtain ⟨bs', hr', he⟩ := hrun _ _ hr
          obtain rfl : bs' = bs := by
            unfold fromUtf8 at he
            split at he
            · exact Except.ok.inj he
            · cases he
          obtain ⟨-, h1, h2⟩ := readStr_run n hr'
          have hlen := hle _ fun j hj => (h2 j hj).2
          exact ⟨fun i hi => ⟨q.2 + i, hc i (by omega), (h2 i hi).1, (h2 i hi).2⟩, q.2 + bs'.length,
            hc _ hlen, h1⟩
        · -- an unmapped page lies after the NUL
          have hik : k < i := by
            by_contra hik
            exact hnm (Sv32.mapped_of_userLoad (hc i (by omega)))
          obtain ⟨a, hl, hne⟩ := hi k hik
          rw [hc k (by omega)] at hl
          exact absurd (Option.some.inj hl ▸ h0) hne

end

/-- **User reads are faithful** exactly when nothing is mapped at the first address, or the user
program can read the whole range and its pages lie one after another in physical memory: only the
first address is translated. -/
theorem copyIn_faithful_iff {c : Cfg} {w : World} (h : World.Reach c w) {k : Nat} {u : Uvm}
    (hk : w.uvms k = some u) {addr : Nat} (ha : addr < USIZE) :
    (∀ len, ReadsUser c w.phys u addr len (copyInCont u addr len) ↔
      ¬ Sv32.Mapped w.phys.mem u.pagetable.root addr ∨
        Contiguous w.phys.mem u.pagetable.root addr len) ∧
    (∀ size, ReadsUser c w.phys u addr size (copyIn u addr size) ↔
      ¬ Sv32.Mapped w.phys.mem u.pagetable.root addr ∨
        Contiguous w.phys.mem u.pagetable.root addr size) ∧
    (ReadsUserStr c w.phys u addr (copyInStr u addr) ↔
      ¬ Sv32.Mapped w.phys.mem u.pagetable.root addr ∨
        ContiguousStr w.phys.mem u.pagetable.root addr) := by
  obtain ⟨tab, hsp, -⟩ := h.inv.space k u hk
  exact ⟨fun len => copyInCont_iff hsp rfl ha, fun size => copyInCont_iff hsp rfl ha,
    copyInStr_iff hsp rfl ha⟩

theorem copyIn_faithful_iff_demo : ∃ w u, World.Reach Cfg.demo w ∧ w.uvms 0 = some u ∧
    (∀ len, ReadsUser Cfg.demo w.phys u USER_START len (copyInCont u USER_START len) ↔
      ¬ Sv32.Mapped w.phys.mem u.pagetable.root USER_START ∨
        Contiguous w.phys.mem u.pagetable.root USER_START len) := by
  obtain ⟨w, u, -, -, h, hk, -⟩ := World.demo_alloc (n := 2) (by omega)
    (show PTE_R ||| PTE_W ≠ 0 by decide) ⟨by decide, by decide⟩
  exact ⟨w, u, h, hk, (copyIn_faithful_iff h hk (by rw [USIZE_eq]; decide)).1⟩

/-- Two user pages whose frames do not lie one after the other: the last byte of the first, and
the first byte of the second. What follows the first in physical memory differs. -/
theorem World.demo_pair : ∃ w u e e' a b, World.Reach Cfg.demo w ∧ w.uvms 0 = some u ∧
    u.size = 2 * PAGESIZE ∧
    Sv32.walk w.phys.mem u.pagetable.root (USER_START + 0xfff) = some (e, a) ∧
    Sv32.walk w.phys.mem u.pagetable.root (USER_START + 0xfff + 1) = some (e', b) ∧
    b ≠ a + 1 ∧ (∀ i < 2, Cfg.demo.Writable (a + i) 1) ∧
    (e / 16 % 2 = 1 ∧ e / 2 % 2 = 1) ∧ (e' / 16 % 2 = 1 ∧ e' / 2 % 2 = 1) ∧
    w.phys.mem (a + 1) ≠ w.phys.mem b := by
  have hsz := PAGESIZE_eq
  have hus : USER_START = 0x10000 := rfl
  obtain ⟨w, u, tab, fr, h, hk, hsp, hsize, hp, hinj, -, htab, hmem⟩ := World.demo_alloc (n := 2)
    (by omega) (show PTE_R ||| PTE_W ≠ 0 by decide) ⟨by decide, by decide⟩
  have hpn : pageNo USER_START = 0x10 := by unfold pageNo; rw [hsz]; rfl
  -- both pages are mapped, each to a frame of its own
  have hwalk : ∀ va, InPages (pageNo USER_START) 2 (pageNo va) → va < USIZE →
      Sv32.walk w.phys.mem u.pagetable.root va =
        some (leafWord (fr (pageNo va)) 0x16, fr (pageNo va) + va % 2 ^ 12) := by
    intro va hq hlt
    obtain ⟨he, hf⟩ := hp _ hq
    obtain ⟨i, hi, hfi⟩ := mem_demoFrames hf
    have hw := hsp.tree.sv32_walk hlt
    have hperm : PTE_R ||| PTE_W ||| PTE_U = 0x16 := rfl
    simp only [he, hperm] at hw
    rw [hw, hfi]
    unfold leafWord Sv32.isLeaf
    rw [if_neg (by omega)]
    congr 2
    omega
  have hp0 : pageNo (USER_START + 0xfff) = 0x10 := by unfold pageNo; rw [hsz]; rfl
  have hp1 : pageNo (USER_START + 0xfff + 1) = 0x11 := by unfold pageNo; rw [hsz]; rfl
  have hi0 : InPages (pageNo USER_START) 2 0x10 := by rw [hpn]; exact ⟨by omega, by omega⟩
  have hi1 : InPages (pageNo USER_START) 2 0x11 := by rw [hpn]; exact ⟨by omega, by omega⟩
  have h0 := hwalk (USER_START + 0xfff) (by rw [hp0]; exact hi0) (by rw [hus, USIZE_eq]; omega)
  have h1 := hwalk (USER_START + 0xfff + 1) (by rw [hp1]; exact hi1)
    (by rw [hus, USIZE_eq]; omega)
  rw [hp0] at h0
  rw [hp1] at h1
  obtain ⟨i, hi, hf0⟩ := mem_demoFrames (hp _ hi0).2
  obtain ⟨j, hj, hf1⟩ := mem_demoFrames (hp _ hi1).2
  refine ⟨w, u, _, _, _, _, h, hk, hsize, h0, h1, ?_, fun k hk => ?_, ?_, ?_, ?_⟩
  · rw [hf0, hf1, hus]
    omega
  · have he : Cfg.demo.etext = 0x80201000 := rfl
    have hr : RAMEND = 0x84000000 := rfl
    unfold Cfg.Writable
    rw [he, hr, hf0, hus]
    omega
  · rw [hf0]
    unfold leafWord
    omega
  · rw [hf1]
    unfold leafWord
    omega
  · -- the page after the first is no frame; the second holds its own number
    have hpage : ∀ {g}, g % 4096 = 0 → pageOf g = g := fun hg => pageOf_self (by rw [hsz]; exact hg)
    have hout : ¬ Tree.Has u.pagetable.root tab (pageOf (fr 0x10 + 0x1000)) := fun hh => by
      obtain ⟨k, -, hk⟩ := mem_demoFrames (htab _ hh)
      rw [hpage (by omega)] at hk
      omega
    have hb : ¬ Tree.Has u.pagetable.root tab (pageOf (fr 0x11)) := by
      rw [hpage (by omega)]
      exact (hsp.user 0x11 _ (by
        rw [(hp _ hi1).1]
        exact maps_leafWord (demoFrames_frame (by omega) (hp _ hi1).2).aligned
          ⟨by decide, by decide⟩ (by decide))).2
    rw [show (USER_START + 0xfff) % 2 ^ 12 = 0xfff by decide,
      show (USER_START + 0xfff + 1) % 2 ^ 12 = 0 by decide, Nat.add_assoc (fr 0x10),
      Nat.add_zero (fr 0x11), hmem _ hout, hmem _ hb, hf0, hf1]
    intro he
    have he : UInt8.ofNat ((0x8020c000 + 0x2000 * i + 0x1000) / 4096) =
      UInt8.ofNat ((0x8020c000 + 0x2000 * j) / 4096) := he
    rw [← UInt8.toNat_inj, UInt8.toNat_ofNat', UInt8.toNat_ofNat'] at he
    omega

/-- Two bytes across a page boundary: the second is not the user's. -/
theorem copyInCont_unfaithful : ∃ w u b bs s, World.Reach Cfg.demo w ∧ w.uvms 0 = some u ∧
    u.size = 2 * PAGESIZE ∧
    Sv32.userLoad w.phys.mem u.pagetable.root (USER_START + 0xfff + 1) = some b ∧
    (copyInCont u (USER_START + 0xfff) 2).run Cfg.demo w.phys = .ok (.ok bs, s) ∧
    bs[1]? ≠ some (w.phys.mem b) ∧
    ¬ ReadsUser Cfg.demo w.phys u (USER_START + 0xfff) 2
      (copyInCont u (USER_START + 0xfff) 2) := by
  obtain ⟨w, u, e, e', a, b, h, hk, hsize, hw, hw', hne, hf, hu, hu', hdiff⟩ := World.demo_pair
  obtain ⟨tab, hsp, -⟩ := h.inv.space 0 u hk
  have h0 : Sv32.userLoad w.phys.mem u.pagetable.root (USER_START + 0xfff) = some a := by
    unfold Sv32.userLoad
    rw [hw]
    exact if_pos hu
  have h1 : Sv32.userLoad w.phys.mem u.pagetable.root (USER_START + 0xfff + 1) = some b := by
    unfold Sv32.userLoad
    rw [hw']
    exact if_pos hu'
  have ha : USER_START + 0xfff < USIZE := by
    rw [USIZE_eq]
    decide
  obtain ⟨bs, hr⟩ := readBytes_ok (c := Cfg.demo) (s := w.phys) 2 (a := a) fun i hi => by
    have h1 := hf i hi
    have h2 := Cfg.demo.etext_start
    unfold Cfg.Writable at h1
    unfold Readable
    omega
  refine ⟨w, u, b, bs, w.phys, h, hk, hsize, h1, ?_, ?_, fun hru => ?_⟩
  · unfold copyInCont
    rw [(walkaddr_run hsp rfl ha _).1, hw]
    exact ((map_run _ _).2 _ _).2 ⟨bs, hr, rfl⟩
  · rw [(readBytes_run 2 hr).2.2 1 (by omega)]
    exact fun he => hdiff (Option.some.inj he)
  · rw [copyInCont_iff hsp rfl ha] at hru
    rcases hru with hn | ⟨a₀, hc⟩
    · exact hn (Sv32.mapped_of_userLoad h0)
    · have e0 := Option.some.inj ((hc 0 (by omega)).symm.trans h0)
      have e1 := Option.some.inj ((hc 1 (by omega)).symm.trans h1)
      omega

end BareMetal
