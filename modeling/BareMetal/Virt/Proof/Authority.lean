import BareMetal.Virt.Proof.CopyOut

/-!
# The privilege of the copy functions

The copy functions run with the kernel's privilege: `walkaddr` checks V and R, W or X of the first
page, not U. `copy_authority_iff` says when every byte that a successful copy reads or writes is
one that the user program may itself load, or store to.
-/

namespace BareMetal

open Lib

/-- The user program may load all of physical memory `[a, a + n)`, at some addresses. -/
def MayLoad (m : Bytes) (root a n : Nat) : Prop :=
  ∀ i < n, ∃ va, Sv32.userLoad m root va = some (a + i)

/-- The user program may store to all of physical memory `[a, a + n)`, at some addresses. -/
def MayStore (m : Bytes) (root a n : Nat) : Prop :=
  ∀ i < n, ∃ va, Sv32.userStore m root va = some (a + i)

/-- When `p` succeeds, every byte it read is one that the user program may load. -/
def ReadsAsUser (c : Cfg) (s : Phys) (u : Uvm) (p : M (Except Unit (List UInt8))) : Prop :=
  ∀ bs s', p.run c s = .ok (.ok bs, s') →
    ∀ a ∈ p.reads c s, ∃ va, Sv32.userLoad s.mem u.pagetable.root va = some a

/-- When `p` succeeds, every byte it changed is one that the user program may store to. -/
def WritesAsUser (c : Cfg) (s : Phys) (u : Uvm) (p : M (Except Unit Unit)) : Prop :=
  ∀ s', p.run c s = .ok (.ok (), s') →
    ∀ a, s'.mem a ≠ s.mem a → ∃ va, Sv32.userStore s.mem u.pagetable.root va = some a

/-- `[addr, addr + n)` as the copy functions see it, from where `addr` leads on, is not all memory
that the kernel reads, or the user program may load all of it. -/
def LoadAllowed (m : Bytes) (root addr n : Nat) : Prop :=
  ∀ e a, Sv32.walk m root addr = some (e, a) →
    (∀ i < n, Readable (a + i) 1) → MayLoad m root a n

/-- The bytes `bs` and then a NUL are at `a`. -/
structure StrAt (m : Bytes) (a : Nat) (bs : List UInt8) : Prop where
  get : ∀ i < bs.length, bs[i]? = some (m (a + i)) ∧ m (a + i) ≠ 0
  nul : m (a + bs.length) = 0

/-- The same for the string at `addr`, when it is UTF-8. -/
def StrAllowed (m : Bytes) (root addr : Nat) : Prop :=
  ∀ e a bs, Sv32.walk m root addr = some (e, a) → StrAt m a bs → fromUtf8 bs = .ok bs →
    (∀ i < bs.length + 1, Readable (a + i) 1) → MayLoad m root a (bs.length + 1)

/-- The same for writes. -/
def StoreAllowed (c : Cfg) (m : Bytes) (root addr n : Nat) : Prop :=
  ∀ e a, Sv32.walk m root addr = some (e, a) →
    (∀ i < n, c.Writable (a + i) 1) → MayStore m root a n

section
variable {c : Cfg} {s : Phys}

/-- `readBytes` reads its range, when that is memory the kernel reads. -/
theorem readBytes_total (n : Nat) : ∀ a : Nat, (∀ i < n, Readable (a + i) 1) →
    ∃ bs, (readBytes a n).run c s = .ok (bs, s) := by
  induction n with
  | zero => exact fun a _ => ⟨[], rfl⟩
  | succ n ih =>
    intro a hr
    obtain ⟨bs, hbs⟩ := ih (a + 1) fun i hi => by
      have := hr (i + 1) (by omega)
      rwa [← Nat.add_assoc, Nat.add_right_comm] at this
    have h0 : Readable a 1 := hr 0 (by omega)
    unfold readBytes
    rw [(readByte_ok h0 _).1]
    exact ⟨_, ((map_run _ _).2 _ _).2 ⟨bs, hbs, rfl⟩⟩

theorem readBytes_readable (n : Nat) : ∀ {a : Nat} {bs : List UInt8} {s' : Phys},
    (readBytes a n).run c s = .ok (bs, s') → ∀ i < n, Readable (a + i) 1 := by
  induction n with
  | zero => exact fun _ i hi => absurd hi (Nat.not_lt_zero i)
  | succ n ih =>
    intro a bs s' h i hi
    unfold readBytes at h
    by_cases hr : Readable a 1
    · rw [(readByte_ok hr _).1, (map_run _ _).2] at h
      obtain ⟨bs', h', -⟩ := h
      cases i with
      | zero => exact hr
      | succ i =>
        have := ih h' i (by omega)
        rwa [Nat.add_right_comm] at this
    · rw [(readByte_fault hr _).1] at h
      cases h

theorem readStr_total (n : Nat) : ∀ (a : Nat) (bs : List UInt8), StrAt s.mem a bs →
    (∀ i < bs.length + 1, Readable (a + i) 1) → bs.length < n →
    (readStr a n).run c s = .ok (bs, s) := by
  induction n with
  | zero => exact fun a bs _ _ hn => absurd hn (Nat.not_lt_zero _)
  | succ n ih =>
    intro a bs hs hr hn
    have hr0 : Readable a 1 := hr 0 (by omega)
    unfold readStr
    rw [(readByte_ok hr0 _).1]
    cases bs with
    | nil =>
      have h0 : s.mem a = 0 := hs.nul
      rw [if_pos h0]
      rfl
    | cons b bs =>
      obtain ⟨hb, h0⟩ := hs.get 0 (by rw [List.length_cons]; omega)
      have hb : b = s.mem a := Option.some.inj hb
      have h0 : s.mem a ≠ 0 := h0
      rw [if_neg h0]
      refine ((map_run _ _).2 _ _).2 ⟨bs, ih (a + 1) bs ⟨fun i hi => ?_, ?_⟩ (fun i hi => ?_) ?_, ?_⟩
      · have := hs.get (i + 1) (by rw [List.length_cons]; omega)
        rwa [List.getElem?_cons_succ, ← Nat.add_assoc, Nat.add_right_comm] at this
      · have := hs.nul
        rwa [List.length_cons, ← Nat.add_assoc, Nat.add_right_comm] at this
      · have := hr (i + 1) (by rw [List.length_cons]; omega)
        rwa [← Nat.add_assoc, Nat.add_right_comm] at this
      · rw [List.length_cons] at hn
        omega
      · rw [hb]

theorem readStr_readable (n : Nat) : ∀ {a : Nat} {bs : List UInt8} {s' : Phys},
    (readStr a n).run c s = .ok (bs, s') → ∀ i < bs.length + 1, Readable (a + i) 1 := by
  induction n with
  | zero => intro a bs s' h; cases h
  | succ n ih =>
    intro a bs s' h i hi
    unfold readStr at h
    by_cases hr : Readable a 1
    · rw [(readByte_ok hr _).1] at h
      cases i with
      | zero => exact hr
      | succ i =>
        split at h
        · cases h
          exact absurd hi (by rw [List.length_nil]; omega)
        · rw [(map_run _ _).2] at h
          obtain ⟨bs', h', rfl⟩ := h
          rw [List.length_cons] at hi
          have := ih h' i (by omega)
          rwa [Nat.add_right_comm] at this
    · rw [(readByte_fault hr _).1] at h
      cases h

end

section
variable {c : Cfg} {v : View} {u : Uvm} {tab : Nat → Option Nat} {s : Phys}

theorem copyIn_authority (h : Space c v u tab) (hm : v.mem = s.mem) {addr n : Nat}
    (ha : addr < USIZE) :
    ReadsAsUser c s u (copyIn u addr n) ↔ LoadAllowed s.mem u.pagetable.root addr n := by
  have hw := fun (f : Option Nat → M (Except Unit (List UInt8))) => walkaddr_run h hm ha f
  unfold ReadsAsUser copyIn LoadAllowed
  rw [(hw _).1, (hw _).2]
  cases hq : Sv32.walk s.mem u.pagetable.root addr with
  | none =>
    refine iff_of_true (fun bs s' hr => ?_) fun e a he => ?_
    · cases hr
    · cases he
  | some q =>
    dsimp only [Option.map_some]
    rw [(map_run _ _).1]
    constructor
    · intro hp e a he hr i hi
      cases he
      obtain ⟨bs, hbs⟩ := readBytes_total (c := c) (s := s) n a hr
      refine hp bs s (((map_run _ _).2 _ _).2 ⟨bs, hbs, rfl⟩) _ ?_
      exact List.mem_of_getElem? (readBytes_get n a i hi fun j hj => hr j (by omega))
    · intro hp bs s' hr x hx
      obtain ⟨bs', hbs, -⟩ := ((map_run _ _).2 _ _).1 hr
      obtain ⟨i, hi⟩ := List.mem_iff_getElem?.1 hx
      obtain ⟨rfl, hin⟩ := readBytes_reads n q.2 i x hi
      exact hp q.1 q.2 rfl (readBytes_readable n hbs) i hin

theorem copyInStr_authority (h : Space c v u tab) (hm : v.mem = s.mem) {addr : Nat}
    (ha : addr < USIZE) :
    ReadsAsUser c s u (copyInStr u addr) ↔ StrAllowed s.mem u.pagetable.root addr := by
  have hw := fun (f : Option Nat → M (Except Unit (List UInt8))) => walkaddr_run h hm ha f
  unfold ReadsAsUser copyInStr StrAllowed
  rw [(hw _).1, (hw _).2]
  cases hq : Sv32.walk s.mem u.pagetable.root addr with
  | none =>
    refine iff_of_true (fun bs s' hr => ?_) fun e a bs he => ?_
    · cases hr
    · cases he
  | some q =>
    dsimp only [Option.map_some]
    rw [(map_run _ _).1]
    constructor
    · intro hp e a bs he hs hu hr i hi
      cases he
      -- the string is read to its end, which is in memory
      have hlen : bs.length < RAMEND - a + 1 := by
        have := (hr bs.length (by omega)).2
        omega
      refine hp bs s (((map_run _ _).2 _ _).2 ⟨bs, readStr_total _ a bs hs hr hlen, hu⟩) _ ?_
      refine List.mem_of_getElem? (readStr_get _ a i (by omega) fun j hj => ⟨hr j (by omega), ?_⟩)
      exact (hs.get j (by omega)).2
    · intro hp bs s' hr x hx
      obtain ⟨bs', hbs, hu⟩ := ((map_run _ _).2 _ _).1 hr
      obtain rfl : bs' = bs := by
        unfold fromUtf8 at hu
        split at hu
        · exact Except.ok.inj hu
        · cases hu
      obtain ⟨-, h0, hget⟩ := readStr_run _ hbs
      obtain ⟨i, hi⟩ := List.mem_iff_getElem?.1 hx
      obtain ⟨rfl, hz⟩ := readStr_reads _ q.2 i x hi
      refine hp q.1 q.2 bs' rfl ⟨hget, h0⟩ hu (readStr_readable _ hbs) i ?_
      by_contra hlt
      exact hz bs'.length (by omega) h0

theorem copyOut_authority (h : Space c v u tab) (hm : v.mem = s.mem) {addr n : Nat}
    (ha : addr < USIZE) :
    (∀ data : List UInt8, data.length = n → WritesAsUser c s u (copyOut u addr data)) ↔
      StoreAllowed c s.mem u.pagetable.root addr n := by
  have hrun := copyOut_run h hm ha
  unfold WritesAsUser StoreAllowed
  cases hq : Sv32.walk s.mem u.pagetable.root addr with
  | none =>
    refine iff_of_true (fun data _ s' hr => ?_) fun e a he => ?_
    · rw [hrun, hq] at hr
      cases hr
    · cases he
  | some q =>
    obtain ⟨e₀, a₀⟩ := q
    constructor
    · intro hp e a he hw i hi
      cases he
      -- data whose `i`-th byte is not the one in memory
      obtain ⟨y, -, hy⟩ := exists_other 0 (s.mem (a₀ + i))
      have hlen : (spike n i 0 y).length = n := by
        unfold spike
        rw [List.length_set, List.length_replicate]
      have hr := hrun (spike n i 0 y)
      rw [hq] at hr
      dsimp only at hr
      rw [hlen, if_pos hw] at hr
      refine hp _ hlen _ hr (a₀ + i) fun hsame => hy ?_
      have hi' : i < (spike n i 0 y).length := by rwa [hlen]
      have hat := putAll_at (m := s.mem) (a := a₀) hi'
      rw [spike_get hi] at hat
      exact (Option.some.inj hat).trans hsame
    · rintro hp data rfl s' hr x hx
      rw [hrun, hq] at hr
      dsimp only at hr
      split at hr
      · rename_i hw
        cases hr
        have hin : ∃ i < data.length, x = a₀ + i := by
          by_contra hno
          push Not at hno
          exact hx (putAll_ne hno)
        obtain ⟨i, hi, rfl⟩ := hin
        exact hp e₀ a₀ rfl hw i hi
      · cases hr

end

/-- **No privilege for the user**: every byte that the copy functions read or write is one the
user program may load or store to exactly when, from the physical address that the first page
leads to, the bytes of the range (of the string, when it is UTF-8) are such bytes, or the range
runs out of the memory that the kernel reads (writes), and the copy faults. Where nothing is
mapped the copy fails and there is nothing to ask. -/
theorem copy_authority_iff {c : Cfg} {w : World} (h : World.Reach c w) {k : Nat} {u : Uvm}
    (hk : w.uvms k = some u) {addr : Nat} (ha : addr < USIZE) :
    (∀ n, (ReadsAsUser c w.phys u (copyIn u addr n) ∧
        ReadsAsUser c w.phys u (copyInCont u addr n)) ↔
      LoadAllowed w.phys.mem u.pagetable.root addr n) ∧
    (ReadsAsUser c w.phys u (copyInStr u addr) ↔ StrAllowed w.phys.mem u.pagetable.root addr) ∧
    ∀ n, (∀ data : List UInt8, data.length = n → WritesAsUser c w.phys u (copyOut u addr data) ∧
        WritesAsUser c w.phys u (copyOutCont u addr data)) ↔
      StoreAllowed c w.phys.mem u.pagetable.root addr n := by
  obtain ⟨tab, hsp, -⟩ := h.inv.space k u hk
  refine ⟨fun n => ?_, copyInStr_authority hsp rfl ha, fun n => ?_⟩
  · rw [← copyIn_authority hsp rfl ha]
    exact ⟨fun hr => hr.1, fun hr => ⟨hr, hr⟩⟩
  · rw [← copyOut_authority hsp rfl ha]
    exact ⟨fun hw data hl => (hw data hl).1, fun hw data hl => ⟨hw data hl, hw data hl⟩⟩

theorem copy_authority_iff_demo : ∃ w u, World.Reach Cfg.demo w ∧ w.uvms 0 = some u ∧
    ∀ n, (ReadsAsUser Cfg.demo w.phys u (copyIn u USER_START n) ∧
        ReadsAsUser Cfg.demo w.phys u (copyInCont u USER_START n)) ↔
      LoadAllowed w.phys.mem u.pagetable.root USER_START n := by
  obtain ⟨w, u, -, -, h, hk, -⟩ := World.demo_alloc (n := 2) (by omega)
    (show PTE_R ||| PTE_W ≠ 0 by decide) ⟨by decide, by decide⟩
  exact ⟨w, u, h, hk, (copy_authority_iff h hk (by rw [USIZE_eq]; decide)).1⟩

/-- The demo image with an address space as `allocproc` sets it up: a trapframe, no user pages. -/
theorem World.demo_initProc : ∃ w u tf tab, World.Reach Cfg.demo w ∧ w.uvms 0 = some u ∧
    u.size = 0 ∧ Space Cfg.demo ⟨w.account 0, w.phys.mem⟩ u tab ∧ Cfg.demo.IsFrame tf ∧
    pte w.phys.mem tab = procMap Cfg.demo tf fun _ => 0 := by
  have hcard : (demo.account 0 ∪ demo.phys.free.toFinset).card = 3000 := by
    rw [show demo.account 0 ∪ demo.phys.free.toFinset = (demoFrames 3000).toFinset from
      Finset.empty_union _, List.toFinset_card_of_nodup (demoFrames_nodup _)]
    unfold demoFrames
    rw [List.length_map, List.length_range]
  -- the trapframe
  obtain ⟨tf, s₁, v₁, hr₁, hof₁, htf, ho₁⟩ := (Inv.init demo_init).run_plenty Cfg.demo_eager (k := 0)
    (p := Trapframe.newIn) (Q := fun f v' => Cfg.demo.IsFrame f ∧ v'.own = insert f ∅)
    (wp_newIn (fun ho => by
        have ho : (demo.account 0 ∪ demo.phys.free.toFinset).card ≤ (∅ : Finset Nat).card := ho
        rw [hcard, Finset.card_empty] at ho
        omega)
      fun f v' hf _ ho _ _ => ⟨hf, ho⟩)
  let w₁ : World := { demo with phys := s₁, boxes := insert tf demo.boxes }
  have h₁ : Reach Cfg.demo w₁ := .step (.init demo_init) (.box hr₁)
  have hc₁ : 2999 ≤ (w₁.account 0 ∪ w₁.phys.free.toFinset).card := by
    have hsub : demo.account 0 ∪ demo.phys.free.toFinset ⊆
        insert tf (w₁.account 0 ∪ w₁.phys.free.toFinset) := fun f hf => by
      rw [Finset.mem_insert, Finset.mem_union, List.mem_toFinset]
      rcases (hof₁.cover f).1 hf with hf | hf
      · rw [ho₁, Finset.mem_insert] at hf
        exact hf.imp_right fun hf => .inl hf
      · exact .inr (.inr hf)
    have h1 := Finset.card_le_card hsub
    have h2 := Finset.card_insert_le tf (w₁.account 0 ∪ w₁.phys.free.toFinset)
    omega
  -- `new`
  obtain ⟨u₂, s₂, v₂, hr₂, hof₂, f, rfl, ho₂, hs₂⟩ := h₁.inv.run_plenty Cfg.demo_eager (k := 0)
    (p := Uvm.new) (Q := fun u v' => ∃ f, u = ⟨USER_START, 0, ⟨f⟩⟩ ∧ v'.own = {f} ∧
      Space Cfg.demo v' u fun _ => none)
    (wp_uvmNew (fun ho => by
        have ho : (w₁.account 0 ∪ w₁.phys.free.toFinset).card ≤ (∅ : Finset Nat).card := ho
        rw [Finset.card_empty] at ho
        omega)
      fun v' f _ ho _ hs => ⟨f, rfl, by rw [ho]; rfl, hs⟩)
  have hd : w₁.fresh 0 = w₁ := by
    unfold fresh
    rw [show (∅ : Finset Nat) = w₁.account 0 from rfl, Function.update_eq_self]
  let w₂ := w₁.put 0 (some ⟨USER_START, 0, ⟨f⟩⟩) s₂
  have h₂ : Reach Cfg.demo w₂ := by
    have hst : Step Cfg.demo w₁ ((w₁.fresh 0).put 0 (some ⟨USER_START, 0, ⟨f⟩⟩) s₂) := .new rfl hr₂
    rw [hd] at hst
    exact .step h₁ hst
  obtain ⟨ha₂, hu₂⟩ := put_union (u := some ⟨USER_START, 0, ⟨f⟩⟩) hof₂
  have hs₂' : Space Cfg.demo ⟨w₂.account 0, w₂.phys.mem⟩ ⟨USER_START, 0, ⟨f⟩⟩ fun _ => none := by
    have ha : w₂.account 0 = v₂.own := ha₂
    rw [ha]
    exact hof₂.mem ▸ hs₂
  -- `init_proc`
  have hb := htf.bound
  obtain ⟨u₃, s₃, v₃, hr₃, hof₃, rfl, tab, hs₃, he₃⟩ := h₂.inv.run_plenty Cfg.demo_eager (k := 0)
    (p := UvmOp.run Cfg.demo ⟨USER_START, 0, ⟨f⟩⟩ (.initProc tf))
    (Q := fun u v' => u = ⟨USER_START, 0, ⟨f⟩⟩ ∧ ∃ tab, Space Cfg.demo v' u tab ∧
      pte v'.mem tab = procMap Cfg.demo tf fun _ => 0) (by
      refine (M.wp_bind _ _ _ _).2 (wp_initProc id hs₂'.tree htf.page ?_ (fun v' tab' hg _ he => ?_)
        fun v' tab' hg _ ho _ _ => ?_)
      · rw [PAGESIZE_eq, USIZE_eq]
        omega
      · have h0 : pte w₂.phys.mem (fun _ => none) = fun _ => 0 :=
          funext fun q => pte_none (fun _ => rfl) _ _
        exact ⟨rfl, tab', hs₂'.procMap hg he htf, by rw [he]; exact congrArg _ h0⟩
      · have ho : (w₂.account 0 ∪ w₂.phys.free.toFinset).card ≤ v'.own.card := ho
        have hle' := hg.own_card
        have h1 : (View.mk (w₂.account 0) w₂.phys.mem).own.card = 1 := by
          show (w₂.account 0).card = 1
          have ha : w₂.account 0 = v₂.own := ha₂
          rw [ha, ho₂, Finset.card_singleton]
        have hu : w₂.account 0 ∪ w₂.phys.free.toFinset = _ := hu₂
        rw [hu] at ho
        omega)
  obtain ⟨ha₃, -⟩ := put_union (u := some ⟨USER_START, 0, ⟨f⟩⟩) hof₃
  refine ⟨w₂.put 0 (some ⟨USER_START, 0, ⟨f⟩⟩) s₃, _, tf, tab, .step h₂ (.op (.initProc tf) rfl ?_ hr₃),
    rfl, rfl, ?_, htf, ?_⟩
  · exact Finset.mem_insert_self _ _
  · rw [ha₃]
    exact hof₃.mem ▸ hs₃
  · exact hof₃.mem ▸ he₃

/-- After `init_proc` alone, an entry is empty or is not the user's. -/
theorem procMap_sys (c : Cfg) {tf : Nat} (htf : c.IsFrame tf) (q : Nat) :
    procMap c tf (fun _ => 0) q = 0 ∨ SysLeaf (procMap c tf (fun _ => 0) q) :=
  (procMap_case htf (fun _ => 0) q).symm.imp id And.right

/-- The trapframe can be read and overwritten through the address space that maps it without U. -/
theorem copy_privileged : ∃ w u, World.Reach Cfg.demo w ∧ w.uvms 0 = some u ∧
    ¬ ReadsAsUser Cfg.demo w.phys u (copyInCont u TRAPFRAME 4) ∧
    ¬ ∀ data : List UInt8, data.length = 4 →
      WritesAsUser Cfg.demo w.phys u (copyOut u TRAPFRAME data) := by
  obtain ⟨w, u, tf, tab, h, hk, -, hsp, htf, he⟩ := World.demo_initProc
  have hsz := PAGESIZE_eq
  have hva : TRAPFRAME < USIZE := by
    have := trapframe_va.2.1
    omega
  have htw : pte w.phys.mem tab (pageNo TRAPFRAME) = leafWord tf (PTE_R ||| PTE_W) := by
    rw [he, procMap, mapRange_one]
  -- the trapframe is mapped
  have hwalk : Sv32.walk w.phys.mem u.pagetable.root TRAPFRAME =
      some (leafWord tf (PTE_R ||| PTE_W), tf) := by
    have hw := hsp.tree.sv32_walk hva
    simp only [htw] at hw
    have hpage := htf.page
    rw [hsz] at hpage
    have hfr : leafWord tf (PTE_R ||| PTE_W) / 2 ^ 10 * 2 ^ 12 = tf := by
      unfold leafWord
      rw [show PTE_R ||| PTE_W = 6 from rfl]
      omega
    have hoff : TRAPFRAME % 2 ^ 12 = 0 := by
      have := trapframe_va.1
      rwa [hsz] at this
    rw [hw, hfr, hoff, Nat.add_zero, if_neg]
    unfold leafWord Sv32.isLeaf
    rw [show PTE_R ||| PTE_W = 6 from rfl]
    omega
  -- and no page is the user's
  have hno : ∀ va e a, Sv32.walk w.phys.mem u.pagetable.root va = some (e, a) →
      e / 16 % 2 = 0 := by
    intro va e a hwa
    by_cases hlt : va < USIZE
    · have hw := hsp.tree.sv32_walk hlt
      dsimp only at hw
      rw [hwa] at hw
      split at hw
      · cases hw
      · rename_i hn
        cases hw
        rcases procMap_sys Cfg.demo htf (pageNo va) with h0 | ⟨f, perm, hp, hf, hr, hu, h1⟩
        · rw [he, h0] at hn
          exact absurd (.inl rfl) hn
        · rw [he, h1, leafWord_u (hr.aligned hf) hp, hu]
    · unfold Sv32.walk at hwa
      rw [if_neg hlt] at hwa
      cases hwa
  have hb := htf.bound
  have hst := htf.start
  have hfit := htf.fit
  have het : Cfg.demo.etext ≤ Cfg.demo.ekernel := Cfg.demo.etext_end
  rw [hsz] at hfit
  refine ⟨w, u, h, hk, fun hr => ?_, fun hw => ?_⟩
  · have hal := (copyIn_authority hsp rfl hva).1 hr _ _ hwalk
    obtain ⟨va, hl⟩ := hal (fun i hi => ⟨by unfold KERNEL_START; omega, by omega⟩) 0 (by omega)
    unfold Sv32.userLoad at hl
    split at hl
    · rename_i e a hwa
      rw [if_neg (by rw [hno va e a hwa]; omega)] at hl
      cases hl
    · cases hl
  · have hal := (copyOut_authority hsp rfl hva).1 hw _ _ hwalk
    obtain ⟨va, hl⟩ := hal (fun i hi => ⟨by omega, by omega⟩) 0 (by omega)
    unfold Sv32.userStore at hl
    split at hl
    · rename_i e a hwa
      rw [if_neg (by rw [hno va e a hwa]; omega)] at hl
      cases hl
    · cases hl

end BareMetal
