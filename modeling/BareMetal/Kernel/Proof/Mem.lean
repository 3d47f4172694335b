import BareMetal.Kernel.Trap
import BareMetal.Kernel.Proof.Table
import BareMetal.Virt.Proof.Ops

/-!
# Who owns which frame

Frames belong to parties (`Party`): the kernel's address space, the slot of a process, and the code
a process runs in the kernel, which holds what it has allocated and not yet put anywhere. `Owned`
says that no frame belongs to two parties or is free at the same time. `MemInv` says what the
parties use their frames for; it depends on their own frames only (`MemInv.congr`).
-/

namespace BareMetal

open Lib

inductive Party
  | kvm
  | slot (i : Nat)
  | loc (i : Nat)
  deriving DecidableEq

structure Owned (c : Cfg) (own : Party → Finset Nat) (free : List Nat) : Prop where
  nodup : free.Nodup
  free_frame : ∀ f ∈ free, c.IsFrame f
  frame : ∀ p, ∀ f ∈ own p, c.IsFrame f
  not_free : ∀ p, ∀ f ∈ own p, f ∉ free
  disj : ∀ p q f, f ∈ own p → f ∈ own q → p = q

/-- The pages above the user's lead to the trampoline and to the process's trapframe. -/
structure Vectors (c : Cfg) (m : Bytes) (tab : Nat → Option Nat) (trapframe : Nat) : Prop where
  trampoline : pte m tab (pageNo TRAMPOLINE) = leafWord c.trampoline (PTE_R ||| PTE_X)
  trapframe : pte m tab (pageNo TRAPFRAME) = leafWord trapframe (PTE_R ||| PTE_W)

/-- The frames of a slot: the trapframe, and the address space unless it is being dropped, which
only a live process does. -/
structure SlotMem (c : Cfg) (own : Finset Nat) (m : Bytes) (p : Process) (live : Prop) : Prop where
  trapframe : p.trapframe ∈ own
  whole : p.dropping = true → live
  space : p.dropping = false → ∃ tab,
    Space c ⟨own.erase p.trapframe, m⟩ p.pagetable tab ∧ (live → Vectors c m tab p.trapframe)

/-- The page of the `k`-th page of the kernel stack of slot `i`. -/
def kstackPage (i k : Nat) : Nat := pageNo TRAMPOLINE - 3 * (i + 1) + 1 + k

/-- The kernel's page table and the kernel stacks. -/
structure KvmMem (c : Cfg) (own : Finset Nat) (m : Bytes) (root n : Nat)
    (tab : Nat → Option Nat) : Prop where
  tree : Tree c ⟨own, m⟩ root tab
  stack : ∀ i < n, ∀ k < KERNEL_STACK_PAGES, ∃ f ∈ own, ¬ Tree.Has root tab f ∧
    pte m tab (kstackPage i k) = leafWord f (PTE_R ||| PTE_W)
  inj : ∀ i < n, ∀ k < KERNEL_STACK_PAGES, ∀ j < n, ∀ l < KERNEL_STACK_PAGES,
    pte m tab (kstackPage i k) = pte m tab (kstackPage j l) → i = j ∧ k = l

structure MemInv (c : Cfg) (own : Party → Finset Nat) (m : Bytes) (d : Data) : Prop where
  slot : ∀ i < d.nproc, SlotMem c (own (.slot i)) m (d.process_table i) (d.Live i)
  kvm : ∃ t tab, d.kvm = some t ∧ KvmMem c (own .kvm) m t.root d.nproc tab

/-! ## What the invariant depends on -/

/-- Party `p` has the frames it had, with the contents they had. -/
def SameAt (own own' : Party → Finset Nat) (m m' : Bytes) (p : Party) : Prop :=
  own' p = own p ∧ ∀ a, pageOf a ∈ own p → m' a = m a

theorem SameAt.refl (own : Party → Finset Nat) (m : Bytes) (p : Party) : SameAt own own m m p :=
  ⟨rfl, fun _ _ => rfl⟩

theorem SameAt.trans {o₁ o₂ o₃ : Party → Finset Nat} {m₁ m₂ m₃ : Bytes} {p : Party}
    (h₁ : SameAt o₁ o₂ m₁ m₂ p) (h₂ : SameAt o₂ o₃ m₂ m₃ p) : SameAt o₁ o₃ m₁ m₃ p :=
  ⟨h₂.1.trans h₁.1, fun a ha => (h₂.2 a (h₁.1 ▸ ha)).trans (h₁.2 a ha)⟩

/-- What lies in no frame is as it was. -/
def Cfg.SameImage (c : Cfg) (m m' : Bytes) : Prop := ∀ a, ¬ c.IsFrame (pageOf a) → m' a = m a

theorem Cfg.SameImage.refl (c : Cfg) (m : Bytes) : c.SameImage m m := fun _ _ => rfl

theorem Cfg.SameImage.trans {c : Cfg} {m₁ m₂ m₃ : Bytes} (h₁ : c.SameImage m₁ m₂)
    (h₂ : c.SameImage m₂ m₃) : c.SameImage m₁ m₃ := fun a ha => (h₂ a ha).trans (h₁ a ha)

section
variable {c : Cfg} {own own' : Finset Nat} {m m' : Bytes}

theorem Vectors.congr {tab : Nat → Option Nat} {tf : Nat} (h : Vectors c m tab tf)
    (hp : pte m' tab = pte m tab) : Vectors c m' tab tf :=
  ⟨by rw [hp]; exact h.trampoline, by rw [hp]; exact h.trapframe⟩

/-- A slot whose tables are as they were. -/
theorem SlotMem.congr {p : Process} {live live' : Prop} (h : SlotMem c own m p live)
    (hl : live' → live) (hw : p.dropping = true → live → live')
    (hm : ∀ tab, Space c ⟨own.erase p.trapframe, m⟩ p.pagetable tab →
      ∀ a, Tree.Has p.pagetable.pagetable.root tab (pageOf a) → m' a = m a) :
    SlotMem c own m' p live' where
  trapframe := h.trapframe
  whole hd := hw hd (h.whole hd)
  space hd := by
    obtain ⟨tab, hs, hv⟩ := h.space hd
    have hm' := hm tab hs
    exact ⟨tab, hs.congr (fun _ hf => hf) hm',
      fun hl' => (hv (hl hl')).congr (funext (hs.tree.pte_congr hm'))⟩

/-- A slot that has more frames beside those it had. -/
theorem SlotMem.grow {p p' : Process} {live live' : Prop} (h : SlotMem c own m p live)
    (hl : live' → live) (hw : p.dropping = true → live → live') (ho : own ⊆ own')
    (hm : ∀ a, pageOf a ∈ own → m' a = m a)
    (hp : p'.trapframe = p.trapframe ∧ p'.pagetable = p.pagetable ∧ p'.dropping = p.dropping) :
    SlotMem c own' m' p' live' := by
  obtain ⟨h1, h2, h3⟩ := hp
  refine ⟨by rw [h1]; exact ho h.trapframe, fun hd => ?_, fun h0 => ?_⟩
  · rw [h3] at hd
    exact hw hd (h.whole hd)
  obtain ⟨tab, hs, hv⟩ := h.space (h3 ▸ h0)
  have hm' : ∀ a, Tree.Has p.pagetable.pagetable.root tab (pageOf a) → m' a = m a := fun a ha =>
    hm a (Finset.mem_of_mem_erase (hs.tree.has_own ha))
  rw [h1, h2]
  exact ⟨tab, hs.congr (fun f hf => Finset.erase_subset_erase _ ho hf) hm',
    fun hl' => (hv (hl hl')).congr (funext (hs.tree.pte_congr hm'))⟩

theorem SlotMem.same {p p' : Process} {live live' : Prop} (h : SlotMem c own m p live)
    (hl : live' → live) (hw : p.dropping = true → live → live') (ho : own' = own)
    (hm : ∀ a, pageOf a ∈ own → m' a = m a)
    (ht : p'.trapframe = p.trapframe) (hu : p'.pagetable = p.pagetable)
    (hd : p'.dropping = p.dropping) : SlotMem c own' m' p' live' :=
  h.grow hl hw ho.ge hm ⟨ht, hu, hd⟩

theorem KvmMem.same {root n : Nat} {tab : Nat → Option Nat} (h : KvmMem c own m root n tab)
    (ho : own' = own) (hm : ∀ a, pageOf a ∈ own → m' a = m a) : KvmMem c own' m' root n tab := by
  subst ho
  have hp : pte m' tab = pte m tab :=
    funext (h.tree.pte_congr fun a ha => hm a (h.tree.has_own ha))
  exact ⟨h.tree.congr (fun _ hf => h.tree.has_own hf) fun a ha => hm a (h.tree.has_own ha),
    by rw [hp]; exact h.stack, by rw [hp]; exact h.inj⟩

end

/-- What a process's memory depends on, of its slot. -/
def Process.SameMem (p p' : Process) : Prop :=
  p'.trapframe = p.trapframe ∧ p'.pagetable = p.pagetable ∧ p'.dropping = p.dropping

theorem SlotMem.proc {c : Cfg} {own : Finset Nat} {m : Bytes} {p p' : Process} {live : Prop}
    (h : SlotMem c own m p live) (hp : p.SameMem p') : SlotMem c own m p' live :=
  h.grow id (fun _ => id) (Finset.Subset.refl _) (fun _ _ => rfl) hp

theorem SlotMem.whole_of {c : Cfg} {own : Finset Nat} {m : Bytes} {p : Process} {live : Prop}
    (h : SlotMem c own m p live) (hl : ¬ live) : p.dropping = false := by
  cases hd : p.dropping with
  | false => rfl
  | true => exact (hl (h.whole hd)).elim

theorem SlotMem.dead {c : Cfg} {own : Finset Nat} {m : Bytes} {p : Process} {live : Prop}
    (h : SlotMem c own m p live) (hl : ¬ live) : SlotMem c own m p False :=
  h.grow False.elim (fun _ h => hl h) (Finset.Subset.refl _) (fun _ _ => rfl) ⟨rfl, rfl, rfl⟩

theorem SlotMem.sameAt {c : Cfg} {own own' : Party → Finset Nat} {m m' : Bytes} {x : Party}
    {p : Process} {live : Prop} (h : SlotMem c (own x) m p live) (hs : SameAt own own' m m' x) :
    SlotMem c (own' x) m' p live :=
  h.grow id (fun _ => id) hs.1.ge hs.2 ⟨rfl, rfl, rfl⟩

/-- The trapframe is written. -/
theorem SlotMem.poke {c : Cfg} {own : Finset Nat} {m m' : Bytes} {p : Process} {live : Prop}
    (h : SlotMem c own m p live)
    (hm : ∀ a, pageOf a ∈ own → pageOf a ≠ p.trapframe → m' a = m a) : SlotMem c own m' p live :=
  h.congr id (fun _ => id) fun _ hs a ha =>
    hm a (Finset.mem_of_mem_erase (hs.tree.has_own ha)) (Finset.ne_of_mem_erase (hs.tree.has_own ha))

/-- A slot that has, beside its own, the address space `u` in the frames `B`. -/
structure SlotMem.Two (c : Cfg) (own : Finset Nat) (m : Bytes) (p : Process) (u : Uvm)
    (B : Finset Nat) (live : Prop) : Prop where
  sub : B ⊆ own
  old : SlotMem c (own \ B) m p False
  new : ∃ tab, Space c ⟨B, m⟩ u tab ∧ (live → Vectors c m tab p.trapframe)

theorem SlotMem.beside {c : Cfg} {own own' B : Finset Nat} {m m' : Bytes} {p : Process} {u : Uvm}
    {live : Prop} (h : SlotMem c own m p False) (ho : own' = own ∪ B) (hb : ∀ f ∈ own, f ∉ B)
    (hm : ∀ a, pageOf a ∈ own → m' a = m a)
    (hn : ∃ tab, Space c ⟨B, m'⟩ u tab ∧ (live → Vectors c m' tab p.trapframe)) :
    SlotMem.Two c own' m' p u B live := by
  have hd : own' \ B = own := by
    rw [ho, Finset.union_sdiff_right]
    exact Finset.sdiff_eq_self_of_disjoint (Finset.disjoint_left.2 hb)
  refine ⟨?_, ?_, hn⟩
  · rw [ho]
    exact Finset.subset_union_right
  · rw [hd]
    exact h.grow id (fun _ => id) (Finset.Subset.refl _) hm ⟨rfl, rfl, rfl⟩

theorem SlotMem.Two.poke {c : Cfg} {own B : Finset Nat} {m m' : Bytes} {p : Process} {u : Uvm}
    {live : Prop} (h : SlotMem.Two c own m p u B live)
    (hm : ∀ a, pageOf a ∈ own → pageOf a ≠ p.trapframe → m' a = m a) :
    SlotMem.Two c own m' p u B live := by
  refine ⟨h.sub, h.old.poke fun a ha => hm a (Finset.mem_sdiff.1 ha).1, ?_⟩
  obtain ⟨tab, hs, hv⟩ := h.new
  have hm' : ∀ a, Tree.Has u.pagetable.root tab (pageOf a) → m' a = m a := fun a ha => by
    have hB : pageOf a ∈ B := hs.tree.has_own ha
    exact hm a (h.sub hB) fun he => (Finset.mem_sdiff.1 h.old.trapframe).2 (he ▸ hB)
  exact ⟨tab, hs.congr (fun _ hf => hf) hm',
    fun hl => (hv hl).congr (funext (hs.tree.pte_congr hm'))⟩

/-- One slot changes. -/
theorem MemInv.update {c : Cfg} {own own' : Party → Finset Nat} {m m' : Bytes} {d d' : Data}
    {i : Nat} (h : MemInv c own m d) (hk : SameAt own own' m m' .kvm)
    (hs : ∀ j < d.nproc, j ≠ i → SameAt own own' m m' (.slot j)) (hn : d'.nproc = d.nproc)
    (hv : d'.kvm = d.kvm)
    (hp : ∀ j < d.nproc, j ≠ i → (d.process_table j).SameMem (d'.process_table j))
    (hl : ∀ j, j ≠ i → (d'.Live j ↔ d.Live j))
    (hi : i < d.nproc → SlotMem c (own' (.slot i)) m' (d'.process_table i) (d'.Live i)) :
    MemInv c own' m' d' where
  slot j hj := by
    rw [hn] at hj
    by_cases hji : j = i
    · rw [hji] at hj ⊢
      exact hi hj
    · obtain ⟨h1, h2, h3⟩ := hp j hj hji
      exact (h.slot j hj).same (hl j hji).1 (fun _ => (hl j hji).2) (hs j hj hji).1 (hs j hj hji).2
        h1 h2 h3
  kvm := by
    obtain ⟨t, tab, h1, h2⟩ := h.kvm
    exact ⟨t, tab, hv.trans h1, by rw [hn]; exact h2.same hk.1 hk.2⟩

/-- A slot of which frame `f` holds no table. -/
structure Loose (c : Cfg) (own : Finset Nat) (m : Bytes) (p : Process) (live : Prop) (f : Nat) :
    Prop where
  mem : f ∈ own
  trapframe : p.trapframe ∈ own
  whole : p.dropping = true → live
  space : p.dropping = false → ∃ tab,
    Space c ⟨own.erase p.trapframe, m⟩ p.pagetable tab ∧ (live → Vectors c m tab p.trapframe) ∧
      ¬ Tree.Has p.pagetable.pagetable.root tab f

theorem SlotMem.loose {c : Cfg} {own : Finset Nat} {m : Bytes} {p : Process} {live : Prop}
    (h : SlotMem c own m p live) : Loose c own m p live p.trapframe := by
  refine ⟨h.trapframe, h.trapframe, h.whole, fun hd => ?_⟩
  obtain ⟨tab, hs, hv⟩ := h.space hd
  exact ⟨tab, hs, hv, fun ht => Finset.ne_of_mem_erase (hs.tree.has_own ht) rfl⟩

namespace Loose

variable {c : Cfg} {own : Finset Nat} {m m' : Bytes} {p : Process} {live : Prop} {f : Nat}

theorem slot (h : Loose c own m p live f) : SlotMem c own m p live :=
  ⟨h.trapframe, h.whole, fun hd => (h.space hd).imp fun _ hs => ⟨hs.1, hs.2.1⟩⟩

/-- The frame is written. -/
theorem write (h : Loose c own m p live f) (hm : ∀ a, pageOf a ∈ own → pageOf a ≠ f → m' a = m a) :
    Loose c own m' p live f := by
  refine ⟨h.mem, h.trapframe, h.whole, fun hd => ?_⟩
  obtain ⟨tab, hs, hv, hf⟩ := h.space hd
  have hm' : ∀ a, Tree.Has p.pagetable.pagetable.root tab (pageOf a) → m' a = m a := fun a ha =>
    hm a (Finset.mem_of_mem_erase (hs.tree.has_own ha)) fun he => hf (he ▸ ha)
  exact ⟨tab, hs.congr (fun _ hf => hf) hm',
    fun hl => (hv hl).congr (funext (hs.tree.pte_congr hm')), hf⟩

end Loose

/-- A frame of slot `i` is written, and nothing else that belongs to a party. -/
theorem MemInv.put {c : Cfg} {own : Party → Finset Nat} {m m' : Bytes} {d : Data} {i f : Nat}
    (h : MemInv c own m d) (hf : Loose c (own (.slot i)) m (d.process_table i) True f)
    (hne : ∀ x, x ≠ .slot i → SameAt own own m m' x)
    (hm : ∀ a, pageOf a ∈ own (.slot i) → pageOf a ≠ f → m' a = m a) : MemInv c own m' d := by
  refine h.update (hne _ (by simp)) (fun j _ hj => hne _ (by simpa using hj)) rfl rfl
    (fun j _ _ => ⟨rfl, rfl, rfl⟩) (fun j _ => .rfl) fun hi => ?_
  exact (hf.write hm).slot.grow (fun _ => trivial) (fun hd _ => (h.slot i hi).whole hd)
    (Finset.Subset.refl _) (fun _ _ => rfl) ⟨rfl, rfl, rfl⟩

/-- A process writes to a frame of its own. -/
theorem MemInv.write {c : Cfg} {own : Party → Finset Nat} {m m' : Bytes} {d : Data} {i f : Nat}
    {free : List Nat} (h : MemInv c own m d) (how : Owned c own free)
    (hf : Loose c (own (.slot i)) m (d.process_table i) True f)
    (hm : ∀ a, pageOf a ≠ f → m' a = m a) : MemInv c own m' d :=
  h.put hf (fun _ hx => ⟨rfl, fun a ha => hm a fun he => hx (how.disj _ _ f (he ▸ ha) hf.mem)⟩)
    fun a _ => hm a

theorem MemInv.congr {c : Cfg} {own own' : Party → Finset Nat} {m m' : Bytes} {d d' : Data}
    (h : MemInv c own m d) (hk : SameAt own own' m m' .kvm)
    (hs : ∀ i < d.nproc, SameAt own own' m m' (.slot i)) (hn : d'.nproc = d.nproc)
    (hv : d'.kvm = d.kvm) (hp : ∀ i < d.nproc, (d.process_table i).SameMem (d'.process_table i))
    (hl : ∀ i, d'.Live i → d.Live i)
    (hw : ∀ i, (d.process_table i).dropping = true → d.Live i → d'.Live i) :
    MemInv c own' m' d' where
  slot i hi := by
    rw [hn] at hi
    obtain ⟨h1, h2, h3⟩ := hp i hi
    exact (h.slot i hi).same (hl i) (hw i) (hs i hi).1 (hs i hi).2 h1 h2 h3
  kvm := by
    obtain ⟨t, tab, h1, h2⟩ := h.kvm
    exact ⟨t, tab, hv.trans h1, by rw [hn]; exact h2.same hk.1 hk.2⟩

end BareMetal
