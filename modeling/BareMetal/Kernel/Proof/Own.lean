import BareMetal.Kernel.Proof.Sched
import BareMetal.Virt.Proof.CopyOut

/-!
# The memory of the process that runs

A thread reads its trapframe and its page table, and writes to its trapframe and to pages that its
page table maps, while other threads run between its operations. What it finds is what its own
frames hold (`wp_walkaddr_calm`), and what it writes stays in them (`wp_writeAll_calm`).
-/

namespace BareMetal

open Lib

variable {E : Env} {me : Option Nat} {b : Bool} {S₀ S : St} {i : Nat}

theorem Calm.slotMem (h : Calm E (some i) b S₀ S) (ht : E.track) :
    SlotMem E.cfg (S.own (.slot i)) S.mem (S.proc i) True := by
  have hl := h.settled.inv.table.run_live
  exact ((h.settled.inv.mem ht).slot i hl.1).grow (fun _ => hl) (fun _ _ => trivial)
    (Finset.Subset.refl _) (fun _ _ => rfl) ⟨rfl, rfl, rfl⟩

theorem Process.SameThread.trapframe {p p' : Process} (h : p.SameThread p') :
    p'.trapframe = p.trapframe := by
  rw [h]

theorem Process.SameThread.pagetable {p p' : Process} (h : p.SameThread p') :
    p'.pagetable = p.pagetable := by
  rw [h]

/-- What the thread has now it had before. -/
theorem Calm.slotMem_start (h : Calm E (some i) b S₀ S) (ht : E.track) :
    SlotMem E.cfg (S₀.own (.slot i)) S₀.mem (S₀.proc i) True := by
  have hu := h.kept i rfl
  obtain ⟨ho, hm⟩ := hu.slot ht
  refine (h.slotMem ht).grow id (fun _ => id) ho.le (fun a ha => (hm a (ho ▸ ha)).symm) ?_
  exact ⟨hu.thread.trapframe.symm, hu.thread.pagetable.symm, hu.thread.dropping.symm⟩

/-- Of what the thread of slot `i` has to itself, the `n` bytes at `a` may have changed. -/
structure Poked (E : Env) (i a n : Nat) (S S' : St) : Prop where
  kin : Kin i S S'
  own : E.track → S'.own (.slot i) = S.own (.slot i)
  mem : E.track → ∀ x, pageOf x ∈ S.own (.slot i) → (x < a ∨ a + n ≤ x) → S'.mem x = S.mem x

theorem Untouched.poked {a n : Nat} {S S' : St} (h : Untouched E i S S') : Poked E i a n S S' :=
  ⟨h.kin, fun ht => (h.slot ht).1, fun ht x hx _ => (h.slot ht).2 x hx⟩

theorem Poked.trans {a n : Nat} {S₁ S₂ S₃ : St} (h₁ : Poked E i a n S₁ S₂)
    (h₂ : Poked E i a n S₂ S₃) : Poked E i a n S₁ S₃ where
  kin := h₁.kin.trans h₂.kin
  own ht := (h₂.own ht).trans (h₁.own ht)
  mem ht x hx ho := (h₂.mem ht x (by rw [h₁.own ht]; exact hx) ho).trans (h₁.mem ht x hx ho)

theorem Poked.mono {a n a' n' : Nat} {S S' : St} (h : Poked E i a n S S') (ha : a' ≤ a)
    (hn : a + n ≤ a' + n') : Poked E i a' n' S S' :=
  ⟨h.kin, h.own, fun ht x hx ho => h.mem ht x hx (by omega)⟩

/-- The thread of slot `i` may write to the page `g`, or the kernel may not. -/
def Target (E : Env) (i : Nat) (S : St) (g : Nat) : Prop :=
  Loose E.cfg (S.own (.slot i)) S.mem (S.proc i) True g ∨ ∀ a, pageOf a = g → ¬ E.cfg.Writable a 1

/-- Translation depends on the tables only. -/
theorem Tree.walk_congr {c : Cfg} {v : View} {root : Nat} {tab : Nat → Option Nat} {m : Bytes}
    (h : Tree c v root tab) (hm : ∀ a, Tree.Has root tab (pageOf a) → m a = v.mem a) {va : Nat} :
    Sv32.walk m root va = Sv32.walk v.mem root va := by
  have h' : Tree c ⟨v.own, m⟩ root tab := h.congr (fun _ hf => h.has_own hf) hm
  exact (h.sv32_congr h' (h.pte_congr hm)).symm

/-- The translation of user addresses does not depend on a page that holds no table. -/
theorem Loose.walk {c : Cfg} {own : Finset Nat} {m m' : Bytes} {p : Process} {live : Prop} {f : Nat}
    (h : Loose c own m p live f) (hd : p.dropping = false)
    (hm : ∀ a, pageOf a ∈ own → pageOf a ≠ f → m' a = m a) (va : Nat) :
    Sv32.walk m' p.pagetable.pagetable.root va = Sv32.walk m p.pagetable.pagetable.root va := by
  obtain ⟨tab, hs, -, hf⟩ := h.space hd
  exact hs.tree.walk_congr fun a ha =>
    hm a (Finset.mem_of_mem_erase (hs.tree.has_own ha)) fun he => hf (he ▸ ha)

/-- The address space of slot `i` holds `data` at `addr`, in frames of its own. -/
def Holds (i addr : Nat) (data : List UInt8) (S : St) : Prop :=
  ∃ e pa, Sv32.walk S.mem (S.proc i).pagetable.pagetable.root addr = some (e, pa) ∧
    ∀ j < data.length, pageOf (pa + j) ∈ S.own (.slot i) ∧ data[j]? = some (S.mem (pa + j))

/-- It holds it while other threads run. -/
theorem Holds.kept {addr : Nat} {data : List UInt8} {S' : St} (h : Holds i addr data S)
    (hc : Calm E (some i) b S S) (hd : (S.proc i).dropping = false) (hu : Untouched E i S S')
    (ht : E.track) : Holds i addr data S' := by
  obtain ⟨e, pa, hw, hb⟩ := h
  obtain ⟨ho, hm⟩ := hu.slot ht
  refine ⟨e, pa, ?_, fun j hj => ?_⟩
  · rw [hu.thread.pagetable, (hc.slotMem ht).loose.walk hd fun a ha _ => hm a ha]
    exact hw
  · obtain ⟨h1, h2⟩ := hb j hj
    exact ⟨by rw [ho]; exact h1, h2.trans (congrArg some (hm _ h1).symm)⟩

/-- Where the table of a process leads: to a page that holds no table, or to one that the kernel may
not write. -/
theorem SlotMem.leads {c : Cfg} {own : Finset Nat} {m : Bytes} {p : Process}
    {tab : Nat → Option Nat} {q g perm : Nat} (hl : c.Linked) (h : SlotMem c own m p True)
    (htf : c.IsFrame p.trapframe)
    (hs : Space c ⟨own.erase p.trapframe, m⟩ p.pagetable tab) (hv : Vectors c m tab p.trapframe)
    (hp : PermOk perm) (hg : Aligned g) (he : pte m tab q = leafWord g perm) :
    Loose c own m p True g ∨ ∀ a, pageOf a = g → ¬ c.Writable a 1 := by
  have hfr := frameOf_leafWord hg hp
  rw [← he] at hfr
  by_cases hu : perm / 16 % 2 = 1
  · -- a page of the user
    refine .inl ?_
    have hm : Maps (pte m tab q) g := by
      refine ⟨?_, ?_, hfr⟩
      · rw [he]
        have := hg.1
        have := hp.2
        unfold leafWord
        rw [PAGESIZE_eq] at *
        omega
      · rw [he, leafWord_u hg hp]
        exact hu
    obtain ⟨h1, h2⟩ := hs.user q g hm
    exact ⟨Finset.mem_of_mem_erase h1, h.trapframe, h.whole, fun _ => ⟨tab, hs, fun _ => hv, h2⟩⟩
  · have h0 : pte m tab q / 16 % 2 = 0 := by
      rw [he, leafWord_u hg hp]
      omega
    rcases hs.sys q (by rw [he]; exact leafWord_ne_zero _ _) h0 with rfl | rfl
    · -- the trampoline, the last page of the text
      refine .inr fun a ha hw => ?_
      have hal := c.trampoline_readable.aligned c.tramp_page
      rw [hv.trampoline, frameOf_leafWord hal ⟨by decide, by decide⟩] at hfr
      have h1 := (pageOf_le a).2
      rw [ha, ← hfr, show c.trampoline + PAGESIZE = c.etext from hl] at h1
      have h2 := hw.1
      omega
    · rw [hv.trapframe, frameOf_leafWord htf.aligned ⟨by decide, by decide⟩] at hfr
      rw [← hfr]
      exact .inl h.loose

/-- `TRAPFRAME` leads to the trapframe. -/
theorem SlotMem.walk_trapframe {c : Cfg} {own : Finset Nat} {m : Bytes} {p : Process}
    (h : SlotMem c own m p True) (hd : p.dropping = false) (hf : c.IsFrame p.trapframe) :
    Sv32.walk m p.pagetable.pagetable.root TRAPFRAME =
      some (leafWord p.trapframe (PTE_R ||| PTE_W), p.trapframe) := by
  obtain ⟨tab, hs, hv⟩ := h.space hd
  obtain ⟨h1, h2, -⟩ := trapframe_va
  have hlt : TRAPFRAME < USIZE := by omega
  have h3 := hs.tree.sv32_leaf hlt (hv trivial).trapframe hf.aligned ⟨by decide, by decide⟩ (by decide)
  rw [h1] at h3
  exact h3

/-- A process whose memory fields are the same. -/
theorem Loose.proc {c : Cfg} {own : Finset Nat} {m : Bytes} {p p' : Process} {live : Prop} {f : Nat}
    (h : Loose c own m p live f) (hp : p.SameThread p') : Loose c own m p' live f := by
  rw [hp]
  exact ⟨h.mem, h.trapframe, h.whole, h.space⟩

theorem Loose.poked {a n g : Nat} {S S' : St}
    (h : Loose E.cfg (S.own (.slot i)) S.mem (S.proc i) True g) (hp : Poked E i a n S S')
    (ht : E.track) (ha : ∀ x, a ≤ x → x < a + n → pageOf x = g) :
    Loose E.cfg (S'.own (.slot i)) S'.mem (S'.proc i) True g := by
  rw [hp.own ht]
  refine (h.write fun x hx hne => hp.mem ht x hx ?_).proc hp.kin.thread
  by_contra hno
  exact hne (ha x (by omega) (by omega))

/-! ## Code that only reads -/

theorem PageTable.walk_readOnly (t : PageTable) (va : Nat) : (t.walk va .Walk).Only MemOp.Reads := by
  unfold walk
  refine Free.only_bind (Free.only_perform trivial) fun x => Free.only_bind ?_ fun o => ?_
  · unfold walkNext
    split
    · trivial
    · rw [if_pos rfl]
      trivial
  · cases o <;> trivial

theorem PageTable.walkaddr_readOnly (t : PageTable) (va : Nat) :
    (t.walkaddr va).Only MemOp.Reads := by
  unfold walkaddr
  refine Free.only_bind (walk_readOnly t va) fun o => ?_
  cases o with
  | none => trivial
  | some a =>
    refine Free.only_bind (Free.only_perform trivial) fun w => ?_
    dsimp only
    split
    · trivial
    · refine Free.only_bind ?_ fun _ => trivial
      unfold M.add
      split
      · trivial
      · exact ⟨trivial, fun e => nomatch e⟩

theorem readBytes_readOnly (n : Nat) : ∀ a, (readBytes a n).Only MemOp.Reads := by
  induction n with
  | zero => exact fun _ => trivial
  | succ n ih =>
    exact fun a => Free.only_bind (Free.only_perform trivial) fun _ =>
      Free.only_bind (ih _) fun _ => trivial

theorem readStr_readOnly (n : Nat) : ∀ a, (readStr a n).Only MemOp.Reads := by
  induction n with
  | zero => exact fun _ => ⟨trivial, fun e => nomatch e⟩
  | succ n ih =>
    intro a
    unfold readStr
    refine Free.only_bind (Free.only_perform trivial) fun b => ?_
    split
    · trivial
    · exact Free.only_bind (ih _) fun _ => trivial

/-- `copy_in`, `copy_in_cont` and `copy_in_str`. -/
theorem copyIn_readOnly (u : Uvm) (addr n : Nat) : (copyIn u addr n).Only MemOp.Reads ∧
    (copyInCont u addr n).Only MemOp.Reads ∧ (copyInStr u addr).Only MemOp.Reads := by
  have h : ∀ {α : Type} {f : Option Nat → M α}, (f none).Only MemOp.Reads →
      (∀ a, (f (some a)).Only MemOp.Reads) →
      (u.pagetable.walkaddr addr >>= f).Only MemOp.Reads := fun h0 h1 => by
    refine Free.only_bind (PageTable.walkaddr_readOnly _ _) fun o => ?_
    cases o with
    | none => exact h0
    | some a => exact h1 a
  refine ⟨h trivial fun a => ?_, h trivial fun a => ?_, h trivial fun a => ?_⟩
  · exact Free.only_bind (readBytes_readOnly n a) fun _ => trivial
  · exact Free.only_bind (readBytes_readOnly n a) fun _ => trivial
  · exact Free.only_bind (readStr_readOnly _ a) fun _ => trivial

namespace K

variable {α β : Type} {Q : β → St → Prop}

/-! ## Reads -/

/-- A thread reads its process. -/
theorem wp_proc_frame (h : Calm E (some i) b S₀ S) {f : Process → K β}
    (k : ∀ S', Calm E (some i) b S₀ S' → (E.track → E.cfg.IsFrame (S'.proc i).trapframe) →
      wp E (some i) (f (S'.proc i)) Q S') : wp E (some i) (proc i >>= f) Q S :=
  wp_calm h fun S' h' how => k S' h' fun ht => (how ht).frame _ _ (h'.slotMem ht).trapframe

/-- A field of the trapframe is read. -/
theorem wp_trapframeRead {P : St → Prop} (hP : Steady E me P) (h : P S) {field : Nat}
    {f : Nat → K β} (k : ∀ v S', v < 2 ^ 32 → P S' → wp E me (f v) Q S') :
    wp E me (trapframeRead i field >>= f) Q S := by
  rw [wp_bind]
  unfold trapframeRead
  refine ⟨hP.umode _ h, fun S₁ hd hl _ => ?_⟩
  refine wp_mem_read (p := fun v => lift (.ret v)) hP (hP.drift _ _ h hd hl) (o := .read _) trivial
    fun v S₂ h₂ hx => ?_
  refine k v S₂ ?_ h₂
  obtain ⟨rfl, -⟩ := Phys.exec_read hx
  exact Bytes.word_lt _ _

/-- Memory code that only reads. -/
theorem wp_lift_steady {P : St → Prop} (hP : Steady E me P) (h : P S) {p : M α}
    (hp : p.Only MemOp.Reads) {f : α → K β} (k : ∀ a S', P S' → wp E me (f a) Q S') :
    wp E me (lift p >>= f) Q S := by
  rw [wp_bind]
  refine wp_lift_reads hP (v := ⟨∅, S.mem⟩) (fun _ _ _ a ha => ?_) (D := E.mode true) rfl hp
    (R := fun _ _ => True) (fun a S' h' _ => k a S' h') S h fun _ => M.wp_reads hp trivial
  exact (Finset.notMem_empty _ ha).elim

/-! ## Writes -/

/-- A field of the trapframe is written. -/
theorem wp_trapframeWrite_calm (h : Calm E (some i) b S₀ S) {field v : Nat}
    (hfield : field + 4 ≤ PAGESIZE) {f : Unit → K β}
    (k : ∀ S', Poked E i ((S₀.proc i).trapframe + field) 4 S₀ S' →
      Calm E (some i) b S' S' → wp E (some i) (f ()) Q S') :
    wp E (some i) (trapframeWrite i field v >>= f) Q S := by
  rw [wp_bind]
  unfold trapframeWrite
  refine wp_calm h fun S₁ h₁ how => ?_
  have hlast : ∀ S', Calm E (some i) b S₁ S' → E.track → Loose E.cfg (S'.own (.slot i)) S'.mem
      (S'.proc i) True (S₁.proc i).trapframe ∧ E.cfg.IsFrame (S₁.proc i).trapframe := fun S' h' ht => by
    have he := (h'.kept i rfl).thread.trapframe
    rw [← he]
    refine ⟨(h'.slotMem ht).loose, ?_⟩
    rw [he]
    exact (how ht).frame _ _ (h₁.slotMem ht).trapframe
  refine wp_poke_calm (f := fun v => lift (.ret v)) h₁.rebase (o := .write _ _) (fun f => by simp)
    (fun ht S' h' r phys hx => ?_) fun r S' phys h' hx hc => k _ ?_ hc
  · obtain ⟨-, rfl⟩ := Phys.exec_write hx
    obtain ⟨hl, hf⟩ := hlast S' h' ht
    refine ⟨rfl, _, hl, fun a ha => Bytes.setWord_ne ?_⟩
    show a < (S₁.proc i).trapframe + field ∨ (S₁.proc i).trapframe + field + 4 ≤ a
    by_contra hno
    exact ha (pageOf_eq_of hf.page (by omega))
  · obtain ⟨-, rfl⟩ := Phys.exec_write hx
    refine ((h₁.kept i rfl).poked.trans (h'.kept i rfl).poked).trans
      ⟨⟨rfl, rfl, rfl⟩, fun _ => rfl, fun ht a _ ha => Bytes.setWord_ne ?_⟩
    rwa [← (h₁.kept i rfl).thread.trapframe] at ha

/-- Bytes are written to a page that the thread may write to. -/
theorem wp_writeAll_calm {g : Nat} {f : Unit → K β} (data : List UInt8) : ∀ {a : Nat} {S₀ S : St},
    Calm E (some i) b S₀ S → (E.track → Target E i S₀ g) →
    (E.track → ∀ j < data.length, pageOf (a + j) = g) →
    (∀ S', Poked E i a data.length S₀ S' → Calm E (some i) b S' S' →
      (E.track → ∀ j < data.length, Loose E.cfg (S'.own (.slot i)) S'.mem (S'.proc i) True g ∧
        data[j]? = some (S'.mem (a + j))) → wp E (some i) (f ()) Q S') →
    wp E (some i) (lift (writeAll a data) >>= f) Q S := by
  induction data with
  | nil =>
    intro a S₀ S h _ _ k
    exact k S (h.kept i rfl).poked h.rebase fun _ j hj => absurd hj (Nat.not_lt_zero j)
  | cons x data ih =>
    intro a S₀ S h hg ha k
    have hkeep : ∀ S', Calm E (some i) b S₀ S' → E.track → E.cfg.Writable a 1 →
        Loose E.cfg (S'.own (.slot i)) S'.mem (S'.proc i) True g := fun S' h' ht hw => by
      rcases hg ht with hl | hn
      · exact hl.poked (a := 0) (n := 0) (h'.kept i rfl).poked ht fun x _ hx => absurd hx (by omega)
      · exact (hn a (ha ht 0 (by simp)) hw).elim
    refine wp_poke_calm (f := fun _ => lift (writeAll (a + 1) data) >>= f) h (o := .writeByte a x)
      (fun f => by simp) (fun ht S' h' r phys hx => ?_) fun r S' phys h' hx hc => ?_
    · obtain ⟨hw, rfl⟩ := Phys.exec_writeByte hx
      refine ⟨rfl, g, hkeep S' h' ht hw, fun b hb => Bytes.setByte_ne fun he => hb ?_⟩
      rw [he]
      exact ha ht 0 (by simp)
    · obtain ⟨hw, rfl⟩ := Phys.exec_writeByte hx
      obtain ⟨S₁, hS₁⟩ : ∃ S₁, S₁ = S'.setPhys { S'.sys.phys with mem := S'.mem.setByte a x } S'.own :=
        ⟨_, rfl⟩
      rw [← hS₁] at hc ⊢
      have hp₁ : Poked E i a 1 S₀ S₁ := by
        rw [hS₁]
        refine (h'.kept i rfl).poked.trans ⟨⟨rfl, rfl, rfl⟩, fun _ => rfl, fun _ y _ hy => ?_⟩
        exact Bytes.setByte_ne (by omega)
      have hx₁ : S₁.mem a = x := by
        rw [hS₁]
        exact Bytes.setByte_self
      have hpage : E.track → pageOf a = g := fun ht => ha ht 0 (by simp)
      have hown : E.track → Loose E.cfg (S₁.own (.slot i)) S₁.mem (S₁.proc i) True g := fun ht => by
        refine (hkeep S' h' ht hw).poked (a := a) (n := 1) ?_ ht fun y h1 h2 => ?_
        · rw [hS₁]
          refine ⟨⟨rfl, rfl, rfl⟩, fun _ => rfl, fun _ y _ hy => Bytes.setByte_ne (by omega)⟩
        · obtain rfl : y = a := by omega
          exact hpage ht
      refine ih hc (fun ht => .inl (hown ht)) (fun ht j hj => ?_) fun S₂ hp₂ h₂ hdata => k S₂ ?_ h₂ ?_
      · rw [Nat.add_right_comm, Nat.add_assoc]
        exact ha ht (j + 1) (by simpa using hj)
      · rw [List.length_cons]
        exact (hp₁.mono (Nat.le_refl a) (by omega)).trans (hp₂.mono (by omega) (by omega))
      · intro ht j hj
        cases j with
        | zero =>
          have hin : pageOf a ∈ S₁.own (.slot i) := hpage ht ▸ (hown ht).mem
          refine ⟨(hown ht).poked hp₂ ht fun y h1 h2 => ?_, ?_⟩
          · obtain ⟨n, rfl⟩ := Nat.exists_eq_add_of_le h1
            rw [Nat.add_right_comm, Nat.add_assoc]
            exact ha ht (n + 1) (by rw [List.length_cons]; omega)
          have he := hp₂.mem ht a hin (by omega)
          rw [Nat.add_zero, he, hx₁]
          rfl
        | succ j =>
          rw [Nat.add_comm j 1, ← Nat.add_assoc]
          obtain ⟨h1, h2⟩ := hdata ht j (by simpa using hj)
          refine ⟨h1, ?_⟩
          rw [← h2, Nat.add_comm 1 j]
          rfl

/-! ## User addresses -/

theorem lift_bind {γ : Type} (p : M α) (f : α → M γ) :
    lift (p >>= f) = lift p >>= fun a => lift (f a) := by
  induction p with
  | ret a => rfl
  | op o k ih =>
    show (memOp o >>= fun r => lift (k r >>= f)) = (memOp o >>= fun r => lift (k r)) >>= _
    simp only [ih, bind_assoc]

/-- Where the kernel finds a user address: in a page that the thread may write to, or the kernel may
not. -/
theorem wp_walkaddr_calm (h : Calm E (some i) b S₀ S) (hd : (S₀.proc i).dropping = false)
    (htf : E.track → E.cfg.IsFrame (S₀.proc i).trapframe) {addr : Nat}
    (hva : E.track → addr < USIZE) {f : Option Nat → K β}
    (hnone : ∀ S', Calm E (some i) b S₀ S' → wp E (some i) (f none) Q S')
    (hsome : ∀ pa S', Calm E (some i) b S₀ S' → (E.track → pa % PAGESIZE = addr % PAGESIZE ∧
      Target E i S₀ (pageOf pa) ∧ ∃ e, Sv32.walk S₀.mem (S₀.proc i).pagetable.pagetable.root addr =
        some (e, pa)) → wp E (some i) (f (some pa)) Q S') :
    wp E (some i) (lift ((S₀.proc i).pagetable.pagetable.walkaddr addr) >>= f) Q S := by
  refine wp_lift_reads_calm h (PageTable.walkaddr_readOnly _ _) (R := fun r _ => ∀ pa, r = some pa →
    pa % PAGESIZE = addr % PAGESIZE ∧ Target E i S₀ (pageOf pa) ∧
      ∃ e, Sv32.walk S₀.mem (S₀.proc i).pagetable.pagetable.root addr = some (e, pa))
    (fun ht => ?_) fun r S' h' hr => ?_
  · have hm := h.slotMem_start ht
    obtain ⟨tab, hs, hv⟩ := hm.space hd
    have hs' : Space E.cfg ⟨S₀.own (.slot i), S₀.mem⟩ (S₀.proc i).pagetable tab :=
      hs.congr (fun _ hf => Finset.mem_of_mem_erase hf) fun _ _ => rfl
    refine wp_walkaddr hs' (hva ht) (fun _ pa hpa => (by cases hpa)) fun g perm hp hg hr he hl pa hpa => ?_
    obtain rfl := Option.some.inj hpa
    have h0 : addr % PAGESIZE < PAGESIZE := Nat.mod_lt _ (by rw [PAGESIZE_eq]; omega)
    have hal := hr.aligned hg
    refine ⟨?_, ?_, _, hs.tree.sv32_leaf (hva ht) he hal hp ((isLeaf_leafWord hal hp).1 hl)⟩
    · rw [Nat.add_mod, hg, Nat.zero_add, Nat.mod_mod, Nat.mod_mod]
    · rw [pageOf_eq_of hg (by omega)]
      exact hm.leads (E.linked ht) (htf ht) hs (hv trivial) hp hal he
  · cases r with
    | none => exact hnone S' h'
    | some pa => exact hsome pa S' h' fun ht => hr ht pa rfl

/-- `copy_out` within one page. -/
theorem wp_copyOut_calm (h : Calm E (some i) b S₀ S) (hd : (S₀.proc i).dropping = false)
    (htf : E.track → E.cfg.IsFrame (S₀.proc i).trapframe) {addr : Nat} {data : List UInt8}
    (hne : data ≠ []) (hva : E.track → addr < USIZE)
    (hfit : E.track → addr % PAGESIZE + data.length ≤ PAGESIZE) {f : Except Unit Unit → K β}
    (k : ∀ r S', Kin i S₀ S' → Calm E (some i) b S' S' →
      (r = .ok () → E.track → Holds i addr data S') → wp E (some i) (f r) Q S') :
    wp E (some i) (lift (copyOut (S₀.proc i).pagetable addr data) >>= f) Q S := by
  unfold copyOut
  rw [lift_bind, bind_assoc]
  refine wp_walkaddr_calm h hd htf hva (fun S' h' => ?_) fun pa S₁ h₁ hpa => ?_
  · exact k _ S' (h'.kept i rfl).kin h'.rebase fun he => (by cases he)
  dsimp only
  rw [lift_bind, bind_assoc]
  have hpage : E.track → ∀ j < data.length, pageOf (pa + j) = pageOf pa := fun ht j hj => by
    have h1 := (hpa ht).1
    have h2 := hfit ht
    refine pageOf_eq_of (pageOf_mod pa) ?_
    unfold pageOf
    rw [PAGESIZE_eq] at *
    omega
  have htgt : E.track → Target E i S₀ (pageOf pa) := fun ht => (hpa ht).2.1
  refine wp_writeAll_calm (f := fun _ => lift (pure (Except.ok ())) >>= f) data h₁ htgt hpage fun S₂ hp₂ h₂ hdata => k (.ok ()) S₂ hp₂.kin h₂ fun _ ht => ?_
  obtain ⟨-, -, e, hw⟩ := hpa ht
  obtain ⟨x, l, rfl⟩ := List.exists_cons_of_ne_nil hne
  obtain ⟨hl, -⟩ := hdata ht 0 (by simp)
  refine ⟨e, pa, ?_, fun j hj => ⟨?_, (hdata ht j hj).2⟩⟩
  · have hback : ∀ a, pageOf a ∈ S₂.own (.slot i) → pageOf a ≠ pageOf pa →
        S₀.mem a = S₂.mem a := fun a ha hne => by
      rw [hp₂.own ht] at ha
      refine (hp₂.mem ht a ha ?_).symm
      by_contra hno
      obtain ⟨n, rfl⟩ : ∃ n, a = pa + n := ⟨a - pa, by omega⟩
      exact hne (hpage ht n (by omega))
    rw [← hl.walk (hp₂.kin.thread.dropping.trans hd) hback addr, hp₂.kin.thread.pagetable]
    exact hw
  · rw [hpage ht j hj]
    exact (hdata ht j hj).1.mem

end K

end BareMetal
