import BareMetal.Kernel.Proof.Always
import BareMetal.Kernel.Proof.Stack
import BareMetal.Kernel.Proof.Exec
import BareMetal.Virt.Proof.Sized

/-!
# When `kexec` ends

`KexecGoes` is what a call of `kexec` needs to go on to its end: a frame for the root, not just
enough frames for the image without the stack's, arguments that stay above address 0, and an old
address space that can be dropped. `OwnState.kexec_needs`: without it no run of `kexec` ends.
`OwnState.kexec_always`: with it every run does; it writes only to frames that it has taken and to the
process's own, and either the process has the new address space or nothing of it has changed.
-/

namespace BareMetal

open Lib K

/-- An entry of the page table at `root` gives the user the frame `f`. -/
def GivesUser (m : Bytes) (root f : Nat) : Prop :=
  ∃ t, IsTable m root t ∧ ∃ i < 1024, Maps (m.word (t + 4 * i)) f

/-- A frame of the process in slot `i`: its trapframe, a page table or a user page. -/
def ProcFrame (s : Sys) (i f : Nat) : Prop :=
  f = (s.data.process_table i).trapframe ∨
    IsTable s.phys.mem (s.data.process_table i).pagetable.pagetable.root f ∨
    GivesUser s.phys.mem (s.data.process_table i).pagetable.pagetable.root f

/-- What `kexec` needs to go on to its end. -/
structure KexecGoes (s : Sys) (i : Nat) (img : Slice) (argv : List (List UInt8)) : Prop where
  root : s.phys.free ≠ []
  stack : imageFrames img ≤ s.phys.free.length → programFrames img ≤ s.phys.free.length
  down : programFrames img ≤ s.phys.free.length → StackDown (stackBase img) argv
  old : programFrames img ≤ s.phys.free.length → StackFits (stackBase img) argv →
    USER_START + (s.data.process_table i).pagetable.size < USIZE

/-- An operation of `kexec`: it writes to frames that were free when `kexec` was called and that it
has taken, and to frames of the process; single bytes to the ranges of the arguments, in the frame
`f` of the stack. -/
def KexecOp (s : Sys) (i : Nat) (img : Slice) (argv : List (List UInt8)) (f : Nat) (o : MemOp)
    (x : Phys) : Prop :=
  (o.WritesIn fun g => g ∉ x.free ∧ (g ∈ s.phys.free ∨ ProcFrame s i g)) ∧
    ∀ a b, o = .writeByte a b →
      InStack (stackBase img) f (stackRanges (stackBase img + PAGESIZE) argv) a

/-- How `kexec` ends: with the stack in the frame `f`, or with nothing changed but the frames that
were free. -/
structure KexecEnd (s : Sys) (i : Nat) (img : Slice) (argv : List (List UInt8)) (f : Nat)
    (r : Except Unit Unit) (s' : Sys) : Prop where
  ok_iff : r = .ok () ↔ programFrames img ≤ s.phys.free.length ∧ StackFits (stackBase img) argv
  stack : r = .ok () →
    Sv32.walk s'.phys.mem (s'.data.process_table i).pagetable.pagetable.root (stackBase img) =
      some (leafWord f STACK_PERM, f)
  error : r = .error () → s'.data = s.data ∧ ∀ a, pageOf a ∉ s.phys.free →
    s'.phys.mem a = s.phys.mem a

section
variable {c : Cfg} {s s' : Sys} {tr : List (KOp × Sys)} {i : Nat} {path : List UInt8}
  {argv : List (List UInt8)} {img : Slice}

/-- **A run of `kexec` that ends** had what it needs. -/
theorem OwnState.kexec_needs (hc : c.Eager) (hst : OwnState c s i)
    (hp : program c path = some img) {r : Except Unit Unit}
    (h : K.Ends c (kexec c i path argv) s tr r s') : KexecGoes s i img argv := by
  obtain ⟨tr, s', h, -, -⟩ := kexec_ends h
  obtain ⟨v₀, total, tab₀, hof₀, htf, hsp₀⟩ := hst
  have hN := hof₀.card
  have hoom := tight_oom hc total True
  have hlt : imageFrames img < programFrames img := imageFrames_lt img
  have hfit := program_fits hp
  have htff := hof₀.frame _ ((hof₀.cover _).2 (.inl htf))
  unfold kexecOwned at h
  rw [hp] at h
  -- the root
  obtain ⟨u₀, s₁, tr₁, tr₂, h1, h2, -⟩ := h.bind
  obtain ⟨d1, v₁, hof₁, r, rfl, hp₁, ho₁⟩ := lift_owned (E := tight c total.card True)
    (Q := fun u v' => ∃ r, u = ⟨USER_START, 0, ⟨r⟩⟩ ∧ Private c v₀ v' u (fun _ => none) ∧
      v'.own.card = v₀.own.card + 1) rfl hoom hof₀
    (wp_uvmNew (fun _ => trivial) fun v' f hf ho hm hs =>
      ⟨f, rfl, .new hf ho hm hs, by rw [ho, Finset.card_insert_of_notMem hf]⟩) h1
  have hN₁ := hof₁.card
  have hroot : s.phys.free ≠ [] := fun he => by
    rw [he, List.length_nil] at hN
    omega
  -- the image and the stack
  obtain ⟨p, s₁', tr₃, tr₄, h3, h4, -⟩ := h2.bind
  obtain ⟨rfl, rfl⟩ := proc_ends h3
  obtain ⟨⟨res, u⟩, s₂, tr₅, tr₆, h5, h6, -⟩ := h4.bind
  rw [d1] at h5
  obtain ⟨d2, v₂, hof₂, hok, herr⟩ := lift_owned (E := tight c total.card True)
    (Q := fun (q : Except Unit Unit × Uvm) v' =>
      (q.1 = .ok () → (∃ tab fr, Private c v₀ v' q.2 tab ∧
        Program c v'.mem img (s.data.process_table i).trapframe q.2 tab fr) ∧
        v'.own.card + 1 = v₁.own.card + programFrames img) ∧
      (q.1 = .error () → total.card + 1 < v₁.own.card + imageFrames img)) rfl hoom hof₁
    (wp_kexecLoad id hp₁ htff hfit (fun _ _ _ _ => trivial)
      (fun u' v' tab' fr _ hpr hpg _ hcard => ⟨fun _ => ⟨⟨tab', fr, hpr, hpg⟩, hcard⟩,
        fun he => (by cases he)⟩)
      fun u' v' tab' o _ _ ho hn => ⟨fun he => (by cases he), fun _ => by
        have ho : o.card = total.card := ho
        omega⟩) h5
  have hN₂ := hof₂.card
  cases res with
  | error e =>
    -- too few frames for the image
    have := herr rfl
    exact ⟨hroot, fun _ => by omega, fun _ => by omega, fun _ => by omega⟩
  | ok e =>
    obtain ⟨⟨tab, fr, hpr₂, hpg₂⟩, hcard⟩ := hok rfl
    have hframes : programFrames img ≤ s.phys.free.length := by omega
    -- the arguments
    obtain ⟨hsa, hend⟩ := hpg₂.stackAt hpr₂.space hfit
    obtain ⟨res, s₃, tr₇, tr₈, h7, h8, -⟩ := h6.bind
    obtain ⟨d3, v₃, hof₃, hargs⟩ := lift_alone (Q := fun r v' =>
        (r = .error () ∧ StackDown (stackBase img) argv ∧ ¬ StackFits (stackBase img) argv) ∨
        (∃ sp, r = .ok sp ∧ sp = execSp (stackBase img + PAGESIZE) argv) ∧
          StackFits (stackBase img) argv ∧ v'.own = v₂.own ∧
          ∀ a, pageOf a ≠ fr (stackPage img) → v'.mem a = v₂.mem a) hof₂
      (wp_kexecArgs (E := alone c True) hsa hend (.inr trivial)
        (fun m hf hm _ => .inr ⟨⟨_, rfl, rfl⟩, hf, rfl, hm⟩)
        fun m hd hf _ => .inl ⟨rfl, hd, hf⟩) h7
    rcases hargs with ⟨-, hd, hnf⟩ | ⟨⟨sp, rfl, rfl⟩, hf, ho₃, hm₃⟩
    · exact ⟨hroot, fun _ => hframes, fun _ => hd, fun _ hf => absurd hf hnf⟩
    · refine ⟨hroot, fun _ => hframes, fun _ => hf.down, fun _ _ => ?_⟩
      -- the old address space is dropped
      obtain ⟨_, s₄, tr₉, tr₁₀, h9, h10, -⟩ := h8.bind
      have hidle := heapUse_ends h9
      rw [← hidle.phys] at hof₃
      have hd₄ : s₄.data = s.data := by rw [hidle.data, d3, d2, d1]
      have hv₀ : ∀ f ∈ v₀.own.erase (s.data.process_table i).trapframe, f ∈ v₃.own := fun f hf => by
        rw [ho₃]
        exact hpr₂.sub f (Finset.mem_of_mem_erase hf)
      have htf₃ : (s.data.process_table i).trapframe ∈ v₃.own := by
        rw [ho₃]
        exact hpr₂.sub _ htf
      have hstack := (hpg₂.pages hpr₂ (.inr rfl)).1
      have hsp₄ : Space c { v₃ with own := v₀.own.erase (s.data.process_table i).trapframe }
          (s₄.data.process_table i).pagetable tab₀ := by
        rw [hd₄]
        refine hsp₀.congr (fun _ hf => hf) fun a ha => ?_
        have ha := Finset.mem_of_mem_erase (hsp₀.tree.has_own ha)
        exact (hm₃ a fun he => hstack (he ▸ ha)).trans (hpr₂.mem a ha)
      obtain ⟨_, s₄', _, _, h10', h10, -⟩ := h10.bind
      obtain rfl := note_ends h10'
      obtain ⟨s₅, tr₁₁, d5, hof₅, h11⟩ := trapframe_alone (k := Trapframe.a0)
        (s := { s₄ with data := { s₄.data with log := .exec i :: s₄.data.log } })
        hof₃ (by rw [hd₄]) htf₃ (by decide) h10
      obtain ⟨s₆, tr₁₂, d6, hof₆, h12⟩ := trapframe_alone hof₅ (by rw [d5, hd₄]) htf₃ (by decide) h11
      obtain ⟨_, s₇, tr₁₃, tr₁₄, h13, -, -⟩ := h12.bind
      obtain ⟨-, -, hlt'⟩ := replacePagetable_alone
        (o := v₀.own.erase (s.data.process_table i).trapframe) hof₆ hv₀
        (by
          rw [d6, d5]
          have hno := Finset.notMem_erase (s.data.process_table i).trapframe v₀.own
          exact (hsp₄.trapframe htff.page (by decide) hno).trapframe htff.page (by decide) hno) h13
      rwa [d6, d5, hd₄] at hlt'

end

/-! ## Every run with it -/

theorem MemOp.WritesIn.mono {F G : Nat → Prop} {o : MemOp} (h : o.WritesIn F)
    (hG : ∀ f, F f → G f) : o.WritesIn G := by
  cases o with
  | write a x => exact fun i hi => hG _ (h i hi)
  | writeByte a b => exact hG _ h
  | writeBytes a b n => exact fun i hi => hG _ (h i hi)
  | copy src dst n => exact fun i hi => hG _ (h i hi)
  | _ => trivial

/-- A party that owns other frames besides. -/
theorem View.Of.add {c : Cfg} {total P : Finset Nat} {m₀ : Bytes} {v : View} {s : Phys}
    (h : v.Of c total m₀ s) (hP : ∀ f ∈ P, c.IsFrame f ∧ f ∉ total) :
    View.Of c (P ∪ total) m₀ ⟨P ∪ v.own, v.mem⟩ s where
  mem := h.mem
  same a ha := h.same a fun ht => ha (Finset.mem_union_right _ ht)
  nodup := h.nodup
  disj f hf hl := by
    rcases Finset.mem_union.1 hf with hf | hf
    · exact (hP f hf).2 ((h.cover f).2 (.inr hl))
    · exact h.disj f hf hl
  cover f := by
    rw [Finset.mem_union, h.cover, Finset.mem_union, or_assoc]
  frame f hf := by
    rcases Finset.mem_union.1 hf with hf | hf
    · exact (hP f hf).1
    · exact h.frame f hf

/-- The frames of the process. -/
theorem OwnState.frames {c : Cfg} {s : Sys} {i : Nat} (h : OwnState c s i) :
    ∃ (P : Finset Nat) (tab : Nat → Option Nat),
    (∀ f ∈ P, c.IsFrame f ∧ f ∉ s.phys.free ∧ ProcFrame s i f) ∧
    (s.data.process_table i).trapframe ∈ P ∧
    Space c ⟨P.erase (s.data.process_table i).trapframe, s.phys.mem⟩
      (s.data.process_table i).pagetable tab := by
  classical
  obtain ⟨v, total, tab, hof, htf, hs⟩ := h
  have hm := hof.mem
  rw [hm] at hs
  refine ⟨v.own.filter (ProcFrame s i), tab, fun f hf => ?_, ?_, hs.narrow (fun f hf => ?_)
    fun q f hf => ?_⟩
  · obtain ⟨hf, hp⟩ := Finset.mem_filter.1 hf
    exact ⟨hof.frame f ((hof.cover f).2 (.inl hf)), hof.disj f hf, hp⟩
  · exact Finset.mem_filter.2 ⟨htf, .inl rfl⟩
  · obtain ⟨hne, ho⟩ := Finset.mem_erase.1 (hs.tree.has_own hf)
    exact Finset.mem_erase.2 ⟨hne, Finset.mem_filter.2 ⟨ho, .inr (.inl (hs.tree.isTable_iff.2 hf))⟩⟩
  · obtain ⟨hne, ho⟩ := Finset.mem_erase.1 (hs.user q f hf).1
    refine Finset.mem_erase.2 ⟨hne, Finset.mem_filter.2 ⟨ho, .inr (.inr ?_)⟩⟩
    unfold pte at hf
    split at hf
    · exact absurd hf not_maps_zero
    · next t ht =>
      exact ⟨t, hs.tree.isTable_iff.2 (.inr ⟨_, ht⟩), q % 1024, by omega, hf⟩

/-- A party that owns no frame yet. -/
theorem Phys.view {c : Cfg} {s : Phys} (hn : s.free.Nodup) (hf : ∀ f ∈ s.free, c.IsFrame f) :
    View.Of c s.free.toFinset s.mem ⟨∅, s.mem⟩ s where
  mem := rfl
  same _ _ := rfl
  nodup := hn
  disj _ hf := absurd hf (Finset.notMem_empty _)
  cover f := by
    rw [List.mem_toFinset]
    exact ⟨.inr, fun h => h.resolve_left (Finset.notMem_empty _)⟩
  frame f hf' := hf f (List.mem_toFinset.1 hf')

section
variable {c : Cfg} {s : Sys} {i : Nat} {path : List UInt8} {argv : List (List UInt8)} {img : Slice}
  {v : View} {total : Finset Nat} {m₀ : Bytes} {P : MemOp → Phys → Prop}

/-- Memory code that does not panic, and what follows. -/
theorem always_owned {E : Mode} {α β : Type} {p : M α} {f : α → K β} {R : α → View → Prop}
    {Q : β → Sys → Prop} (hE : E.shared = false) (hstop : ¬ E.stop) (ho : E.Oom total)
    (hof : v.Of E.cfg total m₀ s.phys) (hh : LockId.heap ∉ s.locks.held) (hwp : M.wp E p R v)
    (hP : ∀ tr a x, M.Ends E.cfg p s.phys tr a x → ∀ y ∈ tr,
      (y.1.WritesIn fun f => f ∈ total ∧ f ∉ y.2.free) → P y.1 y.2)
    (h : ∀ a v' s', v'.Of E.cfg total m₀ s'.phys → R a v' → s'.data = s.data →
      s'.locks.held = s.locks.held → K.Always E.cfg P (f a) Q s') :
    K.Always E.cfg P (lift p >>= f) Q s := by
  obtain ⟨tr, a, x, v', he, hof', hr, hw⟩ := M.wp_total hE hstop ho hof hwp
  refine always_bind (always_lift he (fun y hy => hP tr a x he y hy (hw y hy)) hh
    fun s' hp hd hl => h a v' s' ?_ hr hd hl)
  rwa [hp]

/-- Memory code that writes no single bytes. -/
theorem always_tables {n : Nat} {α β : Type} {p : M α} {f : α → K β} {R : α → View → Prop}
    {Q : β → Sys → Prop} (hc : c.Eager) (hn : n = total.card) (hof : v.Of c total m₀ s.phys)
    (hh : LockId.heap ∉ s.locks.held) (hp : p.Only MemOp.NoByte)
    (hwp : M.wp (tight c n False) p R v)
    (hP : ∀ o x, (o.WritesIn fun f => f ∈ total ∧ f ∉ x.free) → o.NoByte → P o x)
    (h : ∀ a v' s', v'.Of c total m₀ s'.phys → R a v' → s'.data = s.data →
      s'.locks.held = s.locks.held → K.Always c P (f a) Q s') :
    K.Always c P (lift p >>= f) Q s := by
  subst hn
  exact always_owned (E := tight c total.card False) rfl id (tight_oom hc total False) hof hh hwp
    (fun tr a x he y hy hw => hP y.1 y.2 hw (he.only hp y hy)) h

/-- `(proc i).trapframe.field = x`, and what follows. -/
theorem always_trapframe {β : Type} {rest : K β} {k x tf : Nat} {Q : β → Sys → Prop}
    (hc : c.Eager) (hof : v.Of c total m₀ s.phys) (hh : LockId.heap ∉ s.locks.held)
    (htf : (s.data.process_table i).trapframe = tf) (ho : tf ∈ v.own) (hk : k + 4 ≤ Trapframe.SIZE)
    (hP : ∀ o x, (o.WritesIn fun f => f ∈ total ∧ f ∉ x.free) → o.NoByte → P o x)
    (h : ∀ s', View.Of c total m₀ { v with mem := v.mem.setWord (tf + k) x } s'.phys →
      s'.data = s.data → s'.locks.held = s.locks.held → K.Always c P rest Q s') :
    K.Always c P (do lift (M.write ((← proc i).trapframe + k) x); rest) Q s := by
  refine always_bind (always_proc ?_)
  rw [htf]
  have hf := hof.frame _ ((hof.cover _).2 (.inl ho))
  refine always_tables (R := fun _ v' => v' = { v with mem := v.mem.setWord (tf + k) x }) hc rfl hof hh
    (Free.only_perform trivial) (M.wp_write (fun hs : False => hs.elim)
      (trapframe_owns hf.page ho hk) rfl) hP fun a v' s' hof' hv hd hl => ?_
  subst hv
  exact h s' hof' hd hl

/-- `(proc i).pagetable = uvm`, and what follows. -/
theorem always_replacePagetable {u : Uvm} {β : Type} {f : Unit → K β} {Q : β → Sys → Prop}
    {tab : Nat → Option Nat} {o : Finset Nat} (hc : c.Eager) (hof : v.Of c total m₀ s.phys)
    (hh : LockId.heap ∉ s.locks.held) (ho : ∀ f ∈ o, f ∈ v.own)
    (hsp : Space c { v with own := o } (s.data.process_table i).pagetable tab)
    (hend : USER_START + (s.data.process_table i).pagetable.size < USIZE)
    (hP : ∀ o x, (o.WritesIn fun f => f ∈ total ∧ f ∉ x.free) → o.NoByte → P o x)
    (h : ∀ v' s', View.Of c total m₀ v' s'.phys → (∀ f ∈ v.own, f ∉ o → f ∈ v'.own) →
      v'.own ⊆ v.own → (∀ a, pageOf a ∉ o → v'.mem a = v.mem a) →
      s'.data = s.data.updProc i (fun p => { p with pagetable := u, dropping := false }) →
      s'.locks.held = s.locks.held → K.Always c P (f ()) Q s') :
    K.Always c P (replacePagetable i u >>= f) Q s := by
  unfold replacePagetable
  refine always_bind (always_bind (always_setProc (always_bind (always_proc ?_))))
  have hpt : ((s.data.updProc i fun p => { p with dropping := true }).process_table i).pagetable =
      (s.data.process_table i).pagetable := by
    rw [Data.updProc_self]
  rw [hpt]
  have hsp' : Space c v (s.data.process_table i).pagetable tab := hsp.congr ho fun _ _ => rfl
  refine always_tables (R := fun _ v' => (∀ f ∈ v.own, f ∉ o → f ∈ v'.own) ∧ v'.own ⊆ v.own ∧
      ∀ a, pageOf a ∉ o → v'.mem a = v.mem a)
    hc rfl hof hh (Uvm.drop_only tableOps_noByte (fun _ => trivial) _)
    (wp_drop id hsp' (fun _ hle => by omega) fun v' _ hown hm => ⟨fun f hf hno =>
      (hown f).2 ⟨hf, fun hret => ?_⟩, fun f hf => ((hown f).1 hf).1,
        fun a ha => hm a fun ht => ha (hsp.tree.has_own ht)⟩) hP
    fun a v' s' hof' hv hd hl => ?_
  · rcases hret with rfl | ⟨q, -, hq⟩
    · exact hno hsp.tree.root_own
    · exact hno (hsp.user q f hq.maps).1
  · refine always_setProc (h v' _ hof' hv.1 hv.2.1 hv.2.2 ?_ hl)
    rw [hd]
    simp only [Data.updProc, Function.update_self, Function.update_idem]

/-- The writes at the end of `kexec`. -/
theorem always_install {u : Uvm} {tab : Nat → Option Nat} {o : Finset Nat} {tf n sp : Nat}
    {r : Except Unit Unit} {Q : Except Unit Unit → Sys → Prop} (hc : c.Eager)
    (hof : v.Of c total m₀ s.phys) (hh : LockId.heap ∉ s.locks.held)
    (htf : (s.data.process_table i).trapframe = tf) (ho : ∀ f ∈ o, f ∈ v.own) (htv : tf ∈ v.own)
    (hto : tf ∉ o) (hs : Space c { v with own := o } (s.data.process_table i).pagetable tab)
    (hend : USER_START + (s.data.process_table i).pagetable.size < USIZE)
    (hP : ∀ o x, (o.WritesIn fun f => f ∈ total ∧ f ∉ x.free) → o.NoByte → P o x)
    (hQ : ∀ s', (s'.data.process_table i).pagetable = u → s'.locks.held = s.locks.held →
      s.phys.free.length ≤ s'.phys.free.length →
      (∀ a, pageOf a ∉ o → pageOf a ≠ tf → s'.phys.mem a = v.mem a) → Q r s') :
    K.Always c P (do
      note (.exec i)
      lift (M.write ((← proc i).trapframe + Trapframe.a0) n)
      lift (M.write ((← proc i).trapframe + Trapframe.a1) sp)
      replacePagetable i u
      lift (M.write ((← proc i).trapframe + Trapframe.sp) sp)
      lift (M.write ((← proc i).trapframe + Trapframe.epc) USER_START)
      note (.execed i)
      return r) Q s := by
  have hfp := (hof.frame _ ((hof.cover _).2 (.inl htv))).page
  refine always_bind (always_note trivial ?_)
  obtain ⟨s₀, hs₀⟩ : ∃ s₀ : Sys, s₀ = { s with data := { s.data with log := .exec i :: s.data.log } } :=
    ⟨_, rfl⟩
  obtain ⟨hof, hh, htf, hs, hend, hQ⟩ : v.Of c total m₀ s₀.phys ∧ LockId.heap ∉ s₀.locks.held ∧
      (s₀.data.process_table i).trapframe = tf ∧
      Space c { v with own := o } (s₀.data.process_table i).pagetable tab ∧
      USER_START + (s₀.data.process_table i).pagetable.size < USIZE ∧
      ∀ s', (s'.data.process_table i).pagetable = u → s'.locks.held = s₀.locks.held →
        s₀.phys.free.length ≤ s'.phys.free.length →
        (∀ a, pageOf a ∉ o → pageOf a ≠ tf → s'.phys.mem a = v.mem a) → Q r s' := by
    rw [hs₀]
    exact ⟨hof, hh, htf, hs, hend, hQ⟩
  rw [← hs₀]
  clear hs₀
  refine always_trapframe hc hof hh htf htv (by decide) hP fun s₁ hof₁ d1 l1 => ?_
  refine always_trapframe hc hof₁ (by rwa [l1]) (by rw [d1]; exact htf) htv (by decide) hP
    fun s₂ hof₂ d2 l2 => ?_
  have hd₂ : s₂.data = s₀.data := d2.trans d1
  refine always_replacePagetable hc hof₂ (by rwa [l2, l1]) ho
    (by
      rw [hd₂]
      exact (hs.trapframe hfp (by decide) hto).trapframe hfp (by decide) hto)
    (by rwa [hd₂]) hP fun v₃ s₃ hof₃ hown hsub hm d3 l3 => ?_
  have htf₃ : (s₃.data.process_table i).trapframe = tf := by
    rw [d3, Data.updProc_self, hd₂]
    exact htf
  have hh₃ : LockId.heap ∉ s₃.locks.held := by rwa [l3, l2, l1]
  have htv₃ := hown tf htv hto
  refine always_trapframe hc hof₃ hh₃ htf₃ htv₃ (by decide) hP fun s₄ hof₄ d4 l4 => ?_
  refine always_trapframe hc hof₄ (by rwa [l4]) (by rw [d4]; exact htf₃) htv₃ (by decide) hP
    fun s₅ hof₅ d5 l5 => always_bind (always_note trivial ?_)
  refine hQ _ (by dsimp only; rw [d5, d4, d3, Data.updProc_self]) (by rw [l5, l4, l3, l2, l1]) ?_
    fun a ha hne => ?_
  · have hcard := hof.card
    have hcard₅ := hof₅.card
    have hle := Finset.card_le_card hsub
    dsimp only at hcard₅ hle ⊢
    omega
  rw [← hof₅.mem]
  dsimp only
  rw [trapframe_setWord hfp (by decide) hne, trapframe_setWord hfp (by decide) hne, hm a ha]
  dsimp only
  rw [trapframe_setWord hfp (by decide) hne, trapframe_setWord hfp (by decide) hne]

/-- Writes to frames that were free or are the process's, none of them of single bytes. -/
theorem kexecOp_noByte {f : Nat} {o : MemOp} {x : Phys}
    (ht : ∀ g ∈ total, g ∈ s.phys.free ∨ ProcFrame s i g)
    (hw : o.WritesIn fun g => g ∈ total ∧ g ∉ x.free) (hb : o.NoByte) :
    KexecOp s i img argv f o x := by
  refine ⟨hw.mono fun g hg => ⟨hg.2, ht g hg.1⟩, ?_⟩
  rintro a b rfl
  exact hb.elim

/-- The image with its stack is below the system's pages. -/
theorem Program.end_lt {c : Cfg} {v : View} {tf : Nat} {u : Uvm} {tab : Nat → Option Nat}
    {fr : Nat → Nat} (h : Program c v.mem img tf u tab fr) (hs : Space c v u tab)
    (hi : img.Fits c) : USER_START + u.size < USIZE := by
  obtain ⟨hsa, hend⟩ := h.stackAt hs hi
  have := hsa.lt
  rw [h.begin_eq] at hend
  omega

theorem KexecEnd.same {f : Nat} {r : Except Unit Unit} {s₁ : Sys}
    (h : KexecEnd s i img argv f r s₁) (hp : s'.phys = s₁.phys) (hd : s'.data = s₁.data) :
    KexecEnd s i img argv f r s' := by
  refine ⟨h.ok_iff, fun hr => ?_, fun hr => ?_⟩
  · rw [hp, hd]
    exact h.stack hr
  · rw [hp, hd]
    exact h.error hr

theorem OwnState.kexecOwned_always (hc : c.Eager) (hst : OwnState c s i)
    (hh : LockId.heap ∉ s.locks.held) (hp : program c path = some img)
    (hg : KexecGoes s i img argv) : ∃ f, K.Always c (KexecOp s i img argv f)
      (kexecOwned c i path argv)
      (fun r s' => KexecEnd s i img argv f r s' ∧ s'.locks.held = s.locks.held ∧
        (r = .ok () → s.phys.free.length ≤ s'.phys.free.length + programFrames img)) s := by
  obtain ⟨P, tab₀, hP, htf, hsp₀⟩ := hst.frames
  obtain ⟨v₀, _, _, hv₀, -, -⟩ := hst
  have hlt := imageFrames_lt img
  have hfit := program_fits hp
  have htff := (hP _ htf).1
  have hof₀ := Phys.view (c := c) hv₀.nodup fun f hf => hv₀.frame f ((hv₀.cover f).2 (.inr hf))
  have hN : s.phys.free.toFinset.card = s.phys.free.length := List.toFinset_card_of_nodup hv₀.nodup
  have hoom := tight_oom hc s.phys.free.toFinset False
  have hfree : ∀ g ∈ s.phys.free.toFinset, g ∈ s.phys.free ∨ ProcFrame s i g := fun g hg =>
    .inl (List.mem_toFinset.1 hg)
  -- the root
  obtain ⟨tr₁, _, x₁, v₁, he₁, hof₁, ⟨r, rfl, hp₁, ho₁⟩, hw₁⟩ := M.wp_total
    (E := tight c s.phys.free.toFinset.card False) rfl id hoom hof₀
    (wp_uvmNew (Q := fun u v' => ∃ r, u = ⟨USER_START, 0, ⟨r⟩⟩ ∧
        Private c ⟨∅, s.phys.mem⟩ v' u (fun _ => none) ∧ v'.own.card = 1)
      (fun ho => by
        have ho : (∅ : Finset Nat).card = s.phys.free.toFinset.card := ho
        rw [hN, Finset.card_empty] at ho
        exact hg.root (List.length_eq_zero_iff.1 ho.symm))
      fun v' f hf ho hm hs => ⟨f, rfl, .new hf ho hm hs, by rw [ho]; rfl⟩)
  -- the image and the stack
  obtain ⟨tr₂, ⟨res, u⟩, x₂, v₂, he₂, hof₂, hl, hw₂⟩ := M.wp_total
    (E := tight c s.phys.free.toFinset.card False) rfl id hoom hof₁
    (wp_kexecLoad (Q := fun q v' => ∃ tab, Private c ⟨∅, s.phys.mem⟩ v' q.2 tab ∧
        (q.1 = .error () ∧ q.2.size ≤ imagePages img * PAGESIZE ∧
            s.phys.free.length < imageFrames img ∨
          q.1 = .ok () ∧ (∃ fr, Program c v'.mem img (s.data.process_table i).trapframe q.2 tab fr) ∧
            v'.own.card = programFrames img))
      id hp₁ htff hfit
      (fun o ho h1 h2 => by
        have ho : o.card = s.phys.free.toFinset.card := ho
        have := hg.stack (by omega)
        omega)
      (fun u' v' tab' fr _ hpr hpg _ hcard => ⟨tab', hpr, .inr ⟨rfl, ⟨fr, hpg⟩, by omega⟩⟩)
      fun u' v' tab' o hpr hsz ho hn => ⟨tab', hpr, .inl ⟨rfl, hsz, by
        have ho : o.card = s.phys.free.toFinset.card := ho
        omega⟩⟩)
  obtain ⟨tab, hpr₂, hl⟩ := hl
  unfold kexecOwned
  rw [hp]
  have pre : ∀ {f : Nat} {k : Except Unit Unit × Uvm → K (Except Unit Unit)}
      {Q : Except Unit Unit → Sys → Prop},
      (∀ s₂, s₂.phys = x₂ → s₂.data = s.data → s₂.locks.held = s.locks.held →
        K.Always c (KexecOp s i img argv f) (k (res, u)) Q s₂) →
      K.Always c (KexecOp s i img argv f) (lift Uvm.new >>= fun t => proc i >>= fun p =>
        lift (kexecLoad c t p.trapframe img) >>= k) Q s := by
    intro f k Q h
    refine always_bind (always_lift he₁ (fun y hy => kexecOp_noByte hfree (hw₁ y hy) (he₁.only
      (Uvm.new_only tableOps_noByte trivial) y hy)) hh fun s₁ p1 d1 l1 => ?_)
    subst p1
    refine always_bind (always_proc ?_)
    rw [d1]
    refine always_bind (always_lift he₂ (fun y hy => kexecOp_noByte hfree (hw₂ y hy) (he₂.only
      (kexecLoad_only tableOps_noByte trivial (fun _ => trivial) (fun _ _ _ => trivial) _ _ _ _) y hy))
      (by rwa [l1]) fun s₂ p2 d2 l2 => ?_)
    exact h s₂ p2 (d2.trans d1) (l2.trans l1)
  -- the way back after a failure
  have back : ∀ {f : Nat} {v : View} {s₂ : Sys}, View.Of c s.phys.free.toFinset s.phys.mem v s₂.phys →
      s₂.data = s.data → s₂.locks.held = s.locks.held → Space c v u tab →
      USER_START + u.size < USIZE →
      ¬ (programFrames img ≤ s.phys.free.length ∧ StackFits (stackBase img) argv) →
      K.Always c (KexecOp s i img argv f) (lift u.drop >>= fun _ => pure (.error ()))
        (fun r s' => KexecEnd s i img argv f r s' ∧ s'.locks.held = s.locks.held ∧
          (r = .ok () → s.phys.free.length ≤ s'.phys.free.length + programFrames img)) s₂ := by
    intro f v s₂ hof hd hl hs hend hno
    refine always_tables (R := fun _ _ => True) hc rfl hof (by rwa [hl])
      (Uvm.drop_only tableOps_noByte (fun _ => trivial) _)
      (wp_drop id hs (fun _ hle => by omega) fun _ _ _ _ => trivial)
      (fun o x => kexecOp_noByte hfree) fun _ v' s' hof' _ hd' hl' => ?_
    exact ⟨⟨iff_of_false (fun he => by cases he) hno, fun he => (by cases he), fun _ =>
      ⟨hd'.trans hd, fun a ha => hof'.same a fun ht => ha (List.mem_toFinset.1 ht)⟩⟩, hl'.trans hl,
        fun he => by cases he⟩
  rcases hl with ⟨he, hsz, hfew⟩ | ⟨he, ⟨fr, hpg⟩, hcard⟩
  · -- too few frames for the image
    dsimp only at he hsz
    subst he
    refine ⟨0, pre fun s₂ p2 d2 l2 => back (by rwa [p2]) d2 l2 hpr₂.space ?_ fun h => ?_⟩
    · have := hfit.pages.high
      rw [PAGESIZE_eq] at hsz
      rw [USIZE_eq]
      unfold USER_START
      omega
    · omega
  · dsimp only at he hpg
    subst he
    obtain ⟨hsa, hend⟩ := hpg.stackAt hpr₂.space hfit
    have hframes : programFrames img ≤ s.phys.free.length := by
      have := hof₂.card
      omega
    refine ⟨fr (stackPage img), pre fun s₂ p2 d2 l2 => ?_⟩
    rw [← p2] at hof₂
    -- the arguments
    refine always_owned (E := tight c s.phys.free.toFinset.card False)
      (R := fun r v' => v'.own = v₂.own ∧
        StackAt c v' u tab (fr (stackPage img)) (stackBase img) ∧
        (r = .error () ∧ ¬ StackFits (stackBase img) argv ∨
        (∃ sp, r = .ok sp) ∧ StackFits (stackBase img) argv)) rfl id hoom hof₂ (by rwa [l2])
      (wp_kexecArgs hsa hend (.inl (hg.down hframes))
        (fun m hf hm _ => ⟨rfl, hsa.write hm, .inr ⟨⟨_, rfl⟩, hf⟩⟩)
        fun m _ hf hm => ⟨rfl, hsa.write hm, .inl ⟨rfl, hf⟩⟩)
      (fun tr r x he y hy hw => ⟨hw.mono fun g hg => ⟨hg.2, hfree g hg.1⟩,
        kexecArgs_bytes hof₂ hsa hend he y hy⟩) fun r v₃ s₃ hof₃ hr d3 l3 => ?_
    obtain ⟨hown₃, hsa₃, hr⟩ := hr
    refine always_bind (always_heapUse (by rwa [l3, l2]) fun s₄ p4 d4 l4 => ?_)
    rw [← p4] at hof₃
    have hd₄ : s₄.data = s.data := by rw [d4, d3, d2]
    have hl₄ : s₄.locks.held = s.locks.held := by rw [l4, l3, l2]
    rcases hr with ⟨rfl, hno⟩ | ⟨⟨sp, rfl⟩, hf⟩
    · exact back hof₃ hd₄ hl₄ hsa₃.space (hpg.end_lt hpr₂.space hfit) fun h => hno h.2
    · -- the process gets the new address space
      have hsame : ∀ a, pageOf a ∈ P → v₃.mem a = s.phys.mem a := fun a ha => by
        rw [hof₃.mem]
        exact hof₃.same a fun ht => (hP _ ha).2.1 (List.mem_toFinset.1 ht)
      have hofP := hof₃.add (P := P) fun f hf =>
        ⟨(hP f hf).1, fun ht => (hP f hf).2.1 (List.mem_toFinset.1 ht)⟩
      have hsp₄ : Space c ⟨P.erase (s.data.process_table i).trapframe, v₃.mem⟩
          (s₄.data.process_table i).pagetable tab₀ := by
        rw [hd₄]
        exact hsp₀.congr (fun _ hf => hf) fun a ha =>
          hsame a (Finset.mem_of_mem_erase (hsp₀.tree.has_own ha))
      refine always_install (o := P.erase (s.data.process_table i).trapframe) hc hofP (by rwa [hl₄])
        (by rw [hd₄]) (fun f hf => Finset.mem_union_left _ (Finset.mem_of_mem_erase hf))
        (Finset.mem_union_left _ htf) (Finset.notMem_erase _ _) hsp₄ ?_
        (fun o x => kexecOp_noByte fun g hg => ?_)
        fun s' hu hl' hle hm => ⟨?_, hl'.trans hl₄, fun _ => ?_⟩
      · rw [hd₄]
        exact hg.old hframes hf
      · rcases Finset.mem_union.1 hg with hg | hg
        · exact .inr (hP g hg).2.2
        · exact hfree g hg
      · refine ⟨iff_of_true rfl ⟨hframes, hf⟩, fun _ => ?_, fun he => by cases he⟩
        rw [hu]
        have hnew : ∀ a, Tree.Has u.pagetable.root tab (pageOf a) → s'.phys.mem a = v₃.mem a :=
          fun a ha => by
            have hno : pageOf a ∉ P := fun hp => (hP _ hp).2.1
              (List.mem_toFinset.1 ((hof₃.cover _).2 (.inl (hsa₃.space.tree.has_own ha))))
            exact hm a (fun he => hno (Finset.mem_of_mem_erase he)) fun he => hno (he ▸ htf)
        have htree : Tree c ⟨v₃.own, s'.phys.mem⟩ u.pagetable.root tab :=
          hsa₃.space.tree.congr (fun _ hf => hsa₃.space.tree.has_own hf) hnew
        have hlt := hsa.lt
        rw [htree.sv32_leaf (by omega) ((hsa₃.space.tree.pte_congr hnew _).trans hsa₃.entry)
          hsa₃.frame.aligned stack_perm.1 (by decide), hsa.page, Nat.add_zero]
      · have hcard₃ := hof₃.card
        rw [hN, hown₃] at hcard₃
        omega

/-- **`kexec` ends** whenever it has what it needs. -/
theorem OwnState.kexec_always (hc : c.Eager) (hst : OwnState c s i) (hh : LockId.heap ∉ s.locks.held)
    (hp : program c path = some img) (hg : KexecGoes s i img argv) :
    ∃ f, K.Always c (KexecOp s i img argv f) (kexec c i path argv)
      (fun r s' => KexecEnd s i img argv f r s' ∧ s'.locks.held = s.locks.held ∧
        (r = .ok () → s.phys.free.length ≤ s'.phys.free.length + programFrames img)) s := by
  obtain ⟨f, ha⟩ := hst.kexecOwned_always hc hh hp hg
  refine ⟨f, always_bind (ha.mono fun r s₁ h => ?_)⟩
  refine always_bind (always_heapUse (by rwa [h.2.1]) fun s' hphys hdata hl => ?_)
  exact ⟨h.1.same hphys hdata, hl.trans h.2.1, by rw [hphys]; exact h.2.2⟩

/-- With enough frames and arguments that fit it succeeds. -/
theorem OwnState.kexec_runs (hc : c.Eager) (hst : OwnState c s i) (hh : LockId.heap ∉ s.locks.held)
    (hp : program c path = some img) (hmem : programFrames img ≤ s.phys.free.length)
    (hf : StackFits (stackBase img) argv)
    (hend : USER_START + (s.data.process_table i).pagetable.size < USIZE) :
    ∃ tr s', K.Ends c (kexec c i path argv) s tr (.ok ()) s' := by
  have hpos := imageFrames_lt img
  have hg : KexecGoes s i img argv :=
    ⟨fun he => by rw [he, List.length_nil] at hmem; omega, fun _ => hmem, fun _ => hf.down,
      fun _ _ => hend⟩
  obtain ⟨f, ha⟩ := hst.kexec_always hc hh hp hg
  obtain ⟨tr, r, s', he, hq, -⟩ := ha.ends
  obtain rfl := hq.ok_iff.2 ⟨hmem, hf⟩
  exact ⟨tr, s', he⟩

end

end BareMetal
