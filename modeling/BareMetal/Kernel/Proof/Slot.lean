import BareMetal.Kernel.Proof.Sched
import BareMetal.Virt.Proof.World

/-!
# One slot of the process table

A process is built, and freed, in its slot while nothing else runs: `d.put j p pid` is `d` with `p`
in slot `j` and the next pid `pid`. The rules say what `replaceTrapframe`, `replacePagetable`,
`allocproc` (`wp_allocproc`) and `Process::free` (`wp_free`) put there.
-/

namespace BareMetal

open Lib

variable {E : Env} {me : Option Nat}

def Data.put (d : Data) (j : Nat) (p : Process) (pid : Nat) : Data :=
  { d with process_table := Function.update d.process_table j p, pid }

section
variable (d : Data) (j : Nat) (p : Process) (pid : Nat)

@[simp] theorem Data.put_self : (d.put j p pid).process_table j = p := Function.update_self ..

theorem Data.put_ne {k : Nat} (h : k ≠ j) :
    (d.put j p pid).process_table k = d.process_table k := Function.update_of_ne h ..

theorem Data.put_updProc (f : Process → Process) :
    (d.put j p pid).updProc j f = d.put j (f p) pid := by
  unfold Data.updProc
  rw [Data.put_self]
  unfold Data.put
  rw [Function.update_idem]

theorem Data.live_put {k : Nat} (h : k ≠ j) : (d.put j p pid).Live k ↔ d.Live k := by
  unfold Data.Live
  rw [Data.put_ne _ _ _ _ h]
  exact .rfl

theorem Data.put_id : d.put j (d.process_table j) d.pid = d := by
  unfold Data.put
  rw [Function.update_eq_self]

theorem Data.becomes_put : d.Becomes (d.put j p pid) j p pid where
  nproc := rfl
  pid := rfl
  slot := d.put_self j p pid
  rest k _ hk := by
    rw [d.put_ne j p pid hk]
    exact ⟨⟨rfl, rfl, rfl, rfl⟩, rfl⟩

end

/-- A slot is freed. -/
def History.free (h : History) (j : Nat) : History :=
  { h with before := Function.update h.before j none }

theorem History.moved_free {h : History} {d d' : Data} {j : Nat} (hf : d.Frees d' j)
    (hs : ∀ i, i ≠ j → (d'.process_table i).state = (d.process_table i).state) :
    h.moved d d' = h.free j := by
  refine History.ext (funext fun i => ?_) (funext fun i => ?_)
  · show (if d.Frees d' i then none else h.before i) = Function.update h.before j none i
    by_cases hi : i = j
    · subst hi
      rw [if_pos hf, Function.update_self]
    · rw [if_neg fun hx => hx.1 ((hs i hi).symm.trans hx.2), Function.update_of_ne hi]
  · show h.dispatched i + (if d.Dispatches d' i then 1 else 0) = h.dispatched i
    refine congrArg _ (if_neg fun hx => ?_)
    by_cases hi : i = j
    · subst hi
      have := hx.2.symm.trans hf.2
      cases this
    · have := hx.2.symm.trans ((hs i hi).trans hx.1)
      cases this

def Quiet.freed (q : Quiet) (j : Nat) : Quiet := { q with hist := q.hist.free j }

/-- What `allocproc` makes of a process. -/
def Process.alloc (p : Process) (pid trapframe sp : Nat) : Process :=
  { p with pid := some pid, state := .Used, trapframe, unboxing := false, context := .forkret sp }

/-- What `Process::free` makes of a process. -/
def Process.freed (p : Process) (pagetable : Uvm) (trapframe : Nat) : Process :=
  { p with
    pid := none, state := .Unused, parent := none, pagetable, dropping := false, context := .zero
    xstatus := 0, sleep_channel := none, trapframe, unboxing := false }

/-- A zombie loses its pid. -/
theorem Data.Assigns.dead {d : Data} {h : History} {j : Nat} (hz : d.Reaped j) :
    d.Assigns me h j { d.process_table j with pid := none } where
  moves := d.moves_refl j _
  pick h1 := by
    rw [hz.1] at h1
    cases h1
  quants := Nat.le_refl _
  counts := .inl rfl
  names := ⟨.inr (.inl ⟨rfl, hz⟩), fun _ => rfl, fun h1 h2 => by
    have := h1.symm.trans h2
    cases this⟩
  trapframe _ := ⟨rfl, rfl⟩
  pagetable _ _ := ⟨rfl, rfl⟩
  made _ hn := (hn (.inr hz.1)).elim
  thread _ hl := by
    have := hl.2
    rw [hz.1] at this
    simp at this
  born _ _ hs := by
    have hs : _ ∨ _ ∨ _ := hs
    rw [hz.1] at hs
    simp at hs

/-- A zombie is gone. -/
theorem Data.Assigns.gone {d : Data} {h : History} {j : Nat} {p : Process} (hz : d.Reaped j)
    (hs : p.state = .Unused) (hq : p.quants = (d.process_table j).quants)
    (hp : (d.process_table j).pid = none) (hp' : p.pid = none)
    (hx : p.xstatus = (d.process_table j).xstatus)
    (hm : (d.process_table j).SameMem p) (hb : p.unboxing = (d.process_table j).unboxing) :
    d.Assigns me h j p where
  moves := by
    rw [hz.1, hs]
    exact hz.2
  pick h1 := by
    rw [hz.1] at h1
    cases h1
  quants := Nat.le_of_eq hq.symm
  counts := .inl hq
  names := ⟨.inl (hp'.trans hp.symm), fun _ => hx, fun _ _ => hp⟩
  trapframe _ := ⟨hm.1, hb⟩
  pagetable _ _ := hm.2
  made _ hn := (hn (.inr hz.1)).elim
  thread _ hl := by
    have := hl.2
    rw [hz.1] at this
    simp at this
  born _ _ h := by
    rw [hs] at h
    simp at h

namespace K

variable {q : Quiet} {d : Data} {L : Finset LockId} {j pid : Nat} {p : Process} {α : Type}

theorem wp_setProc_put {g : Process → Process} {f : Unit → K α} {Q : α → St → Prop}
    (ha : (d.put j p pid).Assigns me q.hist j (g p))
    (hn : (g p).state = p.state ∨ (g p).state ≠ .Unused ∧ (g p).state ≠ .Running)
    (h : wp E me (f ()) Q (q.on (d.put j (g p) pid) L)) :
    wp E me (setProc j g >>= f) Q (q.on (d.put j p pid) L) := by
  refine wp_setProc (by rw [Data.put_self]; exact ha) (by rw [Data.put_self]; exact hn) ?_
  rw [Data.put_updProc]
  exact h

/-- Frames are known to have one owner before every operation. -/
theorem wp_owned {o : KOp} {f : o.Resp → K α} {Q : α → St → Prop}
    (h : (E.track → Owned E.cfg q.own q.phys.free) → wp E me (.op o f) Q (q.on d L)) :
    wp E me (.op o f) Q (q.on d L) :=
  wp_quiet fun how => (h how).2 _ (.inl ⟨rfl, rfl⟩) (q.locks_inv L) how

/-- A read of a process, where frames are known to have one owner. -/
theorem wp_proc_owned {i : Nat} {f : Process → K α} {Q : α → St → Prop}
    (h : (E.track → Owned E.cfg q.own q.phys.free) →
      wp E me (f (d.process_table i)) Q (q.on d L)) :
    wp E me (proc i >>= f) Q (q.on d L) := wp_quiet fun how => h how

theorem wp_get_owned {f : Data → K α} {Q : α → St → Prop}
    (h : (E.track → Owned E.cfg q.own q.phys.free) → wp E me (f d) Q (q.on d L)) :
    wp E me (get >>= f) Q (q.on d L) := wp_quiet fun how => h how

/-- Memory code that works on the trapframe `tf` of a party, and what it leaves in memory. -/
theorem wp_box_at {x : Party} {tf : Nat} (hu : Quiet.Uses me q.hist d L)
    (hx : ∀ base start, (Lease.one x base start).Mine me d) (htf : E.track → tf ∈ q.own x)
    {β : Type} {p : M β} {R : β → Bytes → Prop} (hp : E.track → M.wp (E.mode false) p
      (fun r v => v.own = {tf} ∧ R r v.mem) ⟨{tf}, q.phys.mem⟩) {f : β → K α} {Q : α → St → Prop}
    (k : ∀ r (q' : Quiet), q.Only E x L q' → (E.track → q'.own = q.own ∧
      (∀ a, pageOf a ∈ q.own x → pageOf a ≠ tf → q'.phys.mem a = q.phys.mem a) ∧
      R r q'.phys.mem) → wp E me (f r) Q (q'.on d L)) :
    wp E me (lift p >>= f) Q (q.on d L) := by
  have hsub : E.track → ({tf} : Finset Nat) ⊆ q.own x := fun ht =>
    Finset.singleton_subset_iff.2 (htf ht)
  refine wp_lift_quiet hu (hx _ _) (fun ht => Lease.one_split (hsub ht)) hp
    fun r v q₁ hw hv => k r q₁ hw.only fun ht => ?_
  obtain ⟨ho, -, -, hk⟩ := Lease.one_has.1 (hw.mem ht).has
  refine ⟨funext fun y => ?_, fun a ha hne => hk a ?_, ?_⟩
  · by_cases hy : y = x
    · rw [hy, ho, (hv ht).1]
      exact Finset.sdiff_union_of_subset (hsub ht)
    · exact ((hw.mem ht).rest y hy).1
  · exact Finset.mem_sdiff.2 ⟨ha, fun he => hne (Finset.mem_singleton.1 he)⟩
  · rw [← (hw.mem ht).whole rfl]
    exact (hv ht).2

theorem wp_box_quiet {x : Party} {tf : Nat} (hu : Quiet.Uses me q.hist d L)
    (hx : ∀ base start, (Lease.one x base start).Mine me d) (htf : E.track → tf ∈ q.own x)
    {β : Type} {p : M β} (hp : E.track → M.wp (E.mode false) p (fun _ v => v.own = {tf})
      ⟨{tf}, q.phys.mem⟩) {f : β → K α} {Q : α → St → Prop}
    (k : ∀ r (q' : Quiet), q.Only E x L q' → (E.track → q'.own = q.own ∧
      ∀ a, pageOf a ∈ q.own x → pageOf a ≠ tf → q'.phys.mem a = q.phys.mem a) →
      wp E me (f r) Q (q'.on d L)) :
    wp E me (lift p >>= f) Q (q.on d L) :=
  wp_box_at (R := fun _ _ => True) hu hx htf
    (fun ht => M.wp_conseq (hp ht) fun _ _ h => ⟨h, trivial⟩)
    fun r q' hn hw => k r q' hn fun ht => ⟨(hw ht).1, (hw ht).2.1⟩

/-- A field of a trapframe is written. -/
theorem wp_write_field {D : Mode} (hns : ¬ D.strict) {tf off w : Nat} {m : Bytes}
    (hp : tf % PAGESIZE = 0) (hoff : off + 4 ≤ PAGESIZE) {Q : Unit → View → Prop}
    (h : Q () ⟨{tf}, m.setWord (tf + off) w⟩) : M.wp D (M.write (tf + off) w) Q ⟨{tf}, m⟩ := by
  refine M.wp_write (fun h => absurd h hns) ⟨?_, ?_⟩ h
  · rw [pageOf_eq_of hp (by omega)]
    exact Finset.mem_singleton_self _
  · rw [PAGESIZE_eq] at *
    omega

theorem wp_setPid {n : Nat} {f : Unit → K α} {Q : α → St → Prop} (hn : pid ≤ n)
    (h : wp E me (f ()) Q (q.on (d.put j p n) L)) :
    wp E me (set (fun d => { d with pid := n }) >>= f) Q (q.on (d.put j p pid) L) :=
  wp_setRest rfl rfl rfl hn (fun _ h1 h2 => (h2 h1).elim) h

/-- A field of a process that is not built yet. -/
theorem wp_setProc_idle {g : Process → Process} {f : Unit → K α} {Q : α → St → Prop}
    (hs : p.state = .Unused ∨ p.state = .Used) (hg : (g p).state = p.state)
    (hq : (g p).quants = p.quants)
    (hp : (g p).pid = p.pid ∨ (g p).pid = some pid ∧ p.state = .Unused)
    (h : wp E me (f ()) Q (q.on (d.put j (g p) pid) L)) :
    wp E me (setProc j g >>= f) Q (q.on (d.put j p pid) L) := by
  refine wp_setProc_put (.idle ?_ ?_ ?_ ?_) (.inl hg) h
  · rw [Data.put_self]
    exact hs
  · rw [Data.put_self]
    exact hg
  · rw [Data.put_self]
    exact hq
  · rw [Data.put_self]
    exact hp

/-- The slot is freed. -/
theorem wp_setProc_free {g : Process → Process} {f : Unit → K α} {Q : α → St → Prop}
    (ha : (d.put j p pid).Assigns me q.hist j (g p)) (hn : p.state ≠ .Unused)
    (hs : (g p).state = .Unused)
    (h : wp E me (f ()) Q ((q.freed j).on (d.put j (g p) pid) L)) :
    wp E me (setProc j g >>= f) Q (q.on (d.put j p pid) L) := by
  have ha' : (d.put j p pid).Assigns me q.hist j (g ((d.put j p pid).process_table j)) := by
    rw [Data.put_self]
    exact ha
  have hself : ((d.put j (g p) pid).process_table j).state = .Unused := by
    rw [Data.put_self]
    exact hs
  have hrest : ∀ i, i ≠ j → ((d.put j (g p) pid).process_table i).state =
      ((d.put j p pid).process_table i).state := fun i hi => by
    rw [Data.put_ne _ _ _ _ hi, Data.put_ne _ _ _ _ hi]
  refine wp_set ha'.legal ha'.spares (fun i hd => ?_) ?_
  · rw [Data.put_updProc] at hd
    by_cases hi : i = j
    · rw [hi] at hd
      have := hd.2.symm.trans hself
      cases this
    · exact (Data.not_dispatches_of_state (hrest i hi) hd).elim
  rw [Data.put_updProc, History.moved_free (j := j) ⟨?_, hself⟩ hrest]
  · exact h
  · rw [Data.put_self]
    exact hn

section
variable (hu : ∀ d, Quiet.Uses me q.hist d L) (hs : p.state = .Unused ∨ p.state = .Used)
include hu hs

omit hu in
theorem not_live_put : ¬ (d.put j p pid).Live j := fun hl => by
  have h := hl.2
  rw [Data.put_self] at h
  rcases hs with hs | hs <;> simp [hs] at h

theorem wp_replaceTrapframe {new : M Nat} {Q : Unit → St → Prop}
    (hm : E.track → SlotMem E.cfg (q.own (.slot j)) q.phys.mem p False)
    (hnew : E.track → M.wp (E.mode false) new (fun f v => Boxed E.cfg ⟨∅, q.phys.mem⟩ v f)
      ⟨∅, q.phys.mem⟩)
    (k : ∀ tf (q' : Quiet), q.Only E (.slot j) L q' →
      (E.track → E.cfg.IsFrame tf ∧
        SlotMem E.cfg (q'.own (.slot j)) q'.phys.mem
          { p with trapframe := tf, unboxing := false } False) →
      Q () (q'.on (d.put j { p with trapframe := tf, unboxing := false } pid) L)) :
    wp E me (replaceTrapframe j new) Q (q.on (d.put j p pid) L) := by
  have hmine : ∀ base start, (Lease.one (.slot j) base start).Mine me (d.put j p pid) :=
    fun base start => .slot (.inr (not_live_put hs))
  unfold replaceTrapframe
  refine wp_lift_quiet (hu _) (hmine _ _) (fun _ => Lease.one_start) hnew
    fun tf v₁ q₁ hw₁ hbox => wp_setProc_idle hs rfl rfl (.inl rfl) (wp_proc ?_)
  rw [Data.put_self]
  -- the old box goes
  have h₁ : E.track → q₁.own (.slot j) = insert tf (q.own (.slot j)) ∧ tf ∉ q.own (.slot j) ∧
      ∀ a, pageOf a ∈ q.own (.slot j) → q₁.phys.mem a = q.phys.mem a := fun ht => by
    obtain ⟨ho, hb, -, hk⟩ := Lease.one_has.1 (hw₁.mem ht).has
    have hv : v₁.own = {tf} := (hbox ht).own
    refine ⟨?_, fun hf => hb tf hf ?_, hk⟩
    · rw [ho, hv, Finset.union_comm]
      rfl
    · rw [hv]
      exact Finset.mem_singleton_self tf
  have hmine' : ∀ base start, (Lease.one (.slot j) base start).Mine me
      (d.put j { p with unboxing := true } pid) := fun base start => .slot (.inr (not_live_put hs))
  have hold : E.track → ({p.trapframe} : Finset Nat) ⊆ q₁.own (.slot j) := fun ht => by
    rw [Finset.singleton_subset_iff, (h₁ ht).1]
    exact Finset.mem_insert_of_mem (hm ht).trapframe
  refine wp_lift_quiet (by rw [hw₁.hist]; exact hu _) (hmine' _ _)
    (fun ht => Lease.one_split (hold ht)) (R := fun _ v => v.own = ∅)
    (fun _ => M.wp_dealloc (Finset.mem_singleton_self _) (Finset.erase_singleton _))
    fun _ v₂ q₂ hw₂ hv₂ => ?_
  refine wp_setProc_idle (f := pure) hs rfl rfl (.inl rfl) (k tf q₂ (hw₁.only.trans hw₂.only) fun ht => ?_)
  obtain ⟨ho₁, hnot, hk₁⟩ := h₁ ht
  obtain ⟨ho₂, -, -, hk₂⟩ := Lease.one_has.1 (hw₂.mem ht).has
  rw [hv₂ ht, Finset.union_empty] at ho₂
  have hmem : ∀ f, f ∈ q₂.own (.slot j) ↔ (f = tf ∨ f ∈ q.own (.slot j)) ∧ f ≠ p.trapframe :=
    fun f => by rw [ho₂, ho₁, Finset.mem_sdiff, Finset.mem_insert, Finset.mem_singleton]
  have hne : tf ≠ p.trapframe := fun he => hnot (he ▸ (hm ht).trapframe)
  refine ⟨(hbox ht).frame, (hmem tf).2 ⟨.inl rfl, hne⟩, (hm ht).whole, fun hd => ?_⟩
  obtain ⟨tab, hsp, -⟩ := (hm ht).space hd
  refine ⟨tab, hsp.congr (fun f hf => ?_) fun a ha => ?_, fun hl => hl.elim⟩
  · obtain ⟨hfp, hf⟩ := Finset.mem_erase.1 hf
    exact Finset.mem_erase.2 ⟨fun he : f = tf => hnot (he ▸ hf), (hmem f).2 ⟨.inr hf, hfp⟩⟩
  · obtain ⟨hfp, hf⟩ := Finset.mem_erase.1 (hsp.tree.has_own ha)
    refine (hk₂ a ?_).trans (hk₁ a hf)
    rw [← ho₂]
    exact (hmem _).2 ⟨.inr hf, hfp⟩

theorem wp_replacePagetable {uvm : Uvm} {B : Finset Nat} {live : Prop} {Q : Unit → St → Prop}
    (hm : E.track → SlotMem.Two E.cfg (q.own (.slot j)) q.phys.mem p uvm B live)
    (k : ∀ q' : Quiet, q.Only E (.slot j) L q' →
      (E.track → SlotMem E.cfg (q'.own (.slot j)) q'.phys.mem
        { p with pagetable := uvm, dropping := false } live) →
      Q () (q'.on (d.put j { p with pagetable := uvm, dropping := false } pid) L)) :
    wp E me (replacePagetable j uvm) Q (q.on (d.put j p pid) L) := by
  unfold replacePagetable
  refine wp_setProc_idle hs rfl rfl (.inl rfl) (wp_proc ?_)
  rw [Data.put_self]
  have hl : ¬ (d.put j { p with dropping := true } pid).Live j := not_live_put hs
  have hA : ∀ f, f ∈ q.own (.slot j) \ ((q.own (.slot j) \ B).erase p.trapframe) ↔
      f ∈ q.own (.slot j) ∧ (f = p.trapframe ∨ f ∈ B) := fun f => by
    simp only [Finset.mem_sdiff, Finset.mem_erase]
    tauto
  refine wp_lift_quiet (hu _) (.slot (.inr hl))
    (fun _ => Lease.one_split (o := (q.own (.slot j) \ B).erase p.trapframe)
      ((Finset.erase_subset _ _).trans Finset.sdiff_subset)) (R := fun _ _ => True)
    (fun ht => ?_) fun _ v₁ q₁ hw₁ _ => ?_
  · obtain ⟨tab, hsp, -⟩ := (hm ht).old.space ((hm ht).old.whole_of id)
    exact wp_drop id hsp (fun _ _ => trivial) fun _ _ _ _ => trivial
  refine wp_setProc_idle (f := pure) hs rfl rfl (.inl rfl) (k q₁ hw₁.only fun ht => ?_)
  have h := hm ht
  obtain ⟨ho, -, -, hk⟩ := Lease.one_has.1 (hw₁.mem ht).has
  have htf := h.old.trapframe
  have hbase : ∀ f, f = p.trapframe ∨ f ∈ B → f ∈ q.own (.slot j) := fun f hf =>
    hf.elim (fun he => he ▸ (Finset.mem_sdiff.1 htf).1) fun hf => h.sub hf
  have hin : ∀ f, f = p.trapframe ∨ f ∈ B → f ∈ q₁.own (.slot j) := fun f hf => by
    rw [ho]
    exact Finset.mem_union_left _ ((hA f).2 ⟨hbase f hf, hf⟩)
  refine ⟨hin _ (.inl rfl), fun hd => (by cases hd), fun _ => ?_⟩
  obtain ⟨tab, hsp, hv⟩ := h.new
  have hkeep : ∀ a, Tree.Has uvm.pagetable.root tab (pageOf a) → q₁.phys.mem a = q.phys.mem a :=
    fun a ha => hk a ((hA _).2 ⟨h.sub (hsp.tree.has_own ha), .inr (hsp.tree.has_own ha)⟩)
  refine ⟨tab, hsp.congr (fun f hf => ?_) hkeep,
    fun hl => (hv hl).congr (funext (hsp.tree.pte_congr hkeep))⟩
  refine Finset.mem_erase.2 ⟨fun he => (Finset.mem_sdiff.1 htf).2 ?_, hin f (.inr hf)⟩
  exact he ▸ hf

end

theorem wp_allocprocLoop (hl : ∀ j, LockId.proc j ∉ L) (hne : L ≠ ∅) (hh : LockId.heap ∉ L)
    (hm : E.track → MemInv E.cfg q.own q.phys.mem d) {Q : Option Nat → St → Prop}
    (hnone : Q none (q.on d L))
    (hsome : ∀ j tf sp (q' : Quiet), j < d.nproc → (d.process_table j).state = .Unused →
      q.Only E (.slot j) L q' → (E.track → SlotMem E.cfg (q'.own (.slot j)) q'.phys.mem
        ((d.process_table j).alloc d.pid tf sp) False) →
      Q (some j) (q'.on (d.put j ((d.process_table j).alloc d.pid tf sp) (d.pid + 1))
        (insert (.proc j) L))) :
    ∀ n k, k + n ≤ d.nproc → wp E me (allocprocLoop n k) Q (q.on d L) := by
  intro n
  induction n with
  | zero => exact fun k _ => hnone
  | succ n ih =>
    intro k hk
    refine wp_proc ?_
    by_cases hu : (d.process_table k).state = .Unused
    · simp only [hu, if_true]
      have huse : ∀ (q : Quiet) d, Quiet.Uses me q.hist d L := fun q d => .of_held hh hne
      have huse' : ∀ (q : Quiet) d, Quiet.Uses me q.hist d (insert (.proc k) L) := fun q d =>
        .of_held (by simpa using hh) (by simp)
      have hslot : E.track → SlotMem E.cfg (q.own (.slot k)) q.phys.mem (d.process_table k) False :=
        fun ht => ((hm ht).slot k (by omega)).dead (Data.not_alive (.inl hu) ∘ .inl)
      refine wp_get ?_
      -- from here on slot `k` is built
      refine (congrArg (fun d' => wp E me _ Q (q.on d' L)) (d.put_id k)).mp ?_
      refine wp_setProc_idle (.inl hu) rfl rfl (.inr ⟨rfl, hu⟩) ?_
      refine wp_add (huse _ _).steady (q.like _ L) (by simp [Forbidden]) fun _ => ?_
      refine wp_setPid (Nat.le_succ _) (wp_setProc_put (.take ?_ rfl ?_ ?_) (.inr (by simp)) ?_)
      · rw [Data.put_self]
        exact hu
      · rw [Data.put_self]
      · rw [Data.put_self]
      rw [wp_bind]
      refine wp_replaceTrapframe (huse _) (.inr rfl) (fun ht => (hslot ht).proc ⟨rfl, rfl, rfl⟩)
        (fun _ => wp_newIn_boxed fun _ => trivial) fun tf q₁ hn₁ h₁ => ?_
      refine wp_lock (hl k) hne (wp_setProc_idle (.inr rfl) rfl rfl (.inl rfl) (wp_proc ?_))
      refine wp_add (huse' _ _).steady (q₁.like _ _) (by simp [Forbidden]) fun _ => ?_
      refine wp_setProc_idle (.inr rfl) rfl rfl (.inl rfl) ?_
      exact hsome k tf _ q₁ (by omega) hu hn₁ fun ht => (h₁ ht).2.proc ⟨rfl, rfl, rfl⟩
    · simp only [hu, if_false]
      exact ih (k + 1) (by omega)

theorem wp_allocproc (hl : ∀ j, LockId.proc j ∉ L) (hne : L ≠ ∅) (hh : LockId.heap ∉ L)
    (hm : E.track → MemInv E.cfg q.own q.phys.mem d) {Q : Option Nat → St → Prop}
    (hnone : Q none (q.on d L))
    (hsome : ∀ j tf sp (q' : Quiet), j < d.nproc → (d.process_table j).state = .Unused →
      q.Only E (.slot j) L q' → (E.track → SlotMem E.cfg (q'.own (.slot j)) q'.phys.mem
        ((d.process_table j).alloc d.pid tf sp) False) →
      Q (some j) (q'.on (d.put j ((d.process_table j).alloc d.pid tf sp) (d.pid + 1))
        (insert (.proc j) L))) :
    wp E me allocproc Q (q.on d L) :=
  wp_get (wp_allocprocLoop hl hne hh hm hnone hsome d.nproc 0 (by omega))

/-- An empty address space beside the one that the slot has. -/
theorem wp_uvmNew_quiet (hu : Quiet.Uses me q.hist d L) (hj : some j = me ∨ ¬ d.Live j)
    (hm : E.track → SlotMem E.cfg (q.own (.slot j)) q.phys.mem p False)
    {f : Uvm → K α} {Q : α → St → Prop} (k : ∀ u v (q' : Quiet), q.Only E (.slot j) L q' →
      (E.track → SlotMem.Two E.cfg (q'.own (.slot j)) q'.phys.mem p u v False) →
      wp E me (f u) Q (q'.on d L)) : wp E me (lift Uvm.new >>= f) Q (q.on d L) := by
  refine wp_lift_quiet hu (.slot hj) (fun _ => Lease.one_start)
    (R := fun u v => Space E.cfg v u fun _ => none)
    (fun _ => wp_uvmNew (fun _ => trivial) fun _ _ _ _ _ h => h) fun u v q₁ hw hsp => ?_
  refine k u v.own q₁ hw.only fun ht => ?_
  obtain ⟨ho, hb, -, hk⟩ := Lease.one_has.1 (hw.mem ht).has
  have hv : v = ⟨v.own, q₁.phys.mem⟩ := congrArg (View.mk v.own) ((hw.mem ht).whole rfl)
  refine (hm ht).beside ho hb hk ⟨fun _ => none, ?_, fun hl => hl.elim⟩
  rw [← hv]
  exact hsp ht

theorem wp_free (hh : LockId.heap ∉ L) (hne : L ≠ ∅) (hz : d.Reaped j)
    (hm : E.track → SlotMem E.cfg (q.own (.slot j)) q.phys.mem (d.process_table j) False)
    {Q : Unit → St → Prop} (k : ∀ u tf (q' : Quiet), (q.freed j).Only E (.slot j) L q' →
      (E.track → SlotMem E.cfg (q'.own (.slot j)) q'.phys.mem
        ((d.process_table j).freed u tf) False) →
      Q () (q'.on (d.put j ((d.process_table j).freed u tf) d.pid) L)) :
    wp E me (Process.free j) Q (q.on d L) := by
  have huse : ∀ (q : Quiet) d, Quiet.Uses me q.hist d L := fun q d => .of_held hh hne
  unfold Process.free
  refine (congrArg (fun d' => wp E me _ Q (q.on d' L)) (d.put_id j)).mp ?_
  refine wp_setProc_put (p := d.process_table j) ?_ (.inl rfl) ?_
  · rw [d.put_id j]
    exact .dead hz
  -- the slot is free from here on
  have hz' : (d.put j { d.process_table j with pid := none } d.pid).Reaped j := by
    obtain ⟨hz, i, hi, hc, hp, hl⟩ := hz
    refine ⟨?_, i, hi, hc, ?_, hl⟩
    · rw [Data.put_self]
      exact hz
    · rw [Data.put_self, Data.put_ne _ _ _ _ hi]
      exact hp
  have ha : (d.put j { d.process_table j with pid := none } d.pid).Assigns me q.hist j
      { d.process_table j with pid := none, state := .Unused } := by
    refine .gone hz' rfl ?_ ?_ rfl ?_ ?_ ?_
    · rw [Data.put_self]
    · rw [Data.put_self]
    · rw [Data.put_self]
    · rw [Data.put_self]
      exact ⟨rfl, rfl, rfl⟩
    · rw [Data.put_self]
  refine wp_setProc_free ha (by rw [hz.1]; simp) rfl ?_
  refine wp_setProc_idle (.inl rfl) rfl rfl (.inl rfl) ?_
  dsimp only
  have h₀ : E.track → SlotMem E.cfg ((q.freed j).own (.slot j)) (q.freed j).phys.mem
      { d.process_table j with pid := none, state := .Unused, parent := none } False := fun ht =>
    (hm ht).proc ⟨rfl, rfl, rfl⟩
  refine wp_uvmNew_quiet (huse _ _) (.inr ?_) h₀ fun u B q₁ hn₁ h₁ => ?_
  · exact not_live_put (.inl rfl)
  rw [wp_bind]
  refine wp_replacePagetable (huse _) (.inl rfl) h₁ fun q₂ hn₂ h₂ => ?_
  refine wp_setProc_idle (.inl rfl) rfl rfl (.inl rfl)
    (wp_setProc_idle (.inl rfl) rfl rfl (.inl rfl) ?_)
  dsimp only
  refine wp_setProc_idle (.inl rfl) rfl rfl (.inl rfl) ?_
  dsimp only
  refine wp_replaceTrapframe (huse _) (.inl rfl) (fun ht => (h₂ ht).proc ⟨rfl, rfl, rfl⟩)
    (fun _ => wp_newIn_boxed fun _ => trivial) fun tf q₃ hn₃ h₃ => ?_
  exact k u tf q₃ (hn₁.trans (hn₂.trans hn₃)) fun ht => (h₃ ht).2

end K

end BareMetal
