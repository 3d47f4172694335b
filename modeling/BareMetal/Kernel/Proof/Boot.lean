import BareMetal.Kernel.Proof.Layout
import BareMetal.Kernel.Proof.Pass

/-!
# Boot

`main` fills the process table and makes the first process (`wp_main`): until it hands the hart to
the scheduler no invariant of the table holds, and none is needed, for interrupts are off and no
process can run. Memory is followed from the start (`Booted`).
-/

namespace BareMetal

open Lib

variable {E : Env} {me : Option Nat}

/-- A slot as `Process::new` makes it. -/
structure Process.Fresh (p : Process) : Prop where
  pid : p.pid = none
  state : p.state = .Unused
  parent : p.parent = none
  quants : p.quants = 0
  dropping : p.dropping = false
  reaped : p.reaped = none

/-- The kernel's data before the first process. -/
structure Data.Boots (d : Data) : Prop where
  current : d.current = none
  pid : d.pid = 0
  log : exits d.log = [] ∧ reaps d.log = [] ∧ returns d.log = []
  stvec : d.csr.stvec = .kernelvec
  fresh : ∀ j < d.nproc, (d.process_table j).Fresh

theorem Data.Boots.not_live {d : Data} (h : d.Boots) (j : Nat) : ¬ d.Live j := fun hl => by
  have hs := hl.2
  rw [(h.fresh j hl.1).state] at hs
  simp at hs

/-! ## The table is filled -/

/-- One more slot. -/
def Data.grow (d : Data) (i : Nat) (p : Process) : Data :=
  { d with process_table := Function.update d.process_table i p, nproc := i + 1 }

section
variable {d : Data} {p : Process}

theorem Data.grow_table (i j : Nat) : (d.grow i p).process_table j =
    if j = i then p else d.process_table j := Function.update_apply ..

theorem Data.Boots.grow (h : d.Boots) (hp : p.Fresh) : (d.grow d.nproc p).Boots where
  current := h.current
  pid := h.pid
  log := h.log
  stvec := h.stvec
  fresh j hj := by
    rw [Data.grow_table]
    split
    · exact hp
    · next hne =>
      have hj' : j < d.nproc + 1 := hj
      exact h.fresh j (by omega)

/-- The log grows by an event that is no exit, no reap and no return. -/
theorem Data.Boots.note (h : d.Boots) {e : Event} (hx : exits [e] = []) (hr : reaps [e] = [])
    (ht : returns [e] = []) : ({ d with log := e :: d.log } : Data).Boots where
  current := h.current
  pid := h.pid
  log := by
    obtain ⟨h1, h2, h3⟩ := h.log
    refine ⟨?_, ?_, ?_⟩
    · exact (List.filterMap_append (l := [e])).trans (by rw [← exits, ← exits, hx, h1]; rfl)
    · exact (List.filterMap_append (l := [e])).trans (by rw [← reaps, ← reaps, hr, h2]; rfl)
    · exact (List.filterMap_append (l := [e])).trans (by rw [← returns, ← returns, ht, h3]; rfl)
  stvec := h.stvec
  fresh := h.fresh

theorem MemInv.note {c : Cfg} {own : Party → Finset Nat} {m : Bytes} (h : MemInv c own m d)
    (e : Event) : MemInv c own m { d with log := e :: d.log } :=
  h.congr (.refl ..) (fun _ _ => .refl ..) rfl rfl (fun _ _ => ⟨rfl, rfl, rfl⟩) (fun _ hl => hl)
    fun _ _ hl => hl

theorem Data.grow_old {j : Nat} (hj : j < d.nproc) :
    (d.grow d.nproc p).process_table j = d.process_table j := by
  rw [Data.grow_table, if_neg (by omega)]

theorem Legal.grow (hp : p.pid = none) (hs : p.state = .Unused) :
    Legal d (d.grow d.nproc p) where
  state j hj := by
    rw [Data.grow_old hj]
    exact d.moves_refl j _
  pick j hj hd := by
    unfold Data.Dispatches at hd
    rw [Data.grow_old hj] at hd
    have := hd.1.symm.trans hd.2
    cases this
  current i h1 h2 := (h2 h1).elim
  quants j hj := by rw [Data.grow_old hj]
  counts j hj := .inl (by rw [Data.grow_old hj])
  nproc := Nat.le_succ _
  grown j hj hj' := by
    have hj : j < d.nproc + 1 := hj
    rw [Data.grow_table, if_pos (by omega)]
    exact hp
  names j hj := by
    rw [Data.grow_old hj]
    exact .refl d j _
  next := Nat.le_refl _
  trapframe j hj _ := by
    rw [Data.grow_old hj]
    exact ⟨rfl, rfl⟩
  pagetable j hj _ _ := by
    rw [Data.grow_old hj]
    exact ⟨rfl, rfl⟩
  made j hj ha hn := by
    unfold Data.Alive Data.Live at ha hn
    by_cases hjn : j = d.nproc
    · rw [Data.grow_table, if_pos hjn, hs] at ha
      simp at ha
    · have hj : j < d.nproc + 1 := hj
      rw [Data.grow_table, if_neg hjn] at ha
      exact (hn (by omega) (ha.imp_left fun h => ⟨by omega, h.2⟩)).elim
  log := rfl

theorem Data.Boots.spares {h : History} {d' : Data} (hb : d.Boots) (hb' : d'.Boots) :
    d.Spares me h d' where
  frame j _ hl := (hb.not_live j hl).elim
  newborn j _ hl := (hb'.not_live j hl).elim

end

/-- A run that has not begun has seen nothing freed. -/
theorem History.start_moved {d d' : Data} (hd : ∀ i, ¬ d.Dispatches d' i) :
    History.start.moved d d' = .start := by
  refine History.ext (funext fun i => ?_) (funext fun i => ?_)
  · exact ite_self _
  · exact congrArg _ (if_neg (hd i))

/-! ## Memory -/

/-- The frames of the kernel and of the slots while `main` makes the processes. -/
structure Booted (c : Cfg) (q : Quiet) (d : Data) (root : Nat) : Prop where
  kvm : ∃ tab fr, KvmInv c ⟨q.own .kvm, q.phys.mem⟩ root tab (StackPages d.nproc) fr
  slot : ∀ j < d.nproc, SlotMem c (q.own (.slot j)) q.phys.mem (d.process_table j) False

/-- The kernel's table and the stacks of the first `n` slots. -/
theorem KvmInv.mem {c : Cfg} {v : View} {root n : Nat} {tab : Nat → Option Nat} {fr : Nat → Nat}
    (h : KvmInv c v root tab (StackPages n) fr) (hn : 4 * n ≤ 15872) :
    KvmMem c v.own v.mem root n tab := by
  have hpage : ∀ i < n, ∀ k < KERNEL_STACK_PAGES, StackPages n (kstackPage i k) := fun i hi k hk =>
    ⟨i, hi, Nat.le_add_right _ _, Nat.add_lt_add_left hk _⟩
  refine ⟨h.tree, fun i hi k hk => ?_, fun i hi k hk j hj l hl he => ?_⟩
  · have hq := hpage i hi k hk
    exact ⟨fr _, (h.page _ hq).2.1, (h.page _ hq).2.2, h.stack _ hq⟩
  · have hq := hpage i hi k hk
    have hr := hpage j hj l hl
    have hrw : PermOk (PTE_R ||| PTE_W) := ⟨by decide, by decide⟩
    rw [h.stack _ hq, h.stack _ hr] at he
    have hqr := h.inj _ _ hq hr
      (leafWord_inj (h.page _ hq).1.aligned hrw (h.page _ hr).1.aligned hrw he).1
    have hi' := kstackAddr_page (stack_bounds (i := i) (by omega)).1
    have hj' := kstackAddr_page (stack_bounds (i := j) (by omega)).1
    unfold kstackPage at hqr
    rw [← hi'.2.2, ← hj'.2.2] at hqr
    exact stackPage_inj (by omega) (by omega) hk hl hqr

namespace Booted

variable {c : Cfg} {q q' : Quiet} {d : Data} {root : Nat}

theorem same (h : Booted c q d root) (hp : q'.phys = q.phys) (ho : q'.own = q.own) :
    Booted c q' d root :=
  ⟨by rw [hp, ho]; exact h.kvm, by rw [hp, ho]; exact h.slot⟩

/-- The invariant of the memory. -/
theorem memInv (h : Booted c q d root) (hb : d.Boots) (hk : d.kvm = some ⟨root⟩)
    (hn : 4 * d.nproc ≤ 15872) : MemInv c q.own q.phys.mem d := by
  obtain ⟨tab, fr, hk'⟩ := h.kvm
  refine ⟨fun j hj => ?_, ⟨root⟩, tab, hk, hk'.mem hn⟩
  exact (h.slot j hj).grow (hb.not_live j) (fun _ hl => hl.elim) (Finset.Subset.refl _)
    (fun _ _ => rfl) ⟨rfl, rfl, rfl⟩

end Booted

/-- A process that has just been made has its box and an empty address space. -/
theorem Process.IsNew.slotMem {c : Cfg} {v : View} {p : Process} {n r f : Nat} (h : p.IsNew n r f)
    (hf : f ∈ v.own) (hr : r ≠ f) (hs : Space c v ⟨USER_START, 0, ⟨r⟩⟩ fun _ => none) :
    SlotMem c v.own v.mem p False := by
  rw [← h.pagetable] at hs
  refine ⟨by rw [h.trapframe]; exact hf, fun hd => ?_, fun _ => ⟨fun _ => none, ?_, False.elim⟩⟩
  · rw [h.dropping] at hd
    cases hd
  · refine hs.narrow (fun g hg => Finset.mem_erase.2 ⟨?_, hs.tree.has_own hg⟩) fun q g hg => ?_
    · rw [h.trapframe]
      rcases hg with rfl | ⟨i, hi⟩
      · rw [h.pagetable]
        exact hr
      · cases hi
    · rw [pte_none fun _ => rfl] at hg
      exact absurd hg not_maps_zero

/-- **`Kvm::init`** where the allocator may have no frame. -/
theorem wp_kvmInit_stop {D : Mode} (hns : ¬ D.strict) (hstop : D.stop) {v : View}
    {Q : Except Unit PageTable → View → Prop} (hok : ∀ t v' tab,
      KvmInv D.cfg v' t.root tab (fun _ => False) (fun _ => 0) → Q (.ok t) v')
    (herr : ∀ v', Q (.error ()) v') : M.wp D (Kvm.init D.cfg) Q v := by
  unfold Kvm.init
  rw [M.wp_bind]
  refine wp_new (fun _ => hstop) fun v₁ f _ _ _ ht _ => ?_
  rw [M.wp_bind]
  refine wp_kvmMaps ht (fun v₂ tab hk _ => hok ⟨f⟩ v₂ tab hk) fun v₂ tab ht₂ hl _ _ => ?_
  dsimp only
  rw [M.wp_bind]
  exact wp_free hns ht₂ (fun q hq => ⟨hstop, hl q hq⟩) fun _ _ => herr _

/-! ## The processes -/

/-- What `Process::new` makes of a stack, an address space and a box. -/
def Process.made (n kstack : Nat) (pagetable : Uvm) (trapframe : Nat) : Process where
  id := n
  pid := none
  state := .Unused
  kstack
  parent := none
  pagetable
  context := .zero
  xstatus := 0
  sleep_channel := none
  trapframe
  quants := 0
  dropping := false
  unboxing := false
  reaped := none

/-- The parts of a new process. -/
def Process.parts (n : Nat) : M (Nat × Uvm × Nat) := do
  let kstack ← KSTACK n
  let pagetable ← Uvm.new
  let trapframe ← Trapframe.newIn
  return (kstack, pagetable, trapframe)

theorem Process.new_eq (n : Nat) :
    Process.new n = Process.parts n >>= fun x => pure (Process.made n x.1 x.2.1 x.2.2) := by
  unfold Process.new Process.parts
  simp only [bind_assoc]
  rfl

namespace K

variable {q : Quiet} {d : Data} {L : Finset LockId} {α β : Type}

/-- A new process for a slot that is not live. -/
theorem wp_processNew (hu : Quiet.Uses me q.hist d L) {n : Nat} (hn : KstackFits n)
    (hl : ¬ d.Live n) {f : Process → K β} {Q : β → St → Prop}
    (k : ∀ p (q' : Quiet), p.Fresh → q.Only E (.slot n) L q' →
      (E.track → SlotMem E.cfg (q'.own (.slot n)) q'.phys.mem p False) →
      wp E me (f p) Q (q'.on d L)) :
    wp E me (lift (Process.new n) >>= f) Q (q.on d L) := by
  rw [Process.new_eq, lift_bind, bind_assoc]
  refine wp_lift_quiet hu (.slot (.inr hl)) (fun _ => Lease.one_start) (R := fun x v =>
      SlotMem E.cfg v.own v.mem (Process.made n x.1 x.2.1 x.2.2) False) (fun _ => ?_)
    fun x v q₁ hw hx => k _ q₁ ⟨rfl, rfl, rfl, rfl, rfl, rfl⟩ hw.only fun ht => ?_
  · have hw : M.wp (E.mode false) (Process.new n) (fun p v => SlotMem E.cfg v.own v.mem p False)
        ⟨∅, q.phys.mem⟩ :=
      BareMetal.wp_processNew hn (fun _ _ _ => trivial) fun p v' r f hp _ _ hf ho _ hs => by
        refine hp.slotMem (by rw [ho]; exact Finset.mem_insert_self _ _) (fun he => hf ?_) hs
        rw [he]
        exact Finset.mem_insert_self _ _
    rw [Process.new_eq, M.wp_bind] at hw
    exact hw
  · obtain ⟨ho, -, hm, -⟩ := Lease.one_has.1 (hw.mem ht).has
    refine (hx ht).grow id (fun _ => id) (by rw [ho]; exact Finset.subset_union_right)
      (fun a ha => (hm a ha).symm) ⟨rfl, rfl, rfl⟩

/-- The stack of slot `n`. -/
theorem wp_allocKstack_quiet (hu : Quiet.Uses me q.hist d L) {root n : Nat} (hn : 4 * n ≤ 15872)
    (hm : E.track → ∃ tab fr,
      KvmInv E.cfg ⟨q.own .kvm, q.phys.mem⟩ root tab (StackPages n) fr)
    {f : Unit → K β} {Q : β → St → Prop} (k : ∀ q' : Quiet, q.Only E .kvm L q' →
      (E.track → ∃ tab fr,
        KvmInv E.cfg ⟨q'.own .kvm, q'.phys.mem⟩ root tab (StackPages (n + 1)) fr) →
      wp E me (f ()) Q (q'.on d L)) :
    wp E me (lift (do allocKstack ⟨root⟩ (← KSTACK n)) >>= f) Q (q.on d L) := by
  refine wp_lift_quiet (l := .one .kvm (q.own .kvm \ q.own .kvm) q.phys.mem) hu
    (fun j _ _ => ⟨fun he => (by cases he), fun he => (by cases he)⟩)
    (fun _ => Lease.one_split (Finset.Subset.refl _)) (R := fun _ v => ∃ tab fr,
      KvmInv E.cfg v root tab (StackPages (n + 1)) fr) (fun ht => ?_)
    fun _ v q₁ hw hv => k q₁ hw.only fun ht => ?_
  · obtain ⟨tab, fr, hk⟩ := hm ht
    refine wp_allocKstack (stack_bounds hn).1 hk (stack_free hn) (fun _ _ _ => trivial)
      fun v' tab' fr' hk' _ _ => ⟨tab', fr', hk'.pages fun q => (stackPages_succ hn q).symm⟩
  · obtain ⟨ho, -, -, -⟩ := Lease.one_has.1 (hw.mem ht).has
    rw [Finset.sdiff_self, Finset.empty_union] at ho
    rw [ho, ← (hw.mem ht).whole rfl]
    exact hv ht

/-- What booting code knows of the rest of the state: nothing has happened, and interrupts were off
before the kernel's lock. -/
def Booting (q : Quiet) : Prop := q.hist = .start ∧ q.prev = false

theorem Booting.near {q q' : Quiet} (h : Booting q) (hn : q.Near E L q') (hL : L ≠ ∅) :
    Booting q' :=
  ⟨hn.hist.trans h.1, (hn.prev hL).trans h.2⟩

theorem Booting.only {q q' : Quiet} {x : Party} (h : Booting q) (hn : q.Only E x L q')
    (hL : L ≠ ∅) : Booting q' :=
  ⟨hn.hist.trans h.1, (hn.prev hL).trans h.2⟩

theorem wp_grow {p : Process} (hb : d.Boots) (hp : p.Fresh) (hq : q.hist = .start) {f : Unit → K β}
    {Q : β → St → Prop} (k : wp E me (f ()) Q (q.on (d.grow d.nproc p) L)) :
    wp E me (set (fun d' => d'.grow d.nproc p) >>= f) Q (q.on d L) := by
  have hd : ∀ i, ¬ d.Dispatches (d.grow d.nproc p) i := fun i hd => by
    unfold Data.Dispatches at hd
    rw [Data.grow_table] at hd
    split at hd
    · rw [hp.state] at hd
      cases hd.2
    · have := hd.1.symm.trans hd.2
      cases this
  refine wp_set (.grow hp.pid hp.state) (hb.spares (hb.grow hp)) (fun i h => (hd i h).elim) ?_
  have hh : q.hist.moved d (d.grow d.nproc p) = q.hist := by
    rw [hq]
    exact History.start_moved hd
  rw [hh]
  exact k

theorem wp_initprocLoop {root : Nat} {Q : Unit → St → Prop} (n : Nat) : ∀ (q : Quiet) d,
    Booting q → d.Boots → 4 * (d.nproc + n) ≤ 15872 → (E.track → Booted E.cfg q d root) →
    (∀ (q' : Quiet) d', Booting q' → d'.Boots → d'.nproc = d.nproc + n → d'.kvm = d.kvm →
      (E.track → Booted E.cfg q' d' root) → Q () (q'.on d' {.kernel})) →
    wp E me (initprocLoop ⟨root⟩ n d.nproc) Q (q.on d {.kernel}) := by
  induction n with
  | zero => exact fun q d hq hb _ hm k => k q d hq hb rfl rfl hm
  | succ n ih =>
    intro q d hq hb hn hm k
    have huse : ∀ h : History, Quiet.Uses me h d {LockId.kernel} := fun h => .of_held (by simp) (by simp)
    unfold initprocLoop
    refine wp_processNew (huse _) (stack_bounds (by omega)).1 (hb.not_live _)
      fun p q₁ hp hn₁ hm₁ => ?_
    have hk₁ : E.track → ∃ tab fr,
        KvmInv E.cfg ⟨q₁.own .kvm, q₁.phys.mem⟩ root tab (StackPages d.nproc) fr := fun ht => by
      obtain ⟨tab, fr, hk⟩ := (hm ht).kvm
      obtain ⟨ho, hs⟩ := hn₁.rest ht .kvm (by simp)
      rw [ho]
      exact ⟨tab, fr, hk.congr (fun _ hf => hf) hs⟩
    refine wp_allocKstack_quiet (huse _) (by omega) hk₁ fun q₂ hn₂ hk₂ => ?_
    refine wp_heapUse_quiet (huse _) fun q₃ hn₃ => ?_
    have hq₃ := ((hq.only hn₁ (by simp)).only hn₂ (by simp)).near hn₃ (by simp)
    refine wp_grow hb hp hq₃.1 (ih q₃ _ hq₃ (hb.grow hp) ?_ (fun ht => ?_)
      fun q' d' hq' hb' hn' hv' hm' => k q' d' hq' hb' ?_ hv' hm')
    · show 4 * (d.nproc + 1 + n) ≤ 15872
      omega
    · obtain ⟨h1, h2⟩ := hn₃.mem ht
      refine Booted.same (q := q₂) ⟨hk₂ ht, fun j hj => ?_⟩ h1 h2
      rw [Data.grow_table]
      split
      · next he =>
        rw [he]
        exact (hm₁ ht).sameAt (hn₂.rest ht _ (by simp))
      · next hne =>
        have hj' : j < d.nproc + 1 := hj
        have hs : SameAt q.own q₁.own q.phys.mem q₁.phys.mem (.slot j) :=
          hn₁.rest ht _ fun he => hne (Party.slot.inj he)
        exact ((hm ht).slot j (by omega)).sameAt (hs.trans (hn₂.rest ht _ (by simp)))
    · rw [hn']
      show d.nproc + 1 + n = d.nproc + (n + 1)
      omega

end K

/-! ## The first process -/

/-- The process in slot `j` is the only one. -/
theorem Data.Boots.first {q : Quiet} {d : Data} {L : Finset LockId} {j : Nat}
    {p : Process} (hb : d.Boots) (hj : j < d.nproc) (hs : p.state = .Runnable) (hp : p.pid = some 0)
    (hc : p.quants = 0) (hr : p.reaped = none) (hh : q.hist = .start)
    (hm : E.track → MemInv E.cfg q.own q.phys.mem (d.put j p 1)) :
    Inv E none (q.on (d.put j p 1) L) := by
  obtain ⟨d', hd'⟩ : ∃ d', d' = d.put j p 1 := ⟨_, rfl⟩
  rw [← hd'] at hm ⊢
  have hn : d'.nproc = d.nproc := by rw [hd']; rfl
  have hpid : d'.pid = 1 := by rw [hd']; rfl
  have hlog : exits d'.log = [] ∧ reaps d'.log = [] ∧ returns d'.log = [] := by
    rw [hd']
    exact hb.log
  have hself : d'.process_table j = p := by rw [hd', Data.put_self]
  have hrest : ∀ k < d'.nproc, k ≠ j → (d'.process_table k).Fresh := fun k hk hkj => by
    rw [hd', Data.put_ne _ _ _ _ hkj]
    exact hb.fresh k (hn ▸ hk)
  rw [← hn] at hj
  clear hd' hn hb
  have h1 := fun k hk hkj => (hrest k hk hkj).pid
  have h2 := fun k hk hkj => (hrest k hk hkj).state
  have h3 := fun k hk hkj => (hrest k hk hkj).parent
  have htab : Table d' none := by
    refine ⟨?_, ?_, ?_, fun k hk r hr => ?_, ?_, ?_, ?_, ?_, ?_, ⟨j, hj, by grind⟩⟩
    case refine_4 =>
      rw [hpid]
      by_cases hkj : k = j
      · rw [hkj, hself, hp] at hr
        have := Option.some.inj hr
        omega
      · rw [h1 k hk hkj] at hr
        cases hr
    all_goals grind
  have hreap : ∀ k < d'.nproc, (d'.process_table k).reaped = none := fun k hk => by
    by_cases hkj : k = j
    · rw [hkj, hself, hr]
    · exact (hrest k hk hkj).reaped
  have hzomb : ∀ k < d'.nproc, (d'.process_table k).state ≠ .Zombie := fun k hk => by
    by_cases hkj : k = j
    · rw [hkj, hself, hs]
      simp
    · rw [h2 k hk hkj]
      simp
  refine ⟨htab, ?_, fun k hk => ?_, fun k _ _ => ?_, hm⟩
  · obtain ⟨he, hre, hret⟩ := hlog
    show Exits d'
    constructor
    case zombie => exact fun k hk hz => (hzomb k hk hz).elim
    case pending =>
      intro k hk r x hx
      rw [hreap k hk] at hx
      cases hx
    case waiting => exact fun k hk hne => (hne (hreap k hk)).elim
    case pending_inj =>
      intro k hk i _ r x y hx
      rw [hreap k hk] at hx
      cases hx
    all_goals simp [he, hre, hret]
  · have hk' : k < d'.nproc := hk
    show (d'.process_table k).quants = q.hist.dispatched k
    rw [hh]
    by_cases hkj : k = j
    · rw [hkj, hself, hc]
      rfl
    · exact (hrest k hk' hkj).quants
  · show q.hist.before k = none
    rw [hh]
    rfl

namespace K

variable {L : Finset LockId}

/-- A field of a trapframe is written with interrupts off. -/
theorem wp_trapframeWrite_quiet {α : Type} {q : Quiet} {d : Data} {i field w : Nat}
    (hu : Quiet.Uses me q.hist d L) (hi : some i = me ∨ ¬ d.Live i)
    (htf : E.track → (d.process_table i).trapframe ∈ q.own (.slot i))
    (hfield : field + 4 ≤ Trapframe.SIZE) {f : Unit → K α} {Q : α → St → Prop}
    (k : ∀ q' : Quiet, q.Only E (.slot i) L q' → (E.track → q'.own = q.own ∧
      ∀ a, pageOf a ∈ q.own (.slot i) → pageOf a ≠ (d.process_table i).trapframe →
        q'.phys.mem a = q.phys.mem a) → wp E me (f ()) Q (q'.on d L)) :
    wp E me (trapframeWrite i field w >>= f) Q (q.on d L) := by
  unfold trapframeWrite
  rw [bind_assoc]
  refine wp_proc_owned fun how => ?_
  exact wp_box_quiet (x := .slot i) hu (fun _ _ => .slot hi) htf (fun ht => wp_write_field id
    ((how ht).frame _ _ (htf ht)).page (Trapframe.in_page hfield) rfl) fun _ => k

/-- `main` from the point where the process table is filled. -/
theorem wp_init {q : Quiet} {d : Data} (hq : Booting q) (hb : d.Boots)
    (hm : E.track → MemInv E.cfg q.own q.phys.mem d) :
    wp E none (do
      let i ← unwrap (← allocproc)
      release (.proc i)
      heapUse
      unwrapOk (← kexec E.cfg i [105, 110, 105, 116] [[49, 48]])
      setProc i fun p => { p with state := .Runnable }
      release .kernel
      return .scheduler) (labelPost E none) (q.on d {.kernel}) := by
  have huse : ∀ (q : Quiet) d, Quiet.Uses none q.hist d {LockId.kernel} := fun q d =>
    .of_held (by simp) (by simp)
  rw [wp_bind]
  refine wp_allocproc (by simp) (by simp) (by simp) hm ?_ fun j tf sp q₁ hj hu hn₁ hs₁ => ?_
  · exact wp_unwrap (huse _ _).steady (q.like _ _) fun a ha => by cases ha
  refine wp_unwrap (Quiet.Uses.steady (.of_held (by simp) (by simp))) (q₁.like _ _) fun a ha => ?_
  obtain rfl := Option.some.inj ha
  refine wp_owned fun how₁ => ?_
  refine wp_release (by simp) (Finset.erase_insert (by simp)) (by simp) ?_
  refine wp_heapUse_quiet (huse _ _) fun q₂ hn₂ => ?_
  have hq₂ := (hq.only hn₁ (by simp)).near hn₂ (by simp)
  have hp : (d.process_table j).Built ((d.process_table j).alloc 0 tf sp) 0 :=
    ⟨rfl, rfl, ⟨sp, rfl⟩, rfl, rfl, rfl⟩
  have hd₀ : ((d.process_table j).alloc 0 tf sp).dropping = false := (hb.fresh j hj).dropping
  rw [hb.pid] at hs₁ ⊢
  generalize (d.process_table j).alloc 0 tf sp = p at hp hs₁ hd₀ ⊢
  have hs : p.state = .Used := hp.state
  have hqu := hp.quants.trans (hb.fresh j hj).quants
  have hr := hp.reaped.trans (hb.fresh j hj).reaped
  have hdead : ¬ (d.put j p 1).Live j := not_live_put (.inr hs)
  have hf : E.track → E.cfg.IsFrame p.trapframe := fun ht =>
    (how₁ ht).frame _ _ (hs₁ ht).trapframe
  have hs₂ : E.track → SlotMem E.cfg (q₂.own (.slot j)) q₂.phys.mem p False := fun ht => by
    rw [(hn₂.mem ht).1, (hn₂.mem ht).2]
    exact hs₁ ht
  have hrest : ∀ q' : Quiet, q₂.Only E (.slot j) {.kernel} q' → E.track → ∀ y, y ≠ .slot j →
      SameAt q.own q'.own q.phys.mem q'.phys.mem y := fun q' hn ht y hy => by
    have h₁ := hn₁.rest ht y hy
    rw [← (hn₂.mem ht).1, ← (hn₂.mem ht).2] at h₁
    exact h₁.trans (hn.rest ht y hy)
  rw [wp_bind]
  refine wp_kexec (m := q₂.phys.mem) ((huse q₂ (d.put j p 1)).keeper (l := .one (.slot j)
      (q₂.own (.slot j)) q₂.phys.mem) (.slot (.inr hdead))) ⟨q₂, ⟨rfl, rfl, fun _ => rfl, fun _ =>
        Lease.one_start.did fun _ => rfl⟩, rfl⟩ hf ?_ ?_ ?_
  · rintro v S ⟨q', -, rfl⟩
    exact congrArg Process.trapframe (d.put_self j p 1)
  · rintro v S ⟨q', -, rfl⟩
    exact wp_unwrapOk_stuck rfl (Quiet.Uses.stuck (huse _ _))
  rintro u sp' v S ⟨q₃, hw₃, rfl⟩ hnew
  have hidle : ∀ {d : Data} {p : Process}, p.state = .Used → ¬ (d.put j p 1).Alive j := fun h =>
    Data.not_alive (.inr (by rw [Data.put_self]; exact h))
  refine wp_note ⟨.inr (hidle hs), (congrArg Process.dropping (d.put_self j p 1)).trans hd₀⟩
    (fun k hk => .inr (Option.some.inj hk ▸ hdead)) fun _ => ?_
  obtain ⟨d₁, hd₁⟩ : ∃ d₁ : Data, d₁ = { d with log := .exec j :: d.log } := ⟨_, rfl⟩
  rw [show { d.put j p 1 with log := .exec j :: (d.put j p 1).log } = d₁.put j p 1 from hd₁ ▸ rfl]
  obtain ⟨hb, hm, hp, hj, hdead⟩ : d₁.Boots ∧ (E.track → MemInv E.cfg q.own q.phys.mem d₁) ∧
      (d₁.process_table j).Built p 0 ∧ j < d₁.nproc ∧ ¬ (d₁.put j p 1).Live j := by
    rw [hd₁]
    exact ⟨hb.note rfl rfl rfl, fun ht => (hm ht).note _, hp, hj, hdead⟩
  clear hd₁
  generalize d₁ = d at hb hm hp hj hdead
  have hself : ((d.put j p 1).process_table j).trapframe = p.trapframe := by rw [Data.put_self]
  -- the new address space beside the old one
  have hs₃ : E.track → SlotMem.Two E.cfg (q₃.own (.slot j)) q₃.phys.mem p u v.own True := fun ht => by
    obtain ⟨ho, hb, -, hk⟩ := Lease.one_has.1 (hw₃.mem ht).has
    refine (hs₂ ht).beside ho hb hk ?_
    rw [← (hw₃.mem ht).whole rfl]
    exact (hnew ht).imp fun _ h => ⟨h.1, fun _ => h.2⟩
  refine wp_trapframeWrite_quiet (huse _ _) (.inr hdead)
    (fun ht => hself ▸ (Finset.mem_sdiff.1 (hs₃ ht).old.trapframe).1) (by decide)
    fun q₄ hn₄ hw₄ => ?_
  rw [hself] at hw₄
  have hs₄ : E.track → SlotMem.Two E.cfg (q₄.own (.slot j)) q₄.phys.mem p u v.own True := fun ht => by
    rw [(hw₄ ht).1]
    exact (hs₃ ht).poke (hw₄ ht).2
  refine wp_trapframeWrite_quiet (huse _ _) (.inr hdead)
    (fun ht => hself ▸ (Finset.mem_sdiff.1 (hs₄ ht).old.trapframe).1) (by decide)
    fun q₅ hn₅ hw₅ => ?_
  rw [hself] at hw₅
  have hs₅ : E.track → SlotMem.Two E.cfg (q₅.own (.slot j)) q₅.phys.mem p u v.own True := fun ht => by
    rw [(hw₅ ht).1]
    exact (hs₄ ht).poke (hw₅ ht).2
  rw [wp_bind]
  refine wp_replacePagetable (fun _ => huse _ _) (.inr hs) hs₅ fun q₆ hn₆ hs₆ => ?_
  have hn₆ := hw₃.only.trans (hn₄.trans (hn₅.trans hn₆))
  have hp' : (d.process_table j).Built { p with pagetable := u, dropping := false } 0 :=
    ⟨hp.state, hp.pid, hp.context, hp.quants, hp.unboxing, hp.reaped⟩
  have hdrop : ({ p with pagetable := u, dropping := false } : Process).dropping = false := rfl
  generalize ({ p with pagetable := u, dropping := false } : Process) = p' at hs₆ hp' hdrop ⊢
  have hs' : p'.state = .Used := hp'.state
  have hdead' : ¬ (d.put j p' 1).Live j := not_live_put (.inr hs')
  have hself' : ((d.put j p' 1).process_table j).trapframe = p'.trapframe := by rw [Data.put_self]
  refine wp_trapframeWrite_quiet (huse _ _) (.inr hdead') (fun ht => hself' ▸ (hs₆ ht).trapframe)
    (by decide) fun q₇ hn₇ hw₇ => ?_
  rw [hself'] at hw₇
  have hs₇ : E.track → SlotMem E.cfg (q₇.own (.slot j)) q₇.phys.mem p' True := fun ht => by
    rw [(hw₇ ht).1]
    exact (hs₆ ht).poke (hw₇ ht).2
  refine wp_trapframeWrite_quiet (huse _ _) (.inr hdead') (fun ht => hself' ▸ (hs₇ ht).trapframe)
    (by decide) fun q₈ hn₈ hw₈ => ?_
  rw [hself'] at hw₈
  have hs₈ : E.track → SlotMem E.cfg (q₈.own (.slot j)) q₈.phys.mem p' True := fun ht => by
    rw [(hw₈ ht).1]
    exact (hs₇ ht).poke (hw₈ ht).2
  refine wp_note ⟨.inr (hidle hs'), (congrArg Process.dropping (d.put_self j p' 1)).trans hdrop⟩
    (fun k hk => .inr (Option.some.inj hk ▸ hdead')) fun _ => ?_
  obtain ⟨d₂, hd₂⟩ : ∃ d₂ : Data, d₂ = { d with log := .execed j :: d.log } := ⟨_, rfl⟩
  rw [show { d.put j p' 1 with log := .execed j :: (d.put j p' 1).log } = d₂.put j p' 1
    from hd₂ ▸ rfl]
  obtain ⟨hb, hm, hp', hj⟩ : d₂.Boots ∧ (E.track → MemInv E.cfg q.own q.phys.mem d₂) ∧
      (d₂.process_table j).Built p' 0 ∧ j < d₂.nproc := by
    rw [hd₂]
    exact ⟨hb.note rfl rfl rfl, fun ht => (hm ht).note _, hp', hj⟩
  clear hd₂
  generalize d₂ = d at hb hm hp' hj
  refine wp_heapUse_quiet (f := fun _ => pure _) (huse _ _) fun q₉ hn₉ => ?_
  have hs₉ : E.track → SlotMem E.cfg (q₉.own (.slot j)) q₉.phys.mem p' True := fun ht => by
    rw [(hn₉.mem ht).1, (hn₉.mem ht).2]
    exact hs₈ ht
  have hn₈ := (hn₆.trans (hn₇.trans hn₈)).trans (hn₉.only _)
  generalize q₉ = q₈ at hn₈ hs₉
  have hq₈ := hq₂.only hn₈ (by simp)
  refine wp_unwrapOk (huse _ _).steady (q₈.like _ _) fun _ _ => ?_
  have hqu' := hp'.quants.trans (hb.fresh j hj).quants
  have hr' := hp'.reaped.trans (hb.fresh j hj).reaped
  refine wp_setProc_put (.ready ?_ rfl ?_ ?_ ⟨hp'.context, hdrop, hr', ?_⟩ hp'.unboxing) (.inr (by simp)) ?_
  · rw [Data.put_self]
    exact hs'
  · rw [Data.put_self]
  · rw [Data.put_self]
  · rw [hq₈.1]
    rfl
  have hmem : E.track → MemInv E.cfg q₈.own q₈.phys.mem
      (d.put j { p' with state := .Runnable } 1) := fun ht => by
    refine (hm ht).update (hrest _ hn₈ ht _ (by simp)) (fun k _ hk => hrest _ hn₈ ht _
      (by simpa using hk)) rfl rfl (fun k _ hk => ?_) (fun k hk => Data.live_put _ _ _ _ hk)
      fun _ => ?_
    · rw [Data.put_ne _ _ _ _ hk]
      exact ⟨rfl, rfl, rfl⟩
    · rw [Data.put_self]
      refine (hs₉ ht).grow (fun _ => trivial) (fun _ _ => ⟨hj, ?_⟩) (Finset.Subset.refl _)
        (fun _ _ => rfl) ⟨rfl, rfl, rfl⟩
      rw [Data.put_self]
      exact .inl rfl
  have hinv : ∀ L, Inv E none (q₈.on (d.put j { p' with state := .Runnable } 1) L) :=
    fun L => hb.first hj rfl hp'.pid hqu' hr' hq₈.1 hmem
  refine wp_release_last hq₈.2 hb.current rfl ⟨rfl, rfl, ?_⟩
  exact ⟨rfl, hb.current, hb.stvec, hinv ∅, fun i hi => by cases hi⟩

theorem wp_main {m : Machine} (hm : Machine.Init E.cfg m) :
    wp E none (main E.cfg) (labelPost E none) ⟨m.sys, fun _ => ∅, .start⟩ := by
  obtain ⟨q, hq⟩ := Quiet.exists_on (S := ⟨m.sys, fun _ => ∅, .start⟩)
    (congrArg Locks.sie hm.locks) (congrArg Locks.umode hm.locks)
    (by show m.sys.locks.Inv; rw [hm.locks]; exact ⟨rfl, fun h => (h rfl).elim⟩)
  have hhist : q.hist = .start := congrArg St.hist hq
  have hheld : m.sys.locks.held = ∅ := congrArg Locks.held hm.locks
  change q.on m.sys.data m.sys.locks.held = _ at hq
  rw [hheld] at hq
  have hcur := hm.current
  have hn := hm.nproc
  have hpid := hm.pid
  have hlog : exits m.sys.data.log = [] ∧ reaps m.sys.data.log = [] ∧
      returns m.sys.data.log = [] := by
    rw [hm.log]
    exact ⟨rfl, rfl, rfl⟩
  rw [← hq]
  generalize m.sys.data = d at hcur hn hpid hlog
  clear hq hm hheld
  have huse : ∀ (q : Quiet) d, Quiet.Uses none q.hist d {LockId.kernel} := fun q d =>
    .of_held (by simp) (by simp)
  unfold main
  refine wp_lock_first hcur rfl (wp_release_last rfl hcur rfl ?_)
  refine wp_setRest rfl rfl rfl (Nat.le_refl _) (fun _ h1 h2 => (h2 h1).elim) (wp_lock_first hcur rfl ?_)
  refine wp_lift_quiet (huse _ _) (l := .one .kvm _ _)
    (fun j _ _ => ⟨fun he => (by cases he), fun he => (by cases he)⟩) (fun _ => Lease.one_start)
    (R := fun r v => ∀ kvm, r = .ok kvm → ∃ tab,
      KvmInv E.cfg v kvm.root tab (fun _ => False) fun _ => 0)
    (fun _ => wp_kvmInit_stop (D := E.mode false) id trivial
      (fun t v' tab hk kvm he => ⟨tab, Except.ok.inj he ▸ hk⟩) fun v' kvm he => (by cases he))
    fun r v q₁ hw₁ hr => ?_
  have hb₁ : Booting q₁ := ⟨hw₁.hist.trans hhist, hw₁.prev (by simp)⟩
  cases r with
  | error e => exact wp_panic (huse _ _).steady (q₁.like _ _) (by simp [Forbidden])
  | ok kvm =>
    refine wp_setRest rfl rfl rfl (Nat.le_refl _) (fun _ h1 h2 => (h2 h1).elim) ?_
    have hd : ({ d.updCsr (fun csr => { csr with stvec := .kernelvec }) with kvm := some kvm } :
        Data).Boots := ⟨hcur, hpid, hlog, rfl, fun j hj => by
      have : j < d.nproc := hj
      omega⟩
    have hkvm : ({ d.updCsr (fun csr => { csr with stvec := .kernelvec }) with kvm := some kvm } :
        Data).kvm = some kvm := rfl
    replace hn : ({ d.updCsr (fun csr => { csr with stvec := .kernelvec }) with kvm := some kvm } :
        Data).nproc = 0 := hn
    generalize ({ d.updCsr (fun csr => { csr with stvec := .kernelvec }) with kvm := some kvm } :
      Data) = d₁ at hd hkvm hn
    have hm₁ : E.track → Booted E.cfg q₁ d₁ kvm.root := fun ht => by
      obtain ⟨ho, -, hm, -⟩ := Lease.one_has.1 (hw₁.mem ht).has
      obtain ⟨tab, hk⟩ := hr ht kvm rfl
      refine ⟨⟨tab, fun _ => 0, (hk.pages fun q => ?_).congr (fun f hf => ?_) fun a ha =>
        (hm a ha).symm⟩, fun j hj => ?_⟩
      · rw [hn]
        exact stackPages_zero q
      · rw [ho]
        exact Finset.mem_union_right _ hf
      · rw [hn] at hj
        cases hj
    rw [wp_bind]
    unfold initproc
    refine wp_get ?_
    rw [hkvm]
    dsimp only
    rw [wp_bind]
    refine wp_initprocLoop 4 q₁ d₁ hb₁ hd (by omega) hm₁
      fun q₂ d₂ hq₂ hd₂ hn₂ hv₂ hm₂ => ?_
    rw [hkvm] at hv₂
    refine wp_get ?_
    rw [hv₂]
    refine wp_setRest rfl rfl rfl (Nat.le_refl _) (fun _ h1 h2 => (h2 h1).elim) ?_
    have hb₂ : (d₂.updCsr fun csr => { csr with satp := kvmSatp kvm }).Boots :=
      ⟨hd₂.current, hd₂.pid, hd₂.log, hd₂.stvec, hd₂.fresh⟩
    refine wp_init hq₂ hb₂ fun ht => ?_
    have h₂ : Booted E.cfg q₂ (d₂.updCsr fun csr => { csr with satp := kvmSatp kvm }) kvm.root :=
      ⟨(hm₂ ht).kvm, (hm₂ ht).slot⟩
    refine h₂.memInv hb₂ hv₂ ?_
    show 4 * d₂.nproc ≤ 15872
    omega

end K

end BareMetal
