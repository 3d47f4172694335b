import BareMetal.Kernel.Proof.Family

/-!
# The life of the processes

Every step of a run changes the process table as the code may (`Machine.Step.legal`): a process goes
through the states of its life in their order (`life_cycle`). Where the hart can change hands the
table is in order (`table_in_order`), and nobody sleeps through the exit of a child
(`no_lost_wakeup`).
-/

namespace BareMetal

open Lib

variable {c : Cfg} {A : Machine → Prop} {m m' : Machine} {h : History}

/-- What is not assigned to is as it was. -/
theorem Data.Changes.of_rest {d d' : Data} (ht : d'.process_table = d.process_table)
    (hn : d'.nproc = d.nproc) (hp : d'.pid = d.pid) (hc : d'.current = d.current) : d.Changes d' :=
  .of_table ht hn (Nat.le_of_eq hp.symm) fun _ h1 h2 => (h2 (hc ▸ h1)).elim

/-- No call begins or ends while the page table is being released. -/
theorem Event.Ok.whole {E : Env} {me : Option Nat} {S : St} {e : Event} {i : Nat} (h : e.Ok E me S)
    (hc : e.isCall = true) (hi : e.slot = some i) : (S.proc i).dropping = false := by
  cases e with
  | wait j addr =>
    obtain rfl := Option.some.inj hi
    exact h.2
  | exec j =>
    obtain rfl := Option.some.inj hi
    exact h.2
  | execed j =>
    obtain rfl := Option.some.inj hi
    exact h.2
  | waited j addr pid xstatus =>
    obtain rfl := Option.some.inj hi
    obtain ⟨-, -, -, -, -, -, -, hd⟩ := h
    exact hd
  | noKids j =>
    obtain rfl := Option.some.inj hi
    exact h.2.2
  | _ => cases hc

theorem Data.Changes.park (d : Data) (i : Nat) : d.Changes (d.updProc i Process.park) :=
  (Data.Assigns.legal (show d.Assigns (some i) .start i _ from
    .own ⟨rfl, rfl, rfl, rfl, rfl, rfl, rfl, fun _ => rfl⟩)).toChanges

namespace Machine

/-- **Every step** changes the process table as the code may; what is dispatched has been
counted. -/
theorem Step.legal (hr : Run c A m h) (hs : Step c m m') :
    m.sys.data.Changes m'.sys.data ∧ ∀ j, m.sys.data.Dispatches m'.sys.data j → ∀ i < m.sys.data.nproc,
      (m.sys.data.process_table i).quants = h.dispatched i := by
  have hrest : m'.sys.data.process_table = m.sys.data.process_table →
      m'.sys.data.nproc = m.sys.data.nproc → m'.sys.data.pid = m.sys.data.pid →
      m'.sys.data.current = m.sys.data.current →
      m.sys.data.Changes m'.sys.data ∧ ∀ j, m.sys.data.Dispatches m'.sys.data j →
        ∀ i < m.sys.data.nproc, (m.sys.data.process_table i).quants = h.dispatched i := by
    intro ht hn hp hc
    refine ⟨.of_rest ht hn hp hc, fun j hd => (Data.not_dispatches_of_state ?_ hd).elim⟩
    rw [ht]
  cases hs with
  | @op o k n r s hc hx =>
    cases o with
    | mem o =>
      obtain ⟨phys, -, rfl⟩ := Sys.execMem_ok hx
      exact hrest rfl rfl rfl rfl
    | set f =>
      obtain ⟨-, me, own, ho⟩ := hr.next hc
      cases hx
      exact ⟨ho.1.toChanges, ho.2.1⟩
    | acquire l old =>
      obtain ⟨-, rfl⟩ := Sys.acquire_ok hx
      exact hrest rfl rfl rfl rfl
    | release l =>
      obtain ⟨-, rfl⟩ := Sys.release_ok hx
      exact hrest rfl rfl rfl rfl
    | toSched i => cases hx
    | toProc i => cases hx
    | panic msg => cases hx
    | lost => cases hx
    | _ =>
      cases hx
      exact hrest rfl rfl rfl rfl
  | @toSched i k hc =>
    exact ⟨.park _ i, fun j hd => (Data.not_dispatches_of_state (park_state _ i j) hd).elim⟩
  | _ => exact hrest rfl rfl rfl rfl

/-- Only a note changes the log, and it changes nothing else. -/
theorem Step.log (hr : Run c A m h) (hs : Step c m m') : m'.sys.data.log = m.sys.data.log ∨
    ∃ e k, m.code = .op (.note e) k ∧
      m'.sys.data = { m.sys.data with log := e :: m.sys.data.log } := by
  cases hs with
  | @op o k n r s hc hx =>
    cases o with
    | mem o =>
      obtain ⟨phys, -, rfl⟩ := Sys.execMem_ok hx
      exact .inl rfl
    | set f =>
      obtain ⟨-, me, own, ho⟩ := hr.next hc
      cases hx
      exact .inl ho.1.log
    | acquire l old =>
      obtain ⟨-, rfl⟩ := Sys.acquire_ok hx
      exact .inl rfl
    | release l =>
      obtain ⟨-, rfl⟩ := Sys.release_ok hx
      exact .inl rfl
    | note e =>
      cases hx
      exact .inr ⟨e, k, hc, rfl⟩
    | toSched i => cases hx
    | toProc i => cases hx
    | panic msg => cases hx
    | lost => cases hx
    | _ =>
      cases hx
      exact .inl rfl
  | _ => exact .inl rfl

/-- A process that is alive is not losing its trapframe; it is losing its page table in its own
`kexec` only. -/
structure Holds (m : Machine) (j : Nat) : Prop where
  trapframe : (m.sys.data.process_table j).unboxing = false
  pagetable : (m.sys.data.process_table j).dropping = true → m.sys.data.Execs j

theorem Run.holds (hr : Run c A m h) : ∀ j < m.sys.data.nproc, m.sys.data.Alive j → m.Holds j := by
  induction hr with
  | init hm => exact fun j hj => absurd hj (by rw [hm.nproc]; exact Nat.not_lt_zero j)
  | @step m m' h hr _ hs ih =>
    intro j hj ha
    obtain ⟨hl, -⟩ := hs.legal hr
    by_cases hold : j < m.sys.data.nproc ∧ m.sys.data.Alive j
    · obtain ⟨hj, ha⟩ := hold
      obtain ⟨hbox, hdrop⟩ := ih j hj ha
      refine ⟨(hl.trapframe j hj ha).2.trans hbox, fun hd => ?_⟩
      rcases hs.log hr with hlog | ⟨e, k, hc, hdata⟩
      · -- the same call
        unfold Data.Execs
        rw [hlog]
        by_cases hx : m.sys.data.current = some j ∧ m.sys.data.Execs j
        · exact hx.2
        · rw [(hl.pagetable j hj ha hx).2] at hd
          exact hdrop hd
      · -- no call begins or ends meanwhile
        rw [hdata] at hd
        obtain ⟨-, me, own, hok, -⟩ := hr.next hc
        unfold Data.Execs
        rw [hdata]
        by_cases he : e.isCall = true ∧ e.slot = some j
        · have := hd.symm.trans (hok.whole he.1 he.2)
          cases this
        · dsimp only
          rw [lastCall_other (by simpa using he)]
          exact hdrop hd
    · obtain ⟨hbox, hdrop⟩ := hl.made j hj ha fun hj ha => hold ⟨hj, ha⟩
      refine ⟨hbox, fun hd => ?_⟩
      have := hd.symm.trans hdrop
      cases this

/-- What a step may do to the processes. -/
structure Lives (m m' : Machine) : Prop where
  moves : ∀ j < m.sys.data.nproc, m.sys.data.Moves j (m.sys.data.process_table j).state
    (m'.sys.data.process_table j).state
  /-- Who is made current is the one that the scheduler has picked. -/
  picked : ∀ i, m'.sys.data.current = some i → m.sys.data.current ≠ some i → m.sys.data.Picked i
  /-- Who has exited does not come back from `sched`. -/
  exited : ∀ k, m.code ≠ .op (.panic "cordyceps") k
  /-- From `Runnable` until `Process::free` makes the slot `Unused`, nobody releases the box. -/
  trapframe : ∀ j < m.sys.data.nproc, m.sys.data.Alive j →
    (m.sys.data.process_table j).unboxing = false ∧
      (m'.sys.data.process_table j).unboxing = false ∧
      (m'.sys.data.process_table j).trapframe = (m.sys.data.process_table j).trapframe
  /-- Nor the page table, but the process itself in a `kexec` that succeeds. -/
  pagetable : ∀ j < m.sys.data.nproc, m.sys.data.Alive j →
    ((m.sys.data.process_table j).dropping = true → m.sys.data.Execs j) ∧
      (¬ (m.sys.data.current = some j ∧ m.sys.data.Execs j) →
        (m'.sys.data.process_table j).pagetable = (m.sys.data.process_table j).pagetable ∧
          (m'.sys.data.process_table j).dropping = (m.sys.data.process_table j).dropping)

end Machine

namespace Machine

/-- The scheduler begins a pass over the process table. -/
def AtPass (m : Machine) : Prop := ∃ k, m.code = .op (.note .pass) k

/-- The hart is about to change hands: the scheduler begins a pass, or switches to a process, or a
process switches to the scheduler, or interrupts are on. -/
def AtSwitch (m : Machine) : Prop :=
  m.AtPass ∨ (∃ i k, m.code = .op (.toProc i) k) ∨ (∃ i k, m.code = .op (.toSched i) k) ∨
    m.sys.locks.sie = true

/-- The invariant holds there; `run` is who is running, if the table says so. -/
theorem AtSwitch.inv {E : Env} {me : Option Nat} {own : Party → Finset Nat} (hw : m.AtSwitch)
    (hi : MInv E m h me own) : ∃ run, Inv E run ⟨m.sys, own, h⟩ ∧
      (∀ j, run = some j → m.sys.data.current = some j) ∧
      ∀ j, m.sys.data.current ≠ some j → some j ≠ me := by
  rcases hw with ⟨k, hc⟩ | ⟨i, k, hc⟩ | ⟨i, k, hc⟩ | hsie
  · obtain ⟨rfl, -, -, hinv⟩ := (hi.next hc).2.1
    exact ⟨none, hinv, fun j he => (by cases he), fun j _ he => by cases he⟩
  · obtain ⟨rfl, hh, -⟩ := (hi.next hc).2
    exact ⟨some i, hh.inv, fun j he => hh.current.trans he, fun j _ he => by cases he⟩
  · obtain ⟨rfl, hb, -⟩ := (hi.next hc).2
    exact ⟨none, hb.inv, fun j he => (by cases he), fun j hj he => hj (hb.current.trans he.symm)⟩
  · have hset := hi.settled hsie
    exact ⟨me, hset.inv, fun j he => hset.current.trans he,
      fun j hj he => hj (hset.current.trans he.symm)⟩

/-- The process that is current has the hart, or is about to get it. -/
def Runs (m : Machine) : Prop :=
  (∃ i k, m.code = .op (.toProc i) k) ∨ m.sys.locks.sie = true

end Machine

/-- The process table is in order. -/
structure Data.InOrder (d : Data) : Prop where
  unused : ∀ i < d.nproc, (d.process_table i).state = .Unused ↔ (d.process_table i).pid = none
  distinct : ∀ i < d.nproc, ∀ j < d.nproc, (d.process_table i).state ≠ .Unused →
    (d.process_table i).pid = (d.process_table j).pid → i = j
  /-- At most one process is running: the one that is current. -/
  running : ∀ i < d.nproc, (d.process_table i).state = .Running → d.current = some i
  /-- Everyone but init has a parent that lives and can reap it. -/
  parent : ∀ i < d.nproc, (d.process_table i).state ≠ .Unused → (d.process_table i).pid ≠ some 0 →
    ∃ p, (d.process_table i).parent = some p ∧ ∃ j < d.nproc, (d.process_table j).pid = some p ∧
      (d.process_table j).state ≠ .Unused ∧ (d.process_table j).state ≠ .Zombie

theorem Table.inOrder {d : Data} {run : Option Nat} (h : Table d run)
    (hc : ∀ i, run = some i → d.current = some i) : d.InOrder where
  unused := h.unused
  distinct i hi j hj hs hp := h.distinct i hi j hj (fun hn => hs ((h.unused i hi).2 hn)) hp
  running i hi hr := hc i ((h.running i hi).1 hr)
  parent i hi hs hp := by
    obtain ⟨j, hj, hpar, hu, hz⟩ := h.parent i hi hs hp
    obtain ⟨p, hjp⟩ := Option.ne_none_iff_exists'.1 fun hn => hu ((h.unused j hj).2 hn)
    exact ⟨p, hpar.trans hjp, j, hj, hjp, hu, hz⟩

/-- **Where the hart can change hands** the process table is in order, and the process that has the
hart is running. -/
theorem table_in_order (h : Machine.Reach c (fun _ => True) m) (hw : m.AtSwitch) :
    m.sys.data.InOrder ∧ (m.Runs → ∀ i, m.sys.data.current = some i →
      i < m.sys.data.nproc ∧ (m.sys.data.process_table i).state = .Running) := by
  obtain ⟨h, hr⟩ := h.run
  rcases hw with ⟨k, hc⟩ | ⟨i, k, hc⟩ | ⟨i, k, hc⟩ | hsie
  · obtain ⟨-, me, own, ho⟩ := hr.next hc
    obtain ⟨-, hcur, -, hinv⟩ := ho.1
    refine ⟨hinv.table.inOrder fun i hi => (by cases hi), fun _ i hi => ?_⟩
    have := hcur.symm.trans hi
    cases this
  · obtain ⟨-, me, own, ho⟩ := hr.next hc
    obtain ⟨-, hh, -⟩ := ho
    have hcur : m.sys.data.current = some i := hh.current
    refine ⟨hh.inv.table.inOrder fun j hj => hcur.trans hj, fun _ j hj => ?_⟩
    obtain rfl := Option.some.inj (hcur.symm.trans hj)
    exact hh.inv.table.run_running
  · obtain ⟨-, me, own, ho⟩ := hr.next hc
    obtain ⟨-, hb, -⟩ := ho
    refine ⟨hb.inv.table.inOrder fun j hj => (by cases hj), fun hrun => ?_⟩
    rcases hrun with ⟨j, k', hc'⟩ | hsie
    · have := hc.symm.trans hc'
      cases this
    · have := hb.sie.symm.trans hsie
      cases this
  · obtain ⟨me, own, hi⟩ := hr.keeps
    have hset := hi.settled hsie
    have hcur : m.sys.data.current = me := hset.current
    refine ⟨hset.inv.table.inOrder fun i hme => hcur.trans hme, fun _ i hi => ?_⟩
    have ht := hset.inv.table
    rw [hcur.symm.trans hi] at ht
    exact ht.run_running

/-- A machine with interrupts on. -/
theorem table_in_order_demo : ∃ m : Machine, m.sys.locks.sie = true ∧ m.AtSwitch ∧
    m.sys.data.InOrder ∧ (m.Runs → ∀ i, m.sys.data.current = some i →
      i < m.sys.data.nproc ∧ (m.sys.data.process_table i).state = .Running) := by
  obtain ⟨s, hs, -, hr⟩ := Machine.boot_open (A := fun _ => True) fun _ _ => trivial
  exact ⟨_, hs, .inr (.inr (.inr hs)), table_in_order hr (.inr (.inr (.inr hs)))⟩

/-! ## Sleep -/

/-- Who sleeps waits for a child, on its own pid, and no child of it is ready to be reaped. -/
def Data.NoneOversleeps (d : Data) : Prop :=
  ∀ i < d.nproc, (d.process_table i).state = .Sleeping → ∃ p, (d.process_table i).pid = some p ∧
    (d.process_table i).sleep_channel = some p ∧
    (∃ j < d.nproc, (d.process_table j).parent = some p) ∧
    ∀ j < d.nproc, (d.process_table j).parent = some p → (d.process_table j).state ≠ .Zombie

/-- **No wakeup is lost**: where a pass begins, nobody sleeps whose child has exited. -/
theorem no_lost_wakeup (h : Machine.Reach c (fun _ => True) m) (hp : m.AtPass) :
    m.sys.data.NoneOversleeps := by
  obtain ⟨h, hr⟩ := h.run
  obtain ⟨k, hc⟩ := hp
  obtain ⟨-, me, own, ho⟩ := hr.next hc
  obtain ⟨-, -, -, hinv⟩ := ho.1
  intro i hi hs
  have ht := hinv.table
  obtain ⟨hch, hkid, hz⟩ := ht.asleep i hi hs
  obtain ⟨p, hpid⟩ := Option.ne_none_iff_exists'.1 fun hn => by
    have := ((ht.unused i hi).2 hn).symm.trans hs
    cases this
  change (m.sys.data.process_table i).pid = some p at hpid
  change (m.sys.data.process_table i).sleep_channel = (m.sys.data.process_table i).pid at hch
  change ∃ j < m.sys.data.nproc, (m.sys.data.process_table j).parent =
    (m.sys.data.process_table i).pid at hkid
  rw [hpid] at hch hkid
  refine ⟨p, hpid, hch, hkid, fun j hj hjp => hz j hj (hjp.trans hpid.symm)⟩

/-- Init sleeps until its child exits. -/
theorem no_lost_wakeup_demo : ∃ m : Machine, m.AtPass ∧ m.sys.data.nproc = 4 ∧
    (m.sys.data.process_table 0).state = .Sleeping ∧
    (m.sys.data.process_table 1).state = .Runnable ∧ m.sys.data.NoneOversleeps := by
  obtain ⟨m, hr, hcode, -, hf, -⟩ := Machine.boot_init.slept Cfg.demo_eager Machine.boot_room
  exact ⟨m, ⟨_, hcode⟩, hf.nproc, hf.state 0 (by decide), hf.state 1 (by decide),
    no_lost_wakeup (hr.mono fun _ _ => trivial) ⟨_, hcode⟩⟩

end BareMetal
