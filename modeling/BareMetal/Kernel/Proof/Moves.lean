import BareMetal.Kernel.Proof.Table

/-!
# What the operations on the process table keep

The loops over the process table as functions of the kernel's data (`Data.mapFrom`), and for each
operation on the table what it makes of the invariants: `Table.exit`, `Table.fork`, `Table.reap`,
`Table.sleep`, `Table.yeld`, `Table.pick`, and the same for `Exits`.
-/

namespace BareMetal

/-! ## Loops over the table -/

/-- `n` slots from slot `k` are changed by `f`. -/
def Data.mapFrom (d : Data) (k n : Nat) (f : Process → Process) : Data :=
  { d with process_table := fun j =>
      if k ≤ j ∧ j < k + n then f (d.process_table j) else d.process_table j }

/-- `wakeup` of one process. -/
def Process.wake (channel : Option Nat) (p : Process) : Process :=
  if p.state = .Sleeping ∧ p.sleep_channel = channel then { p with state := .Runnable } else p

/-- `reparent` of one process. -/
def Process.adopt (pid : Option Nat) (p : Process) : Process :=
  if p.parent = pid then { p with parent := some 0 } else p

section
variable (channel pid : Option Nat) (p : Process)

@[simp] theorem Process.wake_pid : (p.wake channel).pid = p.pid := by
  unfold wake; split <;> rfl

@[simp] theorem Process.wake_parent : (p.wake channel).parent = p.parent := by
  unfold wake; split <;> rfl

@[simp] theorem Process.wake_sleep_channel : (p.wake channel).sleep_channel = p.sleep_channel := by
  unfold wake; split <;> rfl

@[simp] theorem Process.wake_xstatus : (p.wake channel).xstatus = p.xstatus := by
  unfold wake; split <;> rfl

@[simp] theorem Process.wake_quants : (p.wake channel).quants = p.quants := by
  unfold wake; split <;> rfl

@[simp] theorem Process.wake_reaped : (p.wake channel).reaped = p.reaped := by
  unfold wake; split <;> rfl

theorem Process.wake_kept : (p.wake channel).trapframe = p.trapframe ∧
    (p.wake channel).pagetable = p.pagetable ∧ (p.wake channel).dropping = p.dropping := by
  unfold wake; split <;> exact ⟨rfl, rfl, rfl⟩

theorem Process.wake_state : (p.wake channel).state =
    if p.state = .Sleeping ∧ p.sleep_channel = channel then .Runnable else p.state := by
  unfold wake; split <;> rfl

@[simp] theorem Process.adopt_pid : (p.adopt pid).pid = p.pid := by
  unfold adopt; split <;> rfl

@[simp] theorem Process.adopt_state : (p.adopt pid).state = p.state := by
  unfold adopt; split <;> rfl

@[simp] theorem Process.adopt_sleep_channel : (p.adopt pid).sleep_channel = p.sleep_channel := by
  unfold adopt; split <;> rfl

@[simp] theorem Process.adopt_xstatus : (p.adopt pid).xstatus = p.xstatus := by
  unfold adopt; split <;> rfl

@[simp] theorem Process.adopt_quants : (p.adopt pid).quants = p.quants := by
  unfold adopt; split <;> rfl

@[simp] theorem Process.adopt_reaped : (p.adopt pid).reaped = p.reaped := by
  unfold adopt; split <;> rfl

theorem Process.adopt_kept : (p.adopt pid).trapframe = p.trapframe ∧
    (p.adopt pid).pagetable = p.pagetable ∧ (p.adopt pid).dropping = p.dropping := by
  unfold adopt; split <;> exact ⟨rfl, rfl, rfl⟩

theorem Process.adopt_parent : (p.adopt pid).parent =
    if p.parent = pid then some 0 else p.parent := by
  unfold adopt; split <;> rfl

end

section
variable (d : Data) (k n : Nat) (f : Process → Process)

theorem Data.mapFrom_zero : d.mapFrom k 0 f = d := by
  unfold Data.mapFrom
  congr 1
  exact funext fun j => if_neg (by omega)

theorem Data.mapFrom_succ : d.mapFrom k (n + 1) f = (d.updProc k f).mapFrom (k + 1) n f := by
  unfold Data.mapFrom
  congr 1
  funext j
  rw [Data.updProc_table]
  by_cases hj : j = k
  · subst hj
    rw [if_pos (by omega), if_neg (by omega), if_pos rfl]
  · rw [if_neg hj]
    exact if_congr (by omega) rfl rfl

theorem Data.mapFrom_table (j : Nat) : (d.mapFrom k n f).process_table j =
    if k ≤ j ∧ j < k + n then f (d.process_table j) else d.process_table j := rfl

theorem Data.updProc_congr {i : Nat} {g : Process → Process}
    (h : f (d.process_table i) = g (d.process_table i)) : d.updProc i f = d.updProc i g := by
  unfold Data.updProc
  rw [h]

/-- Nothing to change. -/
theorem Data.updProc_id {i : Nat} (h : f (d.process_table i) = d.process_table i) :
    d.updProc i f = d := by
  unfold Data.updProc
  rw [h, Function.update_eq_self]

end

/-! ## Exit -/

/-- The table once process `i` has exited: its children belong to init, who waited for it or for
them is awake. -/
structure Data.Exited (d d' : Data) (i xstatus : Nat) : Prop where
  nproc : d'.nproc = d.nproc
  pid : d'.pid = d.pid
  same : ∀ j < d.nproc, (d'.process_table j).pid = (d.process_table j).pid ∧
    (d'.process_table j).sleep_channel = (d.process_table j).sleep_channel ∧
    (d'.process_table j).reaped = (d.process_table j).reaped
  kept : ∀ j < d.nproc, (d'.process_table j).quants = (d.process_table j).quants ∧
    (d'.process_table j).trapframe = (d.process_table j).trapframe ∧
    (d'.process_table j).pagetable = (d.process_table j).pagetable ∧
    (d'.process_table j).dropping = (d.process_table j).dropping
  parent : ∀ j < d.nproc, (d'.process_table j).parent =
    if (d.process_table j).parent = (d.process_table i).pid then some 0
    else (d.process_table j).parent
  dead : (d'.process_table i).state = .Zombie ∧ (d'.process_table i).xstatus = xstatus
  state : ∀ j < d.nproc, j ≠ i →
    ((d'.process_table j).state = (d.process_table j).state ∧
      ((d.process_table j).state = .Sleeping →
        (d.process_table j).sleep_channel ≠ (d'.process_table i).parent ∧
        ((∃ k < d.nproc, (d.process_table k).parent = (d.process_table i).pid) →
          (d.process_table j).sleep_channel ≠ some 0)) ∨
      (d.process_table j).state = .Sleeping ∧ (d'.process_table j).state = .Runnable) ∧
    (d'.process_table j).xstatus = (d.process_table j).xstatus

theorem Table.exit {d d' : Data} {i xstatus : Nat} (h : Table d (some i))
    (hx : d.Exited d' i xstatus) (hi : (d.process_table i).pid ≠ some 0) : Table d' none := by
  obtain ⟨hn, hp, hs, -, hpar, ⟨hz, -⟩, hst⟩ := hx
  obtain ⟨hin, hrun⟩ := h.run_running
  constructor
  · grind [h.unused]
  · grind [h.settled]
  · grind [h.distinct]
  · intro j hj p hpj
    rw [hn] at hj
    rw [hp]
    exact h.issued j hj p ((hs j hj).1.symm.trans hpj)
  · grind [h.running]
  · grind
  · grind [h.parent, h.init]
  · grind [h.orphan, h.unused]
  · intro j hj hsl
    rw [hn] at hj
    have hji : j ≠ i := fun he => by
      rw [he, hz] at hsl
      cases hsl
    obtain ⟨hsj, hw⟩ | ⟨-, hr⟩ := (hst j hj hji).1
    · rw [hsj] at hsl
      obtain ⟨hch, ⟨c, hc, hcp⟩, hkids⟩ := h.asleep j hj hsl
      obtain ⟨hw1, hw2⟩ := hw hsl
      have hpj : (d.process_table j).pid ≠ none := fun he => by
        rw [(h.unused j hj).2 he] at hsl
        cases hsl
      have hne : (d.process_table j).pid ≠ (d.process_table i).pid := fun he =>
        hji (h.distinct j hj i hin hpj he)
      rw [(hs j hj).1, (hs j hj).2.1]
      refine ⟨hch, ⟨c, by rw [hn]; exact hc, ?_⟩, fun c hc hcp => ?_⟩
      · rw [hpar c hc, if_neg fun he => hne (hcp.symm.trans he)]
        exact hcp
      · rw [hn] at hc
        have hcp' := hpar c hc
        rw [hcp] at hcp'
        split at hcp'
        -- a child of `i`, now of init: init would be awake
        · next he => exact (hw2 ⟨c, hc, he⟩ (hch.trans hcp')).elim
        · by_cases hci : c = i
          -- `i` itself: its parent would be awake
          · rw [hci] at hcp
            exact (hw1 (hch.trans hcp.symm)).elim
          · have := hkids c hc hcp'.symm
            grind
    · rw [hr] at hsl
      cases hsl
  · grind [h.init]

/-! ### Exit statuses -/

section
variable {l : List Event}

@[simp] theorem exits_exit (p x : Nat) : exits (.exit p x :: l) = (p, x) :: exits l := rfl
@[simp] theorem exits_reap (i j p x : Nat) : exits (.reap i j p x :: l) = exits l := rfl

@[simp] theorem reaps_reap (i j p x : Nat) : reaps (.reap i j p x :: l) = (p, x) :: reaps l := rfl
@[simp] theorem reaps_exit (p x : Nat) : reaps (.exit p x :: l) = reaps l := rfl

@[simp] theorem returns_waited (i a p x : Nat) :
    returns (.waited i a p x :: l) = (p, x) :: returns l := rfl
@[simp] theorem returns_exit (p x : Nat) : returns (.exit p x :: l) = returns l := rfl
@[simp] theorem returns_reap (i j p x : Nat) : returns (.reap i j p x :: l) = returns l := rfl

end

theorem Exits.exit {d d' : Data} {i xstatus p : Nat} (h : Exits d) (ht : Table d (some i))
    (hx : d.Exited d' i xstatus) (hp : (d.process_table i).pid = some p)
    (hr : (d.process_table i).reaped = none) (hl : d'.log = .exit p xstatus :: d.log) :
    Exits d' := by
  obtain ⟨hn, hpid, hs, -, -, ⟨hz, hzx⟩, hst⟩ := hx
  obtain ⟨hin, hrun⟩ := ht.run_running
  have hnew : ∀ x, (p, x) ∉ exits d.log := fun x =>
    h.alive i hin (by rw [hrun]; simp) p x hp
  have hnr : ∀ x, (p, x) ∉ reaps d.log := fun x hm => hnew x (h.reap_sub _ hm)
  constructor
  · rw [hl, exits_exit, List.map_cons, List.nodup_cons]
    refine ⟨fun hm => ?_, h.exit_once⟩
    obtain ⟨e, hm, he⟩ := List.mem_map.1 hm
    rw [show e = (p, e.2) from Prod.ext he rfl] at hm
    exact hnew _ hm
  · rw [hl]; exact h.reap_once
  · rw [hl]; exact h.return_once
  · rw [hl, hpid, exits_exit]
    intro e he
    rcases List.mem_cons.1 he with rfl | he
    · exact ht.issued i hin p hp
    · exact h.issued e he
  · rw [hl, exits_exit]
    exact fun e he => List.mem_cons_of_mem _ (h.reap_sub e he)
  · rw [hl]; exact h.return_sub
  · rw [hl, exits_exit]
    grind [h.alive, ht.distinct]
  · rw [hl, exits_exit, reaps_exit]
    grind [h.zombie]
  · rw [hl, exits_exit, reaps_exit]
    grind [h.kept]
  · rw [hl, reaps_exit, returns_exit]
    grind [h.pending]
  · intro j hj hrj
    rw [hn] at hj
    rw [(hs j hj).2.2] at hrj
    have hji : j ≠ i := fun he => hrj (he ▸ hr)
    have hw := (h.waiting j hj hrj).2
    refine ⟨hn ▸ hj, ?_⟩
    rcases (hst j hj hji).1 with ⟨he, -⟩ | ⟨-, he⟩
    · rw [he]
      exact hw
    · exact .inl he
  · grind [h.pending_inj]

/-! ## One process changes -/

/-- Slot `j` becomes `p`; pids up to `pid` are issued. -/
structure Data.Becomes (d d' : Data) (j : Nat) (p : Process) (pid : Nat) : Prop where
  nproc : d'.nproc = d.nproc
  pid : d'.pid = pid
  slot : d'.process_table j = p
  rest : ∀ k < d.nproc, k ≠ j → (d.process_table k).SameRow (d'.process_table k) ∧
    (d'.process_table k).xstatus = (d.process_table k).xstatus

section
variable {d d' : Data} {i j pid : Nat} {p : Process} {run : Option Nat}

/-- A process is made of a slot that is not used. -/
theorem Table.fork (h : Table d (some i)) (hb : d.Becomes d' j p (d.pid + 1)) (hj : j < d.nproc)
    (hu : (d.process_table j).state = .Unused) (hs : p.state = .Runnable)
    (hp : p.pid = some d.pid) (hpar : p.parent = (d.process_table i).pid) :
    Table d' (some i) := by
  obtain ⟨hn, hpid, hd, hk⟩ := hb
  obtain ⟨hin, hrun⟩ := h.run_running
  have h0 : (d.process_table j).pid = none := (h.unused j hj).1 hu
  have hij : i ≠ j := fun he => by
    rw [he, hu] at hrun
    cases hrun
  have hi0 : (d.process_table i).pid ≠ none := fun he => by
    rw [(h.unused i hin).2 he] at hrun
    cases hrun
  have hrow : ∀ k < d.nproc, k ≠ j → (d.process_table k).SameRow (d'.process_table k) :=
    fun k hk1 hk2 => (hk k hk1 hk2).1
  have h1 := fun k hk1 hk2 => (hrow k hk1 hk2).pid
  have h2 := fun k hk1 hk2 => (hrow k hk1 hk2).state
  have h3 := fun k hk1 hk2 => (hrow k hk1 hk2).parent
  have h4 := fun k hk1 hk2 => (hrow k hk1 hk2).sleep_channel
  have hfresh : ∀ k < d.nproc, (d.process_table k).pid ≠ some d.pid := fun k hk he =>
    absurd (h.issued k hk _ he) (by omega)
  have ho := h.orphan j hj hu
  constructor
  · grind [h.unused]
  · grind [h.settled]
  · grind [h.distinct]
  · intro k hk' q hq
    rw [hn] at hk'
    rw [hpid]
    by_cases hkj : k = j
    · rw [hkj, hd, hp] at hq
      have := Option.some.inj hq
      omega
    · have := h.issued k hk' q ((h1 k hk' hkj).symm.trans hq)
      omega
  · grind [h.running]
  · grind
  · grind [h.parent]
  · grind [h.orphan]
  · grind [h.asleep, h.unused]
  · grind [h.init]

/-- The parent of a zombie frees it. -/
theorem Table.reap (h : Table d (some i)) (hb : d.Becomes d' j p d.pid) (hj : j < d.nproc)
    (hz : (d.process_table j).state = .Zombie)
    (hpar : (d.process_table j).parent = (d.process_table i).pid) (hs : p.state = .Unused)
    (hp : p.pid = none) (ho : p.parent = none) : Table d' (some i) := by
  obtain ⟨hn, hpid, hd, hk⟩ := hb
  obtain ⟨hin, hrun⟩ := h.run_running
  have hij : i ≠ j := fun he => by
    rw [he, hz] at hrun
    cases hrun
  have hjp : (d.process_table j).parent ≠ none := fun he => by
    rw [(h.unused i hin).2 (hpar ▸ he)] at hrun
    cases hrun
  have hrow : ∀ k < d.nproc, k ≠ j → (d.process_table k).SameRow (d'.process_table k) :=
    fun k hk1 hk2 => (hk k hk1 hk2).1
  have h1 := fun k hk1 hk2 => (hrow k hk1 hk2).pid
  have h2 := fun k hk1 hk2 => (hrow k hk1 hk2).state
  have h3 := fun k hk1 hk2 => (hrow k hk1 hk2).parent
  have h4 := fun k hk1 hk2 => (hrow k hk1 hk2).sleep_channel
  constructor
  · grind [h.unused]
  · grind [h.settled]
  · grind [h.distinct]
  · intro k hk' q hq
    rw [hn] at hk'
    rw [hpid]
    by_cases hkj : k = j
    · rw [hkj, hd, hp] at hq
      cases hq
    · exact h.issued k hk' q ((h1 k hk' hkj).symm.trans hq)
  · grind [h.running]
  · grind
  · grind [h.parent]
  · grind [h.orphan]
  · grind [h.asleep, h.distinct]
  · grind [h.init]

/-- The hart goes from a process to the scheduler, or back. -/
theorem Table.turn {run' : Option Nat} (h : Table d run) (hb : d.Becomes d' j p d.pid)
    (hj : j < d.nproc) (hold : (d.process_table j).state = .Running ∧ run = some j ∨
      (d.process_table j).state = .Runnable ∧ run = none)
    (hnew : p.state = .Running ∧ run' = some j ∨ p.state = .Runnable ∧ run' = none ∨
      p.state = .Sleeping ∧ run' = none ∧ p.sleep_channel = (d.process_table j).pid ∧
        (∃ k < d.nproc, (d.process_table k).parent = (d.process_table j).pid) ∧
        ∀ k < d.nproc, (d.process_table k).parent = (d.process_table j).pid →
          (d.process_table k).state ≠ .Zombie)
    (hp : p.pid = (d.process_table j).pid) (hpar : p.parent = (d.process_table j).parent) :
    Table d' run' := by
  obtain ⟨hn, hpid, hd, hk⟩ := hb
  have hrow : ∀ k < d.nproc, k ≠ j → (d.process_table k).SameRow (d'.process_table k) :=
    fun k hk1 hk2 => (hk k hk1 hk2).1
  have h1 := fun k hk1 hk2 => (hrow k hk1 hk2).pid
  have h2 := fun k hk1 hk2 => (hrow k hk1 hk2).state
  have h3 := fun k hk1 hk2 => (hrow k hk1 hk2).parent
  have h4 := fun k hk1 hk2 => (hrow k hk1 hk2).sleep_channel
  constructor
  · grind [h.unused]
  · grind [h.settled]
  · grind [h.distinct]
  · intro k hk' q hq
    rw [hn] at hk'
    rw [hpid]
    by_cases hkj : k = j
    · rw [hkj, hd, hp] at hq
      exact h.issued j hj q hq
    · exact h.issued k hk' q ((h1 k hk' hkj).symm.trans hq)
  · grind [h.running]
  · grind
  · grind [h.parent]
  · grind [h.orphan]
  · grind [h.asleep]
  · grind [h.init]

theorem Exits.turn (h : Exits d) (hb : d.Becomes d' j p d.pid) (hl : d'.log = d.log)
    (hj : j < d.nproc) (hold : d.Live j)
    (hnew : p.state = .Running ∨ p.state = .Runnable ∨ p.state = .Sleeping)
    (hp : p.pid = (d.process_table j).pid)
    (hr : ∀ k < d.nproc, (d'.process_table k).reaped = (d.process_table k).reaped) :
    Exits d' := by
  obtain ⟨hn, hpid, hd, hk⟩ := hb
  have h1 := fun k hk1 hk2 => (hk k hk1 hk2).1.pid
  have h2 := fun k hk1 hk2 => (hk k hk1 hk2).1.state
  have h3 := fun k hk1 hk2 => (hk k hk1 hk2).2
  obtain ⟨-, hold⟩ := hold
  constructor
  · rw [hl]; exact h.exit_once
  · rw [hl]; exact h.reap_once
  · rw [hl]; exact h.return_once
  · rw [hl, hpid]; exact h.issued
  · rw [hl]; exact h.reap_sub
  · rw [hl]; exact h.return_sub
  · grind [h.alive]
  · grind [h.zombie]
  · grind [h.kept]
  · grind [h.pending]
  · intro k hk' hrk
    rw [hn] at hk'
    rw [hr k hk'] at hrk
    refine ⟨hn ▸ hk', ?_⟩
    by_cases hkj : k = j
    · rw [hkj, hd]
      rcases hnew with hs | hs | hs
      · exact .inr (.inl hs)
      · exact .inl hs
      · exact .inr (.inr hs)
    · rw [h2 k hk' hkj]
      exact (h.waiting k hk' hrk).2
  · grind [h.pending_inj]

theorem Exits.fork (h : Exits d) (hb : d.Becomes d' j p (d.pid + 1))
    (hl : d'.log = d.log) (hj : j < d.nproc) (hu : (d.process_table j).state = .Unused)
    (hs : p.state = .Runnable) (hp : p.pid = some d.pid)
    (hr : ∀ k < d.nproc, (d'.process_table k).reaped = (d.process_table k).reaped) :
    Exits d' := by
  obtain ⟨hn, hpid, hd, hk⟩ := hb
  have h1 := fun k hk1 hk2 => (hk k hk1 hk2).1.pid
  have h2 := fun k hk1 hk2 => (hk k hk1 hk2).1.state
  have h3 := fun k hk1 hk2 => (hk k hk1 hk2).2
  have hnew : ∀ x, (d.pid, x) ∉ exits d.log := fun x hm => by
    have := h.issued _ hm
    dsimp only at this
    omega
  have hrj : (d.process_table j).reaped = none := by
    by_contra hne
    have := (h.waiting j hj hne).2
    rw [hu] at this
    rcases this with h | h | h <;> cases h
  constructor
  · rw [hl]; exact h.exit_once
  · rw [hl]; exact h.reap_once
  · rw [hl]; exact h.return_once
  · rw [hl, hpid]
    exact fun e he => Nat.lt_succ_of_lt (h.issued e he)
  · rw [hl]; exact h.reap_sub
  · rw [hl]; exact h.return_sub
  · grind [h.alive]
  · grind [h.zombie]
  · grind [h.kept]
  · grind [h.pending]
  · intro k hk' hrk
    rw [hn] at hk'
    rw [hr k hk'] at hrk
    refine ⟨hn ▸ hk', ?_⟩
    have hkj : k ≠ j := fun he => hrk (he ▸ hrj)
    rw [h2 k hk' hkj]
    exact (h.waiting k hk' hrk).2
  · grind [h.pending_inj]

theorem Exits.reap {q : Nat} (h : Exits d) (ht : Table d (some i)) (hb : d.Becomes d' j p d.pid)
    (hj : j < d.nproc) (hz : (d.process_table j).state = .Zombie)
    (hq : (d.process_table j).pid = some q)
    (hl : d'.log = .reap i j q (d.process_table j).xstatus :: d.log) (hs : p.state = .Unused)
    (hp : p.pid = none) (hri : (d'.process_table i).reaped = some (q, (d.process_table j).xstatus))
    (hr : ∀ k < d.nproc, k ≠ i → (d'.process_table k).reaped = (d.process_table k).reaped) :
    Exits d' := by
  obtain ⟨hn, hpid, hd, hk⟩ := hb
  obtain ⟨hin, hrun⟩ := ht.run_running
  have h1 := fun k hk1 hk2 => (hk k hk1 hk2).1.pid
  have h2 := fun k hk1 hk2 => (hk k hk1 hk2).1.state
  have h3 := fun k hk1 hk2 => (hk k hk1 hk2).2
  have hij : i ≠ j := fun he => by
    rw [he, hz] at hrun
    cases hrun
  obtain ⟨q', hq', hex, hnr⟩ := h.zombie j hj hz
  obtain rfl : q = q' := Option.some.inj (hq.symm.trans hq')
  have hnret : ∀ x, (q, x) ∉ returns d.log := fun x hm => hnr x (h.return_sub _ hm)
  have hrj : (d.process_table j).reaped = none := by
    by_contra hne
    have := (h.waiting j hj hne).2
    rw [hz] at this
    rcases this with h | h | h <;> cases h
  constructor
  · rw [hl]; exact h.exit_once
  · rw [hl, reaps_reap, List.map_cons, List.nodup_cons]
    refine ⟨fun hm => ?_, h.reap_once⟩
    obtain ⟨e, hm, he⟩ := List.mem_map.1 hm
    rw [show e = (q, e.2) from Prod.ext he rfl] at hm
    exact hnr _ hm
  · rw [hl]; exact h.return_once
  · rw [hl, hpid]; exact h.issued
  · rw [hl, reaps_reap, exits_reap]
    intro e he
    rcases List.mem_cons.1 he with rfl | he
    · exact hex
    · exact h.reap_sub e he
  · rw [hl, returns_reap, reaps_reap]
    exact fun e he => List.mem_cons_of_mem _ (h.return_sub e he)
  · rw [hl, exits_reap]
    grind [h.alive]
  · rw [hl, exits_reap, reaps_reap]
    grind [h.zombie, ht.distinct]
  · rw [hl, exits_reap, reaps_reap]
    grind [h.kept]
  · rw [hl, reaps_reap, returns_reap]
    grind [h.pending]
  · intro k hk' hrk
    rw [hn] at hk'
    refine ⟨hn ▸ hk', ?_⟩
    by_cases hki : k = i
    · rw [hki, h2 i hin hij]
      exact .inr (.inl hrun)
    · rw [hr k hk' hki] at hrk
      have hkj : k ≠ j := fun he => hrk (he ▸ hrj)
      rw [h2 k hk' hkj]
      exact (h.waiting k hk' hrk).2
  · grind [h.pending_inj, h.pending]

/-- A call of `kwait` is about to return what it has reaped. -/
theorem Exits.returned {q x a : Nat} (h : Exits d) (hi : i < d.nproc)
    (hr : (d.process_table i).reaped = some (q, x)) (hnone : ∀ a y, .waited i a q y ∉ d.log) :
    Exits { d with log := .waited i a q x :: d.log } := by
  have hp := h.pending i hi q x hr
  have hnr : ∀ y, (q, y) ∉ returns d.log := fun y hm => by
    obtain ⟨a, ha⟩ := hp.2 y hm
    exact hnone a y ha
  refine { h with
    exit_once := h.exit_once
    reap_once := h.reap_once
    return_once := ?_
    return_sub := fun e he => ?_
    alive := h.alive
    pending := fun k hk q' x' hk' => ⟨(h.pending k hk q' x' hk').1, fun y hy => ?_⟩
    waiting := fun k hk hne => ⟨hk, (h.waiting k hk hne).2⟩ }
  · rw [returns_waited, List.map_cons, List.nodup_cons]
    refine ⟨fun hm => ?_, h.return_once⟩
    obtain ⟨e, hm, he⟩ := List.mem_map.1 hm
    rw [show e = (q, e.2) from Prod.ext he rfl] at hm
    exact hnr _ hm
  · rcases List.mem_cons.1 he with rfl | he
    · exact hp.1
    · exact h.return_sub e he
  · rcases List.mem_cons.1 hy with he | hy
    · obtain ⟨rfl, rfl⟩ := Prod.mk.inj he
      obtain rfl := h.pending_inj k hk i hi _ _ _ hk' hr
      exact ⟨a, List.mem_cons_self ..⟩
    · obtain ⟨a', ha'⟩ := (h.pending k hk q' x' hk').2 y hy
      exact ⟨a', List.mem_cons_of_mem _ ha'⟩

/-- Events that tell nothing of exit statuses. -/
theorem Exits.note {e : Event} (h : Exits d) (he : e.slot = none ∨ ∃ i a, e = .wait i a ∨
    e = .exec i ∨ e = .execed i ∨ e = .noKids i) (hx : ∀ p x, e ≠ .exit p x) :
    Exits { d with log := e :: d.log } := by
  have h1 : exits (e :: d.log) = exits d.log := by
    cases e <;> first | rfl | exact (hx _ _ rfl).elim
  have h2 : reaps (e :: d.log) = reaps d.log := by
    cases e <;> first | rfl | simp [Event.slot] at he
  have h3 : returns (e :: d.log) = returns d.log := by
    cases e <;> first | rfl | simp [Event.slot] at he
  constructor
  · rw [h1]; exact h.exit_once
  · rw [h2]; exact h.reap_once
  · rw [h3]; exact h.return_once
  · rw [h1]; exact h.issued
  · rw [h1, h2]; exact h.reap_sub
  · rw [h2, h3]; exact h.return_sub
  · rw [h1]; exact h.alive
  · rw [h1, h2]; exact h.zombie
  · rw [h1, h2]; exact h.kept
  · rw [h2, h3]
    refine fun k hk p x hr => ⟨(h.pending k hk p x hr).1, fun y hy => ?_⟩
    obtain ⟨a, ha⟩ := (h.pending k hk p x hr).2 y hy
    exact ⟨a, List.mem_cons_of_mem _ ha⟩
  · exact fun k hk hne => ⟨hk, (h.waiting k hk hne).2⟩
  · exact h.pending_inj

/-- A call of `kwait` has returned. -/
theorem Exits.cleared (h : Exits d) :
    Exits (d.updProc i fun p => { p with reaped := none }) := by
  have ht : ∀ k, let p := (d.updProc i fun p => { p with reaped := none }).process_table k
      p.pid = (d.process_table k).pid ∧ p.state = (d.process_table k).state ∧
        p.xstatus = (d.process_table k).xstatus ∧
        (p.reaped = none ∨ p.reaped = (d.process_table k).reaped) := by
    intro k
    rw [Data.updProc_table]
    split
    · next hk => rw [hk]; exact ⟨rfl, rfl, rfl, .inl rfl⟩
    · exact ⟨rfl, rfl, rfl, .inr rfl⟩
  have h1 := fun k => (ht k).1
  have h2 := fun k => (ht k).2.1
  have h3 := fun k => (ht k).2.2.1
  have h4 := fun k => (ht k).2.2.2
  constructor
  · exact h.exit_once
  · exact h.reap_once
  · exact h.return_once
  · exact h.issued
  · exact h.reap_sub
  · exact h.return_sub
  · intro k hk
    rw [h1, h2]
    exact h.alive k hk
  · intro k hk
    rw [h1, h2, h3]
    exact h.zombie k hk
  · intro p x hm
    refine (h.kept p x hm).imp_right fun hk => ?_
    obtain ⟨k, hk, hz⟩ := hk
    exact ⟨k, hk, by rw [h1, h2, h3]; exact hz⟩
  · intro k hk p x hr
    refine h.pending k hk p x ?_
    rcases h4 k with h | h
    · rw [h] at hr
      cases hr
    · exact h.symm.trans hr
  · intro k hk hne
    refine ⟨hk, ?_⟩
    rw [h2]
    refine (h.waiting k hk ?_).2
    rcases h4 k with h | h
    · exact (hne h).elim
    · rw [← h]
      exact hne
  · intro k hk j hj p x y hkr hjr
    rcases h4 k with h' | h'
    · rw [h'] at hkr
      cases hkr
    · rcases h4 j with h'' | h''
      · rw [h''] at hjr
        cases hjr
      · exact h.pending_inj k hk j hj p x y (h'.symm.trans hkr) (h''.symm.trans hjr)

end

end BareMetal
