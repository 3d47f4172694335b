import BareMetal.Kernel.State

/-!
# Invariants of the process table

`Table d run`: the table between two operations of the kernel, when `run` is the slot of the
process that runs. `Exits d`: the exit statuses on their way from `kexit` to `kwait`, as the log of
events tells them.
-/

namespace BareMetal

/-- A process that will run again. -/
def Data.Live (d : Data) (i : Nat) : Prop :=
  i < d.nproc ∧ ((d.process_table i).state = .Runnable ∨ (d.process_table i).state = .Running ∨
    (d.process_table i).state = .Sleeping)

structure Table (d : Data) (run : Option Nat) : Prop where
  unused : ∀ i < d.nproc,
    (d.process_table i).state = .Unused ↔ (d.process_table i).pid = none
  settled : ∀ i < d.nproc,
    (d.process_table i).state ≠ .Used ∧ (d.process_table i).state ≠ .Delete
  distinct : ∀ i < d.nproc, ∀ j < d.nproc, (d.process_table i).pid ≠ none →
    (d.process_table i).pid = (d.process_table j).pid → i = j
  issued : ∀ i < d.nproc, ∀ p, (d.process_table i).pid = some p → p < d.pid
  running : ∀ i < d.nproc, (d.process_table i).state = .Running ↔ run = some i
  run_lt : ∀ i, run = some i → i < d.nproc
  /-- Everyone but init has a parent that can reap it. -/
  parent : ∀ i < d.nproc, (d.process_table i).state ≠ .Unused → (d.process_table i).pid ≠ some 0 →
    ∃ j < d.nproc, (d.process_table i).parent = (d.process_table j).pid ∧
      (d.process_table j).state ≠ .Unused ∧ (d.process_table j).state ≠ .Zombie
  orphan : ∀ i < d.nproc, (d.process_table i).state = .Unused →
    (d.process_table i).parent = none
  /-- Who sleeps waits for a child that lives. -/
  asleep : ∀ i < d.nproc, (d.process_table i).state = .Sleeping →
    (d.process_table i).sleep_channel = (d.process_table i).pid ∧
      (∃ j < d.nproc, (d.process_table j).parent = (d.process_table i).pid) ∧
      ∀ j < d.nproc, (d.process_table j).parent = (d.process_table i).pid →
        (d.process_table j).state ≠ .Zombie
  init : ∃ i < d.nproc, (d.process_table i).pid = some 0 ∧
    (d.process_table i).state ≠ .Unused ∧ (d.process_table i).state ≠ .Zombie

theorem Table.run_running {d : Data} {i : Nat} (h : Table d (some i)) :
    i < d.nproc ∧ (d.process_table i).state = .Running :=
  ⟨h.run_lt i rfl, (h.running i (h.run_lt i rfl)).2 rfl⟩

theorem Table.run_live {d : Data} {i : Nat} (h : Table d (some i)) : d.Live i :=
  ⟨h.run_running.1, .inr (.inl h.run_running.2)⟩

/-! ## Exit statuses -/

/-- The exits, the reaps and the returns of `kwait` in a log: pid and status. -/
def exits (log : List Event) : List (Nat × Nat) :=
  log.filterMap fun | .exit pid xstatus => some (pid, xstatus) | _ => none

def reaps (log : List Event) : List (Nat × Nat) :=
  log.filterMap fun | .reap _ _ pid xstatus => some (pid, xstatus) | _ => none

def returns (log : List Event) : List (Nat × Nat) :=
  log.filterMap fun | .waited _ _ pid xstatus => some (pid, xstatus) | _ => none

/-- The slot whose thread has noted an event; `exit` names its process by the pid. -/
def Event.slot : Event → Option Nat
  | .wait i _ | .exec i | .execed i | .reap i _ _ _ | .waited i _ _ _ | .noKids i => some i
  | .pass | .yeld _ | .kexit _ | .exit _ _ => none

/-- The events of slot `i`. -/
def eventsOf (i : Nat) (log : List Event) : List Event := log.filter fun e => e.slot = some i

/-- A call of `kwait`, or the changes of `kexec`, begins or ends. -/
def Event.isCall : Event → Bool
  | .wait .. | .waited .. | .noKids _ | .exec _ | .execed _ => true
  | _ => false

def lastCall (i : Nat) (log : List Event) : Option Event := (eventsOf i log).find? Event.isCall

structure Exits (d : Data) : Prop where
  exit_once : ((exits d.log).map Prod.fst).Nodup
  reap_once : ((reaps d.log).map Prod.fst).Nodup
  return_once : ((returns d.log).map Prod.fst).Nodup
  issued : ∀ e ∈ exits d.log, e.1 < d.pid
  reap_sub : ∀ e ∈ reaps d.log, e ∈ exits d.log
  return_sub : ∀ e ∈ returns d.log, e ∈ reaps d.log
  /-- Who has exited is a zombie until it is reaped, and nobody else. -/
  alive : ∀ i < d.nproc, (d.process_table i).state ≠ .Zombie → ∀ p x,
    (d.process_table i).pid = some p → (p, x) ∉ exits d.log
  zombie : ∀ i < d.nproc, (d.process_table i).state = .Zombie → ∃ p,
    (d.process_table i).pid = some p ∧ (p, (d.process_table i).xstatus) ∈ exits d.log ∧
      ∀ x, (p, x) ∉ reaps d.log
  kept : ∀ p x, (p, x) ∈ exits d.log → (p, x) ∈ reaps d.log ∨ ∃ i < d.nproc,
    (d.process_table i).state = .Zombie ∧ (d.process_table i).pid = some p ∧
      (d.process_table i).xstatus = x
  /-- A call of `kwait` that has reaped a child: only it returns the pid. -/
  pending : ∀ i < d.nproc, ∀ p x, (d.process_table i).reaped = some (p, x) →
    (p, x) ∈ reaps d.log ∧ ∀ y, (p, y) ∈ returns d.log → ∃ addr, .waited i addr p y ∈ d.log
  /-- Only a process that runs is in such a call. -/
  waiting : ∀ i < d.nproc, (d.process_table i).reaped ≠ none → d.Live i
  pending_inj : ∀ i < d.nproc, ∀ j < d.nproc, ∀ p x y, (d.process_table i).reaped = some (p, x) →
    (d.process_table j).reaped = some (p, y) → i = j

/-! ## What the invariants depend on -/

section
variable {d d' : Data} {run : Option Nat}

/-- The fields of a process that the invariants of the table read. -/
structure Process.SameRow (p p' : Process) : Prop where
  pid : p'.pid = p.pid
  state : p'.state = p.state
  parent : p'.parent = p.parent
  sleep_channel : p'.sleep_channel = p.sleep_channel

theorem Table.congr (h : Table d run) (hn : d'.nproc = d.nproc) (hp : d'.pid = d.pid)
    (hs : ∀ i < d.nproc, (d.process_table i).SameRow (d'.process_table i)) : Table d' run := by
  have h1 := fun i hi => (hs i hi).pid
  have h2 := fun i hi => (hs i hi).state
  have h3 := fun i hi => (hs i hi).parent
  have h4 := fun i hi => (hs i hi).sleep_channel
  constructor
  case issued =>
    intro i hi p hpid
    rw [hn] at hi
    rw [hp]
    exact h.issued i hi p ((h1 i hi).symm.trans hpid)
  · grind [h.unused]
  · grind [h.settled]
  · grind [h.distinct]
  · grind [h.running]
  · rw [hn]; exact h.run_lt
  · grind [h.parent]
  · grind [h.orphan]
  · grind [h.asleep]
  · grind [h.init]

/-- The fields of a process that tell how it exits. -/
structure Process.SameExit (p p' : Process) : Prop where
  pid : p'.pid = p.pid
  state : p'.state = p.state
  xstatus : p'.xstatus = p.xstatus
  reaped : p'.reaped = p.reaped

theorem Exits.congr (h : Exits d) (hn : d'.nproc = d.nproc) (hp : d'.pid = d.pid)
    (hl : d'.log = d.log)
    (hs : ∀ i < d.nproc, (d.process_table i).SameExit (d'.process_table i)) : Exits d' := by
  have h1 := fun i hi => (hs i hi).pid
  have h2 := fun i hi => (hs i hi).state
  have h3 := fun i hi => (hs i hi).xstatus
  have h4 := fun i hi => (hs i hi).reaped
  constructor
  · rw [hl]; exact h.exit_once
  · rw [hl]; exact h.reap_once
  · rw [hl]; exact h.return_once
  · rw [hl, hp]; exact h.issued
  · rw [hl]; exact h.reap_sub
  · rw [hl]; exact h.return_sub
  · grind [h.alive]
  · grind [h.zombie]
  · grind [h.kept]
  · grind [h.pending]
  · intro i hi hr
    obtain ⟨h5, h6⟩ := h.waiting i (hn ▸ hi) (by rw [← h4 i (hn ▸ hi)]; exact hr)
    exact ⟨hi, by rw [h2 i h5]; exact h6⟩
  · grind [h.pending_inj]

end

end BareMetal
