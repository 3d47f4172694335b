import BareMetal.Kernel.History
import BareMetal.Kernel.Proof.Mem

/-!
# A logic for the kernel's code

`K.wp E me p Q S`: code `p`, run in the context `me` (a process's slot, or the scheduler) from the
state `S`, keeps the rules of the kernel and ends in `Q`. The rules of each operation are
`opSpec`. While interrupts are on, any other context may run before an operation: the state drifts
(`Drift`), within what the other contexts must leave alone (`Rely`). Whoever turns interrupts on or
switches away must have restored the invariants `Inv`.

`Env` says which invariants are followed: `track` those of the memory, `timer` those of the timer's
deadlines. Locks and the process table are always followed.
-/

namespace BareMetal

open Lib

structure Env where
  cfg : Cfg
  track : Prop
  timer : Prop
  linked : track → cfg.Linked

/-- The system, who owns which frame, and what the run has seen. -/
structure St where
  sys : Sys
  own : Party → Finset Nat
  hist : History

namespace St

abbrev data (S : St) : Data := S.sys.data
abbrev locks (S : St) : Locks := S.sys.locks
abbrev mem (S : St) : Bytes := S.sys.phys.mem
abbrev proc (S : St) (i : Nat) : Process := S.sys.data.process_table i

/-- A step to `s`. -/
def step (S : St) (s : Sys) (own : Party → Finset Nat) : St := ⟨s, own, S.hist.next S.sys s⟩

def setData (S : St) (d : Data) : St := S.step { S.sys with data := d } S.own
def setLocks (S : St) (l : Locks) : St := S.step { S.sys with locks := l } S.own

end St

/-! ## Invariants -/

/-- The lock discipline of the hart. -/
structure Locks.Inv (l : Locks) : Prop where
  stack : l.interrupt_off_stack = l.held.card
  off : l.held ≠ ∅ → l.sie = false

structure Inv (E : Env) (run : Option Nat) (S : St) : Prop where
  table : Table S.data run
  exits : Exits S.data
  /-- The counters count the dispatches. -/
  counted : ∀ j < S.data.nproc, (S.proc j).quants = S.hist.dispatched j
  /-- A slot that is not used has no critical section. -/
  fresh : ∀ j < S.data.nproc, (S.proc j).state = .Unused → S.hist.before j = none
  mem : E.track → MemInv E.cfg S.own S.mem S.data

/-- No lock is held, and the invariants hold: interrupts may be on. -/
structure Settled (E : Env) (me : Option Nat) (S : St) : Prop where
  held : S.locks.held = ∅
  current : S.data.current = me
  stvec : S.data.csr.stvec = if S.locks.umode then .uservec else .kernelvec
  inv : Inv E me S
  /-- The process is in no critical section. -/
  closed : ∀ i, me = some i → S.hist.before i = none

/-- The part of a process that belongs to its own thread in the kernel. -/
def Process.SameThread (p p' : Process) : Prop :=
  p' = { p with
    state := p'.state, parent := p'.parent, quants := p'.quants, context := p'.context }

def SamePart (S S' : St) (p : Party) : Prop := SameAt S.own S'.own S.mem S'.mem p

/-- What the thread of slot `i` has to itself is unchanged. -/
structure Untouched (E : Env) (i : Nat) (S S' : St) : Prop where
  nproc : S'.data.nproc = S.data.nproc
  thread : (S.proc i).SameThread (S'.proc i)
  events : eventsOf i S'.data.log = eventsOf i S.data.log
  slot : E.track → SamePart S S' (.slot i)
  loc : E.track → SamePart S S' (.loc i)

/-- Nor has its critical section changed. -/
structure Mine (E : Env) (i : Nat) (S S' : St) : Prop extends Untouched E i S S' where
  before : S'.hist.before i = S.hist.before i

/-- What other contexts leave alone. -/
def Rely (E : Env) (j : Nat) (S S' : St) : Prop :=
  S.data.Live j → S'.data.Live j ∧ (S'.proc j).context = (S.proc j).context ∧ Mine E j S S'

/-- A process that has not run yet. -/
structure Born (p : Process) (before : Option Bool) : Prop where
  context : ∃ sp, p.context = .forkret sp
  dropping : p.dropping = false
  reaped : p.reaped = none
  before : before = none

/-- A step of the context `me`. -/
structure Upd (E : Env) (me : Option Nat) (S S' : St) : Prop where
  frame : ∀ j, some j ≠ me → Rely E j S S'
  newborn : ∀ j, some j ≠ me → S'.data.Live j →
    S.data.Live j ∨ Born (S'.proc j) (S'.hist.before j)
  good : S'.locks.sie = true → Settled E me S'
  owned : E.track → Owned E.cfg S'.own S'.sys.phys.free
  image : E.track → E.cfg.SameImage S.mem S'.mem

/-- The scheduler has handed the hart to process `i`. -/
structure Handoff (E : Env) (i : Nat) (S : St) : Prop where
  held : S.locks.held = {.proc i}
  stack : S.locks.interrupt_off_stack = 1
  sie : S.locks.sie = false
  umode : S.locks.umode = false
  current : S.data.current = some i
  stvec : S.data.csr.stvec = .kernelvec
  inv : Inv E (some i) S

/-- Process `i` has handed the hart back to the scheduler. -/
structure HandBack (E : Env) (i : Nat) (S : St) : Prop where
  held : S.locks.held = {.proc i}
  stack : S.locks.interrupt_off_stack = 1
  sie : S.locks.sie = false
  umode : S.locks.umode = false
  current : S.data.current = some i
  stvec : S.data.csr.stvec = .kernelvec
  inv : Inv E none S

/-- Other contexts have run, if they could. -/
def Drift (E : Env) (me : Option Nat) (S S' : St) : Prop :=
  (S.locks.sie = false ∧ S' = S) ∨
    (S.locks.sie = true ∧ S'.locks.sie = true ∧ S'.locks.umode = false ∧ Settled E me S' ∧
      ∀ i, me = some i → Mine E i S S')

/-! ## The life of a process -/

/-- What may happen to the state of slot `j`: the source and the target of an assignment. -/
def Data.Moves (d : Data) (j : Nat) : ProcState → ProcState → Prop
  | .Unused, .Used => True
  | .Used, .Runnable => True
  | .Runnable, .Running => d.current = none ∧ d.log.head? = some .pass
  | .Running, .Runnable => d.current = some j ∧ d.log.head? = some (.yeld j)
  | .Running, .Sleeping => d.current = some j ∧ ∃ addr, lastCall j d.log = some (.wait j addr)
  | .Running, .Zombie => d.current = some j ∧ d.log.head? = some (.kexit j)
  -- `wakeup`, by a process that exits, for its parent or for init
  | .Sleeping, .Runnable => ∃ i, d.current = some i ∧ d.log.head? = some (.kexit i) ∧
      ((d.process_table j).sleep_channel = (d.process_table i).parent ∨
        (d.process_table j).sleep_channel = some 0)
  | .Zombie, .Unused => ∃ i, i ≠ j ∧ d.current = some i ∧
      (d.process_table j).parent = (d.process_table i).pid ∧
      ∃ addr, lastCall i d.log = some (.wait i addr)
  | a, b => a = b

/-- A process from the time it can run until it is freed. -/
def Data.Alive (d : Data) (j : Nat) : Prop := d.Live j ∨ (d.process_table j).state = .Zombie

/-- A call of `kexec` that succeeds is changing the process of slot `j`. -/
def Data.Execs (d : Data) (j : Nat) : Prop := lastCall j d.log = some (.exec j)

/-- The scheduler has picked slot `i`. -/
structure Data.Picked (d : Data) (i : Nat) : Prop where
  current : d.current = none
  lt : i < d.nproc
  running : ∀ j < d.nproc, (d.process_table j).state = .Running ↔ j = i

/-- A zombie is reaped by its parent. -/
def Data.Reaped (d : Data) (j : Nat) : Prop :=
  (d.process_table j).state = .Zombie ∧ ∃ i, i ≠ j ∧ d.current = some i ∧
    (d.process_table j).parent = (d.process_table i).pid ∧
    ∃ addr, lastCall i d.log = some (.wait i addr)

/-- What may happen to a process's pid and status when slot `j` is assigned `p'`: a free slot gets
the next pid, a zombie that is reaped loses its own, and it keeps its status until it is free. -/
structure Data.Renames (d : Data) (j : Nat) (p p' : Process) : Prop where
  pid : p'.pid = p.pid ∨ p'.pid = none ∧ d.Reaped j ∨ p'.pid = some d.pid ∧ p.state = .Unused
  status : p.state = .Zombie → p'.xstatus = p.xstatus
  freed : p.state = .Zombie → p'.state = .Unused → p.pid = none

/-- What a step may do to the kernel's data. -/
structure Data.Changes (d d' : Data) : Prop where
  state : ∀ j < d.nproc, d.Moves j (d.process_table j).state (d'.process_table j).state
  /-- The scheduler picks a process with the fewest quanta. -/
  pick : ∀ j < d.nproc, d.Dispatches d' j → ∀ p < d.nproc, (d.process_table p).state = .Runnable →
    (d.process_table j).quants ≤ (d.process_table p).quants
  /-- Who is made current has been picked, and nobody else runs. -/
  current : ∀ i, d'.current = some i → d.current ≠ some i → d.Picked i
  /-- The counters go up, that of a process that has been picked only. -/
  quants : ∀ j < d.nproc, (d.process_table j).quants ≤ (d'.process_table j).quants
  counts : ∀ j < d.nproc, (d'.process_table j).quants = (d.process_table j).quants ∨
    (d.process_table j).state = .Running
  nproc : d.nproc ≤ d'.nproc
  /-- A slot that is added has no pid. -/
  grown : ∀ j < d'.nproc, d.nproc ≤ j → (d'.process_table j).pid = none
  names : ∀ j < d.nproc, d.Renames j (d.process_table j) (d'.process_table j)
  next : d.pid ≤ d'.pid
  trapframe : ∀ j < d.nproc, d.Alive j →
    (d'.process_table j).trapframe = (d.process_table j).trapframe ∧
      (d'.process_table j).unboxing = (d.process_table j).unboxing
  pagetable : ∀ j < d.nproc, d.Alive j → ¬ (d.current = some j ∧ d.Execs j) →
    (d'.process_table j).pagetable = (d.process_table j).pagetable ∧
      (d'.process_table j).dropping = (d.process_table j).dropping
  /-- A process that can run has its trapframe and its page table. -/
  made : ∀ j < d'.nproc, d'.Alive j → (j < d.nproc → ¬ d.Alive j) →
    (d'.process_table j).unboxing = false ∧ (d'.process_table j).dropping = false

/-- An assignment to the kernel's data is one that the code makes. -/
structure Legal (d d' : Data) : Prop extends d.Changes d' where
  log : d'.log = d.log

/-! ## Operations -/

/-- The panics that are never reached. -/
def Forbidden (E : Env) (msg : String) : Prop :=
  msg = "sched with interrupts enabled " ∨ msg = "sched locks" ∨ msg = "sched running" ∨
    msg = "cordyceps" ∨ (E.timer ∧ msg = "deadline: attempt to add with overflow")

/-- What a run is assumed to do at an event. -/
def Event.Assume (E : Env) : Event → Prop
  | .wait _ addr => E.track → AddrOk addr
  | _ => True

/-- The word at a user address. -/
def UserWord (m : Bytes) (u : Uvm) (addr v : Nat) : Prop :=
  ∃ e pa, Sv32.walk m u.pagetable.root addr = some (e, pa) ∧ m.word pa = v

/-- What holds at an event. -/
def Event.Ok (E : Env) (me : Option Nat) (S : St) : Event → Prop
  | .pass => me = none ∧ S.data.current = none ∧ S.locks.held = ∅ ∧ Inv E none S
  | .wait i _ => me = some i ∧ (S.proc i).dropping = false
  -- the boot calls `kexec` for a slot that is `Used`
  | .exec i | .execed i => (me = some i ∨ ¬ S.data.Alive i) ∧ (S.proc i).dropping = false
  | .yeld i | .kexit i => me = some i
  | .exit pid xstatus => ∃ i, me = some i ∧ (S.proc i).pid = some pid ∧
      (S.proc i).state = .Zombie ∧ (S.proc i).xstatus = xstatus ∧
      ∀ x, (pid, x) ∉ exits S.data.log
  | .reap i j pid xstatus => me = some i ∧ j < S.data.nproc ∧ (S.proc j).state = .Zombie ∧
      (S.proc j).pid = some pid ∧ (S.proc j).parent = (S.proc i).pid ∧
      (S.proc j).xstatus = xstatus ∧ (pid, xstatus) ∈ exits S.data.log ∧
      ∀ x, (pid, x) ∉ reaps S.data.log
  | .waited i addr pid xstatus => me = some i ∧ (S.proc i).reaped = some (pid, xstatus) ∧
      (∀ j < S.data.nproc, (S.proc j).pid ≠ some pid) ∧
      (∃ j, (eventsOf i S.data.log).head? = some (.reap i j pid xstatus)) ∧
      (pid, xstatus) ∈ reaps S.data.log ∧ (∀ y, (pid, y) ∉ returns S.data.log) ∧
      (E.track → addr ≠ 0 → UserWord S.mem (S.proc i).pagetable addr (xstatus % 2 ^ 32)) ∧
      (S.proc i).dropping = false
  | .noKids i => me = some i ∧ (∀ j < S.data.nproc, (S.proc j).parent ≠ (S.proc i).pid) ∧
      (S.proc i).dropping = false

/-- The low words are enough: the time has the high word of the comparator, and the deadline's low
word does not overflow. -/
def TimeOk (t : Nat) (timer : Timer) : Prop :=
  t % 2 ^ 32 + 1000000 < 2 ^ 32 ∧ t / 2 ^ 32 = timer.stimecmph

def St.acquire (S : St) (l : LockId) (old : Bool) : St :=
  S.setLocks { S.locks.pushInterruptOff old with held := insert l S.locks.held }

def St.release (S : St) (l : LockId) : St :=
  S.setLocks { S.locks.popInterruptOff with held := S.locks.held.erase l }

/-- The process of slot `i` has not been switched out yet, nor has it taken a lock. -/
def St.Unlocked (S : St) (i : Nat) : Prop :=
  S.hist.before i = none ∧ ∃ sp, (S.proc i).context = .forkret sp

/-- What a release gives back is what the outermost lock has found; the first release of a new
process is of a lock that the scheduler took. -/
def St.Restores (S : St) : Prop :=
  S.locks.interrupt_off_stack = 1 → ∀ i, S.data.current = some i →
    S.hist.before i = some S.locks.interrupt_prev_state ∨ S.Unlocked i

/-- The panic handler can print. -/
structure St.Prints (me : Option Nat) (S : St) : Prop where
  heap : LockId.heap ∉ S.locks.held
  current : S.locks.held = ∅ → S.data.current = me

/-- The counters count the dispatches. -/
def St.Counted (S : St) : Prop := ∀ j < S.data.nproc, (S.proc j).quants = S.hist.dispatched j

def opSpec (E : Env) (me : Option Nat) : Free.Spec KOp KOp.Resp St
  | .mem o, Q, S =>
    (E.track → ∀ f, o = .dealloc f → f ∉ S.sys.phys.free) ∧
      (∀ e, S.sys.execMem E.cfg o = .error e → S.Prints me) ∧
      ∀ r s, S.sys.execMem E.cfg o = .ok (r, s) →
        ∃ own, Upd E me S (S.step s own) ∧ Q r (S.step s own)
  | .get, Q, S => Q S.data S
  | .set f, Q, S => Legal S.data (f S.data) ∧
      (∀ j, S.data.Dispatches (f S.data) j → S.Counted) ∧ ∃ own, Upd E me S (S.step { S.sys with data := f S.data } own) ∧
        Q () (S.step { S.sys with data := f S.data } own)
  | .locks, Q, S => Q S.locks S
  | .setSie b, Q, S => Upd E me S (S.setLocks { S.locks with sie := b }) ∧
      (b = true → S.locks.held = ∅) ∧ Q () (S.setLocks { S.locks with sie := b })
  | .setPrev b, Q, S => Q () (S.setLocks { S.locks with interrupt_prev_state := b })
  | .acquire l old, Q, S => l ∉ S.locks.held ∧ Upd E me S (S.acquire l old) ∧
      Q () (S.acquire l old)
  | .release l, Q, S => l ∈ S.locks.held ∧ S.Restores ∧ Upd E me S (S.release l) ∧
      Q () (S.release l)
  | .sret, Q, S => S.locks.held = ∅ ∧ Upd E me S (S.step S.sys.sret S.own) ∧
      Q (!S.data.csr.spp) (S.step S.sys.sret S.own)
  | .toSched i, Q, S => me = some i ∧ HandBack E i S ∧
      (S.data.Live i → ∀ S', Mine E i S S' → Handoff E i S' → Q () S')
  | .toProc i, Q, S => me = none ∧ Handoff E i S ∧ ∀ S', HandBack E i S' → Q () S'
  | .any, Q, S => ∀ n, Q n S
  | .time, Q, S => ∀ t, (E.timer → TimeOk t S.sys.timer) →
      Q (t % 2 ^ 32) (S.step { S.sys with timer := { S.sys.timer with asked := t } } S.own)
  | .stimecmp v, Q, S => (E.timer → v + 2 ^ 32 * S.sys.timer.stimecmph = S.sys.timer.asked + 1000000) ∧
      Q () (S.step { S.sys with timer := { S.sys.timer with
        stimecmp := v
        deadlines := (S.sys.timer.asked, v + 2 ^ 32 * S.sys.timer.stimecmph) ::
          S.sys.timer.deadlines } } S.own)
  | .note e, Q, S => e.Ok E me S ∧ (e.Assume E →
      Upd E me S (S.setData { S.data with log := e :: S.data.log }) ∧
      Q () (S.setData { S.data with log := e :: S.data.log }))
  | .panic msg, _, S => ¬ Forbidden E msg ∧ S.Prints me
  | .lost, _, _ => False

/-- The rules of an operation: it is the kernel's, other contexts may run before it. -/
def kSpec (E : Env) (me : Option Nat) : Free.Spec KOp KOp.Resp St := fun o Q S =>
  S.locks.umode = false ∧ ∀ S', Drift E me S S' → S'.locks.Inv →
    (E.track → Owned E.cfg S'.own S'.sys.phys.free) → opSpec E me o Q S'

theorem kSpec_mono (E : Env) (me : Option Nat) : Free.Spec.Mono (kSpec E me) := by
  intro o Q Q' hQ S h
  refine ⟨h.1, fun S' hd hl ho => ?_⟩
  have h' := h.2 S' hd hl ho
  cases o with
  | mem o =>
    obtain ⟨h1, h2, h3⟩ := h'
    refine ⟨h1, h2, fun r s he => ?_⟩
    obtain ⟨own, hu, hq⟩ := h3 r s he
    exact ⟨own, hu, hQ _ _ hq⟩
  | get => exact hQ _ _ h'
  | set f =>
    obtain ⟨hleg, hc, own, hu, hq⟩ := h'
    exact ⟨hleg, hc, own, hu, hQ _ _ hq⟩
  | locks => exact hQ _ _ h'
  | setSie b => exact ⟨h'.1, h'.2.1, hQ _ _ h'.2.2⟩
  | setPrev b => exact hQ _ _ h'
  | acquire l old => exact ⟨h'.1, h'.2.1, hQ _ _ h'.2.2⟩
  | release l => exact ⟨h'.1, h'.2.1, h'.2.2.1, hQ _ _ h'.2.2.2⟩
  | sret => exact ⟨h'.1, h'.2.1, hQ _ _ h'.2.2⟩
  | toSched i => exact ⟨h'.1, h'.2.1, fun hv T hm hh => hQ _ _ (h'.2.2 hv T hm hh)⟩
  | toProc i => exact ⟨h'.1, h'.2.1, fun T hT => hQ _ _ (h'.2.2 T hT)⟩
  | any => exact fun n => hQ _ _ (h' n)
  | time => exact fun t ht => hQ _ _ (h' t ht)
  | stimecmp v => exact ⟨h'.1, hQ _ _ h'.2⟩
  | note e => exact ⟨h'.1, fun ha => ⟨(h'.2 ha).1, hQ _ _ (h'.2 ha).2⟩⟩
  | panic msg => exact h'
  | lost => exact h'

namespace K

variable {E : Env} {me : Option Nat} {α β : Type}

abbrev wp (E : Env) (me : Option Nat) (p : K α) (Q : α → St → Prop) (S : St) : Prop :=
  Free.wp (kSpec E me) p Q S

theorem wp_bind (p : K α) (f : α → K β) (Q : β → St → Prop) (S : St) :
    wp E me (p >>= f) Q S ↔ wp E me p (fun a => wp E me (f a) Q) S := by
  unfold wp; rw [Free.wp_bind]

theorem wp_conseq {p : K α} {Q Q' : α → St → Prop} {S : St} (hp : wp E me p Q S)
    (hQ : ∀ a S, Q a S → Q' a S) : wp E me p Q' S :=
  Free.wp_mono (kSpec_mono E me) hQ S hp

end K

/-! ## Labels -/

/-- The registers and the pc are words. -/
def St.UserWords (S : St) : Prop :=
  (∀ r ∈ Trapframe.regs, S.data.regs r < 2 ^ 32) ∧ S.data.pc < 2 ^ 32

/-- What holds where code ends. -/
def labelPost (E : Env) (me : Option Nat) : Label → St → Prop
  | .scheduler, S => me = none ∧ S.locks.umode = false ∧ Settled E none S
  | .kwait i addr, S => me = some i ∧ S.locks.umode = false ∧ Settled E me S ∧
      (S.proc i).dropping = false ∧ (S.proc i).reaped = none ∧
      lastCall i S.data.log = some (.wait i addr) ∧ addr < USIZE ∧ (E.track → AddrOk addr)
  | .user, S => ∃ i, me = some i ∧ S.locks.umode = true ∧ S.locks.sie = true ∧ Settled E me S ∧
      (S.proc i).dropping = false ∧ (S.proc i).reaped = none ∧
      (E.track → satpRoot S.data.csr.satp = (S.proc i).pagetable.pagetable.root) ∧
      (E.track → S.UserWords)
  | .spin, S => S.locks.umode = false

end BareMetal
