import BareMetal.Kernel.Boot

/-!
# The machine

One hart, its memory, and the contexts it switches between: the scheduler and the kernel threads
of the processes. A context is the code that is left to run. A step is one operation, one
instruction of the user program, or a trap; a timer interrupt can come before any operation while
`sstatus.SIE` is set, and at any time in user mode.

`Reach c A m`: `m` is reached from the entry of `main` in a run all of whose steps start in machines
that satisfy `A`.
-/

namespace BareMetal

open Lib

structure Machine where
  sys : Sys
  /-- The 64-bit `time` register. -/
  time : Nat
  /-- What the running context does next. -/
  code : K Label
  /-- Where the scheduler's context and the processes' contexts go on. -/
  sched : K Label
  saved : Nat → K Label

/-- The panic handler. -/
def panicking : K Label := do
  K.print
  return .spin

/-- The code at a label; user mode and `loop {}` have none. -/
def Label.entry (c : Cfg) : Label → Option (K Label)
  | .scheduler => some schedulerRound
  | .kwait i addr => some (kwaitLoop c i addr)
  | .user => none
  | .spin => none

namespace Sys

/-- The hart traps to supervisor mode. -/
def trap (s : Sys) (scause sepc : Nat) (spp : Bool) : Sys :=
  { s with
    locks := { s.locks with sie := false, umode := false }
    data := s.data.updCsr fun csr => { csr with scause, sepc, spp, spie := s.locks.sie } }

/-- The hart is in supervisor mode with interrupts off. -/
def sieOff (s : Sys) : Sys := { s with locks := { s.locks with sie := false } }

/-- Physical memory `phys'` is `phys` but for bytes that the user program may write under the page
table of `satp`. -/
def UserWrites (phys phys' : Phys) (satp : Nat) : Prop :=
  phys'.free = phys.free ∧ phys'.clock = phys.clock ∧
    ∀ a, phys'.mem a ≠ phys.mem a → ∃ va e,
      Sv32.walk phys.mem (satpRoot satp) va = some (e, a) ∧ e / 16 % 2 = 1 ∧ e / 4 % 2 = 1

/-- The user program moves: its registers, its pc, its memory. -/
def user (s : Sys) (phys : Phys) (regs : Nat → Nat) (pc : Nat) : Sys :=
  { s with phys, data := { s.data with regs, pc } }

end Sys

/-- The code of a process's context: `forkret` for a new one. -/
def Machine.resume (c : Cfg) (m : Machine) (i : Nat) : K Label :=
  match (m.sys.data.process_table i).context with
  | .zero => K.lost
  | .forkret _ => forkret c
  | .sched => m.saved i

namespace Machine

inductive Step (c : Cfg) (m : Machine) : Machine → Prop
  | op {o k n r s} (hc : m.code = .op o k) (h : o.exec c m.time n m.sys = .ok (r, s)) :
    Step c m { m with sys := s, code := k r }
  | panic {o k n} (hc : m.code = .op o k) (h : o.exec c m.time n m.sys = .error .panic) :
    Step c m { m with code := panicking }
  /-- A page fault in the kernel: `kerneltrap`, or a vector that faults again, ends in `loop \x7b\x7d`
  with interrupts off. -/
  | fault {o k n} (hc : m.code = .op o k) (h : o.exec c m.time n m.sys = .error .fault) :
    Step c m { m with sys := m.sys.sieOff, code := panicking }
  | spin {o k n} (hc : m.code = .op o k) (h : o.exec c m.time n m.sys = .error .spin) :
    Step c m { m with sys := m.sys.sieOff, code := .ret .spin }
  | toSched {i k} (hc : m.code = .op (.toSched i) k) :
    Step c m { m with
      sys := { m.sys with data := m.sys.data.updProc i fun p => { p with context := .sched } }
      code := m.sched
      saved := Function.update m.saved i (k ()) }
  | toProc {i k} (hc : m.code = .op (.toProc i) k) :
    Step c m { m with code := m.resume c i, sched := k () }
  | label {l code} (hc : m.code = .ret l) (h : l.entry c = some code) :
    Step c m { m with code := code }
  /-- A timer interrupt in the kernel, at an address the model does not know. -/
  | interrupt {pc} (hs : m.sys.locks.sie = true) (hu : m.sys.locks.umode = false) :
    Step c m { m with
      sys := m.sys.trap TIMER pc true
      code := match m.sys.data.csr.stvec with
        | .kernelvec => kernelvec >>= fun _ => m.code
        | .uservec => K.lost }
  | user {phys regs pc} (hc : m.code = .ret .user) (hr : ∀ r, regs r < 2 ^ 32) (hp : pc < 2 ^ 32)
    (hw : Sys.UserWrites m.sys.phys phys m.sys.data.csr.satp) :
    Step c m { m with sys := m.sys.user phys regs pc }
  /-- A trap of the user program: a timer interrupt, an `ecall`, a fault. -/
  | trap {scause} (hc : m.code = .ret .user) :
    Step c m { m with
      sys := m.sys.trap scause m.sys.data.pc false
      code := match m.sys.data.csr.stvec with
        | .uservec => uservec >>= fun _ => usertrap c
        | .kernelvec => K.lost }
  | tick {t} (ht : m.time ≤ t) (h64 : t < 2 ^ 64) : Step c m { m with time := t }

/-- The machine at the entry of `main`. -/
structure Init (c : Cfg) (m : Machine) : Prop where
  linked : c.Linked
  code : m.code = main c
  nodup : m.sys.phys.free.Nodup
  frames : ∀ f ∈ m.sys.phys.free, c.IsFrame f
  locks : m.sys.locks = ⟨false, false, 0, false, ∅⟩
  current : m.sys.data.current = none
  nproc : m.sys.data.nproc = 0
  pid : m.sys.data.pid = 0
  kvm : m.sys.data.kvm = none
  log : m.sys.data.log = []
  deadlines : m.sys.timer.deadlines = []

inductive Reach (c : Cfg) (A : Machine → Prop) : Machine → Prop
  | init {m} (h : Init c m) : Reach c A m
  | step {m m'} (h : Reach c A m) (ha : A m) (hs : Step c m m') : Reach c A m'

end Machine

end BareMetal
