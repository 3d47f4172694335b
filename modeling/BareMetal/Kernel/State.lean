import BareMetal.Virt.Uvm
import Mathlib.Data.Finset.Basic

/-!
# The state of the kernel

`Process`, `Kernel` and `Cpu` of `process.rs` and `kernel.rs`, the supervisor registers of the one
hart, and its locks. The process table is a function of the slot number; `nproc` is its length.

Kernel code has no addresses and no stacks here. A `Context` says how `switch` goes on from it: at
the entry of `forkret`, or where the process called `sched`.
-/

namespace BareMetal

inductive ProcState
  | Unused
  | Used
  | Sleeping
  | Runnable
  | Running
  | Zombie
  | Delete
  deriving DecidableEq

inductive Context
  | zero
  | forkret (sp : Nat)
  | sched
  deriving DecidableEq

structure Process where
  id : Nat
  pid : Option Nat
  state : ProcState
  kstack : Nat
  parent : Option Nat
  pagetable : Uvm
  context : Context
  xstatus : Nat
  sleep_channel : Option Nat
  /-- The address of the box. -/
  trapframe : Nat
  quants : Nat
  /-- Ghost: an assignment to `pagetable` is dropping the old value. -/
  dropping : Bool
  /-- Ghost: an assignment to `trapframe` is freeing the old box. -/
  unboxing : Bool
  /-- Ghost: the child that a call of `kwait` has reaped and not yet returned. -/
  reaped : Option (Nat × Nat)

/-- Where `stvec` points. -/
inductive TrapVec
  | kernelvec
  | uservec
  deriving DecidableEq

/-- The supervisor registers; `spie` and `spp` are bits of `sstatus`. -/
structure Csr where
  stvec : TrapVec
  sepc : Nat
  scause : Nat
  satp : Nat
  spie : Bool
  spp : Bool

/-- What happened, for the statements about runs. -/
inductive Event
  /-- The scheduler begins a pass over the process table. -/
  | pass
  /-- The process of slot `i` calls `kwait`. -/
  | wait (i addr : Nat)
  /-- `kexec` for slot `i` begins to change the process; it does not fail any more. -/
  | exec (i : Nat)
  /-- `kexec` for slot `i` is about to return `Ok`. -/
  | execed (i : Nat)
  /-- The process of slot `i` calls `yeld`. -/
  | yeld (i : Nat)
  /-- The process of slot `i` has taken the local lock of `kexit`. -/
  | kexit (i : Nat)
  /-- `kexit` has made the process a zombie. -/
  | exit (pid xstatus : Nat)
  /-- `kwait`, called by slot `i`, is about to free the zombie in slot `j`. -/
  | reap (i j pid xstatus : Nat)
  /-- `kwait`, called by slot `i`, is about to return a child's pid. -/
  | waited (i addr pid xstatus : Nat)
  /-- `kwait`, called by slot `i`, has found no child; it will return -1. -/
  | noKids (i : Nat)
  deriving DecidableEq

/-- What the kernel's Rust code reads and writes by name. -/
structure Data where
  current : Option Nat
  process_table : Nat → Process
  nproc : Nat
  pid : Nat
  kvm : Option PageTable
  csr : Csr
  /-- The user program's registers, by their offsets in a trapframe, and its pc. -/
  regs : Nat → Nat
  pc : Nat
  log : List Event

/-! ## Locks -/

inductive LockId
  | kernel
  | heap
  | proc (i : Nat)
  /-- The local lock of a call of `kexit`. -/
  | exit (i : Nat)
  deriving DecidableEq

/-- The hart's interrupt enable bit and privilege, the `Cpu` fields that count interrupt-off
sections, and the locks that are held. -/
structure Locks where
  sie : Bool
  umode : Bool
  interrupt_off_stack : Nat
  interrupt_prev_state : Bool
  held : Finset LockId

namespace Locks

/-- `push_interrupt_off`, which has read `old`. -/
def pushInterruptOff (s : Locks) (old : Bool) : Locks :=
  { s with
    sie := false
    interrupt_prev_state := if s.interrupt_off_stack = 0 then old else s.interrupt_prev_state
    interrupt_off_stack := s.interrupt_off_stack + 1 }

/-- `pop_interrupt_off` of a stack that is not empty. -/
def popInterruptOff (s : Locks) : Locks :=
  { s with
    interrupt_off_stack := s.interrupt_off_stack - 1
    sie := if s.interrupt_off_stack - 1 = 0 ∧ s.interrupt_prev_state = true then true else s.sie }

end Locks

/-- The comparator of the timer. `asked` and `deadlines` are ghosts: the 64-bit time last read,
and, for each deadline programmed, the time it was computed from and the comparator after. -/
structure Timer where
  stimecmp : Nat
  stimecmph : Nat
  asked : Nat
  deadlines : List (Nat × Nat)

structure Sys where
  phys : Phys
  locks : Locks
  data : Data
  timer : Timer

/-! ## Updates -/

def Data.updProc (d : Data) (i : Nat) (f : Process → Process) : Data :=
  { d with process_table := Function.update d.process_table i (f (d.process_table i)) }

theorem Data.updProc_table (d : Data) (i : Nat) (f : Process → Process) (j : Nat) :
    (d.updProc i f).process_table j = if j = i then f (d.process_table i) else d.process_table j :=
  Function.update_apply ..

@[simp] theorem Data.updProc_self (d : Data) (i : Nat) (f : Process → Process) :
    (d.updProc i f).process_table i = f (d.process_table i) := Function.update_self ..

theorem Data.updProc_ne (d : Data) {i : Nat} (f : Process → Process) {j : Nat} (h : j ≠ i) :
    (d.updProc i f).process_table j = d.process_table j := Function.update_of_ne h ..

theorem Data.updProc_twice (d : Data) (i : Nat) (f g : Process → Process) :
    (d.updProc i f).updProc i g = d.updProc i fun p => g (f p) := by
  simp only [Data.updProc, Function.update_self, Function.update_idem]

/-- What holds of `f` and of no change at all holds of every slot. -/
theorem Data.updProc_rel {R : Process → Process → Prop} (hr : ∀ p, R p p) (d : Data) (i : Nat)
    {f : Process → Process} (hf : R (d.process_table i) (f (d.process_table i))) (j : Nat) :
    R (d.process_table j) ((d.updProc i f).process_table j) := by
  rw [Data.updProc_table]
  split
  · next hj => rw [hj]; exact hf
  · exact hr _

def Data.updCsr (d : Data) (f : Csr → Csr) : Data := { d with csr := f d.csr }

end BareMetal
