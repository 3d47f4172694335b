import BareMetal.Kernel.Ops
import BareMetal.Proc.Trapframe
import BareMetal.Virt.Copy

/-!
# Processes

`Kernel` of `kernel.rs` and `Process` of `process.rs`, `kexec` apart. A process is named by its
slot in the process table. An assignment to a field that owns memory drops the old value before it
stores the new one.

`kwait` loops until it returns; `kwaitRound` is one round of it.
-/

namespace BareMetal

open K

/-- `proc.trapframe = Box::..`. -/
def replaceTrapframe (i : Nat) (new : M Nat) : K Unit := do
  let p ← lift new
  setProc i fun p' => { p' with unboxing := true }
  lift (M.dealloc (← proc i).trapframe)
  setProc i fun p' => { p' with trapframe := p, unboxing := false }

/-- `proc.pagetable = uvm`. -/
def replacePagetable (i : Nat) (uvm : Uvm) : K Unit := do
  setProc i fun p => { p with dropping := true }
  lift (← proc i).pagetable.drop
  setProc i fun p => { p with pagetable := uvm, dropping := false }

def KERNEL_STACK_PAGES : Nat := 2

/-- `KSTACK!(n)`. -/
def KSTACK (n : Nat) : M Nat := do
  let a ← M.sub TRAMPOLINE ((n + 1) * PAGESIZE * (KERNEL_STACK_PAGES + 1))
  M.add a PAGESIZE

/-! ## The process table -/

/-- `allocproc` from slot `i`, `n` of them left. -/
def allocprocLoop : Nat → Nat → K (Option Nat)
  | 0, _ => return none
  | n + 1, i => do
    if (← proc i).state = .Unused then
      let pid := (← get).pid
      setProc i fun p => { p with pid := some pid }
      let pid ← add "allocproc" pid 1
      set fun d => { d with pid }
      setProc i fun p => { p with state := .Used }
      replaceTrapframe i Trapframe.newIn
      lock (.proc i)
      setProc i fun p => { p with context := .zero }
      let sp ← add "allocproc" (← proc i).kstack (KERNEL_STACK_PAGES * PAGESIZE)
      setProc i fun p => { p with context := .forkret sp }
      return some i
    else
      allocprocLoop n (i + 1)

def allocproc : K (Option Nat) := do allocprocLoop (← get).nproc 0

/-- `wakeup` from slot `i`, `n` of them left. -/
def wakeupLoop (channel : Option Nat) : Nat → Nat → K Unit
  | 0, _ => return ()
  | n + 1, i => do
    lock (.proc i)
    let p ← proc i
    if p.state = .Sleeping ∧ p.sleep_channel = channel then
      setProc i fun p => { p with state := .Runnable }
    release (.proc i)
    wakeupLoop channel n (i + 1)

def wakeup (channel : Option Nat) : K Unit := do wakeupLoop channel (← get).nproc 0

/-- The children handed to init, from slot `i`, `n` of them left; `any_child` so far. -/
def reparentLoop (pid : Option Nat) : Nat → Nat → Bool → K Bool
  | 0, _, any_child => return any_child
  | n + 1, i, any_child => do
    if (← proc i).parent = pid then
      setProc i fun p => { p with parent := some 0 }
      reparentLoop pid n (i + 1) true
    else
      reparentLoop pid n (i + 1) any_child

def reparent (pid : Option Nat) : K Unit := do
  let any_child ← reparentLoop pid (← get).nproc 0 false
  if any_child then
    wakeup (some 0)

/-! ## Scheduling -/

def sched (i : Nat) : K Unit := do
  if (← locks).sie then
    K.panic "sched with interrupts enabled "
  if (← locks).interrupt_off_stack ≠ 1 then
    K.panic "sched locks"
  match (← get).current with
  -- a null pointer is not mapped
  | none => K.panic "page fault"
  | some j =>
    if (← proc j).state = .Running then
      K.panic "sched running"
    let interrupt_prev_state := (← locks).interrupt_prev_state
    toSched i
    setPrev interrupt_prev_state

def yeld (i : Nat) : K Unit := do
  print
  print
  lock (.proc i)
  note (.yeld i)
  print
  print
  setProc i fun p => { p with state := .Runnable }
  sched i
  release (.proc i)

/-! ## Fork, exit, wait -/

/-- `Process::free` of the process in slot `j`. -/
def Process.free (j : Nat) : K Unit := do
  setProc j fun p => { p with pid := none }
  setProc j fun p => { p with state := .Unused }
  setProc j fun p => { p with parent := none }
  replacePagetable j (← lift Uvm.new)
  setProc j fun p => { p with context := .zero }
  setProc j fun p => { p with xstatus := 0 }
  setProc j fun p => { p with sleep_channel := none }
  replaceTrapframe j Trapframe.newIn

/-- `kfork` once it holds the kernel's lock. -/
def kforkLocked (c : Cfg) (i : Nat) : K (Except Unit Nat) := do
  match ← allocproc with
  | none => return .error ()
  | some j =>
    replaceTrapframe j (Trapframe.cloneIn (← proc i).trapframe)
    let uvm ← lift (← proc i).pagetable.clone
    match ← lift (uvm.initProc c (← proc j).trapframe) with
    | .error () =>
      lift uvm.drop
      return .error ()
    | .ok () =>
      replacePagetable j uvm
      -- return 0 in child, and its pid in parent
      lift (M.write ((← proc j).trapframe + Trapframe.a0) 0)
      let pid ← unwrap (← proc j).pid
      lift (M.write ((← proc i).trapframe + Trapframe.a0) pid)
      release (.proc j)
      let parent := (← proc i).pid
      setProc j fun p => { p with parent }
      lock (.proc j)
      setProc j fun p => { p with state := .Runnable }
      release (.proc j)
      match (← proc j).pid with
      | some pid => return .ok pid
      | none => return .error ()

def kfork (c : Cfg) (i : Nat) : K (Except Unit Nat) := do
  lock .kernel
  let r ← kforkLocked c i
  release .kernel
  return r

def kexit {α : Type} (i xstatus : Nat) : K α := do
  if (← proc i).pid = some 0 then
    K.panic "init exit"
  lock (.exit i)
  note (.kexit i)
  -- giveup children to init
  lock .kernel
  reparent (← proc i).pid
  release .kernel
  -- wakeup parent
  lock .kernel
  wakeup (← proc i).parent
  release .kernel
  lock (.proc i)
  setProc i fun p => { p with xstatus }
  setProc i fun p => { p with state := .Zombie }
  note (.exit ((← proc i).pid.getD 0) xstatus)
  release (.exit i)
  sched i
  K.panic "cordyceps"

/-- The scan of `kwait` from slot `j`, `n` of them left; `has_kids` so far. Returns `has_kids`,
`zombie_pid` and `zombie_xstatus`. -/
def kwaitScan (i : Nat) (parent_pid : Option Nat) :
    Nat → Nat → Bool → K (Bool × Option Nat × Nat)
  | 0, _, has_kids => return (has_kids, none, 0)
  | n + 1, j, has_kids => do
    if (← proc j).parent = parent_pid then
      lock (.proc j)
      if (← proc j).state = .Zombie then
        let zombie_xstatus := (← proc j).xstatus
        let zombie_pid := (← proc j).pid
        note (.reap i j (zombie_pid.getD 0) zombie_xstatus)
        setProc i fun p => { p with reaped := some (zombie_pid.getD 0, zombie_xstatus) }
        Process.free j
        release (.proc j)
        return (true, zombie_pid, zombie_xstatus)
      else
        release (.proc j)
        kwaitScan i parent_pid n (j + 1) true
    else
      kwaitScan i parent_pid n (j + 1) has_kids

/-- `table.iter_mut().find(|proc| proc.pid == pid)` from slot `j`, `n` of them left. -/
def findPid (pid : Option Nat) : Nat → Nat → K (Option Nat)
  | 0, _ => return none
  | n + 1, j => do
    if (← proc j).pid = pid then return some j else findPid pid n (j + 1)

/-- `pid as i32`. -/
def asI32 (n : Nat) : Int :=
  if n % 2 ^ 32 < 2 ^ 31 then (n % 2 ^ 32 : Nat) else (n % 2 ^ 32 : Nat) - 2 ^ 32

/-- What one round of `kwait` holds the kernel's lock for: the scan and, where there are children
but no zombie, the step to sleep. -/
def kwaitLocked (i : Nat) (parent_pid : Option Nat) : K (Bool × Option Nat × Nat) := do
  let (has_kids, zombie_pid, zombie_xstatus) ← kwaitScan i parent_pid (← get).nproc 0 false
  if zombie_pid = none ∧ has_kids then
    let parent ← findPid parent_pid (← get).nproc 0
    match parent with
    | none => K.panic "waiting process missing from process table"
    | some parent =>
      lock (.proc parent)
      setProc parent fun p => { p with sleep_channel := parent_pid }
      setProc parent fun p => { p with state := .Sleeping }
      return (has_kids, zombie_pid, zombie_xstatus)
  else
    if ¬ has_kids then
      note (.noKids i)
    return (has_kids, zombie_pid, zombie_xstatus)

/-- One round of `kwait`; `none` is to go round again. -/
def kwaitRound (i status_addr : Nat) : K (Option Int) := do
  let parent_pid := (← proc i).pid
  lock .kernel
  let (has_kids, zombie_pid, zombie_xstatus) ← kwaitLocked i parent_pid
  release .kernel
  match zombie_pid with
  | some pid =>
    if status_addr ≠ 0 then
      unwrapOk (← lift (copyOut (← proc i).pagetable status_addr (leBytes zombie_xstatus)))
    note (.waited i status_addr pid zombie_xstatus)
    setProc i fun p => { p with reaped := none }
    return some (asI32 pid)
  | none =>
    if has_kids then
      -- the parent is locked for sleep
      sched i
      setProc i fun p => { p with sleep_channel := none }
      release (.proc i)
      return none
    else
      print
      return some (-1)

end BareMetal
