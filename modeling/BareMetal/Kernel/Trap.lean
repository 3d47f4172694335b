import BareMetal.Kernel.Exec
import BareMetal.Virt.Sv32

/-!
# Traps, system calls and the scheduler

`trap.rs`, `trampoline.rs`, the system calls, and the parts of `process.rs` that end in another
context: `scheduler`, `forkret`, `prepare_return`. Code that does not return ends in a `Label`, the
place where the hart goes on.

The trap vectors' loads of `kernel_sp`, `hartid` and the handler's address have no counterpart:
stacks and code addresses are not part of the model.
-/

namespace BareMetal

open K

inductive Label
  /-- The top of the scheduler's loop. -/
  | scheduler
  /-- The top of `kwait`'s loop, for the process of slot `i`. -/
  | kwait (i addr : Nat)
  /-- The user program. -/
  | user
  /-- `loop {}`, and a lock that is never free. -/
  | spin

/-! ## The trampoline -/

/-- `Sv32.walk` as accesses of the hart. -/
def hartWalk (root va : Nat) : M (Option (Nat × Nat)) := do
  if va < USIZE then
    let e₁ ← M.read (root + 4 * (va / 2 ^ 22))
    if e₁ % 2 = 0 then
      return none
    else if Sv32.isLeaf e₁ then
      return if e₁ / 2 ^ 10 % 2 ^ 10 = 0 then some (e₁, e₁ / 2 ^ 20 * 2 ^ 22 + va % 2 ^ 22) else none
    else
      let e₀ ← M.read (e₁ / 2 ^ 10 * 2 ^ 12 + 4 * (va / 2 ^ 12 % 2 ^ 10))
      return if e₀ % 2 = 0 ∨ ¬ Sv32.isLeaf e₀ then none
        else some (e₀, e₀ / 2 ^ 10 * 2 ^ 12 + va % 2 ^ 12)
  else
    return none

/-- The root table that a value of `satp` names. -/
def satpRoot (satp : Nat) : Nat := satp % 2 ^ 22 * 2 ^ 12

/-- Where the trap vectors find `TRAPFRAME`: a page that the kernel may read and write. -/
def hartTrapframe (satp : Nat) : M Nat := do
  match ← hartWalk (satpRoot satp) TRAPFRAME with
  | none => M.panic "page fault"
  | some (e, pa) =>
    if e / 2 % 2 = 1 ∧ e / 4 % 2 = 1 ∧ e / 16 % 2 = 0 then return pa else M.panic "page fault"

def saveRegs (tf : Nat) (regs : Nat → Nat) : List Nat → M Unit
  | [] => return ()
  | r :: rs => do
    M.write (tf + r) (regs r)
    saveRegs tf regs rs

def loadRegs (tf : Nat) : List Nat → (Nat → Nat) → M (Nat → Nat)
  | [], regs => return regs
  | r :: rs, regs => do
    let v ← M.read (tf + r)
    loadRegs tf rs (Function.update regs r v)

def uservec : K Unit := do
  let d ← get
  let tf ← lift (hartTrapframe d.csr.satp)
  lift (saveRegs tf d.regs Trapframe.regs)
  -- fetch and install the kernel page table
  let satp ← lift (M.read (tf + Trapframe.kernel_satp))
  setCsr fun csr => { csr with satp }

def userret (satp : Nat) : K Label := do
  setCsr fun csr => { csr with satp }
  let tf ← lift (hartTrapframe satp)
  let regs ← lift (loadRegs tf Trapframe.regs (← get).regs)
  set fun d => { d with regs }
  if ← sret then return .user else lost

/-! ## Returning to user mode -/

/-- `prepare_return` for the process of slot `i`. -/
def prepareReturn (c : Cfg) (i : Nat) : K Unit := do
  setSie false
  setCsr fun csr => { csr with stvec := .uservec }
  -- needed for next trap into kernel
  let satp := (← get).csr.satp
  lift (M.write ((← proc i).trapframe + Trapframe.kernel_satp) satp)
  let sp ← add "prepare_return" (← proc i).kstack (KERNEL_STACK_PAGES * PAGESIZE)
  lift (M.write ((← proc i).trapframe + Trapframe.kernel_sp) sp)
  lift (M.write ((← proc i).trapframe + Trapframe.trap_handler) c.usertrap)
  lift (M.write ((← proc i).trapframe + Trapframe.hartid) 0)
  -- previous mode to user
  setCsr fun csr => { csr with spp := false, spie := true }
  let epc ← lift (M.read ((← proc i).trapframe + Trapframe.epc))
  setCsr fun csr => { csr with sepc := epc }

/-- The end of `usertrap` and of `forkret`. -/
def usertrapret (c : Cfg) (i : Nat) : K Label := do
  prepareReturn c i
  userret (← proc i).pagetable.getSatp.intoUsize

def forkret (c : Cfg) : K Label := do
  match (← get).current with
  | none => K.panic "page fault"
  | some i =>
    release (.proc i)
    usertrapret c i

/-! ## System calls -/

def SYS_FORK : Nat := 1
def SYS_EXIT : Nat := 2
def SYS_WAIT : Nat := 3
def SYS_EXEC : Nat := 7
def SYS_WRITE : Nat := 16

/-- A field of the trapframe of the process of slot `i`. -/
def trapframeRead (i field : Nat) : K Nat := do lift (M.read ((← proc i).trapframe + field))

def trapframeWrite (i field v : Nat) : K Unit := do
  lift (M.write ((← proc i).trapframe + field) v)

def sysWrite (i : Nat) : K Unit := do
  let fd ← trapframeRead i Trapframe.a0
  let addr ← trapframeRead i Trapframe.a1
  let size ← trapframeRead i Trapframe.a2
  if fd ≠ 1 then
    K.panic "Write to fd"
  let bytes ← unwrapOk (← lift (copyInCont (← proc i).pagetable addr size))
  let _msg ← unwrapOk (fromUtf8 bytes)
  heapUse
  trapframeWrite i Trapframe.a0 0
  -- `msg` is dropped
  heapUse

def sysFork (c : Cfg) (i : Nat) : K Unit := do
  let _ ← unwrapOk (← kfork c i)

/-- A `usize` from its little-endian bytes. -/
def leWord (bytes : List UInt8) : Nat := bytes.foldr (fun b v => b.toNat + 2 ^ 8 * v) 0

/-- The loop over `argv`. The address grows by 4 and may not overflow, so `n` rounds are enough when
`n * 4` is past the end of the address space. -/
def sysExecArgs (i : Nat) : Nat → Nat → K (List (List UInt8))
  | 0, _ => K.panic "attempt to add with overflow"
  | n + 1, argv_addr => do
    let arg_addr := leWord (← unwrapOk (← lift (copyIn (← proc i).pagetable argv_addr 4)))
    if arg_addr = 0 then
      return []
    else
      let arg_str ← unwrapOk (← lift (copyInStr (← proc i).pagetable arg_addr))
      heapUse
      let argv_addr ← add "sys_exec" argv_addr 4
      return arg_str :: (← sysExecArgs i n argv_addr)

def sysExec (c : Cfg) (i : Nat) : K Unit := do
  let path_addr ← trapframeRead i Trapframe.a0
  let argv_addr ← trapframeRead i Trapframe.a1
  let path ← unwrapOk (← lift (copyInStr (← proc i).pagetable path_addr))
  let argv ← sysExecArgs i (USIZE / 4 + 1) argv_addr
  heapUse
  unwrapOk (← kexec c i path argv)
  -- the strings and the `Vec`s are dropped
  heapUse

/-- `ret as usize` for an `i32`. -/
def asUsize (ret : Int) : Nat := (ret % 2 ^ 32).toNat

def syscall (c : Cfg) (i : Nat) : K Label := do
  let sys_num ← trapframeRead i Trapframe.a7
  if sys_num = SYS_WRITE then
    sysWrite i
    usertrapret c i
  else if sys_num = SYS_FORK then
    sysFork c i
    usertrapret c i
  else if sys_num = SYS_EXEC then
    sysExec c i
    usertrapret c i
  else if sys_num = SYS_WAIT then
    let status_addr ← trapframeRead i Trapframe.a0
    note (.wait i status_addr)
    return .kwait i status_addr
  else if sys_num = SYS_EXIT then
    kexit i (← trapframeRead i Trapframe.a0)
  else
    K.panic "unimplemented syscall"

/-- `kwait`'s loop, and what follows its return. -/
def kwaitLoop (c : Cfg) (i addr : Nat) : K Label := do
  match ← kwaitRound i addr with
  | none => return .kwait i addr
  | some ret =>
    trapframeWrite i Trapframe.a0 (asUsize ret)
    usertrapret c i

/-! ## Trap handlers -/

/-- `scause` of a timer interrupt, and of an `ecall` from user mode. -/
def TIMER : Nat := 0x80000005
def ECALL : Nat := 8

/-- The next deadline, one quantum from now; `report` prints the message. -/
def deadline (report : K Unit) : K Unit := do
  let time ← time
  let _ ← add "deadline" time 1000000
  report
  stimecmp (← add "deadline" time 1000000)

def kerneltrap : K Unit := do
  let csr := (← get).csr
  if !csr.spp then
    K.panic "kerneltrap: not from supervisor mode"
  if (← locks).sie then
    K.panic "kerneltrap: interrupts enabled"
  if csr.scause = TIMER then
    -- `kprintln!` does not use the heap
    deadline (pure ())
    match (← get).current with
    | some i => yeld i
    | none => pure ()
  else
    K.panic "explicit panic"
  -- The write of `sstatus` also clears SIE, which is off here in any case: the saved value has it off
  -- (or the handler has panicked), and `yeld` comes back with what it found. `sret` sets SIE.
  setCsr fun csr' => { csr' with sepc := csr.sepc, spp := csr.spp, spie := csr.spie }

/-- `kernelvec`: the handler, and back to what the kernel was doing. -/
def kernelvec : K Unit := do
  kerneltrap
  if ← sret then lost else return ()

def usertrap (c : Cfg) : K Label := do
  let d ← get
  match d.current with
  | none => K.panic "null current"
  | some i =>
    if d.csr.spp then
      K.panic "usertrap: not from user mode"
    if (← locks).sie then
      K.panic "usertrap: interrupts enabled"
    -- switch to kernel trap
    setCsr fun csr => { csr with stvec := .kernelvec }
    trapframeWrite i Trapframe.epc d.csr.sepc
    if d.csr.scause = ECALL then
      let epc ← add "usertrap" (← trapframeRead i Trapframe.epc) 4
      trapframeWrite i Trapframe.epc epc
      -- with right trapvec enable interrupts
      setSie true
      syscall c i
    else if d.csr.scause = TIMER then
      deadline print
      yeld i
      usertrapret c i
    else
      K.panic "user> cause"

/-! ## The scheduler -/

/-- The slots in the order of the pass: by `quants`, a stable sort. -/
def passOrder (d : Data) : List Nat :=
  (List.range d.nproc).mergeSort fun i j => (d.process_table i).quants ≤ (d.process_table j).quants

/-- The first runnable process in the order; its lock stays held. -/
def pickLoop : List Nat → K (Option Nat)
  | [] => return none
  | i :: order => do
    lock (.proc i)
    if (← proc i).state = .Runnable then
      setProc i fun p => { p with state := .Running }
      return some i
    else
      release (.proc i)
      pickLoop order

/-- A pass over the process table, and what the scheduler does with its result. -/
def schedulerPass : K Label := do
  note .pass
  lock .kernel
  heapUse
  let found ← pickLoop (passOrder (← get))
  -- the list of the order is dropped
  heapUse
  release .kernel
  match found with
  | some i =>
    let quants ← add "scheduler" (← proc i).quants 1
    setProc i fun p => { p with quants }
    set fun d => { d with current := some i }
    print
    toProc i
    set fun d => { d with current := none }
    release (.proc i)
    return .scheduler
  | none =>
    print
    setSie true
    -- wfi
    return .scheduler

def schedulerRound : K Label := do
  print
  setSie true
  setSie false
  schedulerPass

end BareMetal
