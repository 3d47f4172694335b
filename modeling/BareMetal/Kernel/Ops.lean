import BareMetal.Kernel.State

/-!
# Kernel operations

Kernel code is a program (`K`) over the operations `KOp`: the memory operations, reads and writes of
the kernel's data, the interrupt bit, the locks, `switch`, the timer. An interrupt can come before
any operation that runs with `sstatus.SIE` set.

`lift` runs memory code in the kernel: an allocation takes the heap's lock around it. Code that
uses the heap for the kernel's own objects (`format!`, `Vec`, `String`) is `heapUse`: it takes and
releases the heap's lock any number of times.
-/

namespace BareMetal

open Lib

inductive KOp
  | mem (o : MemOp)
  | get
  | set (f : Data → Data)
  | locks
  | setSie (b : Bool)
  | setPrev (b : Bool)
  /-- `push_interrupt_off`, which has read `old`, and `Mutex::lock`. -/
  | acquire (l : LockId) (old : Bool)
  /-- `Mutex::force_unlock` and `pop_interrupt_off`. -/
  | release (l : LockId)
  /-- Answers whether the hart is in user mode after. -/
  | sret
  /-- `switch` from the process of slot `i` to the scheduler, and back. -/
  | toSched (i : Nat)
  | toProc (i : Nat)
  /-- A number the model does not determine. -/
  | any
  | time
  | stimecmp (v : Nat)
  | note (e : Event)
  | panic (msg : String)
  /-- Control leaves the code of the model. -/
  | lost

@[reducible] def KOp.Resp : KOp → Type
  | .mem o => o.Resp
  | .get => Data
  | .set _ => Unit
  | .locks => Locks
  | .setSie _ => Unit
  | .setPrev _ => Unit
  | .acquire .. => Unit
  | .release _ => Unit
  | .sret => Bool
  | .toSched _ => Unit
  | .toProc _ => Unit
  | .any => Nat
  | .time => Nat
  | .stimecmp _ => Unit
  | .note _ => Unit
  | .panic _ => Empty
  | .lost => Empty

abbrev K (α : Type) : Type := Free KOp KOp.Resp α

/-! ## Execution -/

/-- How an operation ends when it does not answer. -/
inductive Stop
  | panic
  | fault
  /-- The lock is held, and with one hart it stays held. -/
  | spin
  /-- The operation is one of the machine's, not of the system's. -/
  | switch
  deriving DecidableEq

/-- `Phys.exec` in the system; `M.panic` is a Rust panic, any other error a page fault. -/
def Sys.execMem (c : Cfg) (o : MemOp) (s : Sys) : Except Stop (o.Resp × Sys) :=
  match Phys.exec c o s.phys with
  | .ok (r, phys) => .ok (r, { s with phys })
  | .error _ => .error (match o with | .panic _ => .panic | _ => .fault)

/-- The system after `sret`. -/
def Sys.sret (s : Sys) : Sys :=
  { s with
    locks := { s.locks with sie := s.data.csr.spie, umode := !s.data.csr.spp }
    data := { s.data with
      csr := { s.data.csr with spie := true, spp := false }
      pc := s.data.csr.sepc } }

/-- An operation at time `t`; `n` answers `any`. -/
def KOp.exec (c : Cfg) (t n : Nat) : Free.Handler KOp KOp.Resp Sys Stop
  | .mem o, s => s.execMem c o
  | .get, s => .ok (s.data, s)
  | .set f, s => .ok ((), { s with data := f s.data })
  | .locks, s => .ok (s.locks, s)
  | .setSie b, s => .ok ((), { s with locks := { s.locks with sie := b } })
  | .setPrev b, s => .ok ((), { s with locks := { s.locks with interrupt_prev_state := b } })
  | .acquire l old, s =>
    if l ∈ s.locks.held then .error .spin
    else
      let locks := s.locks.pushInterruptOff old
      .ok ((), { s with locks := { locks with held := insert l s.locks.held } })
  | .release l, s =>
    if s.locks.interrupt_off_stack < 1 then .error .panic
    else
      let locks := s.locks.popInterruptOff
      .ok ((), { s with locks := { locks with held := s.locks.held.erase l } })
  | .sret, s => .ok (!s.data.csr.spp, s.sret)
  | .toSched _, _ => .error .switch
  | .toProc _, _ => .error .switch
  | .any, s => .ok (n, s)
  | .time, s => .ok (t % 2 ^ 32, { s with timer := { s.timer with asked := t } })
  | .stimecmp v, s =>
    .ok ((), { s with timer := { s.timer with
      stimecmp := v
      deadlines := (s.timer.asked, v + 2 ^ 32 * s.timer.stimecmph) :: s.timer.deadlines } })
  | .note e, s => .ok ((), { s with data := { s.data with log := e :: s.data.log } })
  | .panic _, _ => .error .panic
  | .lost, _ => .error .switch

/-- An operation at some time, with some answer to `any`. -/
def KOp.Does (c : Cfg) (o : KOp) (s : Sys) (r : o.Resp) (s' : Sys) : Prop :=
  ∃ t n, o.exec c t n s = .ok (r, s')

/-! ## The operations as programs -/

namespace K

abbrev perform (o : KOp) : K o.Resp := Free.perform o

def mem (o : MemOp) : K o.Resp := perform (.mem o)
def get : K Data := perform .get
def set (f : Data → Data) : K Unit := perform (.set f)
def locks : K Locks := perform .locks
def setSie (b : Bool) : K Unit := perform (.setSie b)
def setPrev (b : Bool) : K Unit := perform (.setPrev b)
def acquire (l : LockId) (old : Bool) : K Unit := perform (.acquire l old)
def release (l : LockId) : K Unit := perform (.release l)
def sret : K Bool := perform .sret
def toSched (i : Nat) : K Unit := perform (.toSched i)
def toProc (i : Nat) : K Unit := perform (.toProc i)
def any : K Nat := perform .any
def time : K Nat := perform .time
def stimecmp (v : Nat) : K Unit := perform (.stimecmp v)
def note (e : Event) : K Unit := perform (.note e)

def panic {α : Type} (msg : String) : K α := .op (.panic msg) fun e => nomatch e
def lost {α : Type} : K α := .op .lost fun e => nomatch e

def proc (i : Nat) : K Process := do return (← get).process_table i
def setProc (i : Nat) (f : Process → Process) : K Unit := set fun d => d.updProc i f
def setCsr (f : Csr → Csr) : K Unit := set fun d => d.updCsr f

/-- `IntMutex::lock` and `lock_manual`. -/
def lock (l : LockId) : K Unit := do
  -- `push_interrupt_off` reads the interrupt bit before it clears it
  let old := (← locks).sie
  acquire l old

def add (loc : String) (a b : Nat) : K Nat :=
  if a + b < USIZE then pure (a + b) else panic (loc ++ ": attempt to add with overflow")

def unwrap {α : Type} : Option α → K α
  | some a => pure a
  | none => panic "called `Option::unwrap()` on a `None` value"

/-- `Result<_, ()>::unwrap`. -/
def unwrapOk {α : Type} : Except Unit α → K α
  | .ok a => pure a
  | .error () => panic "called `Result::unwrap()` on an `Err` value"

/-! ## Memory code in the kernel -/

/-- Code that runs to its end with nothing else running. -/
abbrev Ends {α : Type} (c : Cfg) (p : K α) (s : Sys) (tr : List (KOp × Sys)) (a : α) (s' : Sys) :
    Prop := Free.Ends (KOp.Does c) p s tr a s'

/-- One memory operation; `GlobalAlloc` for `LockedHeap` locks the heap. -/
def memOp : (o : MemOp) → K o.Resp
  | .alloc => do
    lock .heap
    let f ← mem .alloc
    release .heap
    return f
  | .dealloc f => do
    if f = 0 then
      mem (.panic "called `Option::unwrap()` on a `None` value") >>= fun e => nomatch e
    else
      lock .heap
      mem (.dealloc f)
      release .heap
  | o => mem o

def lift {α : Type} : M α → K α
  | .ret a => .ret a
  | .op o k => Free.bind (memOp o) fun r => lift (k r)

def heapUseLoop : Nat → K Unit
  | 0 => return ()
  | n + 1 => do
    lock .heap
    release .heap
    heapUseLoop n

def heapUse : K Unit := do heapUseLoop (← any)

/-- `print!` and `println!`: `format!` allocates. -/
def print : K Unit := heapUse

end K

end BareMetal
