import BareMetal.Kernel.Trap

/-!
# Boot

`Kvm` of `virtmemory.rs`, `Kernel::init` and `initproc`, and `main`.
-/

namespace BareMetal

open K

/-! ## The kernel's address space -/

/-- The maps of `Kvm::init`, in order: address, physical address, size, permissions. -/
def kvmMaps (c : Cfg) : List (Nat × Nat × Nat × Nat) :=
  [ (UART, UART, PAGESIZE, PTE_R ||| PTE_W),
    -- kernel text
    (KERNEL_START, KERNEL_START, c.etext - KERNEL_START, PTE_X ||| PTE_R),
    -- kernel data and ram after kernel
    (c.etext, c.etext, RAMEND - c.etext, PTE_R ||| PTE_W),
    (TRAMPOLINE, c.trampoline, PAGESIZE, PTE_R ||| PTE_X) ]

def mapAll (t : PageTable) : List (Nat × Nat × Nat × Nat) → M (Except Unit Unit)
  | [] => return .ok ()
  | (virt, phys, size, perm) :: maps => do
    match ← t.map virt phys size perm with
    | .error () => return .error ()
    | .ok () => mapAll t maps

def Kvm.init (c : Cfg) : M (Except Unit PageTable) := do
  let pagetable ← PageTable.new
  match ← mapAll pagetable (kvmMaps c) with
  | .error () =>
    pagetable.free
    return .error ()
  | .ok () => return .ok pagetable

/-- `alloc_kstack` from page `i`, `n` of them left. -/
def allocKstackLoop (kvm : PageTable) (va : Nat) : Nat → Nat → M Unit
  | 0, _ => return ()
  | n + 1, i => do
    let kstack_page ← M.unwrap (← M.allocate)
    M.unwrapOk (← kvm.map (← M.add va (i * PAGESIZE)) kstack_page PAGESIZE (PTE_R ||| PTE_W))
    allocKstackLoop kvm va n (i + 1)

def allocKstack (kvm : PageTable) (va : Nat) : M Unit :=
  allocKstackLoop kvm va KERNEL_STACK_PAGES 0

/-! ## Processes -/

def Process.new (n : Nat) : M Process := do
  let kstack ← KSTACK n
  let pagetable ← Uvm.new
  let trapframe ← Trapframe.newIn
  return {
    id := n
    pid := none
    state := .Unused
    kstack
    parent := none
    pagetable
    context := .zero
    xstatus := 0
    sleep_channel := none
    trapframe
    quants := 0
    dropping := false
    unboxing := false
    reaped := none }

/-- `initproc` from slot `i`, `n` of them left. -/
def initprocLoop (kvm : PageTable) : Nat → Nat → K Unit
  | 0, _ => return ()
  | n + 1, i => do
    let p ← lift (Process.new i)
    lift (do allocKstack kvm (← KSTACK i))
    print
    set fun d => { d with process_table := Function.update d.process_table i p, nproc := i + 1 }
    initprocLoop kvm n (i + 1)

def initproc (n : Nat) : K (Except Unit Unit) := do
  let d ← get
  match d.kvm with
  | none => return .error ()
  | some kvm =>
    initprocLoop kvm n d.nproc
    return .ok ()

/-- The `satp` that `start_kvm` installs. -/
def kvmSatp (kvm : PageTable) : Nat :=
  SATP.intoUsize { mode := 1, asid := 0, ppn := kvm.root >>> 12 }

def main (c : Cfg) : K Label := do
  -- the heap gets its memory
  lock .heap
  release .heap
  -- init_trap
  setCsr fun csr => { csr with stvec := .kernelvec }
  lock .kernel
  match ← lift (Kvm.init c) with
  | .error () => K.panic "Kernel init fail"
  | .ok kvm =>
    set fun d => { d with kvm := some kvm }
    unwrapOk (← initproc 4)
    match (← get).kvm with
    | none => K.panic "KVM not initialized"
    | some kvm =>
      setCsr fun csr => { csr with satp := kvmSatp kvm }
      -- Start init
      let i ← unwrap (← allocproc)
      release (.proc i)
      heapUse
      -- `kexec("init", ["10"])`
      unwrapOk (← kexec c i [105, 110, 105, 116] [[49, 48]])
      setProc i fun p => { p with state := .Runnable }
      release .kernel
      return .scheduler

end BareMetal
