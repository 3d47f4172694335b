import BareMetal.Virt.PageTable

/-!
# User address spaces

`Uvm` of `virtmemory.rs`. A method that changes `self` returns the changed value beside its
result: `alloc` keeps the pages it added before it failed. `Uvm::new` never returns `Err`.
-/

namespace BareMetal

structure Uvm where
  begin : Nat
  size : Nat
  pagetable : PageTable

/-- How many pages reach from `cur` to at least `size`. -/
def pagesTo (cur size : Nat) : Nat := (size - cur + PAGESIZE - 1) / PAGESIZE

namespace Uvm

def new : M Uvm := do
  let pagetable ← PageTable.new
  return { begin := USER_START, size := 0, pagetable }

def «end» (u : Uvm) : M Nat := M.add u.begin u.size

/-- `Uvm::free`: unmaps everything, and frees the user pages. -/
def free (u : Uvm) : M Unit := do
  M.unwrapOk (← u.pagetable.unmap TRAMPOLINE PAGESIZE false)
  M.unwrapOk (← u.pagetable.unmap TRAPFRAME PAGESIZE false)
  if u.size > 0 then
    M.unwrapOk (← u.pagetable.unmap u.begin u.size true)

/-- Drop for `Uvm`, then for its field `pagetable`. -/
def drop (u : Uvm) : M Unit := do
  u.free
  u.pagetable.free

/-- The rounds of `while self.size < size`. -/
def allocLoop (perm : Nat) : Nat → Uvm → M (Except Unit Unit × Uvm)
  | 0, u => return (.ok (), u)
  | n + 1, u => do
    if perm = 0 then
      -- a guard page is not mapped
      let size ← M.add u.size PAGESIZE
      allocLoop perm n { u with size }
    else
      let page ← M.alloc
      if page = 0 then
        return (.error (), u)
      else
        let e ← u.end
        match ← u.pagetable.map e page PAGESIZE (perm ||| PTE_U) with
        | .error () =>
          M.dealloc page
          return (.error (), u)
        | .ok () =>
          let size ← M.add u.size PAGESIZE
          allocLoop perm n { u with size }

/-- New pages up to `size`. -/
def alloc (u : Uvm) (size perm : Nat) : M (Except Unit Unit × Uvm) :=
  allocLoop perm (pagesTo u.size size) u

def grow (u : Uvm) (size perm : Nat) : M (Except Unit Unit × Uvm) := do
  u.alloc (← M.add u.size size) perm

/-- Shrink the address space to `size`. -/
def dealloc (u : Uvm) (size : Nat) : M (Except Unit Unit × Uvm) := do
  if size % PAGESIZE ≠ 0 then
    return (.error (), u)
  else
    let newend ← M.add USER_START size
    match ← u.pagetable.unmap newend (← M.sub u.size size) true with
    | .error () => return (.error (), u)
    | .ok () => return (.ok (), { u with size })

/-- Maps the trampoline and the process's trapframe. -/
def initProc (c : Cfg) (u : Uvm) (trapframe : Nat) : M (Except Unit Unit) := do
  match ← u.pagetable.map TRAMPOLINE c.trampoline PAGESIZE (PTE_R ||| PTE_X) with
  | .error () => return .error ()
  | .ok () => u.pagetable.map TRAPFRAME trapframe PAGESIZE (PTE_R ||| PTE_W)

/-- The chunks of the image, `n` of them left. -/
def loadLoop (u : Uvm) : Nat → Nat → Nat → M (Except Unit Unit)
  | 0, _, _ => return .ok ()
  | n + 1, va, src => do
    let some pteAddr ← u.pagetable.walk va .Walk | return .error ()
    let pte := Pte.fromUsize (← M.read pteAddr)
    -- through the kernel's identity map
    M.writeBytes pte.pa 0 PAGESIZE
    M.copyNonoverlapping src pte.pa PAGESIZE
    let va ← M.add va PAGESIZE
    loadLoop u n va (src + PAGESIZE)

/-- Copy `img` to the address space at `va`. -/
def load (u : Uvm) (va : Nat) (img : Slice) : M (Except Unit Unit) := do
  if va % PAGESIZE ≠ 0 then
    return .error ()
  else
    u.loadLoop (pagesTo 0 img.len) va img.ptr

/-- One round of `clone`. -/
def clonePage (u vm : Uvm) (addr : Nat) : M Unit := do
  let pteAddr ← M.unwrap (← u.pagetable.walk addr .Walk)
  let pte := Pte.fromUsize (← M.read pteAddr)
  if pte.v then
    let dst ← M.unwrap (← M.allocate)
    M.copyNonoverlapping pte.pa dst PAGESIZE
    M.unwrapOk (← vm.pagetable.map addr dst PAGESIZE pte.perm)

/-- The pages of `(USER_START..self.end()).step_by(PAGESIZE)`, `n` of them left. -/
def cloneLoop (u vm : Uvm) : Nat → Nat → M Unit
  | 0, _ => return ()
  | n + 1, addr => do
    clonePage u vm addr
    cloneLoop u vm n (addr + PAGESIZE)

/-- Clone for `Uvm`. -/
def clone (u : Uvm) : M Uvm := do
  let vm ← new
  let vm := { vm with begin := u.begin, size := u.size }
  let e ← u.end
  cloneLoop u vm (pagesTo USER_START e) USER_START
  return vm

def getSatp (u : Uvm) : SATP := { mode := 1, asid := 0, ppn := u.pagetable.root >>> 12 }

end Uvm

end BareMetal
