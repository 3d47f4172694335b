import BareMetal.Virt.Pte

/-!
# Page tables

`PageTable` of `virtmemory.rs`: a two-level Sv32 table in physical memory, reached through its
root. A loop of the source that ends after a known number of rounds recurses on that number.
-/

namespace BareMetal

structure PageTable where
  root : Nat

inductive WalkType
  | Alloc
  | Walk
  deriving DecidableEq

/-- `NonNull::new(ptr)`. -/
def nonNull (ptr : Nat) : Option Nat := if ptr = 0 then none else some ptr

/-- `free_req` cannot recurse deeper than the two pages of a kernel stack allow. -/
def FREE_DEPTH : Nat := 128

namespace PageTable

def new : M PageTable := do
  let ptr ← M.alloc
  M.writeBytes ptr 0 4096
  if ptr = 0 then M.panic "failed to allocate root page table"
  return { root := ptr }

/-- Walks the entries of a table; `depth` bounds the recursion. -/
def freeReq : Nat → Nat → M Unit
  | 0, _ => M.panic "stack overflow"
  | depth + 1, root =>
    Lib.Free.forRange (fun i => do
      let pte := Pte.fromUsize (← M.read (root + 4 * i))
      if pte.v then
        if !pte.r && !pte.w && !pte.x then
          -- lower level page table
          let root ← M.unwrap (nonNull pte.table)
          freeReq depth root
          M.write root 0
        else
          M.panic "unmapping allocated page") 1024

/-- Drop for `PageTable`. -/
def free (t : PageTable) : M Unit := do
  freeReq FREE_DEPTH t.root
  M.dealloc t.root

/-- The second-level table a root entry leads to, created if `walkType` says so. -/
def walkNext (pteAddr : Nat) (pte : Pte) (walkType : WalkType) : M (Option Nat) := do
  if pte.v then
    return nonNull pte.table
  else if walkType = .Walk then
    return none
  else
    let newPage ← M.alloc
    if newPage = 0 then
      return none
    else
      M.writeBytes newPage 0 4096
      let newPte := { Pte.fromAddr newPage with v := true }
      M.write pteAddr newPte.intoUsize
      return some newPage

/-- The address of the leaf entry of a virtual address. -/
def walk (t : PageTable) (virtA : Nat) (walkType : WalkType) : M (Option Nat) := do
  let va := VA.fromUsize virtA
  let some index := va.vpn 1 | return none
  let pteAddr := t.root + 4 * index
  let pte := Pte.fromUsize (← M.read pteAddr)
  let some a ← walkNext pteAddr pte walkType | return none
  let some index := va.vpn 0 | return none
  return some (a + 4 * index)

/-- One round of `map`: the entry of `vaddr` leads to `paddr`. -/
def mapPage (t : PageTable) (vaddr paddr perm : Nat) : M (Except Unit Unit) := do
  let some pteAddr ← t.walk vaddr .Alloc | return .error ()
  let pte := { Pte.fromAddr paddr with v := true }
  M.write pteAddr (pte.intoUsize ||| perm)
  return .ok ()

/-- The rounds of `while vaddr < vaddr_end`, `n` of them left. -/
def mapLoop (t : PageTable) (perm : Nat) : Nat → Nat → Nat → M (Except Unit Unit)
  | 0, _, _ => return .ok ()
  | n + 1, vaddr, paddr => do
    match ← t.mapPage vaddr paddr perm with
    | .error () => return .error ()
    | .ok () =>
      let vaddr ← M.add vaddr PAGESIZE
      let paddr ← M.add paddr PAGESIZE
      mapLoop t perm n vaddr paddr

/-- Map a virtual memory range to a physical memory range. -/
def map (t : PageTable) (virt phys size perm : Nat) : M (Except Unit Unit) := do
  if phys % PAGESIZE ≠ 0 then M.panic "mapping to unalinged frame"
  if virt % PAGESIZE ≠ 0 then M.panic "mapping unalinged page"
  if size % PAGESIZE ≠ 0 then M.panic "mapping not whole pages"
  let _vaddrEnd ← M.add virt size
  t.mapLoop perm (size / PAGESIZE) virt phys

/-- One round of `unmap`. -/
def unmapPage (t : PageTable) (free : Bool) (va : Nat) : M Unit := do
  let some pteAddr ← t.walk va .Walk | return ()
  let pte := Pte.fromUsize (← M.read pteAddr)
  if pte.v then
    let isLeaf := pte.r || pte.w || pte.x
    -- only user pages come from the heap
    if free && isLeaf && pte.u then
      M.dealloc pte.table
    M.write pteAddr 0

def unmapLoop (t : PageTable) (free : Bool) : Nat → Nat → M Unit
  | 0, _ => return ()
  | n + 1, va => do
    t.unmapPage free va
    let va ← M.add va PAGESIZE
    unmapLoop t free n va

/-- Remove the mappings of `[virt, virt + size)`; with `free`, the user pages mapped there go back
to the allocator. The second-level tables stay. -/
def unmap (t : PageTable) (virt size : Nat) (free : Bool) : M (Except Unit Unit) := do
  if size % PAGESIZE ≠ 0 then
    return .error ()
  else
    t.unmapLoop free (size / PAGESIZE) virt
    return .ok ()

/-- Physical address of a virtual one. -/
def walkaddr (t : PageTable) (virtA : Nat) : M (Option Nat) := do
  let some pteAddr ← t.walk virtA .Walk | return none
  let pte := Pte.fromUsize (← M.read pteAddr)
  if !pte.v || !(pte.r || pte.w || pte.x) then
    return none
  else
    return some (← M.add pte.pa (virtA % PAGESIZE))

end PageTable

end BareMetal
