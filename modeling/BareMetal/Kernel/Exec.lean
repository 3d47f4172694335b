import BareMetal.Kernel.Proc

/-!
# Exec

`Process::kexec`. The new address space is built by memory code; the process gets it at the end.
An early return drops it.
-/

namespace BareMetal

open K

/-- `char::is_whitespace`. -/
def isWhitespace (ch : Char) : Bool :=
  let n := ch.toNat
  (0x9 ≤ n && n ≤ 0xd) || n == 0x20 || n == 0x85 || n == 0xa0 || n == 0x1680
    || (0x2000 ≤ n && n ≤ 0x200a) || n == 0x2028 || n == 0x2029 || n == 0x202f || n == 0x205f
    || n == 0x3000

/-- `path.trim_end()`, of a string given by its UTF-8 bytes. -/
def trimEnd (path : List UInt8) : List Char :=
  match String.fromUTF8? ⟨path.toArray⟩ with
  | some s => (s.toList.reverse.dropWhile isWhitespace).reverse
  | none => []

/-- The image of a known program. -/
def program (c : Cfg) (path : List UInt8) : Option Slice :=
  if trimEnd path = ['i', 'n', 'i', 't'] then some c.INIT
  else if trimEnd path = ['p', 'r', 'i', 'm', 'e'] then some c.PRIME
  else none

/-- The image, the guard page and the stack. -/
def kexecLoad (c : Cfg) (pagetree : Uvm) (trapframe : Nat) (img : Slice) :
    M (Except Unit Unit × Uvm) := do
  match ← pagetree.initProc c trapframe with
  | .error () => return (.error (), pagetree)
  | .ok () =>
    match ← pagetree.alloc img.len (PTE_R ||| PTE_W ||| PTE_X) with
    | (.error (), pagetree) => return (.error (), pagetree)
    | (.ok (), pagetree) =>
      match ← pagetree.load USER_START img with
      | .error () => return (.error (), pagetree)
      | .ok () =>
        -- alloc guardpage
        let (r, pagetree) ← pagetree.grow PAGESIZE 0
        M.unwrapOk r
        -- alloc user stack
        let (r, pagetree) ← pagetree.grow PAGESIZE (PTE_W ||| PTE_R)
        M.unwrapOk r
        return (.ok (), pagetree)

/-- Copy args to stack: their addresses, and the stack pointer after. -/
def copyArgs (pagetree : Uvm) (stack_base : Nat) :
    List (List UInt8) → Nat → M (Except Unit (List Nat × Nat))
  | [], sp => return .ok ([], sp)
  | arg :: argv, sp => do
    let sp ← M.sub sp arg.length
    -- `sp &= !0b111`
    let sp := sp / 8 * 8
    if sp < stack_base then
      return .error ()
    else
      match ← copyOutCont pagetree sp arg with
      | .error () => return .error ()
      | .ok () =>
        match ← copyArgs pagetree stack_base argv sp with
        | .error () => return .error ()
        | .ok (ustack, sp') => return .ok (sp :: ustack, sp')

/-- The arguments on the stack; the stack pointer for the new program. -/
def kexecArgs (pagetree : Uvm) (argv : List (List UInt8)) : M (Except Unit Nat) := do
  let sp ← pagetree.end
  let stack_base ← M.sub sp PAGESIZE
  match ← copyArgs pagetree stack_base argv sp with
  | .error () => return .error ()
  | .ok (ustack, sp) =>
    let ustack := ustack ++ [0]
    -- copy arg addr onto stack
    let sp ← M.sub sp (ustack.length * 4)
    if sp < stack_base then
      return .error ()
    else
      match ← copyOutCont pagetree sp (ustack.flatMap leBytes) with
      | .error () => return .error ()
      | .ok () => return .ok sp

/-- `kexec` but for the drop of `path`, `argv` and `ustack` when it returns. -/
def kexecOwned (c : Cfg) (i : Nat) (path : List UInt8) (argv : List (List UInt8)) :
    K (Except Unit Unit) := do
  match program c path with
  | none => K.panic "kexec: unknown program"
  | some img =>
    let pagetree ← lift Uvm.new
    let (r, pagetree) ← lift (kexecLoad c pagetree (← proc i).trapframe img)
    match r with
    | .error () =>
      lift pagetree.drop
      return .error ()
    | .ok () =>
      let r ← lift (kexecArgs pagetree argv)
      -- `ustack` is a `Vec`
      heapUse
      match r with
      | .error () =>
        lift pagetree.drop
        return .error ()
      | .ok sp =>
        note (.exec i)
        lift (M.write ((← proc i).trapframe + Trapframe.a0) argv.length)
        lift (M.write ((← proc i).trapframe + Trapframe.a1) sp)
        replacePagetable i pagetree
        lift (M.write ((← proc i).trapframe + Trapframe.sp) sp)
        lift (M.write ((← proc i).trapframe + Trapframe.epc) USER_START)
        note (.execed i)
        return .ok ()

def kexec (c : Cfg) (i : Nat) (path : List UInt8) (argv : List (List UInt8)) :
    K (Except Unit Unit) := do
  let r ← kexecOwned c i path argv
  heapUse
  return r

end BareMetal
