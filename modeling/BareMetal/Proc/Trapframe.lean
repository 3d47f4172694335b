import BareMetal.Phys.Ops

/-!
# Trapframes

`Trapframe` of `trapframe.rs`: a `repr(C)` record of 36 words in a frame of its own, held by a
`Box` in `FRAME_ALLOCATOR`. A field is read and written at its offset from the box's address.
-/

namespace BareMetal

namespace Trapframe

/-- `size_of::<Trapframe>()`. -/
def SIZE : Nat := 144

def kernel_satp : Nat := 0
def kernel_sp : Nat := 4
def trap_handler : Nat := 8
def epc : Nat := 12
def hartid : Nat := 16
def sp : Nat := 24
def a0 : Nat := 56
def a1 : Nat := 60
def a2 : Nat := 64
def a7 : Nat := 84

/-- The offsets of the user's registers, `ra` to `t6`: the words from 20 on. -/
def regs : List Nat := (List.range 31).map fun i => 20 + 4 * i

/-- `Box::new_in(Trapframe::default(), &FRAME_ALLOCATOR)`; a failed allocation aborts. -/
def newIn : M Nat := do
  let p ← M.unwrap (← M.allocate)
  M.writeBytes p 0 SIZE
  return p

/-- `Box::new_in((*tf).clone(), &FRAME_ALLOCATOR)`. -/
def cloneIn (tf : Nat) : M Nat := do
  let p ← M.unwrap (← M.allocate)
  M.copyNonoverlapping tf p SIZE
  return p

end Trapframe

end BareMetal
