import BareMetal.Lib.Free
import BareMetal.Phys.Layout

/-!
# Memory operations

The kernel's memory code is a program (`M`) over the operations `MemOp`: reads and writes of
words and bytes, `write_bytes`, `copy_nonoverlapping`, and `HEAP_ALLOCATOR.alloc`/`dealloc` of one
frame. `Phys.exec` runs an operation on the physical memory; an access outside what the kernel
maps is a page fault, which `kerneltrap` answers with a panic.

`usize` arithmetic is the checked arithmetic of the dev profile: `add` and `sub` panic on overflow.
-/

namespace BareMetal

open Lib

inductive MemOp
  | read (a : Nat)
  | write (a v : Nat)
  | readByte (a : Nat)
  | writeByte (a : Nat) (b : UInt8)
  | writeBytes (a : Nat) (b : UInt8) (n : Nat)
  | copy (src dst n : Nat)
  | alloc
  | dealloc (f : Nat)
  | panic (msg : String)

@[reducible] def MemOp.Resp : MemOp → Type
  | .read _ => Nat
  | .write .. => Unit
  | .readByte _ => UInt8
  | .writeByte .. => Unit
  | .writeBytes .. => Unit
  | .copy .. => Unit
  | .alloc => Nat
  | .dealloc _ => Unit
  | .panic _ => Empty

abbrev M (α : Type) : Type := Free MemOp MemOp.Resp α

/-! ## Running on physical memory -/

/-- Physical memory and the allocator's free frames. `clock` counts its calls. -/
structure Phys where
  mem : Bytes
  free : List Nat
  clock : Nat

/-- `HEAP_ALLOCATOR.alloc(PAGE_LAYOUT)`: a free frame, or null. -/
def Phys.alloc (c : Cfg) (s : Phys) : Nat × Phys :=
  match c.buddy s.clock s.free with
  | some f =>
    if f ∈ s.free then (f, { s with free := s.free.erase f, clock := s.clock + 1 })
    else (0, { s with clock := s.clock + 1 })
  | none => (0, { s with clock := s.clock + 1 })

def Phys.dealloc (f : Nat) (s : Phys) : Phys :=
  { s with free := f :: s.free, clock := s.clock + 1 }

def Phys.exec (c : Cfg) : Free.Handler MemOp MemOp.Resp Phys String
  | .read a, s => if Readable a 4 then .ok (s.mem.word a, s) else .error "page fault"
  | .write a v, s =>
    if c.Writable a 4 then .ok ((), { s with mem := s.mem.setWord a v }) else .error "page fault"
  | .readByte a, s => if Readable a 1 then .ok (s.mem a, s) else .error "page fault"
  | .writeByte a b, s =>
    if c.Writable a 1 then .ok ((), { s with mem := s.mem.setByte a b }) else .error "page fault"
  | .writeBytes a b n, s =>
    if c.Writable a n then .ok ((), { s with mem := s.mem.fill a b n }) else .error "page fault"
  | .copy src dst n, s =>
    if Readable src n ∧ c.Writable dst n then .ok ((), { s with mem := s.mem.copy src dst n })
    else .error "page fault"
  | .alloc, s => .ok (s.alloc c)
  | .dealloc f, s =>
    if f = 0 then .error "called `Option::unwrap()` on a `None` value" else .ok ((), s.dealloc f)
  | .panic msg, _ => .error msg

/-- Run memory code to its end with nothing else running. -/
abbrev M.run {α : Type} (c : Cfg) (p : M α) (s : Phys) : Except String (α × Phys) :=
  Free.run (Phys.exec c) p s

/-! ## The operations as programs -/

namespace M

abbrev perform (o : MemOp) : M o.Resp := Free.perform o

def read (a : Nat) : M Nat := perform (.read a)
def write (a v : Nat) : M Unit := perform (.write a v)
def readByte (a : Nat) : M UInt8 := perform (.readByte a)
def writeByte (a : Nat) (b : UInt8) : M Unit := perform (.writeByte a b)
def writeBytes (a : Nat) (b : UInt8) (n : Nat) : M Unit := perform (.writeBytes a b n)
def copyNonoverlapping (src dst n : Nat) : M Unit := perform (.copy src dst n)

/-- `HEAP_ALLOCATOR.alloc(PAGE_LAYOUT)`; 0 is the null pointer. -/
def alloc : M Nat := perform .alloc
/-- `HEAP_ALLOCATOR.dealloc(f, PAGE_LAYOUT)`. -/
def dealloc (f : Nat) : M Unit := perform (.dealloc f)

def panic {α : Type} (msg : String) : M α := .op (.panic msg) fun e => nomatch e

def add (a b : Nat) : M Nat :=
  if a + b < USIZE then pure (a + b) else panic "attempt to add with overflow"

def sub (a b : Nat) : M Nat :=
  if b ≤ a then pure (a - b) else panic "attempt to subtract with overflow"

/-- `FRAME_ALLOCATOR.allocate(layout)` for a layout of at most a page. -/
def allocate : M (Option Nat) := do
  let f ← alloc
  return if f = 0 then none else some f

def unwrap {α : Type} : Option α → M α
  | some a => pure a
  | none => panic "called `Option::unwrap()` on a `None` value"

/-- `Result<(), ()>::unwrap`. -/
def unwrapOk : Except Unit Unit → M Unit
  | .ok () => pure ()
  | .error () => panic "called `Result::unwrap()` on an `Err` value"

end M

end BareMetal
