import BareMetal.Virt.Uvm

/-!
# Copying between the kernel and a user address space

`copy_in`, `copy_in_cont`, `copy_in_str`, `copy_out` and `copy_out_cont` of `virtmemory.rs`. They
translate the first address only and go on through the kernel's identity map. A value of a type
`T` is its `size_of T` bytes. A misaligned access goes through; a debug build stops at it, in the
assertions of `ptr::read` and `ptr::write`.
-/

namespace BareMetal

/-- The `n` bytes at a physical address, read one by one. -/
def readBytes : Nat → Nat → M (List UInt8)
  | _, 0 => return []
  | a, n + 1 => do
    let b ← M.readByte a
    return b :: (← readBytes (a + 1) n)

def writeAll : Nat → List UInt8 → M Unit
  | _, [] => return ()
  | a, b :: bs => do
    M.writeByte a b
    writeAll (a + 1) bs

/-- `String::from_utf8(bytes).map_err(|_| ())`. -/
def fromUtf8 (bytes : List UInt8) : Except Unit (List UInt8) :=
  if ByteArray.validateUTF8 ⟨bytes.toArray⟩ then .ok bytes else .error ()

/-- `copy_in::<T>` for a type of `size` bytes. -/
def copyIn (uv : Uvm) (addr size : Nat) : M (Except Unit (List UInt8)) := do
  let some userAddr ← uv.pagetable.walkaddr addr | return .error ()
  return .ok (← readBytes userAddr size)

/-- `copy_in_cont::<u8>`. -/
def copyInCont (uv : Uvm) (addr len : Nat) : M (Except Unit (List UInt8)) := do
  let some userAddr ← uv.pagetable.walkaddr addr | return .error ()
  return .ok (← readBytes userAddr len)

/-- The bytes up to the first NUL. A read past the end of memory faults, so `n` rounds are enough
when `a + n` is past it. -/
def readStr : Nat → Nat → M (List UInt8)
  | _, 0 => M.panic "page fault"
  | a, n + 1 => do
    let b ← M.readByte a
    if b = 0 then
      return []
    else
      return b :: (← readStr (a + 1) n)

def copyInStr (uv : Uvm) (addr : Nat) : M (Except Unit (List UInt8)) := do
  let some userAddr ← uv.pagetable.walkaddr addr | return .error ()
  return fromUtf8 (← readStr userAddr (RAMEND - userAddr + 1))

/-- `copy_out::<T>`: the bytes of the value. -/
def copyOut (uv : Uvm) (addr : Nat) (data : List UInt8) : M (Except Unit Unit) := do
  let some userAddr ← uv.pagetable.walkaddr addr | return .error ()
  writeAll userAddr data
  return .ok ()

/-- `copy_out_cont::<T>`: the bytes of the values in turn. -/
def copyOutCont (uv : Uvm) (addr : Nat) (data : List UInt8) : M (Except Unit Unit) := do
  let some userAddr ← uv.pagetable.walkaddr addr | return .error ()
  writeAll userAddr data
  return .ok ()

/-- The little-endian bytes of a `u32` or `usize`. -/
def leBytes (v : Nat) : List UInt8 :=
  [UInt8.ofNat v, UInt8.ofNat (v / 2 ^ 8), UInt8.ofNat (v / 2 ^ 16), UInt8.ofNat (v / 2 ^ 24)]

end BareMetal
