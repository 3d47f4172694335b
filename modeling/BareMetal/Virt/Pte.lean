import BareMetal.Phys.Ops

/-!
# Page-table entries and virtual addresses

The bit packing of `virtmemory.rs`: `Pte`, `VA`, `SATP`, and the permission bits.
-/

namespace BareMetal

def PTE_R : Nat := 0b10
def PTE_W : Nat := 0b100
def PTE_X : Nat := 0b1000
def PTE_U : Nat := 0b10000

structure Pte where
  pa : Nat
  ppn : Nat
  ppn1 : Nat
  ppn0 : Nat
  rsw : Nat
  d : Bool
  a : Bool
  g : Bool
  u : Bool
  x : Bool
  w : Bool
  r : Bool
  v : Bool
  perm : Nat

namespace Pte

/-- `From<usize> for Pte`. -/
def fromUsize (pte : Nat) : Pte where
  pa := (pte &&& 0b11111111111111111111110000000000) <<< 2 % USIZE
  ppn := (pte &&& 0b11111111111111111111110000000000) >>> 10
  ppn1 := (pte &&& 0b11111111111100000000000000000000) >>> 20
  ppn0 := (pte &&& 0b00000000000011111111110000000000) >>> 10
  rsw := (pte &&& 0b00000000000000000000001100000000) >>> 8
  d := (pte &&& 0b00000000000000000000000010000000) ≥ 1
  a := (pte &&& 0b00000000000000000000000001000000) ≥ 1
  g := (pte &&& 0b00000000000000000000000000100000) ≥ 1
  u := (pte &&& 0b00000000000000000000000000010000) ≥ 1
  x := (pte &&& 0b00000000000000000000000000001000) ≥ 1
  w := (pte &&& 0b00000000000000000000000000000100) ≥ 1
  r := (pte &&& 0b00000000000000000000000000000010) ≥ 1
  v := (pte &&& 0b00000000000000000000000000000001) ≥ 1
  perm := pte &&& 0b11110

/-- `From<Pte> for usize`. -/
def intoUsize (val : Pte) : Nat :=
  val.ppn <<< 10 % USIZE
    ||| val.rsw <<< 8
    ||| val.d.toNat <<< 7
    ||| val.a.toNat <<< 6
    ||| val.g.toNat <<< 5
    ||| val.u.toNat <<< 4
    ||| val.x.toNat <<< 3
    ||| val.w.toNat <<< 2
    ||| val.r.toNat <<< 1
    ||| val.v.toNat

/-- The entry for a physical address, without permissions. -/
def fromAddr (pa : Nat) : Pte :=
  -- `!mask` for `mask = (1 << 12) - 1`
  fromUsize ((pa &&& 0b11111111111111111111000000000000) >>> 2)

end Pte

/-- `(pte.ppn << 12) as *mut usize`. -/
def Pte.table (pte : Pte) : Nat := pte.ppn <<< 12 % USIZE

structure VA where
  vpn1 : Nat
  vpn0 : Nat

/-- `From<usize> for VA`. -/
def VA.fromUsize (val : Nat) : VA where
  vpn1 := (val &&& 0b11111111110000000000000000000000) >>> 22
  vpn0 := (val &&& 0b00000000001111111111000000000000) >>> 12

def VA.vpn (va : VA) : Nat → Option Nat
  | 0 => some va.vpn0
  | 1 => some va.vpn1
  | _ => none

structure SATP where
  mode : Nat
  asid : Nat
  ppn : Nat

/-- `From<SATP> for usize`. -/
def SATP.intoUsize (val : SATP) : Nat :=
  val.mode <<< 31 % USIZE ||| val.asid <<< 22 % USIZE ||| val.ppn

end BareMetal
