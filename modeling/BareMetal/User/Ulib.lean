/-!
# The user library

`strcpy`, `atoi` and `itoa` of `ulib.c`. A `char` array is the list of its bytes; an access beyond
its end, a read of a byte that was never written and a signed overflow are undefined (`Undefined`).
A loop of the source that ends after a known number of rounds recurses on that number.
-/

namespace BareMetal

inductive Undefined
  | overflow
  | outOfBounds
  | uninitialized
  deriving DecidableEq

/-- A C expression or statement: its value, or what is undefined in it. -/
abbrev C (α : Type) : Type := Except Undefined α

namespace C

def INT_MAX : Int := 2147483647

/-- The value `x` of an expression of type `int`. -/
def int (x : Int) : C Int := if -INT_MAX - 1 ≤ x ∧ x ≤ INT_MAX then .ok x else .error .overflow

/-- `s[i]`. -/
def load {α : Type} (s : List α) (i : Int) : C α :=
  if 0 ≤ i then
    match s[i.toNat]? with
    | some x => .ok x
    | none => .error .outOfBounds
  else
    .error .outOfBounds

/-- `s[i] = x`. -/
def store {α : Type} (s : List α) (i : Int) (x : α) : C (List α) :=
  if 0 ≤ i ∧ i < s.length then .ok (s.set i.toNat x) else .error .outOfBounds

/-- The value of a variable, which may not have one. -/
def initialized {α : Type} : Option α → C α
  | some x => .ok x
  | none => .error .uninitialized

end C

/-- Conversion to `char`. -/
def char (x : Int) : UInt8 := UInt8.ofNat (x % 256).toNat

namespace Ulib

/-- `while ((*s++ = *t++) != 0)`, with `s` at index `i` of its array. -/
def strcpyLoop (s : List UInt8) (i : Int) : List UInt8 → C (List UInt8)
  | [] => .error .outOfBounds
  | ch :: t => do
    let s ← C.store s i ch
    if ch ≠ 0 then strcpyLoop s (i + 1) t else return s

def strcpy (s t : List UInt8) : C (List UInt8) := strcpyLoop s 0 t

/-- `while ('0' <= *s && *s <= '9')`. -/
def atoiLoop (n : Int) : List UInt8 → C Int
  | [] => .error .outOfBounds
  | ch :: s =>
    if 48 ≤ ch ∧ ch ≤ 57 then do
      -- `n * 10 + *s++ - '0'`, from left to right
      let n ← C.int (n * 10)
      let n ← C.int (n + ch.toNat)
      let n ← C.int (n - 48)
      atoiLoop n s
    else
      return n

def atoi (s : List UInt8) : C Int := atoiLoop 0 s

/-- `while (a > 0)`: `none` for `return -1`. -/
def itoaDigits (a : Int) (buff : List (Option UInt8)) (len : Int) :
    C (Option (List (Option UInt8) × Int)) :=
  if 0 < a then
    if 10 < len then
      return none
    else do
      let buff ← C.store buff len (some (char (48 + a.tmod 10)))
      let len ← C.int (len + 1)
      itoaDigits (a.tdiv 10) buff len
  else
    return some (buff, len)
termination_by a.toNat
decreasing_by
  rw [Int.tdiv_eq_ediv_of_nonneg (by omega)]
  omega

/-- The rounds of `for (int i = 0; i < len; i++)`, `n` of them left. -/
def itoaCopy (buff : List (Option UInt8)) (len : Int) : Nat → Int → List UInt8 → C (List UInt8)
  | 0, _, s => return s
  | n + 1, i, s => do
    let k ← C.int (len - i)
    let k ← C.int (k - 1)
    let s ← C.store s i (← C.initialized (← C.load buff k))
    let i ← C.int (i + 1)
    itoaCopy buff len n i s

def itoa (a : Int) (s : List UInt8) : C (Int × List UInt8) := do
  if a = 0 then
    -- "0"
    let s ← strcpy s [48, 0]
    return (1, s)
  else
    match ← itoaDigits a (List.replicate 10 none) 0 with
    | none => return (-1, s)
    | some (buff, len) =>
      let s ← itoaCopy buff len len.toNat 0 s
      let s ← C.store s len 0
      return (len, s)

end Ulib

end BareMetal
