import BareMetal.Kernel.Proof.Args
import BareMetal.Virt.Proof.Kinds

/-!
# The stack that `kexec` is to build

Where the arguments and the pointers to them go, in unbounded integers (`allPointers`,
`stackRanges`), and what the machine's arithmetic makes of it: the code goes on to its end when the
first pointer that misses the stack's page is not below address 0 (`stackDown_iff`), and puts
everything in place when no pointer misses the page and the first argument is not empty
(`stackFits_iff`). `kexecArgs_bytes`: it writes these ranges, in the stack's page.
-/

namespace BareMetal

open Lib

/-- The stack pointer below an argument, rounded down to a multiple of 8. -/
def pointerBelow (sp : Int) (arg : List UInt8) : Int := (sp - arg.length) / 8 * 8

/-- The stack pointers, one for each argument. -/
def stackPointers : Int → List (List UInt8) → List Int
  | _, [] => []
  | sp, arg :: argv => pointerBelow sp arg :: stackPointers (pointerBelow sp arg) argv

/-- The last of them, or the top of the stack. -/
def lastPointer : Int → List (List UInt8) → Int
  | sp, [] => sp
  | sp, arg :: argv => lastPointer (pointerBelow sp arg) argv

/-- The stack pointer below the array of pointers. -/
def finalPointer (top : Int) (argv : List (List UInt8)) : Int :=
  lastPointer top argv - 4 * (argv.length + 1)

def allPointers (top : Int) (argv : List (List UInt8)) : List Int :=
  stackPointers top argv ++ [finalPointer top argv]

/-- Every pointer is at or above the base of the stack's page. -/
def FitsStack (base : Nat) (argv : List (List UInt8)) : Prop :=
  ∀ p ∈ allPointers (base + PAGESIZE) argv, (base : Int) ≤ p

/-- The first pointer that misses the page is not below address 0. -/
def NoUnderflow (base : Nat) (argv : List (List UInt8)) : Prop :=
  ∀ p, (allPointers (base + PAGESIZE) argv).find? (· < (base : Int)) = some p → 0 ≤ p

/-- Where the strings go. -/
def stringRanges : Int → List (List UInt8) → List (Int × Int)
  | _, [] => []
  | sp, arg :: argv => (pointerBelow sp arg, pointerBelow sp arg + arg.length) ::
      stringRanges (pointerBelow sp arg) argv

/-- Where the strings and the array of pointers go. -/
def stackRanges (top : Int) (argv : List (List UInt8)) : List (Int × Int) :=
  stringRanges top argv ++ [(finalPointer top argv, finalPointer top argv + 4 * (argv.length + 1))]

/-- No address is in both ranges. -/
def Apart (r r' : Int × Int) : Prop := ∀ x, r.1 ≤ x ∧ x < r.2 → ¬ (r'.1 ≤ x ∧ x < r'.2)

/-! ## The ranges are apart -/

theorem pointerBelow_le (sp : Int) (arg : List UInt8) :
    pointerBelow sp arg + arg.length ≤ sp := by
  unfold pointerBelow
  omega

theorem stringRanges_bounds {argv : List (List UInt8)} : ∀ {sp : Int},
    lastPointer sp argv ≤ sp ∧ ∀ r ∈ stringRanges sp argv, lastPointer sp argv ≤ r.1 ∧ r.2 ≤ sp := by
  induction argv with
  | nil => exact fun {sp} => ⟨le_refl sp, fun r hr => (List.not_mem_nil hr).elim⟩
  | cons arg argv ih =>
    intro sp
    obtain ⟨h1, h2⟩ := @ih (pointerBelow sp arg)
    have h3 := pointerBelow_le sp arg
    have h4 : (0 : Int) ≤ arg.length := Int.natCast_nonneg _
    refine ⟨h1.trans (by omega), fun r hr => ?_⟩
    rcases List.mem_cons.1 hr with rfl | hr
    · exact ⟨h1, h3⟩
    · obtain ⟨h5, h6⟩ := h2 r hr
      exact ⟨h5, by omega⟩

/-- No two of the ranges meet. -/
theorem stackRanges_apart (top : Int) (argv : List (List UInt8)) :
    (stackRanges top argv).Pairwise Apart := by
  have hdisj : ∀ {r r' : Int × Int}, r'.2 ≤ r.1 → Apart r r' := by
    intro r r' h x hx hx'
    omega
  have hstr : ∀ sp, (stringRanges sp argv).Pairwise fun r r' => r'.2 ≤ r.1 := by
    induction argv with
    | nil => exact fun _ => .nil
    | cons arg argv ih =>
      exact fun sp => List.pairwise_cons.2 ⟨fun r hr => (stringRanges_bounds.2 r hr).2, ih _⟩
  refine List.pairwise_append.2 ⟨(hstr top).imp hdisj, List.pairwise_singleton _ _, ?_⟩
  intro r hr r' hr'
  rw [List.mem_singleton.1 hr']
  have := (stringRanges_bounds.2 r hr).1
  refine hdisj ?_
  dsimp only [finalPointer]
  omega

/-! ## The machine's arithmetic -/

section
variable {base sp : Nat} {arg : List UInt8} {argv : List (List UInt8)}

theorem argSp_cast (h : arg.length ≤ sp) : (argSp sp arg : Int) = pointerBelow sp arg := by
  unfold argSp pointerBelow
  omega

/-- A pointer that is in the page has not wrapped. -/
theorem length_le_of_pointer (h : 0 ≤ pointerBelow sp arg) : arg.length ≤ sp := by
  unfold pointerBelow at h
  omega

theorem ArgsFit.pointers : ∀ {sp : Nat} {argv : List (List UInt8)}, ArgsFit base sp argv →
    (∀ p ∈ stackPointers sp argv, (base : Int) ≤ p) ∧ (argsEnd sp argv : Int) = lastPointer sp argv
  | _, [], _ => ⟨fun p hp => (List.not_mem_nil hp).elim, rfl⟩
  | sp, arg :: argv, h => by
    obtain ⟨h1, h2⟩ := h.2.2.2.pointers
    have he := argSp_cast h.1
    have hb := h.2.1
    rw [he] at h1 h2
    refine ⟨fun p hp => ?_, h2⟩
    rcases List.mem_cons.1 hp with rfl | hp
    · rw [← he]
      omega
    · exact h1 p hp

/-- Below the top of the page every argument that is in the page is written there. -/
theorem argsFit_of_pointers : ∀ {sp : Nat} {argv : List (List UInt8)}, sp < base + PAGESIZE →
    (∀ p ∈ stackPointers sp argv, (base : Int) ≤ p) → ArgsFit base sp argv
  | _, [], _, _ => trivial
  | sp, arg :: argv, hsp, h => by
    have hp := h _ List.mem_cons_self
    have hle : arg.length ≤ sp := length_le_of_pointer (by omega)
    have he := argSp_cast hle
    have hlt := (argSp_bounds hle).2.1
    refine ⟨hle, by omega, by omega, argsFit_of_pointers (by omega) fun p hp => ?_⟩
    rw [he] at hp
    exact h p (List.mem_cons_of_mem _ hp)

/-- An argument at the top of the page is empty. -/
theorem argSp_top (hb : base % PAGESIZE = 0) (h : arg.length ≤ base + PAGESIZE) :
    argSp (base + PAGESIZE) arg < base + PAGESIZE ↔ arg ≠ [] := by
  rw [PAGESIZE_eq] at *
  rw [ne_eq, ← List.length_eq_zero_iff]
  unfold argSp
  omega

/-- Which arguments the code puts in the page. -/
theorem argsFit_iff (hb : base % PAGESIZE = 0) : ArgsFit base (base + PAGESIZE) argv ↔
    (∀ p ∈ stackPointers (base + PAGESIZE) argv, (base : Int) ≤ p) ∧ argv.head? ≠ some [] := by
  constructor
  · intro h
    refine ⟨fun p hp => h.pointers.1 p (by exact_mod_cast hp), fun hh => ?_⟩
    cases argv with
    | nil => cases hh
    | cons arg argv =>
      obtain rfl : arg = [] := Option.some.inj hh
      exact absurd rfl ((argSp_top hb h.1).1 h.2.2.1)
  · rintro ⟨hptr, hh⟩
    cases argv with
    | nil => trivial
    | cons arg argv =>
      have hp := hptr _ List.mem_cons_self
      have hle : arg.length ≤ base + PAGESIZE := length_le_of_pointer (by push_cast; omega)
      have he := argSp_cast hle
      push_cast at he
      have hlt := (argSp_top hb hle).2 fun h => hh (by rw [h]; rfl)
      refine ⟨hle, by omega, hlt, argsFit_of_pointers hlt fun p hp => ?_⟩
      rw [he] at hp
      exact hptr p (List.mem_cons_of_mem _ hp)

theorem ArgsFit.final (h : ArgsFit base (base + PAGESIZE) argv) :
    (argsEnd (base + PAGESIZE) argv : Int) =
      finalPointer (base + PAGESIZE) argv + (ustack (base + PAGESIZE) argv).length * 4 := by
  have := h.pointers.2
  rw [ustack_length, finalPointer]
  push_cast at this ⊢
  omega

/-- What the code puts in place. -/
theorem stackFits_iff (hb : base % PAGESIZE = 0) :
    StackFits base argv ↔ FitsStack base argv ∧ argv.head? ≠ some [] := by
  constructor
  · rintro ⟨hf, hw, hl⟩
    obtain ⟨h1, h2⟩ := (argsFit_iff hb).1 hf
    have hfin := hf.final
    refine ⟨fun p hp => ?_, h2⟩
    rcases List.mem_append.1 hp with hp | hp
    · exact h1 p hp
    · rw [List.mem_singleton.1 hp]
      unfold execSp at hl
      omega
  · rintro ⟨hf, hh⟩
    have hfit := (argsFit_iff hb).2 ⟨fun p hp => hf p (List.mem_append_left _ hp), hh⟩
    have hlast := hf _ (List.mem_append_right _ (List.mem_singleton_self _))
    have hfin := hfit.final
    refine ⟨hfit, by omega, ?_⟩
    unfold execSp
    omega

/-- Where the code goes on through the arguments. -/
theorem argsDown_iff : ∀ {sp : Nat} {argv : List (List UInt8)},
    (∀ arg, argv.head? = some arg → arg.length ≤ sp → argSp sp arg < base + PAGESIZE) →
    (ArgsDown base sp argv ↔ ∀ p, (stackPointers sp argv).find? (· < (base : Int)) = some p → 0 ≤ p)
  | _, [], _ => iff_of_true trivial fun p hp => by cases hp
  | sp, arg :: argv, h => by
    rw [stackPointers, List.find?_cons]
    by_cases hlow : pointerBelow sp arg < base
    · -- the argument misses the page
      rw [decide_eq_true hlow]
      constructor
      · rintro hd p hp
        have he := argSp_cast hd.1
        obtain rfl := Option.some.inj hp
        omega
      · intro hp
        have hle := length_le_of_pointer (hp _ rfl)
        have he := argSp_cast hle
        exact ⟨hle, fun hb => by omega⟩
    · rw [decide_eq_false hlow]
      have hle : arg.length ≤ sp := length_le_of_pointer (by omega)
      have he := argSp_cast hle
      have hlt := h arg rfl hle
      have ih : ArgsDown base (argSp sp arg) argv ↔ _ := argsDown_iff fun arg' _ hle' => by
        have := (argSp_bounds hle').2.1
        omega
      rw [he] at ih
      dsimp only
      rw [← ih]
      exact ⟨fun hd => hd.2 (by omega) hlt, fun hd => ⟨hle, fun _ _ => hd⟩⟩

/-- Where the code goes on to its end. -/
theorem stackDown_iff (hb : base % PAGESIZE = 0) :
    StackDown base argv ↔ (argv.head? ≠ some [] → NoUnderflow base argv) := by
  by_cases hh : argv.head? = some []
  · -- the first argument is to be written above the page
    refine iff_of_true ⟨?_, fun hf => absurd hh ((argsFit_iff hb).1 hf).2⟩ fun h => absurd hh h
    cases argv with
    | nil => cases hh
    | cons arg argv =>
      obtain rfl : arg = [] := Option.some.inj hh
      have htop : argSp (base + PAGESIZE) [] < base + PAGESIZE ↔ ([] : List UInt8) ≠ [] :=
        argSp_top hb (Nat.zero_le _)
      exact ⟨Nat.zero_le _, fun _ hlt => absurd rfl (htop.1 hlt)⟩
  have hfirst : ∀ arg, argv.head? = some arg → arg.length ≤ base + PAGESIZE →
      argSp (base + PAGESIZE) arg < base + PAGESIZE := fun arg ha hle =>
    (argSp_top hb hle).2 fun he => hh (by rw [ha, he])
  have hdown := argsDown_iff hfirst
  push_cast at hdown
  have hnone : (stackPointers (base + PAGESIZE) argv).find? (· < (base : Int)) = none ↔
      ∀ p ∈ stackPointers (base + PAGESIZE) argv, (base : Int) ≤ p := by
    rw [List.find?_eq_none]
    simp only [decide_eq_true_eq, not_lt]
  unfold NoUnderflow allPointers
  rw [List.find?_append]
  constructor
  · rintro ⟨hd, hw⟩ - p hp
    cases hf : (stackPointers (base + PAGESIZE) argv).find? (· < (base : Int)) with
    | some q =>
      rw [hf] at hp
      obtain rfl := Option.some.inj hp
      exact hdown.1 hd q hf
    | none =>
      have hfit := (argsFit_iff hb).2 ⟨hnone.1 hf, hh⟩
      have hfin := hfit.final
      have hwrap := hw hfit
      rw [hf, Option.none_or] at hp
      have hp := List.mem_singleton.1 (List.mem_of_find?_eq_some hp)
      omega
  · intro h
    have h := h hh
    refine ⟨hdown.2 fun p hp => h p (by rw [hp, Option.some_or]), fun hfit => ?_⟩
    have hfin := hfit.final
    by_cases hlow : finalPointer (base + PAGESIZE) argv < base
    · have := h (finalPointer (base + PAGESIZE) argv) (by
        rw [hnone.2 ((argsFit_iff hb).1 hfit).1, Option.none_or, List.find?_cons,
          decide_eq_true hlow])
      omega
    · omega

end

/-- The arguments' lengths in units of 8 bytes, each rounded up. -/
def argUnits (argv : List (List UInt8)) : Nat := (argv.map fun arg => (arg.length + 7) / 8).sum

/-- Every argument takes whole units. -/
theorem ArgsFit.units {base : Nat} : ∀ {sp : Nat} {argv : List (List UInt8)}, sp % 8 = 0 →
    ArgsFit base sp argv → argsEnd sp argv + 8 * argUnits argv = sp
  | _, [], _, _ => rfl
  | sp, arg :: argv, h8, h => by
    have ih := ArgsFit.units (argSp_bounds h.1).1 h.2.2.2
    have hsp : argSp sp arg + 8 * ((arg.length + 7) / 8) = sp := by
      have := h.1
      unfold argSp
      omega
    rw [argsEnd, argUnits, List.map_cons, List.sum_cons, ← argUnits]
    omega

/-- Where the stack pointer ends up, modulo 16. -/
theorem StackFits.sp_mod {base : Nat} {argv : List (List UInt8)} (hb : base % PAGESIZE = 0)
    (h : StackFits base argv) : execSp (base + PAGESIZE) argv % 16 = 0 ↔
      (2 * argUnits argv + argv.length + 1) % 4 = 0 := by
  have hw := h.wrap
  have htop : (base + PAGESIZE) % 16 = 0 := by
    rw [PAGESIZE_eq] at *
    omega
  have hu := h.args.units (by omega)
  unfold execSp
  rw [ustack_length] at *
  omega

/-! ## Which bytes the code writes -/

theorem kexecLoad_only {P : MemOp → Prop} (h : TableOps P) (ha : P .alloc) (hd : ∀ f, P (.dealloc f))
    (hc : ∀ src dst n, P (.copy src dst n)) (c : Cfg) (u : Uvm) (tf : Nat) (img : Slice) :
    (kexecLoad c u tf img).Only P := by
  refine Free.only_bind (Uvm.initProc_only h ha c u tf) fun r => ?_
  cases r with
  | error e => trivial
  | ok a =>
    refine Free.only_bind (Uvm.alloc_only h ha hd _ _ _) fun q => ?_
    obtain ⟨r, u⟩ := q
    cases r with
    | error e => trivial
    | ok a =>
      refine Free.only_bind (Uvm.load_only h hc _ _ _) fun r => ?_
      cases r with
      | error e => trivial
      | ok a =>
        refine Free.only_bind (Uvm.grow_only h ha hd _ _ _) fun q => ?_
        obtain ⟨r, u⟩ := q
        refine Free.only_bind (M.unwrapOk_only h r) fun _ => ?_
        refine Free.only_bind (Uvm.grow_only h ha hd _ _ _) fun q => ?_
        obtain ⟨r, u⟩ := q
        exact Free.only_bind (M.unwrapOk_only h r) fun _ => trivial

/-- A byte of one of the ranges, in the stack's page, which is frame `f`. -/
def InStack (base f : Nat) (rs : List (Int × Int)) (a : Nat) : Prop :=
  ∃ r ∈ rs, ∃ x : Nat, r.1 ≤ x ∧ (x : Int) < r.2 ∧ base ≤ x ∧ x < base + PAGESIZE ∧ a = f + (x - base)

/-- The bytes that the run writes one by one satisfy `P`. -/
def Bytewise (P : Nat → Prop) (tr : List (MemOp × Phys)) : Prop :=
  ∀ x ∈ tr, ∀ a b, x.1 = .writeByte a b → P a

namespace Bytewise

variable {P Q : Nat → Prop} {tr tr' : List (MemOp × Phys)}

theorem nil : Bytewise P [] := fun _ hx => (List.not_mem_nil hx).elim

theorem append (h : Bytewise P tr) (h' : Bytewise P tr') : Bytewise P (tr ++ tr') := by
  intro x hx
  rcases List.mem_append.1 hx with hx | hx
  · exact h x hx
  · exact h' x hx

theorem mono (h : Bytewise P tr) (hQ : ∀ a, P a → Q a) : Bytewise Q tr :=
  fun x hx a b he => hQ a (h x hx a b he)

/-- Code that writes no bytes. -/
theorem of_only {α : Type} {c : Cfg} {p : M α} {s s' : Phys} {r : α}
    (h : M.Ends c p s tr r s') (hp : p.Only MemOp.NoByte) : Bytewise P tr := by
  intro x hx a b he
  have := h.only hp x hx
  rw [he] at this
  exact this.elim

end Bytewise

section
variable {c : Cfg} {s s' : Phys} {tr : List (MemOp × Phys)} {total : Finset Nat} {m₀ : Bytes}
  {v : View} {u : Uvm} {tab : Nat → Option Nat} {f base : Nat}

theorem writeAll_bytes {data : List UInt8} {r : Unit} : ∀ {a : Nat} {s : Phys}
    {tr : List (MemOp × Phys)}, M.Ends c (writeAll a data) s tr r s' →
    Bytewise (fun x => ∃ i < data.length, x = a + i) tr := by
  induction data with
  | nil =>
    intro a s tr h
    obtain ⟨-, -, rfl⟩ := h.ret_inv
    exact .nil
  | cons b data ih =>
    intro a s tr h
    unfold writeAll at h
    obtain ⟨_, s₁, tr₁, tr₂, h1, h2, rfl⟩ := h.bind
    refine .append (fun x hx a' b' he => ?_) ((ih h2).mono ?_)
    · cases h1 with
      | op _ hk =>
        obtain ⟨-, -, rfl⟩ := hk.ret_inv
        rw [List.mem_singleton.1 hx] at he
        cases he
        exact ⟨0, Nat.succ_pos _, rfl⟩
    · rintro x ⟨i, hi, rfl⟩
      exact ⟨i + 1, Nat.succ_lt_succ hi, by omega⟩

/-- `copy_out_cont` writes the bytes from where `walkaddr` leads. -/
theorem copyOutCont_bytes {va : Nat} {data : List UInt8} {r : Except Unit Unit} {o : Option Nat}
    (hof : v.Of c total m₀ s) (h : M.Ends c (copyOutCont u va data) s tr r s')
    (hw : M.wp (alone c True) (u.pagetable.walkaddr va) (fun a _ => a = o) v) :
    Bytewise (fun x => ∃ a, o = some a ∧ ∃ i < data.length, x = a + i) tr := by
  unfold copyOutCont at h
  obtain ⟨a, s₁, tr₁, tr₂, h1, h2, rfl⟩ := h.bind
  obtain ⟨-, v', -, rfl⟩ := M.ends_wp (E := alone c True) rfl (alone_oom c True total) hof hw h1
  refine .append (.of_only h1 (PageTable.walkaddr_only tableOps_noByte _ _)) ?_
  cases a with
  | none =>
    obtain ⟨-, -, rfl⟩ := h2.ret_inv
    exact .nil
  | some a =>
    obtain ⟨_, s₂, tr₃, tr₄, h3, h4, rfl⟩ := h2.bind
    obtain ⟨-, -, rfl⟩ := h4.ret_inv
    exact ((writeAll_bytes h3).mono fun x hx => ⟨a, rfl, hx⟩).append .nil

/-- A range of the stack's page, written from its frame. -/
theorem copyOut_stack_bytes {o : Nat} {data : List UInt8} {r : Except Unit Unit}
    (hof : v.Of c total m₀ s) (hs : StackAt c v u tab f base) (ho : o < PAGESIZE)
    (hfit : o + data.length ≤ PAGESIZE) (h : M.Ends c (copyOutCont u (base + o) data) s tr r s') :
    Bytewise (InStack base f [((base + o : Nat), (base + o + data.length : Nat))]) tr := by
  refine (copyOutCont_bytes hof h (wp_walkaddr_stack (E := alone c True) hs ho rfl)).mono ?_
  rintro x ⟨a, ha, i, hi, rfl⟩
  obtain rfl := Option.some.inj ha
  refine ⟨_, List.mem_singleton_self _, base + o + i, ?_⟩
  dsimp only
  omega

theorem sub_inv {a b r : Nat} (h : M.Ends c (M.sub a b) s tr r s') :
    b ≤ a ∧ r = a - b ∧ s' = s ∧ tr = [] := by
  unfold M.sub at h
  split at h
  · next hle =>
    obtain ⟨rfl, rfl, rfl⟩ := h.ret_inv
    exact ⟨hle, rfl, rfl, rfl⟩
  · cases h with
    | op hx _ => cases hx

theorem InStack.mono {rs rs' : List (Int × Int)} {a : Nat} (h : InStack base f rs a)
    (hr : ∀ r ∈ rs, r ∈ rs') : InStack base f rs' a := by
  obtain ⟨r, hm, h⟩ := h
  exact ⟨r, hr r hm, h⟩

/-- **The strings** are written to their ranges. -/
theorem copyArgs_bytes {argv : List (List UInt8)} :
    ∀ {v : View} {s s' : Phys} {sp : Nat} {tr : List (MemOp × Phys)}
    {r : Except Unit (List Nat × Nat)}, v.Of c total m₀ s → StackAt c v u tab f base →
    sp ≤ base + PAGESIZE → M.Ends c (copyArgs u base argv sp) s tr r s' →
    Bytewise (InStack base f (stringRanges sp argv)) tr := by
  induction argv with
  | nil =>
    intro v s s' sp tr r _ _ _ h
    obtain ⟨-, -, rfl⟩ := h.ret_inv
    exact .nil
  | cons arg argv ih =>
    intro v s s' sp tr r hof hs hsp h
    unfold copyArgs at h
    obtain ⟨sp', s₁, tr₁, tr₂, h1, h2, rfl⟩ := h.bind
    obtain ⟨hle, rfl, rfl, rfl⟩ := sub_inv h1
    have hcast := argSp_cast hle
    have hend := (argSp_bounds hle).2.1
    dsimp only at h2
    rw [show (sp - arg.length) / 8 * 8 = argSp sp arg from rfl] at h2
    refine .append .nil ?_
    by_cases hlow : argSp sp arg < base
    · rw [if_pos hlow] at h2
      obtain ⟨-, -, rfl⟩ := h2.ret_inv
      exact .nil
    rw [if_neg hlow] at h2
    obtain ⟨res, s₂, tr₃, tr₄, h3, h4, rfl⟩ := h2.bind
    by_cases hhigh : argSp sp arg < base + PAGESIZE
    · obtain ⟨o, ho⟩ : ∃ o, argSp sp arg = base + o := ⟨argSp sp arg - base, by omega⟩
      rw [ho] at h3
      have hother : ∀ a, pageOf a ≠ f → putAll v.mem (f + o) arg a = v.mem a := fun a ha =>
        putAll_ne fun i hi he => ha (by
          rw [he, Nat.add_assoc]
          exact pageOf_eq_of hs.frame.page (by omega))
      obtain ⟨-, v', hof', rfl, rfl⟩ := M.ends_wp (E := alone c True) rfl (alone_oom c True total) hof
        (wp_copyOut_stack (E := alone c True) hs (by omega) (by omega)
          (Q := fun r v' => r = .ok () ∧ v' = { v with mem := putAll v.mem (f + o) arg })
          ⟨rfl, rfl⟩) h3
      have hbytes := copyOut_stack_bytes hof hs (by omega) (by omega) h3
      refine .append (hbytes.mono fun a ha => ha.mono fun r hr => ?_) ?_
      · rw [List.mem_singleton.1 hr, ← ho, Nat.cast_add, hcast]
        exact List.mem_cons_self
      · obtain ⟨r₂, s₃, tr₅, tr₆, h5, h6, rfl⟩ := h4.bind
        refine .append ((ih hof' (hs.write hother) (by omega) h5).mono fun a ha =>
          ha.mono fun r hr => ?_) ?_
        · rw [hcast] at hr
          exact List.mem_cons_of_mem _ hr
        · rcases r₂ with e | ⟨q, sp'⟩
          · obtain ⟨-, -, rfl⟩ := h6.ret_inv
            exact .nil
          · obtain ⟨-, -, rfl⟩ := h6.ret_inv
            exact .nil
    · -- nothing is mapped above the page
      have he : argSp sp arg = base + PAGESIZE := by omega
      rw [he] at h3
      obtain ⟨-, v', -, rfl⟩ := M.ends_wp (E := alone c True) rfl (alone_oom c True total) hof
        (wp_copyOut_above (E := alone c True) hs arg (Q := fun r _ => r = .error ()) rfl) h3
      obtain ⟨-, -, rfl⟩ := h4.ret_inv
      refine .append ((copyOutCont_bytes hof h3
        (wp_walkaddr_above (E := alone c True) hs rfl)).mono ?_) .nil
      rintro x ⟨a, ha, -⟩
      cases ha

/-- **The arguments**: the strings and the array of pointers are written to their ranges. -/
theorem kexecArgs_bytes {argv : List (List UInt8)} {r : Except Unit Nat} (hof : v.Of c total m₀ s)
    (hs : StackAt c v u tab f base) (hu : u.begin + u.size = base + PAGESIZE)
    (h : M.Ends c (kexecArgs u argv) s tr r s') :
    Bytewise (InStack base f (stackRanges (base + PAGESIZE) argv)) tr := by
  have hlt := hs.lt
  unfold kexecArgs Uvm.end at h
  obtain ⟨sp, s₁, tr₁, tr₂, h1, h2, rfl⟩ := h.bind
  rw [M.add, hu, if_pos hlt] at h1
  obtain ⟨rfl, rfl, rfl⟩ := h1.ret_inv
  obtain ⟨b, s₂, tr₃, tr₄, h3, h4, rfl⟩ := h2.bind
  obtain ⟨-, rfl, rfl, rfl⟩ := sub_inv h3
  rw [Nat.add_sub_cancel] at h4
  obtain ⟨res, s₃, tr₅, tr₆, h5, h6, rfl⟩ := h4.bind
  obtain ⟨-, v', hof', hres⟩ := M.ends_wp (E := alone c True) rfl (alone_oom c True total) hof
    (wp_copyArgs (E := alone c True) argv hs (Nat.le_refl _) (.inr trivial)
      (Q := fun r v' => ∀ x, r = .ok x → ArgsFit base (base + PAGESIZE) argv ∧
        x = (argsSp (base + PAGESIZE) argv, argsEnd (base + PAGESIZE) argv) ∧
        StackAt c v' u tab f base)
      (fun m hf hm _ x hx => by
        cases hx
        exact ⟨hf, rfl, hs.write hm⟩)
      fun m _ _ _ x hx => by cases hx) h5
  have hstr := copyArgs_bytes hof hs (Nat.le_refl _) h5
  refine .append .nil (.append .nil (.append (hstr.mono fun a ha => ha.mono fun r hr => ?_) ?_))
  · exact List.mem_append_left _ (by exact_mod_cast hr)
  cases res with
  | error e =>
    obtain ⟨-, -, rfl⟩ := h6.ret_inv
    exact .nil
  | ok x =>
    obtain ⟨hf, rfl, hs'⟩ := hres x rfl
    dsimp only at h6
    rw [show argsSp (base + PAGESIZE) argv ++ [0] = ustack (base + PAGESIZE) argv from rfl] at h6
    obtain ⟨sp, s₄, tr₇, tr₈, h7, h8, rfl⟩ := h6.bind
    obtain ⟨hle, rfl, rfl, rfl⟩ := sub_inv h7
    rw [show argsEnd (base + PAGESIZE) argv - (ustack (base + PAGESIZE) argv).length * 4 =
      execSp (base + PAGESIZE) argv from rfl] at h8
    have hsp : execSp (base + PAGESIZE) argv + (ustack (base + PAGESIZE) argv).length * 4 =
        argsEnd (base + PAGESIZE) argv := Nat.sub_add_cancel hle
    have hfin := hf.final
    have hend := argsEnd_le hf.noWrap
    have hlen := flatMap_leBytes_length (ustack (base + PAGESIZE) argv)
    have hpos := ustack_length (base + PAGESIZE) argv
    refine .append .nil ?_
    by_cases hlow : execSp (base + PAGESIZE) argv < base
    · rw [if_pos hlow] at h8
      obtain ⟨-, -, rfl⟩ := h8.ret_inv
      exact .nil
    rw [if_neg hlow] at h8
    obtain ⟨o, ho⟩ : ∃ o, execSp (base + PAGESIZE) argv = base + o :=
      ⟨execSp (base + PAGESIZE) argv - base, by omega⟩
    obtain ⟨res, s₅, tr₉, tr₁₀, h9, h10, rfl⟩ := h8.bind
    rw [ho] at h9
    have hbytes := copyOut_stack_bytes hof' hs' (by omega) (by rw [hlen]; omega) h9
    refine .append (hbytes.mono fun a ha => ha.mono fun r hr => ?_) ?_
    · rw [List.mem_singleton.1 hr, hlen, hpos]
      refine List.mem_append_right _ (List.mem_singleton.2 (Prod.ext ?_ ?_))
      · dsimp only
        omega
      · dsimp only
        omega
    · cases res with
      | error e =>
        obtain ⟨-, -, rfl⟩ := h10.ret_inv
        exact .nil
      | ok e =>
        obtain ⟨-, -, rfl⟩ := h10.ret_inv
        exact .nil

end

end BareMetal
