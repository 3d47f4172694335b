import BareMetal.Kernel.Proof.Load
import BareMetal.Virt.Proof.CopyOut

/-!
# Arguments on the new stack

`stackByte argv top x`: the byte that `kexec` writes at address `x` of a stack that ends at `top`,
if it writes one. `wp_kexecArgs`: the stack holds these bytes, and what it held before elsewhere.
-/

namespace BareMetal

open Lib

/-- Where an argument goes when the stack pointer is `sp`. -/
def argSp (sp : Nat) (arg : List UInt8) : Nat := (sp - arg.length) / 8 * 8

/-- Where the arguments go. -/
def argsSp : Nat → List (List UInt8) → List Nat
  | _, [] => []
  | sp, arg :: argv => argSp sp arg :: argsSp (argSp sp arg) argv

/-- The stack pointer below the arguments. -/
def argsEnd : Nat → List (List UInt8) → Nat
  | sp, [] => sp
  | sp, arg :: argv => argsEnd (argSp sp arg) argv

/-- No argument reaches below address 0. -/
def NoWrap : Nat → List (List UInt8) → Prop
  | _, [] => True
  | sp, arg :: argv => arg.length ≤ sp ∧ NoWrap (argSp sp arg) argv

/-- Each argument lies in the stack's page, from its first byte on. -/
def ArgsFit (base : Nat) : Nat → List (List UInt8) → Prop
  | _, [] => True
  | sp, arg :: argv => arg.length ≤ sp ∧ base ≤ argSp sp arg ∧ argSp sp arg < base + PAGESIZE ∧
      ArgsFit base (argSp sp arg) argv

/-- No argument reaches below address 0 before one misses the page. -/
def ArgsDown (base : Nat) : Nat → List (List UInt8) → Prop
  | _, [] => True
  | sp, arg :: argv => arg.length ≤ sp ∧ (base ≤ argSp sp arg → argSp sp arg < base + PAGESIZE →
      ArgsDown base (argSp sp arg) argv)

/-- The byte of the arguments at address `x`. -/
def argByte : Nat → List (List UInt8) → Nat → Option UInt8
  | _, [], _ => none
  | sp, arg :: argv, x =>
    if argSp sp arg ≤ x ∧ x < argSp sp arg + arg.length then arg[x - argSp sp arg]?
    else argByte (argSp sp arg) argv x

/-- The pointers, with the null pointer that ends them. -/
def ustack (top : Nat) (argv : List (List UInt8)) : List Nat := argsSp top argv ++ [0]

/-- The stack pointer for the new program. -/
def execSp (top : Nat) (argv : List (List UInt8)) : Nat :=
  argsEnd top argv - (ustack top argv).length * 4

/-- The byte that `kexec` writes at address `x` of the stack. -/
def stackByte (top : Nat) (argv : List (List UInt8)) (x : Nat) : Option UInt8 :=
  if execSp top argv ≤ x ∧ x < argsEnd top argv then
    ((ustack top argv).flatMap leBytes)[x - execSp top argv]?
  else argByte top argv x

/-! ## Where the arguments lie -/

section
variable {base sp x : Nat} {arg : List UInt8} {argv : List (List UInt8)}

/-- An argument ends at most seven bytes below the stack pointer. -/
theorem argSp_bounds (h : arg.length ≤ sp) :
    argSp sp arg % 8 = 0 ∧ argSp sp arg + arg.length ≤ sp ∧ sp < argSp sp arg + arg.length + 8 := by
  unfold argSp
  omega

theorem argsSp_length (argv : List (List UInt8)) : ∀ sp, (argsSp sp argv).length = argv.length := by
  induction argv with
  | nil => exact fun _ => rfl
  | cons arg argv ih =>
    intro sp
    rw [argsSp, List.length_cons, List.length_cons, ih]

theorem ustack_length (top : Nat) (argv : List (List UInt8)) :
    (ustack top argv).length = argv.length + 1 := by
  unfold ustack
  rw [List.length_append, argsSp_length]
  rfl

theorem ArgsFit.noWrap : ∀ {sp : Nat} {argv : List (List UInt8)}, ArgsFit base sp argv → NoWrap sp argv
  | _, [], _ => trivial
  | _, _ :: _, h => ⟨h.1, h.2.2.2.noWrap⟩

theorem ArgsFit.down : ∀ {sp : Nat} {argv : List (List UInt8)}, ArgsFit base sp argv →
    ArgsDown base sp argv
  | _, [], _ => trivial
  | _, _ :: _, h => ⟨h.1, fun _ _ => h.2.2.2.down⟩

theorem argsEnd_le : ∀ {sp : Nat} {argv : List (List UInt8)}, NoWrap sp argv → argsEnd sp argv ≤ sp
  | _, [], _ => Nat.le_refl _
  | sp, arg :: argv, h => by
    have h1 := (argSp_bounds h.1).2.1
    have h2 := argsEnd_le h.2
    rw [argsEnd]
    omega

theorem argsSp_le : ∀ {sp p : Nat} {argv : List (List UInt8)}, p ∈ argsSp sp argv → p ≤ sp
  | sp, p, arg :: argv, h => by
    have h1 : argSp sp arg ≤ sp := by
      unfold argSp
      omega
    rcases List.mem_cons.1 h with rfl | h
    · exact h1
    · exact (argsSp_le h).trans h1

/-- The arguments lie between the last stack pointer and the first. -/
theorem argByte_none : ∀ {sp : Nat} {argv : List (List UInt8)}, NoWrap sp argv →
    (x < argsEnd sp argv ∨ sp ≤ x) → argByte sp argv x = none
  | _, [], _, _ => rfl
  | sp, arg :: argv, h, hx => by
    have h1 := (argSp_bounds h.1).2.1
    have h2 := argsEnd_le h.2
    rw [argsEnd] at hx
    rw [argByte, if_neg (by omega)]
    exact argByte_none h.2 (by omega)

end

/-! ## The code -/

/-- The address space `u` has its stack at `base`, in the frame `f`, and nothing above it. -/
structure StackAt (c : Cfg) (v : View) (u : Uvm) (tab : Nat → Option Nat) (f base : Nat) : Prop where
  space : Space c v u tab
  page : base % PAGESIZE = 0
  lt : base + PAGESIZE < USIZE
  entry : pte v.mem tab (pageNo base) = leafWord f STACK_PERM
  frame : c.IsFrame f
  above : pte v.mem tab (pageNo base + 1) = 0

section
variable {E : Mode} {v : View} {u : Uvm} {tab : Nat → Option Nat} {f base : Nat}

theorem StackAt.maps {c : Cfg} (h : StackAt c v u tab f base) :
    Maps (pte v.mem tab (pageNo base)) f := by
  rw [h.entry]
  exact maps_leafWord h.frame.aligned stack_perm.1 stack_perm.2

/-- Memory changed in the stack. -/
theorem StackAt.write {c : Cfg} (h : StackAt c v u tab f base) {m : Bytes}
    (hm : ∀ a, pageOf a ≠ f → m a = v.mem a) : StackAt c { v with mem := m } u tab f base := by
  have hft := (h.space.user _ _ h.maps).2
  have ht : ∀ a, Tree.Has u.pagetable.root tab (pageOf a) → m a = v.mem a := fun a ha =>
    hm a fun he => hft (he ▸ ha)
  have he := h.space.tree.pte_congr ht
  exact ⟨h.space.congr (fun _ hf => hf) ht, h.page, h.lt, (he _).trans h.entry, h.frame,
    (he _).trans h.above⟩

/-- `walkaddr` in the stack. -/
theorem wp_walkaddr_stack (h : StackAt E.cfg v u tab f base) {o : Nat} (ho : o < PAGESIZE)
    {Q : Option Nat → View → Prop} (hok : Q (some (f + o)) v) :
    M.wp E (u.pagetable.walkaddr (base + o)) Q v := by
  have hp := h.page
  have hl := h.lt
  have hmod : (base + o) % PAGESIZE = o := by
    rw [Nat.add_mod, hp, Nat.zero_add, Nat.mod_mod, Nat.mod_eq_of_lt ho]
  have hpn : pageNo (base + o) = pageNo base := by
    unfold pageNo
    rw [PAGESIZE_eq] at *
    omega
  have hva : base + o < USIZE := by omega
  refine wp_walkaddr h.space hva (fun hn => ?_) fun g perm hperm hg hr he _ => ?_
  · rw [hpn, h.entry] at hn
    refine absurd ?_ hn
    have h1 := h.frame.page
    rw [PAGESIZE_eq] at h1
    have hs : STACK_PERM = 0x16 := rfl
    unfold Sv32.isLeaf leafWord
    omega
  · have hgf : g = f := by
      have h1 := frameOf_leafWord (hr.aligned hg) hperm
      rw [← h1, ← he, hpn, h.entry, frameOf_leafWord h.frame.aligned stack_perm.1]
    subst hgf
    rwa [hmod]

/-- Above the stack nothing is mapped. -/
theorem wp_walkaddr_above (h : StackAt E.cfg v u tab f base) {Q : Option Nat → View → Prop}
    (hnone : Q none v) : M.wp E (u.pagetable.walkaddr (base + PAGESIZE)) Q v := by
  have hpn : pageNo (base + PAGESIZE) = pageNo base + 1 := by
    have hp := h.page
    unfold pageNo
    rw [PAGESIZE_eq] at *
    omega
  refine wp_walkaddr h.space h.lt (fun _ => hnone) fun g perm hp hg _ he _ => ?_
  rw [hpn, h.above] at he
  exact absurd he.symm (leafWord_ne_zero _ _)

/-- `copy_out_cont` to the stack. -/
theorem wp_copyOut_stack (h : StackAt E.cfg v u tab f base) {o : Nat} (ho : o < PAGESIZE)
    {data : List UInt8} (hfit : o + data.length ≤ PAGESIZE) {Q : Except Unit Unit → View → Prop}
    (hok : Q (.ok ()) { v with mem := putAll v.mem (f + o) data }) :
    M.wp E (copyOutCont u (base + o) data) Q v := by
  unfold copyOutCont
  rw [M.wp_bind]
  refine wp_walkaddr_stack h ho ?_
  dsimp only
  rw [M.wp_bind]
  refine wp_writeAll data (fun i hi => ?_) hok
  rw [Nat.add_assoc, pageOf_eq_of h.frame.page (by omega)]
  exact (h.space.user _ _ h.maps).1

theorem wp_copyOut_above (h : StackAt E.cfg v u tab f base) (data : List UInt8)
    {Q : Except Unit Unit → View → Prop} (herr : Q (.error ()) v) :
    M.wp E (copyOutCont u (base + PAGESIZE) data) Q v := by
  unfold copyOutCont
  rw [M.wp_bind]
  exact wp_walkaddr_above h herr

/-- **The arguments** one by one. -/
theorem wp_copyArgs (argv : List (List UInt8)) : ∀ {v : View} {sp : Nat},
    StackAt E.cfg v u tab f base → sp ≤ base + PAGESIZE → (ArgsDown base sp argv ∨ E.stop) →
    ∀ {Q : Except Unit (List Nat × Nat) → View → Prop},
    (∀ m, ArgsFit base sp argv → (∀ a, pageOf a ≠ f → m a = v.mem a) →
      (∀ o < PAGESIZE, m (f + o) = (argByte sp argv (base + o)).getD (v.mem (f + o))) →
      Q (.ok (argsSp sp argv, argsEnd sp argv)) { v with mem := m }) →
    (∀ m, ArgsDown base sp argv → ¬ ArgsFit base sp argv → (∀ a, pageOf a ≠ f → m a = v.mem a) →
      Q (.error ()) { v with mem := m }) →
    M.wp E (copyArgs u base argv sp) Q v := by
  induction argv with
  | nil =>
    intro v sp h _ _ Q hok _
    exact hok v.mem trivial (fun _ _ => rfl) fun _ _ => rfl
  | cons arg argv ih =>
    intro v sp h hsp hw Q hok herr
    have hfp := h.frame.page
    unfold copyArgs
    by_cases hle : arg.length ≤ sp
    · rw [M.wp_bind]
      refine M.wp_sub hle ?_
      obtain ⟨h8, hend, -⟩ := argSp_bounds hle
      dsimp only
      rw [show (sp - arg.length) / 8 * 8 = argSp sp arg from rfl]
      by_cases hlow : argSp sp arg < base
      · rw [if_pos hlow]
        exact herr v.mem ⟨hle, fun h => by omega⟩ (fun hf => by have := hf.2.1; omega)
          fun _ _ => rfl
      rw [if_neg hlow, M.wp_bind]
      by_cases hhigh : argSp sp arg < base + PAGESIZE
      · obtain ⟨o, ho⟩ : ∃ o, argSp sp arg = base + o := ⟨argSp sp arg - base, by omega⟩
        have hw' : ArgsDown base (argSp sp arg) argv ∨ E.stop :=
          hw.imp_left fun hd => hd.2 (by omega) hhigh
        have hrest := fun {Q'} => @ih { v with mem := putAll v.mem (f + o) arg } (argSp sp arg)
          (Q := Q')
        rw [ho] at hend hhigh
        have hpa : ∀ i < PAGESIZE, pageOf (f + i) = f := fun i hi => pageOf_eq_of hfp (by omega)
        have hother : ∀ a, pageOf a ≠ f → putAll v.mem (f + o) arg a = v.mem a := fun a ha =>
          putAll_ne fun i hi he => ha (by rw [he, Nat.add_assoc]; exact hpa _ (by omega))
        rw [ho]
        refine wp_copyOut_stack h (by omega) (by omega) ?_
        dsimp only
        rw [← ho, M.wp_bind]
        refine hrest (h.write hother) (by omega) hw' (fun m hf hm hd => ?_) fun m hd hf hm => ?_
        · refine hok m ⟨hle, by omega, by omega, hf⟩ (fun a ha => (hm a ha).trans (hother a ha))
            fun i hi => ?_
          rw [hd i hi, argByte]
          by_cases hin : argSp sp arg ≤ base + i ∧ base + i < argSp sp arg + arg.length
          · -- a byte of this argument
            rw [if_pos hin, argByte_none hf.noWrap (.inr hin.1)]
            obtain ⟨j, rfl⟩ : ∃ j, i = o + j := ⟨i - o, by omega⟩
            have hj : j < arg.length := by omega
            rw [show base + (o + j) - argSp sp arg = j by omega, putAll_at (m := v.mem) (a := f + o) hj,
              ← Nat.add_assoc]
            rfl
          · rw [if_neg hin]
            congr 1
            exact putAll_ne fun j hj he => hin (by omega)
        · exact herr m ⟨hle, fun _ _ => hd⟩ (fun h' => hf h'.2.2.2) fun a ha =>
            (hm a ha).trans (hother a ha)
      · have : argSp sp arg = base + PAGESIZE := by omega
        rw [this]
        refine wp_copyOut_above h arg ?_
        exact herr v.mem ⟨hle, fun _ h => absurd h hhigh⟩ (fun hf => hhigh hf.2.2.1) fun _ _ => rfl
    · rw [M.wp_bind]
      unfold M.sub
      rw [if_neg hle]
      exact M.wp_panic (hw.resolve_left fun h => hle h.1)

/-- The arguments and the pointers fit the stack's page. -/
structure StackFits (base : Nat) (argv : List (List UInt8)) : Prop where
  args : ArgsFit base (base + PAGESIZE) argv
  wrap : (ustack (base + PAGESIZE) argv).length * 4 ≤ argsEnd (base + PAGESIZE) argv
  low : base ≤ execSp (base + PAGESIZE) argv

theorem StackFits.sp_lt {argv : List (List UInt8)} (h : StackFits base argv)
    (hlt : base + PAGESIZE < USIZE) : argv.length < 2 ^ 32 ∧ execSp (base + PAGESIZE) argv < 2 ^ 32 := by
  have h1 := h.wrap
  have h2 := argsEnd_le h.args.noWrap
  rw [ustack_length] at h1
  rw [USIZE_eq] at hlt
  refine ⟨by omega, ?_⟩
  unfold execSp
  omega

/-- Nothing reaches below address 0 before something misses the page. -/
structure StackDown (base : Nat) (argv : List (List UInt8)) : Prop where
  args : ArgsDown base (base + PAGESIZE) argv
  wrap : ArgsFit base (base + PAGESIZE) argv →
    (ustack (base + PAGESIZE) argv).length * 4 ≤ argsEnd (base + PAGESIZE) argv

theorem StackFits.down {argv : List (List UInt8)} (h : StackFits base argv) : StackDown base argv :=
  ⟨h.args.down, fun _ => h.wrap⟩

theorem flatMap_leBytes_length (l : List Nat) : (l.flatMap leBytes).length = l.length * 4 := by
  induction l with
  | nil => rfl
  | cons x l ih =>
    rw [List.flatMap_cons, List.length_append, ih, List.length_cons,
      show (leBytes x).length = 4 from rfl]
    omega

/-- **The stack of the new program.** -/
theorem wp_kexecArgs {argv : List (List UInt8)} (h : StackAt E.cfg v u tab f base)
    (hu : u.begin + u.size = base + PAGESIZE) (hw : StackDown base argv ∨ E.stop)
    {Q : Except Unit Nat → View → Prop}
    (hok : ∀ m, StackFits base argv → (∀ a, pageOf a ≠ f → m a = v.mem a) →
      (∀ o < PAGESIZE, m (f + o) =
        (stackByte (base + PAGESIZE) argv (base + o)).getD (v.mem (f + o))) →
      Q (.ok (execSp (base + PAGESIZE) argv)) { v with mem := m })
    (herr : ∀ m, StackDown base argv → ¬ StackFits base argv →
      (∀ a, pageOf a ≠ f → m a = v.mem a) → Q (.error ()) { v with mem := m }) :
    M.wp E (kexecArgs u argv) Q v := by
  have hlt := h.lt
  have hfp := h.frame.page
  unfold kexecArgs Uvm.end
  rw [M.wp_bind]
  refine M.wp_add (by omega) ?_
  rw [hu, M.wp_bind]
  refine M.wp_sub (by omega) ?_
  rw [Nat.add_sub_cancel, M.wp_bind]
  refine wp_copyArgs argv h (Nat.le_refl _) (hw.imp_left StackDown.args) (fun m hf hm hd => ?_)
    fun m hd hf hm => herr m ⟨hd, fun h => absurd h hf⟩ (fun hs => hf hs.args) hm
  dsimp only
  rw [show argsSp (base + PAGESIZE) argv ++ [0] = ustack (base + PAGESIZE) argv from rfl]
  have hend := argsEnd_le hf.noWrap
  by_cases hle : (ustack (base + PAGESIZE) argv).length * 4 ≤ argsEnd (base + PAGESIZE) argv
  · rw [M.wp_bind]
    refine M.wp_sub hle ?_
    rw [show argsEnd (base + PAGESIZE) argv - (ustack (base + PAGESIZE) argv).length * 4 =
      execSp (base + PAGESIZE) argv from rfl]
    have hsp : execSp (base + PAGESIZE) argv + (ustack (base + PAGESIZE) argv).length * 4 =
        argsEnd (base + PAGESIZE) argv := Nat.sub_add_cancel hle
    have hpos : 0 < (ustack (base + PAGESIZE) argv).length := by
      rw [ustack_length]
      omega
    by_cases hlow : execSp (base + PAGESIZE) argv < base
    · rw [if_pos hlow]
      exact herr m ⟨hf.down, fun _ => hle⟩ (fun hs => by have := hs.low; omega) hm
    · rw [if_neg hlow]
      obtain ⟨o, ho⟩ : ∃ o, execSp (base + PAGESIZE) argv = base + o :=
        ⟨execSp (base + PAGESIZE) argv - base, by omega⟩
      have hlen := flatMap_leBytes_length (ustack (base + PAGESIZE) argv)
      have hpa : ∀ i < PAGESIZE, pageOf (f + i) = f := fun i hi => pageOf_eq_of hfp (by omega)
      rw [M.wp_bind, ho]
      refine wp_copyOut_stack (h.write hm) (by omega) (by rw [hlen]; omega) ?_
      dsimp only
      rw [← ho]
      refine hok _ ⟨hf, hle, by omega⟩ (fun a ha => ?_) fun i hi => ?_
      · rw [putAll_ne fun j hj he => ha (by rw [he, Nat.add_assoc]; exact hpa _ (by omega))]
        exact hm a ha
      · rw [stackByte]
        by_cases hin : execSp (base + PAGESIZE) argv ≤ base + i ∧
            base + i < argsEnd (base + PAGESIZE) argv
        · rw [if_pos hin]
          obtain ⟨j, rfl⟩ : ∃ j, i = o + j := ⟨i - o, by omega⟩
          rw [show base + (o + j) - execSp (base + PAGESIZE) argv = j by omega,
            putAll_at (m := m) (a := f + o) (by rw [hlen]; omega), ← Nat.add_assoc]
          rfl
        · rw [if_neg hin, ← hd i hi]
          exact putAll_ne fun j hj he => hin (by rw [hlen] at hj; omega)
  · rw [M.wp_bind]
    unfold M.sub
    rw [if_neg hle]
    exact M.wp_panic (hw.resolve_left fun h => hle (h.wrap hf))

end

end BareMetal
