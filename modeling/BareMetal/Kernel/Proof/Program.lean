import BareMetal.Kernel.Proof.SysExec

/-!
# What a new program sees

`userByte`: the byte that a user program loads. After a `kexec` that succeeded (`Execed`) the
program sees its image, whole pages of it, and its stack (`Execed.image_byte`, `Execed.stack_byte`),
and nothing else (`Execed.nothing`).

`kexec_args_iff`: when the arguments are found where the program looks for them.
-/

namespace BareMetal

open Lib K

/-- The byte that a load by the user program from `va` yields. -/
def userByte (m : Bytes) (root va : Nat) : Option UInt8 := (Sv32.userLoad m root va).map m

section
variable {c : Cfg} {v : View} {root : Nat} {tab : Nat → Option Nat}

theorem Tree.user_leaf (h : Tree c v root tab) {va f perm : Nat} (hva : va < USIZE)
    (he : pte v.mem tab (pageNo va) = leafWord f perm) (hf : Aligned f) (hp : PermOk perm)
    (hr : perm / 2 % 2 = 1) (hu : perm / 16 % 2 = 1) :
    Sv32.userLoad v.mem root va = some (f + va % PAGESIZE) := by
  have hbit : leafWord f perm / 2 % 2 = 1 := by
    have h1 := hf.1
    have h2 := hp.2
    rw [PAGESIZE_eq] at h1
    unfold leafWord
    omega
  unfold Sv32.userLoad
  rw [h.sv32_leaf hva he hf hp (by omega)]
  exact if_pos ⟨by rw [leafWord_u hf hp, hu], hbit⟩

/-- Pages without U cannot be read, and pages that are not mapped. -/
theorem Tree.user_none (h : Tree c v root tab) {va : Nat}
    (he : va < USIZE → pte v.mem tab (pageNo va) / 16 % 2 = 0) :
    Sv32.userLoad v.mem root va = none := by
  unfold Sv32.userLoad
  by_cases hva : va < USIZE
  · have h0 := he hva
    rw [h.sv32_walk hva]
    by_cases hn : pte v.mem tab (pageNo va) % 2 = 0 ∨ ¬ Sv32.isLeaf (pte v.mem tab (pageNo va))
    · rw [if_pos hn]
    · rw [if_neg hn]
      exact if_neg fun hb => by omega
  · unfold Sv32.walk
    rw [if_neg hva]

end

namespace Execed

variable {c : Cfg} {s s' : Sys} {i : Nat} {img : Slice} {argv : List (List UInt8)} {v : View}
  {tab : Nat → Option Nat} {fr : Nat → Nat}

theorem bounds (h : Execed c s s' i img argv v tab fr) : pageNo USER_START = 16 ∧
    imagePages img < 0x4000 ∧ stackBase img = (imagePages img + 17) * 4096 := by
  have h1 := h.fits.pages.low
  have h2 := h.fits.pages.high
  refine ⟨h1, h2, ?_⟩
  unfold stackBase stackPage
  rw [h1, PAGESIZE_eq]
  omega

/-- The stack. -/
theorem stack_load (h : Execed c s s' i img argv v tab fr) {o : Nat} (ho : o < PAGESIZE) :
    Sv32.userLoad s'.phys.mem (s'.root i) (stackBase img + o) = some (fr (stackPage img) + o) := by
  obtain ⟨-, hlt, hb⟩ := h.bounds
  have hsz := PAGESIZE_eq
  have hpn : pageNo (stackBase img + o) = stackPage img := by
    unfold pageNo stackBase
    rw [Nat.mul_comm, Nat.mul_add_div (by omega), Nat.div_eq_of_lt ho, Nat.add_zero]
  rw [← h.mem, h.space.tree.user_leaf (by rw [USIZE_eq]; omega) (by rw [hpn]; exact h.program.stack)
    (h.program.frame _ (.inr rfl)).aligned stack_perm.1 (by decide) stack_perm.2]
  congr 2
  rw [hb, hsz]
  omega

theorem stack_byte (h : Execed c s s' i img argv v tab fr) {o : Nat} (ho : o < PAGESIZE) :
    userByte s'.phys.mem (s'.root i) (stackBase img + o) =
      some ((stackByte (stackBase img + PAGESIZE) argv (stackBase img + o)).getD
        (s.phys.mem (fr (stackPage img) + o))) := by
  unfold userByte
  rw [h.stack_load ho, ← h.stack o ho, h.mem, Option.map_some]

/-- The image. -/
theorem image_load (h : Execed c s s' i img argv v tab fr) {j : Nat}
    (hj : j < imagePages img * PAGESIZE) :
    Sv32.userLoad s'.phys.mem (s'.root i) (USER_START + j) =
      some (fr (pageNo USER_START + j / PAGESIZE) + j % PAGESIZE) := by
  obtain ⟨hlow, hlt, -⟩ := h.bounds
  have hsz := PAGESIZE_eq
  have hst : USER_START = 0x10000 := rfl
  have hpn : pageNo (USER_START + j) = pageNo USER_START + j / PAGESIZE := by
    rw [hlow]
    unfold pageNo
    rw [hsz, hst]
    omega
  have hq : InPages (pageNo USER_START) (imagePages img) (pageNo USER_START + j / PAGESIZE) := by
    refine ⟨Nat.le_add_right _ _, ?_⟩
    have := Nat.div_lt_of_lt_mul (by rwa [Nat.mul_comm] at hj)
    omega
  rw [← h.mem, h.space.tree.user_leaf (by rw [USIZE_eq, hst]; rw [hsz] at hj; omega)
    (by rw [hpn]; exact h.program.image _ hq) (h.program.frame _ (.inl hq)).aligned image_perm.1
    (by decide) image_perm.2]
  congr 2
  rw [hst, hsz]
  omega

theorem image_byte (h : Execed c s s' i img argv v tab fr) {j : Nat}
    (hj : j < imagePages img * PAGESIZE) :
    userByte s'.phys.mem (s'.root i) (USER_START + j) = some (s.phys.mem (img.ptr + j)) := by
  unfold userByte
  rw [h.image_load hj, ← h.image j hj, h.mem, Option.map_some]

/-- Nothing else can be read. -/
theorem nothing (h : Execed c s s' i img argv v tab fr) {va : Nat}
    (himg : ∀ j < imagePages img * PAGESIZE, va ≠ USER_START + j)
    (hstack : ∀ o < PAGESIZE, va ≠ stackBase img + o) :
    Sv32.userLoad s'.phys.mem (s'.root i) va = none := by
  obtain ⟨hlow, hlt, hb⟩ := h.bounds
  have hsz := PAGESIZE_eq
  have hst : USER_START = 0x10000 := rfl
  rw [← h.mem]
  refine h.space.tree.user_none fun hva => ?_
  by_cases hsys : SysPage (pageNo va)
  · have hleaf : SysLeaf (pte v.mem tab (pageNo va)) := by
      rcases hsys with hq | hq
      · rw [hq, h.program.trampoline]
        exact c.trampoline_sysLeaf
      · rw [hq, h.program.trapframe]
        exact h.frame.sysLeaf
    obtain ⟨pa, perm, hp, hpa, hr, hu, he⟩ := hleaf
    rw [he, leafWord_u (hr.aligned hpa) hp, hu]
  · rw [h.program.none _ hsys, Nat.zero_div, Nat.zero_mod]
    · rw [hlow]
      rintro ⟨h1, h2⟩
      refine himg (va - USER_START) ?_ ?_
      · unfold pageNo at h1 h2
        rw [hsz] at h1 h2 ⊢
        omega
      · unfold pageNo at h1
        rw [hsz] at h1
        omega
    · intro hq
      unfold pageNo stackPage at hq
      rw [hlow] at hq
      rw [hsz] at hq hstack
      exact hstack (va - stackBase img) (by omega) (by omega)

end Execed

/-! ## Arguments -/

/-- The program reads `bytes` from `va` on. -/
def UserBytes (m : Bytes) (root va : Nat) (bytes : List UInt8) : Prop :=
  ∀ k (_ : k < bytes.length), userByte m root (va + k) = some bytes[k]

/-- The C convention, for arguments without a NUL: the number of arguments in `a0`; in `a1` the
address of an array of pointers with a null pointer at its end; at each pointer the argument, up to
the first NUL. -/
def ArgsFound (m : Bytes) (trapframe root : Nat) (argv : List (List UInt8)) : Prop :=
  m.word (trapframe + Trapframe.a0) = argv.length ∧
    ∃ ptrs : List Nat, (∀ p ∈ ptrs, p < USIZE) ∧
      UserBytes m root (m.word (trapframe + Trapframe.a1)) ((ptrs ++ [0]).flatMap leBytes) ∧
      List.Forall₂ (fun p arg => UserBytes m root p (arg ++ [0])) ptrs argv

/-- No argument's length is a multiple of 8, and the byte after each is 0 already. -/
def Terminated (old : Nat → UInt8) : Nat → List (List UInt8) → Prop
  | _, [] => True
  | sp, arg :: argv => arg.length % 8 ≠ 0 ∧ old (argSp sp arg + arg.length) = 0 ∧
      Terminated old (argSp sp arg) argv

section
variable {base sp : Nat} {argv : List (List UInt8)} {m : Bytes} {root : Nat} {old : Nat → UInt8}

/-- The bytes between an argument's end and the argument before are not written: the NUL is the one
that is there, or, when the length is a multiple of 8, the first byte of the argument before. -/
theorem args_terminated : ∀ {sp : Nat} {argv : List (List UInt8)}, NoWrap sp argv → sp % 8 = 0 →
    (∀ arg ∈ argv, (0 : UInt8) ∉ arg) →
    (∀ x, argsEnd sp argv ≤ x → x < sp → userByte m root x = some ((argByte sp argv x).getD (old x))) →
    userByte m root sp ≠ some 0 →
    (List.Forall₂ (fun p arg => UserBytes m root p (arg ++ [0])) (argsSp sp argv) argv ↔
      Terminated old sp argv)
  | _, [], _, _, _, _, _ => by simp [argsSp, Terminated]
  | sp, arg :: argv, hw, h8, hnul, hb, htop => by
    obtain ⟨hle, hw⟩ := hw
    obtain ⟨h8', hend, -⟩ := argSp_bounds hle
    have hlow := argsEnd_le hw
    have harg : ∀ k (hk : k < arg.length), userByte m root (argSp sp arg + k) = some arg[k] :=
      fun k hk => by
        rw [hb _ (by unfold argsEnd; omega) (by omega), argByte, if_pos (by omega),
          Nat.add_sub_cancel_left, List.getElem?_eq_getElem hk, Option.getD_some]
    have hbytes : UserBytes m root (argSp sp arg) (arg ++ [0]) ↔
        userByte m root (argSp sp arg + arg.length) = some 0 := by
      refine ⟨fun h => ?_, fun h k hk => ?_⟩
      · have := h arg.length (by simp)
        simpa using this
      · rw [List.length_append, List.length_singleton] at hk
        rcases Nat.lt_succ_iff_lt_or_eq.1 hk with hk | rfl
        · rw [harg k hk, List.getElem_append_left hk]
        · rw [h, List.getElem_append_right (Nat.le_refl _)]
          simp
    simp only [argsSp, List.forall₂_cons, Terminated, hbytes]
    by_cases hmod : arg.length % 8 = 0
    · have : argSp sp arg + arg.length = sp := by
        unfold argSp
        omega
      simp [hmod, this, htop]
    · have hlt : argSp sp arg + arg.length < sp := by
        unfold argSp at hend ⊢
        omega
      have hfirst : userByte m root (argSp sp arg) ≠ some 0 := by
        have h0 := harg 0 (by omega)
        rw [Nat.add_zero] at h0
        rw [h0]
        exact fun he => hnul arg List.mem_cons_self (Option.some.inj he ▸ List.getElem_mem _)
      have ih := args_terminated hw h8' (fun a ha => hnul a (List.mem_cons_of_mem _ ha))
        (fun x h1 h2 => by rw [hb x h1 (by omega), argByte, if_neg (by omega)]) hfirst
      rw [hb _ (by unfold argsEnd; omega) hlt, argByte, if_neg (by omega),
        argByte_none hw (.inr (by omega)), ih]
      simp [hmod]

/-- The bytes of each argument. -/
theorem args_found : ∀ {sp : Nat} {argv : List (List UInt8)}, NoWrap sp argv →
    (∀ x, argsEnd sp argv ≤ x → x < sp → userByte m root x = some ((argByte sp argv x).getD (old x))) →
    List.Forall₂ (fun p arg => UserBytes m root p arg) (argsSp sp argv) argv
  | _, [], _, _ => .nil
  | sp, arg :: argv, hw, hb => by
    obtain ⟨hle, hw⟩ := hw
    have hend := (argSp_bounds hle).2.1
    have hlow := argsEnd_le hw
    refine .cons (fun k hk => ?_) (args_found hw fun x h1 h2 => ?_)
    · rw [hb _ (by unfold argsEnd; omega) (by omega), argByte, if_pos (by omega),
        Nat.add_sub_cancel_left, List.getElem?_eq_getElem hk, Option.getD_some]
    · rw [hb x h1 (by omega), argByte, if_neg (by omega)]

theorem leBytes_inj {x y : Nat} (hx : x < USIZE) (hy : y < USIZE) (h : leBytes x = leBytes y) : x = y := by
  rw [USIZE_eq] at hx hy
  simp only [leBytes, List.cons.injEq, ← UInt8.toNat_inj, UInt8.toNat_ofNat'] at h
  omega

theorem flatMap_leBytes_inj : ∀ {l l' : List Nat}, (∀ x ∈ l, x < USIZE) → (∀ x ∈ l', x < USIZE) →
    l.length = l'.length → l.flatMap leBytes = l'.flatMap leBytes → l = l'
  | [], [], _, _, _, _ => rfl
  | x :: l, y :: l', hl, hl', hn, h => by
    rw [List.flatMap_cons, List.flatMap_cons] at h
    obtain ⟨h1, h2⟩ := List.append_inj h rfl
    rw [leBytes_inj (hl x List.mem_cons_self) (hl' y List.mem_cons_self) h1,
      flatMap_leBytes_inj (fun z hz => hl z (List.mem_cons_of_mem _ hz))
        (fun z hz => hl' z (List.mem_cons_of_mem _ hz)) (Nat.succ.inj hn) h2]

/-- Both lists are what the program reads. -/
theorem UserBytes.unique {va : Nat} {l l' : List UInt8} (h : UserBytes m root va l)
    (h' : UserBytes m root va l') (hn : l.length = l'.length) : l = l' :=
  List.ext_getElem hn fun k hk hk' => Option.some.inj ((h k hk).symm.trans (h' k hk'))

end

section
variable {c : Cfg} {s s' : Sys} {i : Nat} {img : Slice} {argv : List (List UInt8)} {v : View}
  {tab : Nat → Option Nat} {fr : Nat → Nat}

/-- The pointers. -/
theorem Execed.ptrs (h : Execed c s s' i img argv v tab fr) :
    UserBytes s'.phys.mem (s'.root i) (execSp (stackBase img + PAGESIZE) argv)
      ((ustack (stackBase img + PAGESIZE) argv).flatMap leBytes) := fun k hk => by
  have hend := argsEnd_le h.args.args.noWrap
  have hsp := h.args.low
  have hsub : execSp (stackBase img + PAGESIZE) argv +
      (ustack (stackBase img + PAGESIZE) argv).length * 4 = argsEnd (stackBase img + PAGESIZE) argv :=
    Nat.sub_add_cancel h.args.wrap
  have hk' := hk
  rw [flatMap_leBytes_length] at hk'
  obtain ⟨o, ho⟩ : ∃ o, execSp (stackBase img + PAGESIZE) argv + k = stackBase img + o :=
    ⟨_, (Nat.add_sub_of_le (by omega)).symm⟩
  rw [ho, h.stack_byte (by omega), ← ho, stackByte, if_pos (by omega), Nat.add_sub_cancel_left,
    List.getElem?_eq_getElem hk, Option.getD_some]

/-- The bytes of the stack above the pointers. -/
theorem Execed.arg_byte (h : Execed c s s' i img argv v tab fr) {x : Nat}
    (h1 : argsEnd (stackBase img + PAGESIZE) argv ≤ x) (h2 : x < stackBase img + PAGESIZE) :
    userByte s'.phys.mem (s'.root i) x = some ((argByte (stackBase img + PAGESIZE) argv x).getD
      (s.phys.mem (fr (stackPage img) + (x - stackBase img)))) := by
  have hsp := h.args.low
  obtain ⟨o, rfl⟩ : ∃ o, x = stackBase img + o := ⟨x - stackBase img, by unfold execSp at hsp; omega⟩
  rw [h.stack_byte (by omega), stackByte, if_neg (by omega), Nat.add_sub_cancel_left]

/-- What the stack's frame `f` held. -/
def stackHeld (m : Bytes) (img : Slice) (f x : Nat) : UInt8 := m (f + (x - stackBase img))

theorem Execed.args_iff (h : Execed c s s' i img argv v tab fr)
    (hnul : ∀ arg ∈ argv, (0 : UInt8) ∉ arg) :
    ArgsFound s'.phys.mem (s'.data.process_table i).trapframe (s'.root i) argv ↔
      Terminated (stackHeld s.phys.mem img (fr (stackPage img))) (stackBase img + PAGESIZE) argv := by
  obtain ⟨hlow, hlt, hb⟩ := h.bounds
  have hsz := PAGESIZE_eq
  have hend := argsEnd_le h.args.args.noWrap
  have hsp := h.args.low
  have hwrap := h.args.wrap
  have hstr := @args_terminated s'.phys.mem (s'.root i) (stackHeld s.phys.mem img (fr (stackPage img)))
    _ _ h.args.args.noWrap (by omega) hnul
    (fun x h1 h2 => h.arg_byte h1 h2)
    (by
      unfold userByte
      rw [h.nothing (fun j hj => by
        have : USER_START = 0x10000 := rfl
        rw [hsz] at *
        omega) fun o ho => by omega]
      exact fun he => by cases he)
  have harr := h.ptrs
  have htop : stackBase img + PAGESIZE < USIZE := by
    rw [USIZE_eq]
    omega
  have hptr : ∀ p ∈ argsSp (stackBase img + PAGESIZE) argv, p < USIZE := fun p hp =>
    Nat.lt_of_le_of_lt (argsSp_le hp) htop
  have hnull : ∀ {l : List Nat}, (∀ p ∈ l, p < USIZE) → ∀ p ∈ l ++ [0], p < USIZE := fun hl p hp => by
    rcases List.mem_append.1 hp with hp | hp
    · exact hl p hp
    · rw [List.mem_singleton.1 hp]
      omega
  unfold ArgsFound
  rw [h.trapframe, ← h.mem, h.a0, h.a1, h.mem, ← hstr]
  refine ⟨fun h' => ?_, fun hf => ⟨rfl, _, hptr, harr, hf⟩⟩
  obtain ⟨-, ptrs, hp, hb, hf⟩ := h'
  have hlen : (ptrs ++ [0]).length = (ustack (stackBase img + PAGESIZE) argv).length := by
    rw [ustack_length, List.length_append, hf.length_eq]
    rfl
  have he := flatMap_leBytes_inj (hnull hp) (hnull hptr) hlen
    (hb.unique harr (by
      rw [flatMap_leBytes_length, hlen]
      exact (flatMap_leBytes_length _).symm))
  rw [List.append_cancel_right he] at hf
  exact hf

end

/-! ## A process that calls `kexec` -/

/-- Frames for a process and for its new program. -/
@[irreducible] def execFrames : List Nat := (List.range 4000).map fun i => 0x80210000 + 0x2000 * i

/-- Memory with the byte `b` in every one of them. -/
def dirty (b : UInt8) : Bytes := fun a => if pageOf a ∈ execFrames then b else 0

theorem demoFrames_exec : demoFrames 4002 = 0x8020c000 :: 0x8020e000 :: execFrames := by
  unfold demoFrames execFrames
  simp only [List.range_succ_eq_map (n := 4001), List.range_succ_eq_map (n := 4000), List.map_cons,
    List.map_map, Function.comp_def]
  simp only [Nat.mul_zero, Nat.add_zero, List.cons.injEq, true_and]
  exact List.map_congr_left fun a _ => by omega

/-- Memory with one process: its address space has nothing mapped, and each of its registers held
`0x07070707` when it trapped. -/
def execPhys (b : UInt8) : Phys :=
  ⟨((dirty b).fill 0x8020c000 0 PAGESIZE).fill 0x8020e000 7 Trapframe.SIZE, execFrames, 2⟩

/-- A process that calls `kexec`. -/
def Sys.exec (b : UInt8) : Sys :=
  { Sys.demo with
    phys := execPhys b
    data := Sys.demo.data.updProc 0 fun p =>
      { p with pagetable := ⟨USER_START, 0, ⟨0x8020c000⟩⟩, trapframe := 0x8020e000 } }

/-- A process with an address space and a trapframe, and the free frames `l`. -/
theorem ownState_frames {m : Bytes} {l : List Nat}
    (hn : (0x8020c000 :: 0x8020e000 :: l).Nodup)
    (hf : ∀ f ∈ 0x8020c000 :: 0x8020e000 :: l, Cfg.demo.IsFrame f) {s : Sys}
    (hs : s.phys = ⟨(m.fill 0x8020c000 0 PAGESIZE).fill 0x8020e000 7 Trapframe.SIZE, l, 2⟩)
    (hd : s.data = (Sys.exec 0).data) : OwnState Cfg.demo s 0 := by
  have h0 : World.Init Cfg.demo
      ⟨⟨m, 0x8020c000 :: 0x8020e000 :: l, 0⟩, fun _ => none, fun _ => ∅, ∅⟩ :=
    ⟨Cfg.demo_linked, hn, hf, fun _ => rfl, fun _ => rfl, rfl⟩
  have h1 : Uvm.new.run Cfg.demo ⟨m, 0x8020c000 :: 0x8020e000 :: l, 0⟩ =
      .ok (⟨USER_START, 0, ⟨0x8020c000⟩⟩, ⟨m.fill 0x8020c000 0 PAGESIZE, 0x8020e000 :: l, 1⟩) := by
    with_unfolding_all rfl
  have h2 : Trapframe.newIn.run Cfg.demo ⟨m.fill 0x8020c000 0 PAGESIZE, 0x8020e000 :: l, 1⟩ =
      .ok (0x8020e000, ⟨(m.fill 0x8020c000 0 PAGESIZE).fill 0x8020e000 0 Trapframe.SIZE, l, 2⟩) := by
    with_unfolding_all rfl
  refine (((World.Reach.init h0).step (.new (k := 0) rfl h1)).step (.box h2)).ownState (k := 0)
    (u := ⟨USER_START, 0, ⟨0x8020c000⟩⟩) rfl (by rw [hs]) (fun a ha => ?_) (by rw [hd]; rfl)
    (by rw [hd]; exact Finset.mem_insert_self _ _)
  -- only the box holds something else
  rw [hs]
  have hs : Trapframe.SIZE = 144 := rfl
  have hout : a < 0x8020e000 ∨ 0x8020e000 + Trapframe.SIZE ≤ a := by
    by_contra hin
    refine ha (Finset.mem_insert.2 (.inl (pageOf_eq_of ?_ ?_)))
    · rw [PAGESIZE_eq]
    · rw [PAGESIZE_eq]
      omega
  exact (Bytes.fill_ne hout).trans (Bytes.fill_ne hout).symm

theorem ownState_demo (b : UInt8) : OwnState Cfg.demo (Sys.exec b) 0 := by
  refine ownState_frames (m := dirty b) (l := execFrames) ?_ ?_ rfl rfl
  · rw [← demoFrames_exec]
    exact demoFrames_nodup _
  · rw [← demoFrames_exec]
    exact fun f => demoFrames_frame (by omega)

/-- `"init"` -/
def initPath : List UInt8 := [105, 110, 105, 116]

theorem program_init : program Cfg.demo initPath = some Cfg.demo.INIT :=
  if_pos (by decide +kernel)

/-- It can call `kexec` with arguments that fit. -/
theorem exec_demo (b : UInt8) {argv : List (List UInt8)}
    (hargs : StackFits (stackBase Cfg.demo.INIT) argv) :
    ∃ tr s', K.Ends Cfg.demo (kexec Cfg.demo 0 initPath argv) (Sys.exec b) tr (.ok ()) s' := by
  have hframes : programFrames Cfg.demo.INIT ≤ (Sys.exec b).phys.free.length := by
    have hp : programFrames Cfg.demo.INIT = 5 := by decide +kernel
    rw [hp, show (Sys.exec b).phys.free = execFrames from rfl]
    unfold execFrames
    rw [List.length_map, List.length_range]
    omega
  exact (ownState_demo b).kexec_runs Cfg.demo_eager (Finset.notMem_empty _) program_init hframes
    hargs (show USER_START + 0 < USIZE by rw [USIZE_eq]; decide)

/-- A page that starts with `"init"`; a pointer to it lies at 8, before a null pointer. -/
def execPage (o : Nat) : UInt8 := [105, 110, 105, 116, 0, 0, 0, 0, 0, 0, 1].getD o 0

/-- A process that calls `sys_exec`: its page is the frame `f`, its trapframe `tf`. -/
def Sys.caller (p : Phys) (u : Uvm) (f tf : Nat) : Sys :=
  { Sys.demo with
    phys :=
      { p with mem := ((p.mem.setBytes f PAGESIZE execPage).setWord (tf + Trapframe.a0)
          USER_START).setWord (tf + Trapframe.a1) (USER_START + 8) }
    data := Sys.demo.data.updProc 0 fun q => { q with pagetable := u, trapframe := tf } }

theorem fits_init_arg : StackFits (stackBase Cfg.demo.INIT) [initPath] :=
  ⟨⟨by decide +kernel, by decide +kernel, by decide +kernel, trivial⟩, by decide +kernel,
    by decide +kernel⟩

/-- The caller's page and registers. -/
structure Caller (s : Sys) (u : Uvm) (f tf : Nat) (tab : Nat → Option Nat) (v : View) : Prop where
  own : OwnState Cfg.demo s 0
  space : Space Cfg.demo v u tab
  mem : v.mem = s.phys.mem
  frame : Cfg.demo.IsFrame f
  entry : pte v.mem tab (pageNo USER_START) = leafWord f (PTE_R ||| PTE_W ||| PTE_U)
  page : ∀ k < PAGESIZE, s.phys.mem (f + k) = execPage k
  a0 : s.phys.mem.word (tf + Trapframe.a0) = USER_START
  a1 : s.phys.mem.word (tf + Trapframe.a1) = USER_START + 8

theorem Sys.caller_demo : ∃ p u f tf tab v, Caller (Sys.caller p u f tf) u f tf tab v ∧
    1000 ≤ p.free.length ∧ u.size = PAGESIZE := by
  have hsz := PAGESIZE_eq
  obtain ⟨w₀, u, tab, fr, h₀, hk, hsp₀, hsize, hp, -, hlen, -, -⟩ := World.demo_alloc (n := 1)
    (by omega) (show PTE_R ||| PTE_W ≠ 0 by decide) ⟨by decide, by decide⟩
  obtain ⟨w, h, -, hacc, hmem, hfree, hcard⟩ := h₀.box Cfg.demo_eager fun he => by
    rw [he] at hlen
    exact absurd hlen (by decide)
  obtain ⟨tf, htf⟩ := Finset.card_pos.1 (show 0 < w.boxes.card by omega)
  have hi := h.inv
  obtain ⟨hent, hfd⟩ := hp (pageNo USER_START) ⟨Nat.le_refl _, by omega⟩
  generalize fr (pageNo USER_START) = f at hent hfd
  have hff : Cfg.demo.IsFrame f := demoFrames_frame (by omega) hfd
  have htff := (hi.box tf htf).1
  obtain ⟨hfa, hft⟩ := hsp₀.user (pageNo USER_START) f (by
    dsimp only
    rw [hent]
    exact maps_leafWord hff.aligned ⟨by decide, by decide⟩ (by decide))
  have hne : tf ≠ f := fun he => by
    rw [← hacc, ← he] at hfa
    exact (hi.acc 0 tf hfa).2.2 htf
  -- memory outside the page and the trapframe is as it was
  have hout : ∀ {g b k n : Nat}, g % PAGESIZE = 0 → k + n ≤ PAGESIZE → pageOf b ≠ g →
      b < g + k ∨ g + k + n ≤ b := fun {g b k n} hg hk hb => by
    by_contra hin
    refine hb (pageOf_eq_of hg ?_)
    omega
  have hregs : ∀ b, pageOf b ≠ tf → (Sys.caller w.phys u f tf).phys.mem b =
      w.phys.mem.setBytes f PAGESIZE execPage b := fun b hb =>
    (Bytes.setWord_ne (hout htff.page (by rw [hsz]; decide) hb)).trans
      (Bytes.setWord_ne (hout htff.page (by rw [hsz]; decide) hb))
  have htab : ∀ a, Tree.Has u.pagetable.root tab (pageOf a) →
      (Sys.caller w.phys u f tf).phys.mem a = w₀.phys.mem a := fun a ha => by
    have hown := hsp₀.tree.has_own ha
    have hb : pageOf a ≠ tf := fun he => by
      dsimp only at hown
      rw [← hacc, he] at hown
      exact (hi.acc 0 tf hown).2.2 htf
    refine (hregs a hb).trans ((Bytes.setBytes_ne ?_).trans (hmem a (h₀.inv.acc 0 _ hown).2.1))
    have := hout (k := 0) (n := PAGESIZE) hff.page (by omega) fun he => hft (he ▸ ha)
    omega
  have hsp : Space Cfg.demo ⟨w.account 0, (Sys.caller w.phys u f tf).phys.mem⟩ u tab :=
    hsp₀.congr (fun g hg => by rwa [hacc]) htab
  refine ⟨w.phys, u, f, tf, tab, ⟨w.account 0, (Sys.caller w.phys u f tf).phys.mem⟩,
    ⟨.of_own hi.nodup hi.frames (hi.own 0) (hi.box tf htf) (fun hf => (hi.acc 0 tf hf).2.2 htf) hsp,
      hsp, rfl, hff, ?_, fun k hk => ?_, ?_, ?_⟩, by omega, by rw [hsize, Nat.one_mul]⟩
  · rw [← hent]
    exact hsp₀.tree.pte_congr htab _
  · rw [hregs _ (by rw [pageOf_eq_of hff.page (by omega)]; exact hne.symm), Bytes.setBytes_at hk]
  · exact (Bytes.word_setWord_ne (.inl (by unfold Trapframe.a0 Trapframe.a1; omega))).trans
      (Bytes.word_setWord (by decide))
  · exact Bytes.word_setWord (by decide)

/-- It runs `init` with its own name. -/
theorem sysExec_demo : ∃ s tr s', OwnState Cfg.demo s 0 ∧
    K.Ends Cfg.demo (sysExec Cfg.demo 0) s tr () s' := by
  obtain ⟨p, u, f, tf, tab, v, h, hlen, hsize⟩ := Sys.caller_demo
  have hsz := PAGESIZE_eq
  have hus : USER_START = 0x10000 := rfl
  generalize hs : Sys.caller p u f tf = s at h
  have hpt : (s.data.process_table 0).pagetable = u := by
    rw [← hs]
    rfl
  have htf : (s.data.process_table 0).trapframe = tf := by
    rw [← hs]
    rfl
  have hroot : s.root 0 = u.pagetable.root := congrArg (fun u : Uvm => u.pagetable.root) hpt
  have hwalk : ∀ k < PAGESIZE, Sv32.walk s.phys.mem (s.root 0) (USER_START + k) =
      some (leafWord f (PTE_R ||| PTE_W ||| PTE_U), f + k) := fun k hk => by
    have hpn : pageNo (USER_START + k) = pageNo USER_START := by
      unfold pageNo
      rw [hsz] at *
      omega
    have hmod : (USER_START + k) % PAGESIZE = k := by
      rw [hsz] at *
      omega
    rw [hroot, ← h.mem, h.space.tree.sv32_leaf (by rw [USIZE_eq]; omega) (by rw [hpn]; exact h.entry)
      h.frame.aligned ⟨by decide, by decide⟩ (by decide), hmod]
  have hread : ∀ k < PAGESIZE, Readable (f + k) 1 := fun k hk =>
    h.frame.readable (pageOf_eq_of h.frame.page (by omega)) (by
      have := h.frame.page
      rw [hsz] at *
      omega)
  have hword : ∀ k, k + 4 ≤ PAGESIZE → s.phys.mem.word (f + k) = (execPage k).toNat +
      2 ^ 8 * (execPage (k + 1)).toNat + 2 ^ 16 * (execPage (k + 2)).toNat +
        2 ^ 24 * (execPage (k + 3)).toNat := fun k hk => by
    unfold Bytes.word
    rw [Nat.add_assoc f k 1, Nat.add_assoc f k 2, Nat.add_assoc f k 3, h.page k (by omega),
      h.page (k + 1) (by omega), h.page (k + 2) (by omega), h.page (k + 3) (by omega)]
  have hstr : StringAt s.phys.mem (s.root 0) USER_START initPath := by
    refine ⟨by decide +kernel, _, hwalk 0 (by omega), ?_, fun k hk => ?_, fun k hk => ?_⟩
    · exact h.page 4 (by omega)
    · have hk' : k < 4 := hk
      rw [Nat.add_zero, h.page k (by omega)]
      interval_cases k <;> exact ⟨rfl, by decide⟩
    · have hk' : k ≤ 4 := hk
      exact hread k (by omega)
  have hargs : StringsAt s.phys.mem (s.root 0) (USER_START + 8) [initPath] := by
    refine ⟨by decide, _, hwalk 8 (by omega), fun k hk => ?_, ?_, ?_, _, hwalk 12 (by omega),
      fun k hk => ?_, ?_⟩
    · dsimp only
      rw [Nat.add_assoc]
      exact hread _ (by omega)
    · rw [hword 8 (by omega)]
      decide
    · rw [hword 8 (by omega)]
      exact hstr
    · dsimp only
      rw [Nat.add_assoc]
      exact hread _ (by omega)
    · rw [hword 12 (by omega)]
      rfl
  have hprog : programFrames Cfg.demo.INIT ≤ s.phys.free.length := by
    have hpf : programFrames Cfg.demo.INIT = 5 := by decide +kernel
    rw [hpf, ← hs]
    show 5 ≤ p.free.length
    omega
  obtain ⟨tr, s', he⟩ := h.own.sysExec_runs Cfg.demo_eager (by rw [← hs]; exact Finset.notMem_empty _)
    (by rw [htf, h.a0]; exact hstr) (by rw [htf, h.a1]; exact hargs) (by decide) program_init hprog
    fits_init_arg (by rw [hpt, hsize, hsz, USIZE_eq]; decide)
  exact ⟨s, tr, s', h.own, he⟩

/-! ## Do the arguments arrive -/

/-- `kexec` of `path` built a stack in the frame `f`, which was free. -/
structure NewStack (c : Cfg) (s s' : Sys) (i : Nat) (path : List UInt8) (img : Slice) (f : Nat) :
    Prop where
  program : program c path = some img
  free : f ∈ s.phys.free
  load : ∀ o < PAGESIZE,
    Sv32.userLoad s'.phys.mem (s'.root i) (stackBase img + o) = some (f + o)

theorem Execed.newStack {c : Cfg} {s s' : Sys} {i : Nat} {path : List UInt8} {img : Slice}
    {argv : List (List UInt8)} {v : View} {tab : Nat → Option Nat} {fr : Nat → Nat}
    (h : Execed c s s' i img argv v tab fr) (hp : BareMetal.program c path = some img) :
    NewStack c s s' i path img (fr (stackPage img)) := ⟨hp, h.free, fun _ ho => h.stack_load ho⟩

/-- **`exec` arguments arrive** exactly when no argument's length is a multiple of 8 and the stack's
frame held a 0 after the end of each: `kexec` copies no NUL. -/
theorem kexec_args_iff {c : Cfg} {s : Sys} {i : Nat} (hst : OwnState c s i) :
    (∀ path argv tr s', (∀ arg ∈ argv, (0 : UInt8) ∉ arg) →
      K.Ends c (kexec c i path argv) s tr (.ok ()) s' →
      ∃ img f, NewStack c s s' i path img f ∧
        (ArgsFound s'.phys.mem (s'.data.process_table i).trapframe (s'.root i) argv ↔
          Terminated (stackHeld s.phys.mem img f) (stackBase img + PAGESIZE) argv)) ∧
    (∀ tr s', K.Ends c (sysExec c i) s tr () s' →
      ∃ path argv img f, NewStack c s s' i path img f ∧
        StringsRead s.phys.mem (s.root i)
          (s.phys.mem.word ((s.data.process_table i).trapframe + Trapframe.a1)) argv ∧
        (ArgsFound s'.phys.mem (s'.data.process_table i).trapframe (s'.root i) argv ↔
          Terminated (stackHeld s.phys.mem img f) (stackBase img + PAGESIZE) argv)) := by
  refine ⟨fun path argv tr s' hnul h => ?_, fun tr s' h => ?_⟩
  · obtain ⟨img, v, tab, fr, hp, he, -⟩ := hst.execed h
    exact ⟨img, _, he.newStack hp, he.args_iff hnul⟩
  · obtain ⟨path, argv, s₁, tr₁, s₂, hread, hsame, hk, hsame'⟩ := sysExec_ends hst h
    obtain ⟨img, v, tab, fr, hp, he, -⟩ := (hst.same hsame).execed hk
    have he := he.same hsame'.1 hsame'.2
    have hns := he.newStack hp
    have hiff := he.args_iff hread.nul
    rw [hsame.1] at hiff
    exact ⟨path, argv, img, _, ⟨hp, hsame.1 ▸ hns.free, hns.load⟩, hread, hiff⟩

theorem fits_one : StackFits (stackBase Cfg.demo.INIT) [[1]] :=
  ⟨⟨by decide +kernel, by decide +kernel, by decide +kernel, trivial⟩, by decide +kernel,
    by decide +kernel⟩

/-- A call of `kexec`, and one of `sys_exec` by a process that passes its own name. -/
theorem kexec_args_iff_demo : (∃ tr s' img f,
    K.Ends Cfg.demo (kexec Cfg.demo 0 initPath [[1]]) (Sys.exec 0) tr (.ok ()) s' ∧
      NewStack Cfg.demo (Sys.exec 0) s' 0 initPath img f ∧
      (ArgsFound s'.phys.mem (s'.data.process_table 0).trapframe (s'.root 0) [[1]] ↔
        Terminated (stackHeld (Sys.exec 0).phys.mem img f) (stackBase img + PAGESIZE) [[1]])) ∧
    ∃ s tr s' path argv img f, K.Ends Cfg.demo (sysExec Cfg.demo 0) s tr () s' ∧
      NewStack Cfg.demo s s' 0 path img f ∧ StringsRead s.phys.mem (s.root 0)
        (s.phys.mem.word ((s.data.process_table 0).trapframe + Trapframe.a1)) argv ∧
      (ArgsFound s'.phys.mem (s'.data.process_table 0).trapframe (s'.root 0) argv ↔
        Terminated (stackHeld s.phys.mem img f) (stackBase img + PAGESIZE) argv) := by
  constructor
  · obtain ⟨tr, s', h⟩ := exec_demo 0 fits_one
    obtain ⟨img, f, hns, hiff⟩ := (kexec_args_iff (ownState_demo 0)).1 _ _ tr s' (by decide) h
    exact ⟨tr, s', img, f, h, hns, hiff⟩
  · obtain ⟨s, tr, s', hst, h⟩ := sysExec_demo
    obtain ⟨path, argv, img, f, hrest⟩ := (kexec_args_iff hst).2 tr s' h
    exact ⟨s, tr, s', path, argv, img, f, h, hrest⟩

/-- An argument of eight bytes does not arrive: its end is the end of the stack. -/
theorem kexec_args_lost : ∃ tr s', OwnState Cfg.demo (Sys.exec 0) 0 ∧
    K.Ends Cfg.demo (kexec Cfg.demo 0 initPath [[1, 2, 3, 4, 5, 6, 7, 8]]) (Sys.exec 0) tr (.ok ()) s' ∧
    ¬ ArgsFound s'.phys.mem (s'.data.process_table 0).trapframe (s'.root 0)
      [[1, 2, 3, 4, 5, 6, 7, 8]] := by
  have hfits : StackFits (stackBase Cfg.demo.INIT) [[1, 2, 3, 4, 5, 6, 7, 8]] :=
    ⟨⟨by decide +kernel, by decide +kernel, by decide +kernel, trivial⟩, by decide +kernel,
      by decide +kernel⟩
  obtain ⟨tr, s', h⟩ := exec_demo 0 hfits
  obtain ⟨img, v, tab, fr, hp, he, -⟩ := (ownState_demo 0).execed h
  refine ⟨tr, s', ownState_demo 0, h, fun hf => ?_⟩
  exact ((he.args_iff (by decide)).1 hf).1 rfl

end BareMetal
