import BareMetal.Kernel.Proof.Program

/-!
# What a new program can see of others

Two states differ in free frames and in kernel memory outside the image of a program. `kexec` of
that program gives address spaces that look alike to it exactly when what `kexec` leaves of them in
its pages is alike (`kexec_view_iff`): the bytes that follow the image in its last page, and the
bytes of the stack's frame that are not written.
-/

namespace BareMetal

open Lib K

/-- The same state with other contents of memory. -/
def Sys.withMem (s : Sys) (m : Bytes) : Sys := { s with phys := { s.phys with mem := m } }

/-- `m` differs from the memory of `s` in frames that are free and in kernel memory outside the
image. -/
def DiffersUnseen (c : Cfg) (img : Slice) (s : Sys) (m : Bytes) : Prop :=
  ∀ a, pageOf a ∉ s.phys.free → (a < c.ekernel → img.ptr ≤ a ∧ a < img.ptr + img.len) →
    m a = s.phys.mem a

/-- The user program sees the same bytes. -/
def SameView (s₁ s₂ : Sys) (i : Nat) : Prop :=
  ∀ va, userByte s₁.phys.mem (s₁.root i) va = userByte s₂.phys.mem (s₂.root i) va

/-- The two address spaces have the same frames at the same places. -/
def SameFrames (s₁ s₂ : Sys) (i : Nat) : Prop :=
  ∀ va, Sv32.userLoad s₁.phys.mem (s₁.root i) va = Sv32.userLoad s₂.phys.mem (s₂.root i) va

/-! ## A frame's old contents -/

/-- Where a new program of the demo lies: the root, and the frames of its image and its stack. -/
def placed (b : UInt8) : Option (Nat × Option Nat × Option Nat) :=
  match Uvm.new.run Cfg.demo (execPhys b) with
  | .ok (u, p) =>
    match (kexecLoad Cfg.demo u 0x8020e000 Cfg.demo.INIT).run Cfg.demo p with
    | .ok ((.ok (), u), p) =>
      some (u.pagetable.root, Sv32.userLoad p.mem u.pagetable.root (USER_START + 0),
        Sv32.userLoad p.mem u.pagetable.root (stackBase Cfg.demo.INIT + 0))
    | _ => none
  | _ => none

theorem placed_alike : placed 1 = placed 0 := by decide +kernel

/-- `placed` says where it lies. -/
theorem Execed.placed {b : UInt8} {s' : Sys} {argv : List (List UInt8)} {v : View}
    {tab : Nat → Option Nat} {fr : Nat → Nat}
    (h : Execed Cfg.demo (Sys.exec b) s' 0 Cfg.demo.INIT argv v tab fr) :
    BareMetal.placed b = some (s'.root 0, some (fr 16), some (fr (stackPage Cfg.demo.INIT))) := by
  obtain ⟨u₀, p₁, p₂, h1, h2, hw⟩ := h.loaded
  have hload : ∀ va, Sv32.userLoad p₂.mem (s'.root 0) va = Sv32.userLoad s'.phys.mem (s'.root 0) va :=
    fun va => by
      unfold Sv32.userLoad
      rw [hw]
  have h1 : Uvm.new.run Cfg.demo (execPhys b) = .ok (u₀, p₁) := h1
  have h2 : (kexecLoad Cfg.demo u₀ 0x8020e000 Cfg.demo.INIT).run Cfg.demo p₁ =
    .ok ((.ok (), (s'.data.process_table 0).pagetable), p₂) := h2
  have hsz := PAGESIZE_eq
  have himg : 0 < imagePages Cfg.demo.INIT * PAGESIZE := by
    rw [show imagePages Cfg.demo.INIT = 1 by decide +kernel]
    omega
  have hl1 := h.image_load himg
  have hl2 := h.stack_load (o := 0) (by omega)
  unfold BareMetal.placed
  rw [h1]
  dsimp only
  rw [h2]
  dsimp only
  rw [hload, hload, hl1, hl2, h.bounds.1, Nat.zero_div, Nat.zero_mod]
  rfl

theorem mem_execFrames {f : Nat} (h : f ∈ execFrames) : 0x80210000 ≤ f ∧ f % PAGESIZE = 0 := by
  unfold execFrames at h
  obtain ⟨i, -, rfl⟩ := List.mem_map.1 h
  rw [PAGESIZE_eq]
  omega

/-- Outside the frames nothing depends on `b`; the frames hold `b`. -/
theorem execPhys_mem (b : UInt8) :
    (∀ a, pageOf a ∉ execFrames → (execPhys b).mem a = (execPhys 0).mem a) ∧
      ∀ f ∈ execFrames, (execPhys b).mem f = b := by
  refine ⟨fun a ha => ?_, fun f hf => ?_⟩
  · simp [execPhys, Bytes.fill, dirty, ha]
  · obtain ⟨hlow, hp⟩ := mem_execFrames hf
    have hs : Trapframe.SIZE = 144 := rfl
    have hpf : pageOf f ∈ execFrames := by rwa [pageOf_self hp]
    unfold execPhys Bytes.fill dirty
    dsimp only
    rw [hs, PAGESIZE_eq, if_neg (by omega), if_neg (by omega), if_pos hpf]

theorem differs_demo : DiffersUnseen Cfg.demo Cfg.demo.INIT (Sys.exec 0) (execPhys 1).mem :=
  fun a ha _ => (execPhys_mem 1).1 a ha

/-! ## Do two states look alike -/

/-- What the process has does not differ. -/
theorem OwnState.withMem {c : Cfg} {s : Sys} {i : Nat} {img : Slice} {m : Bytes}
    (h : OwnState c s i) (hm : DiffersUnseen c img s m) : OwnState c (s.withMem m) i := by
  obtain ⟨v, total, tab, hof, htf, hs⟩ := h
  refine ⟨⟨v.own, m⟩, total, tab, ⟨rfl, fun _ _ => rfl, hof.nodup, hof.disj, hof.cover, hof.frame⟩,
    htf, hs.congr (fun _ hf => hf) fun a ha => ?_⟩
  have hown : pageOf a ∈ v.own := Finset.mem_of_mem_erase (hs.tree.has_own ha)
  have hk := (hof.frame _ ((hof.cover _).2 (.inl hown))).start
  have hle := Nat.le_trans hk (pageOf_le a).1
  exact (hm a (hof.disj _ hown) fun hlt => absurd hlt (by omega)).trans (congrFun hof.mem a).symm

/-- **A new program sees no one else's data** exactly when the bytes after its image are alike, and
the bytes of the stack's frame that `kexec` does not write. -/
theorem kexec_view_iff {c : Cfg} {s s₁ s₂ : Sys} {m : Bytes} {i : Nat} {path : List UInt8}
    {argv : List (List UInt8)} {img : Slice} {tr₁ tr₂ : List (KOp × Sys)} (hst : OwnState c s i)
    (hp : program c path = some img) (hm : DiffersUnseen c img s m)
    (h₁ : K.Ends c (kexec c i path argv) s tr₁ (.ok ()) s₁)
    (h₂ : K.Ends c (kexec c i path argv) (s.withMem m) tr₂ (.ok ()) s₂) :
    ∃ f₁ f₂, NewStack c s s₁ i path img f₁ ∧ NewStack c (s.withMem m) s₂ i path img f₂ ∧
      (SameView s₁ s₂ i ↔
        (∀ j, img.len ≤ j → j < imagePages img * PAGESIZE →
          s.phys.mem (img.ptr + j) = m (img.ptr + j)) ∧
        ∀ o < PAGESIZE, stackByte (stackBase img + PAGESIZE) argv (stackBase img + o) = none →
          s.phys.mem (f₁ + o) = m (f₂ + o)) := by
  obtain ⟨img₁, v₁, tab₁, fr₁, hp₁, e₁, -⟩ := hst.execed h₁
  obtain ⟨img₂, v₂, tab₂, fr₂, hp₂, e₂, -⟩ := (hst.withMem hm).execed h₂
  obtain rfl : img = img₁ := Option.some.inj (hp.symm.trans hp₁)
  obtain rfl : img = img₂ := Option.some.inj (hp.symm.trans hp₂)
  refine ⟨_, _, e₁.newStack hp, e₂.newStack hp, fun h => ⟨fun j _ hj => ?_, fun o ho hno => ?_⟩,
    fun ⟨himg, hstack⟩ va => ?_⟩
  · have hv := h (USER_START + j)
    rw [e₁.image_byte hj, e₂.image_byte hj] at hv
    exact Option.some.inj hv
  · have hv := h (stackBase img + o)
    rw [e₁.stack_byte ho, e₂.stack_byte ho, hno] at hv
    exact Option.some.inj hv
  · by_cases hi : ∃ j < imagePages img * PAGESIZE, va = USER_START + j
    · -- the image, or what follows it in the kernel
      obtain ⟨j, hj, rfl⟩ := hi
      rw [e₁.image_byte hj, e₂.image_byte hj]
      by_cases hlen : img.len ≤ j
      · exact congrArg _ (himg j hlen hj)
      · obtain ⟨v₀, total, tab₀, hof, -, -⟩ := hst
        have hout : pageOf (img.ptr + j) ∉ s.phys.free := fun hf =>
          e₁.fits.pages.not_frame hj (hof.frame _ ((hof.cover _).2 (.inr hf))) rfl
        exact congrArg _ (hm _ hout fun _ => ⟨by omega, by omega⟩).symm
    · by_cases hs : ∃ o < PAGESIZE, va = stackBase img + o
      · obtain ⟨o, ho, rfl⟩ := hs
        rw [e₁.stack_byte ho, e₂.stack_byte ho]
        cases hb : stackByte (stackBase img + PAGESIZE) argv (stackBase img + o) with
        | none => exact congrArg _ (hstack o ho hb)
        | some b => rfl
      · have hn : ∀ {P : Nat → Prop} {f : Nat → Nat}, (¬ ∃ j, P j ∧ va = f j) → ∀ j, P j → va ≠ f j :=
          fun h j hj he => h ⟨j, hj, he⟩
        unfold userByte
        rw [e₁.nothing (hn hi) (hn hs), e₂.nothing (hn hi) (hn hs)]
        rfl

theorem kexec_view_iff_demo : ∃ tr₁ s₁ tr₂ s₂ f₁ f₂,
    K.Ends Cfg.demo (kexec Cfg.demo 0 initPath [[1]]) (Sys.exec 0) tr₁ (.ok ()) s₁ ∧
    K.Ends Cfg.demo (kexec Cfg.demo 0 initPath [[1]]) (Sys.exec 1) tr₂ (.ok ()) s₂ ∧
    NewStack Cfg.demo (Sys.exec 0) s₁ 0 initPath Cfg.demo.INIT f₁ ∧
    NewStack Cfg.demo (Sys.exec 1) s₂ 0 initPath Cfg.demo.INIT f₂ := by
  obtain ⟨tr₁, s₁, h₁⟩ := exec_demo 0 fits_one
  obtain ⟨tr₂, s₂, h₂⟩ := exec_demo 1 fits_one
  obtain ⟨f₁, f₂, n₁, n₂, -⟩ := kexec_view_iff (m := (execPhys 1).mem) (ownState_demo 0)
    program_init differs_demo h₁ h₂
  exact ⟨tr₁, s₁, tr₂, s₂, f₁, f₂, h₁, h₂, n₁, n₂⟩

/-- **The stack's frame keeps what was in it**: two states that differ in the free frames only, the
same frames handed out, and the new program sees the difference. -/
theorem kexec_view_leaks : ∃ m tr₁ s₁ tr₂ s₂, OwnState Cfg.demo (Sys.exec 0) 0 ∧
    DiffersUnseen Cfg.demo Cfg.demo.INIT (Sys.exec 0) m ∧
    K.Ends Cfg.demo (kexec Cfg.demo 0 initPath [[1]]) (Sys.exec 0) tr₁ (.ok ()) s₁ ∧
    K.Ends Cfg.demo (kexec Cfg.demo 0 initPath [[1]]) ((Sys.exec 0).withMem m) tr₂ (.ok ()) s₂ ∧
    SameFrames s₁ s₂ 0 ∧ ¬ SameView s₁ s₂ 0 := by
  have hwith : (Sys.exec 0).withMem (execPhys 1).mem = Sys.exec 1 := rfl
  obtain ⟨tr₁, s₁, h₁⟩ := exec_demo 0 fits_one
  obtain ⟨tr₂, s₂, h₂⟩ := exec_demo 1 fits_one
  obtain ⟨img₁, v₁, tab₁, fr₁, hp₁, e₁, -⟩ := (ownState_demo 0).execed h₁
  obtain ⟨img₂, v₂, tab₂, fr₂, hp₂, e₂, -⟩ := (ownState_demo 1).execed h₂
  obtain rfl : Cfg.demo.INIT = img₁ := Option.some.inj (program_init.symm.trans hp₁)
  obtain rfl : Cfg.demo.INIT = img₂ := Option.some.inj (program_init.symm.trans hp₂)
  -- the frames
  have hpl := e₁.placed.symm.trans (placed_alike.symm.trans e₂.placed)
  simp only [Option.some.injEq, Prod.mk.injEq] at hpl
  obtain ⟨-, himg, hstack⟩ := hpl
  refine ⟨(execPhys 1).mem, tr₁, s₁, tr₂, s₂, ownState_demo 0, differs_demo, h₁, hwith ▸ h₂, fun va => ?_, fun hv => ?_⟩
  · by_cases hi : ∃ j < imagePages Cfg.demo.INIT * PAGESIZE, va = USER_START + j
    · obtain ⟨j, hj, rfl⟩ := hi
      have hq : pageNo USER_START + j / PAGESIZE = 16 := by
        rw [show imagePages Cfg.demo.INIT = 1 by decide +kernel] at hj
        rw [e₁.bounds.1, Nat.div_eq_of_lt (by omega)]
      rw [e₁.image_load hj, e₂.image_load hj, hq, himg]
    · by_cases hs : ∃ o < PAGESIZE, va = stackBase Cfg.demo.INIT + o
      · obtain ⟨o, ho, rfl⟩ := hs
        rw [e₁.stack_load ho, e₂.stack_load ho, hstack]
      · rw [e₁.nothing (fun j hj he => hi ⟨j, hj, he⟩) (fun o ho he => hs ⟨o, ho, he⟩),
          e₂.nothing (fun j hj he => hi ⟨j, hj, he⟩) (fun o ho he => hs ⟨o, ho, he⟩)]
  · -- the first byte of the stack
    have hpos : 0 < PAGESIZE := by
      rw [PAGESIZE_eq]
      omega
    have hb := hv (stackBase Cfg.demo.INIT + 0)
    have hno : stackByte (stackBase Cfg.demo.INIT + PAGESIZE) [[1]] (stackBase Cfg.demo.INIT + 0) = none := by
      decide +kernel
    rw [e₁.stack_byte hpos, e₂.stack_byte hpos, hno] at hb
    have h0 := (execPhys_mem 0).2 _ e₁.free
    have h1 := (execPhys_mem 1).2 _ e₂.free
    have hb : (execPhys 0).mem (fr₁ (stackPage Cfg.demo.INIT)) =
      (execPhys 1).mem (fr₂ (stackPage Cfg.demo.INIT)) := Option.some.inj hb
    rw [h0, h1] at hb
    cases hb

end BareMetal
