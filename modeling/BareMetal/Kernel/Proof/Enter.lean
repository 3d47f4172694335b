import BareMetal.Kernel.Proof.First

/-!
# System calls

The way into the kernel with nothing else running: `uservec` saves the registers, and `usertrap`
comes to `syscall` with interrupts on (`K.comes_ecall`). `Machine.Later.ecall`: a process in user
mode can make any system call.
-/

namespace BareMetal

open Lib K

/-! ## The registers -/

theorem M.write_run {c : Cfg} {p : Phys} {a x : Nat} (h : c.Writable a 4) :
    (M.write a x).run c p = .ok ((), { p with mem := p.mem.setWord a x }) := by
  show Free.run (Phys.exec c) (.op (.write a x) .ret) p = _
  rw [Free.run_op, Phys.exec, if_pos h]
  rfl

theorem saveRegs_run {c : Cfg} (tf : Nat) (regs : Nat → Nat) (rs : List Nat) : ∀ {p : Phys},
    (∀ r ∈ rs, c.Writable (tf + r) 4) → rs.Pairwise (fun r r' => r + 4 ≤ r') →
    ∃ m, (saveRegs tf regs rs).run c p = .ok ((), { p with mem := m }) ∧
      Saves tf regs rs p.mem m := by
  induction rs with
  | nil => exact fun {p} _ _ => ⟨p.mem, rfl, fun _ _ => rfl, fun _ hr => by cases hr⟩
  | cons r rs ih =>
    intro p hw hd
    obtain ⟨hlt, hd⟩ := List.pairwise_cons.1 hd
    obtain ⟨m, hx, hs⟩ := ih (p := { p with mem := p.mem.setWord (tf + r) (regs r) })
      (fun x hx => hw x (List.mem_cons_of_mem _ hx)) hd
    refine ⟨m, ?_, hs.cons hlt⟩
    unfold saveRegs
    rw [M.run, Free.run_bind, ← M.run, M.write_run (hw r List.mem_cons_self)]
    exact hx

/-- The offsets of the registers, behind the kernel's words. -/
theorem Trapframe.regs_bound : ∀ r ∈ Trapframe.regs, 20 ≤ r ∧ r + 4 ≤ Trapframe.SIZE := by decide

/-! ## `uservec` and `usertrap` -/

/-- After `uservec` for the trapframe `tf`. -/
structure Trapped (tf : Nat) (s s' : Sys) : Prop where
  regs : Saves tf s.data.regs Trapframe.regs s.phys.mem s'.phys.mem
  free : s'.phys.free = s.phys.free
  data : ∃ satp, s'.data = s.data.updCsr fun csr => { csr with satp }
  locks : SameLocks s s'

/-- The process whose trapframe is `tf` has made a system call with the registers `regs`. -/
structure Called (tf : Nat) (regs : Nat → Nat) (s s' : Sys) : Prop
    extends s.data.SameTable s'.data where
  mem : ∀ a, pageOf a ≠ tf → s'.phys.mem a = s.phys.mem a
  free : s'.phys.free = s.phys.free
  holds : s'.locks.Holds true ∅
  /-- The handler finds the registers in the trapframe. -/
  regs : ∀ r ∈ Trapframe.regs, s'.phys.mem.word (tf + r) = regs r

namespace K

variable {c : Cfg} {s : Sys} {i tf : Nat}

theorem always_locks {Q : Locks → Sys → Prop} (h : Q s.locks s) :
    Always c (fun _ _ => True) K.locks Q s := ⟨trivial, fun _ _ => ⟨s.locks, s, rfl, h⟩⟩

/-- `trapframe.field = x` -/
theorem always_trapframeWrite {k x : Nat} {Q : Unit → Sys → Prop} (hf : c.IsFrame tf)
    (htf : (s.data.process_table i).trapframe = tf) (hk : k + 4 ≤ Trapframe.SIZE)
    (h : Q () { s with phys := { s.phys with mem := s.phys.mem.setWord (tf + k) x } }) :
    Always c (fun _ _ => True) (trapframeWrite i k x) Q s := by
  refine always_bind (always_proc ?_)
  rw [htf]
  exact always_mem (if_pos (hf.field_writable hk)) trivial h

theorem always_trapframeField {k : Nat} {Q : Nat → Sys → Prop} (hf : c.IsFrame tf)
    (htf : (s.data.process_table i).trapframe = tf) (hk : k + 4 ≤ Trapframe.SIZE)
    (h : Q (s.phys.mem.word (tf + k)) s) :
    Always c (fun _ _ => True) (trapframeRead i k) Q s := by
  refine always_bind (always_proc ?_)
  rw [htf]
  exact always_mem (if_pos (hf.field_readable hk)) trivial h

theorem always_uservec {own : Finset Nat} {Q : Unit → Sys → Prop}
    (hm : SlotMem c own s.phys.mem (s.data.process_table i) True)
    (hd : (s.data.process_table i).dropping = false)
    (hf : c.IsFrame (s.data.process_table i).trapframe)
    (hsatp : satpRoot s.data.csr.satp = s.root i) (hh : LockId.heap ∉ s.locks.held)
    (h : ∀ s', Trapped (s.data.process_table i).trapframe s s' → Q () s') :
    Always c (fun _ _ => True) uservec Q s := by
  obtain ⟨tab, hs, -⟩ := hm.space hd
  have hwalk : Sv32.walk s.phys.mem (s.root i) TRAPFRAME =
      some (leafWord (s.data.process_table i).trapframe (PTE_R ||| PTE_W),
        (s.data.process_table i).trapframe) := hm.walk_trapframe hd hf
  unfold uservec
  refine always_bind (always_get (always_bind (always_run
    (hartTrapframe_run (by rw [hsatp]; exact hs.tree) rfl hf (by rw [hsatp]; exact hwalk)) hh
    fun s₁ p1 d1 l1 => ?_)))
  obtain ⟨m, hx, hsave⟩ := saveRegs_run (c := c) (p := s₁.phys)
    (s.data.process_table i).trapframe s.data.regs Trapframe.regs
    (fun r hr => hf.field_writable (Trapframe.regs_bound r hr).2) (by decide)
  refine always_bind (always_run hx (by rwa [l1.held]) fun s₂ p2 d2 l2 =>
    always_bind (always_run (M.read_run (hf.field_readable (by decide))) (by rwa [l2.held, l1.held])
      fun s₃ p3 d3 l3 => always_set (h _ ⟨?_, ?_, ⟨s₂.phys.mem.word
        ((s.data.process_table i).trapframe + Trapframe.kernel_satp), ?_⟩, ?_⟩)))
  · show Saves _ _ _ s.phys.mem s₃.phys.mem
    rw [p3, p2]
    rw [p1] at hsave
    exact hsave
  · show s₃.phys.free = _
    rw [p3, p2, p1]
  · dsimp only
    rw [d3, d2, d1]
  · exact ((l1.trans l2).trans l3).congr rfl rfl

/-- **A system call** comes to `syscall`. -/
theorem comes_ecall {own : Finset Nat} {D : K Label → Sys → Prop} {s₀ : Sys} {pc : Nat}
    (hs : s = s₀.trap ECALL pc false)
    (hm : SlotMem c own s.phys.mem (s.data.process_table i) True)
    (hd : (s.data.process_table i).dropping = false)
    (hf : c.IsFrame (s.data.process_table i).trapframe)
    (hsatp : satpRoot s.data.csr.satp = s.root i) (hheld : s₀.locks.held = ∅)
    (hstack : s₀.locks.interrupt_off_stack = 0) (hcur : s.data.current = some i)
    (hpc : pc + 4 < USIZE) (hw : ∀ r, s.data.regs r < 2 ^ 32)
    (h : ∀ s', Called (s.data.process_table i).trapframe s.data.regs s s' →
      Comes c D (syscall c i) s') :
    Comes c D (uservec >>= fun _ => usertrap c) s := by
  have hheld : s.locks.held = ∅ := by rw [hs]; exact hheld
  have hholds : s.locks.Holds false ∅ := by
    rw [hs]
    exact ⟨by rw [hs] at hheld; exact hheld, hstack, (if_pos rfl).symm, fun h => (h rfl).elim⟩
  have hcsr : s.data.csr.spp = false ∧ s.data.csr.scause = ECALL ∧ s.data.csr.sepc = pc := by
    rw [hs]
    exact ⟨rfl, rfl, rfl⟩
  refine comes_bind (always_uservec hm hd hf hsatp (by rw [hheld]; exact Finset.notMem_empty _)
    fun s₁ h₁ => ?_)
  obtain ⟨satp, hd₁⟩ := h₁.data
  have hb₁ := h₁.locks.holds hholds
  generalize htf : (s.data.process_table i).trapframe = tf at *
  have htf₁ : (s₁.data.process_table i).trapframe = tf := by
    rw [hd₁]
    exact htf
  have hsie : s₁.locks.sie = false := hb₁.sie
  unfold usertrap
  refine comes_bind (always_get ?_)
  rw [show s₁.data.current = some i by rw [hd₁]; exact hcur,
    show s₁.data.csr.spp = false by rw [hd₁]; exact hcsr.1,
    show s₁.data.csr.scause = ECALL by rw [hd₁]; exact hcsr.2.1]
  dsimp only
  refine comes_bind (always_locks ?_)
  rw [hsie]
  refine comes_bind (always_set (comes_bind (always_trapframeWrite hf htf₁ (by decide) ?_)))
  rw [if_pos rfl]
  refine comes_bind (always_trapframeField hf htf₁ (by decide) (comes_bind (always_add ?_
    (comes_bind (always_trapframeWrite hf htf₁ (by decide) (comes_bind (always_setSie
      (h _ ⟨⟨?_, ?_, ?_, ?_, ?_⟩, fun a ha => ?_, h₁.free, ?_, fun r hr => ?_⟩))))))))
  · have hpc' : pc < 2 ^ 32 := by
      rw [USIZE_eq] at hpc
      omega
    rw [hd₁]
    show Bytes.word (Bytes.setWord _ _ s.data.csr.sepc) _ + 4 < _
    rw [hcsr.2.2, Bytes.word_setWord hpc']
    exact hpc
  · show s₁.data.process_table = _
    rw [hd₁]
    rfl
  · show s₁.data.nproc = _
    rw [hd₁]
    rfl
  · show s₁.data.pid = _
    rw [hd₁]
    rfl
  · show s₁.data.current = _
    rw [hd₁]
    rfl
  · show s₁.data.log = _
    rw [hd₁]
    rfl
  · have hne : ∀ k, k + 4 ≤ Trapframe.SIZE → a < tf + k ∨ tf + k + 4 ≤ a := fun k hk => by
      by_contra hin
      exact ha (pageOf_eq_of hf.page (by have := Trapframe.in_page hk; omega))
    show Bytes.setWord (Bytes.setWord _ (tf + 12) _) (tf + 12) _ a = _
    rw [Bytes.setWord_ne (hne 12 (by decide)), Bytes.setWord_ne (hne 12 (by decide))]
    exact h₁.regs.rest a fun r hr => hne r (Trapframe.regs_bound r hr).2
  · exact ⟨hb₁.held, hb₁.stack, (if_pos rfl).symm, fun h => (h rfl).elim⟩
  · have hlow := (Trapframe.regs_bound r hr).1
    show Bytes.word (Bytes.setWord (Bytes.setWord _ (tf + 12) _) (tf + 12) _) (tf + r) = _
    rw [Bytes.word_setWord_ne (by omega), Bytes.word_setWord_ne (by omega)]
    exact h₁.regs.word r hr (hw r)

end K

namespace Machine

variable {c : Cfg} {m : Machine} {i : Nat}

/-- The invariants where interrupts are on. -/
theorem Reach.settled (hr : Reach c StatusFits m) (hs : m.sys.locks.sie = true)
    (hcur : m.sys.data.current = some i) : ∃ own h, Owned c own m.sys.phys.free ∧
      Inv c.tracked (some i) ⟨m.sys, own, h⟩ := by
  obtain ⟨h, hr⟩ := hr.run
  obtain ⟨me, own, hi⟩ := hr.keeps_tracked
  have hset := hi.settled hs
  obtain rfl : me = some i := hset.current.symm.trans hcur
  exact ⟨own, h, hi.owned hr.linked, hset.inv⟩

/-- The way back to user mode. -/
theorem Later.usertrapret (hr : Reach c StatusFits m) (hc : m.code = BareMetal.usertrapret c i)
    (hs : m.sys.locks.sie = true) (hh : m.sys.locks.held = ∅)
    (hcur : m.sys.data.current = some i) (hd : (m.sys.data.process_table i).dropping = false)
    (hk : (m.sys.data.process_table i).kstack + KERNEL_STACK_PAGES * PAGESIZE < USIZE) :
    ∃ s, Resumed i (m.sys.data.process_table i).trapframe m.sys s ∧
      Later c StatusFits m { m with sys := s, code := .ret .user } := by
  obtain ⟨own, h, how, hi⟩ := hr.settled hs hcur
  have hslot : SlotMem c (own (.slot i)) m.sys.phys.mem (m.sys.data.process_table i) True :=
    hi.runSlot hr.linked
  obtain ⟨p, s, ⟨l, rfl, rfl, hq⟩, hl⟩ := Later.comes hc (always_usertrapret
    (Q := fun l s => l = .user ∧ Resumed i (m.sys.data.process_table i).trapframe m.sys s) hslot hd
    (how.frame _ _ hslot.trapframe) rfl hk (by rw [hh]; exact Finset.notMem_empty _)
    fun s' h => ⟨rfl, h⟩).comes
  exact ⟨s, hq, hl⟩

/-- The invariants of a process in user mode. -/
theorem Reach.user (hr : Reach c StatusFits m) (hc : m.code = .ret .user)
    (hcur : m.sys.data.current = some i) : ∃ own h, Owned c own m.sys.phys.free ∧
      Settled c.tracked (some i) ⟨m.sys, own, h⟩ ∧ m.sys.locks.interrupt_off_stack = 0 ∧
      m.sys.locks.umode = true ∧ (m.sys.data.process_table i).dropping = false ∧
      satpRoot m.sys.data.csr.satp = m.sys.root i := by
  obtain ⟨h, hr⟩ := hr.run
  obtain ⟨me, own, hi⟩ := hr.keeps_tracked
  have hp := hi.code
  rw [hc] at hp
  obtain ⟨j, rfl, hu, -, hset, hd, -, hsatp, -⟩ := hp
  obtain rfl := Option.some.inj (hcur.symm.trans hset.current)
  refine ⟨own, h, hi.owned hr.linked, hset, ?_, hu, hd, hsatp hr.linked⟩
  have hheld : m.sys.locks.held = ∅ := hset.held
  rw [hi.locks.stack, hheld]
  rfl

/-- **A process in user mode** can make a system call with any registers. -/
theorem Later.ecall (hr : Reach c StatusFits m) (hc : m.code = .ret .user)
    (hcur : m.sys.data.current = some i) (regs : Nat → Nat) (hregs : ∀ r, regs r < 2 ^ 32) :
    ∃ s, Called (m.sys.data.process_table i).trapframe regs m.sys s ∧
      Later c StatusFits m { m with sys := s, code := syscall c i } := by
  obtain ⟨own, h, how, hset, hstack, hu, hd, hsatp⟩ := hr.user hc hcur
  have hslot : SlotMem c (own (.slot i)) m.sys.phys.mem (m.sys.data.process_table i) True :=
    hset.inv.runSlot hr.linked
  have hvec : m.sys.data.csr.stvec = .uservec := hset.stvec.trans (if_pos hu)
  have hno : ∀ {m' : Machine}, m'.code = .ret .user → m'.StatusFits := fun hc i a k h => by
    have := hc.symm.trans h
    cases this
  -- the program sets its registers, and calls
  obtain ⟨s₁, hs₁⟩ : ∃ s₁, s₁ = m.sys.user m.sys.phys regs 0 := ⟨_, rfl⟩
  have h₁ : Step c m { m with sys := s₁ } := by
    rw [hs₁]
    exact .user hc hregs (by decide) ⟨rfl, rfl, fun a ha => (ha rfl).elim⟩
  have h₂ : Step c { m with sys := s₁ } { m with
      sys := s₁.trap ECALL 0 false, code := uservec >>= fun _ => usertrap c } := by
    have hs := @Step.trap c { m with sys := s₁ } ECALL hc
    rw [show s₁.data.csr.stvec = .uservec by rw [hs₁]; exact hvec,
      show s₁.data.pc = 0 by rw [hs₁]; rfl] at hs
    exact hs
  have hcomes : Comes c (fun p s => p = syscall c i ∧
      Called (m.sys.data.process_table i).trapframe regs m.sys s)
      (uservec >>= fun _ => usertrap c) (s₁.trap ECALL 0 false) := by
    have hslot₁ : SlotMem c (own (.slot i)) (s₁.trap ECALL 0 false).phys.mem
        ((s₁.trap ECALL 0 false).data.process_table i) True := by
      rw [hs₁]
      exact hslot
    refine comes_ecall (rfl : _ = s₁.trap ECALL 0 false) hslot₁ (by rw [hs₁]; exact hd)
      (by rw [hs₁]; exact how.frame _ _ hslot.trapframe) (by rw [hs₁]; exact hsatp)
      (by rw [hs₁]; exact hset.held) (by rw [hs₁]; exact hstack) (by rw [hs₁]; exact hcur)
      (by rw [USIZE_eq]; decide) (by rw [hs₁]; exact hregs) fun s h => comes_here ⟨rfl, ?_⟩
    rw [hs₁] at h
    exact ⟨⟨h.process_table, h.nproc, h.pid, h.current, h.log⟩, h.mem, h.free, h.holds, h.regs⟩
  obtain ⟨p, s, ⟨rfl, hcall⟩, hl⟩ := Later.comes (m := { m with
    sys := s₁.trap ECALL 0 false, code := uservec >>= fun _ => usertrap c }) rfl hcomes
  exact ⟨s, hcall, .head ⟨hno hc, h₁⟩ (.head ⟨hno hc, h₂⟩ hl)⟩

/-- The system call `n` with the argument `x`, and what `syscall` reads. -/
theorem Later.call {n x : Nat} (hr : Reach c StatusFits m) (hc : m.code = .ret .user)
    (hcur : m.sys.data.current = some i) (hn : n < 2 ^ 32) (hx : x < 2 ^ 32) :
    ∃ s regs, Called (m.sys.data.process_table i).trapframe regs m.sys s ∧
      c.IsFrame (s.data.process_table i).trapframe ∧
      s.phys.mem.word ((s.data.process_table i).trapframe + Trapframe.a7) = n ∧
      s.phys.mem.word ((s.data.process_table i).trapframe + Trapframe.a0) = x ∧
      Later c StatusFits m { m with sys := s, code := syscall c i } := by
  obtain ⟨s, hs, hl⟩ := Later.ecall hr hc hcur (fun r => if r = Trapframe.a7 then n else x)
    fun r => by split <;> assumption
  obtain ⟨own, h, how, hi⟩ := (hl.reach hr).settled hs.holds.sie (hs.current.trans hcur)
  have h7 := hs.regs Trapframe.a7 (by decide)
  have h0 := hs.regs Trapframe.a0 (by decide)
  rw [if_pos rfl] at h7
  rw [if_neg (by decide)] at h0
  rw [← hs.process_table] at h7 h0
  exact ⟨s, _, hs, how.frame _ _ (hi.runSlot hr.linked).trapframe, h7, h0, hl⟩

end Machine

end BareMetal
