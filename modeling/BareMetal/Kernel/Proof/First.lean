import BareMetal.Kernel.Proof.Dispatch

/-!
# The first instruction of init

The way back to user mode with nothing else running (`K.always_usertrapret`): the hart has the
process's page table, its registers and its pc. `Machine.Leads`: from a machine every run without
interrupts comes to one with a given property. From the entry of `main` it comes to the first
instruction of init, which finds its image, its stack pointer and its arguments (`main_enters_init`).
-/

namespace BareMetal

open Lib

/-! ## Runs without interrupts -/

namespace Machine

/-- Every run from here without interrupts comes to a machine with `Q`, whatever the time and
whatever answers the operations that the model leaves open; before that all machines satisfy `A`. -/
inductive Leads (c : Cfg) (A Q : Machine → Prop) : Machine → Prop
  | now {m} (h : Q m) : Leads c A Q m
  | op {m o k} {r : Nat → Nat → KOp.Resp o} {s : Nat → Nat → Sys} (ha : A m) (hc : m.code = .op o k)
    (hx : ∀ t n, o.exec c t n m.sys = .ok (r t n, s t n))
    (h : ∀ t n, Leads c A Q { m with sys := s t n, code := k (r t n) }) : Leads c A Q m
  | toProc {m i k} (ha : A m) (hc : m.code = .op (.toProc i) k)
    (h : Leads c A Q { m with code := m.resume c i, sched := k () }) : Leads c A Q m
  | label {m l code} (ha : A m) (hc : m.code = .ret l) (he : l.entry c = some code)
    (h : Leads c A Q { m with code := code }) : Leads c A Q m

variable {c : Cfg} {A Q : Machine → Prop} {m : Machine} {h : History}
  {own : Party → Finset Nat}

/-- One of them is a run of the machine. -/
theorem Leads.later (hl : Leads c A Q m) : ∃ m', Later c A m m' ∧ Q m' := by
  induction hl with
  | now hq => exact ⟨_, .refl, hq⟩
  | op ha hc hx _ ih =>
    obtain ⟨m', hl, hq⟩ := ih _ 0
    exact ⟨m', .head ⟨ha, .op hc (hx _ 0)⟩ hl, hq⟩
  | toProc ha hc _ ih =>
    obtain ⟨m', hl, hq⟩ := ih
    exact ⟨m', .head ⟨ha, .toProc hc⟩ hl, hq⟩
  | label ha hc he _ ih =>
    obtain ⟨m', hl, hq⟩ := ih
    exact ⟨m', .head ⟨ha, .label hc he⟩ hl, hq⟩

theorem Leads.reach (hl : Leads c A Q m) (hr : Reach c A m) : ∃ m', Reach c A m' ∧ Q m' := by
  obtain ⟨m', hl, hq⟩ := hl.later
  exact ⟨m', hl.reach hr, hq⟩

theorem Leads.mono {A' Q' : Machine → Prop} (hl : Leads c A Q m) (hA : ∀ m, A m → A' m)
    (hQ : ∀ m, Q m → Q' m) : Leads c A' Q' m := by
  induction hl with
  | now hq => exact .now (hQ _ hq)
  | op ha hc hx _ ih => exact .op (hA _ ha) hc hx ih
  | toProc ha hc _ ih => exact .toProc (hA _ ha) hc ih
  | label ha hc he _ ih => exact .label (hA _ ha) hc he ih

end Machine

theorem MInv.at_time {E : Env} {m : Machine} {h : History} {me : Option Nat}
    {own : Party → Finset Nat} (hi : MInv E m h me own) (t : Nat) :
    MInv E { m with time := t } h me own :=
  ⟨hi.locks, hi.owned, hi.settled, hi.code, hi.threads, hi.sched, hi.timer⟩

/-! ## Memory code that reads -/

section
variable {c : Cfg} {p : Phys} {v : View} {root : Nat} {tab : Nat → Option Nat}

theorem M.read_run {a : Nat} (h : Readable a 4) : (M.read a).run c p = .ok (p.mem.word a, p) := by
  show Free.run (Phys.exec c) (.op (.read a) .ret) p = _
  rw [Free.run_op, Phys.exec, if_pos h]
  rfl

/-- The hart can read every entry of the page tables. -/
theorem hartWalk_run (h : Tree c v root tab) (hm : v.mem = p.mem) (va : Nat) :
    (hartWalk root va).run c p = .ok (Sv32.walk p.mem root va, p) := by
  have hword : ∀ {f k}, c.IsFrame f → k < 1024 → Readable (f + 4 * k) 4 := fun {f k} hf hk => by
    have h1 := hf.page
    rw [PAGESIZE_eq] at h1
    refine hf.readable (pageOf_eq_of hf.page ?_) ?_
    · rw [PAGESIZE_eq]
      omega
    · rw [PAGESIZE_eq]
      omega
  unfold hartWalk Sv32.walk
  by_cases hva : va < USIZE
  · have hk : va / 2 ^ 22 < 1024 := by
      rw [USIZE_eq] at hva
      omega
    have hdir := h.dir _ hk
    rw [hm] at hdir
    rw [if_pos hva, if_pos hva, M.run, Free.run_bind, ← M.run, M.read_run (hword h.root_frame hk)]
    dsimp only
    by_cases h0 : p.mem.word (root + 4 * (va / 2 ^ 22)) % 2 = 0
    · rw [if_pos h0, if_pos h0]
      rfl
    · rw [if_neg h0, if_neg h0]
      by_cases hl : Sv32.isLeaf (p.mem.word (root + 4 * (va / 2 ^ 22)))
      · rw [if_pos hl, if_pos hl]
        rfl
      · rw [if_neg hl, if_neg hl]
        have hr : Readable (p.mem.word (root + 4 * (va / 2 ^ 22)) / 2 ^ 10 * 2 ^ 12 +
            4 * (va / 2 ^ 12 % 2 ^ 10)) 4 := by
          cases ht : tab (va / 2 ^ 22) with
          | none =>
            rw [hdir, ht] at h0
            exact (h0 rfl).elim
          | some t =>
            have hp := (h.frame ht).page
            rw [PAGESIZE_eq] at hp
            rw [hdir, ht, dirWord, show ptrWord t / 2 ^ 10 * 2 ^ 12 = t by unfold ptrWord; omega]
            exact hword (h.frame ht) (Nat.mod_lt _ (by decide))
        rw [Free.run_bind, ← M.run, M.read_run hr]
        rfl
  · rw [if_neg hva, if_neg hva]
    rfl

/-- The vectors find the trapframe. -/
theorem hartTrapframe_run {satp tf : Nat} (h : Tree c v (satpRoot satp) tab) (hm : v.mem = p.mem)
    (hf : c.IsFrame tf)
    (hw : Sv32.walk p.mem (satpRoot satp) TRAPFRAME = some (leafWord tf (PTE_R ||| PTE_W), tf)) :
    (hartTrapframe satp).run c p = .ok (tf, p) := by
  have hp := hf.page
  rw [PAGESIZE_eq] at hp
  unfold hartTrapframe
  rw [M.run, Free.run_bind, ← M.run, hartWalk_run h hm, hw]
  dsimp only
  rw [if_pos]
  · rfl
  · unfold leafWord
    have he : PTE_R ||| PTE_W = 6 := by decide
    rw [he]
    omega

/-- The registers are read, each from its field. -/
theorem loadRegs_run (tf : Nat) (rs : List Nat) : ∀ regs : Nat → Nat,
    (∀ r ∈ rs, Readable (tf + r) 4) → ∃ regs', (loadRegs tf rs regs).run c p = .ok (regs', p) ∧
      ∀ r, regs' r = if r ∈ rs then p.mem.word (tf + r) else regs r := by
  induction rs with
  | nil => exact fun _ _ => ⟨_, rfl, fun r => (if_neg (by simp)).symm⟩
  | cons r rs ih =>
    intro regs hr
    obtain ⟨regs', hx, hv⟩ := ih (Function.update regs r (p.mem.word (tf + r)))
      fun x hx => hr x (List.mem_cons_of_mem _ hx)
    refine ⟨regs', ?_, fun x => ?_⟩
    · unfold loadRegs
      rw [M.run, Free.run_bind, ← M.run, M.read_run (hr r List.mem_cons_self)]
      exact hx
    · rw [hv]
      by_cases hm : x ∈ rs
      · rw [if_pos hm, if_pos (List.mem_cons_of_mem _ hm)]
      · by_cases he : x = r
        · subst he
          rw [if_neg hm, if_pos List.mem_cons_self, Function.update_self]
        · rw [if_neg hm, if_neg (by simp [he, hm]), Function.update_of_ne he]

end

/-- A field of the trapframe is in its frame. -/
theorem Cfg.IsFrame.field {c : Cfg} {tf k : Nat} (hf : c.IsFrame tf) (hk : k + 4 ≤ Trapframe.SIZE) :
    pageOf (tf + k) = tf ∧ (tf + k) % PAGESIZE + 4 ≤ PAGESIZE := by
  have hp := Trapframe.in_page hk
  refine ⟨pageOf_eq_of hf.page (by omega), ?_⟩
  rw [Nat.add_mod, hf.page, Nat.zero_add, Nat.mod_mod, Nat.mod_eq_of_lt (by omega)]
  exact hp

theorem Cfg.IsFrame.field_writable {c : Cfg} {tf k : Nat} (hf : c.IsFrame tf)
    (hk : k + 4 ≤ Trapframe.SIZE) : c.Writable (tf + k) 4 :=
  hf.writable (hf.field hk).1 (hf.field hk).2

theorem Cfg.IsFrame.field_readable {c : Cfg} {tf k : Nat} (hf : c.IsFrame tf)
    (hk : k + 4 ≤ Trapframe.SIZE) : Readable (tf + k) 4 :=
  hf.readable (hf.field hk).1 (hf.field hk).2

/-! ## Back to user mode -/

/-- The slot of the process that runs. -/
theorem Inv.runSlot {c : Cfg} {S : St} {i : Nat} (h : Inv c.tracked (some i) S) (hl : c.Linked) :
    SlotMem c (S.own (.slot i)) S.mem (S.proc i) True :=
  have hlive : S.data.Live i := h.table.run_live
  ((h.mem hl).slot i hlive.1).grow (fun _ => hlive) (fun _ _ => trivial) (Finset.Subset.refl _)
    (fun _ _ => rfl) ⟨rfl, rfl, rfl⟩

namespace K

variable {c : Cfg} {α β : Type} {s : Sys} {i : Nat}

theorem always_sret {Q : Bool → Sys → Prop} (h : Q (!s.data.csr.spp) s.sret) :
    Always c (fun _ _ => True) sret Q s := ⟨trivial, fun _ _ => ⟨_, _, rfl, h⟩⟩

/-- Memory code with a known run. -/
theorem always_run {p : M α} {a : α} {phys : Phys} {Q : α → Sys → Prop}
    (hx : p.run c s.phys = .ok (a, phys)) (hh : LockId.heap ∉ s.locks.held)
    (h : ∀ s', s'.phys = phys → s'.data = s.data → SameLocks s s' → Q a s') :
    Always c (fun _ _ => True) (lift p) Q s := by
  obtain ⟨tr, he⟩ := Free.run_ends hx
  have ha : Always c (fun _ _ => True) (lift p)
      (fun b s' => b = a ∧ s'.phys = phys ∧ s'.data = s.data) s :=
    always_lift he (fun _ _ => trivial) hh fun s' hp hd _ => ⟨rfl, hp, hd⟩
  refine (ha.and_ends fun _ _ _ h => lift_same h).mono fun b s' hb => ?_
  obtain ⟨⟨rfl, hp, hd⟩, hl⟩ := hb
  exact h s' hp hd hl

/-- `(proc i).trapframe.field = x`, and what follows. -/
theorem always_writeField {rest : K β} {k x tf : Nat} {Q : β → Sys → Prop} (hf : c.IsFrame tf)
    (htf : (s.data.process_table i).trapframe = tf) (hk : k + 4 ≤ Trapframe.SIZE)
    (h : Always c (fun _ _ => True) rest Q
      { s with phys := { s.phys with mem := s.phys.mem.setWord (tf + k) x } }) :
    Always c (fun _ _ => True) (do lift (M.write ((← proc i).trapframe + k) x); rest) Q s := by
  refine always_bind (always_proc (always_bind ?_))
  rw [htf]
  exact always_mem (if_pos (hf.field_writable hk)) trivial h

theorem always_readField {rest : Nat → K β} {k tf : Nat} {Q : β → Sys → Prop} (hf : c.IsFrame tf)
    (htf : (s.data.process_table i).trapframe = tf) (hk : k + 4 ≤ Trapframe.SIZE)
    (h : Always c (fun _ _ => True) (rest (s.phys.mem.word (tf + k))) Q s) :
    Always c (fun _ _ => True) (do rest (← lift (M.read ((← proc i).trapframe + k)))) Q s := by
  refine always_bind (always_proc (always_bind ?_))
  rw [htf]
  exact always_mem (if_pos (hf.field_readable hk)) trivial h

end K

/-- The process table is the same, and what the kernel keeps with it. -/
structure Data.SameTable (d d' : Data) : Prop where
  process_table : d'.process_table = d.process_table
  nproc : d'.nproc = d.nproc
  pid : d'.pid = d.pid
  current : d'.current = d.current
  log : d'.log = d.log

/-- After `prepare_return` for slot `i`: it has written the words that the kernel keeps in the
trapframe `tf`, but for the pc. -/
structure Prepared (tf : Nat) (s s' : Sys) : Prop extends s.data.SameTable s'.data where
  mem : ∀ a, ¬ (tf ≤ a ∧ a < tf + 20) → s'.phys.mem a = s.phys.mem a
  free : s'.phys.free = s.phys.free
  held : s'.locks.held = s.locks.held
  spp : s'.data.csr.spp = false
  spie : s'.data.csr.spie = true
  sepc : s'.data.csr.sepc = s.phys.mem.word (tf + Trapframe.epc)

/-- The process of slot `i` is in user mode again, with what its trapframe `tf` held. -/
structure Resumed (i tf : Nat) (s s' : Sys) : Prop extends s.data.SameTable s'.data where
  mem : ∀ a, ¬ (tf ≤ a ∧ a < tf + 20) → s'.phys.mem a = s.phys.mem a
  free : s'.phys.free = s.phys.free
  umode : s'.locks.umode = true
  sie : s'.locks.sie = true
  satp : satpRoot s'.data.csr.satp = s.root i
  pc : s'.data.pc = s.phys.mem.word (tf + Trapframe.epc)
  regs : ∀ r ∈ Trapframe.regs, s'.data.regs r = s.phys.mem.word (tf + r)

theorem Resumed.same {i tf : Nat} {s s₁ s' : Sys} (h : Resumed i tf s₁ s')
    (hp : s₁.phys = s.phys) (hd : s₁.data = s.data) : Resumed i tf s s' := by
  have hroot : s₁.root i = s.root i := by
    unfold Sys.root
    rw [hd]
  obtain ⟨⟨h1, h2, h3, h4, h5⟩, h6, h7, h8, h9, h10, h11, h12⟩ := h
  rw [hp] at h6 h7 h11 h12
  rw [hd] at h1 h2 h3 h4 h5
  exact ⟨⟨h1, h2, h3, h4, h5⟩, h6, h7, h8, h9, h10.trans hroot, h11, h12⟩

namespace K

variable {c : Cfg} {s : Sys} {i tf : Nat}

theorem always_prepareReturn {Q : Unit → Sys → Prop} (hf : c.IsFrame tf)
    (htf : (s.data.process_table i).trapframe = tf)
    (hk : (s.data.process_table i).kstack + KERNEL_STACK_PAGES * PAGESIZE < USIZE)
    (h : ∀ s', Prepared tf s s' → Q () s') :
    Always c (fun _ _ => True) (prepareReturn c i) Q s := by
  unfold prepareReturn
  refine always_bind (always_setSie (always_bind (always_set (always_bind (always_get ?_)))))
  refine always_writeField hf htf (by decide) (always_bind (always_proc (always_bind
    (always_add hk ?_))))
  refine always_writeField hf htf (by decide) (always_writeField hf htf (by decide)
    (always_writeField hf htf (by decide) (always_bind (always_set (always_readField hf htf (by decide)
      (always_set (h _ ?_)))))))
  refine ⟨⟨rfl, rfl, rfl, rfl, rfl⟩, fun a ha => ?_, rfl, rfl, rfl, rfl, ?_⟩
  · show Bytes.setWord _ (tf + 16) _ a = _
    rw [Bytes.setWord_ne (by omega)]
    show Bytes.setWord _ (tf + 8) _ a = _
    rw [Bytes.setWord_ne (by omega)]
    show Bytes.setWord _ (tf + 4) _ a = _
    rw [Bytes.setWord_ne (by omega)]
    exact Bytes.setWord_ne (a := tf + 0) (by omega)
  · show Bytes.word (Bytes.setWord _ (tf + 16) _) (tf + 12) = _
    rw [Bytes.word_setWord_ne (by omega)]
    show Bytes.word (Bytes.setWord _ (tf + 8) _) (tf + 12) = _
    rw [Bytes.word_setWord_ne (by omega)]
    show Bytes.word (Bytes.setWord _ (tf + 4) _) (tf + 12) = _
    rw [Bytes.word_setWord_ne (by omega)]
    exact Bytes.word_setWord_ne (a := tf + 0) (by omega)

/-- **The way back to user mode** of the process of slot `i`. -/
theorem always_usertrapret {own : Finset Nat} {Q : Label → Sys → Prop}
    (hm : SlotMem c own s.phys.mem (s.data.process_table i) True)
    (hd : (s.data.process_table i).dropping = false) (hf : c.IsFrame tf)
    (htf : (s.data.process_table i).trapframe = tf)
    (hk : (s.data.process_table i).kstack + KERNEL_STACK_PAGES * PAGESIZE < USIZE)
    (hh : LockId.heap ∉ s.locks.held) (h : ∀ s', Resumed i tf s s' → Q .user s') :
    Always c (fun _ _ => True) (usertrapret c i) Q s := by
  unfold usertrapret
  refine always_bind (always_prepareReturn hf htf hk fun s₁ h₁ => always_bind (always_proc ?_))
  rw [h₁.process_table]
  subst htf
  obtain ⟨tab, hs, -⟩ := hm.space hd
  have htree : Tree c ⟨own.erase (s.data.process_table i).trapframe, s₁.phys.mem⟩ (s.root i) tab :=
    hs.tree.congr (fun g hg => hs.tree.has_own hg) fun a ha => h₁.mem a fun hr =>
      (Finset.ne_of_mem_erase (hs.tree.has_own ha))
        (pageOf_eq_of hf.page (by rw [PAGESIZE_eq]; omega))
  have hroot : satpRoot (s.data.process_table i).pagetable.getSatp.intoUsize = s.root i :=
    satpRoot_getSatp hs.tree.root_frame
  have hwalk : Sv32.walk s₁.phys.mem (s.root i) TRAPFRAME =
      some (leafWord (s.data.process_table i).trapframe (PTE_R ||| PTE_W),
        (s.data.process_table i).trapframe) := by
    rw [htree.walk_congr (m := s₁.phys.mem) fun _ _ => rfl, ← hm.walk_trapframe hd hf]
    exact hs.tree.walk_congr fun a ha => h₁.mem a fun hr =>
      (Finset.ne_of_mem_erase (hs.tree.has_own ha))
        (pageOf_eq_of hf.page (by rw [PAGESIZE_eq]; omega))
  have hreg : ∀ r ∈ Trapframe.regs, 20 ≤ r ∧ r + 4 ≤ Trapframe.SIZE := by decide
  unfold userret
  generalize (s.data.process_table i).pagetable.getSatp.intoUsize = satp at hroot
  refine always_bind (always_set (always_bind (always_run
    (hartTrapframe_run (by rw [hroot]; exact htree) rfl hf (by rw [hroot]; exact hwalk)) ?_
    fun s₂ p2 d2 l2 => ?_)))
  · show LockId.heap ∉ s₁.locks.held
    rw [h₁.held]
    exact hh
  have hp₂ : s₂.phys = s₁.phys := p2
  obtain ⟨regs, hx, hv⟩ := loadRegs_run (c := c) (p := s₂.phys)
    (s.data.process_table i).trapframe Trapframe.regs s₂.data.regs fun r hr =>
      hf.field_readable (hreg r hr).2
  refine always_bind (always_get (always_bind (always_run hx ?_ fun s₃ p3 d3 l3 =>
    always_bind (always_set (always_bind (always_sret ?_))))))
  · rw [l2.1]
    show LockId.heap ∉ s₁.locks.held
    rw [h₁.held]
    exact hh
  have hd₃ : s₃.data = s₁.data.updCsr fun csr => { csr with satp } := d3.trans d2
  have hspp : s₃.data.csr.spp = false := by
    rw [hd₃]
    exact h₁.spp
  show Always c _ (if (!s₃.data.csr.spp) = true then _ else _) Q _
  rw [hspp]
  have hsame : s.data.SameTable s₃.data := by
    rw [hd₃]
    exact ⟨h₁.process_table, h₁.nproc, h₁.pid, h₁.current, h₁.log⟩
  refine h _ ⟨⟨hsame.1, hsame.2, hsame.3, hsame.4, hsame.5⟩, fun a ha => ?_, ?_, ?_, ?_, ?_, ?_,
    fun r hr => ?_⟩
  · show s₃.phys.mem a = _
    rw [p3, hp₂]
    exact h₁.mem a ha
  · show s₃.phys.free = _
    rw [p3, hp₂]
    exact h₁.free
  · show (!s₃.data.csr.spp) = true
    rw [hspp]
    rfl
  · show s₃.data.csr.spie = true
    rw [hd₃]
    exact h₁.spie
  · show satpRoot s₃.data.csr.satp = _
    rw [hd₃]
    exact hroot
  · show s₃.data.csr.sepc = _
    rw [hd₃]
    exact h₁.sepc
  · show regs r = _
    rw [hv, if_pos hr, hp₂]
    refine Bytes.word_congr fun k hk => h₁.mem _ ?_
    have := (hreg r hr).1
    omega

/-- A process that has not run yet goes to user mode when it gets the hart. -/
theorem always_forkret {own : Party → Finset Nat} {h : History} (hl : c.Linked)
    (hh : Handoff c.tracked i ⟨s, own, h⟩) (how : Owned c own s.phys.free)
    (hd : (s.data.process_table i).dropping = false)
    (hk : (s.data.process_table i).kstack + KERNEL_STACK_PAGES * PAGESIZE < USIZE) :
    Always c (fun _ _ => True) (forkret c) (fun l s' => l = .user ∧
      Resumed i (s.data.process_table i).trapframe s s') s := by
  have hslot : SlotMem c (own (.slot i)) s.phys.mem (s.data.process_table i) True :=
    hh.inv.runSlot hl
  have hstack : s.locks.interrupt_off_stack = 1 := hh.stack
  have hheld : s.locks.held = {.proc i} := hh.held
  have hcur : s.data.current = some i := hh.current
  unfold forkret
  refine always_bind (always_get ?_)
  rw [hcur]
  dsimp only
  refine always_bind (always_release (by omega) fun s₁ p1 d1 h1 => ?_)
  refine always_usertrapret (by rw [p1, d1]; exact hslot) (by rw [d1]; exact hd)
    (how.frame _ _ hslot.trapframe) (by rw [d1]) (by rw [d1]; exact hk) ?_
    fun s' hq => ⟨rfl, hq.same p1 d1⟩
  rw [h1, hheld, Finset.erase_singleton]
  exact Finset.notMem_empty _

end K

/-! ## From `main` to init -/

namespace Machine

variable {c : Cfg} {A Q : Machine → Prop} {m : Machine} {h : History} {own : Party → Finset Nat}

/-- What the operation is allowed to do, the run may do. -/
theorem statusFits_of_onMem {P : MemOp → Phys → Prop} {o : KOp} {k : o.Resp → K Label}
    (hc : m.code = .op o k) (ho : o.OnMem P m.sys) : m.StatusFits := by
  intro i addr k' hc'
  have he := hc.symm.trans hc'
  cases he
  exact ho

/-- A run goes where code comes to. -/
theorem Later.comes {D : K Label → Sys → Prop} {p : K Label} (hc : m.code = p)
    (ha : K.Comes c D p m.sys) :
    ∃ p' s, D p' s ∧ Later c StatusFits m { m with sys := s, code := p' } := by
  induction p generalizing m with
  | ret l => exact ⟨.ret l, m.sys, ha, by rw [← hc]; exact .refl⟩
  | op o k ih =>
    rcases ha with ha | ⟨ho, ha⟩
    · exact ⟨_, m.sys, ha, by rw [← hc]; exact .refl⟩
    · obtain ⟨r, s, hx, hq⟩ := ha m.time 0
      obtain ⟨p', s', hd, hl⟩ := ih r (m := { m with sys := s, code := k r }) rfl hq
      exact ⟨p', s', hd, .head ⟨statusFits_of_onMem hc ho, .op hc hx⟩ hl⟩

/-- Code leads to what it comes to. -/
theorem Leads.comes {D : K Label → Sys → Prop} {p : K Label} {me : Option Nat}
    (hi : MInv c.tracked m h me own) (hc : m.code = p) (ha : K.Comes c D p m.sys)
    (hk : ∀ p' s h own, D p' s → MInv c.tracked { m with sys := s, code := p' } h me own →
      Leads c StatusFits Q { m with sys := s, code := p' }) : Leads c StatusFits Q m := by
  have hdone : D p m.sys → Leads c StatusFits Q m := fun hd => by
    have hm : { m with sys := m.sys, code := p } = m := by rw [← hc]
    rw [← hm] at hi ⊢
    exact hk p m.sys h own hd hi
  induction p generalizing m h own with
  | ret l => exact hdone ha
  | op o k ih =>
    rcases ha with ha | ⟨ho, ha⟩
    · exact hdone ha
    · have hs := statusFits_of_onMem hc ho
      choose r s hx hq using ha
      refine .op hs hc hx fun t n => ?_
      obtain ⟨own', hn⟩ := (hi.at_time t).op (assume_tracked c (m := { m with time := t })
        hs) hc (hx t n)
      have hn' := hn.inv.at_time m.time
      refine ih (r t n) hn' rfl (hq t n) hk fun hd => hk _ _ _ _ hd hn'

end Machine

/-- Slot 0 runs the first instruction of `img`, with the arguments `argv`: the program finds its
image, which was in `m₁`, the pointers to its arguments, and these. -/
structure Machine.Entered (m₁ : Bytes) (img : Slice) (argv : List (List UInt8)) (m : Machine) : Prop
    where
  code : m.code = .ret .user
  current : m.sys.data.current = some 0
  live : m.sys.data.Live 0
  whole : (m.sys.data.process_table 0).dropping = false
  pid : (m.sys.data.process_table 0).pid = some 0
  umode : m.sys.locks.umode = true
  sie : m.sys.locks.sie = true
  pc : m.sys.data.pc = USER_START
  sp : m.sys.data.regs Trapframe.sp = execSp (stackBase img + PAGESIZE) argv
  a0 : m.sys.data.regs Trapframe.a0 = argv.length
  a1 : m.sys.data.regs Trapframe.a1 = execSp (stackBase img + PAGESIZE) argv
  image : ∀ j < img.len,
    userByte m.sys.phys.mem (satpRoot m.sys.data.csr.satp) (USER_START + j) = some (m₁ (img.ptr + j))
  ptrs : UserBytes m.sys.phys.mem (satpRoot m.sys.data.csr.satp)
    (execSp (stackBase img + PAGESIZE) argv)
    ((ustack (stackBase img + PAGESIZE) argv).flatMap leBytes)
  args : List.Forall₂ (fun p arg => UserBytes m.sys.phys.mem (satpRoot m.sys.data.csr.satp) p arg)
    (argsSp (stackBase img + PAGESIZE) argv) argv
  /-- The page of the stack is the program's to read and to write. -/
  stack : ∃ e f, Sv32.walk m.sys.phys.mem (satpRoot m.sys.data.csr.satp) (stackBase img) =
    some (e, f) ∧ e / 16 % 2 = 1 ∧ e / 4 % 2 = 1 ∧ e / 2 % 2 = 1

/-- `"10"` fits every stack. -/
theorem initArgs_fit {base : Nat} (hb : base % PAGESIZE = 0) : StackFits base [[49, 48]] := by
  have hsz := PAGESIZE_eq
  rw [hsz] at hb
  have hsp : argSp (base + PAGESIZE) [49, 48] = base + 4088 := by
    unfold argSp
    rw [hsz]
    show (base + 4096 - 2) / 8 * 8 = _
    omega
  have hend : argsEnd (base + PAGESIZE) [[49, 48]] = base + 4088 := hsp
  have hlen : (ustack (base + PAGESIZE) [[49, 48]]).length = 2 := rfl
  refine ⟨⟨?_, ?_, ?_, trivial⟩, ?_, ?_⟩
  · show 2 ≤ _
    omega
  · omega
  · omega
  · rw [hlen, hend]
    omega
  · unfold execSp
    rw [hlen, hend]
    omega

theorem program_initPath (c : Cfg) : program c initPath = some c.INIT := by
  have h : trimEnd initPath = ['i', 'n', 'i', 't'] := by decide +kernel
  unfold program
  rw [if_pos h]

section
variable {c : Cfg} {own : Finset Nat} {m m' : Bytes} {p : Process} {live : Prop}

theorem SlotMem.walk_same (h : SlotMem c own m p live) (hd : p.dropping = false)
    (hm : ∀ a, pageOf a ≠ p.trapframe → m' a = m a) (va : Nat) :
    Sv32.walk m' p.pagetable.pagetable.root va = Sv32.walk m p.pagetable.pagetable.root va := by
  obtain ⟨tab, hs, -⟩ := h.space hd
  exact hs.tree.walk_congr fun a ha => hm a (Finset.ne_of_mem_erase (hs.tree.has_own ha))

/-- The user program sees what it saw, whatever happens to the trapframe. -/
theorem SlotMem.userByte_same (h : SlotMem c own m p live) (hd : p.dropping = false)
    (hm : ∀ a, pageOf a ≠ p.trapframe → m' a = m a) (va : Nat) :
    userByte m' p.pagetable.pagetable.root va = userByte m p.pagetable.pagetable.root va := by
  obtain ⟨tab, hs, -⟩ := h.space hd
  unfold userByte Sv32.userLoad
  rw [h.walk_same hd hm]
  cases hw : Sv32.walk m p.pagetable.pagetable.root va with
  | none => rfl
  | some x =>
    dsimp only
    split
    · next hb =>
      rw [Option.map_some, Option.map_some]
      exact congrArg some (hm _ (Finset.ne_of_mem_erase (hs.user_walk hw hb.1).1))
    · rfl

end

namespace Started

variable {c : Cfg} {m₁ : Bytes} {img : Slice} {argv : List (List UInt8)} {k : Nat} {s s₂ : Sys}
  {own : Party → Finset Nat} {h : History}

/-- The scheduler hands the hart to the first process. -/
theorem comes (hst : Started c m₁ img argv k s) (hheld : s.locks.held = ∅)
    (hstack : s.locks.interrupt_off_stack = 0) :
    K.Comes c (fun p s' => p = .op (.toProc 0) (fun _ => afterTurn 0) ∧ s.data.Turn s'.data 0 ∧
      s'.phys = s.phys ∧ s'.data.nproc = s.data.nproc ∧ s'.data.pid = s.data.pid)
      schedulerRound s := by
  refine K.comes_schedulerRound hheld hstack (i := 0) ?_ hst.runnable (fun j hj => ?_)
    fun j s' hturn hp hn hpid => ?_
  · rw [hst.nproc]
    decide
  · rw [hst.nproc] at hj
    rw [hst.quants j hj, USIZE_eq]
    decide
  · obtain rfl : j = 0 := by
      by_contra hne
      have hlt := hturn.lt
      rw [hst.nproc] at hlt
      have hrun := hturn.runnable
      rw [hst.unused j hlt hne] at hrun
      cases hrun
    exact ⟨rfl, hturn, hp, hn, hpid⟩

theorem dropping (hst : Started c m₁ img argv k s) : (s.data.process_table 0).dropping = false := by
  obtain ⟨s₀, s₁, v, tab, fr, -, -, hin, -, hd⟩ := hst.program
  rw [hd, Data.updProc_self, hin.data, Data.execed_self]

/-- The program finds what `kexec` has made. -/
theorem entered {m : Machine} {s' : Sys} (hl : c.Linked) (hst : Started c m₁ img argv k s) (hi : img.Fits c)
    (hturn : s.data.Turn s₂.data 0) (hp₂ : s₂.phys = s.phys)
    (hh : Handoff c.tracked 0 ⟨s₂, own, h⟩) (how : Owned c own s₂.phys.free)
    (hr : Resumed 0 (s₂.data.process_table 0).trapframe s₂ s') :
    Machine.Entered m₁ img argv { m with sys := s', code := .ret .user } := by
  obtain ⟨s₀, s₁, v, tab, fr, himg, hx, hin, hp₁, hd₁⟩ := hst.program
  have hz := hturn.self
  have hslot : SlotMem c (own (.slot 0)) s₂.phys.mem (s₂.data.process_table 0) _ :=
    (hh.inv.mem hl).slot 0 (hh.inv.table.run_lt 0 rfl)
  have htf : (s₂.data.process_table 0).trapframe = (s₀.data.process_table 0).trapframe := by
    rw [hz, ← hx.trapframe, hd₁, Data.updProc_self]
  have hframe : c.IsFrame (s₂.data.process_table 0).trapframe := how.frame _ _ hslot.trapframe
  have hroot : s₂.root 0 = s₁.root 0 := by
    unfold Sys.root
    rw [hz]
    show (s.data.process_table 0).pagetable.pagetable.root = _
    rw [hd₁, Data.updProc_self]
  have hsatp : satpRoot s'.data.csr.satp = s₂.root 0 := hr.satp
  have hdrop : (s₂.data.process_table 0).dropping = false := by
    rw [hz]
    exact hst.dropping
  have hsame : ∀ a, pageOf a ≠ (s₂.data.process_table 0).trapframe →
      s'.phys.mem a = s₂.phys.mem a := fun a ha => by
    exact hr.mem a fun hin => ha (pageOf_eq_of hframe.page (by rw [PAGESIZE_eq]; omega))
  have hbyte : ∀ va, userByte s'.phys.mem (satpRoot s'.data.csr.satp) va =
      userByte s₁.phys.mem (s₁.root 0) va := fun va => by
    have h1 : userByte s'.phys.mem (s₂.root 0) va = userByte s₂.phys.mem (s₂.root 0) va :=
      hslot.userByte_same hdrop hsame va
    rw [hsatp, h1, ← hroot, hp₂, hp₁]
  have hword : ∀ k, s₂.phys.mem.word ((s₂.data.process_table 0).trapframe + k) =
      s₁.phys.mem.word ((s₀.data.process_table 0).trapframe + k) := fun k => by
    rw [hp₂, hp₁, htf]
  refine ⟨rfl, ?_, ?_, hr.process_table ▸ hdrop, ?_, hr.umode, hr.sie, ?_, ?_, ?_, ?_, fun j hj => ?_,
    fun k hk => ?_, ?_, ?_⟩
  · exact hr.current.trans hturn.current
  · have hlive : s₂.data.Live 0 := hh.inv.table.run_live
    unfold Data.Live at hlive ⊢
    dsimp only
    rw [hr.process_table, hr.nproc]
    exact hlive
  · show (s'.data.process_table 0).pid = _
    rw [hr.process_table, hz]
    exact hst.pid
  · exact hr.pc.trans ((hword _).trans hin.epc)
  · exact (hr.regs Trapframe.sp (by decide)).trans ((hword _).trans hin.sp)
  · refine (hr.regs Trapframe.a0 (by decide)).trans ((hword _).trans ?_)
    rw [← hx.mem]
    exact hx.a0
  · refine (hr.regs Trapframe.a1 (by decide)).trans ((hword _).trans ?_)
    rw [← hx.mem]
    exact hx.a1
  · have hlt : j < imagePages img * PAGESIZE := by
      unfold imagePages pagesTo
      rw [PAGESIZE_eq]
      omega
    refine (hbyte _).trans ((hx.image_byte hlt).trans (congrArg some (himg _ fun hf => ?_)))
    exact hi.pages.not_frame hlt hf rfl
  · exact (hbyte _).trans (hx.ptrs k hk)
  · have hargs : List.Forall₂ (fun p arg => UserBytes s₁.phys.mem (s₁.root 0) p arg)
        (argsSp (stackBase img + PAGESIZE) argv) argv :=
      args_found hx.args.args.noWrap fun x h1 h2 => hx.arg_byte h1 h2
    exact hargs.imp fun p arg hb k hk => (hbyte _).trans (hb k hk)
  · obtain ⟨hsa, -⟩ := hx.program.stackAt hx.space hx.fits
    have hwalk : Sv32.walk s'.phys.mem (s₂.root 0) (stackBase img) =
        Sv32.walk s₂.phys.mem (s₂.root 0) (stackBase img) := hslot.walk_same hdrop hsame _
    have hlt := hsa.lt
    have hva : stackBase img < USIZE := by omega
    have hleaf := hsa.space.tree.sv32_leaf hva hsa.entry hsa.frame.aligned stack_perm.1 (by decide)
    refine ⟨leafWord (fr (stackPage img)) STACK_PERM, fr (stackPage img), ?_, ?_⟩
    · dsimp only
      rw [hsatp, hwalk, hp₂, hp₁, ← hx.mem, hroot]
      exact hleaf.trans (by rw [hsa.page, Nat.add_zero])
    · have hperm : STACK_PERM = 0x16 := rfl
      have hal := hsa.frame.page
      rw [PAGESIZE_eq] at hal
      unfold leafWord
      omega

end Started

/-- The first process has entered its program in its first turn. -/
structure Launched (c : Cfg) (m₁ : Bytes) (img : Slice) (argv : List (List UInt8)) (k : Nat)
    (m : Machine) : Prop where
  entered : m.Entered m₁ img argv
  sched : m.sched = afterTurn 0
  turn : ∃ s₁ s₂ own live, Started c m₁ img argv k s₁ ∧ s₁.data.Turn s₂.data 0 ∧
    s₂.phys = s₁.phys ∧ s₂.data.nproc = s₁.data.nproc ∧ s₂.data.pid = s₁.data.pid ∧
    SlotMem c own s₂.phys.mem (s₂.data.process_table 0) live ∧
    c.IsFrame (s₂.data.process_table 0).trapframe ∧
    Resumed 0 (s₂.data.process_table 0).trapframe s₂ m.sys

theorem Machine.Init.leads {c : Cfg} {m : Machine} {k : Nat} (hm : Machine.Init c m) (hc : c.Eager)
    (hmem : 10000 + programFrames c.INIT + k ≤ m.sys.phys.free.length) :
    Machine.Leads c Machine.StatusFits (Launched c m.sys.phys.mem c.INIT [[49, 48]] k) m := by
  have hargs : StackFits (stackBase c.INIT) [[49, 48]] := initArgs_fit (Nat.mul_mod_left _ _)
  refine .comes (.init (code_keeps _) hm) hm.code
    (main_always hc hm (program_initPath c) hmem hargs).comes fun p s h own hl hi => ?_
  obtain ⟨l, rfl, rfl, hst⟩ := hl
  -- the scheduler
  obtain ⟨-, -, hset⟩ := hi.code
  have hheld : s.locks.held = ∅ := hset.held
  have hstack : s.locks.interrupt_off_stack = 0 := by
    rw [hi.locks.stack, hheld]
    rfl
  refine .label (fun i a k h => by cases h) rfl rfl (.comes (hi.same
    ((code_keeps c.tracked).entry none .scheduler schedulerRound _ hi.code hi.locks rfl)).inv rfl
      (hst.comes hheld hstack) fun p s₂ h₂ own₂ hturn hi₂ => ?_)
  obtain ⟨rfl, hturn, hp₂, hn₂, hpid₂⟩ := hturn
  -- the process
  obtain ⟨-, -, hh, -⟩ := hi₂.next (o := .toProc 0) rfl
  have how : Owned c own₂ s₂.phys.free := hi₂.owned hm.linked
  obtain ⟨sp, hctx⟩ := hst.context
  have hresume : Machine.resume c { m with
      sys := s₂, code := .op (.toProc 0) fun _ => afterTurn 0 } 0 = forkret c := by
    unfold Machine.resume
    dsimp only
    rw [hturn.self]
    dsimp only
    rw [hctx]
  obtain ⟨me, own₃, hi₃⟩ := hi₂.step (code_keeps _)
    (assume_tracked c fun i a k h => by cases h) (.toProc (i := 0) rfl)
  refine .toProc (fun i a k h => by cases h) rfl (.comes hi₃.inv hresume
    (K.always_forkret hm.linked hh how ?_ ?_).comes fun p s' h₄ own₄ hq _ => ?_)
  · rw [hturn.self]
    exact hst.dropping
  · rw [hturn.self]
    show (s.data.process_table 0).kstack + _ < _
    rw [hst.kstack 0 (by decide)]
    have h1 := (kstackAddr_page (stack_bounds (i := 0) (by omega)).1).2.1
    have h2 := trampoline_va.2.1
    omega
  obtain ⟨l, rfl, rfl, hr⟩ := hq
  have hslot : SlotMem c (own₂ (.slot 0)) s₂.phys.mem (s₂.data.process_table 0) _ :=
    (hh.inv.mem hm.linked).slot 0 (hh.inv.table.run_lt 0 rfl)
  exact .now ⟨hst.entered hm.linked (program_fits (program_initPath c)) hturn hp₂ hh how hr, rfl,
    s, s₂, _, _, hst, hturn, hp₂, hn₂, hpid₂, hslot, how.frame _ _ hslot.trapframe, hr⟩

/-- **From the entry of `main` to the first instruction of init**: with frames enough, and no
interrupt on the way. -/
theorem main_enters_init {c : Cfg} {m : Machine} (hc : c.Eager) (hm : Machine.Init c m)
    (hmem : 10000 + programFrames c.INIT ≤ m.sys.phys.free.length) :
    Machine.Leads c (fun _ => True) (Machine.Entered m.sys.phys.mem c.INIT [[49, 48]]) m :=
  (hm.leads (k := 0) hc hmem).mono (fun _ _ => trivial) fun _ h => h.entered

/-- The boot of a machine. -/
theorem main_enters_init_demo : Machine.Leads Cfg.demo (fun _ => True)
    (Machine.Entered (fun _ => 0) Cfg.demo.INIT [[49, 48]]) Machine.boot :=
  main_enters_init Cfg.demo_eager Machine.boot_init Machine.boot_frames

/-- A machine in which the scheduler lets interrupts in and a process waits for its turn. -/
theorem Machine.boot_waiting : ∃ m k, Reach Cfg.demo StatusFits m ∧ m.code = .op (.setSie false) k ∧
    m.sys.locks.sie = true ∧ m.sys.data.current = none ∧ m.sys.data.Live 0 ∧
      (m.sys.data.process_table 0).dropping = false := by
  have hleads : Leads Cfg.demo StatusFits (fun m => m.code = .ret .scheduler ∧
      m.sys.data.current = none ∧ m.sys.data.Live 0 ∧
        (m.sys.data.process_table 0).dropping = false) boot := by
    refine .comes (.init (code_keeps _) boot_init) rfl (main_always (k := 0) Cfg.demo_eager boot_init
      (program_initPath _) boot_frames (initArgs_fit (Nat.mul_mod_left _ _))).comes
        fun p s h own hl hi => ?_
    obtain ⟨l, rfl, rfl, hst⟩ := hl
    obtain ⟨-, -, hset⟩ := hi.code
    refine .now ⟨rfl, hset.current, ⟨?_, .inl hst.runnable⟩, hst.dropping⟩
    show 0 < s.data.nproc
    rw [hst.nproc]
    decide
  obtain ⟨m, hr, hc, hcur, hlive, hd⟩ := hleads.reach (.init boot_init)
  have h₁ := hr.step (fun i a k h => by rw [hc] at h; cases h)
    (.label hc (rfl : Label.entry Cfg.demo .scheduler = some schedulerRound))
  have h₂ := h₁.step (fun i a k h => by cases h) (.op (n := 0) (o := .any) (k := _) rfl rfl)
  have h₃ := h₂.step (fun i a k h => by cases h) (.op (n := 0) (o := .setSie true) (k := _) rfl rfl)
  exact ⟨_, _, h₃, rfl, rfl, hcur, hlive, hd⟩

/-- A machine that enters user mode. -/
theorem Machine.boot_user : ∃ m, Reach Cfg.demo StatusFits m ∧
    Entered (fun _ => 0) Cfg.demo.INIT [[49, 48]] m :=
  ((boot_init.leads (k := 0) Cfg.demo_eager boot_frames).mono (fun _ h => h) fun _ h =>
    h.entered).reach (.init boot_init)

end BareMetal
