import BareMetal.Kernel.Proof.Total
import BareMetal.Virt.Proof.Duplicate

/-!
# A fork that fails

`kfork` returns `Err` when no slot is free, and when `init_proc` gets no frame for its one
second-level table: every other allocation that fails stops the kernel. `kfork_noTrace_iff`: the
first leaves no trace, the second (`ForkFails`) leaves the slot `Used` and its lock taken.
-/

namespace BareMetal

open Lib K

/-! ## The frames a clone takes, from memory -/

/-- The entry of page `q` in the page table at `root`, 0 without its second-level table. -/
def entryOf (m : Bytes) (root q : Nat) : Nat :=
  let e := m.word (root + 4 * (q / 1024))
  if e % 2 = 0 then 0 else m.word (e / 1024 * 4096 + 4 * (q % 1024))

theorem Tree.entryOf_eq {c : Cfg} {v : View} {root : Nat} {tab : Nat → Option Nat}
    (h : Tree c v root tab) {q : Nat} (hq : q / 1024 < 1024) :
    entryOf v.mem root q = pte v.mem tab q := by
  unfold entryOf pte
  rw [h.dir _ hq]
  cases ht : tab (q / 1024) with
  | none => rfl
  | some t =>
    have hp := (h.frame ht).page
    rw [PAGESIZE_eq] at hp
    have hv : ¬ ptrWord t % 2 = 0 := by unfold ptrWord; omega
    have hb : ptrWord t / 1024 * 4096 = t := by unfold ptrWord; omega
    simp only [dirWord, if_neg hv, hb]

/-- The frames that `clone` of `u` takes. -/
def forkFrames (m : Bytes) (u : Uvm) : Nat := cloneFrames (entryOf m u.pagetable.root) u

/-- A page below the end is mapped by the last second-level table, that of the system's pages. -/
def MapsTop (m : Bytes) (u : Uvm) : Prop :=
  ∃ q, ValidPages (entryOf m u.pagetable.root) (pageNo USER_START) (u.size / PAGESIZE) q ∧
    q / 1024 = 1023

theorem Space.validPages {c : Cfg} {v : View} {u : Uvm} {tab : Nat → Option Nat}
    (h : Space c v u tab) (hend : USER_START + u.size < USIZE) (q : Nat) :
    ValidPages (entryOf v.mem u.pagetable.root) (pageNo USER_START) (u.size / PAGESIZE) q ↔
      ValidPages (pte v.mem tab) (pageNo USER_START) (u.size / PAGESIZE) q := by
  unfold ValidPages
  refine and_congr_right fun hq => ?_
  have hlt : q / 1024 < 1024 := by
    have hp := h.size_page
    unfold InPages pageNo at hq
    rw [PAGESIZE_eq] at *
    rw [USIZE_eq] at hend
    omega
  rw [h.tree.entryOf_eq hlt]

theorem Space.forkFrames_eq {c : Cfg} {v : View} {u : Uvm} {tab : Nat → Option Nat}
    (h : Space c v u tab) (hend : USER_START + u.size < USIZE) :
    forkFrames v.mem u = cloneFrames (pte v.mem tab) u := by
  have hp : clonePages (entryOf v.mem u.pagetable.root) (pageNo USER_START) (u.size / PAGESIZE) =
      clonePages (pte v.mem tab) (pageNo USER_START) (u.size / PAGESIZE) := by
    ext q
    rw [mem_clonePages, mem_clonePages, h.validPages hend]
  unfold forkFrames cloneFrames cloneNeed
  rw [hp]

/-! ## Memory code -/

section
variable {c : Cfg} {s s' : Sys} {tr : List (KOp × Sys)} {i : Nat} {v : View} {total : Finset Nat}
  {m₀ : Bytes} {new : M Nat}

/-- The box of a process was replaced. -/
structure Reboxed (c : Cfg) (total : Finset Nat) (m₀ : Bytes) (s : Sys) (v : View) (i : Nat)
    (s' : Sys) (v' : View) (f : Nat) : Prop where
  of : v'.Of c total m₀ s'.phys
  data : s'.data = s.data.updProc i fun p => { p with trapframe := f, unboxing := false }
  fresh : f ∉ v.own
  own : v'.own = insert f (v.own.erase (s.data.process_table i).trapframe)
  mem : ∀ a, pageOf a ≠ f → v'.mem a = v.mem a

theorem replaceTrapframe_ends {r : Unit} (hc : c.Eager) (hof : v.Of c total m₀ s.phys)
    (ho : (s.data.process_table i).trapframe ∈ v.own)
    (hnew : M.wp (tight c total.card True) new (fun f v' => Boxed c v v' f) v)
    (h : K.Ends c (replaceTrapframe i new) s tr r s') :
    ∃ v' f, Reboxed c total m₀ s v i s' v' f := by
  obtain ⟨f, s₁, tr₁, tr₂, h1, h2, -⟩ := h.bind
  obtain ⟨d1, v₁, hof₁, hb⟩ := lift_owned (E := tight c total.card True) rfl (tight_oom hc total True)
    hof hnew h1
  obtain ⟨_, s₁', _, _, h3, h4, -⟩ := h2.bind
  obtain rfl := setProc_ends h3
  obtain ⟨p, _, _, _, h5, h6, -⟩ := h4.bind
  obtain ⟨rfl, rfl⟩ := proc_ends h5
  obtain ⟨_, s₂, _, _, h7, h8, -⟩ := h6.bind
  simp only [d1, Data.updProc_self] at h7
  obtain ⟨d2, v₂, hof₂, rfl⟩ := lift_alone
    (Q := fun _ v' => v' = { v₁ with own := v₁.own.erase (s.data.process_table i).trapframe })
    (s := { s₁ with data := s.data.updProc i fun p => { p with unboxing := true } }) hof₁
    (M.wp_dealloc (by rw [hb.own]; exact Finset.mem_insert_of_mem ho) rfl) h7
  obtain rfl := setProc_ends h8
  refine ⟨_, f, hof₂, by dsimp only; rw [d2, Data.updProc_twice], hb.fresh, ?_, hb.mem⟩
  dsimp only
  rw [hb.own, Finset.erase_insert_of_ne fun he => hb.fresh (by rw [he]; exact ho)]

/-- Memory code that does not panic, and what follows. -/
theorem always_part {E : Mode} {α β : Type} {p : M α} {f : α → K β} {R : α → View → Prop}
    {Q : β → Sys → Prop} (hE : E.shared = false) (hstop : ¬ E.stop) (ho : E.Oom total)
    (hof : v.Of E.cfg total m₀ s.phys) (hh : LockId.heap ∉ s.locks.held) (hwp : M.wp E p R v)
    (h : ∀ a v' s', v'.Of E.cfg total m₀ s'.phys → R a v' → s'.data = s.data → K.SameLocks s s' →
      K.Always E.cfg (fun _ _ => True) (f a) Q s') :
    K.Always E.cfg (fun _ _ => True) (lift p >>= f) Q s := by
  obtain ⟨tr, a, x, v', he, hof', hr, -⟩ := M.wp_total hE hstop ho hof hwp
  have hrun : K.Always E.cfg (fun _ _ => True) (lift p)
      (fun b s' => b = a ∧ s'.phys = x ∧ s'.data = s.data) s :=
    always_lift he (fun _ _ => trivial) hh fun s' hp hd _ => ⟨rfl, hp, hd⟩
  refine always_bind ((hrun.and_ends fun _ _ _ h => lift_same h).mono fun b s' hb => ?_)
  obtain ⟨⟨rfl, rfl, hd⟩, hl⟩ := hb
  exact h b v' s' hof' hr hd hl

theorem replaceTrapframe_same {r : Unit} (h : K.Ends c (replaceTrapframe i new) s tr r s') :
    K.SameLocks s s' := by
  obtain ⟨f, s₁, tr₁, tr₂, h1, h2, -⟩ := h.bind
  obtain ⟨_, s₁', _, _, h3, h4, -⟩ := h2.bind
  obtain rfl := setProc_ends h3
  obtain ⟨p, _, _, _, h5, h6, -⟩ := h4.bind
  obtain ⟨-, rfl⟩ := proc_ends h5
  obtain ⟨_, s₂, _, _, h7, h8, -⟩ := h6.bind
  obtain rfl := setProc_ends h8
  exact (lift_same h1).trans ((lift_same h7).congr rfl rfl)

theorem always_replaceTrapframe {β : Type} {k : Unit → K β} {Q : β → Sys → Prop} (hc : c.Eager)
    (hof : v.Of c total m₀ s.phys) (hh : LockId.heap ∉ s.locks.held)
    (ho : (s.data.process_table i).trapframe ∈ v.own)
    (hnew : M.wp (tight c total.card False) new (fun f v' => Boxed c v v' f) v)
    (h : ∀ v' f s', Reboxed c total m₀ s v i s' v' f → K.SameLocks s s' →
      K.Always c (fun _ _ => True) (k ()) Q s') :
    K.Always c (fun _ _ => True) (replaceTrapframe i new >>= k) Q s := by
  have hoom := tight_oom hc total False
  unfold replaceTrapframe
  refine always_bind (always_part (E := tight c total.card False) rfl id hoom hof hh hnew
    fun f v₁ s₁ hof₁ hb d1 l1 => always_bind (always_setProc (always_bind (always_proc ?_))))
  rw [d1, Data.updProc_self]
  refine always_part (E := tight c total.card False)
    (s := { s₁ with data := s.data.updProc i fun p => { p with unboxing := true } })
    rfl id hoom hof₁ (by rwa [l1.1])
    (R := fun _ v' => v' = { v₁ with own := v₁.own.erase (s.data.process_table i).trapframe })
    (M.wp_dealloc (by rw [hb.own]; exact Finset.mem_insert_of_mem ho) rfl)
    fun _ v₂ s₂ hof₂ hv d2 l2 => always_setProc ?_
  subst hv
  refine h _ f _ ⟨hof₂, by dsimp only; rw [d2, Data.updProc_twice], hb.fresh, ?_, hb.mem⟩
    (l1.trans (l2.congr rfl rfl))
  dsimp only
  rw [hb.own, Finset.erase_insert_of_ne fun he => hb.fresh (by rw [he]; exact ho)]

end

/-! ## The slot -/

/-- What `allocproc` does with the slot that it finds. -/
def claimSlot (i : Nat) : K (Option Nat) := do
  let pid := (← get).pid
  setProc i fun p => { p with pid := some pid }
  let pid ← K.add "allocproc" pid 1
  K.set fun d => { d with pid }
  setProc i fun p => { p with state := .Used }
  replaceTrapframe i Trapframe.newIn
  lock (.proc i)
  setProc i fun p => { p with context := .zero }
  let sp ← K.add "allocproc" (← proc i).kstack (KERNEL_STACK_PAGES * PAGESIZE)
  setProc i fun p => { p with context := .forkret sp }
  return some i

theorem allocprocLoop_succ (n i : Nat) : allocprocLoop (n + 1) i =
    proc i >>= fun p => if p.state = .Unused then claimSlot i else allocprocLoop n (i + 1) := rfl

/-- Slot `j` is the first one that is free. -/
structure FirstFree (s : Sys) (j : Nat) : Prop where
  lt : j < s.data.nproc
  unused : (s.data.process_table j).state = .Unused
  first : ∀ k < j, (s.data.process_table k).state ≠ .Unused

/-- What `allocproc` needs to claim slot `j`. -/
structure Claims (s : Sys) (j : Nat) : Prop where
  heap : LockId.heap ∉ s.locks.held
  lock : LockId.proc j ∉ s.locks.held
  pid : s.data.pid + 1 < USIZE
  kstack : (s.data.process_table j).kstack + KERNEL_STACK_PAGES * PAGESIZE < USIZE

/-- The process in slot `j` has a new box for the old one, and nothing else of the other processes
or of memory changed. -/
structure NewBox (c : Cfg) (total : Finset Nat) (m₀ : Bytes) (s : Sys) (v : View) (j : Nat)
    (s' : Sys) (v' : View) : Prop where
  of : v'.Of c total m₀ s'.phys
  other : ∀ k, k ≠ j → s'.data.process_table k = s.data.process_table k
  fresh : (s'.data.process_table j).trapframe ∉ v.own
  own : v'.own = insert (s'.data.process_table j).trapframe
    (v.own.erase (s.data.process_table j).trapframe)
  mem : ∀ a, pageOf a ≠ (s'.data.process_table j).trapframe → v'.mem a = v.mem a

section
variable {c : Cfg} {s s' : Sys} {tr : List (KOp × Sys)} {i j : Nat} {v : View} {total : Finset Nat}
  {m₀ : Bytes}

theorem newIn_heap {f : Nat} (h : K.Ends c (lift Trapframe.newIn) s tr f s') :
    LockId.heap ∉ s.locks.held := by
  obtain ⟨g, s₁, tr₁, tr₂, h1, -⟩ :=
    Free.Ends.bind (p := memOp .alloc) (f := fun g => lift (_ : M Nat)) h
  obtain ⟨_, s₂, tr₃, tr₄, h3, -⟩ := h1.bind
  exact (lock_takes h3).1

/-- The slot got a pid and became `Used`: all that `allocproc` changes before it takes a box. -/
def Data.claim (d : Data) (j : Nat) : Data :=
  Data.updProc { d.updProc j fun p => { p with pid := some d.pid } with pid := d.pid + 1 } j
    fun p => { p with state := .Used }

theorem Data.claim_self (d : Data) (j : Nat) : (d.claim j).process_table j =
    { d.process_table j with pid := some d.pid, state := .Used } := by
  simp [Data.claim]

theorem Data.claim_ne (d : Data) {j k : Nat} (h : k ≠ j) :
    (d.claim j).process_table k = d.process_table k := by
  simp [Data.claim, Data.updProc_ne _ _ h]

/-- The slot after its box: only the context is set then. -/
theorem Reboxed.claimed {s₁ : Sys} {v' : View} {f : Nat}
    (hb : Reboxed c total m₀ { s with data := s.data.claim j } v j s₁ v' f)
    (hp : s'.phys = s₁.phys)
    (ho : ∀ k, k ≠ j → s'.data.process_table k = s₁.data.process_table k)
    (ht : (s'.data.process_table j).trapframe = (s₁.data.process_table j).trapframe)
    (hs : (s'.data.process_table j).state = (s₁.data.process_table j).state) :
    NewBox c total m₀ s v j s' v' ∧ (s'.data.process_table j).state = .Used := by
  have htf : (s'.data.process_table j).trapframe = f := by
    rw [ht, hb.data, Data.updProc_self]
  have hown := hb.own
  dsimp only at hown
  rw [Data.claim_self] at hown
  refine ⟨⟨by rw [hp]; exact hb.of, fun k hk => ?_, by rw [htf]; exact hb.fresh,
    by rw [htf]; exact hown, by rw [htf]; exact hb.mem⟩, ?_⟩
  · rw [ho k hk, hb.data, Data.updProc_ne _ _ hk]
    exact Data.claim_ne _ hk
  · rw [hs, hb.data, Data.updProc_self]
    dsimp only
    rw [Data.claim_self]

/-- The slot once `allocproc` has claimed it: its box is `f`, and it starts in `forkret`. -/
def Data.claimed (d : Data) (j f sp : Nat) : Data :=
  (d.claim j).updProc j fun p => { p with trapframe := f, unboxing := false, context := .forkret sp }

theorem Data.claimed_self (d : Data) (j f sp : Nat) : (d.claimed j f sp).process_table j =
    { d.process_table j with
      pid := some d.pid, state := .Used, trapframe := f, unboxing := false
      context := .forkret sp } := by
  rw [Data.claimed, Data.updProc_self, Data.claim_self]

theorem Data.claimed_ne (d : Data) {j k : Nat} (f sp : Nat) (h : k ≠ j) :
    (d.claimed j f sp).process_table k = d.process_table k := by
  rw [Data.claimed, Data.updProc_ne _ _ h, Data.claim_ne _ h]

/-- The lock `l` was taken. -/
structure TookLock (l : LockId) (s s' : Sys) : Prop where
  held : s'.locks.held = insert l s.locks.held
  stack : 1 ≤ s'.locks.interrupt_off_stack
  holds : ∀ {b H}, s.locks.Holds b H → s'.locks.Holds b (insert l H)

theorem TookLock.same {l : LockId} {s s₁ s' : Sys} (h : TookLock l s s₁) (hl : K.SameLocks s₁ s') :
    TookLock l s s' :=
  ⟨hl.held.trans h.held, hl.stack ▸ h.stack, fun hb => hl.holds (h.holds hb)⟩

theorem always_tookLock {l : LockId} {Q : Unit → Sys → Prop} (hl : l ∉ s.locks.held)
    (h : ∀ s', s'.phys = s.phys → s'.data = s.data → TookLock l s s' → Q () s') :
    K.Always c (fun _ _ => True) (lock l) Q s := by
  refine ⟨trivial, fun _ _ => ⟨s.locks, s, rfl, trivial, fun _ _ => ?_⟩⟩
  exact ⟨(), _, if_neg hl, h _ rfl rfl ⟨rfl, Nat.le_add_left .., fun hb => hb.take (hb.held ▸ hl)⟩⟩

theorem claimSlot_ends {r : Option Nat} (hc : c.Eager) (hof : v.Of c total m₀ s.phys)
    (ho : (s.data.process_table j).trapframe ∈ v.own) (h : K.Ends c (claimSlot j) s tr r s') :
    r = some j ∧ Claims s j ∧ ∃ v', NewBox c total m₀ s v j s' v' ∧
      (s'.data.process_table j).state = .Used := by
  obtain ⟨d, s₁, tr₁, tr₂, h1, h2, -⟩ := h.bind
  obtain ⟨rfl, rfl⟩ := get_ends h1
  obtain ⟨_, s₂, tr₃, tr₄, h3, h4, -⟩ := h2.bind
  have e2 := setProc_ends h3
  obtain ⟨pid, s₃, tr₅, tr₆, h5, h6, -⟩ := h4.bind
  obtain ⟨rfl, rfl, hpid⟩ := add_ends h5
  obtain ⟨_, s₄, tr₇, tr₈, h7, h8, -⟩ := h6.bind
  have e4 := set_ends h7
  obtain ⟨_, s₅, tr₉, tr₁₀, h9, h10, -⟩ := h8.bind
  have e5 : s₅ = { s₁ with data := s₁.data.claim j } := by
    rw [setProc_ends h9, e4, e2]
    rfl
  clear e2 e4
  subst e5
  -- the box
  obtain ⟨_, s₆, tr₁₁, tr₁₂, h11, h12, -⟩ := h10.bind
  obtain ⟨f, s₇, tr₁₃, tr₁₄, h13, -⟩ := h11.bind
  have hheap := newIn_heap h13
  have hlocks := (replaceTrapframe_same h11).1
  obtain ⟨v', f, hb⟩ := replaceTrapframe_ends (s := { s₁ with data := s₁.data.claim j }) hc hof
    (by rw [Data.claim_self]; exact ho) (wp_newIn_boxed fun _ => trivial) h11
  -- the lock
  obtain ⟨_, s₈, tr₁₅, tr₁₆, h15, h16, -⟩ := h12.bind
  have hidle := lock_ends h15
  have hlock := (lock_takes h15).1
  rw [hlocks] at hlock
  -- the context
  obtain ⟨_, s₉, tr₁₇, tr₁₈, h17, h18, -⟩ := h16.bind
  obtain rfl := setProc_ends h17
  obtain ⟨p, s₁₀, tr₁₉, tr₂₀, h19, h20, -⟩ := h18.bind
  obtain ⟨rfl, rfl⟩ := proc_ends h19
  obtain ⟨sp, s₁₁, tr₂₁, tr₂₂, h21, h22, -⟩ := h20.bind
  obtain ⟨rfl, rfl, hks⟩ := add_ends h21
  obtain ⟨_, s₁₂, tr₂₃, tr₂₄, h23, h24, -⟩ := h22.bind
  obtain rfl := setProc_ends h23
  obtain ⟨rfl, rfl, -⟩ := h24.ret_inv
  simp only [hidle.data, hb.data, Data.updProc_self, Data.claim_self] at hks
  exact ⟨rfl, ⟨hheap, hlock, hpid, hks⟩, v', hb.claimed hidle.phys
    (fun k hk => by simp [Data.updProc_ne _ _ hk, hidle.data]) (by simp [hidle.data])
    (by simp [hidle.data])⟩

/-- A party that does not own every frame gets one. -/
theorem View.Of.not_oom (hof : v.Of c total m₀ s.phys) (hf : s.phys.free ≠ []) :
    ¬ (tight c total.card False).oom v.own := by
  intro ho
  have ho : v.own.card = total.card := ho
  have hcard := hof.card
  have hpos := List.length_pos_iff.2 hf
  omega

theorem always_claimSlot {β : Type} {k : Option Nat → K β} {Q : β → Sys → Prop} (hc : c.Eager)
    (hof : v.Of c total m₀ s.phys) (ho : (s.data.process_table j).trapframe ∈ v.own)
    (hcl : Claims s j) (hf : s.phys.free ≠ [])
    (h : ∀ v' s' f sp, NewBox c total m₀ s v j s' v' → s'.data = s.data.claimed j f sp →
      TookLock (.proc j) s s' → K.Always c (fun _ _ => True) (k (some j)) Q s') :
    K.Always c (fun _ _ => True) (claimSlot j >>= k) Q s := by
  unfold claimSlot
  refine always_bind (always_bind (always_get (always_bind (always_setProc (always_bind
    (always_add hcl.pid (always_bind (always_set (always_bind (always_setProc ?_))))))))))
  refine always_replaceTrapframe (s := { s with data := s.data.claim j }) hc hof hcl.heap
    (by rw [Data.claim_self]; exact ho) (wp_newIn_boxed fun ho => hof.not_oom hf ho)
    fun v' f s₁ hb l1 => ?_
  have hl1 : s₁.locks.held = s.locks.held := l1.1
  refine always_bind (always_tookLock (by rw [hl1]; exact hcl.lock) fun s₂ p2 d2 l2 => ?_)
  refine always_bind (always_setProc (always_bind (always_proc (always_bind (always_add ?_
    (always_bind (always_setProc ?_)))))))
  · simp only [d2, hb.data, Data.updProc_self, Data.claim_self]
    exact hcl.kstack
  · refine h v' _ f ((s.data.process_table j).kstack + KERNEL_STACK_PAGES * PAGESIZE)
      (And.left (hb.claimed p2 (fun k hk => by simp [Data.updProc_ne _ _ hk, d2]) (by simp [d2])
        (by simp [d2]))) ?_ ⟨l2.held.trans (by rw [hl1]), l2.stack, fun hbo =>
          l2.holds (l1.holds (hbo : ({ s with data := s.data.claim j } : Sys).locks.Holds _ _))⟩
    simp only [d2, hb.data, Data.updProc_self, Data.claim_self, Data.updProc_twice, Data.claimed]

/-! ## The search -/

theorem allocprocLoop_ends (n : Nat) : ∀ {i : Nat} {tr : List (KOp × Sys)} {r : Option Nat},
    K.Ends c (allocprocLoop n i) s tr r s' →
      (r = none ∧ s' = s ∧ ∀ k, i ≤ k → k < i + n → (s.data.process_table k).state ≠ .Unused) ∨
      ∃ j tr', (i ≤ j ∧ j < i + n) ∧ (s.data.process_table j).state = .Unused ∧
        (∀ k, i ≤ k → k < j → (s.data.process_table k).state ≠ .Unused) ∧
        K.Ends c (claimSlot j) s tr' r s' := by
  induction n with
  | zero =>
    intro i tr r h
    obtain ⟨rfl, rfl, -⟩ := h.ret_inv
    exact .inl ⟨rfl, rfl, fun k h1 h2 => by omega⟩
  | succ n ih =>
    intro i tr r h
    rw [allocprocLoop_succ] at h
    obtain ⟨p, s₁, tr₁, tr₂, h1, h2, -⟩ := h.bind
    obtain ⟨rfl, rfl⟩ := proc_ends h1
    split at h2
    · next hu =>
      exact .inr ⟨i, tr₂, ⟨by omega, by omega⟩, hu, fun k h1 h2 => by omega, h2⟩
    · next hu =>
      have hcons : ∀ {m k}, (∀ k, i + 1 ≤ k → k < m → (s₁.data.process_table k).state ≠ .Unused) →
          i ≤ k → k < m → (s₁.data.process_table k).state ≠ .Unused := by
        intro m k h h1 h2
        rcases Nat.eq_or_lt_of_le h1 with rfl | h1
        · exact hu
        · exact h k h1 h2
      rcases ih h2 with ⟨hr, hs, hno⟩ | ⟨j, tr', hj, hju, hno, h3⟩
      · exact .inl ⟨hr, hs, fun k h1 h2 => hcons hno h1 (by omega)⟩
      · exact .inr ⟨j, tr', by omega, hju, fun k h1 h2 => hcons hno h1 h2, h3⟩

/-- `allocproc` finds nothing, or claims the first slot that is free. -/
theorem allocproc_ends {r : Option Nat} (h : K.Ends c allocproc s tr r s') :
    (r = none ∧ s' = s ∧ ∀ k < s.data.nproc, (s.data.process_table k).state ≠ .Unused) ∨
      ∃ j tr', FirstFree s j ∧ K.Ends c (claimSlot j) s tr' r s' := by
  obtain ⟨d, s₁, tr₁, tr₂, h1, h2, -⟩ := h.bind
  obtain ⟨rfl, rfl⟩ := get_ends h1
  rcases allocprocLoop_ends _ h2 with ⟨hr, hs, hno⟩ | ⟨j, tr', hj, hju, hno, h3⟩
  · exact .inl ⟨hr, hs, fun k hk => hno k (Nat.zero_le _) (by omega)⟩
  · exact .inr ⟨j, tr', ⟨by omega, hju, fun k hk => hno k (Nat.zero_le _) hk⟩, h3⟩

theorem always_allocprocLoop {β : Type} {k : Option Nat → K β} {Q : β → Sys → Prop} (n : Nat) :
    ∀ {i : Nat}, i ≤ j → j < i + n → (s.data.process_table j).state = .Unused →
      (∀ k, i ≤ k → k < j → (s.data.process_table k).state ≠ .Unused) →
      K.Always c (fun _ _ => True) (claimSlot j >>= k) Q s →
      K.Always c (fun _ _ => True) (allocprocLoop n i >>= k) Q s := by
  induction n with
  | zero =>
    intro i h1 h2
    omega
  | succ n ih =>
    intro i h1 h2 hu hno h
    rw [allocprocLoop_succ]
    refine always_bind (always_bind (always_proc ?_))
    by_cases he : i = j
    · subst he
      rw [if_pos hu]
      unfold K.Always at h
      rwa [Free.wp_bind] at h
    · rw [if_neg (hno i (Nat.le_refl i) (by omega))]
      have := ih (i := i + 1) (by omega) (by omega) hu (fun k h1 h2 => hno k (by omega) h2) h
      unfold K.Always at this
      rwa [Free.wp_bind] at this

theorem always_allocprocLoop_none (n : Nat) : ∀ {i : Nat},
    (∀ k, i ≤ k → k < i + n → (s.data.process_table k).state ≠ .Unused) →
      K.Always c (fun _ _ => True) (allocprocLoop n i) (fun r s' => r = none ∧ s' = s) s := by
  induction n with
  | zero => exact fun _ => ⟨rfl, rfl⟩
  | succ n ih =>
    intro i h
    rw [allocprocLoop_succ]
    refine always_bind (always_proc ?_)
    rw [if_neg (h i (Nat.le_refl i) (by omega))]
    exact ih fun k h1 h2 => h k (by omega) (by omega)

theorem always_allocproc {β : Type} {k : Option Nat → K β} {Q : β → Sys → Prop}
    (hj : FirstFree s j) (h : K.Always c (fun _ _ => True) (claimSlot j >>= k) Q s) :
    K.Always c (fun _ _ => True) (allocproc >>= k) Q s := by
  unfold allocproc
  refine always_bind (always_bind (always_get ?_))
  have := always_allocprocLoop s.data.nproc (i := 0) (Nat.zero_le j) (by have := hj.lt; omega)
    hj.unused (fun k _ hk => hj.first k hk) h
  unfold K.Always at this
  rwa [Free.wp_bind] at this

end

/-! ## The caller and the child -/

/-- The process of slot `i` calls `kfork`: it has an address space with the frames `o`, and every
slot has a trapframe that is none of them. Memory may hold anything, the caller's page tables
apart. -/
structure ForkState (c : Cfg) (s : Sys) (i : Nat) : Prop where
  memory : ∃ v total tab o, View.Of c total s.phys.mem v s.phys ∧
    Space c ⟨o, s.phys.mem⟩ (s.data.process_table i).pagetable tab ∧ (∀ f ∈ o, f ∈ v.own) ∧
    (s.data.process_table i).trapframe ∈ v.own ∧ ∀ j < s.data.nproc,
      (s.data.process_table j).trapframe ∈ v.own ∧ (s.data.process_table j).trapframe ∉ o
  used : (s.data.process_table i).state ≠ .Unused
  apart : ∀ j < s.data.nproc, j ≠ i →
    (s.data.process_table j).trapframe ≠ (s.data.process_table i).trapframe

/-- The frames of the caller with address space `u` and of the child in slot `j`: both boxes, and
`o`, the frames of `u`, with memory as it was. -/
structure ForkView (c : Cfg) (total : Finset Nat) (m₀ : Bytes) (u : Uvm) (i j n : Nat)
    (o : Finset Nat) (s : Sys) (v : View) : Prop where
  of : v.Of c total m₀ s.phys
  caller : (s.data.process_table i).trapframe ∈ v.own
  child : (s.data.process_table j).trapframe ∈ v.own
  apart : (s.data.process_table j).trapframe ≠ (s.data.process_table i).trapframe
  parent : (s.data.process_table i).pagetable = u
  sub : ∀ f ∈ o, f ∈ v.own
  out : (s.data.process_table j).trapframe ∉ o
  mem : ∀ a, pageOf a ∈ o → v.mem a = m₀ a
  card : v.own.card = n

section
variable {c : Cfg} {s s' : Sys} {tr : List (KOp × Sys)} {i j n : Nat} {u : Uvm} {v : View}
  {total o : Finset Nat} {m₀ : Bytes} {tab : Nat → Option Nat}

theorem ForkState.congr (h : ForkState c s i) (hp : s'.phys = s.phys) (hd : s'.data = s.data) :
    ForkState c s' i := by
  obtain ⟨hw, hu, ha⟩ := h
  refine ⟨?_, ?_, ?_⟩
  · rw [hp, hd]
    exact hw
  · rwa [hd]
  · rwa [hd]

theorem ForkState.view (h : ForkState c s i) (hj : FirstFree s j) : ∃ total tab o n v,
    ForkView c total s.phys.mem (s.data.process_table i).pagetable i j n o s v ∧
    Space c ⟨o, s.phys.mem⟩ (s.data.process_table i).pagetable tab := by
  obtain ⟨v, total, tab, o, hof, hs, hsub, hbi, hb⟩ := h.memory
  have hne : j ≠ i := by
    rintro rfl
    exact h.used hj.unused
  exact ⟨total, tab, o, _, v, ⟨hof, hbi, (hb j hj.lt).1, h.apart j hj.lt hne, rfl, hsub,
    (hb j hj.lt).2, fun _ _ => by rw [hof.mem], rfl⟩, hs⟩

theorem ForkView.box {v' : View} (h : ForkView c total m₀ u i j n o s v) (hij : i ≠ j)
    (hb : NewBox c total m₀ s v j s' v') : ForkView c total m₀ u i j n o s' v' := by
  have hp := hb.other i hij
  have hold : ∀ f ∈ v.own, f ≠ (s.data.process_table j).trapframe → f ∈ v'.own := by
    intro f hf hne
    rw [hb.own]
    exact Finset.mem_insert_of_mem (Finset.mem_erase.2 ⟨hne, hf⟩)
  refine ⟨hb.of, ?_, ?_, ?_, ?_, fun f hf => ?_, fun hf => ?_, fun a ha => ?_, ?_⟩
  · rw [hp]
    exact hold _ h.caller h.apart.symm
  · rw [hb.own]
    exact Finset.mem_insert_self _ _
  · rw [hp]
    intro he
    exact hb.fresh (he ▸ h.caller)
  · rw [hp]
    exact h.parent
  · refine hold f (h.sub f hf) ?_
    rintro rfl
    exact h.out hf
  · exact hb.fresh (h.sub _ hf)
  · rw [hb.mem a fun he => hb.fresh (he ▸ h.sub _ ha)]
    exact h.mem a ha
  · rw [hb.own, Finset.card_insert_of_notMem fun hf => hb.fresh (Finset.mem_of_mem_erase hf),
      Finset.card_erase_add_one h.child, h.card]

theorem Reboxed.newBox {v' : View} {f : Nat} (hb : Reboxed c total m₀ s v j s' v' f) :
    NewBox c total m₀ s v j s' v' := by
  have htf : (s'.data.process_table j).trapframe = f := by
    rw [hb.data, Data.updProc_self]
  refine ⟨hb.of, fun k hk => ?_, by rw [htf]; exact hb.fresh, by rw [htf]; exact hb.own,
    by rw [htf]; exact hb.mem⟩
  rw [hb.data, Data.updProc_ne _ _ hk]

theorem ForkView.space (h : ForkView c total m₀ u i j n o s v) (hs : Space c ⟨o, m₀⟩ u tab) :
    Space c v u tab := hs.congr h.sub fun a ha => h.mem a (hs.tree.has_own ha)

theorem ForkView.pte (h : ForkView c total m₀ u i j n o s v) (hs : Space c ⟨o, m₀⟩ u tab) :
    BareMetal.pte v.mem tab = BareMetal.pte m₀ tab :=
  funext (hs.tree.pte_congr fun a ha => h.mem a (hs.tree.has_own ha))

end

/-! ## The child's address space -/

/-- The address space that `clone` made of `u` with entries `e`: what it took, and its tables. -/
structure ChildSpace (c : Cfg) (e : Nat → Nat) (u : Uvm) (n : Nat) (u' : Uvm) (v' : View)
    (tab' : Nat → Option Nat) : Prop where
  space : Space c v' u' tab'
  size : u'.size = u.size
  card : v'.own.card = n + cloneFrames e u
  tables : ∀ i, tab' i = none ↔
    ∀ q, ValidPages e (pageNo USER_START) (u.size / PAGESIZE) q → q / 1024 ≠ i

section
variable {c : Cfg} {N : Nat} {stop : Prop} {u : Uvm} {v : View} {tab : Nat → Option Nat} {tf : Nat}

theorem wp_clone_child (h : Space c v u tab)
    (hslot : ∀ q, InPages (pageNo USER_START) (u.size / PAGESIZE) q → slot tab q = none → stop)
    (hend : USIZE ≤ USER_START + u.size → stop)
    (hran : N < v.own.card + cloneFrames (pte v.mem tab) u → stop) :
    M.wp (tight c N stop) u.clone (fun u' v' => (∀ f ∈ v.own, f ∈ v'.own) ∧ ∃ tab',
      ChildSpace c (pte v.mem tab) u v.own.card u' v' tab') v := by
  refine wp_clone_space (E := tight c N stop) id h hslot hend (fun o ho hlt => hran ?_)
    fun u' v' tab' fr hcp hcard htab => ⟨hcp.sub, tab', ?_, hcp.size_eq, hcard, htab⟩
  · have ho : o.card = N := ho
    rwa [← ho]
  · exact hcp.space.congr (fun f hf => (Finset.mem_sdiff.1 hf).1) fun _ _ => rfl

/-- `init_proc` needs a frame exactly where the last second-level table is missing. -/
theorem wp_initProc_child (h : Space c v u tab) (htf : c.IsFrame tf) :
    M.wp (tight c N stop) (Uvm.initProc c u tf) (fun r v' =>
      r = .ok () ∧ (∀ f ∈ v.own, f ∈ v'.own) ∧ v'.own.card ≤ v.own.card + 1 ∧
        (tab 1023 = none → v'.own.card = v.own.card + 1) ∨
      r = .error () ∧ tab 1023 = none ∧ v.own.card = N ∧ v'.own.card = N ∧
        ∃ tab', Space c v' u tab') v := by
  have hsz := PAGESIZE_eq
  have hb := htf.bound
  have hpage : pageNo TRAMPOLINE / 1024 = 1023 := by rw [trampoline_va.2.2]
  refine wp_initProc (E := tight c N stop) id h.tree htf.page (by rw [hsz, USIZE_eq]; omega)
    (fun v' tab' hg ht he => .inl ⟨rfl, fun f hf => hg.own_sub hf, ?_, fun hn => ?_⟩)
    fun v' tab' hg ht ho hn he => ?_
  · -- no table but the last was made
    have hnew : newTables tab tab' ⊆ {1023} := fun i hi => by
      obtain ⟨-, h1, h2⟩ := Finset.mem_filter.1 hi
      obtain ⟨q, hq, rfl⟩ := ht i fun h3 => h2 (h3.trans h1)
      exact Finset.mem_singleton.2 hq
    have hle := Finset.card_le_card hnew
    rw [Finset.card_singleton] at hle
    rw [hg.card_eq h.tree]
    omega
  · -- the last table was made
    have hsome : tab' 1023 ≠ none := by
      intro h0
      have h1 : pte v'.mem tab' (pageNo TRAMPOLINE) = 0 := by rw [pte, hpage, h0]
      rw [he, procMap, mapRange_one_ne (by rw [trampoline_va.2.2, trapframe_va.2.2]; decide),
        mapRange_one] at h1
      exact leafWord_ne_zero _ _ h1
    have hnew : newTables tab tab' = {1023} := by
      ext i
      rw [newTables, Finset.mem_filter, Finset.mem_range, Finset.mem_singleton]
      constructor
      · rintro ⟨-, h1, h2⟩
        obtain ⟨q, hq, rfl⟩ := ht i fun h3 => h2 (h3.trans h1)
        exact hq
      · rintro rfl
        exact ⟨by decide, hn, hsome⟩
    rw [hg.card_eq h.tree, hnew, Finset.card_singleton]
  · have hkeep : tab 1023 = none := by
      cases h0 : tab 1023 with
      | none => rfl
      | some t =>
        rw [hg.keep h0] at hn
        cases hn
    have hnew : newTables tab tab' = ∅ := by
      refine Finset.filter_eq_empty_iff.2 fun i _ hi => ?_
      obtain ⟨q, hq, rfl⟩ := ht i fun h3 => hi.2 (h3.trans hi.1)
      rw [hq] at hi
      exact hi.2 hn
    have hcard := hg.card_eq h.tree
    rw [hnew, Finset.card_empty, Nat.add_zero] at hcard
    have ho : v'.own.card = N := ho
    refine .inr ⟨rfl, hkeep, by rw [← hcard, ho], ho, tab', h.grown hg (he.resolve_right fun he => ?_)⟩
    have h1 : pte v'.mem tab' (pageNo TRAMPOLINE) = 0 := by rw [pte, hpage, hn]
    rw [he, mapRange_one] at h1
    exact leafWord_ne_zero _ _ h1

end

/-! ## When `kfork` fails -/

/-- What `kfork` does once the address space of the child in slot `j` is ready. -/
def startChild (i j : Nat) (uvm : Uvm) : K (Except Unit Nat) := do
  replacePagetable j uvm
  lift (M.write ((← proc j).trapframe + Trapframe.a0) 0)
  let pid ← K.unwrap (← proc j).pid
  lift (M.write ((← proc i).trapframe + Trapframe.a0) pid)
  release (.proc j)
  let parent := (← proc i).pid
  setProc j fun p => { p with parent }
  lock (.proc j)
  setProc j fun p => { p with state := .Runnable }
  release (.proc j)
  match (← proc j).pid with
  | some pid => return .ok pid
  | none => return .error ()

/-- What it does with the copy of the caller's address space. -/
def finishFork (c : Cfg) (i j : Nat) (uvm : Uvm) : K (Except Unit Nat) := do
  match ← lift (uvm.initProc c (← proc j).trapframe) with
  | .error () =>
    lift uvm.drop
    return .error ()
  | .ok () => startChild i j uvm

theorem kforkLocked_eq (c : Cfg) (i : Nat) : kforkLocked c i = (do
    match ← allocproc with
    | none => return .error ()
    | some j =>
      replaceTrapframe j (Trapframe.cloneIn (← proc i).trapframe)
      let uvm ← lift (← proc i).pagetable.clone
      finishFork c i j uvm) := rfl

/-- What makes `init_proc` fail in a fork into slot `j`: all that comes before it goes well, and
takes every frame that is free, while no page of the caller needs the last second-level table. -/
structure ForkFails (s : Sys) (i j : Nat) : Prop where
  first : FirstFree s j
  kernel : LockId.kernel ∉ s.locks.held
  claims : Claims s j
  covered : World.Covered s.phys.mem (s.data.process_table i).pagetable
  frames : s.phys.free.length = forkFrames s.phys.mem (s.data.process_table i).pagetable
  top : ¬ MapsTop s.phys.mem (s.data.process_table i).pagetable

/-- The process table as far as the claim goes, the locks of the slots, the interrupt depth and the
trapframe of slot `i` are as before. -/
structure NoTrace (s s' : Sys) (i : Nat) : Prop where
  state : ∀ j < s.data.nproc, (s'.data.process_table j).state = (s.data.process_table j).state
  pid : ∀ j < s.data.nproc, (s'.data.process_table j).pid = (s.data.process_table j).pid
  parent : ∀ j < s.data.nproc, (s'.data.process_table j).parent = (s.data.process_table j).parent
  lock : ∀ j, LockId.proc j ∈ s'.locks.held ↔ LockId.proc j ∈ s.locks.held
  depth : s'.locks.interrupt_off_stack = s.locks.interrupt_off_stack
  box : (s'.data.process_table i).trapframe = (s.data.process_table i).trapframe
  trapframe : ∀ k < Trapframe.SIZE, s'.phys.mem ((s.data.process_table i).trapframe + k) =
    s.phys.mem ((s.data.process_table i).trapframe + k)

section
variable {c : Cfg} {s s' : Sys} {tr : List (KOp × Sys)} {i j : Nat}

theorem unwrap_some_ends {α : Type} {o : Option α} {a : α} (h : K.Ends c (K.unwrap o) s tr a s') :
    o = some a ∧ s' = s := by
  cases o with
  | none => exact (panic_ends h).elim
  | some b =>
    obtain ⟨rfl, rfl, -⟩ := h.ret_inv
    exact ⟨rfl, rfl⟩

/-- With the address space ready `kfork` returns `Ok`. -/
theorem startChild_ends {uvm : Uvm} (h : K.Ends c (startChild i j uvm) s tr (.error ()) s') :
    False := by
  unfold startChild at h
  obtain ⟨_, s₁, tr₁, tr₂, -, h, -⟩ := h.bind
  obtain ⟨_, s₂, tr₃, tr₄, -, h, -⟩ := h.bind
  obtain ⟨_, s₃, tr₅, tr₆, -, h0, -⟩ := h.bind
  obtain ⟨p, s₄, tr₇, tr₈, h1, h2, -⟩ := h0.bind
  obtain ⟨rfl, rfl⟩ := proc_ends h1
  obtain ⟨pid, s₅, tr₉, tr₁₀, h3, h4, -⟩ := h2.bind
  obtain ⟨hpid, rfl⟩ := unwrap_some_ends h3
  obtain ⟨p, s₆, tr₁₁, tr₁₂, h5, h6, -⟩ := h4.bind
  obtain ⟨rfl, rfl⟩ := proc_ends h5
  obtain ⟨_, s₇, tr₁₃, tr₁₄, h7, h8, -⟩ := h6.bind
  have d7 := (lift_ends h7).2
  obtain ⟨_, s₈, tr₁₅, tr₁₆, h9, h10, -⟩ := h8.bind
  have d8 := (release_ends h9).data
  obtain ⟨p, s₉, tr₁₇, tr₁₈, h11, h12, -⟩ := h10.bind
  obtain ⟨rfl, rfl⟩ := proc_ends h11
  obtain ⟨_, s₁₀, tr₁₉, tr₂₀, h13, h14, -⟩ := h12.bind
  obtain rfl := setProc_ends h13
  obtain ⟨_, s₁₁, tr₂₁, tr₂₂, h15, h16, -⟩ := h14.bind
  have d11 := (lock_ends h15).data
  obtain ⟨_, s₁₂, tr₂₃, tr₂₄, h17, h18, -⟩ := h16.bind
  obtain rfl := setProc_ends h17
  obtain ⟨_, s₁₃, tr₂₅, tr₂₆, h19, h20, -⟩ := h18.bind
  have d13 := (release_ends h19).data
  obtain ⟨p, s₁₄, tr₂₇, tr₂₈, h21, h22, -⟩ := h20.bind
  obtain ⟨rfl, rfl⟩ := proc_ends h21
  have hp : (s₁₄.data.process_table j).pid = some pid := by
    simp [d13, d11, d8, d7, hpid]
  rw [hp] at h22
  obtain ⟨he, -⟩ := h22.ret_inv
  cases he

/-- A fork that fails found no slot, or had the frames for all but the last table. -/
theorem kforkLocked_ends (hc : c.Eager) (hst : ForkState c s i)
    (h : K.Ends c (kforkLocked c i) s tr (.error ()) s') :
    (s' = s ∧ ∀ k < s.data.nproc, (s.data.process_table k).state ≠ .Unused) ∨
      ∃ j, FirstFree s j ∧ Claims s j ∧
        World.Covered s.phys.mem (s.data.process_table i).pagetable ∧
        s.phys.free.length = forkFrames s.phys.mem (s.data.process_table i).pagetable ∧
        ¬ MapsTop s.phys.mem (s.data.process_table i).pagetable := by
  rw [kforkLocked_eq] at h
  obtain ⟨r, s₁, tr₁, tr₂, h1, h2, -⟩ := h.bind
  rcases allocproc_ends h1 with ⟨rfl, rfl, hno⟩ | ⟨j, tr', hj, h1⟩
  · obtain ⟨-, rfl, -⟩ := h2.ret_inv
    exact .inl ⟨rfl, hno⟩
  obtain ⟨total, tab, o, n, v, hv, hs⟩ := hst.view hj
  have hij : i ≠ j := by
    rintro rfl
    exact hst.used hj.unused
  have hfree : total.card = n + s.phys.free.length := by rw [hv.of.card, hv.card]
  obtain ⟨rfl, hcl, v₁, hbox, -⟩ := claimSlot_ends hc hv.of hv.child h1
  have hv₁ := hv.box hij hbox
  -- the child's trapframe
  obtain ⟨p, s₁', tr₃, tr₄, h3, h4, -⟩ := h2.bind
  obtain ⟨rfl, rfl⟩ := proc_ends h3
  obtain ⟨_, s₂, tr₅, tr₆, h5, h6, -⟩ := h4.bind
  obtain ⟨v₂, f, hbox⟩ := replaceTrapframe_ends hc hv₁.of hv₁.child (wp_cloneIn
    (hv₁.of.frame _ ((hv₁.of.cover _).2 (.inl hv₁.caller))) fun _ => trivial) h5
  have hv₂ := hv₁.box hij hbox.newBox
  -- its address space
  obtain ⟨p, s₂', tr₇, tr₈, h7, h8, -⟩ := h6.bind
  obtain ⟨rfl, rfl⟩ := proc_ends h7
  obtain ⟨uvm, s₃, tr₉, tr₁₀, h9, h10, -⟩ := h8.bind
  rw [hv₂.parent] at h9
  have hs₂ := hv₂.space hs
  have hpte := hv₂.pte hs
  have hcov : World.Covered s.phys.mem (s.data.process_table i).pagetable := by
    by_contra hcov
    obtain ⟨-, _, -, hF⟩ := lift_alone hv₂.of
      (wp_clone_stops (E := alone c True) id trivial hs₂ (World.not_covered hs hcov)) h9
    exact hF
  obtain ⟨d3, v₃, hof₃, -, tab₃, hch⟩ := lift_owned (E := tight c total.card True) rfl
    (tight_oom hc total True) hv₂.of
    (wp_clone_child hs₂ (fun _ _ _ => trivial) (fun _ => trivial) fun _ => trivial) h9
  obtain ⟨p, s₃', tr₁₁, tr₁₂, h11, h12, -⟩ := h10.bind
  obtain ⟨rfl, rfl⟩ := proc_ends h11
  obtain ⟨res, s₄, tr₁₃, tr₁₄, h13, h14, -⟩ := h12.bind
  rw [d3] at h13
  obtain ⟨d4, v₄, hof₄, hinit⟩ := lift_owned (E := tight c total.card True) rfl
    (tight_oom hc total True) hof₃ (wp_initProc_child hch.space
      (hv₂.of.frame _ ((hv₂.of.cover _).2 (.inl hv₂.child)))) h13
  rcases hinit with ⟨rfl, -⟩ | ⟨rfl, htop, hN, -⟩
  · exact (startChild_ends h14).elim
  · have hcard := hch.card
    rw [hpte, hv₂.card, ← hs.forkFrames_eq hcov.1] at hcard
    refine .inr ⟨j, hj, hcl, hcov, ?_, ?_⟩
    · dsimp only at hcard
      omega
    · rintro ⟨q, hq, htq⟩
      refine (hch.tables 1023).1 htop q ?_ htq
      rw [hpte]
      exact (hs.validPages hcov.1 q).1 hq

/-- With frames for a copy of the address space it comes to `finishFork`, whatever happens. -/
theorem always_kforkLocked {Q : Except Unit Nat → Sys → Prop} (hc : c.Eager)
    (hv : ForkView c total s.phys.mem (s.data.process_table i).pagetable i j n o s v)
    (hs : Space c ⟨o, s.phys.mem⟩ (s.data.process_table i).pagetable tab)
    (hused : (s.data.process_table i).state ≠ .Unused) (hj : FirstFree s j) (hcl : Claims s j)
    (hcov : World.Covered s.phys.mem (s.data.process_table i).pagetable)
    (hfr : forkFrames s.phys.mem (s.data.process_table i).pagetable ≤ s.phys.free.length)
    (h : ∀ uvm v' s' tab' f sp, v'.Of c total s.phys.mem s'.phys → f ∈ v'.own →
      (s.data.process_table i).trapframe ∈ v'.own →
      ChildSpace c (BareMetal.pte s.phys.mem tab) (s.data.process_table i).pagetable n uvm v' tab' →
      s'.data = s.data.claimed j f sp → TookLock (.proc j) s s' →
      K.Always c (fun _ _ => True) (finishFork c i j uvm) Q s') :
    K.Always c (fun _ _ => True) (kforkLocked c i) Q s := by
  have hij : i ≠ j := by
    rintro rfl
    exact hused hj.unused
  have hfree : total.card = n + s.phys.free.length := by rw [hv.of.card, hv.card]
  have hpos : 1 ≤ s.phys.free.length := (Nat.le_add_right 1 _).trans hfr
  -- as long as the boxes are exchanged one for one, a frame is free
  have hsome : ∀ {s' v'}, ForkView c total s.phys.mem (s.data.process_table i).pagetable i j n o s' v' →
      s'.phys.free ≠ [] := by
    intro s' v' hv' h0
    have hcard := hv'.of.card
    rw [hv'.card, h0, List.length_nil] at hcard
    omega
  rw [kforkLocked_eq]
  refine always_allocproc hj (always_claimSlot hc hv.of hv.child hcl (hsome hv)
    fun v₁ s₁ f₁ sp hbox hd₁ l1 => ?_)
  have hv₁ := hv.box hij hbox
  have hh₁ : LockId.heap ∉ s₁.locks.held := by
    rw [l1.held]
    exact fun hm => (Finset.mem_insert.1 hm).elim (fun he => by cases he) hcl.heap
  -- the child's trapframe
  refine always_bind (always_proc ?_)
  refine always_replaceTrapframe hc hv₁.of hh₁ hv₁.child (wp_cloneIn
    (hv₁.of.frame _ ((hv₁.of.cover _).2 (.inl hv₁.caller)))
      fun ho => hv₁.of.not_oom (hsome hv₁) ho) fun v₂ f s₂ hbox l2 => ?_
  have hv₂ := hv₁.box hij hbox.newBox
  have hd₂ : s₂.data = s.data.claimed j f sp := by
    rw [hbox.data, hd₁, Data.claimed, Data.updProc_twice]
    rfl
  have hh₂ : LockId.heap ∉ s₂.locks.held := by rwa [l2.1]
  -- its address space
  refine always_bind (always_proc ?_)
  rw [hv₂.parent]
  have hs₂ := hv₂.space hs
  have hpte := hv₂.pte hs
  have hneed := hs.forkFrames_eq hcov.1
  dsimp only at hneed
  refine always_part (E := tight c total.card False) rfl id (tight_oom hc total False) hv₂.of hh₂
    (wp_clone_child hs₂ (fun q hq h0 => hcov.slot hs hq h0) (fun hov => by have := hcov.1; omega)
      fun hlt => ?_) fun uvm v₃ s₃ hof₃ hch d3 l3 => ?_
  · rw [hpte, hv₂.card, ← hneed] at hlt
    omega
  obtain ⟨hsub, tab₃, hch⟩ := hch
  rw [hpte, hv₂.card] at hch
  refine h uvm v₃ s₃ tab₃ f sp hof₃ (hsub f ?_) (hsub _ ?_) hch (d3.trans hd₂) ((l1.same l2).same l3)
  · have hchild := hv₂.child
    rwa [hd₂, Data.claimed_self] at hchild
  · have hcaller := hv₂.caller
    rwa [hd₂, Data.claimed_ne _ _ _ hij] at hcaller

/-- Where it fails for want of the last table, it does so whatever happens, and leaves the slot
`Used`. -/
theorem kforkLocked_always (hc : c.Eager) (hst : ForkState c s i) (hj : FirstFree s j)
    (hcl : Claims s j) (hcov : World.Covered s.phys.mem (s.data.process_table i).pagetable)
    (hfr : s.phys.free.length = forkFrames s.phys.mem (s.data.process_table i).pagetable)
    (htop : ¬ MapsTop s.phys.mem (s.data.process_table i).pagetable) :
    K.Always c (fun _ _ => True) (kforkLocked c i) (fun r s' => r = .error () ∧
      (s'.data.process_table j).state = .Used ∧ 1 ≤ s'.locks.interrupt_off_stack) s := by
  obtain ⟨total, tab, o, n, v, hv, hs⟩ := hst.view hj
  have hoom := tight_oom hc total False
  have hfree : total.card = n + s.phys.free.length := by rw [hv.of.card, hv.card]
  have hneed := hs.forkFrames_eq hcov.1
  dsimp only at hneed
  refine always_kforkLocked hc hv hs hst.used hj hcl hcov hfr.ge
    fun uvm v₁ s₁ tab₁ f sp hof₁ hbox _ hch hd₁ l1 => ?_
  have hcard := hch.card
  rw [← hneed, ← hfr, ← hfree] at hcard
  have hh₁ : LockId.heap ∉ s₁.locks.held := by
    rw [l1.held]
    exact fun hm => (Finset.mem_insert.1 hm).elim (fun he => by cases he) hcl.heap
  -- the last table finds no frame
  unfold finishFork
  refine always_bind (always_proc ?_)
  rw [hd₁, Data.claimed_self]
  refine always_part (E := tight c total.card False) rfl id hoom hof₁ hh₁
    (wp_initProc_child hch.space (hof₁.frame _ ((hof₁.cover _).2 (.inl hbox))))
    fun res v₂ s₂ hof₂ hinit d2 l2 => ?_
  rcases hinit with ⟨-, -, -, hone⟩ | ⟨rfl, -, -, -, tab₂, hs₂⟩
  · have hnone : tab₁ 1023 = none := by
      refine (hch.tables 1023).2 fun q hq he => htop ⟨q, ?_, he⟩
      exact (hs.validPages hcov.1 q).2 hq
    have hover := hone hnone
    have hall := hof₂.card
    omega
  · refine always_part (E := tight c total.card False) (R := fun _ _ => True) rfl id hoom hof₂
      (by rwa [l2.1]) (wp_drop id hs₂ (fun _ hov => ?_) fun _ _ _ _ => trivial)
      fun _ v₃ s₃ _ _ d3 l3 => ⟨rfl, ?_, ?_⟩
    · rw [hch.size] at hov
      have := hcov.1
      omega
    · rw [d3, d2, hd₁, Data.claimed_self]
    · rw [l3.2, l2.2]
      exact l1.stack

/-- When `init_proc` fails, every run of `kfork` returns `Err` with the slot `Used`. -/
theorem ForkFails.always (hf : ForkFails s i j) (hc : c.Eager) (hst : ForkState c s i) :
    K.Always c (fun _ _ => True) (kfork c i) (fun r s' => r = .error () ∧
      (s'.data.process_table j).state = .Used) s := by
  unfold kfork
  refine always_bind (always_lock hf.kernel fun s₁ p1 d1 l1 _ => ?_)
  have hnot : ∀ l, l ≠ .kernel → l ∉ s.locks.held → l ∉ s₁.locks.held := by
    intro l hne hl
    rw [l1]
    exact fun hm => (Finset.mem_insert.1 hm).elim hne hl
  have hj : FirstFree s₁ j :=
    ⟨by rw [d1]; exact hf.first.lt, by rw [d1]; exact hf.first.unused,
      by rw [d1]; exact hf.first.first⟩
  have hcl : Claims s₁ j :=
    ⟨hnot _ (by simp) hf.claims.heap, hnot _ (by simp) hf.claims.lock,
      by rw [d1]; exact hf.claims.pid, by rw [d1]; exact hf.claims.kstack⟩
  refine always_bind ((kforkLocked_always hc (hst.congr p1 d1) hj hcl
    (by rw [p1, d1]; exact hf.covered) (by rw [p1, d1]; exact hf.frames)
    (by rw [p1, d1]; exact hf.top)).mono fun r s₂ hq => ?_)
  exact always_bind (always_release hq.2.2 fun s₃ _ d3 _ => ⟨hq.1, by rw [d3]; exact hq.2.1⟩)

/-- **A failed fork** leaves no trace, whatever happens, exactly when it is not `init_proc` that
fails: then the slot stays `Used`. -/
theorem kfork_noTrace_iff (c : Cfg) (s : Sys) (i : Nat) (hc : c.Eager) (hst : ForkState c s i) :
    (∀ tr s', K.Ends c (kfork c i) s tr (.error ()) s' → NoTrace s s' i) ↔
      ¬ ∃ j, ForkFails s i j := by
  constructor
  · rintro h ⟨j, hf⟩
    obtain ⟨tr, r, s', he, rfl, hused⟩ := (hf.always hc hst).ends
    have hn := (h tr s' he).state j hf.first.lt
    rw [hused, hf.first.unused] at hn
    cases hn
  · intro hno tr s' h
    obtain ⟨_, s₁, tr₁, tr₂, h1, h2, -⟩ := h.bind
    have hidle := lock_ends h1
    obtain ⟨hkernel, hheld, -⟩ := lock_takes h1
    obtain ⟨r, s₂, tr₃, tr₄, h3, h4, -⟩ := h2.bind
    obtain ⟨_, s₃, tr₅, tr₆, h5, h6, -⟩ := h4.bind
    obtain ⟨rfl, rfl, -⟩ := h6.ret_inv
    rcases kforkLocked_ends hc (hst.congr hidle.phys hidle.data) h3 with
      ⟨rfl, -⟩ | ⟨j, hj, hcl, hcov, hfr, htop⟩
    · -- no slot was free
      have hrel := release_ends h5
      have hdata : s'.data = s.data := hrel.data.trans hidle.data
      have hlocks := locked_same h1 (.of_eq rfl) h5
      exact ⟨fun j _ => by rw [hdata], fun j _ => by rw [hdata], fun j _ => by rw [hdata],
        fun j => by rw [hlocks.1], hlocks.2, by rw [hdata],
        fun k _ => by rw [hrel.phys, hidle.phys]⟩
    · rw [hidle.phys, hidle.data] at hcov hfr htop
      have hd := hidle.data
      have hsub : ∀ l, l ∉ s₁.locks.held → l ∉ s.locks.held := fun l hl hm =>
        hl (hheld ▸ Finset.mem_insert_of_mem hm)
      exact absurd ⟨j, ⟨hd ▸ hj.lt, hd ▸ hj.unused, hd ▸ hj.first⟩, hkernel,
        ⟨hsub _ hcl.heap, hsub _ hcl.lock, hd ▸ hcl.pid, hd ▸ hcl.kstack⟩, hcov, hfr, htop⟩ hno

/-- Without a free slot `kfork` returns `Err`. -/
theorem kfork_full (hkernel : LockId.kernel ∉ s.locks.held)
    (hno : ∀ k < s.data.nproc, (s.data.process_table k).state ≠ .Unused) :
    K.Always c (fun _ _ => True) (kfork c i) (fun r _ => r = .error ()) s := by
  unfold kfork
  refine always_bind (always_lock hkernel fun s₁ _ d1 _ n1 => ?_)
  rw [← d1] at hno
  rw [kforkLocked_eq]
  unfold allocproc
  refine always_bind (always_bind (always_bind (always_get ?_)))
  refine (always_allocprocLoop_none s₁.data.nproc fun k _ hk => hno k (by omega)).mono
    fun r s₂ h2 => ?_
  obtain ⟨rfl, rfl⟩ := h2
  exact always_bind (always_release n1 fun _ _ _ _ => rfl)

end

/-! ## A caller with one page -/

/-- The frames that the caller and the slots own. -/
theorem ForkState.of_own {c : Cfg} {s : Sys} {i : Nat} {tab : Nat → Option Nat} {o b : Finset Nat}
    (hn : s.phys.free.Nodup) (hfree : ∀ f ∈ s.phys.free, c.IsFrame f)
    (ho : ∀ f ∈ o, c.IsFrame f ∧ f ∉ s.phys.free ∧ f ∉ b)
    (hb : ∀ f ∈ b, c.IsFrame f ∧ f ∉ s.phys.free)
    (hs : Space c ⟨o, s.phys.mem⟩ (s.data.process_table i).pagetable tab)
    (hi : (s.data.process_table i).trapframe ∈ b)
    (hj : ∀ j < s.data.nproc, (s.data.process_table j).trapframe ∈ b)
    (hused : (s.data.process_table i).state ≠ .Unused)
    (hne : ∀ j < s.data.nproc, j ≠ i →
      (s.data.process_table j).trapframe ≠ (s.data.process_table i).trapframe) :
    ForkState c s i := by
  have hown : ∀ f ∈ o ∪ b, c.IsFrame f ∧ f ∉ s.phys.free := fun f hf =>
    (Finset.mem_union.1 hf).elim (fun hf => ⟨(ho f hf).1, (ho f hf).2.1⟩) (hb f)
  refine ⟨⟨⟨o ∪ b, s.phys.mem⟩, o ∪ b ∪ s.phys.free.toFinset, tab, o, ⟨rfl, fun _ _ => rfl, hn,
    fun f hf => (hown f hf).2, fun f => ?_, fun f hf => ?_⟩, hs,
    fun f hf => Finset.mem_union_left _ hf, Finset.mem_union_right _ hi, fun j hjn =>
      ⟨Finset.mem_union_right _ (hj j hjn), fun hf => (ho _ hf).2.2 (hj j hjn)⟩⟩, hused, hne⟩
  · rw [Finset.mem_union, List.mem_toFinset]
  · rcases Finset.mem_union.1 hf with hf | hf
    · exact (hown f hf).1
    · exact hfree f (List.mem_toFinset.1 hf)

/-- Slot 0 calls `kfork`: its address space is `u`, its box `f`. Slot 1 has the box `g`. -/
def Sys.fork (p : Phys) (u : Uvm) (f g : Nat) (state : ProcState) : Sys :=
  { Sys.demo with
    phys := p
    data :=
      { Sys.demo.data with
        process_table := fun i =>
          if i = 0 then { Sys.demo.data.process_table 0 with
            state := .Running, pagetable := u, trapframe := f }
          else { Sys.demo.data.process_table i with state, trapframe := g }
        nproc := 2 } }

/-- A caller with one page, whose clone takes three frames, and `n` frames free. -/
theorem Sys.fork_demo {n : Nat} (hn : n ≤ 1000) : ∃ p u f g, p.free.length = n ∧
    World.Covered p.mem u ∧ forkFrames p.mem u = 3 ∧ ¬ MapsTop p.mem u ∧
    ∀ state, ForkState Cfg.demo (Sys.fork p u f g state) 0 := by
  have hsz := PAGESIZE_eq
  have hus : USER_START = 0x10000 := rfl
  obtain ⟨w₀, p, u, tab, hl, hk, hs, hsp₀, he, hlen⟩ := World.demo_life (n := 1) (by omega)
    (show PTE_R ||| PTE_W ≠ 0 by decide) (A := fun o _ => o.Plain) ⟨by decide, by decide⟩
    fun u _ tf ho => by cases ho
  obtain ⟨w, h, hu, ha, hm, hf, hb⟩ := hl.reach.boxes Cfg.demo_eager (n := n)
    (w₀.phys.free.length - n) (by omega)
  obtain ⟨f, hfb, g, hgb, hne⟩ := Finset.one_lt_card.1 (show 1 < w.boxes.card by omega)
  have hsp : Space Cfg.demo ⟨w.account 0, w.phys.mem⟩ u tab := by
    refine hsp₀.congr (fun _ hf => ha ▸ hf) fun a ha' => hm 0 a (hsp₀.tree.has_own ha')
  have hsize : u.size / PAGESIZE = 1 := by
    rw [hs, hsz]
  have hend : USER_START + u.size < USIZE := by
    rw [hs, hsz, USIZE_eq]
    decide
  have hmap : ∀ q, InPages (pageNo USER_START) (u.size / PAGESIZE) q → pte w.phys.mem tab q ≠ 0 := by
    intro q hq
    rw [hsize] at hq
    rw [hsp₀.tree.pte_congr fun a ha' => hm 0 a (hsp₀.tree.has_own ha')]
    exact he q hq
  have hpage : pageNo USER_START = 16 := by
    unfold pageNo
    rw [hsz, hus]
  have hodd : pte w.phys.mem tab 16 % 2 = 1 := by
    refine (hsp.leaf _ (hmap 16 ?_)).odd
    unfold InPages
    omega
  refine ⟨w.phys, u, f, g, hf, .of_mapped hsp hend hmap, ?_, ?_, fun state =>
    .of_own h.inv.nodup h.inv.frames (h.inv.acc 0) h.inv.box hsp hfb (fun j _ => ?_) ?_
      fun j _ h0 => ?_⟩
  · have hfr : forkFrames w.phys.mem u = cloneFrames (pte w.phys.mem tab) u := hsp.forkFrames_eq hend
    rw [hfr]
    unfold cloneFrames
    rw [hsize, hpage, cloneNeed_one _ hodd, if_pos rfl]
  · rintro ⟨q, ⟨hq, -⟩, htop⟩
    unfold InPages at hq
    omega
  · show (if j = 0 then _ else _ : Process).trapframe ∈ _
    split
    · exact hfb
    · exact hgb
  · show ProcState.Running ≠ .Unused
    simp
  · show (if j = 0 then _ else _ : Process).trapframe ≠ f
    rw [if_neg h0]
    exact hne.symm

/-- With both slots taken `kfork` returns `Err`, and leaves no trace. -/
theorem kfork_noTrace_demo : ∃ s tr s', K.Ends Cfg.demo (kfork Cfg.demo 0) s tr (.error ()) s' ∧
    NoTrace s s' 0 := by
  obtain ⟨p, u, f, g, -, -, -, -, hst⟩ := Sys.fork_demo (n := 3) (by omega)
  have hno : ∀ k < 2, ((Sys.fork p u f g .Runnable).data.process_table k).state ≠ .Unused := by
    intro k _
    show (if k = 0 then _ else _ : Process).state ≠ .Unused
    split <;> simp
  obtain ⟨tr, r, s', h, rfl⟩ := (kfork_full (c := Cfg.demo) (i := 0)
    (s := Sys.fork p u f g .Runnable) (Finset.notMem_empty _) hno).ends
  refine ⟨_, tr, s', h, (kfork_noTrace_iff Cfg.demo _ 0 Cfg.demo_eager (hst .Runnable)).2 ?_ tr s' h⟩
  rintro ⟨j, hf⟩
  exact hno j hf.first.lt hf.first.unused

/-- With three frames free `init_proc` gets none: slot 1 stays `Used`. -/
theorem kfork_trace : ∃ s tr s', ForkState Cfg.demo s 0 ∧ s.phys.free.length = 3 ∧
    K.Ends Cfg.demo (kfork Cfg.demo 0) s tr (.error ()) s' ∧
    (s.data.process_table 1).state = .Unused ∧ (s'.data.process_table 1).state = .Used ∧
    ¬ NoTrace s s' 0 := by
  obtain ⟨p, u, f, g, hfree, hcov, hfr, htop, hst⟩ := Sys.fork_demo (n := 3) (by omega)
  have hfirst : FirstFree (Sys.fork p u f g .Unused) 1 := by
    refine ⟨Nat.one_lt_two, rfl, fun k hk => ?_⟩
    obtain rfl : k = 0 := by omega
    show ProcState.Running ≠ .Unused
    simp
  have hcl : Claims (Sys.fork p u f g .Unused) 1 := by
    refine ⟨Finset.notMem_empty _, Finset.notMem_empty _, ?_, ?_⟩
    · show 0 + 1 < USIZE
      rw [USIZE_eq]
      omega
    · show 0 + KERNEL_STACK_PAGES * PAGESIZE < USIZE
      rw [USIZE_eq, PAGESIZE_eq]
      decide
  have hf : ForkFails (Sys.fork p u f g .Unused) 0 1 :=
    ⟨hfirst, Finset.notMem_empty _, hcl, hcov, hfree.trans hfr.symm, htop⟩
  obtain ⟨tr, r, s', h, rfl, hused⟩ := (hf.always Cfg.demo_eager (hst .Unused)).ends
  refine ⟨_, tr, s', hst .Unused, hfree, h, rfl, hused, fun hn => ?_⟩
  have hstate := hn.state 1 Nat.one_lt_two
  rw [hused] at hstate
  cases hstate

end BareMetal
