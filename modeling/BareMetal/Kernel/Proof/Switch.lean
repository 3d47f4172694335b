import BareMetal.Kernel.Proof.Enter

/-!
# From one process to another

A process that hands the hart back comes to the scheduler's next pass (`Machine.Later.toPass`), and
the pass hands it to the one that can run (`Machine.Later.dispatch`): a new one goes to user mode
(`Machine.Later.start`), one that has waited goes on where it was.
-/

namespace BareMetal

open Lib K

/-- The process of slot `i` has handed the hart back. -/
def Data.parked (d : Data) (i : Nat) : Data :=
  { d.updProc i fun p => { p with context := .sched } with current := none }

namespace K

variable {c : Cfg} {s : Sys} {b : Bool}

/-- `sched`, called with the lock `l` alone. -/
theorem comes_sched {D : K Label → Sys → Prop} {l : LockId} {j : Nat} {f : Unit → K Label}
    (hb : s.locks.Holds b {l}) (hcur : s.data.current = some j)
    (hs : (s.data.process_table j).state ≠ .Running)
    (h : D (.op (.toSched i) fun _ => setPrev b >>= f) s) : Comes c D (sched i >>= f) s := by
  have hsie : s.locks.sie = false := hb.sie
  have hstack : s.locks.interrupt_off_stack = 1 := hb.stack
  have hprev : s.locks.interrupt_prev_state = b := hb.prev (Finset.singleton_ne_empty l)
  unfold sched
  refine comes_within (always_locks ?_)
  rw [hsie, if_neg (by simp)]
  refine comes_within (always_locks ?_)
  rw [hstack, if_neg (by simp)]
  refine comes_within (always_get ?_)
  rw [hcur]
  refine comes_within (always_proc ?_)
  rw [if_neg hs]
  refine comes_within (always_locks ?_)
  rw [hprev]
  exact comes_here h

end K

namespace Machine

variable {c : Cfg} {m : Machine} {i : Nat} {b : Bool}

/-- **The process of slot `i` hands the hart back**: the scheduler begins its next pass. -/
theorem Later.toPass {k : Unit → K Label} (hc : m.code = .op (.toSched i) k)
    (hsched : m.sched = afterTurn i) (hb : m.sys.locks.Holds b {.proc i}) :
    ∃ s, s.phys = m.sys.phys ∧ s.data = m.sys.data.parked i ∧ s.locks.Holds false ∅ ∧
      Later c StatusFits m { m with
        sys := s, code := schedulerPass, saved := Function.update m.saved i (k ()) } := by
  have h₁ : Step c m { m with
      sys := { m.sys with data := m.sys.data.updProc i fun p => { p with context := .sched } }
      code := m.sched
      saved := Function.update m.saved i (k ()) } := .toSched hc
  -- the rest of the last pass
  obtain ⟨p, s₁, ⟨l, rfl, rfl, hp₁, hd₁, hb₁⟩, hl₁⟩ := Later.comes (c := c) (m := { m with
      sys := { m.sys with data := m.sys.data.updProc i fun p => { p with context := .sched } }
      code := m.sched
      saved := Function.update m.saved i (k ()) }) hsched
    (K.Always.comes (Q := fun l s => l = .scheduler ∧ s.phys = m.sys.phys ∧
      s.data = m.sys.data.parked i ∧ s.locks.Holds b ∅)
      (always_bind (always_set (always_bind (always_give hb (Finset.mem_singleton_self _)
        fun s p d hb => ⟨rfl, p, d, by rwa [Finset.erase_singleton] at hb⟩)))))
  -- the next one
  have h₂ : Step c { m with
      sys := s₁, code := .ret .scheduler, saved := Function.update m.saved i (k ()) } { m with
      sys := s₁, code := schedulerRound, saved := Function.update m.saved i (k ()) } :=
    .label rfl rfl
  obtain ⟨p, s₂, ⟨rfl, hp₂, hd₂, hb₂⟩, hl₂⟩ := Later.comes (c := c) (m := { m with
      sys := s₁, code := schedulerRound, saved := Function.update m.saved i (k ()) }) rfl
    (K.comes_atPass (D := fun p s => p = schedulerPass ∧ s.phys = s₁.phys ∧ s.data = s₁.data ∧
      s.locks.Holds false ∅) hb₁.held hb₁.stack fun s p d hb => comes_here ⟨rfl, p, d, hb⟩)
  exact ⟨s₂, hp₂.trans hp₁, hd₂.trans hd₁, hb₂, .head ⟨.of_op hc fun _ _ h => (by cases h), h₁⟩
    (hl₁.trans (.head ⟨.of_label rfl, h₂⟩ hl₂))⟩

/-- **A pass hands the hart to slot `i`** if that is the only one that can run. -/
theorem Later.dispatch (hc : m.code = schedulerPass) (hb : m.sys.locks.Holds b ∅)
    (hi : i < m.sys.data.nproc) (hrun : (m.sys.data.process_table i).state = .Runnable)
    (honly : ∀ j < m.sys.data.nproc, (m.sys.data.process_table j).state = .Runnable → j = i)
    (hq : ∀ j < m.sys.data.nproc, (m.sys.data.process_table j).quants + 1 < USIZE) :
    ∃ s, m.sys.data.Turn s.data i ∧ s.phys = m.sys.phys ∧ s.data.nproc = m.sys.data.nproc ∧
      s.data.pid = m.sys.data.pid ∧
      Later c StatusFits m { m with sys := s, code := .op (.toProc i) fun _ => afterTurn i } := by
  have hcomes : K.Comes c (fun p s => p = .op (.toProc i) (fun _ => afterTurn i) ∧
      m.sys.data.Turn s.data i ∧ s.phys = m.sys.phys ∧ s.data.nproc = m.sys.data.nproc ∧
      s.data.pid = m.sys.data.pid) schedulerPass m.sys := by
    refine comes_schedulerPass hb hi hrun hq fun j s ht hp hn hpid => ?_
    obtain rfl := honly j ht.lt ht.runnable
    exact ⟨rfl, ht, hp, hn, hpid⟩
  obtain ⟨p, s, ⟨rfl, ht, hp, hn, hpid⟩, hl⟩ := Later.comes hc hcomes
  exact ⟨s, ht, hp, hn, hpid, hl⟩

/-- **A new process** goes to user mode. -/
theorem Later.start {sp : Nat} (hr : Reach c StatusFits m)
    (hc : m.code = .op (.toProc i) fun _ => afterTurn i)
    (hctx : (m.sys.data.process_table i).context = .forkret sp)
    (hd : (m.sys.data.process_table i).dropping = false)
    (hk : (m.sys.data.process_table i).kstack + KERNEL_STACK_PAGES * PAGESIZE < USIZE) :
    ∃ s, Resumed i (m.sys.data.process_table i).trapframe m.sys s ∧
      Later c StatusFits m { m with sys := s, code := .ret .user, sched := afterTurn i } := by
  obtain ⟨h, hr'⟩ := hr.run
  obtain ⟨me, own, hi⟩ := hr'.keeps_tracked
  obtain ⟨-, -, hh, -⟩ := hi.next hc
  have hresume : m.resume c i = forkret c := by
    unfold resume
    rw [hctx]
  have h₁ : Step c m { m with code := m.resume c i, sched := afterTurn i } := .toProc hc
  obtain ⟨p, s, ⟨l, rfl, rfl, hq⟩, hl⟩ := Later.comes (c := c) (m := { m with
    code := m.resume c i, sched := afterTurn i }) hresume
    (K.always_forkret hr.linked hh (hi.owned hr.linked) hd hk).comes
  exact ⟨s, hq, .head ⟨.of_op hc fun _ _ h => (by cases h), h₁⟩ hl⟩

end Machine

end BareMetal
