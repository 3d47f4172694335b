import BareMetal.Kernel.Proof.Family

/-!
# The interrupt bit

A critical section ends with the interrupt bit that it began with, whoever ran in between
(`sie_restored`).
-/

namespace BareMetal

open Lib

variable {c : Cfg} {m m' : Machine} {h : History}

namespace Machine

/-- Only a release ends a critical section. -/
theorem Step.closes (hs : Step c m m') (hx : m.sys.locks.Closes m'.sys.locks) :
    ∃ l k, m.code = .op (.release l) k ∧
      m'.sys.locks = { m.sys.locks.popInterruptOff with held := m.sys.locks.held.erase l } := by
  obtain ⟨h1, h0⟩ := hx
  have hno : m'.sys.locks.interrupt_off_stack ≠ m.sys.locks.interrupt_off_stack := by omega
  cases hs with
  | @op o k n r s hc hx =>
    dsimp only at h0 hno ⊢
    cases o with
    | mem o =>
      obtain ⟨phys, -, rfl⟩ := Sys.execMem_ok hx
      exact (hno rfl).elim
    | acquire l old =>
      obtain ⟨-, rfl⟩ := Sys.acquire_ok hx
      exact absurd h0 (Nat.succ_ne_zero _)
    | release l =>
      obtain ⟨-, rfl⟩ := Sys.release_ok hx
      exact ⟨l, k, hc, rfl⟩
    | toSched i => cases hx
    | toProc i => cases hx
    | panic msg => cases hx
    | lost => cases hx
    | _ =>
      cases hx
      exact (hno rfl).elim
  | _ => exact (hno rfl).elim

/-- When the process that runs leaves its outermost critical section, the interrupt bit is what the
`push_interrupt_off` that began it has found. A process that has not been switched out yet may leave
one that it has not begun: the scheduler has locked its slot for it. -/
def Restores (c : Cfg) (m : Machine) (h : History) : Prop :=
  ∀ m' i, Step c m m' → m.sys.data.current = some i → m.sys.locks.Closes m'.sys.locks →
    h.before i = some m'.sys.locks.sie ∨
      (h.before i = none ∧ ∃ sp, (m.sys.data.process_table i).context = .forkret sp)

end Machine

/-- **A critical section ends with the interrupt bit that it began with.** -/
theorem sie_restored (hr : Machine.Run c (fun _ => True) m h) : m.Restores c h := by
  intro m' i hs hcur hx
  obtain ⟨l, k, hc, hl⟩ := hs.closes hx
  obtain ⟨hinv, me, own, ho⟩ := hr.next hc
  obtain ⟨hm, hres, -⟩ := ho
  refine (hres hx.1 i hcur).imp_left fun hb => ?_
  have hoff : m.sys.locks.sie = false := hinv.off (Finset.ne_empty_of_mem hm)
  rw [hl]
  refine hb.trans (congrArg some ?_)
  unfold Locks.popInterruptOff
  rw [hx.1]
  cases hp : m.sys.locks.interrupt_prev_state with
  | false => simp [hoff]
  | true => simp

/-- Init waits for its child, has slept and was woken: it is about to leave the critical section in
which it went to sleep, with the interrupts on with which it entered it. -/
theorem sie_restored_demo : ∃ (m : Machine) (h : History) (m' : Machine),
    m.sys.data.current = some 0 ∧ Machine.Step Cfg.demo m m' ∧
    m.sys.locks.Closes m'.sys.locks ∧ h.before 0 = some true ∧ m'.sys.locks.sie = true ∧
    m.Restores Cfg.demo h := by
  obtain ⟨m₁, m, hr₁, -, -, -, -, hl, hcode, -, hctx, -, hcur, hb, -⟩ :=
    Machine.boot_init.woken Cfg.demo_eager Machine.boot_room (x := 7) (by decide)
  obtain ⟨h, hr⟩ := ((hl.reach hr₁).mono fun _ _ => trivial).run
  have hstack : m.sys.locks.interrupt_off_stack = 1 := hb.stack
  have hs : Machine.Step Cfg.demo m _ := .op (n := 0) hcode (if_neg (by omega))
  have hsie : m.sys.locks.popInterruptOff.sie = true := by
    unfold Locks.popInterruptOff
    rw [hb.prev (by simp), hstack]
    rfl
  have hx : m.sys.locks.Closes
      { m.sys.locks.popInterruptOff with held := m.sys.locks.held.erase (.proc 0) } := by
    refine ⟨hstack, ?_⟩
    unfold Locks.popInterruptOff
    rw [hstack]
  have hres := sie_restored hr
  rcases hres _ 0 hs hcur hx with hb | ⟨-, sp, hsp⟩
  · exact ⟨m, h, _, hcur, hs, hx, hb.trans (congrArg some hsie), hsie, hres⟩
  · have := hctx.symm.trans hsp
    cases this

end BareMetal
