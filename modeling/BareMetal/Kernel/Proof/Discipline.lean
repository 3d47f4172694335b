import BareMetal.Kernel.Proof.Layout
import BareMetal.Kernel.Proof.Runs

/-!
# Lock and interrupt discipline

In every machine reached the stack of interrupt-off sections counts the locks that are held, and no
context spins on a lock (`lock_discipline`).
-/

namespace BareMetal

open Lib

variable {c : Cfg} {A : Machine → Prop} {m m' : Machine} {h : History}

namespace Machine

/-- The discipline at one machine of a run. -/
structure Disciplined (m : Machine) : Prop where
  /-- The stack counts the locks. -/
  stack : m.sys.locks.interrupt_off_stack = m.sys.locks.held.card
  off : 0 < m.sys.locks.interrupt_off_stack → m.sys.locks.sie = false
  /-- No lock is taken that is held already. -/
  acquires : ∀ l old k, m.code = .op (.acquire l old) k → l ∉ m.sys.locks.held
  /-- No lock is released that is free, and `pop_interrupt_off` finds its stack not empty. -/
  releases : ∀ l k, m.code = .op (.release l) k →
    l ∈ m.sys.locks.held ∧ 1 ≤ m.sys.locks.interrupt_off_stack
  /-- The checks of `sched` never fail. -/
  checks : ∀ msg k, m.code = .op (.panic msg) k →
    msg ≠ "sched with interrupts enabled " ∧ msg ≠ "sched locks" ∧ msg ≠ "sched running"

theorem Run.disciplined (hr : Run c A m h) : m.Disciplined := by
  obtain ⟨me, own, hi⟩ := hr.keeps
  have hl := hi.locks
  refine ⟨hl.stack, fun hpos => hl.off fun he => ?_, fun l old k hc => ?_, fun l k hc => ?_,
    fun msg k hc => ?_⟩
  · rw [hl.stack, he] at hpos
    exact absurd hpos (by simp)
  · obtain ⟨-, ho⟩ := hi.next hc
    exact ho.1
  · obtain ⟨-, ho⟩ := hi.next hc
    exact ⟨ho.1, hl.stack_pos ho.1⟩
  · obtain ⟨-, ho⟩ := hi.next hc
    have hf : ¬ Forbidden c.plain msg := ho.1
    unfold Forbidden at hf
    exact ⟨fun he => hf (.inl he), fun he => hf (.inr (.inl he)),
      fun he => hf (.inr (.inr (.inl he)))⟩

/-- A machine at the entry of `main`. -/
def demo : Machine where
  sys := Sys.demo
  time := 0
  code := main Cfg.demo
  sched := .ret .spin
  saved := fun _ => .ret .spin

theorem demo_init : Init Cfg.demo demo :=
  ⟨Cfg.demo_linked, rfl, demoFrames_nodup 4000, fun f => demoFrames_frame (by omega), rfl, rfl, rfl, rfl, rfl, rfl,
    rfl⟩

/-- That machine with the heap locked. -/
theorem demo_locked {A : Machine → Prop} (hA : ∀ m, A m) :
    ∃ m k, Reach Cfg.demo A m ∧ m.sys.locks = ⟨false, false, 1, false, {.heap}⟩ ∧
      m.code = .op (.release .heap) k := by
  have h₁ := Reach.step (.init demo_init) (hA demo)
    (.op (n := 0) (o := .locks) (k := _) rfl rfl)
  have h₂ := Reach.step h₁ (hA _) (.op (n := 0) (o := .acquire .heap false) (k := _) rfl rfl)
  exact ⟨_, _, h₂, rfl, rfl⟩

end Machine

/-- **In every machine reached the locks and the interrupt bit are in order.** -/
theorem lock_discipline (h : Machine.Reach c (fun _ => True) m) : m.Disciplined := by
  obtain ⟨h, hr⟩ := h.run
  exact hr.disciplined

/-- Such a machine. -/
theorem lock_discipline_demo : ∃ m : Machine, m.sys.locks.held = {.heap} ∧ m.Disciplined := by
  obtain ⟨m, k, hr, hl, -⟩ := Machine.demo_locked (A := fun _ => True) fun _ => trivial
  exact ⟨m, by rw [hl], lock_discipline hr⟩

end BareMetal
