import BareMetal.Kernel.Proof.Calm
import BareMetal.Kernel.Proof.Moves

/-!
# Switching

`sched` and `yeld` (`wp_sched`, `wp_yeld`): a process hands the hart to the scheduler with the
invariants restored, and goes on when it gets the hart back.
-/

namespace BareMetal

open Lib

variable {E : Env} {me : Option Nat} {b : Bool} {S₀ S : St}

theorem Data.becomes_updProc (d : Data) (j : Nat) (f : Process → Process) :
    d.Becomes (d.updProc j f) j (f (d.process_table j)) d.pid where
  nproc := rfl
  pid := rfl
  slot := d.updProc_self j f
  rest k _ hk := by
    rw [Data.updProc_ne _ _ hk]
    exact ⟨⟨rfl, rfl, rfl, rfl⟩, rfl⟩

/-- The process that runs gives the hart away, to go on or to sleep. -/
structure Process.Rests (d : Data) (i : Nat) (p p' : Process) : Prop where
  state : p'.state = .Runnable ∨ p'.state = .Sleeping ∧ p'.sleep_channel = p.pid ∧
    (∃ k < d.nproc, (d.process_table k).parent = p.pid) ∧
    ∀ k < d.nproc, (d.process_table k).parent = p.pid → (d.process_table k).state ≠ .Zombie
  pid : p'.pid = p.pid
  parent : p'.parent = p.parent
  reaped : p'.reaped = p.reaped
  mem : p.SameMem p'
  quants : p'.quants = p.quants

theorem Inv.rests {sys : Sys} {own : Party → Finset Nat} {h : History} {i : Nat}
    {f : Process → Process} (hi : Inv E (some i) ⟨sys, own, h⟩)
    (hf : Process.Rests sys.data i (sys.data.process_table i) (f (sys.data.process_table i))) :
    Inv E none ⟨{ sys with data := sys.data.updProc i f }, own, h⟩ := by
  obtain ⟨hin, hrun⟩ := hi.table.run_running
  have hlive : sys.data.Live i := ⟨hin, .inr (.inl hrun)⟩
  have hb := sys.data.becomes_updProc i f
  have hst : ∀ j, (sys.data.updProc i f).Live j ↔ sys.data.Live j := fun j => by
    unfold Data.Live
    by_cases hji : j = i
    · rw [hji, Data.updProc_self]
      exact ⟨fun _ => hlive, fun h => ⟨h.1, hf.state.elim .inl fun h => .inr (.inr h.1)⟩⟩
    · rw [Data.updProc_ne _ _ hji]
      exact .rfl
  refine ⟨hi.table.turn hb hin (.inl ⟨hrun, rfl⟩) ?_ hf.pid hf.parent,
    hi.exits.turn hb rfl hin hlive (hf.state.elim (fun h => .inr (.inl h)) fun h => .inr (.inr h.1))
      hf.pid fun k _ => ?_, fun j hj => ?_, fun j hj hs => ?_, fun ht => ?_⟩
  · exact hf.state.elim (fun h => .inr (.inl ⟨h, rfl⟩)) fun h => .inr (.inr ⟨h.1, rfl, h.2⟩)
  · exact Data.updProc_rel (R := fun p p' => p'.reaped = p.reaped) (fun _ => rfl) _ i hf.reaped k
  · refine Eq.trans ?_ (hi.counted j hj)
    exact Data.updProc_rel (R := fun p p' => p'.quants = p.quants) (fun _ => rfl) _ i hf.quants j
  · have hji : j ≠ i := fun he => by
      change ((sys.data.updProc i f).process_table j).state = _ at hs
      rw [he, Data.updProc_self] at hs
      rcases hf.state with h | ⟨h, -⟩
      · rw [h] at hs; cases hs
      · rw [h] at hs; cases hs
    change ((sys.data.updProc i f).process_table j).state = _ at hs
    rw [Data.updProc_ne _ _ hji] at hs
    exact hi.fresh j hj hs
  · exact (hi.mem ht).congr (.refl ..) (fun _ _ => .refl ..) rfl rfl (fun j _ =>
      Data.updProc_rel (fun _ => ⟨rfl, rfl, rfl⟩) _ i hf.mem j) (fun j => (hst j).1)
      fun j _ => (hst j).2

/-- A move of the process that runs. -/
theorem Data.Assigns.turn {d : Data} {h : History} {i : Nat} {p : Process}
    (hrun : (d.process_table i).state = .Running) (hm : d.Moves i .Running p.state)
    (hq : p.quants = (d.process_table i).quants) (hp : p.pid = (d.process_table i).pid)
    (hg : (d.process_table i).SameMem p) (hb : p.unboxing = (d.process_table i).unboxing) :
    d.Assigns (some i) h i p where
  moves := by rw [hrun]; exact hm
  pick h1 := by
    rw [hrun] at h1
    cases h1
  quants := Nat.le_of_eq hq.symm
  counts := .inl hq
  names := .of_pid hp fun h => by
    have := h.symm.trans hrun
    cases this
  trapframe _ := ⟨hg.1, hb⟩
  pagetable _ _ := hg.2
  made hi hn := (hn (.inl ⟨hi, .inr (.inl hrun)⟩)).elim
  thread hj := (hj rfl).elim
  born hj := (hj rfl).elim

theorem Untouched.updProc {q : Quiet} {d : Data} {L : Finset LockId} {i j : Nat}
    {f : Process → Process} (hf : (d.process_table j).SameThread (f (d.process_table j))) :
    Untouched E i (q.on d L) (q.on (d.updProc j f) L) where
  nproc := rfl
  thread := Data.updProc_rel (R := Process.SameThread) .refl d j hf i
  events := rfl
  slot _ := .refl ..
  loc _ := .refl ..

/-- A critical section notes an event that no thread calls its own. -/
theorem Section.note {q : Quiet} {d : Data} {L : Finset LockId} (h : Section E me b S₀ q d L)
    {e : Event} (he : e.slot = none) (hx : ∀ p x, e ≠ .exit p x) :
    Section E me b S₀ q { d with log := e :: d.log } L := by
  have hq : (q.on d L).setData { d with log := e :: d.log } = q.on { d with log := e :: d.log } L :=
    congrArg (St.mk _ q.own) (q.hist.next_same rfl fun _ => rfl)
  refine ⟨h.prev, h.current, h.stvec, hq ▸ h.inv.log (h.inv.exits.note (.inl he) hx), fun i hi => ?_,
    h.before, h.still⟩
  refine (h.kept i hi).trans ⟨rfl, .refl _, List.filter_cons_of_neg ?_, fun _ => .refl ..,
    fun _ => .refl ..⟩
  simp [he]

/-- Uses of the heap keep a critical section. -/
theorem Section.near {q q' : Quiet} {d : Data} {L : Finset LockId} (h : Section E me b S₀ q d L)
    (hL : L ≠ ∅) (hn : q.Near E L q') : Section E me b S₀ q' d L := by
  have hi : (q.on d L).Idles E (q'.on d L) := by
    refine ⟨rfl, hn.timer, rfl, rfl, rfl, rfl, hn.prev, fun i => .inl ?_, ?_, hn.mem⟩
    · exact congrFun (congrArg History.before hn.hist) i
    · exact congrArg History.dispatched hn.hist
  have hs : ∀ p, E.track → SamePart (q.on d L) (q'.on d L) p := fun p ht => by
    obtain ⟨h1, h2⟩ := hn.mem ht
    unfold SamePart St.mem Quiet.on
    rw [h1, h2]
    exact .refl ..
  refine ⟨(hn.prev hL).trans h.prev, h.current, h.stvec, h.inv.idles hi,
    fun i hme => (h.kept i hme).trans ⟨rfl, rfl, rfl, hs _, hs _⟩, fun i hme => ?_, fun hb => ?_⟩
  · rw [hn.hist]
    exact h.before i hme
  · rw [hn.timer]
    exact h.still hb

/-- The process goes on with the lock of its slot. -/
theorem Section.resumed {i : Nat} {q : Quiet} {d : Data} (hh : Handoff E i (q.on d {.proc i}))
    (hp : q.prev = b) (hm : q.hist.before i = some b) :
    Section E (some i) b (q.on d {.proc i}) q d {.proc i} :=
  ⟨hp, hh.current, hh.stvec, hh.inv, fun j _ => .refl j _,
    fun j hj => by cases hj; exact hm, fun _ => ⟨rfl, rfl⟩⟩

namespace K

theorem wp_sched {q : Quiet} {d : Data} {i : Nat} {Q : Unit → St → Prop}
    (hb : HandBack E i (q.on d {.proc i})) (hs : (d.process_table i).state ≠ .Running)
    (k : d.Live i → ∀ (q' : Quiet) (d' : Data), q'.prev = q.prev →
      Mine E i (q.on d {.proc i}) (q'.on d' {.proc i}) →
      Handoff E i (q'.on d' {.proc i}) → Q () (q'.on d' {.proc i})) :
    wp E (some i) (sched i) Q (q.on d {.proc i}) := by
  have hcur : d.current = some i := hb.current
  unfold sched
  refine wp_locks ?_
  simp only [show (q.locks {.proc i}).sie = false from rfl, Bool.false_eq_true, if_false]
  refine wp_locks ?_
  simp only [show (q.locks {.proc i}).interrupt_off_stack = 1 from rfl, ne_eq, not_true, if_false]
  refine wp_get ?_
  simp only [hcur]
  refine wp_proc ?_
  simp only [hs, if_false]
  refine wp_locks (wp_quiet fun _ => ⟨rfl, hb, fun hl S hm hh => ?_⟩)
  obtain ⟨q₁, hq₁⟩ := Quiet.exists_on hh.sie hh.umode
    ⟨by rw [hh.stack, hh.held]; rfl, fun _ => hh.sie⟩
  rw [hh.held] at hq₁
  rw [← hq₁] at hm hh ⊢
  refine wp_quiet fun _ => ?_
  have he : (q₁.on S.data {.proc i}).setLocks
      { q₁.locks {.proc i} with interrupt_prev_state := q.prev } =
      Quiet.on { q₁ with prev := q.prev } S.data {.proc i} :=
    congrArg (St.mk _ _) (History.next_same _ rfl fun _ => rfl)
  refine (congrArg (Q ()) he).mpr (k hl { q₁ with prev := q.prev } S.data rfl
    (hm.trans ⟨.of_eq rfl rfl rfl rfl rfl, rfl⟩) ?_)
  exact ⟨rfl, rfl, rfl, rfl, hh.current, hh.stvec, hh.inv.of_eq rfl rfl rfl rfl rfl rfl rfl
    rfl fun _ _ _ h => h⟩

theorem wp_yeld {i : Nat} {Q : Unit → St → Prop} (h : Calm E (some i) b S₀ S)
    (k : ∀ S', Untouched E i S₀ S' → Calm E (some i) b S' S' → Q () S') :
    wp E (some i) (yeld i) Q S := by
  unfold yeld print
  refine wp_heapUse_calm h fun S₁ h₁ => wp_heapUse_calm h₁ fun S₂ h₂ => ?_
  refine wp_lock_calm h₂ fun q d₀ hsec₀ => wp_note rfl (fun j hj => by cases hj) fun _ => ?_
  obtain ⟨d, hd⟩ : ∃ d : Data, d = { d₀ with log := .yeld i :: d₀.log } := ⟨_, rfl⟩
  have hsec : Section E (some i) b S₀ q d {.proc i} := hd ▸ hsec₀.note rfl (by simp)
  have hlog : d.log.head? = some (.yeld i) := by rw [hd]; rfl
  rw [← hd]
  have hu : ∀ h, Quiet.Uses (some i) h d {LockId.proc i} := fun h => .of_held (by simp) (by simp)
  refine wp_heapUse_quiet (hu _) fun q₁ hn₁ => wp_heapUse_quiet (hu _) fun q₂ hn₂ => ?_
  have hsec₂ := hsec.near (by simp) (hn₁.trans hn₂)
  obtain ⟨hin, hrun⟩ := hsec₂.inv.table.run_running
  have hr : Process.Rests d i (d.process_table i) { d.process_table i with state := .Runnable } :=
    ⟨.inl rfl, rfl, rfl, rfl, ⟨rfl, rfl, rfl⟩, rfl⟩
  refine wp_setProc (.turn hrun ⟨hsec₂.current, hlog⟩ rfl rfl ⟨rfl, rfl, rfl⟩ rfl) (.inr (by simp)) ?_
  rw [wp_bind]
  have hinv : Inv E none (q₂.on (d.updProc i fun p => { p with state := .Runnable }) {.proc i}) :=
    hsec₂.inv.rests hr
  refine wp_sched ⟨rfl, rfl, rfl, rfl, hsec₂.current, hsec₂.stvec, hinv⟩
    (by simp [Data.updProc_self]) fun _ q₃ d₃ hp hm hh => ?_
  have hb : q₃.hist.before i = some b := hm.before.trans (hsec₂.before i rfl)
  refine wp_release_calm (f := pure) (.resumed hh (hp.trans hsec₂.prev) hb) fun S' hd ho hph hc => ?_
  have hu₂ : Untouched E i (q₂.on d {.proc i})
      (q₂.on (d.updProc i fun p => { p with state := .Runnable }) {.proc i}) := .updProc rfl
  have hu₃ : Untouched E i (q₃.on d₃ {.proc i}) S' := hc.kept i rfl
  exact k S' ((hsec₂.kept i rfl).trans (hu₂.trans (hm.1.trans hu₃))) hc.rebase

end K

end BareMetal
