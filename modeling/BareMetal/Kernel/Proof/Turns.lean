import BareMetal.Kernel.Proof.Dispatch
import BareMetal.Kernel.Proof.Life

/-!
# Turns

While a process is runnable and is not dispatched, nobody else is dispatched more often than the
counters allow (`Overtaken.step`, `Span.overtaken`). A pass that finds a runnable process hands the
hart to one with the fewest quanta (`hands_schedulerPass`). Together they are `bounded_overtaking`.
-/

namespace BareMetal

open Lib K

variable {c : Cfg}

/-! ## Part of a run -/

namespace Machine

/-- A part of a run from `m`, all of whose states satisfy `P`. -/
inductive Span (c : Cfg) (P : Sys → Prop) (m : Machine) (h : History) : Machine → History → Prop
  | start (hp : P m.sys) : Span c P m h m h
  | step {m₁ m₂ h₁} (hs : Span c P m h m₁ h₁) (hx : Step c m₁ m₂) (hp : P m₂.sys) :
    Span c P m h m₂ (h₁.next m₁.sys m₂.sys)

variable {P : Sys → Prop} {m m' : Machine} {h h' : History}

theorem Span.run (hs : Span c P m h m' h') (hr : Run c (fun _ => True) m h) :
    Run c (fun _ => True) m' h' := by
  induction hs with
  | start _ => exact hr
  | step _ hx _ ih => exact .step ih trivial hx

theorem Span.holds (hs : Span c P m h m' h') : P m'.sys := by
  cases hs with
  | start hp => exact hp
  | step _ _ hp => exact hp

/-- What the counters say of slot `r` after part of a run in which slot `p` is runnable. -/
structure Overtaken (p r : Nat) (m : Machine) (h : History) (m' : Machine) (h' : History) :
    Prop where
  nproc : m.sys.data.nproc ≤ m'.sys.data.nproc
  waiting : (m'.sys.data.process_table p).quants = (m.sys.data.process_table p).quants
  other : (m.sys.data.process_table r).quants ≤ (m'.sys.data.process_table r).quants
  /-- The last dispatch of `r` found its counter not above that of `p`. -/
  count : h'.dispatched r = h.dispatched r ∨
    (m.sys.data.process_table r).quants ≤ h.dispatched r ∧
      h'.dispatched r ≤ (m.sys.data.process_table p).quants + 1

theorem Overtaken.step {p r : Nat} {m₁ m₂ : Machine} {h₁ : History} (ho : Overtaken p r m h m₁ h₁)
    (hp : p < m.sys.data.nproc) (hpr : r < m.sys.data.nproc)
    (hrun : (m₁.sys.data.process_table p).state = .Runnable)
    (hr : Run c (fun _ => True) m₁ h₁) (hs : Step c m₁ m₂) :
    Overtaken p r m h m₂ (h₁.next m₁.sys m₂.sys) := by
  obtain ⟨hl, hcount⟩ := hs.legal hr
  have hp₁ := hp.trans_le ho.nproc
  have hr₁ := hpr.trans_le ho.nproc
  refine ⟨ho.nproc.trans hl.nproc, ?_, ho.other.trans (hl.quants r hr₁), ?_⟩
  · rcases hl.counts p hp₁ with he | he
    · exact he.trans ho.waiting
    · rw [hrun] at he
      cases he
  · by_cases hd : m₁.sys.data.Dispatches m₂.sys.data r
    · -- `r` is dispatched: its counter counts how often
      have h1 := hl.pick r hr₁ hd p hp₁ hrun
      have h2 := hcount r hd r hr₁
      have h3 := ho.other
      have h4 := ho.waiting
      have h5 : (h₁.next m₁.sys m₂.sys).dispatched r = h₁.dispatched r + 1 := by
        simp only [History.next, if_pos hd]
      refine .inr ⟨?_, by omega⟩
      rcases ho.count with hc | ⟨hc, -⟩
      · omega
      · exact hc
    · have h5 : (h₁.next m₁.sys m₂.sys).dispatched r = h₁.dispatched r := by
        simp only [History.next, if_neg hd, Nat.add_zero]
      rw [h5]
      exact ho.count

theorem Span.overtaken {p r : Nat} (hp : p < m.sys.data.nproc) (hpr : r < m.sys.data.nproc)
    (hr : Run c (fun _ => True) m h)
    (hs : Span c (fun s => (s.data.process_table p).state = .Runnable) m h m' h') :
    Overtaken p r m h m' h' := by
  induction hs with
  | start _ => exact ⟨Nat.le_refl _, rfl, Nat.le_refl _, .inl rfl⟩
  | step hs hx _ ih => exact ih.step hp hpr hs.holds (hs.run hr) hx

end Machine

/-! ## Every run -/

namespace Machine

/-- While slot `p` stays runnable, slot `r` is dispatched no more often than the counters say. -/
def Overtakes (c : Cfg) (m : Machine) (h : History) : Prop :=
  ∀ p < m.sys.data.nproc, ∀ r < m.sys.data.nproc, ∀ m' h',
    Span c (fun s => (s.data.process_table p).state = .Runnable) m h m' h' →
      (h'.dispatched r : Int) - h.dispatched r ≤
        max 0 (((m.sys.data.process_table p).quants : Int) -
          (m.sys.data.process_table r).quants + 1)

/-- A pass that begins here, with a runnable process and counters below their maximum, hands the
hart to exactly one. -/
def Picks (c : Cfg) (m : Machine) : Prop :=
  m.code = schedulerPass → ∀ i < m.sys.data.nproc,
    (m.sys.data.process_table i).state = .Runnable →
    (∀ j < m.sys.data.nproc, (m.sys.data.process_table j).quants + 1 < USIZE) →
      Hands c (fun j s => m.sys.data.Turn s.data j) m.code m.sys

theorem Run.overtakes {m : Machine} {h : History} (hr : Run c (fun _ => True) m h) :
    m.Overtakes c h := by
  intro p hp r hpr m' h' hs
  rcases (hs.overtaken hp hpr hr).count with he | ⟨h1, h2⟩
  · omega
  · omega

theorem Run.picks {m : Machine} {h : History} (hr : Run c (fun _ => True) m h) : m.Picks c := by
  intro hc i hi hrun hq
  obtain ⟨hl, me, own, ho⟩ := hr.next (o := .note .pass) (k := _) (hc.trans rfl)
  obtain ⟨-, -, hh, -⟩ := ho.1
  have hh : m.sys.locks.held = ∅ := hh
  have hn : m.sys.locks.interrupt_off_stack = 0 := by
    rw [hl.stack, hh]
    rfl
  rw [hc]
  exact hands_schedulerPass hh hn hi hrun hq

end Machine

/-- **Bounded overtaking**: in every run a process that stays runnable is overtaken no more often
than the counters allow, and every pass with a runnable process hands the hart to one with the
fewest quanta. -/
theorem bounded_overtaking {m : Machine} {h : History} (hr : Machine.Run c (fun _ => True) m h) :
    m.Overtakes c h ∧ m.Picks c := ⟨hr.overtakes, hr.picks⟩

/-- A machine that begins a pass. -/
theorem bounded_overtaking_demo : ∃ (m : Machine) (h : History), m.code = schedulerPass ∧
    m.Overtakes Cfg.demo h ∧ m.Picks Cfg.demo := by
  obtain ⟨s, -, -, hr⟩ := Machine.boot_open (A := fun _ => True) fun _ _ => trivial
  obtain ⟨h, hr⟩ := (hr.step trivial (.op (n := 0) (o := .setSie false) (k := _) rfl rfl)).run
  exact ⟨_, h, rfl, bounded_overtaking hr⟩

end BareMetal
