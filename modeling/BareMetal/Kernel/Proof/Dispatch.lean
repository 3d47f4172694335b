import BareMetal.Kernel.Proof.Started

/-!
# A pass of the scheduler

Code with nothing else running that goes on until something holds of it and of the state
(`K.Comes`), such as that it hands the hart to a process (`K.Hands`): a pass that finds a runnable
process hands it to one with the fewest quanta (`comes_schedulerPass`).
-/

namespace BareMetal

open Lib K

variable {c : Cfg}

/-- An operation that answers whatever the time, and to any open answer; `D` holds where it hands
the hart to a process. -/
def handSpec (c : Cfg) (D : Nat → Sys → Prop) : Free.Spec KOp KOp.Resp Sys
  | .toProc i, _, s => D i s
  | o, Q, s => ∀ t n, ∃ r s', o.exec c t n s = .ok (r, s') ∧ Q r s'

namespace K

/-- With nothing else running, `p` goes on until it hands the hart to a process `i`, in a state with
`D i`. -/
def Hands (c : Cfg) (D : Nat → Sys → Prop) {α : Type} (p : K α) (s : Sys) : Prop :=
  Free.wp (handSpec c D) p (fun _ _ => False) s

/-- With nothing else running, `p` goes on until what is left of it and the state satisfy `D`. -/
def Comes (c : Cfg) (D : K Label → Sys → Prop) : K Label → Sys → Prop
  | .ret l, s => D (.ret l) s
  | .op o k, s => D (.op o k) s ∨
      o.OnMem (fun _ _ => True) s ∧ ∀ t n, ∃ r s', o.exec c t n s = .ok (r, s') ∧ Comes c D (k r) s'

theorem comes_here {D : K Label → Sys → Prop} {p : K Label} {s : Sys} (h : D p s) :
    Comes c D p s := by
  cases p with
  | ret l => exact h
  | op o k => exact .inl h

theorem comes_bind {D : K Label → Sys → Prop} {α : Type} {p : K α} {f : α → K Label} {s : Sys}
    (h : Always c (fun _ _ => True) p (fun a s' => Comes c D (f a) s') s) :
    Comes c D (p >>= f) s := by
  induction p generalizing s with
  | ret a => exact h
  | op o k ih =>
    refine .inr ⟨h.1, fun t n => ?_⟩
    obtain ⟨r, s', hx, hk⟩ := h.2 t n
    exact ⟨r, s', hx, ih r hk⟩

theorem comes_within {D : K Label → Sys → Prop} {α β : Type} {p : K α} {g : α → K β}
    {f : β → K Label} {s : Sys}
    (h : Always c (fun _ _ => True) p (fun a s' => Comes c D (g a >>= f) s') s) :
    Comes c D ((p >>= g) >>= f) s := by
  rw [Free.bind_assoc]
  exact comes_bind h

/-- Code that always ends comes to its label. -/
theorem Always.comes {p : K Label} {Q : Label → Sys → Prop} {s : Sys}
    (h : Always c (fun _ _ => True) p Q s) : Comes c (fun p' s' => ∃ l, p' = .ret l ∧ Q l s') p s := by
  rw [← Free.bind_ret p]
  exact comes_bind (h.mono fun l s' hq => ⟨l, rfl, hq⟩)

theorem Comes.hands {D : Nat → Sys → Prop} {p : K Label} {s : Sys}
    (h : Comes c (fun p' s' => ∃ i k, p' = .op (.toProc i) k ∧ D i s') p s) : Hands c D p s := by
  induction p generalizing s with
  | ret l =>
    obtain ⟨i, k, hc, -⟩ := h
    cases hc
  | op o k ih =>
    rcases h with ⟨i, k', hc, hd⟩ | ⟨-, h⟩
    · cases hc
      exact hd
    · have hx : ∀ t n, ∃ r s', o.exec c t n s = .ok (r, s') ∧ Hands c D (k r) s' := fun t n => by
        obtain ⟨r, s', hx, hk⟩ := h t n
        exact ⟨r, s', hx, ih r hk⟩
      cases o with
      | toProc i =>
        obtain ⟨r, s', hx, -⟩ := hx 0 0
        cases hx
      | _ => exact hx

end K

/-- The scheduler hands the hart to slot `i`, one of the runnable ones with the fewest quanta: it
runs, its counter has gone up, and nothing else of the processes has changed. -/
structure Data.Turn (d d' : Data) (i : Nat) : Prop where
  lt : i < d.nproc
  runnable : (d.process_table i).state = .Runnable
  least : ∀ r < d.nproc, (d.process_table r).state = .Runnable →
    (d.process_table i).quants ≤ (d.process_table r).quants
  self : d'.process_table i =
    { d.process_table i with state := .Running, quants := (d.process_table i).quants + 1 }
  others : ∀ j, j ≠ i → d'.process_table j = d.process_table j
  current : d'.current = some i

/-- What the scheduler does when the process of slot `i` has handed the hart back. -/
def afterTurn (i : Nat) : K Label := do
  K.set fun d => { d with current := none }
  release (.proc i)
  return .scheduler

section
variable {s : Sys} {b : Bool}

theorem Locks.Holds.start {l : Locks} (hh : l.held = ∅) (hn : l.interrupt_off_stack = 0) :
    l.Holds l.sie ∅ := ⟨hh, hn, (if_pos rfl).symm, fun h => (h rfl).elim⟩

/-- The scan stops at the first slot that is runnable. -/
theorem always_pickLoop {order : List Nat} {d : Data} {x : Phys} {Q : Option Nat → Sys → Prop} {i : Nat}
    (hi : i ∈ order) (hrun : (d.process_table i).state = .Runnable)
    (hQ : ∀ j s', j ∈ order → (d.process_table j).state = .Runnable →
      (∀ r ∈ order, (d.process_table r).state = .Runnable →
        (d.process_table j).quants ≤ (d.process_table r).quants) →
      s'.phys = x → s'.data = d.updProc j (fun p => { p with state := .Running }) →
      s'.locks.Holds b {.proc j, .kernel} → Q (some j) s') :
    ∀ {s : Sys}, order.Pairwise (fun a b => (d.process_table a).quants ≤ (d.process_table b).quants) →
      s.phys = x → s.data = d → s.locks.Holds b {.kernel} →
      K.Always c (fun _ _ => True) (pickLoop order) Q s := by
  induction order with
  | nil => cases hi
  | cons j order ih =>
    intro s hsort hp hd hb
    obtain ⟨hj, hsort⟩ := List.pairwise_cons.1 hsort
    unfold pickLoop
    refine always_bind (always_take hb (by simp) fun s₁ p1 d1 hb₁ => always_bind (always_proc ?_))
    rw [d1, hd]
    by_cases hs : (d.process_table j).state = .Runnable
    · rw [if_pos hs]
      refine always_bind (always_setProc (hQ j _ (List.mem_cons_self ..) hs (fun r hr _ => ?_)
        (p1.trans hp) ?_ hb₁))
      · rcases List.mem_cons.1 hr with rfl | hr
        · exact Nat.le_refl _
        · exact hj r hr
      · rw [d1, hd]
    · rw [if_neg hs]
      refine always_bind (always_give hb₁ (Finset.mem_insert_self ..) fun s₂ p2 d2 hb₂ => ?_)
      rw [Finset.erase_insert (by simp)] at hb₂
      have hij : i ∈ order := by
        rcases List.mem_cons.1 hi with rfl | hi
        · exact (hs hrun).elim
        · exact hi
      refine ih hij (fun k s' hk hks hle => hQ k s' (List.mem_cons_of_mem _ hk) hks fun r hr hrs => ?_)
        hsort (p2.trans (p1.trans hp)) (d2.trans (d1.trans hd)) hb₂
      rcases List.mem_cons.1 hr with rfl | hr
      · exact (hs hrs).elim
      · exact hle r hr hrs

/-- **A pass** that finds a runnable process hands the hart to one with the fewest quanta; memory
is as it was. -/
theorem comes_schedulerPass {D : K Label → Sys → Prop} (hb : s.locks.Holds b ∅) {i : Nat}
    (hi : i < s.data.nproc) (hrun : (s.data.process_table i).state = .Runnable)
    (hq : ∀ j < s.data.nproc, (s.data.process_table j).quants + 1 < USIZE)
    (h : ∀ j s', s.data.Turn s'.data j → s'.phys = s.phys → s'.data.nproc = s.data.nproc →
      s'.data.pid = s.data.pid → D (.op (.toProc j) fun _ => afterTurn j) s') :
    K.Comes c D schedulerPass s := by
  unfold schedulerPass
  refine comes_bind (always_note trivial (comes_bind (always_take hb (Finset.notMem_empty _)
    fun s₁ p1 d1 hb₁ => ?_)))
  refine comes_bind (always_print (by rw [hb₁.held]; decide) fun s₂ p2 d2 l2 =>
    comes_bind (always_get ?_))
  have hd₂ : s₂.data = { s.data with log := .pass :: s.data.log } := d2.trans d1
  have hord : passOrder s₂.data = passOrder s.data := by
    rw [hd₂]
    rfl
  rw [hord]
  refine comes_bind (always_pickLoop (d := s₂.data) (x := s₂.phys) (mem_passOrder.2 hi)
    (by rw [hd₂]; exact hrun) (fun j s₃ hj hs hle p3 d3 hb₃ => ?_)
    (by rw [hd₂]; exact passOrder_sorted s.data) rfl rfl (l2.holds hb₁))
  rw [hd₂] at hs hle d3
  have hj := mem_passOrder.1 hj
  refine comes_bind (always_print (by rw [hb₃.held]; simp) fun s₄ p4 d4 l4 =>
    comes_bind (always_give (l4.holds hb₃) (by simp) fun s₅ p5 d5 hb₅ => ?_))
  have hd₅ : s₅.data = _ := d5.trans (d4.trans d3)
  dsimp only
  refine comes_bind (always_proc (comes_bind (always_add ?_ (comes_bind (always_setProc (comes_bind
    (always_set (comes_bind (always_print ?_ fun s₆ p6 d6 _ => comes_here (h j s₆ ?_ ?_ ?_ ?_))))))))))
  · rw [hd₅, Data.updProc_self]
    exact hq j hj
  · show LockId.heap ∉ s₅.locks.held
    rw [hb₅.held, Finset.erase_insert_of_ne (by simp)]
    simp
  · rw [d6]
    dsimp only
    rw [hd₅]
    refine ⟨hj, hs, fun r hr hrs => hle r (mem_passOrder.2 hr) hrs, ?_, fun k hk => ?_, rfl⟩
    · simp only [Data.updProc_self]
    · simp only [Data.updProc_ne _ _ hk]
  · exact p6.trans (p5.trans (p4.trans (p3.trans (p2.trans p1))))
  · rw [d6]
    dsimp only
    rw [hd₅]
    rfl
  · rw [d6]
    dsimp only
    rw [hd₅]
    rfl

theorem K.always_setSie {b : Bool} {Q : Unit → Sys → Prop}
    (h : Q () { s with locks := { s.locks with sie := b } }) :
    K.Always c (fun _ _ => True) (setSie b) Q s := ⟨trivial, fun _ _ => ⟨(), _, rfl, h⟩⟩

/-- The scheduler comes to its pass with interrupts off. -/
theorem K.comes_atPass {D : K Label → Sys → Prop} (hh : s.locks.held = ∅)
    (hn : s.locks.interrupt_off_stack = 0)
    (h : ∀ s', s'.phys = s.phys → s'.data = s.data → s'.locks.Holds false ∅ →
      K.Comes c D schedulerPass s') : K.Comes c D schedulerRound s := by
  unfold schedulerRound
  refine comes_bind (always_print (by rw [hh]; exact Finset.notMem_empty _)
    fun s₁ p1 d1 l1 => comes_bind (K.always_setSie (comes_bind (K.always_setSie ?_))))
  exact h _ p1 d1 ⟨l1.held.trans hh, l1.stack.trans hn, (if_pos rfl).symm, fun h => (h rfl).elim⟩

theorem K.comes_schedulerRound {D : K Label → Sys → Prop} (hh : s.locks.held = ∅)
    (hn : s.locks.interrupt_off_stack = 0) {i : Nat}
    (hi : i < s.data.nproc) (hrun : (s.data.process_table i).state = .Runnable)
    (hq : ∀ j < s.data.nproc, (s.data.process_table j).quants + 1 < USIZE)
    (h : ∀ j s', s.data.Turn s'.data j → s'.phys = s.phys → s'.data.nproc = s.data.nproc →
      s'.data.pid = s.data.pid → D (.op (.toProc j) fun _ => afterTurn j) s') :
    K.Comes c D schedulerRound s := by
  refine K.comes_atPass hh hn fun s₁ p1 d1 hb => ?_
  refine comes_schedulerPass hb (by rwa [d1]) (by rwa [d1]) (by rwa [d1]) fun j s' ht p2 n2 i2 => ?_
  rw [d1] at ht n2 i2
  exact h j s' ht (p2.trans p1) n2 i2

theorem hands_schedulerPass (hh : s.locks.held = ∅) (hn : s.locks.interrupt_off_stack = 0) {i : Nat}
    (hi : i < s.data.nproc) (hrun : (s.data.process_table i).state = .Runnable)
    (hq : ∀ j < s.data.nproc, (s.data.process_table j).quants + 1 < USIZE) :
    K.Hands c (fun j s' => s.data.Turn s'.data j) schedulerPass s :=
  (comes_schedulerPass (.start hh hn) hi hrun hq fun j _ ht _ _ _ => ⟨j, _, rfl, ht⟩).hands

end

end BareMetal
