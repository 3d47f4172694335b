import BareMetal.Kernel.Proof.Traps

/-!
# The scheduler's pass

The scheduler hands the hart to a runnable process with the fewest quanta, and takes it back
(`wp_schedulerRound`). What it keeps in `current` and in the table is one thing only at both ends.
-/

namespace BareMetal

open Lib

variable {E : Env}

/-! ## The order of the pass -/

theorem mem_passOrder {d : Data} {i : Nat} : i ∈ passOrder d ↔ i < d.nproc := by
  unfold passOrder
  rw [List.mem_mergeSort, List.mem_range]

theorem passOrder_sorted (d : Data) : (passOrder d).Pairwise fun i j =>
    (d.process_table i).quants ≤ (d.process_table j).quants := by
  unfold passOrder
  refine (List.pairwise_mergeSort (fun a b c h₁ h₂ => ?_) (fun a b => ?_) (List.range d.nproc)).imp
    fun h => of_decide_eq_true h
  · exact decide_eq_true ((of_decide_eq_true h₁).trans (of_decide_eq_true h₂))
  · rcases Nat.le_total (d.process_table a).quants (d.process_table b).quants with h | h
    · simp [h]
    · simp [h]

/-! ## A process is picked -/

/-- Slot `i` is dispatched. -/
def History.pick (h : History) (i : Nat) : History :=
  { h with dispatched := Function.update h.dispatched i (h.dispatched i + 1) }

theorem History.moved_pick {h : History} {d d' : Data} {i : Nat} (hd : d.Dispatches d' i)
    (hs : ∀ j, j ≠ i → (d'.process_table j).state = (d.process_table j).state) :
    h.moved d d' = h.pick i := by
  refine History.ext (funext fun j => ?_) (funext fun j => ?_)
  · show (if d.Frees d' j then none else h.before j) = h.before j
    refine if_neg fun hx => ?_
    by_cases hj : j = i
    · subst hj
      have := hd.2.symm.trans hx.2
      cases this
    · exact hx.1 ((hs j hj).symm.trans hx.2)
  · show h.dispatched j + (if d.Dispatches d' j then 1 else 0) =
      Function.update h.dispatched i (h.dispatched i + 1) j
    by_cases hj : j = i
    · subst hj
      rw [if_pos hd, Function.update_self]
    · rw [Function.update_of_ne hj, if_neg fun hx => ?_, Nat.add_zero]
      have := hx.1.symm.trans ((hs j hj).symm.trans hx.2)
      cases this

/-- The scheduler is in a pass. -/
structure Data.Passing (d : Data) : Prop where
  current : d.current = none
  log : d.log.head? = some .pass

/-- The scheduler picks a process with the fewest quanta. -/
theorem Data.Assigns.dispatch {d : Data} {h : History} {i : Nat} (hi : i < d.nproc)
    (hpass : d.Passing) (hs : (d.process_table i).state = .Runnable)
    (hmin : ∀ r < d.nproc, (d.process_table r).state = .Runnable →
      (d.process_table i).quants ≤ (d.process_table r).quants) :
    d.Assigns me h i { d.process_table i with state := .Running } where
  moves := by rw [hs]; exact ⟨hpass.current, hpass.log⟩
  pick _ _ := hmin
  quants := Nat.le_refl _
  counts := .inl rfl
  names := .of_pid rfl fun h => by
    have := h.symm.trans hs
    cases this
  trapframe _ := ⟨rfl, rfl⟩
  pagetable _ _ := ⟨rfl, rfl⟩
  made _ hn := (hn (.inl ⟨hi, .inl hs⟩)).elim
  thread _ _ := ⟨.inr (.inl rfl), rfl, rfl⟩
  born _ hl := (hl ⟨hi, .inl hs⟩).elim

/-- The counter of a process that is about to run. -/
theorem Data.Assigns.count {d : Data} {h : History} {i n : Nat} (hi : i < d.nproc)
    (hs : (d.process_table i).state = .Running) (hn : (d.process_table i).quants ≤ n) :
    d.Assigns me h i { d.process_table i with quants := n } where
  moves := d.moves_refl i _
  pick h1 := by
    rw [hs] at h1
    cases h1
  quants := hn
  counts := .inr hs
  names := .of_pid rfl fun h => ⟨rfl, h⟩
  trapframe _ := ⟨rfl, rfl⟩
  pagetable _ _ := ⟨rfl, rfl⟩
  made _ hn := (hn (.inl ⟨hi, .inr (.inl hs)⟩)).elim
  thread _ hl := ⟨hl.2, rfl, rfl⟩
  born _ hl := (hl ⟨hi, .inr (.inl hs)⟩).elim

/-- What the scheduler makes of the process that it picks. -/
def Process.picked (p : Process) : Process := { p with state := .Running, quants := p.quants + 1 }

/-- With nobody running, who is made to run is the only one. -/
theorem Table.picked {d : Data} {i : Nat} {f : Process → Process} (h : Table d none)
    (hcur : d.current = none) (hi : i < d.nproc)
    (hf : (f (d.process_table i)).state = .Running) : (d.updProc i f).Picked i := by
  refine ⟨hcur, hi, fun j hj => ?_⟩
  rw [Data.updProc_table]
  by_cases hji : j = i
  · simp [hji, hf]
  · rw [if_neg hji]
    have := h.running j hj
    simp [hji, this]

/-- The hart goes from the scheduler to process `i`. -/
def Data.handTo (d : Data) (i : Nat) : Data :=
  { d.updProc i Process.picked with current := some i }

theorem Data.handTo_table (d : Data) (i : Nat) :
    (d.handTo i).process_table = (d.updProc i Process.picked).process_table := rfl

theorem Data.handTo_becomes (d : Data) (i : Nat) :
    d.Becomes (d.handTo i) i (d.process_table i).picked d.pid := by
  obtain ⟨-, -, hs, hr⟩ := d.becomes_updProc i Process.picked
  exact ⟨rfl, rfl, hs, hr⟩

theorem Data.live_handTo {d : Data} {i j : Nat} (hi : d.Live i) (h : (d.handTo i).Live j) :
    d.Live j := by
  by_cases hji : j = i
  · exact hji ▸ hi
  · obtain ⟨hj, hs⟩ := h
    rw [Data.handTo_table, Data.updProc_ne _ _ hji] at hs
    exact ⟨hj, hs⟩

theorem Data.handTo_live {d : Data} {i j : Nat} (h : d.Live j) : (d.handTo i).Live j := by
  refine ⟨h.1, ?_⟩
  rw [Data.handTo_table, Data.updProc_table]
  split
  · exact .inr (.inl rfl)
  · exact h.2

theorem History.pick_dispatched (h : History) (i j : Nat) : (h.pick i).dispatched j =
    if j = i then h.dispatched i + 1 else h.dispatched j := Function.update_apply ..

theorem Inv.pick {q q' : Quiet} {d : Data} {L L' : Finset LockId} {i : Nat}
    (h : Inv E none (q.on d L)) (hi : i < d.nproc) (hs : (d.process_table i).state = .Runnable)
    (hh : q'.hist = q.hist.pick i) (hm : E.track → q'.phys = q.phys ∧ q'.own = q.own) :
    Inv E (some i) (q'.on (d.handTo i) L') := by
  have hlive : d.Live i := ⟨hi, .inl hs⟩
  have hb := d.handTo_becomes i
  have hrel : ∀ {R : Process → Process → Prop}, (∀ p, R p p) →
      R (d.process_table i) (d.process_table i).picked →
      ∀ j, R (d.process_table j) ((d.handTo i).process_table j) :=
    fun hr hp => Data.updProc_rel hr d i hp
  refine ⟨h.table.turn hb hi (.inr ⟨hs, rfl⟩) (.inl ⟨rfl, rfl⟩) rfl rfl,
    h.exits.turn hb rfl hi hlive (.inl rfl) rfl fun j _ => ?_, fun j hj => ?_, fun j hj hu => ?_,
    fun ht => ?_⟩
  · exact hrel (R := fun p p' => p'.reaped = p.reaped) (fun _ => rfl) rfl j
  · have hc : (d.process_table j).quants = q.hist.dispatched j := h.counted j hj
    show ((d.updProc i Process.picked).process_table j).quants = q'.hist.dispatched j
    rw [hh, History.pick_dispatched, Data.updProc_table]
    by_cases hji : j = i
    · subst hji
      rw [if_pos rfl, if_pos rfl, ← hc]
      rfl
    · rw [if_neg hji, if_neg hji, hc]
  · change ((d.updProc i Process.picked).process_table j).state = _ at hu
    rw [Data.updProc_table] at hu
    show q'.hist.before j = none
    rw [hh]
    by_cases hji : j = i
    · rw [if_pos hji] at hu
      cases hu
    · rw [if_neg hji] at hu
      exact h.fresh j hj hu
  · obtain ⟨h1, h2⟩ := hm ht
    show MemInv E.cfg q'.own q'.phys.mem (d.handTo i)
    rw [h1, h2]
    refine (h.mem ht).congr (.refl ..) (fun _ _ => .refl ..) rfl rfl (fun j _ => ?_)
      (fun j hl => Data.live_handTo hlive hl) fun j _ hl => Data.handTo_live hl
    exact hrel (R := Process.SameMem) (fun _ => ⟨rfl, rfl, rfl⟩) ⟨rfl, rfl, rfl⟩ j

namespace K

variable {q : Quiet} {d : Data} {i : Nat} {α : Type}

theorem wp_setProc_pick {f : Unit → K α} {Q : α → St → Prop} {L : Finset LockId} (hi : i < d.nproc)
    (hpass : d.Passing) (hs : (d.process_table i).state = .Runnable)
    (hmin : ∀ r < d.nproc, (d.process_table r).state = .Runnable →
      (d.process_table i).quants ≤ (d.process_table r).quants)
    (hc : (q.on d L).Counted) (h : wp E me (f ()) Q ({ q with hist := q.hist.pick i }.on
      (d.updProc i fun p => { p with state := .Running }) L)) :
    wp E me (setProc i (fun p => { p with state := .Running }) >>= f) Q (q.on d L) := by
  have ha : d.Assigns me q.hist i { d.process_table i with state := .Running } :=
    .dispatch hi hpass hs hmin
  refine wp_set (Data.Assigns.legal ha) (Data.Assigns.spares ha) (fun _ _ => hc) ?_
  rw [History.moved_pick (i := i) ⟨hs, ?_⟩ fun j hj => ?_]
  · exact h
  · rw [Data.updProc_self]
  · rw [Data.updProc_ne _ _ hj]

/-- The first runnable process of the order that is left has the fewest quanta of all. -/
theorem wp_pickLoop (hpass : d.Passing) (hc : ∀ L, (q.on d L).Counted) {Q : Option Nat → St → Prop}
    (hnone : Q none (q.on d {.kernel}))
    (hsome : ∀ i < d.nproc, (d.process_table i).state = .Runnable →
      Q (some i) ({ q with hist := q.hist.pick i }.on
        (d.updProc i fun p => { p with state := .Running }) (insert (LockId.proc i) {LockId.kernel}))) :
    ∀ order : List Nat, order.Pairwise (fun i j =>
        (d.process_table i).quants ≤ (d.process_table j).quants) →
      (∀ i ∈ order, i < d.nproc) →
      (∀ r < d.nproc, (d.process_table r).state = .Runnable → r ∈ order) →
      wp E me (pickLoop order) Q (q.on d {.kernel}) := by
  intro order
  induction order with
  | nil => exact fun _ _ _ => hnone
  | cons i order ih =>
    intro hsort hlt hall
    obtain ⟨hi, hsort⟩ := List.pairwise_cons.1 hsort
    unfold pickLoop
    refine wp_lock (by simp) (by simp) (wp_proc ?_)
    by_cases hs : (d.process_table i).state = .Runnable
    · simp only [hs, if_true]
      refine wp_setProc_pick (hlt i (List.mem_cons_self ..)) hpass hs (fun r hr hrs => ?_) (hc _) ?_
      · rcases List.mem_cons.1 (hall r hr hrs) with rfl | hm
        · exact Nat.le_refl _
        · exact hi r hm
      · exact hsome i (hlt i (List.mem_cons_self ..)) hs
    · simp only [hs, if_false]
      refine wp_release (by simp) (Finset.erase_insert (by simp)) (by simp) ?_
      refine ih hsort (fun j hj => hlt j (List.mem_cons_of_mem _ hj)) fun r hr hrs => ?_
      rcases List.mem_cons.1 (hall r hr hrs) with rfl | hm
      · exact (hs hrs).elim
      · exact hm

/-! ## The pass -/

/-- The scheduler takes the hart back. -/
theorem wp_handBack {S : St} (h : HandBack E i S) :
    wp E none (do
      set fun d => { d with current := none }
      release (.proc i)
      return .scheduler) (labelPost E none) S := by
  obtain ⟨q, hq⟩ := Quiet.exists_on h.sie h.umode
    ⟨by rw [h.stack, h.held]; rfl, fun _ => h.sie⟩
  rw [h.held] at hq
  generalize S.data = d at hq
  subst hq
  refine wp_setRest rfl rfl rfl (Nat.le_refl _) (fun _ h1 _ => by cases h1) ?_
  have hst : d.csr.stvec = .kernelvec := h.stvec
  have hinv : Inv E none (q.on { d with current := none } {.proc i}) :=
    h.inv.of_eq rfl rfl rfl rfl rfl rfl rfl rfl fun _ _ _ h => h
  have hcur : ({ d with current := none } : Data).current = none := rfl
  replace hst : ({ d with current := none } : Data).csr.stvec = .kernelvec := hst
  show wp E none _ _ (q.on { d with current := none } {.proc i})
  generalize ({ d with current := none } : Data) = d₁ at hinv hcur hst ⊢
  refine wp_release_open (b := q.prev) rfl hcur hst hinv (fun _ hj => ?_)
    fun S' _ _ _ _ h' => ⟨rfl, h'.umode, h'.settled⟩
  cases hj

theorem wp_schedulerPass {S₀ S : St} (h : Calm E none false S₀ S) :
    wp E none schedulerPass (labelPost E none) S := by
  obtain ⟨q, hq⟩ := h.quiet
  have hcur : S.data.current = none := h.settled.current
  have hst : S.data.csr.stvec = .kernelvec := by
    rw [h.settled.stvec, h.umode]
    rfl
  have hinv := h.settled.inv
  rw [← hq] at hinv ⊢
  generalize S.data = d at hcur hst hinv
  clear hq h
  unfold schedulerPass
  refine wp_note ⟨rfl, hcur, rfl, hinv⟩ (fun j hj => by cases hj) fun _ => ?_
  have hinv : Inv E none (q.on { d with log := .pass :: d.log } ∅) :=
    hinv.onLog (hinv.exits.note (.inl rfl) fun p x => by simp)
  replace hcur : ({ d with log := .pass :: d.log } : Data).current = none := hcur
  replace hst : ({ d with log := .pass :: d.log } : Data).csr.stvec = .kernelvec := hst
  have hpass : ({ d with log := .pass :: d.log } : Data).Passing := ⟨hcur, rfl⟩
  generalize ({ d with log := .pass :: d.log } : Data) = d₁ at hcur hst hinv hpass
  refine wp_lock_first hcur rfl (wp_heapUse_quiet (.of_held (by simp) (by simp)) fun q₁ hn => ?_)
  replace hinv : Inv E none (q₁.on d₁ {.kernel}) := by
    have h0 : Inv E none ({ q with prev := false }.on d₁ ∅) :=
      hinv.of_eq rfl rfl rfl rfl rfl rfl rfl rfl fun _ _ _ h => h
    exact (h0.ticks hn.ticks).on _
  have hprev : q₁.prev = false := hn.prev (by simp)
  refine wp_get ?_
  rw [wp_bind]
  refine wp_pickLoop hpass (fun _ => hinv.counted) ?_ (fun i hi hs => ?_) _ (passOrder_sorted d₁)
    (fun i hi => mem_passOrder.1 hi) fun r hr _ => mem_passOrder.2 hr
  · -- nobody is runnable
    refine wp_heapUse_quiet (.of_held (by simp) (by simp)) fun q₂ hn₂ => ?_
    replace hinv : Inv E none (q₂.on d₁ ∅) := (hinv.on ∅).ticks hn₂.ticks
    refine wp_release_last ((hn₂.prev (by simp)).trans hprev) hcur rfl ?_
    have hc : Calm E none false (q₂.on d₁ ∅) (q₂.on d₁ ∅) :=
      .refl rfl rfl (q₂.locks_inv ∅) ⟨rfl, hcur, hst, hinv, fun j hj => by cases hj⟩
    refine wp_heapUse_calm hc fun S₁ h₁ => wp_setSie_calm (f := fun _ => pure _) h₁ true fun S₂ _ h₂ => ?_
    exact ⟨rfl, h₂.umode, h₂.settled⟩
  · have he : (insert (LockId.proc i) {LockId.kernel} : Finset LockId).erase .kernel = {.proc i} := by
      rw [Finset.erase_insert_of_ne (by simp), Finset.erase_singleton]
      rfl
    have huse : ∀ (q : Quiet) d, Quiet.Uses none q.hist d {LockId.proc i} := fun q d =>
      .of_held (by simp) (by simp)
    refine wp_heapUse_quiet (.of_held (by simp) (by simp)) fun q' hn' => ?_
    refine wp_release (by simp) he (by simp) (wp_proc ?_)
    rw [Data.updProc_self]
    refine wp_add (huse _ _).steady (Quiet.like _ _ _) (by simp [Forbidden]) fun _ => ?_
    refine wp_setProc (.count hi (by rw [Data.updProc_self]) ?_) (.inl rfl) ?_
    · rw [Data.updProc_self]
      exact Nat.le_succ _
    rw [Data.updProc_updProc]
    refine wp_setRest rfl rfl rfl (Nat.le_refl _) (fun j hj _ => ?_) ?_
    · obtain rfl := Option.some.inj hj
      exact Table.picked hinv.table hcur hi rfl
    refine wp_heapUse_quiet (huse _ _) fun q₂ hn₂ => wp_quiet fun _ => ?_
    refine ⟨rfl, ⟨rfl, rfl, rfl, rfl, rfl, hst, ?_⟩, fun S' hb => wp_handBack hb⟩
    exact hinv.pick hi hs (hn₂.hist.trans hn'.hist) fun ht =>
      ⟨(hn₂.mem ht).1.trans (hn'.mem ht).1, (hn₂.mem ht).2.trans (hn'.mem ht).2⟩

theorem wp_schedulerRound {S : St} (hl : S.locks.Inv) (h : labelPost E me .scheduler S) :
    wp E me schedulerRound (labelPost E me) S := by
  obtain ⟨rfl, hu, hc⟩ := h
  have h : Calm E none S.locks.sie S S := .refl hu rfl hl hc
  unfold schedulerRound
  refine wp_heapUse_calm h fun S₁ h₁ => wp_setSie_calm h₁ true fun S₂ _ h₂ => ?_
  exact wp_setSie_calm h₂ false fun S₃ _ h₃ => wp_schedulerPass h₃

end K

end BareMetal
