import BareMetal.Kernel.Proof.Sched

/-!
# Exit

`wakeup` and `reparent` change the process table as `Data.mapFrom` says, and `kexit` hands the hart
to the scheduler for good (`wp_kexit`).
-/

namespace BareMetal

open Lib

variable {E : Env} {me : Option Nat} {b : Bool} {S₀ S : St}

/-- The process of slot `i` is in `kexit`. -/
structure Data.Exiting (d : Data) (i : Nat) : Prop where
  current : d.current = some i
  log : d.log.head? = some (.kexit i)

/-- A sleeper is woken by a process that exits. -/
theorem Data.Assigns.wake {d : Data} {h : History} {j : Nat} (hj : j < d.nproc)
    (hs : (d.process_table j).state = .Sleeping)
    (hw : ∃ i, d.current = some i ∧ d.log.head? = some (.kexit i) ∧
      ((d.process_table j).sleep_channel = (d.process_table i).parent ∨
        (d.process_table j).sleep_channel = some 0)) :
    d.Assigns me h j { d.process_table j with state := .Runnable } where
  moves := by rw [hs]; exact hw
  pick h1 := by
    rw [hs] at h1
    cases h1
  quants := Nat.le_refl _
  counts := .inl rfl
  names := .of_pid rfl fun h => by
    have := h.symm.trans hs
    cases this
  trapframe _ := ⟨rfl, rfl⟩
  pagetable _ _ := ⟨rfl, rfl⟩
  made _ hn := (hn (.inl ⟨hj, .inr (.inr hs)⟩)).elim
  thread _ _ := ⟨.inl rfl, rfl, rfl⟩
  born _ hl := (hl ⟨hj, .inr (.inr hs)⟩).elim

/-- A child is given to init. -/
theorem Data.Assigns.adopt {d : Data} {h : History} {j : Nat} (hj : j < d.nproc)
    (parent : Option Nat) : d.Assigns me h j { d.process_table j with parent } where
  moves := d.moves_refl j _
  pick h1 h2 := by
    have := h1.symm.trans h2
    cases this
  quants := Nat.le_refl _
  counts := .inl rfl
  names := .of_pid rfl fun h => ⟨rfl, h⟩
  trapframe _ := ⟨rfl, rfl⟩
  pagetable _ _ := ⟨rfl, rfl⟩
  made _ hn hs := (hn (hs.imp_left fun hs => ⟨hj, hs⟩)).elim
  thread _ hl := ⟨hl.2, rfl, rfl⟩
  born _ hl hs := (hl ⟨hj, hs⟩).elim

/-- What `kexit` makes of the table; `r` says whether the process has children. -/
theorem Data.exited {d : Data} {i xstatus : Nat} {r : Bool} (hin : i < d.nproc)
    (hrun : (d.process_table i).state = .Running)
    (hr : r = true ↔ ∃ j < d.nproc, (d.process_table j).parent = (d.process_table i).pid)
    {d₁ d₂ : Data} (h₁ : d₁ = d.mapFrom 0 d.nproc (Process.adopt (d.process_table i).pid))
    (h₂ : d₂ = if r then d₁.mapFrom 0 d.nproc (Process.wake (some 0)) else d₁)
    {d₃ : Data} (h₃ : d₃ = d₂.mapFrom 0 d.nproc (Process.wake (d₂.process_table i).parent)) :
    d.Exited ((d₃.updProc i fun p => { p with xstatus }).updProc i fun p =>
      { p with state := .Zombie }) i xstatus := by
  have ht₁ : ∀ j < d.nproc, d₁.process_table j =
      (d.process_table j).adopt (d.process_table i).pid := fun j hj => by
    rw [h₁, Data.mapFrom_table, if_pos (by omega)]
  have ht₂ : ∀ j < d.nproc, d₂.process_table j =
      if r then (d₁.process_table j).wake (some 0) else d₁.process_table j := fun j hj => by
    rw [h₂]
    cases r
    · rfl
    · simp only [if_true]
      rw [Data.mapFrom_table, if_pos (by omega)]
  have ht₃ : ∀ j < d.nproc, d₃.process_table j =
      (d₂.process_table j).wake (d₂.process_table i).parent := fun j hj => by
    rw [h₃, Data.mapFrom_table, if_pos (by omega)]
  have hpar : ∀ j < d.nproc, (d₂.process_table j).parent =
      if (d.process_table j).parent = (d.process_table i).pid then some 0
      else (d.process_table j).parent := fun j hj => by
    rw [ht₂ j hj, ht₁ j hj]
    cases r <;> simp [Process.adopt_parent]
  have hn : d₃.nproc = d.nproc ∧ d₃.pid = d.pid := by
    rw [h₃, h₂, h₁]
    cases r <;> exact ⟨rfl, rfl⟩
  have ht₅ : ∀ j, ((d₃.updProc i fun p => { p with xstatus }).updProc i fun p =>
      { p with state := .Zombie }).process_table j =
      if j = i then { d₃.process_table i with xstatus, state := .Zombie }
      else d₃.process_table j := fun j => by
    rw [Data.updProc_table, Data.updProc_self, Data.updProc_table]
    split <;> rfl
  refine ⟨hn.1, hn.2, fun j hj => ?_, fun j hj => ?_, fun j hj => ?_, ?_, fun j hj hji => ?_⟩
  · rw [ht₅]
    split
    · next he => subst he; rw [ht₃ j hj, ht₂ j hj, ht₁ j hj]; cases r <;> simp
    · rw [ht₃ j hj, ht₂ j hj, ht₁ j hj]; cases r <;> simp
  · rw [ht₅]
    have hk := Process.wake_kept
    have hk' := Process.adopt_kept
    split
    · next he => subst he; rw [ht₃ j hj, ht₂ j hj, ht₁ j hj]; cases r <;> simp [hk, hk']
    · rw [ht₃ j hj, ht₂ j hj, ht₁ j hj]; cases r <;> simp [hk, hk']
  · rw [ht₅, ← hpar j hj]
    split
    · next he => subst he; rw [ht₃ j hj]; exact Process.wake_parent ..
    · rw [ht₃ j hj]; exact Process.wake_parent ..
  · rw [ht₅, if_pos rfl]
    exact ⟨rfl, rfl⟩
  · rw [ht₅, if_neg hji, ht₅, if_pos rfl]
    have hpi : (d₃.process_table i).parent = (d₂.process_table i).parent := by
      rw [ht₃ i hin]
      exact Process.wake_parent ..
    have hs₂ : (d₂.process_table j).state = (if r = true ∧ (d.process_table j).state = .Sleeping ∧
        (d.process_table j).sleep_channel = some 0 then .Runnable
        else (d.process_table j).state) ∧
        (d₂.process_table j).sleep_channel = (d.process_table j).sleep_channel ∧
        (d₂.process_table j).xstatus = (d.process_table j).xstatus := by
      rw [ht₂ j hj, ht₁ j hj]
      cases r <;> simp [Process.wake_state]
    rw [ht₃ j hj, Process.wake_state, Process.wake_xstatus]
    simp only [hpi]
    grind

theorem Inv.exit {sys : Sys} {own : Party → Finset Nat} {h : History} {i xstatus p : Nat}
    {d : Data} (hi : Inv E (some i) ⟨sys, own, h⟩) (hx : sys.data.Exited d i xstatus)
    (hp : (sys.data.process_table i).pid = some p) (hne : p ≠ 0)
    (hr : (sys.data.process_table i).reaped = none)
    (hd : (sys.data.process_table i).dropping = false)
    (hl : d.log = .exit p xstatus :: sys.data.log) (hk : d.kvm = sys.data.kvm) :
    Inv E none ⟨{ sys with data := d }, own, h⟩ := by
  obtain ⟨hin, hrun⟩ := hi.table.run_running
  have hst : ∀ j < sys.data.nproc, j ≠ i →
      (d.process_table j).state = (sys.data.process_table j).state ∨
      (sys.data.process_table j).state = .Sleeping ∧ (d.process_table j).state = .Runnable :=
    fun j hj hji => (hx.state j hj hji).1.imp_left fun h => h.1
  refine ⟨hi.table.exit hx (by rw [hp]; simpa using hne), hi.exits.exit hi.table hx hp hr hl,
    fun j hj => ?_, fun j hj hs => ?_, fun ht => ?_⟩
  · have hj' : j < sys.data.nproc := hx.nproc ▸ hj
    exact (hx.kept j hj').1.trans (hi.counted j hj')
  · have hj' : j < sys.data.nproc := hx.nproc ▸ hj
    change (d.process_table j).state = _ at hs
    by_cases hji : j = i
    · rw [hji, hx.dead.1] at hs
      cases hs
    · rcases hst j hj' hji with h | ⟨-, h⟩
      · exact hi.fresh j hj' (h.symm.trans hs)
      · rw [h] at hs
        cases hs
  · refine (hi.mem ht).congr (.refl ..) (fun _ _ => .refl ..) hx.nproc hk
      (fun j hj => (hx.kept j hj).2) (fun j hj => ?_) fun j hw hj => ⟨hx.nproc ▸ hj.1, ?_⟩
    · obtain ⟨hj, hs⟩ := hj
      rw [hx.nproc] at hj
      refine ⟨hj, ?_⟩
      by_cases hji : j = i
      · rw [hji]
        exact .inr (.inl hrun)
      · rcases hst j hj hji with h | ⟨h, -⟩
        · exact h ▸ hs
        · exact .inr (.inr h)
    · rcases hst j hj.1 (fun he => by rw [he, hd] at hw; cases hw) with h | ⟨-, h⟩
      · exact h ▸ hj.2
      · exact .inl h

theorem Data.Exited.log {d d' : Data} {i xstatus : Nat} (h : d.Exited d' i xstatus)
    (l : List Event) : d.Exited { d' with log := l } i xstatus :=
  ⟨h.nproc, h.pid, h.same, h.kept, h.parent, h.dead, h.state⟩

namespace K

variable {q : Quiet} {L : Finset LockId}

theorem wp_wakeupLoop {channel : Option Nat} {i : Nat} {Q : Unit → St → Prop}
    (hl : ∀ j, LockId.proc j ∉ L) (hne : L ≠ ∅) :
    ∀ (n k : Nat) (d : Data), k + n ≤ d.nproc → d.Exiting i →
      (channel = (d.process_table i).parent ∨ channel = some 0) →
      Q () (q.on (d.mapFrom k n (Process.wake channel)) L) →
      wp E me (wakeupLoop channel n k) Q (q.on d L) := by
  intro n
  induction n with
  | zero =>
    intro k d _ _ _ hQ
    rw [Data.mapFrom_zero] at hQ
    exact hQ
  | succ n ih =>
    intro k d hk hcur hch hQ
    have hpar : ((d.updProc k (Process.wake channel)).process_table i).parent =
        (d.process_table i).parent :=
      Data.updProc_rel (R := fun p p' => p'.parent = p.parent) (fun _ => rfl) d k
        (Process.wake_parent ..) i
    have hgo : wp E me (do release (.proc k); wakeupLoop channel n (k + 1)) Q
        (q.on (d.updProc k (Process.wake channel)) (insert (.proc k) L)) := by
      refine wp_release (Finset.mem_insert_self ..) (Finset.erase_insert (hl k)) hne ?_
      refine ih (k + 1) _ (by show k + 1 + n ≤ d.nproc; omega) ⟨hcur.1, hcur.2⟩ (hpar ▸ hch) ?_
      rw [Data.mapFrom_succ] at hQ
      exact hQ
    refine wp_lock (hl k) hne (wp_proc ?_)
    by_cases hc : (d.process_table k).state = .Sleeping ∧
        (d.process_table k).sleep_channel = channel
    · simp only [hc, and_self, if_true]
      refine wp_setProc (.wake (by omega) hc.1 ⟨i, hcur.1, hcur.2, ?_⟩) (.inr (by simp)) ?_
      · exact hch.imp (fun h => hc.2.trans h) fun h => hc.2.trans h
      · have hu : d.updProc k (Process.wake channel) =
            d.updProc k fun p => { p with state := .Runnable } := d.updProc_congr _ (if_pos hc)
        rw [hu] at hgo
        exact hgo
    · simp only [hc, if_false]
      have hu : d.updProc k (Process.wake channel) = d := d.updProc_id _ (if_neg hc)
      rw [hu] at hgo
      exact hgo

theorem wp_wakeup {channel : Option Nat} {i : Nat} {Q : Unit → St → Prop} {d : Data}
    (hl : ∀ j, LockId.proc j ∉ L) (hne : L ≠ ∅) (hcur : d.Exiting i)
    (hch : channel = (d.process_table i).parent ∨ channel = some 0)
    (h : Q () (q.on (d.mapFrom 0 d.nproc (Process.wake channel)) L)) :
    wp E me (wakeup channel) Q (q.on d L) :=
  wp_get (wp_wakeupLoop hl hne d.nproc 0 d (by omega) hcur hch h)

theorem wp_reparentLoop {pid : Option Nat} {Q : Bool → St → Prop} :
    ∀ (n k : Nat) (any_child : Bool) (d : Data), k + n ≤ d.nproc →
      (∀ r : Bool, (r = true ↔ any_child = true ∨
        ∃ j, k ≤ j ∧ j < k + n ∧ (d.process_table j).parent = pid) →
        Q r (q.on (d.mapFrom k n (Process.adopt pid)) L)) →
      wp E me (reparentLoop pid n k any_child) Q (q.on d L) := by
  intro n
  induction n with
  | zero =>
    intro k any_child d _ hQ
    have h := hQ any_child ⟨.inl, ?_⟩
    · rw [Data.mapFrom_zero] at h
      exact h
    · rintro (h | ⟨j, hj, hj', -⟩)
      · exact h
      · omega
  | succ n ih =>
    intro k any_child d hk hQ
    refine wp_proc ?_
    by_cases hc : (d.process_table k).parent = pid
    · simp only [hc, if_true]
      have hu : d.updProc k (Process.adopt pid) =
          d.updProc k fun p => { p with parent := some 0 } := d.updProc_congr _ (if_pos hc)
      refine wp_setProc (.adopt (by omega) _) (.inl rfl) ?_
      refine ih (k + 1) true _ (by show k + 1 + n ≤ d.nproc; omega) fun r hr => ?_
      have h := hQ r ⟨fun _ => .inr ⟨k, by omega, by omega, hc⟩, fun _ => hr.2 (.inl rfl)⟩
      rw [Data.mapFrom_succ, hu] at h
      exact h
    · simp only [hc, if_false]
      have hu : d.updProc k (Process.adopt pid) = d := d.updProc_id _ (if_neg hc)
      refine ih (k + 1) any_child d (by omega) fun r hr => ?_
      have h := hQ r (hr.trans (or_congr_right ⟨?_, ?_⟩))
      · rw [Data.mapFrom_succ, hu] at h
        exact h
      · rintro ⟨j, hj, hj', hp⟩
        exact ⟨j, by omega, by omega, hp⟩
      · rintro ⟨j, hj, hj', hp⟩
        have : j ≠ k := fun he => hc (he ▸ hp)
        exact ⟨j, by omega, by omega, hp⟩

/-- What `reparent` makes of the table. -/
theorem wp_reparent {i : Nat} {pid : Option Nat} {Q : Unit → St → Prop} {d : Data}
    (hl : ∀ j, LockId.proc j ∉ L) (hne : L ≠ ∅) (hcur : d.Exiting i)
    (h : ∀ r : Bool, (r = true ↔ ∃ j < d.nproc, (d.process_table j).parent = pid) →
      Q () (q.on
        (if r then (d.mapFrom 0 d.nproc (Process.adopt pid)).mapFrom 0 d.nproc
          (Process.wake (some 0)) else d.mapFrom 0 d.nproc (Process.adopt pid)) L)) :
    wp E me (reparent pid) Q (q.on d L) := by
  refine wp_get ?_
  rw [wp_bind]
  refine wp_reparentLoop _ _ _ d (by omega) fun r hr => ?_
  have hiff : (r = true ↔ ∃ j < d.nproc, (d.process_table j).parent = pid) := by
    refine hr.trans ⟨?_, ?_⟩
    · rintro (hx | ⟨j, -, hj, hp⟩)
      · cases hx
      · exact ⟨j, by omega, hp⟩
    · rintro ⟨j, hj, hp⟩
      exact .inr ⟨j, by omega, by omega, hp⟩
  have hQ := h r hiff
  cases r with
  | false => exact hQ
  | true => exact wp_wakeup hl hne ⟨hcur.1, hcur.2⟩ (.inr rfl) hQ

theorem wp_kexit {α : Type} {i xstatus : Nat} {Q : α → St → Prop} (h : Calm E (some i) b S₀ S)
    (hreap : (S₀.proc i).reaped = none) (hdrop : (S₀.proc i).dropping = false) :
    wp E (some i) (kexit i xstatus) Q S := by
  unfold kexit
  refine wp_proc_calm h fun S₁ h₁ => ?_
  by_cases h0 : (S₁.proc i).pid = some 0
  · simp only [h0, if_true]
    rw [wp_bind]
    exact wp_panic Calm.steady h₁ (by simp [Forbidden])
  simp only [h0, if_false]
  have hreap₁ := (h₁.kept i rfl).thread.reaped.trans hreap
  have hdrop₁ := (h₁.kept i rfl).thread.dropping.trans hdrop
  refine wp_lock_calm h₁.rebase fun q d₀ hsec₀ => wp_note rfl (fun j hj => by cases hj) fun _ => ?_
  obtain ⟨d, hd⟩ : ∃ d : Data, d = { d₀ with log := .kexit i :: d₀.log } := ⟨_, rfl⟩
  have hsec : Section E (some i) b S₁ q d {.exit i} := hd ▸ hsec₀.note rfl (by simp)
  rw [← hd]
  have hcur : d.Exiting i := ⟨hsec.current, by rw [hd]; rfl⟩
  have hsame : (S₁.proc i).SameThread (d.process_table i) := (hsec.kept i rfl).thread
  obtain ⟨hin, hrun⟩ : i < d.nproc ∧ (d.process_table i).state = .Running :=
    hsec.inv.table.run_running
  obtain ⟨p, hp⟩ : ∃ p, (d.process_table i).pid = some p := by
    refine Option.ne_none_iff_exists'.1 fun hn => ?_
    have := (hsec.inv.table.unused i hin).2 hn
    have := hrun.symm.trans this
    cases this
  have hp0 : p ≠ 0 := fun he => h0 (hsame.pid.symm.trans (he ▸ hp))
  have hr0 : (d.process_table i).reaped = none := hsame.reaped.trans hreap₁
  have hd0 : (d.process_table i).dropping = false := hsame.dropping.trans hdrop₁
  -- giveup children to init
  refine wp_lock (by simp) (by simp) (wp_proc ?_)
  rw [wp_bind]
  refine wp_reparent (by simp) (by simp) hcur fun r hr => ?_
  obtain ⟨d₁, hd₁⟩ : ∃ d₁, d₁ = d.mapFrom 0 d.nproc (Process.adopt (d.process_table i).pid) :=
    ⟨_, rfl⟩
  obtain ⟨d₂, hd₂⟩ : ∃ d₂, d₂ = if r then d₁.mapFrom 0 d.nproc (Process.wake (some 0)) else d₁ :=
    ⟨_, rfl⟩
  obtain ⟨d₃, hd₃⟩ : ∃ d₃, d₃ = d₂.mapFrom 0 d.nproc (Process.wake (d₂.process_table i).parent) :=
    ⟨_, rfl⟩
  have hx : d.Exited _ i xstatus := Data.exited hin hrun hr hd₁ hd₂ hd₃
  rw [← hd₁, ← hd₂]
  refine wp_release (by simp) (Finset.erase_insert (by simp)) (by simp) ?_
  -- wakeup parent
  refine wp_lock (by simp) (by simp) (wp_proc ?_)
  rw [wp_bind]
  have hcur₂ : d₂.Exiting i := by
    rw [hd₂, hd₁]
    cases r <;> exact ⟨hcur.1, hcur.2⟩
  have hn₂ : d₂.nproc = d.nproc := by
    rw [hd₂, hd₁]
    cases r <;> rfl
  refine wp_wakeup (by simp) (by simp) hcur₂ (.inl rfl) ?_
  rw [hn₂, ← hd₃]
  refine wp_release (by simp) (Finset.erase_insert (by simp)) (by simp) ?_
  refine wp_lock (by simp) (by simp) ?_
  obtain ⟨hcur₃, hlog₃, hkvm₃, hcsr₃⟩ : d₃.current = d.current ∧ d₃.log = d.log ∧
      d₃.kvm = d.kvm ∧ d₃.csr = d.csr := by
    rw [hd₃, hd₂, hd₁]
    cases r <;> exact ⟨rfl, rfl, rfl, rfl⟩
  have hrun₃ : (d₃.process_table i).state = .Running := by
    rw [hd₃, hd₂, hd₁]
    cases r <;> simp [Data.mapFrom_table, hin, Process.wake_state, hrun]
  refine wp_setProc (.own ⟨rfl, rfl, rfl, rfl, rfl, rfl, rfl, fun h => ?_⟩) (.inl rfl) ?_
  · have := h.symm.trans hrun₃
    cases this
  refine wp_setProc (.turn ?_ ⟨?_, ?_⟩ rfl rfl ⟨rfl, rfl, rfl⟩ rfl) (.inr (by simp)) ?_
  · rw [Data.updProc_self]
    exact hrun₃
  · exact hcur₃.trans hcur.1
  · exact (congrArg List.head? hlog₃).trans hcur.2
  obtain ⟨d₄, hd₄⟩ : ∃ d₄, d₄ = (d₃.updProc i fun p => { p with xstatus }).updProc i
      fun p => { p with state := .Zombie } := ⟨_, rfl⟩
  rw [← hd₄] at hx ⊢
  have hp₄ : (d₄.process_table i).pid = some p := (hx.same i hin).1.trans hp
  refine wp_proc (wp_note ⟨i, rfl, ?_, hx.dead.1, hx.dead.2, fun x hm => ?_⟩
    (fun j hj => by cases hj) fun _ => ?_)
  · rw [hp₄]
    exact hp₄
  · rw [hp₄, Option.getD_some] at hm
    have hlog₄ : d₄.log = d.log := hd₄ ▸ hlog₃
    have hz : (d.process_table i).state ≠ .Zombie := by simp [hrun]
    exact hsec.inv.exits.alive i hin hz p x hp (hlog₄ ▸ hm)
  have he : (insert (LockId.proc i) {.exit i} : Finset LockId).erase (.exit i) = {.proc i} := by
    rw [Finset.erase_insert_of_ne (by simp), Finset.erase_singleton]
    rfl
  refine wp_release (by simp) he (by simp) ?_
  rw [wp_bind]
  have hinv : Inv E none (q.on { d₄ with log := .exit p xstatus :: d₄.log } {.proc i}) := by
    refine (hsec.inv.on {.proc i}).exit (hx.log _) hp hp0 hr0 hd0 ?_ ?_
    · rw [hd₄]
      exact congrArg _ hlog₃
    · rw [hd₄]
      exact hkvm₃
  have hdead : ∀ l, ¬ ({ d₄ with log := l } : Data).Live i := fun l hl => by
    have := hl.2
    rw [hx.dead.1] at this
    rcases this with h | h | h <;> cases h
  rw [hp₄]
  refine wp_sched ⟨rfl, rfl, rfl, rfl, ?_, ?_, hinv⟩ ?_ fun hl => (hdead _ hl).elim
  · rw [hd₄]
    exact hcur₃.trans hcur.1
  · rw [hd₄]
    exact (congrArg Csr.stvec hcsr₃).trans hsec.stvec
  · rw [hx.dead.1]
    simp

end K

end BareMetal
