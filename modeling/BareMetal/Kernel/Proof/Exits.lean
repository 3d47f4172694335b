import BareMetal.Kernel.Proof.Switch

/-!
# A process that exits

With nothing else running `kexit` goes on until it makes the process a zombie (`K.comes_kexit`), and
then to the scheduler (`Machine.Later.zombie`). `Machine.Later.exit`: so a process in user mode can
exit.
-/

namespace BareMetal

open Lib K

/-- The end of `kexit`, from where the process becomes a zombie. -/
def endExit {α : Type} (i xstatus : Nat) : K α := do
  setProc i fun p => { p with state := .Zombie }
  note (.exit ((← proc i).pid.getD 0) xstatus)
  release (.exit i)
  sched i
  K.panic "cordyceps"

/-- The table as process `i` is about to become a zombie. -/
structure Data.Dying (d d' : Data) (i xstatus : Nat) : Prop where
  exited : d.Exited (d'.updProc i fun p => { p with state := .Zombie }) i xstatus
  self : (d'.process_table i).state = .Running
  context : ∀ k, (d'.process_table k).context = (d.process_table k).context
  current : d'.current = d.current
  log : d'.log = .kexit i :: d.log

theorem Data.Exited.before {d d' : Data} {i xstatus : Nat} {log : List Event}
    (h : ({ d with log } : Data).Exited d' i xstatus) : d.Exited d' i xstatus :=
  ⟨h.nproc, h.pid, h.same, h.kept, h.parent, h.dead, h.state⟩

theorem Data.Dying.same {d d₁ d' : Data} {i xstatus : Nat} (h : d₁.Dying d' i xstatus)
    (hs : d.SameTable d₁) : d.Dying d' i xstatus := by
  obtain ⟨⟨h1, h2, h3, h4, h5, h6, h7⟩, h8, h9, h10, h11⟩ := h
  simp only [hs.process_table, hs.nproc, hs.pid, hs.current, hs.log] at *
  exact ⟨⟨h1, h2, h3, h4, h5, h6, h7⟩, h8, h9, h10, h11⟩

/-- A field that the function keeps. -/
theorem Data.mapFrom_keep (d : Data) (k n : Nat) (f : Process → Process) {α : Type} (g : Process → α)
    (h : ∀ p, g (f p) = g p) (j : Nat) :
    g ((d.mapFrom k n f).process_table j) = g (d.process_table j) := by
  rw [Data.mapFrom_table]
  split
  · exact h _
  · rfl

/-- What `kexit` makes of the table before that; `r` says whether the process has children. -/
theorem Data.dying {d d₁ d₂ d₃ : Data} {i xstatus : Nat} {r : Bool} (hin : i < d.nproc)
    (hrun : (d.process_table i).state = .Running)
    (h₁ : d₁ = { d with log := .kexit i :: d.log })
    (hr : r = true ↔ ∃ j < d₁.nproc, (d₁.process_table j).parent = (d₁.process_table i).pid)
    (h₂ : d₂ = if r then (d₁.mapFrom 0 d₁.nproc (Process.adopt (d₁.process_table i).pid)).mapFrom 0
        d₁.nproc (Process.wake (some 0))
      else d₁.mapFrom 0 d₁.nproc (Process.adopt (d₁.process_table i).pid))
    (h₃ : d₃ = d₂.mapFrom 0 d₂.nproc (Process.wake (d₂.process_table i).parent)) :
    d.Dying (d₃.updProc i fun p => { p with xstatus }) i xstatus := by
  have hn : d₂.nproc = d₁.nproc := by
    rw [h₂]
    cases r <;> rfl
  rw [hn] at h₃
  have hex : d₁.Exited ((d₃.updProc i fun p => { p with xstatus }).updProc i fun p =>
      { p with state := .Zombie }) i xstatus :=
    Data.exited (by rwa [h₁]) (by rwa [h₁]) hr rfl h₂ h₃
  -- what nobody changes
  have hkeep : ∀ {α : Type} (g : Process → α) (k : Nat), (∀ ch p, g (Process.wake ch p) = g p) →
      (∀ pid p, g (Process.adopt pid p) = g p) →
      g (d₃.process_table k) = g (d₁.process_table k) := by
    intro α g k hw ha
    rw [h₃, Data.mapFrom_keep _ _ _ _ g (hw _), h₂]
    cases r with
    | true => rw [if_pos rfl, Data.mapFrom_keep _ _ _ _ g (hw _), Data.mapFrom_keep _ _ _ _ g (ha _)]
    | false => rw [if_neg (by simp), Data.mapFrom_keep _ _ _ _ g (ha _)]
  have hrest : d₃.current = d₁.current ∧ d₃.log = d₁.log := by
    rw [h₃, h₂]
    cases r <;> exact ⟨rfl, rfl⟩
  rw [h₁] at hex hkeep hrest
  refine ⟨hex.before, ?_, fun k => ?_, hrest.1, hrest.2⟩
  · rw [Data.updProc_self]
    refine (hkeep (fun p => p.state = .Running) i (fun ch p => propext ?_) fun pid p => ?_).mpr hrun
    · rw [Process.wake_state]
      split
      · next hw => simp [hw.1]
      · exact .rfl
    · rw [Process.adopt_state]
  · refine (Data.updProc_rel (R := fun p p' => p'.context = p.context) (fun _ => rfl) d₃ i
      (f := fun p => { p with xstatus }) rfl k).trans (hkeep Process.context k ?_ ?_)
    · intro ch p
      unfold Process.wake
      split <;> rfl
    · intro pid p
      unfold Process.adopt
      split <;> rfl

namespace K

variable {c : Cfg} {s : Sys} {i : Nat} {b : Bool} {H : Finset LockId}

theorem always_wakeupLoop {channel : Option Nat} {Q : Unit → Sys → Prop}
    (hl : ∀ j, LockId.proc j ∉ H) (n : Nat) : ∀ {k : Nat} {s : Sys}, s.locks.Holds b H →
      (∀ s', s'.phys = s.phys → s'.data = s.data.mapFrom k n (Process.wake channel) →
        s'.locks.Holds b H → Q () s') →
      Always c (fun _ _ => True) (wakeupLoop channel n k) Q s := by
  induction n with
  | zero =>
    intro k s hb h
    exact h s rfl (s.data.mapFrom_zero k _).symm hb
  | succ n ih =>
    intro k s hb h
    unfold wakeupLoop
    refine always_bind (always_take hb (hl k) fun s₁ p1 d1 hb₁ => always_bind (always_proc ?_))
    have hgo : ∀ s₂ : Sys, s₂.phys = s.phys → s₂.data = s.data.updProc k (Process.wake channel) →
        s₂.locks = s₁.locks → Always c (fun _ _ => True)
          (release (.proc k) >>= fun _ => wakeupLoop channel n (k + 1)) Q s₂ := by
      intro s₂ p2 d2 l2
      refine always_bind (always_give (by rw [l2]; exact hb₁) (Finset.mem_insert_self _ _)
        fun s₃ p3 d3 hb₃ => ?_)
      rw [Finset.erase_insert (hl k)] at hb₃
      refine ih hb₃ fun s' p' d' hb' => h s' (p'.trans (p3.trans p2)) ?_ hb'
      rw [d', d3, d2, Data.mapFrom_succ]
    rw [d1]
    by_cases hw : (s.data.process_table k).state = .Sleeping ∧
        (s.data.process_table k).sleep_channel = channel
    · rw [if_pos hw]
      have hu : s.data.updProc k (fun p => { p with state := .Runnable }) =
          s.data.updProc k (Process.wake channel) := Data.updProc_congr _ _ (if_pos hw).symm
      refine always_bind (always_setProc (hgo _ p1 ?_ rfl))
      rw [d1, ← hu]
    · rw [if_neg hw]
      refine hgo _ p1 ?_ rfl
      rw [d1]
      exact (Data.updProc_id _ _ (if_neg hw)).symm

theorem always_wakeup {channel : Option Nat} {Q : Unit → Sys → Prop}
    (hl : ∀ j, LockId.proc j ∉ H) (hb : s.locks.Holds b H)
    (h : ∀ s', s'.phys = s.phys →
      s'.data = s.data.mapFrom 0 s.data.nproc (Process.wake channel) → s'.locks.Holds b H →
      Q () s') : Always c (fun _ _ => True) (wakeup channel) Q s :=
  always_bind (always_get (always_wakeupLoop hl _ hb h))

theorem always_reparentLoop {pid : Option Nat} {Q : Bool → Sys → Prop} (n : Nat) :
    ∀ {k : Nat} {any_child : Bool} {s : Sys},
      (∀ r s', (r = true ↔ any_child = true ∨
          ∃ j, k ≤ j ∧ j < k + n ∧ (s.data.process_table j).parent = pid) →
        s'.phys = s.phys → s'.data = s.data.mapFrom k n (Process.adopt pid) →
        s'.locks = s.locks → Q r s') →
      Always c (fun _ _ => True) (reparentLoop pid n k any_child) Q s := by
  induction n with
  | zero =>
    intro k any_child s h
    refine h any_child s ⟨.inl, ?_⟩ rfl (s.data.mapFrom_zero k _).symm rfl
    rintro (hr | ⟨j, hj, hj', -⟩)
    · exact hr
    · omega
  | succ n ih =>
    intro k any_child s h
    unfold reparentLoop
    refine always_bind (always_proc ?_)
    by_cases hc : (s.data.process_table k).parent = pid
    · rw [if_pos hc]
      have hu : s.data.updProc k (fun p => { p with parent := some 0 }) =
          s.data.updProc k (Process.adopt pid) := Data.updProc_congr _ _ (if_pos hc).symm
      refine always_bind (always_setProc (ih fun r s' hr p' d' l' => h r s' ?_ p' ?_ l'))
      · refine hr.trans ⟨fun _ => .inr ⟨k, Nat.le_refl k, by omega, hc⟩, fun _ => .inl rfl⟩
      · rw [d', Data.mapFrom_succ, ← hu]
    · rw [if_neg hc]
      have hu : s.data.updProc k (Process.adopt pid) = s.data := Data.updProc_id _ _ (if_neg hc)
      refine ih fun r s' hr p' d' l' => h r s' (hr.trans (or_congr_right ⟨?_, ?_⟩)) p' ?_ l'
      · rintro ⟨j, h1, h2, h3⟩
        exact ⟨j, by omega, by omega, h3⟩
      · rintro ⟨j, h1, h2, h3⟩
        have hjk : j ≠ k := fun he => hc (he ▸ h3)
        exact ⟨j, by omega, by omega, h3⟩
      · rw [d', Data.mapFrom_succ, hu]

theorem always_reparent {pid : Option Nat} {Q : Unit → Sys → Prop}
    (hl : ∀ j, LockId.proc j ∉ H) (hb : s.locks.Holds b H)
    (h : ∀ (r : Bool) s', (r = true ↔ ∃ j < s.data.nproc, (s.data.process_table j).parent = pid) →
      s'.phys = s.phys → s'.locks.Holds b H →
      s'.data = (if r then (s.data.mapFrom 0 s.data.nproc (Process.adopt pid)).mapFrom 0
        s.data.nproc (Process.wake (some 0))
        else s.data.mapFrom 0 s.data.nproc (Process.adopt pid)) → Q () s') :
    Always c (fun _ _ => True) (reparent pid) Q s := by
  unfold reparent
  refine always_bind (always_get (always_bind (always_reparentLoop _ fun r s₁ hr p1 d1 l1 => ?_)))
  have hr : r = true ↔ ∃ j < s.data.nproc, (s.data.process_table j).parent = pid := by
    refine hr.trans ⟨?_, ?_⟩
    · rintro (hf | ⟨j, -, hj, hp⟩)
      · cases hf
      · exact ⟨j, by omega, hp⟩
    · rintro ⟨j, hj, hp⟩
      exact .inr ⟨j, Nat.zero_le j, by omega, hp⟩
  rw [← l1] at hb
  cases r with
  | true =>
    rw [if_pos rfl]
    refine always_wakeup hl hb fun s' p' d' hb' => h true s' hr (p'.trans p1) hb' ?_
    rw [d', d1]
    rfl
  | false =>
    rw [if_neg (by simp)]
    exact h false s₁ hr p1 hb d1

/-- **`kexit`** comes to where the process becomes a zombie. -/
theorem comes_kexit {D : K Label → Sys → Prop} {xstatus : Nat} (hb : s.locks.Holds b ∅)
    (hpid : (s.data.process_table i).pid ≠ some 0) (hin : i < s.data.nproc)
    (hrun : (s.data.process_table i).state = .Running)
    (h : ∀ s', s'.phys = s.phys → s.data.Dying s'.data i xstatus →
      s'.locks.Holds b {.proc i, .exit i} → D (endExit i xstatus) s') :
    Comes c D (kexit i xstatus) s := by
  unfold kexit
  refine comes_bind (always_proc ?_)
  rw [if_neg hpid]
  refine comes_bind (always_take hb (Finset.notMem_empty _) fun s₁ p1 d1 hb₁ =>
    comes_bind (always_note trivial (comes_bind (always_take hb₁ (by simp)
      fun s₂ p2 d2 hb₂ => comes_bind (always_proc ?_)))))
  have hd₂ : s₂.data = { s.data with log := .kexit i :: s.data.log } := by
    rw [d2]
    dsimp only
    rw [d1]
  -- the children go to init
  refine comes_bind (always_reparent (by simp) hb₂ fun r s₃ hr p3 hb₃ d3 => comes_bind (always_give
    hb₃ (Finset.mem_insert_self _ _) fun s₄ p4 d4 hb₄ => ?_))
  rw [Finset.erase_insert (by simp)] at hb₄
  -- the parent wakes
  refine comes_bind (always_take hb₄ (by simp) fun s₅ p5 d5 hb₅ => comes_bind (always_proc
    (comes_bind (always_wakeup (by simp) hb₅ fun s₆ p6 d6 hb₆ => comes_bind (always_give hb₆
      (Finset.mem_insert_self _ _) fun s₇ p7 d7 hb₇ => ?_)))))
  rw [Finset.erase_insert (by simp)] at hb₇
  refine comes_bind (always_take hb₇ (by simp) fun s₈ p8 d8 hb₈ => comes_bind (always_setProc
    (comes_here (h _ ?_ ?_ hb₈))))
  · exact p8.trans (p7.trans (p6.trans (p5.trans (p4.trans (p3.trans (p2.trans p1))))))
  · rw [d8, d7, d6, d5, d4]
    exact Data.dying hin hrun hd₂ hr d3 rfl

/-- The end of `kexit` comes to the switch. -/
theorem comes_endExit {D : K Label → Sys → Prop} {xstatus p : Nat}
    (hb : s.locks.Holds b {.proc i, .exit i}) (hcur : s.data.current = some i)
    (hp : (s.data.process_table i).pid = some p)
    (h : ∀ k s', s'.phys = s.phys → s'.data =
      { s.data.updProc i (fun p => { p with state := .Zombie }) with
        log := .exit p xstatus :: s.data.log } → s'.locks.Holds b {.proc i} →
      D (.op (.toSched i) k) s') :
    Comes c D (endExit i xstatus) s := by
  unfold endExit
  refine comes_bind (always_setProc (comes_bind (always_proc ?_)))
  rw [Data.updProc_self, hp, Option.getD_some]
  refine comes_bind (always_note trivial (comes_bind (always_give hb (by simp)
    fun s₁ p1 d1 hb₁ => ?_)))
  rw [Finset.pair_comm, Finset.erase_insert (by simp)] at hb₁
  refine comes_sched (j := i) hb₁ (by rw [d1]; exact hcur) ?_ (h _ _ p1 d1 hb₁)
  rw [d1]
  dsimp only
  rw [Data.updProc_self]
  simp

end K

namespace Machine

variable {c : Cfg} {m : Machine} {i p xstatus : Nat}

/-- **A process in user mode can exit**: it comes to where it becomes a zombie. -/
theorem Later.exit (hr : Reach c StatusFits m) (hcode : m.code = .ret .user)
    (hcur : m.sys.data.current = some i) (hpid : (m.sys.data.process_table i).pid ≠ some 0)
    (hx : xstatus < 2 ^ 32) : ∃ s, m.sys.data.Dying s.data i xstatus ∧
      s.phys.free = m.sys.phys.free ∧ s.locks.Holds true {.proc i, .exit i} ∧
      Later c StatusFits m { m with sys := s, code := endExit i xstatus } := by
  obtain ⟨own, h, -, hset, -⟩ := hr.user hcode hcur
  obtain ⟨hin, hrun⟩ : i < m.sys.data.nproc ∧ (m.sys.data.process_table i).state = .Running :=
    hset.inv.table.run_running
  obtain ⟨s₁, regs, h₁, hframe, ha7, ha0, hl₁⟩ :=
    Later.call (n := SYS_EXIT) hr hcode hcur (by decide) hx
  have hcomes : Comes c (fun p s => p = endExit i xstatus ∧ s.phys = s₁.phys ∧
      s₁.data.Dying s.data i xstatus ∧ s.locks.Holds true {.proc i, .exit i}) (syscall c i) s₁ := by
    unfold syscall
    refine comes_bind (always_trapframeField hframe rfl (by decide) ?_)
    rw [ha7, if_neg (by decide), if_neg (by decide), if_neg (by decide), if_neg (by decide),
      if_pos rfl]
    refine comes_bind (always_trapframeField hframe rfl (by decide) ?_)
    rw [ha0]
    exact comes_kexit h₁.holds (by rwa [h₁.process_table]) (by rwa [h₁.nproc])
      (by rwa [h₁.process_table]) fun s' hp hd hb => ⟨rfl, hp, hd, hb⟩
  obtain ⟨p, s₂, ⟨rfl, hp, hd, hb⟩, hl₂⟩ := Later.comes (m := { m with
    sys := s₁, code := syscall c i }) rfl hcomes
  exact ⟨s₂, hd.same h₁.toSameTable, by rw [hp]; exact h₁.free, hb, hl₁.trans hl₂⟩

/-- Then the scheduler begins its next pass. -/
theorem Later.zombie (hc : m.code = endExit i xstatus) (hsched : m.sched = afterTurn i)
    (hcur : m.sys.data.current = some i) (hp : (m.sys.data.process_table i).pid = some p)
    (hb : m.sys.locks.Holds true {.proc i, .exit i}) :
    ∃ s k, s.phys = m.sys.phys ∧ s.data =
      ({ m.sys.data.updProc i (fun p => { p with state := .Zombie }) with
        log := .exit p xstatus :: m.sys.data.log } : Data).parked i ∧ s.locks.Holds false ∅ ∧
      Later c StatusFits m { m with
        sys := s, code := schedulerPass, saved := Function.update m.saved i k } := by
  have hcomes : Comes c (fun q s => (∃ k, q = .op (.toSched i) k) ∧ s.phys = m.sys.phys ∧ s.data =
      { m.sys.data.updProc i (fun p => { p with state := .Zombie }) with
        log := .exit p xstatus :: m.sys.data.log } ∧ s.locks.Holds true {.proc i})
      (endExit i xstatus) m.sys :=
    comes_endExit hb hcur hp fun k s' hp hd hb => ⟨⟨k, rfl⟩, hp, hd, hb⟩
  obtain ⟨q, s₁, ⟨⟨k, rfl⟩, hp₁, hd₁, hb₁⟩, hl₁⟩ := Later.comes hc hcomes
  obtain ⟨s₂, hp₂, hd₂, hb₂, hl₂⟩ := Later.toPass (m := { m with
    sys := s₁, code := .op (.toSched i) k }) rfl hsched hb₁
  exact ⟨s₂, k (), hp₂.trans hp₁, by rw [hd₂]; exact congrArg (Data.parked · i) hd₁, hb₂,
    hl₁.trans hl₂⟩

end Machine

end BareMetal
