import BareMetal.Kernel.Proof.Own
import BareMetal.Kernel.Proof.Spawn

/-!
# Wait

One round of `kwait` (`wp_kwaitRound`): it reaps a zombie and stores its status, or puts the caller
to sleep until a child exits, or finds no child.
-/

namespace BareMetal

open Lib

variable {E : Env} {me : Option Nat} {b : Bool} {S₀ S : St}

/-- An event that is no call. -/
theorem lastCall_cons {i : Nat} {e : Event} {l : List Event} (hc : e.isCall = false) :
    lastCall i (e :: l) = lastCall i l := by
  unfold lastCall eventsOf
  rw [List.filter_cons]
  split
  · exact List.find?_cons_of_neg (by simp [hc])
  · rfl

/-- An event that is a call of slot `i`. -/
theorem lastCall_call {i : Nat} {e : Event} {l : List Event} (he : e.slot = some i)
    (hc : e.isCall = true) : lastCall i (e :: l) = some e := by
  unfold lastCall eventsOf
  rw [List.filter_cons_of_pos (by simp [he])]
  exact List.find?_cons_of_pos hc

theorem lastCall_other {i : Nat} {e : Event} {l : List Event}
    (h : e.isCall = true → e.slot ≠ some i) : lastCall i (e :: l) = lastCall i l := by
  by_cases hc : e.isCall = true
  · unfold lastCall eventsOf
    rw [List.filter_cons_of_neg (by simpa using h hc)]
  · exact lastCall_cons (by simpa using hc)

theorem Inv.onLog {run : Option Nat} {q : Quiet} {d : Data} {L : Finset LockId} {l : List Event}
    (h : Inv E run (q.on d L)) (hx : Exits { d with log := l }) :
    Inv E run (q.on { d with log := l } L) := by
  have hq : (q.on d L).setData { d with log := l } = q.on { d with log := l } L :=
    congrArg (St.mk _ q.own) (q.hist.next_same rfl fun _ => rfl)
  exact hq ▸ h.log hx

theorem Data.updProc_updProc (d : Data) (i : Nat) (f g : Process → Process) :
    (d.updProc i f).updProc i g = d.updProc i fun p => g (f p) := by
  have h := d.updProc_self i f
  unfold Data.updProc at h ⊢
  rw [h, Function.update_idem]

/-- A zombie is gone from slot `j`, and its parent `i` keeps its status. -/
theorem Inv.reap {q q' : Quiet} {d d' : Data} {L : Finset LockId} {i j p : Nat} {p' : Process}
    (hi : Inv E (some i) (q.on d L)) (hb : d.Becomes d' j p' d.pid) (hj : j < d.nproc)
    (hz : (d.process_table j).state = .Zombie) (hq : (d.process_table j).pid = some p)
    (hpar : (d.process_table j).parent = (d.process_table i).pid)
    (hl : d'.log = .reap i j p (d.process_table j).xstatus :: d.log) (hs : p'.state = .Unused)
    (hp : p'.pid = none) (ho : p'.parent = none)
    (hri : (d'.process_table i).reaped = some (p, (d.process_table j).xstatus))
    (hr : ∀ k < d.nproc, k ≠ i → (d'.process_table k).reaped = (d.process_table k).reaped)
    (hc : ∀ k < d.nproc, (d'.process_table k).quants = (d.process_table k).quants)
    (hh : q'.hist = q.hist.free j) (hm : E.track → MemInv E.cfg q'.own q'.phys.mem d') :
    Inv E (some i) (q'.on d' L) := by
  refine ⟨hi.table.reap hb hj hz hpar hs hp ho,
    hi.exits.reap hi.table hb hj hz hq hl hs hp hri hr, fun k hk => ?_, fun k hk hku => ?_, hm⟩
  · have hk' : k < d.nproc := hb.nproc ▸ hk
    have hcount : (d.process_table k).quants = q.hist.dispatched k := hi.counted k hk'
    show (d'.process_table k).quants = q'.hist.dispatched k
    rw [hh, hc k hk', hcount]
    rfl
  · have hk' : k < d.nproc := hb.nproc ▸ hk
    show q'.hist.before k = none
    rw [hh]
    unfold History.free
    by_cases hkj : k = j
    · rw [hkj]
      exact Function.update_self ..
    · refine (Function.update_of_ne hkj ..).trans (hi.fresh k hk' ?_)
      exact (hb.rest k hk' hkj).1.state.symm.trans hku

/-- The process that runs waits for nothing, whatever its channel. -/
theorem Inv.channel {q : Quiet} {d : Data} {L : Finset LockId} {i : Nat} (c : Option Nat)
    (hi : Inv E (some i) (q.on d L)) :
    Inv E (some i) (q.on (d.updProc i fun p => { p with sleep_channel := c }) L) := by
  obtain ⟨hin, hrun⟩ : i < d.nproc ∧ (d.process_table i).state = .Running := hi.table.run_running
  let f : Process → Process := fun p => { p with sleep_channel := c }
  have hb := d.becomes_updProc i f
  have hsame : ∀ j, ((d.updProc i f).process_table j).state = (d.process_table j).state :=
    Data.updProc_rel (R := fun p p' => p'.state = p.state) (fun _ => rfl) _ i rfl
  refine ⟨hi.table.turn hb hin (.inl ⟨hrun, rfl⟩) (.inl ⟨hrun, rfl⟩) rfl rfl,
    hi.exits.turn hb rfl hin ⟨hin, .inr (.inl hrun)⟩ (.inl hrun) rfl fun j _ => ?_, fun j hj => ?_,
    fun j hj hs => hi.fresh j hj ((hsame j).symm.trans hs), fun ht => ?_⟩
  · exact Data.updProc_rel (R := fun p p' => p'.reaped = p.reaped) (fun _ => rfl) _ i (f := f) rfl j
  · refine Eq.trans ?_ (hi.counted j hj)
    exact Data.updProc_rel (R := fun p p' => p'.quants = p.quants) (fun _ => rfl) _ i (f := f) rfl j
  · refine (hi.mem ht).congr (.refl ..) (fun _ _ => .refl ..) rfl rfl (fun j _ =>
      Data.updProc_rel (fun _ => ⟨rfl, rfl, rfl⟩) _ i (f := f) ⟨rfl, rfl, rfl⟩ j)
      (fun j hl => ⟨hl.1, (hsame j) ▸ hl.2⟩) fun j _ hl => ⟨hl.1, (hsame j).symm ▸ hl.2⟩

/-- Process `i` as it goes to sleep. -/
def Data.asleep (d : Data) (i : Nat) (pid : Option Nat) : Data :=
  (d.updProc i fun p => { p with sleep_channel := pid }).updProc i fun p => { p with state := .Sleeping }

/-- The process of slot `i` has called `kwait`. -/
structure Waits (i addr : Nat) (S : St) : Prop where
  dropping : (S.proc i).dropping = false
  reaped : (S.proc i).reaped = none
  call : lastCall i S.data.log = some (.wait i addr)

theorem Untouched.lastCall {i : Nat} {S S' : St} (h : Untouched E i S S') :
    lastCall i S'.data.log = lastCall i S.data.log := by
  unfold BareMetal.lastCall
  rw [h.events]

/-- The thread assigns to fields that do not say where it is. -/
theorem Waits.of_eq {i addr : Nat} {S S' : St} (h : Waits i addr S)
    (hd : (S'.proc i).dropping = (S.proc i).dropping) (hr : (S'.proc i).reaped = (S.proc i).reaped)
    (hl : lastCall i S'.data.log = lastCall i S.data.log) : Waits i addr S' :=
  ⟨hd.trans h.dropping, hr.trans h.reaped, hl.trans h.call⟩

theorem Waits.updProc {i addr : Nat} {q : Quiet} {d : Data} {L L' : Finset LockId}
    {f : Process → Process} (h : Waits i addr (q.on d L')) (hd : ∀ p, (f p).dropping = p.dropping)
    (hr : ∀ p, (f p).reaped = p.reaped) : Waits i addr (q.on (d.updProc i f) L) := by
  refine h.of_eq ?_ ?_ rfl
  · show ((d.updProc i f).process_table i).dropping = (d.process_table i).dropping
    rw [Data.updProc_self]
    exact hd _
  · show ((d.updProc i f).process_table i).reaped = (d.process_table i).reaped
    rw [Data.updProc_self]
    exact hr _

theorem Waits.kin {i addr : Nat} {S S' : St} (h : Waits i addr S) (hu : Kin i S S') :
    Waits i addr S' :=
  ⟨hu.thread.dropping.trans h.dropping, hu.thread.reaped.trans h.reaped, hu.lastCall.trans h.call⟩

theorem Waits.kept {i addr : Nat} {S S' : St} (h : Waits i addr S) (hu : Untouched E i S S') :
    Waits i addr S' := h.kin hu.kin

/-- The process of slot `i` is between calls of `kwait`, and owns its page table. -/
structure Plain (i : Nat) (S : St) : Prop where
  dropping : (S.proc i).dropping = false
  reaped : (S.proc i).reaped = none

theorem Plain.kin {i : Nat} {S S' : St} (h : Plain i S) (hk : Kin i S S') : Plain i S' :=
  ⟨hk.thread.dropping.trans h.dropping, hk.thread.reaped.trans h.reaped⟩

theorem Plain.kept {i : Nat} {S S' : St} (h : Plain i S) (hu : Untouched E i S S') : Plain i S' :=
  h.kin hu.kin

/-- The process of slot `i` has reaped a child with the pid `p` and the status `x`. -/
structure Reaps (E : Env) (i : Nat) (b : Bool) (d : Data) (q' : Quiet) (d' : Data) (p x : Nat) :
    Prop where
  sec : Section E (some i) b (q'.on d' {.kernel}) q' d' {.kernel}
  proc : d'.process_table i = { d.process_table i with reaped := some (p, x) }
  last : lastCall i d'.log = lastCall i d.log
  reap : ∃ j, (eventsOf i d'.log).head? = some (.reap i j p x)
  fresh : ∀ a y, .waited i a p y ∉ d'.log

/-- The thread has returned what it reaped. -/
theorem Inv.cleared {run : Option Nat} (h : Inv E run S) (i : Nat) :
    Inv E run (S.setData (S.data.updProc i fun p => { p with reaped := none })) := by
  refine h.assign ⟨rfl, rfl, rfl, rfl⟩ h.exits.cleared rfl fun ht => ?_
  refine (h.mem ht).congr (.refl ..) (fun _ _ => .refl ..) rfl rfl (fun j _ =>
    Data.updProc_rel (fun _ => ⟨rfl, rfl, rfl⟩) _ i (f := fun p => { p with reaped := none })
      ⟨rfl, rfl, rfl⟩ j) (fun j hl => Data.live_updProc rfl hl) fun j _ hl => ⟨hl.1, ?_⟩
  rw [Data.updProc_rel (R := fun p p' => p'.state = p.state) (fun _ => rfl) S.data i
    (f := fun p => { p with reaped := none }) rfl j]
  exact hl.2

/-- Who has been reaped is in no slot. -/
theorem Exits.gone {d : Data} {p x : Nat} (h : Exits d) (hr : (p, x) ∈ reaps d.log) :
    ∀ j < d.nproc, (d.process_table j).pid ≠ some p := by
  intro j hj hp
  by_cases hz : (d.process_table j).state = .Zombie
  · obtain ⟨p', hp', -, hno⟩ := h.zombie j hj hz
    obtain rfl : p' = p := Option.some.inj (hp'.symm.trans hp)
    exact hno x hr
  · exact h.alive j hj hz p x hp (h.reap_sub _ hr)

theorem mem_returns {i a p x : Nat} {l : List Event} (h : .waited i a p x ∈ l) :
    (p, x) ∈ returns l := List.mem_filterMap.2 ⟨_, h, rfl⟩

namespace K

variable {q : Quiet} {d : Data} {i : Nat}

/-- The zombie in slot `j` is reaped. -/
theorem wp_reap (hsec : Section E (some i) b S₀ q d {.kernel})
    (hlast : ∃ addr, lastCall i d.log = some (.wait i addr)) {j : Nat} (hj : j < d.nproc)
    (hz : (d.process_table j).state = .Zombie)
    (hpar : (d.process_table j).parent = (d.process_table i).pid) {α : Type} {f : Unit → K α}
    {Q : α → St → Prop} (k : ∀ p q' d', (d.process_table j).pid = some p →
      Reaps E i b d q' d' p (d.process_table j).xstatus → wp E (some i) (f ()) Q (q'.on d' {.kernel})) :
    wp E (some i) (do
      note (.reap i j ((d.process_table j).pid.getD 0) (d.process_table j).xstatus)
      setProc i fun p' => { p' with
        reaped := some ((d.process_table j).pid.getD 0, (d.process_table j).xstatus) }
      Process.free j
      release (.proc j)
      f ()) Q (q.on d {.proc j, .kernel}) := by
  obtain ⟨hin, hrun⟩ : i < d.nproc ∧ (d.process_table i).state = .Running :=
    hsec.inv.table.run_running
  have hij : i ≠ j := by
    rintro rfl
    rw [hrun] at hz
    cases hz
  obtain ⟨p, hp, hexit, hnot⟩ := hsec.inv.exits.zombie j hj hz
  have hp : (d.process_table j).pid = some p := hp
  have hcur : d.current = some i := hsec.current
  rw [hp, Option.getD_some]
  refine wp_note ⟨rfl, hj, hz, hp, hpar, rfl, hexit, hnot⟩ (fun k hk => .inl hk) fun _ => ?_
  refine wp_setProc (.own ⟨rfl, rfl, rfl, rfl, rfl, rfl, rfl, fun _ => rfl⟩) (.inl rfl) ?_
  obtain ⟨x, hx⟩ : ∃ x, x = (d.process_table j).xstatus := ⟨_, rfl⟩
  rw [← hx]
  obtain ⟨d₂, hd₂⟩ : ∃ d₂, d₂ = ({ d with log := .reap i j p x :: d.log } : Data).updProc i
      fun p' => { p' with reaped := some (p, x) } := ⟨_, rfl⟩
  have hpi : d₂.process_table i = { d.process_table i with reaped := some (p, x) } := by
    rw [hd₂, Data.updProc_self]
  have hne : ∀ k, k ≠ i → d₂.process_table k = d.process_table k := fun k hk => by
    rw [hd₂, Data.updProc_ne _ _ hk]
  have hlog : d₂.log = .reap i j p x :: d.log := by rw [hd₂]; rfl
  have hcall : lastCall i d₂.log = lastCall i d.log := by
    rw [hlog]
    exact lastCall_cons rfl
  obtain ⟨hn₂, hp₂, hc₂, hs₂, hk₂⟩ : d₂.nproc = d.nproc ∧ d₂.pid = d.pid ∧ d₂.current = d.current ∧
      d₂.csr = d.csr ∧ d₂.kvm = d.kvm := by
    rw [hd₂]
    exact ⟨rfl, rfl, rfl, rfl, rfl⟩
  rw [← hd₂, wp_bind]
  have hreaped : d₂.Reaped j := by
    refine ⟨by rw [hne j hij.symm]; exact hz, i, hij, hc₂.trans hcur, ?_, ?_⟩
    · rw [hne j hij.symm, hpi]
      exact hpar
    · rw [hcall]
      exact hlast
  have hpj : d₂.process_table j = d.process_table j := hne j hij.symm
  have hm : E.track → MemInv E.cfg q.own q.phys.mem d := hsec.inv.mem
  have hdead : ¬ d.Live j := fun hl => by
    have := hl.2
    rw [hz] at this
    simp at this
  refine wp_free (by simp) (by simp) hreaped (fun ht => ?_) fun u tf q' hn hs => ?_
  · rw [hpj]
    exact ((hm ht).slot j hj).dead hdead
  refine wp_release (by simp) (show _ = {LockId.kernel} by simp) (by simp) ?_
  have hput : ∀ k, k ≠ j → (d₂.put j ((d₂.process_table j).freed u tf) d₂.pid).process_table k =
      d₂.process_table k := fun k hk => Data.put_ne _ _ _ _ hk
  have hb : d.Becomes (d₂.put j ((d₂.process_table j).freed u tf) d₂.pid) j
      ((d₂.process_table j).freed u tf) d.pid := by
    refine ⟨hn₂, hp₂, Data.put_self .., fun k _ hk => ?_⟩
    rw [hput k hk]
    by_cases hki : k = i
    · rw [hki, hpi]
      exact ⟨⟨rfl, rfl, rfl, rfl⟩, rfl⟩
    · rw [hne k hki]
      exact ⟨⟨rfl, rfl, rfl, rfl⟩, rfl⟩
  refine k p q' _ hp ⟨⟨(hn.prev (by simp)).trans hsec.prev, hc₂.trans hcur, ?_, ?_, fun _ _ => .refl ..,
    fun k hk => ?_, fun _ => ⟨rfl, rfl⟩⟩, ?_, ?_, ?_, ?_⟩
  · exact (congrArg Csr.stvec hs₂).trans hsec.stvec
  · refine (hsec.inv.on {.kernel}).reap hb hj hz hp hpar ?_ rfl rfl rfl ?_ (fun k hk hki => ?_) (fun k hk => ?_)
      hn.hist fun ht => ?_
    · exact hx ▸ hlog
    · rw [hput i hij, hpi, hx]
    · by_cases hkj : k = j
      · rw [hkj, Data.put_self, hpj]
        rfl
      · rw [hput k hkj, hne k hki]
    · by_cases hkj : k = j
      · rw [hkj, Data.put_self, hpj]
        rfl
      · rw [hput k hkj]
        by_cases hki : k = i
        · rw [hki, hpi]
        · rw [hne k hki]
    · have hrest : ∀ y, y ≠ .slot j → SameAt q.own q'.own q.phys.mem q'.phys.mem y := hn.rest ht
      refine (hm ht).update (hrest _ (by simp)) (fun k _ hk => hrest _ (by simpa using hk)) hn₂ hk₂
        (fun k _ hkj => ?_) (fun k hkj => ?_) fun _ => ?_
      · rw [hput k hkj]
        by_cases hki : k = i
        · rw [hki, hpi]
          exact ⟨rfl, rfl, rfl⟩
        · rw [hne k hki]
          exact ⟨rfl, rfl, rfl⟩
      · refine (Data.live_put _ _ _ _ hkj).trans ?_
        unfold Data.Live
        rw [hn₂]
        by_cases hki : k = i
        · rw [hki, hpi]
        · rw [hne k hki]
      · rw [Data.put_self]
        exact (hs ht).grow (fun hl => (not_live_put (.inl rfl) hl).elim) (fun _ => False.elim)
          (Finset.Subset.refl _) (fun _ _ => rfl) ⟨rfl, rfl, rfl⟩
  · obtain rfl := Option.some.inj hk
    rw [hn.hist]
    exact (Function.update_of_ne hij ..).trans (hsec.before i rfl)
  · rw [Data.put_ne _ _ _ _ hij, hpi, hx]
  · exact hcall
  · refine ⟨j, ?_⟩
    change (eventsOf i d₂.log).head? = _
    rw [hlog, hx, eventsOf, List.filter_cons_of_pos (by simp [Event.slot]), List.head?_cons]
  · intro a y hm
    change _ ∈ d₂.log at hm
    rw [hlog] at hm
    have hm : .waited i a p y ∈ d.log := (List.mem_cons.1 hm).resolve_left (by simp)
    exact hnot y (hsec.inv.exits.return_sub _ (mem_returns hm))

theorem wp_kwaitScan (hsec : Section E (some i) b S₀ q d {.kernel})
    (hlast : ∃ addr, lastCall i d.log = some (.wait i addr)) {parent_pid : Option Nat}
    (hpid : (d.process_table i).pid = parent_pid) {Q : Bool × Option Nat × Nat → St → Prop}
    (hnone : ∀ r : Bool, (r = true ↔ ∃ j < d.nproc, (d.process_table j).parent = parent_pid) →
      (∀ j < d.nproc, (d.process_table j).parent = parent_pid →
        (d.process_table j).state ≠ .Zombie) → Q (r, none, 0) (q.on d {.kernel}))
    (hsome : ∀ p x q' d', Reaps E i b d q' d' p x → Q (true, some p, x) (q'.on d' {.kernel})) :
    ∀ n k r, k + n = d.nproc →
      (r = true ↔ ∃ j < k, (d.process_table j).parent = parent_pid) →
      (∀ j < k, (d.process_table j).parent = parent_pid → (d.process_table j).state ≠ .Zombie) →
      wp E (some i) (kwaitScan i parent_pid n k r) Q (q.on d {.kernel}) := by
  intro n
  induction n with
  | zero =>
    intro k r hk hr hz
    obtain rfl : k = d.nproc := by omega
    exact hnone r hr hz
  | succ n ih =>
    intro k r hk hr hz
    refine wp_proc ?_
    by_cases hc : (d.process_table k).parent = parent_pid
    · simp only [hc, if_true]
      refine wp_lock (by simp) (by simp) (wp_proc ?_)
      by_cases hzk : (d.process_table k).state = .Zombie
      · simp only [hzk, if_true]
        refine wp_proc (wp_proc ?_)
        exact wp_reap (f := fun _ => pure _) hsec hlast (by omega) hzk (hc.trans hpid.symm)
          fun p q' d' hp hreaps => by rw [hp]; exact hsome p _ q' d' hreaps
      · simp only [hzk, if_false]
        refine wp_release (by simp) (show _ = {LockId.kernel} by simp) (by simp) ?_
        refine ih (k + 1) true (by omega) ⟨fun _ => ⟨k, by omega, hc⟩, fun _ => rfl⟩ fun j hj hp => ?_
        rcases Nat.lt_succ_iff_lt_or_eq.1 hj with h | rfl
        · exact hz j h hp
        · exact hzk
    · simp only [hc, if_false]
      refine ih (k + 1) r (by omega) (hr.trans ⟨?_, ?_⟩) fun j hj hp => ?_
      · rintro ⟨j, hj, hp⟩
        exact ⟨j, by omega, hp⟩
      · rintro ⟨j, hj, hp⟩
        have : j ≠ k := fun he => hc (he ▸ hp)
        exact ⟨j, by omega, hp⟩
      · have : j ≠ k := fun he => hc (he ▸ hp)
        exact hz j (by omega) hp

/-- The slot with a pid that is in the table. -/
theorem wp_findPid {L : Finset LockId} {pid : Option Nat} (hin : i < d.nproc)
    (hi : (d.process_table i).pid = pid)
    (hone : ∀ j < d.nproc, (d.process_table j).pid = pid → j = i) {Q : Option Nat → St → Prop}
    (h : Q (some i) (q.on d L)) :
    ∀ n k, k + n = d.nproc → k ≤ i → wp E me (findPid pid n k) Q (q.on d L) := by
  intro n
  induction n with
  | zero =>
    intro k hk hki
    omega
  | succ n ih =>
    intro k hk hki
    refine wp_proc ?_
    by_cases hc : (d.process_table k).pid = pid
    · simp only [hc, if_true]
      rw [hone k (by omega) hc]
      exact h
    · simp only [hc, if_false]
      have : k ≠ i := fun he => hc (he ▸ hi)
      exact ih (k + 1) (by omega) (by omega)

theorem wp_kwaitLocked (hsec : Section E (some i) b S₀ q d {.kernel})
    (hlast : ∃ addr, lastCall i d.log = some (.wait i addr))
    (hdrop : (d.process_table i).dropping = false)
    {Q : Bool × Option Nat × Nat → St → Prop}
    (hkids : ∀ d', d' = { d with log := .noKids i :: d.log } →
      Section E (some i) b (q.on d' {.kernel}) q d' {.kernel} →
      Q (false, none, 0) (q.on d' {.kernel}))
    (hsome : ∀ p x q' d', Reaps E i b d q' d' p x → Q (true, some p, x) (q'.on d' {.kernel}))
    (hsleep : Inv E none (q.on (d.asleep i (d.process_table i).pid) {.proc i}) →
      Q (true, none, 0) (q.on (d.asleep i (d.process_table i).pid) {.proc i, .kernel})) :
    wp E (some i) (kwaitLocked i (d.process_table i).pid) Q (q.on d {.kernel}) := by
  obtain ⟨hin, hrun⟩ : i < d.nproc ∧ (d.process_table i).state = .Running :=
    hsec.inv.table.run_running
  have hne : (d.process_table i).pid ≠ none := fun hn => by
    have := (hsec.inv.table.unused i hin).2 hn
    have := hrun.symm.trans this
    cases this
  unfold kwaitLocked
  refine wp_get ?_
  rw [wp_bind]
  refine wp_kwaitScan hsec hlast rfl (fun r hr hz => ?_) (fun p x q' d' h => ?_) _ _ _
    (Nat.zero_add _) (by simp) (by simp)
  · cases r with
    | false =>
      simp only [Bool.false_eq_true, and_false, if_false, not_false_eq_true, if_true]
      have hno : ∀ j < d.nproc, (d.process_table j).parent ≠ (d.process_table i).pid :=
        fun j hj hp => by
          have := hr.2 ⟨j, hj, hp⟩
          cases this
      refine wp_note ⟨rfl, hno, hdrop⟩ (fun k hk => .inl hk) fun _ => ?_
      refine hkids _ rfl ⟨hsec.prev, hsec.current, hsec.stvec, ?_, fun _ _ => .refl .., hsec.before,
        fun _ => ⟨rfl, rfl⟩⟩
      exact hsec.inv.onLog (hsec.inv.exits.note (.inr ⟨i, 0, .inr (.inr (.inr rfl))⟩) fun p x => by simp)
    | true =>
      simp only [and_self, if_true]
      refine wp_get ?_
      rw [wp_bind]
      refine wp_findPid hin rfl (fun j hj hp => ?_) ?_ _ _ (Nat.zero_add _) (Nat.zero_le _)
      · exact hsec.inv.table.distinct j hj i hin (fun hn => hne (hp.symm.trans hn)) hp
      refine wp_lock (by simp) (by simp) ?_
      refine wp_setProc (.own ⟨rfl, rfl, rfl, rfl, rfl, rfl, rfl, fun _ => rfl⟩) (.inl rfl) ?_
      refine wp_setProc (.turn ?_ ?_ rfl rfl ⟨rfl, rfl, rfl⟩ rfl) (.inr (by simp)) ?_
      · rw [Data.updProc_self]
        exact hrun
      · exact ⟨hsec.current, hlast⟩
      refine hsleep ?_
      rw [Data.asleep, Data.updProc_updProc]
      exact Inv.rests (f := fun p => { p with
        sleep_channel := (d.process_table i).pid, state := .Sleeping }) (hsec.inv.on {.proc i})
        ⟨.inr ⟨rfl, rfl, hr.1 rfl, hz⟩, rfl, rfl, rfl, ⟨rfl, rfl, rfl⟩, rfl⟩
  · simp only [reduceCtorEq, false_and, if_false, not_true_eq_false]
    exact hsome p x q' d' h

theorem wp_kwaitRound {addr : Nat} {Q : Option Int → St → Prop}
    (h : Calm E (some i) b S₀ S) (hw : Waits i addr S₀) (hlt : addr < USIZE)
    (haddr : E.track → AddrOk addr)
    (k : ∀ S', Calm E (some i) b S' S' → Waits i addr S' → Q none S')
    (kret : ∀ r S', Calm E (some i) b S' S' → Plain i S' → Q (some r) S') :
    wp E (some i) (kwaitRound i addr) Q S := by
  unfold kwaitRound
  refine wp_proc_calm h fun S₁ h₁ => ?_
  refine wp_lock_calm h₁.rebase fun q d hsec => ?_
  have hpid : (S₁.proc i).pid = (d.process_table i).pid := (hsec.kept i rfl).thread.pid.symm
  have hwd := (hw.kept (h₁.kept i rfl)).kept (hsec.kept i rfl)
  have hcall : lastCall i d.log = some (.wait i addr) := hwd.call
  rw [hpid, wp_bind]
  refine wp_kwaitLocked hsec ⟨addr, hcall⟩ hwd.dropping (fun d' hd' hsec' => ?_) (fun p x q' d' hr => ?_)
    fun hinv => ?_
  · -- no child
    refine wp_release_calm hsec' fun S₂ hS₂ _ _ h₂ => ?_
    simp only [Bool.false_eq_true, if_false]
    have hp' : Plain i (q.on d' {.kernel}) := by
      subst hd'
      exact ⟨hwd.dropping, hwd.reaped⟩
    exact wp_heapUse_calm (f := fun _ => pure _) h₂ fun S₃ h₃ =>
      kret _ _ h₃.rebase (hp'.kept (h₃.kept i rfl))
  · -- a zombie
    refine wp_release_calm hr.sec fun S₂ hS₂ _ _ h₂ => ?_
    dsimp only
    have hd₂ : (q'.on d' {.kernel}).proc i = { d.process_table i with reaped := some (p, x) } := hr.proc
    have hdrop : (S₂.proc i).dropping = false := by
      rw [(h₂.kept i rfl).thread.dropping, hd₂]
      exact hwd.dropping
    have hreap : (S₂.proc i).reaped = some (p, x) := by
      rw [(h₂.kept i rfl).thread.reaped, hd₂]
    have hfresh : ∀ a y, .waited i a p y ∉ S₂.data.log := by
      rw [hS₂]
      exact hr.fresh
    have hrest : ∀ S', Kin i S₂ S' → Calm E (some i) b S' S' →
        (E.track → addr ≠ 0 → Holds i addr (leBytes x) S') → wp E (some i) (do
        note (.waited i addr p x)
        setProc i fun p => { p with reaped := none }
        return some (asI32 p)) Q S' := by
      intro S' hk' h' hhold
      have hin : i < S'.data.nproc := h'.settled.inv.table.run_lt i rfl
      have hreap' : (S'.proc i).reaped = some (p, x) := hk'.thread.reaped.trans hreap
      have hdrop' : (S'.proc i).dropping = false := hk'.thread.dropping.trans hdrop
      have hsub := (h'.settled.inv.exits.pending i hin p x hreap').1
      refine wp_note_calm h' rfl (fun S₃ h₃ => ?_) fun S₃ S₄ _ h₃ hS₄ h₄ => ?_
      · have hu := h₃.kept i rfl
        have hreap₃ := hu.thread.reaped.trans hreap'
        have hin₃ : i < S₃.data.nproc := h₃.settled.inv.table.run_lt i rfl
        have hx := h₃.settled.inv.exits
        have hnone : ∀ a y, .waited i a p y ∉ S₃.data.log := by
          intro a y hm
          refine hfresh a y ?_
          have hm' : Event.waited i a p y ∈ eventsOf i S₃.data.log :=
            List.mem_filter.2 ⟨hm, by simp [Event.slot]⟩
          rw [hu.events, hk'.events] at hm'
          exact (List.mem_filter.1 hm').1
        refine ⟨⟨rfl, hreap₃, hx.gone (hx.pending i hin₃ p x hreap₃).1, ?_,
          (hx.pending i hin₃ p x hreap₃).1, fun y hy => ?_, fun ht h0 => ?_,
          hu.thread.dropping.trans hdrop'⟩, fun _ => hx.returned hin₃ hreap₃ hnone⟩
        · obtain ⟨j, hj⟩ := hr.reap
          refine ⟨j, ?_⟩
          rw [hu.events, hk'.events, hS₂]
          exact hj
        · obtain ⟨a, ha⟩ := (hx.pending i hin₃ p x hreap₃).2 y hy
          exact hnone a y ha
        · obtain ⟨e, pa, hwalk, hbytes⟩ := (hhold ht h0).kept h' hdrop' hu ht
          exact ⟨e, pa, hwalk, word_of_leBytes fun j hj => (hbytes j hj).2⟩
      have hp₄ : S₄.proc i = S₃.proc i := by
        rw [hS₄]
        rfl
      have hdrop₄ : (S₄.proc i).dropping = false := by
        rw [hp₄, (h₃.kept i rfl).thread.dropping]
        exact hdrop'
      refine wp_setProc_calm (f := fun _ => pure _) h₄ (fun S₅ h₅ => ⟨?_, rfl,
        h₅.settled.inv.cleared i⟩) fun S₅ S₆ h₅ hS₆ h₆ => kret _ _ h₆ ?_
      · have ha : S₅.data.Assigns (some i) S₅.hist i { S₅.data.process_table i with reaped := none } :=
          .own ⟨rfl, rfl, rfl, rfl, rfl, rfl, rfl, fun _ => rfl⟩
        exact Data.Assigns.legal (g := fun p => { p with reaped := none }) ha
      · have hp₆ : S₆.proc i = { S₅.proc i with reaped := none } := by
          rw [hS₆]
          exact Data.updProc_self S₅.data i fun p => { p with reaped := none }
        refine ⟨?_, by rw [hp₆]⟩
        rw [hp₆]
        exact (h₅.kept i rfl).thread.dropping.trans hdrop₄
    by_cases h0 : addr = 0
    · simp only [h0, ne_eq, not_true_eq_false, if_false]
      exact h0 ▸ hrest S₂ ⟨rfl, .refl _, rfl⟩ h₂.rebase fun _ h => (h h0).elim
    · simp only [h0, ne_eq, not_false_eq_true, if_true]
      refine wp_proc_frame h₂.rebase fun S₃ h₃ hf₃ => ?_
      have hk₃ := (h₃.kept i rfl).kin
      have hfit : E.track → addr % PAGESIZE + (leBytes x).length ≤ PAGESIZE := fun ht =>
        (haddr ht).resolve_left h0
      refine wp_copyOut_calm h₃.rebase (hk₃.thread.dropping.trans hdrop) hf₃ (by simp [leBytes])
        (fun _ => hlt) hfit fun r S₄ hk₄ h₄ hr => ?_
      refine wp_unwrapOk Calm.steady h₄ fun u hu => hrest S₄ (hk₃.trans hk₄) h₄ fun ht _ => hr ?_ ht
      exact hu
  · -- to sleep
    have he : (insert (LockId.proc i) {LockId.kernel} : Finset LockId).erase .kernel = {.proc i} := by
      rw [Finset.erase_insert_of_ne (by simp), Finset.erase_singleton]
      rfl
    refine wp_release (by simp) he (by simp) ?_
    simp only [if_true]
    rw [wp_bind]
    have hp' : (d.asleep i (d.process_table i).pid).process_table i = { d.process_table i with
        sleep_channel := (d.process_table i).pid, state := .Sleeping } := by
      rw [Data.asleep, Data.updProc_updProc, Data.updProc_self]
    have hw' : Waits i addr (q.on (d.asleep i (d.process_table i).pid) {.proc i}) :=
      Waits.updProc (Waits.updProc (L := {.proc i}) hwd (fun _ => rfl) fun _ => rfl) (fun _ => rfl)
        fun _ => rfl
    refine wp_sched ⟨rfl, rfl, rfl, rfl, hsec.current, hsec.stvec, hinv⟩ ?_ fun _ q₃ d₃ hp hm hh => ?_
    · rw [hp']
      simp
    have hb : q₃.hist.before i = some b := hm.before.trans (hsec.before i rfl)
    have hsec₃ := Section.resumed hh (hp.trans hsec.prev) hb
    refine wp_setProc (.own ⟨rfl, rfl, rfl, rfl, rfl, rfl, rfl, fun _ => rfl⟩) (.inl rfl) ?_
    have hw₃ : Waits i addr
        (q₃.on (d₃.updProc i fun p => { p with sleep_channel := none }) {.proc i}) :=
      (hw'.kept hm.1).updProc (fun _ => rfl) fun _ => rfl
    have hsec₄ : Section E (some i) b
        (q₃.on (d₃.updProc i fun p => { p with sleep_channel := none }) {.proc i}) q₃
        (d₃.updProc i fun p => { p with sleep_channel := none }) {.proc i} :=
      ⟨hsec₃.prev, hsec₃.current, hsec₃.stvec, hsec₃.inv.channel none, fun _ _ => .refl ..,
        hsec₃.before, fun _ => ⟨rfl, rfl⟩⟩
    exact wp_release_calm (f := fun _ => pure _) hsec₄ fun S₅ _ _ _ h₅ =>
      k _ h₅.rebase (hw₃.kept (h₅.kept i rfl))

end K

end BareMetal
