import BareMetal.Kernel.Proof.Load
import BareMetal.Kernel.Proof.Slot

/-!
# Fork

`kfork` puts a new process into a slot that is not used (`wp_kfork`). Where it fails after it has
taken the slot, the state is one from which the caller can only panic.
-/

namespace BareMetal

open Lib

variable {E : Env} {me : Option Nat} {b : Bool} {S₀ S : St}

/-- A process in slot `j` that is ready to run. -/
theorem Inv.fork {q q' : Quiet} {d : Data} {L : Finset LockId} {i j : Nat} {p : Process}
    (hi : Inv E (some i) (q.on d L)) (hj : j < d.nproc) (hu : (d.process_table j).state = .Unused)
    (hs : p.state = .Runnable) (hp : p.pid = some d.pid)
    (hpar : p.parent = (d.process_table i).pid) (hq : p.quants = (d.process_table j).quants)
    (hr : p.reaped = (d.process_table j).reaped) (hh : q'.hist = q.hist)
    (hm : E.track → MemInv E.cfg q'.own q'.phys.mem (d.put j p (d.pid + 1))) :
    Inv E (some i) (q'.on (d.put j p (d.pid + 1)) L) := by
  have hb := d.becomes_put j p (d.pid + 1)
  refine ⟨hi.table.fork hb hj hu hs hp hpar, hi.exits.fork hb rfl hj hu hs hp fun k _ => ?_,
    fun k hk => ?_, fun k hk hku => ?_, hm⟩
  · show ((d.put j p (d.pid + 1)).process_table k).reaped = (d.process_table k).reaped
    by_cases hkj : k = j
    · rw [hkj, Data.put_self, hr]
    · rw [Data.put_ne _ _ _ _ hkj]
  · have hc : (d.process_table k).quants = q.hist.dispatched k := hi.counted k hk
    show ((d.put j p (d.pid + 1)).process_table k).quants = q'.hist.dispatched k
    rw [hh, ← hc]
    by_cases hkj : k = j
    · rw [hkj, Data.put_self, hq]
    · rw [Data.put_ne _ _ _ _ hkj]
  · change ((d.put j p (d.pid + 1)).process_table k).state = _ at hku
    by_cases hkj : k = j
    · rw [hkj, Data.put_self, hs] at hku
      cases hku
    · rw [Data.put_ne _ _ _ _ hkj] at hku
      have : q.hist.before k = none := hi.fresh k hk hku
      show q'.hist.before k = none
      rw [hh]
      exact this

/-- A critical section that has put a process into slot `j`. -/
theorem Section.put {q q' : Quiet} {d : Data} {L L' : Finset LockId} {i j pid : Nat} {p : Process}
    (h : Section E (some i) b S₀ q d L) (hp : q'.prev = q.prev) (hh : q'.hist = q.hist)
    (hi : Inv E (some i) (q'.on (d.put j p pid) L')) :
    Section E (some i) b (q'.on (d.put j p pid) L') q' (d.put j p pid) L' := by
  refine ⟨hp.trans h.prev, h.current, h.stvec, hi, fun k _ => .refl k _, fun k hk => ?_,
    fun _ => ⟨rfl, rfl⟩⟩
  rw [hh]
  exact h.before k hk

/-- `p₀`, which was not used, is being built into the process `p` with the pid `pid`. -/
structure Process.Built (p₀ p : Process) (pid : Nat) : Prop where
  state : p.state = .Used
  pid : p.pid = some pid
  context : ∃ sp, p.context = .forkret sp
  quants : p.quants = p₀.quants
  unboxing : p.unboxing = false
  reaped : p.reaped = p₀.reaped

/-- A state in which the kernel can only go on to panic. -/
def Stuck (E : Env) (me : Option Nat) (S : St) : Prop := ∃ P, Steady E me P ∧ P S

theorem Quiet.Uses.stuck {q : Quiet} {d : Data} {L : Finset LockId} (h : Quiet.Uses me q.hist d L) :
    Stuck E me (q.on d L) := ⟨_, h.steady, q.like d L⟩

namespace K

variable {α : Type}

theorem wp_unwrapOk_stuck {x : Except Unit α} (hx : x = .error ()) (h : Stuck E me S) {β : Type}
    {f : α → K β} {Q : β → St → Prop} : wp E me (unwrapOk x >>= f) Q S := by
  obtain ⟨P, hP, h⟩ := h
  subst hx
  rw [wp_bind]
  exact wp_panic hP h (by simp [Forbidden])

/-- A copy of the address space of process `i`, beside the one that slot `j` has. -/
theorem wp_clone_quiet {q : Quiet} {d : Data} {L : Finset LockId} {i j : Nat} {p p' : Process}
    {live : Prop} (hij : i ≠ j) (hu : Quiet.Uses (some i) q.hist d L) (hj : ¬ d.Live j)
    (how : E.track → Owned E.cfg q.own q.phys.free)
    (hi : E.track → SlotMem E.cfg (q.own (.slot i)) q.phys.mem p live) (hd : p.dropping = false)
    (hm : E.track → SlotMem E.cfg (q.own (.slot j)) q.phys.mem p' False)
    {f : Uvm → K α} {Q : α → St → Prop} (k : ∀ u B (q' : Quiet), q.Only E (.slot j) L q' →
      (E.track → SlotMem.Two E.cfg (q'.own (.slot j)) q'.phys.mem p' u B False) →
      wp E (some i) (f u) Q (q'.on d L)) :
    wp E (some i) (lift p.pagetable.clone >>= f) Q (q.on d L) := by
  have hxy : Party.slot i ≠ .slot j := fun h => hij (Party.slot.inj h)
  have hA : (q.own (.slot i)).erase p.trapframe ⊆ q.own (.slot i) := Finset.erase_subset _ _
  have hy : E.track → ∀ f ∈ q.own (.slot j), f ∉ (q.own (.slot i)).erase p.trapframe :=
    fun ht f hf hfA => hxy ((how ht).disj _ _ f (hA hfA) hf)
  refine wp_lift_quiet (l := .pair (.slot i) (.slot j) ((q.own (.slot i)).erase p.trapframe) q.own
    q.phys.mem) hu (fun k hk hl => ⟨fun hp => ?_, fun hp => ?_⟩) (fun ht => Lease.pair_has hxy hA (hy ht))
    (R := fun u v => ∃ w tab tab' fr, w = View.mk ((q.own (.slot i)).erase p.trapframe) q.phys.mem ∧
      Copied E.cfg w v p.pagetable tab u tab' fr) (fun ht => ?_) fun u v q₁ hw hc => ?_
  · rcases hp with he | he
    · exact hk (congrArg some (Party.slot.inj he))
    · exact hj (Party.slot.inj he ▸ hl)
  · exact hp.elim Party.noConfusion Party.noConfusion
  · obtain ⟨tab, hsp, -⟩ := (hi ht).space hd
    exact wp_clone_space id hsp (fun _ _ _ => trivial) (fun _ => trivial) (fun _ _ _ => trivial)
      fun u v tab' fr hc _ _ => ⟨_, tab, tab', fr, rfl, hc⟩
  · have hkept : E.track → (q.own (.slot i)).erase p.trapframe ⊆ v.own ∧
        ∀ a, pageOf a ∈ (q.own (.slot i)).erase p.trapframe → v.mem a = q.phys.mem a := fun ht => by
      obtain ⟨w, tab, tab', fr, rfl, hc⟩ := hc ht
      exact ⟨hc.sub, hc.mem⟩
    have hdid := fun ht =>
      Lease.pair_did hxy hA (hy ht) (hw.mem ht) (hkept ht).1 (hkept ht).2
    refine k u (v.own \ (q.own (.slot i)).erase p.trapframe) q₁
      ⟨hw.hist, hw.timer, hw.prev, fun ht => (hdid ht).1⟩ fun ht => ?_
    obtain ⟨-, ho, hb, hk⟩ := hdid ht
    obtain ⟨w, tab, tab', fr, rfl, hc⟩ := hc ht
    refine (hm ht).beside ho hb hk ⟨tab', ?_, False.elim⟩
    have hsp := hc.space
    rw [(hw.mem ht).whole rfl] at hsp
    exact hsp

/-- `init_proc` of the address space beside the one that slot `j` has. -/
theorem wp_initProc_quiet {q : Quiet} {d : Data} {L : Finset LockId} {j : Nat} {p : Process}
    {u : Uvm} {B : Finset Nat} (hu : Quiet.Uses me q.hist d L) (hj : some j = me ∨ ¬ d.Live j)
    (hf : E.track → E.cfg.IsFrame p.trapframe)
    (hm : E.track → SlotMem.Two E.cfg (q.own (.slot j)) q.phys.mem p u B False)
    {f : Except Unit Unit → K α} {Q : α → St → Prop} (k : ∀ r B (q' : Quiet),
      q.Only E (.slot j) L q' → (E.track → SlotMem.Two E.cfg (q'.own (.slot j)) q'.phys.mem p u B
        (r = .ok ())) → wp E me (f r) Q (q'.on d L)) :
    wp E me (lift (u.initProc E.cfg p.trapframe) >>= f) Q (q.on d L) := by
  refine wp_lift_quiet hu (.slot hj) (fun ht => Lease.one_split (hm ht).sub)
    (R := fun r v => ∃ tab, Space E.cfg v u tab ∧
      (r = .ok () → Vectors E.cfg v.mem tab p.trapframe)) (fun ht => ?_) fun r v q₁ hw hr => ?_
  · obtain ⟨tab, hsp, -⟩ := (hm ht).new
    refine wp_initProc_private id (.of_space hsp) (hf ht) (fun v' tab' _ _ hpr he => ?_)
      fun v' tab' _ _ hpr _ _ => ⟨tab', hpr.space, fun h => (by cases h)⟩
    refine ⟨tab', hpr.space, fun _ => ?_⟩
    obtain ⟨h1, h2⟩ := procMap_high E.cfg p.trapframe (pte q.phys.mem tab)
    exact ⟨(congrFun he _).trans h1, (congrFun he _).trans h2⟩
  · refine k r v.own q₁ hw.only fun ht => ?_
    obtain ⟨ho, hb, -, hk⟩ := Lease.one_has.1 (hw.mem ht).has
    refine (hm ht).old.beside ho hb hk ?_
    obtain ⟨tab, hsp, hv⟩ := hr ht
    have he : v = ⟨v.own, q₁.phys.mem⟩ := congrArg (View.mk v.own) ((hw.mem ht).whole rfl)
    rw [he] at hsp hv
    exact ⟨tab, hsp, hv⟩

/-- The address space beside the one that slot `j` has is dropped. -/
theorem wp_drop_quiet {q : Quiet} {d : Data} {L : Finset LockId} {j : Nat} {p : Process}
    {u : Uvm} {B : Finset Nat} {live : Prop} (hu : Quiet.Uses me q.hist d L)
    (hj : some j = me ∨ ¬ d.Live j)
    (hm : E.track → SlotMem.Two E.cfg (q.own (.slot j)) q.phys.mem p u B live)
    {f : Unit → K α} {Q : α → St → Prop}
    (k : ∀ q' : Quiet, q.Only E (.slot j) L q' → wp E me (f ()) Q (q'.on d L)) :
    wp E me (lift u.drop >>= f) Q (q.on d L) := by
  refine wp_lift_quiet hu (.slot hj) (fun ht => Lease.one_split (hm ht).sub) (R := fun _ _ => True)
    (fun ht => ?_) fun _ v q₁ hw _ => k q₁ hw.only
  obtain ⟨tab, hsp, -⟩ := (hm ht).new
  exact wp_drop id hsp (fun _ _ => trivial) fun _ _ _ _ => trivial

theorem wp_kfork {i : Nat} {Q : Except Unit Nat → St → Prop} (h : Calm E (some i) b S₀ S)
    (hdrop : (S₀.proc i).dropping = false)
    (k : ∀ pid S', Kin i S₀ S' → Calm E (some i) b S' S' → Q (.ok pid) S')
    (kerr : ∀ S', Stuck E (some i) S' → Q (.error ()) S') :
    wp E (some i) (kfork E.cfg i) Q S := by
  unfold kfork
  refine wp_lock_calm h fun q d hsec => ?_
  obtain ⟨hin, hrun⟩ : i < d.nproc ∧ (d.process_table i).state = .Running :=
    hsec.inv.table.run_running
  have hdrop : (d.process_table i).dropping = false :=
    (hsec.kept i rfl).thread.dropping.trans hdrop
  have hm : E.track → MemInv E.cfg q.own q.phys.mem d := hsec.inv.mem
  rw [wp_bind]
  unfold kforkLocked
  rw [wp_bind]
  refine wp_allocproc (by simp) (by simp) (by simp) hm ?_ fun j tf sp q₁ hj hu hn₁ hs₁ => ?_
  · -- no slot is free
    exact wp_release_calm (f := fun _ => pure _) hsec fun S' _ _ _ h' => kerr S' ⟨_, Calm.steady, h'⟩
  have hij : i ≠ j := by
    rintro rfl
    rw [hrun] at hu
    cases hu
  have hR : ∀ (q : Quiet) d, Quiet.Uses (some i) q.hist d (insert (.proc j) {.kernel}) :=
    fun q d => .of_held (by simp) (by simp)
  have hb : (d.process_table j).Built ((d.process_table j).alloc d.pid tf sp) d.pid :=
    ⟨rfl, rfl, ⟨sp, rfl⟩, rfl, rfl, rfl⟩
  have hself : ∀ (q' : Quiet) L, q.Only E (.slot j) L q' → E.track →
      SlotMem E.cfg (q'.own (.slot i)) q'.phys.mem (d.process_table i) (d.Live i) :=
    fun q' L hn ht => ((hm ht).slot i hin).sameAt (hn.rest ht _ fun h => hij (Party.slot.inj h))
  generalize (d.process_table j).alloc d.pid tf sp = p₁ at hb hs₁ ⊢
  have hproc : ∀ p, (d.put j p (d.pid + 1)).process_table i = d.process_table i := fun p =>
    Data.put_ne _ _ _ _ hij
  have hn₁ : q.Only E (.slot j) (insert (.proc j) {.kernel}) q₁ :=
    ⟨hn₁.hist, hn₁.timer, fun _ => hn₁.prev (by simp), hn₁.rest⟩
  -- the child's trapframe
  refine wp_proc_owned fun how₁ => ?_
  rw [hproc, wp_bind]
  refine wp_replaceTrapframe (hR _) (.inr hb.state) hs₁ (fun ht => wp_cloneIn ?_ fun _ => trivial)
    fun tf₂ q₂ hn₂ hs₂ => wp_proc_owned fun how₂ => ?_
  · exact (how₁ ht).frame _ _ (hself _ _ hn₁ ht).trapframe
  have hn₂ := hn₁.trans hn₂
  have hb₂ : (d.process_table j).Built { p₁ with trapframe := tf₂, unboxing := false } d.pid :=
    ⟨hb.state, hb.pid, hb.context, hb.quants, rfl, hb.reaped⟩
  have hf₂ : E.track → E.cfg.IsFrame ({ p₁ with trapframe := tf₂, unboxing := false } : Process).trapframe :=
    fun ht => (hs₂ ht).1
  replace hs₂ := fun ht => (hs₂ ht).2
  generalize ({ p₁ with trapframe := tf₂, unboxing := false } : Process) = p₂ at hb₂ hs₂ hf₂ ⊢
  have hdead : ¬ (d.put j p₂ (d.pid + 1)).Live j := not_live_put (.inr hb₂.state)
  -- its address space
  rw [hproc]
  refine wp_clone_quiet hij (hR _ _) hdead how₂ (hself _ _ hn₂) hdrop hs₂
    fun uvm B q₃ hn₃ hs₃ => wp_proc ?_
  have hn₃ := hn₂.trans hn₃
  rw [Data.put_self]
  refine wp_initProc_quiet (hR _ _) (.inr hdead) hf₂ hs₃ fun r B₄ q₄ hn₄ hs₄ => ?_
  have hn₄ := hn₃.trans hn₄
  have hL : (insert (LockId.proc j) {LockId.kernel} : Finset LockId).erase .kernel = {.proc j} := by
    rw [Finset.erase_insert_of_ne (by simp), Finset.erase_singleton]
    rfl
  cases r with
  | error e =>
    refine wp_drop_quiet (hR _ _) (.inr hdead) hs₄ fun q₅ hn₅ => ?_
    refine wp_release (f := pure) (by simp) hL (by simp) (kerr _ ?_)
    exact Quiet.Uses.stuck (.of_held (by simp) (by simp))
  | ok e =>
    rw [wp_bind]
    refine wp_replacePagetable (hR _) (.inr hb₂.state) hs₄ fun q₅ hn₅ hs₅ =>
      wp_proc_owned fun how₅ => ?_
    have hn₅ := hn₄.trans hn₅
    have hb₃ : (d.process_table j).Built { p₂ with pagetable := uvm, dropping := false } d.pid :=
      ⟨hb₂.state, hb₂.pid, hb₂.context, hb₂.quants, hb₂.unboxing, hb₂.reaped⟩
    have hf₃ : E.track → E.cfg.IsFrame
        ({ p₂ with pagetable := uvm, dropping := false } : Process).trapframe := hf₂
    have hdrop₃ : ({ p₂ with pagetable := uvm, dropping := false } : Process).dropping = false := rfl
    generalize ({ p₂ with pagetable := uvm, dropping := false } : Process) = p₃
      at hs₅ hb₃ hf₃ hdrop₃ ⊢
    have hdead₃ : ¬ (d.put j p₃ (d.pid + 1)).Live j := not_live_put (.inr hb₃.state)
    have hoff : Trapframe.a0 + 4 ≤ PAGESIZE := by
      rw [PAGESIZE_eq]
      decide
    -- return 0 in child, and its pid in parent
    rw [Data.put_self]
    refine wp_box_quiet (x := .slot j) (hR _ _) (fun _ _ => .slot (.inr hdead₃))
      (fun ht => (hs₅ ht).trapframe) (fun ht => wp_write_field id (hf₃ ht).page hoff rfl)
      fun _ q₆ hn₆ hw₆ => wp_proc ?_
    have hn₆ := hn₅.trans hn₆
    rw [Data.put_self]
    refine wp_unwrap (hR _ _).steady (q₆.like _ _) fun pid hpid => wp_proc_owned fun how₆ => ?_
    rw [hproc]
    have hs₆ : E.track → SlotMem E.cfg (q₆.own (.slot j)) q₆.phys.mem p₃ True := fun ht => by
      rw [(hw₆ ht).1]
      exact ((hs₅ ht).grow (fun _ => rfl) (fun _ _ => trivial) (Finset.Subset.refl _)
        (fun _ _ => rfl) ⟨rfl, rfl, rfl⟩).poke (hw₆ ht).2
    have hself₆ := hself _ _ hn₆
    refine wp_box_quiet (x := .slot i) (hR _ _) (fun _ _ => .slot (.inl rfl))
      (fun ht => (hself₆ ht).trapframe)
      (fun ht => wp_write_field id ((how₆ ht).frame _ _ (hself₆ ht).trapframe).page hoff rfl)
      fun _ q₇ hn₇ hw₇ => ?_
    have hmem : ∀ p, p₃.SameMem p → p.state = .Runnable → E.track →
        MemInv E.cfg q₇.own q₇.phys.mem (d.put j p (d.pid + 1)) := fun p hp hst ht => by
      have hrest : ∀ y, y ≠ .slot j → SameAt q.own q₆.own q.phys.mem q₆.phys.mem y := hn₆.rest ht
      have hlive : (d.put j p (d.pid + 1)).Live j := ⟨hj, by rw [Data.put_self]; exact .inl hst⟩
      have h₆ : MemInv E.cfg q₆.own q₆.phys.mem (d.put j p (d.pid + 1)) := by
        refine (hm ht).update (hrest _ (by simp)) (fun k _ hk => hrest _ (by simpa using hk)) rfl rfl
          (fun k _ hk => ?_) (fun k hk => Data.live_put _ _ _ _ hk) fun _ => ?_
        · rw [Data.put_ne _ _ _ _ hk]
          exact ⟨rfl, rfl, rfl⟩
        · rw [Data.put_self]
          exact (hs₆ ht).grow (fun _ => trivial) (fun _ _ => hlive) (Finset.Subset.refl _)
            (fun _ _ => rfl) hp
      rw [(hw₇ ht).1]
      refine h₆.put (i := i) (f := (d.process_table i).trapframe) ?_ (fun x hx => ?_) (hw₇ ht).2
      rotate_left
      · have hrest := hn₇.rest ht x hx
        rw [(hw₇ ht).1] at hrest
        exact hrest
      rw [Data.put_ne _ _ _ _ hij]
      exact ((hself₆ ht).grow (fun _ => ⟨hin, .inr (.inl hrun)⟩) (fun _ _ => trivial)
        (Finset.Subset.refl _) (fun _ _ => rfl) ⟨rfl, rfl, rfl⟩).loose
    refine wp_release (by simp) (show _ = {LockId.kernel} by simp) (by simp) (wp_proc ?_)
    rw [Data.put_ne _ _ _ _ hij]
    refine wp_setProc_idle (.inr hb₃.state) rfl rfl (.inl rfl) ?_
    refine wp_lock (by simp) (by simp) ?_
    have hhist : q₇.hist = q.hist := hn₇.hist.trans hn₆.hist
    have hbefore : q₇.hist.before j = none := by
      rw [hhist]
      exact hsec.inv.fresh j hj hu
    have hreap : (d.process_table j).reaped = none := by
      by_contra hne
      have hl := (hsec.inv.exits.waiting j hj hne).2
      rw [show ((q.on d {LockId.kernel}).data.process_table j).state = .Unused from hu] at hl
      simp at hl
    -- it is ready
    refine wp_setProc_put (.ready ?_ rfl ?_ ?_ ?_ hb₃.unboxing) (.inr (by simp)) ?_
    · rw [Data.put_self]
      exact hb₃.state
    · rw [Data.put_self]
    · rw [Data.put_self]
    · exact ⟨hb₃.context, hdrop₃, hb₃.reaped.trans hreap, hbefore⟩
    have hmem₄ := hmem { p₃ with parent := (d.process_table i).pid, state := .Runnable }
      ⟨rfl, rfl, rfl⟩ rfl
    have hinv : Inv E (some i) (q₇.on (d.put j
        { p₃ with parent := (d.process_table i).pid, state := .Runnable } (d.pid + 1)) {.kernel}) :=
      hsec.inv.fork hj hu rfl hb₃.pid rfl hb₃.quants hb₃.reaped hhist hmem₄
    dsimp only at hinv ⊢
    generalize hp₄ : ({ p₃ with parent := (d.process_table i).pid, state := .Runnable } : Process) = p₄
      at hinv ⊢
    have hpid : p₄.pid = some d.pid := by
      rw [← hp₄]
      exact hb₃.pid
    have hsec₇ := hsec.put ((hn₇.prev (by simp)).trans (hn₆.prev (by simp))) hhist hinv
    have hkin : Kin i S₀ (q₇.on (d.put j p₄ (d.pid + 1)) {.kernel}) := by
      refine (hsec.kept i rfl).kin.trans ⟨rfl, ?_, rfl⟩
      show (d.process_table i).SameThread ((d.put j p₄ (d.pid + 1)).process_table i)
      rw [Data.put_ne _ _ _ _ hij]
      exact .refl _
    refine wp_release (by simp) (show _ = {LockId.kernel} by simp) (by simp) (wp_proc ?_)
    rw [Data.put_self, hpid]
    refine wp_release_calm (f := fun _ => pure _) hsec₇ fun S' _ _ _ h' => k _ S' ?_ h'.rebase
    exact hkin.trans (h'.kept i rfl).kin

end K

end BareMetal
