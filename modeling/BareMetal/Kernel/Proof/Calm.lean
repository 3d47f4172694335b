import BareMetal.Kernel.Proof.Quiet

/-!
# Code with no lock held

`Calm E me b S₀ S`: a thread that holds no lock, with interrupts on or off (`b`). Other threads may
have run since `S₀`; what belongs to the thread is as it was. `wp_lock_calm` and `wp_release_calm`
lead into and out of a critical section (`Section`).
-/

namespace BareMetal

open Lib

variable {E : Env} {me : Option Nat} {b : Bool} {S₀ S : St}

structure Calm (E : Env) (me : Option Nat) (b : Bool) (S₀ S : St) : Prop where
  umode : S.locks.umode = false
  sie : S.locks.sie = b
  locks : S.locks.Inv
  settled : Settled E me S
  kept : ∀ i, me = some i → Untouched E i S₀ S
  still : b = false → S.data.csr = S₀.data.csr ∧ S.sys.timer = S₀.sys.timer

/-- A critical section that was entered with the interrupt bit `b`. -/
structure Section (E : Env) (me : Option Nat) (b : Bool) (S₀ : St) (q : Quiet) (d : Data)
    (L : Finset LockId) : Prop where
  prev : q.prev = b
  current : d.current = me
  stvec : d.csr.stvec = .kernelvec
  inv : Inv E me (q.on d L)
  kept : ∀ i, me = some i → Untouched E i S₀ (q.on d L)
  before : ∀ i, me = some i → q.hist.before i = some b
  still : b = false → d.csr = S₀.data.csr ∧ q.timer = S₀.sys.timer

namespace Calm

theorem refl (hu : S.locks.umode = false) (hs : S.locks.sie = b) (hl : S.locks.Inv)
    (hc : Settled E me S) : Calm E me b S S :=
  ⟨hu, hs, hl, hc, fun i _ => .refl i S, fun _ => ⟨rfl, rfl⟩⟩

theorem rebase (h : Calm E me b S₀ S) : Calm E me b S S := refl h.umode h.sie h.locks h.settled

theorem drift {S' : St} (h : Calm E me b S₀ S) (hd : Drift E me S S') (hl : S'.locks.Inv) :
    Calm E me b S₀ S' := by
  rcases hd with ⟨-, rfl⟩ | ⟨hs, hs', hu, hc, hm⟩
  · exact h
  · have hb : b = true := h.sie.symm.trans hs
    refine ⟨hu, hs'.trans hb.symm, hl, hc, fun i hi => (h.kept i hi).trans (hm i hi).1, fun h0 => ?_⟩
    rw [hb] at h0
    cases h0

theorem idles {S' : St} (h : Calm E me b S₀ S) (hi : S.Idles E S') : Calm E me b S₀ S' where
  umode := hi.umode.trans h.umode
  sie := hi.sie.trans h.sie
  locks := h.locks.of_held hi.stack hi.held fun hn => (hn (hi.held.trans h.settled.held)).elim
  settled := h.settled.idles hi
  kept i hme := by
    have hm : ∀ p, E.track → SamePart S S' p := fun p ht => by
      obtain ⟨h1, h2⟩ := hi.mem ht
      unfold SamePart St.mem
      rw [h1, h2]
      exact .refl ..
    refine (h.kept i hme).trans ⟨by rw [hi.data], ?_, by rw [hi.data], hm _, hm _⟩
    show (S.data.process_table i).SameThread (S'.data.process_table i)
    rw [hi.data]
    rfl
  still hb := by
    rw [hi.data, hi.timer]
    exact h.still hb

theorem steady : Steady E me (Calm E me b S₀) where
  umode _ h := h.umode
  prints S h := by
    refine ⟨?_, fun _ => h.settled.current⟩
    rw [h.settled.held]
    exact Finset.notMem_empty _
  settled _ h _ := h.settled
  drift _ _ h hd hl := h.drift hd hl
  idles _ _ h hi := h.idles hi

/-- A step of the thread itself. -/
theorem step (h : Calm E me b S₀ S) {d : Data} (hc : Settled E me (S.setData d)) :
    Calm E me b (S.setData d) (S.setData d) :=
  refl h.umode h.sie (h.locks.of_held rfl rfl fun hn => (hn h.settled.held).elim) hc

/-- With interrupts off it is a quiet state. -/
theorem quiet (h : Calm E me false S₀ S) : ∃ q : Quiet, q.on S.data ∅ = S := by
  obtain ⟨q, hq⟩ := Quiet.exists_on h.sie h.umode h.locks
  rw [h.settled.held] at hq
  exact ⟨q, hq⟩

end Calm

/-- The log grows. -/
theorem Inv.log {run : Option Nat} (h : Inv E run S) {l : List Event}
    (hx : Exits { S.data with log := l }) : Inv E run (S.setData { S.data with log := l }) := by
  have hh : (S.setData { S.data with log := l }).hist = S.hist := S.hist.next_same rfl fun _ => rfl
  refine ⟨h.table.congr rfl rfl fun i _ => ⟨rfl, rfl, rfl, rfl⟩, hx, fun j hj => ?_, fun j hj hs => ?_,
    fun ht => ?_⟩
  · rw [hh]
    exact h.counted j hj
  · rw [hh]
    exact h.fresh j hj hs
  · exact (h.mem ht).congr (.refl ..) (fun _ _ => .refl ..) rfl rfl (fun i _ => ⟨rfl, rfl, rfl⟩)
      (fun i hl => hl) fun i _ hl => hl

theorem St.setData_self (S : St) (i : Nat) (f : Process → Process) :
    (S.setData (S.data.updProc i f)).proc i = f (S.proc i) := Data.updProc_self ..

theorem Data.live_updProc {d : Data} {i j : Nat} {f : Process → Process}
    (hs : (f (d.process_table i)).state = (d.process_table i).state) (h : (d.updProc i f).Live j) :
    d.Live j := by
  have hst := Data.updProc_rel (R := fun p p' => p'.state = p.state) (fun _ => rfl) d i (f := f) hs j
  exact ⟨h.1, hst ▸ h.2⟩

/-- A process changes where the invariants of the table do not look. -/
theorem Inv.assign {run : Option Nat} (h : Inv E run S) {i : Nat} {f : Process → Process}
    (hrow : (S.proc i).SameRow (f (S.proc i))) (hx : Exits (S.data.updProc i f))
    (hq : (f (S.proc i)).quants = (S.proc i).quants)
    (hm : E.track → MemInv E.cfg S.own S.mem (S.data.updProc i f)) :
    Inv E run (S.setData (S.data.updProc i f)) := by
  have hrow : ∀ j, (S.data.process_table j).SameRow ((S.data.updProc i f).process_table j) :=
    Data.updProc_rel (fun _ => ⟨rfl, rfl, rfl, rfl⟩) _ i hrow
  have hh : (S.setData (S.data.updProc i f)).hist = S.hist :=
    S.hist.next_same rfl fun j => (hrow j).state
  refine ⟨h.table.congr rfl rfl fun j _ => hrow j, hx, fun j hj => ?_, fun j hj hs => ?_, hm⟩
  · rw [hh]
    refine Eq.trans ?_ (h.counted j hj)
    exact Data.updProc_rel (R := fun p p' => p'.quants = p.quants) (fun _ => rfl) _ i (f := f) hq j
  · rw [hh]
    exact h.fresh j hj ((hrow j).state.symm.trans hs)

/-! ## Memory code of a thread -/

/-- The part of a process that belongs to its own thread is as it was, memory apart. -/
structure Kin (i : Nat) (S S' : St) : Prop where
  nproc : S'.data.nproc = S.data.nproc
  thread : (S.proc i).SameThread (S'.proc i)
  events : eventsOf i S'.data.log = eventsOf i S.data.log

theorem Untouched.kin {i : Nat} {S S' : St} (h : Untouched E i S S') : Kin i S S' :=
  ⟨h.nproc, h.thread, h.events⟩

theorem Kin.refl (i : Nat) (S : St) : Kin i S S := ⟨rfl, .refl _, rfl⟩

theorem Kin.trans {i : Nat} {S₁ S₂ S₃ : St} (h₁ : Kin i S₁ S₂) (h₂ : Kin i S₂ S₃) : Kin i S₁ S₃ :=
  ⟨h₂.nproc.trans h₁.nproc, h₁.thread.trans h₂.thread, h₂.events.trans h₁.events⟩

theorem Kin.lastCall {i : Nat} {S S' : St} (h : Kin i S S') :
    lastCall i S'.data.log = lastCall i S.data.log := by
  unfold BareMetal.lastCall
  rw [h.events]

/-- Memory changes, and its invariant holds again. -/
theorem Settled.remember {phys : Phys} {own : Party → Finset Nat} (h : Settled E me S)
    (hm : E.track → MemInv E.cfg own phys.mem S.data) : Settled E me (S.setPhys phys own) := by
  refine ⟨h.held, h.current, h.stvec, ⟨h.inv.table, h.inv.exits, fun j hj => ?_, fun j hj hs => ?_, hm⟩,
    fun j hj => ?_⟩
  · rw [St.setPhys_hist]
    exact h.inv.counted j hj
  · rw [St.setPhys_hist]
    exact h.inv.fresh j hj hs
  · rw [St.setPhys_hist]
    exact h.closed j hj

/-- A thread works on frames of its slot beside those, `base`, that its memory rests on. -/
theorem Calm.keeper {i : Nat} {base : Finset Nat} {start : Bytes}
    (hx : E.track → SlotMem E.cfg base start (S₀.proc i) True) :
    Keeper E (some i) (E.mode true) fun v S => Calm E (some i) b S S ∧ Kin i S₀ S ∧
      (E.track → (Lease.one (.slot i) base start).Has v S.own S.mem) where
  steady v := by
    refine ⟨fun S h => h.1.umode, fun S h => Calm.steady.prints S h.1, fun S h _ => h.1.settled,
      fun S S' h hd hi => ?_, fun S S' h hi => ?_⟩
    all_goals
      obtain ⟨hc, hk, hv⟩ := h
      have hc' : Calm E (some i) b S S' := by
        first
        | exact hc.drift hd hi
        | exact hc.idles hi
      have hu := hc'.kept i rfl
      exact ⟨hc'.rebase, hk.trans hu.kin, fun ht => (hv ht).same fun p hp => hp ▸ hu.slot ht⟩
  op {v S o Q} h how hm := by
    obtain ⟨hc, hk, hv⟩ := h
    have hcalm : ∀ phys own, (E.track → MemInv E.cfg own phys.mem S.data) →
        Calm E (some i) b (S.setPhys phys own) (S.setPhys phys own) := fun phys own hm =>
      .refl hc.umode hc.sie (hc.locks.of_held rfl rfl fun hn => (hn hc.settled.held).elim)
        (hc.settled.remember hm)
    have hkin : ∀ phys own, Kin i S₀ (S.setPhys phys own) := fun phys own =>
      hk.trans ⟨rfl, rfl, rfl⟩
    by_cases ht : E.track
    · obtain ⟨hf, hop⟩ := (hv ht).op (how ht) (M := E.mode true) rfl (fun h => by cases h) trivial
        (hm ht)
      refine ⟨fun _ => hf, fun r phys hxo => ?_⟩
      obtain ⟨v', own, how', hd, hQ⟩ := hop r phys hxo
      refine ⟨v', own, fun _ => ⟨how', fun j hj _ => ⟨hd.rest _ fun he => ?_, hd.rest _ ?_⟩, hd.image⟩,
        ⟨hcalm phys own fun _ => ?_, hkin phys own, fun _ => hd.has⟩, fun _ => hQ⟩
      · exact hj (congrArg some (Party.slot.inj he))
      · exact Party.noConfusion
      · obtain ⟨ho, -, -, hkept⟩ := Lease.one_has.1 hd.has
        refine (hc.settled.inv.mem ht).update (i := i) (hd.rest _ Party.noConfusion)
          (fun j _ hj => hd.rest _ fun he => hj (Party.slot.inj he)) rfl rfl
          (fun j _ _ => ⟨rfl, rfl, rfl⟩) (fun j _ => .rfl) fun hin => ?_
        refine (hx ht).grow (fun _ => trivial) (fun _ _ => hc.settled.inv.table.run_live) (ho ▸ Finset.subset_union_left) hkept ?_
        have ht' : (S₀.proc i).SameThread (S.proc i) := hk.thread
        show (S.proc i).trapframe = _ ∧ (S.proc i).pagetable = _ ∧ (S.proc i).dropping = _
        rw [ht']
        exact ⟨rfl, rfl, rfl⟩
    · refine ⟨fun h => (ht h).elim, fun r phys _ => ⟨v, S.own, fun h => (ht h).elim,
        ⟨hcalm phys S.own fun h => (ht h).elim, hkin phys S.own, fun h => (ht h).elim⟩,
        fun h => (ht h).elim⟩⟩

namespace K

variable {α β : Type} {Q : β → St → Prop}

/-- An operation of a calm thread: others may run before it. -/
theorem wp_calm (h : Calm E me b S₀ S) {o : KOp} {k : o.Resp → K β}
    (hk : ∀ S', Calm E me b S₀ S' → (E.track → Owned E.cfg S'.own S'.sys.phys.free) →
      opSpec E me o (fun r => wp E me (k r) Q) S') : wp E me (.op o k) Q S :=
  ⟨h.umode, fun S' hd hl how => hk S' (h.drift hd hl) how⟩

theorem wp_proc_calm (h : Calm E me b S₀ S) {i : Nat} {f : Process → K β}
    (k : ∀ S', Calm E me b S₀ S' → wp E me (f (S'.proc i)) Q S') : wp E me (proc i >>= f) Q S :=
  wp_calm h fun S' h' _ => k S' h'

theorem wp_heapUse_calm (h : Calm E me b S₀ S) {f : Unit → K β}
    (k : ∀ S', Calm E me b S₀ S' → wp E me (f ()) Q S') : wp E me (heapUse >>= f) Q S := by
  rw [wp_bind]
  exact wp_heapUse Calm.steady h k

/-- Memory code of a thread that only reads: from frames of its slot it reads what they hold. -/
theorem wp_lift_reads_calm {i : Nat} (h : Calm E (some i) b S₀ S) {p : M α}
    (hp : p.Only MemOp.Reads) {R : α → View → Prop}
    (hw : E.track → M.wp (E.mode true) p R ⟨S₀.own (.slot i), S₀.mem⟩) {f : α → K β}
    (k : ∀ a S', Calm E (some i) b S₀ S' → (E.track → R a ⟨S₀.own (.slot i), S₀.mem⟩) →
      wp E (some i) (f a) Q S') : wp E (some i) (lift p >>= f) Q S := by
  rw [wp_bind]
  refine wp_lift_reads Calm.steady (fun ht S' h' a ha => ?_) rfl hp k S h hw
  exact (((h'.kept i rfl).slot ht).2 a ha).symm

/-- A memory operation with which a thread writes to a frame of its own. -/
theorem wp_poke_calm {i : Nat} (h : Calm E (some i) b S₀ S) {o : MemOp} (hd : ∀ f, o ≠ .dealloc f)
    (hx : E.track → ∀ S', Calm E (some i) b S₀ S' → ∀ r phys,
      Phys.exec E.cfg o S'.sys.phys = .ok (r, phys) → phys.free = S'.sys.phys.free ∧
        ∃ f, Loose E.cfg (S'.own (.slot i)) S'.mem (S'.proc i) True f ∧
          ∀ a, pageOf a ≠ f → phys.mem a = S'.mem a) {f : o.Resp → K β}
    (k : ∀ r S' phys, Calm E (some i) b S₀ S' → Phys.exec E.cfg o S'.sys.phys = .ok (r, phys) →
      Calm E (some i) b (S'.setPhys phys S'.own) (S'.setPhys phys S'.own) →
      wp E (some i) (f r) Q (S'.setPhys phys S'.own)) : wp E (some i) (mem o >>= f) Q S := by
  refine wp_calm h fun S' h' how => ⟨fun _ g hg => (hd g hg).elim, fun e _ => Calm.steady.prints _ h',
    fun r s he => ⟨S'.own, ?_⟩⟩
  obtain ⟨phys, hex, rfl⟩ := Sys.execMem_ok he
  have hsp : E.track → S'.Spares E (some i) phys S'.own := fun ht => by
    obtain ⟨hfr, g, hg, hm⟩ := hx ht S' h' r phys hex
    have hne : ∀ p, p ≠ .slot i → SamePart S' (S'.setPhys phys S'.own) p := fun p hp =>
      ⟨rfl, fun a ha => hm a fun he => hp ((how ht).disj _ _ g (he ▸ ha) hg.mem)⟩
    refine ⟨by rw [hfr]; exact how ht, fun j hj _ => ⟨hne _ fun he => ?_, hne _ (by simp)⟩,
      fun a ha => hm a fun he => ha (he ▸ (how ht).frame _ g hg.mem)⟩
    exact hj (congrArg some (Party.slot.inj he))
  have hc : Settled E (some i) (S'.setPhys phys S'.own) := by
    refine h'.settled.remember ?_
    intro ht
    obtain ⟨-, g, hg, hm⟩ := hx ht S' h' r phys hex
    exact (h'.settled.inv.mem ht).write (how ht) hg hm
  exact ⟨.mem hsp fun _ => hc, k r S' phys h' hex
    (.refl h'.umode h'.sie (h'.locks.of_held rfl rfl fun hn => (hn h'.settled.held).elim) hc)⟩

/-- Memory code of a thread, in the logic of owned frames. -/
theorem wp_lift_calm {i : Nat} (h : Calm E (some i) b S₀ S) {base o : Finset Nat} {start : Bytes}
    (hx : E.track → SlotMem E.cfg base start (S₀.proc i) True)
    (h₀ : E.track → (Lease.one (.slot i) base start).Has ⟨o, S₀.mem⟩ S₀.own S₀.mem) {p : M α}
    {R : α → View → Prop} (hp : E.track → M.wp (E.mode true) p R ⟨o, S₀.mem⟩) {f : α → K β}
    (k : ∀ a v S', Calm E (some i) b S' S' → Kin i S₀ S' →
      (E.track → (Lease.one (.slot i) base start).Has v S'.own S'.mem) → (E.track → R a v) →
      wp E (some i) (f a) Q S') : wp E (some i) (lift p >>= f) Q S := by
  rw [wp_bind]
  refine wp_lift (Calm.keeper hx) (fun a v S' h' hR => ?_) ⟨o, S₀.mem⟩ S
    ⟨h.rebase, (h.kept i rfl).kin, fun ht => ?_⟩ hp
  · exact k a v S' h'.1 h'.2.1 h'.2.2 hR
  · exact (h₀ ht).same fun p hp => hp ▸ (h.kept i rfl).slot ht

/-- A thread notes an event of its own. -/
theorem wp_note_calm {i : Nat} (h : Calm E (some i) b S₀ S) {e : Event} (he : e.slot = some i)
    {f : Unit → K β} (hok : ∀ S', Calm E (some i) b S₀ S' → e.Ok E (some i) S' ∧
      (e.Assume E → Exits { S'.data with log := e :: S'.data.log }))
    (k : ∀ S' S₁, e.Assume E → Calm E (some i) b S₀ S' →
      S₁ = S'.setData { S'.data with log := e :: S'.data.log } → Calm E (some i) b S₁ S₁ →
      wp E (some i) (f ()) Q S₁) : wp E (some i) (note e >>= f) Q S := by
  refine wp_calm h fun S' h' how => ⟨(hok S' h').1, fun ha => ?_⟩
  have hx := (hok S' h').2 ha
  have hh : (S'.setData { S'.data with log := e :: S'.data.log }).hist = S'.hist :=
    S'.hist.next_same rfl fun _ => rfl
  have hc : Settled E (some i) (S'.setData { S'.data with log := e :: S'.data.log }) := by
    refine ⟨h'.settled.held, h'.settled.current, h'.settled.stvec, h'.settled.inv.log hx,
      fun j hj => ?_⟩
    rw [hh]
    exact h'.settled.closed j hj
  refine ⟨⟨fun j hj hl => ⟨hl, rfl, ⟨rfl, rfl, ?_, fun _ => .refl .., fun _ => .refl ..⟩, ?_⟩,
    fun j _ hl => .inl hl, fun _ => hc, how, fun _ => .refl _ _⟩, k S' _ ha h' rfl (h'.step hc)⟩
  · refine List.filter_cons_of_neg ?_
    simpa [he] using fun hx : i = j => hj (congrArg some hx.symm)
  · rw [hh]

/-- A thread assigns to its own process. -/
theorem wp_setProc_calm {i : Nat} (h : Calm E (some i) b S₀ S) {g : Process → Process}
    {f : Unit → K β} (ha : ∀ S', Calm E (some i) b S₀ S' → Legal S'.data (S'.data.updProc i g) ∧
      (g (S'.proc i)).state = (S'.proc i).state ∧
      Inv E (some i) (S'.setData (S'.data.updProc i g)))
    (k : ∀ S' S₁, Calm E (some i) b S₀ S' → S₁ = S'.setData (S'.data.updProc i g) →
      Calm E (some i) b S₁ S₁ → wp E (some i) (f ()) Q S₁) :
    wp E (some i) (setProc i g >>= f) Q S := by
  refine wp_calm h fun S' h' how => ?_
  obtain ⟨hleg, hst, hinv⟩ := ha S' h'
  have hstate : ∀ j, ((S'.data.updProc i g).process_table j).state =
      (S'.data.process_table j).state :=
    Data.updProc_rel (R := fun p p' => p'.state = p.state) (fun _ => rfl) _ i hst
  have hh : (S'.setData (S'.data.updProc i g)).hist = S'.hist := S'.hist.next_same rfl hstate
  have hc : Settled E (some i) (S'.setData (S'.data.updProc i g)) := by
    refine ⟨h'.settled.held, h'.settled.current, h'.settled.stvec, hinv, fun j hj => ?_⟩
    rw [hh]
    exact h'.settled.closed j hj
  have hne : ∀ j, some j ≠ some i →
      (S'.data.updProc i g).process_table j = S'.data.process_table j := fun j hj =>
    Data.updProc_ne _ _ fun he => hj (congrArg some he)
  have hlive : ∀ j, some j ≠ some i → ((S'.data.updProc i g).Live j ↔ S'.data.Live j) :=
    fun j hj => by
      unfold Data.Live
      rw [hne j hj]
      rfl
  refine ⟨hleg, fun j hd => (Data.not_dispatches_of_state (hstate j) hd).elim, S'.own,
    ⟨fun j hj hl => ⟨(hlive j hj).2 hl, ?_, ⟨rfl, ?_, rfl, fun _ => .refl ..,
    fun _ => .refl ..⟩, ?_⟩, fun j hj hl => .inl ((hlive j hj).1 hl), fun _ => hc, how,
    fun _ => .refl _ _⟩, k S' _ h' rfl (h'.step hc)⟩
  · exact congrArg Process.context (hne j hj)
  · show (S'.data.process_table j).SameThread ((S'.data.updProc i g).process_table j)
    rw [hne j hj]
    exact .refl _
  · exact congrFun (congrArg History.before hh) j

/-- Interrupts are turned on, or off. -/
theorem wp_setSie_calm (h : Calm E me b S₀ S) (b' : Bool) {f : Unit → K β}
    (k : ∀ S', (∀ i, me = some i → Untouched E i S₀ S') → Calm E me b' S' S' →
      wp E me (f ()) Q S') : wp E me (setSie b' >>= f) Q S := by
  refine wp_calm h fun S₁ h₁ how => ?_
  have hh : (S₁.setLocks { S₁.locks with sie := b' }).hist = S₁.hist :=
    S₁.hist.next_same rfl fun _ => rfl
  have hc : Settled E me (S₁.setLocks { S₁.locks with sie := b' }) :=
    h₁.settled.of_locks rfl rfl rfl hh rfl rfl
  refine ⟨.of_eq rfl rfl rfl rfl rfl (fun j _ => by rw [hh]) (fun _ => hc) how,
    fun _ => h₁.settled.held, k _ (fun i hi => (h₁.kept i hi).trans (.of_eq rfl rfl rfl rfl rfl)) ?_⟩
  exact .refl h₁.umode rfl (h₁.locks.of_held rfl rfl fun hn => (hn h₁.settled.held).elim) hc

/-- A lock begins a critical section. -/
theorem wp_lock_calm (h : Calm E me b S₀ S) {l : LockId} {f : Unit → K β}
    (k : ∀ q d, Section E me b S₀ q d {l} → wp E me (f ()) Q (q.on d {l})) :
    wp E me (lock l >>= f) Q S := by
  refine wp_calm h fun S₁ h₁ _ => wp_calm h₁ fun S₂ h₂ how => ?_
  rw [show S₁.locks.sie = b from h₁.sie]
  have hl : l ∉ S₂.locks.held := by
    rw [h₂.settled.held]
    exact Finset.notMem_empty _
  have h0 : S₂.locks.interrupt_off_stack = 0 := by
    rw [h₂.locks.stack, h₂.settled.held]
    rfl
  refine ⟨hl, .acquire (fun _ => h₂.settled.current) how, ?_⟩
  obtain ⟨q, hq⟩ := Quiet.exists_on (S := S₂.acquire l b) rfl h₂.umode (h₂.locks.acquire hl b)
  have hL : (S₂.acquire l b).locks.held = {l} := by
    show insert l S₂.locks.held = _
    rw [h₂.settled.held]
    rfl
  rw [hL] at hq
  change q.on S₂.data {l} = _ at hq
  have hb : ∀ i, q.hist.before i = if S₂.data.current = some i then some b else S₂.hist.before i :=
    fun i => by
      show (q.on S₂.data {l}).hist.before i = _
      rw [hq, St.acquire_before, h0, h₂.sie]
      simp
  have hp : q.prev = b := by
    show (q.on S₂.data {l}).locks.interrupt_prev_state = b
    rw [hq]
    exact if_pos h0
  have ht : q.timer = S₂.sys.timer := congrArg (fun S => S.sys.timer) hq
  have hi : Inv E me (q.on S₂.data {l}) := h₂.settled.inv.of_eq rfl rfl rfl rfl rfl (by rw [hq]; rfl)
    (by rw [hq]; rfl) (by rw [hq]; exact St.acquire_dispatched) fun j _ hs hn => by
      refine (hb j).trans ((if_neg fun hc => ?_).trans hn)
      have ht := h₂.settled.inv.table
      rw [h₂.settled.current.symm.trans hc] at ht
      have := ht.run_running.2.symm.trans hs
      cases this
  rw [← hq]
  refine k q _ ⟨hp, h₂.settled.current, ?_, hi, fun i hi => ?_, fun i hi => ?_, fun hb => ?_⟩
  · rw [h₂.settled.stvec, if_neg (by rw [h₂.umode]; simp)]
  · exact (h₂.kept i hi).trans (.of_eq rfl rfl rfl (by rw [hq]; rfl) (by rw [hq]; rfl))
  · rw [hb, if_pos (h₂.settled.current.trans hi)]
  · rw [ht]
    exact h₂.still hb

/-- The last release; it gives back what the outermost lock has found, if there was one. -/
theorem wp_release_open {q : Quiet} {d : Data} {l : LockId} (hp : q.prev = b)
    (hcur : d.current = me) (hst : d.csr.stvec = .kernelvec) (hi : Inv E me (q.on d {l}))
    (hbef : ∀ i, me = some i → q.hist.before i = some b ∨ (q.on d {l}).Unlocked i)
    {f : Unit → K β} (k : ∀ S', S'.data = d → S'.own = q.own → S'.sys.phys = q.phys →
      S'.sys.timer = q.timer → Calm E me b (q.on d {l}) S' → wp E me (f ()) Q S') :
    wp E me (release l >>= f) Q (q.on d {l}) := by
  have hb : ∀ i, me = some i → ((q.on d {l}).release l).hist.before i = none := fun i hi => by
    rw [St.release_before]
    exact if_pos ⟨hcur.trans hi, rfl⟩
  have hsie : ((q.on d {l}).release l).locks.sie = b := by
    obtain ⟨prev, hist, timer, phys, own⟩ := q
    obtain rfl : prev = b := hp
    cases prev <;> rfl
  have hc : Settled E me ((q.on d {l}).release l) := by
    refine ⟨Finset.erase_singleton l, hcur, hst, hi.of_eq rfl rfl rfl rfl rfl rfl rfl
      St.release_dispatched fun j _ _ hn => ?_, hb⟩
    rw [St.release_before]
    split
    · rfl
    · exact hn
  refine wp_quiet fun how => ⟨Finset.mem_singleton_self l, fun _ i hcur' => ?_,
    .release (fun _ => hcur) (fun _ => hc) how, ?_⟩
  · exact (hbef i (hcur.symm.trans hcur')).imp_left fun h => h.trans (congrArg some hp.symm)
  · refine k _ rfl rfl rfl rfl ⟨rfl, hsie, ?_, hc, fun i hi => ?_, fun _ => ⟨rfl, rfl⟩⟩
    · exact (q.locks_inv {l}).release (Finset.mem_singleton_self l)
    · exact .of_eq rfl rfl rfl rfl rfl

/-- A release ends a critical section. -/
theorem wp_release_calm {q : Quiet} {d : Data} {l : LockId} (h : Section E me b S₀ q d {l})
    {f : Unit → K β} (k : ∀ S', S'.data = d → S'.own = q.own → S'.sys.phys = q.phys →
      Calm E me b S₀ S' → wp E me (f ()) Q S') : wp E me (release l >>= f) Q (q.on d {l}) := by
  refine wp_release_open h.prev h.current h.stvec h.inv (fun i hi => .inl (h.before i hi))
    fun S' hd ho hm ht h' => k S' hd ho hm ?_
  · refine ⟨h'.umode, h'.sie, h'.locks, h'.settled,
      fun i hi => (h.kept i hi).trans (h'.kept i hi), fun hb => ?_⟩
    rw [hd, ht]
    exact h.still hb

end K

end BareMetal
