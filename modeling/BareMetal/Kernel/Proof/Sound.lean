import BareMetal.Kernel.Proof.Rules

/-!
# Soundness of the logic for the machine

`MInv E m h me own`: the context `me` runs, its code keeps the rules (`K.wp`), and every context
that does not run keeps them when it goes on. A step of the machine keeps this (`MInv.step`), so it
holds in every machine reached (`MInv.run`), provided that the code at every place where a
context goes on keeps the rules (`Code`).
-/

namespace BareMetal

open Lib

variable {E : Env} {me : Option Nat}

theorem Settled.lastCall {S S' : St} {i : Nat} (h : Untouched E i S S') :
    lastCall i S'.data.log = lastCall i S.data.log := by
  unfold BareMetal.lastCall
  rw [h.events]

/-- What keeps the rules keeps them after interference. -/
theorem K.wp_drift {p : K Label} {S S' : St} (h : K.wp E me p (labelPost E me) S)
    (hd : Drift E me S S') (hu : S.locks.umode = false) :
    K.wp E me p (labelPost E me) S' := by
  rcases hd with ⟨-, rfl⟩ | ⟨hs, hs', hu', hc, hm⟩
  · exact h
  cases p with
  | op o k => exact ⟨hu', fun T hT => h.2 T (.trans (.inr ⟨hs, hs', hu', hc, hm⟩) hT)⟩
  | ret l =>
    have hl : labelPost E me l S := h
    change labelPost E me l S'
    cases l with
    | scheduler =>
      obtain ⟨rfl, -, -⟩ := hl
      exact ⟨rfl, hu', hc⟩
    | kwait i addr =>
      obtain ⟨rfl, -, -, h1, h2, h3, h4⟩ := hl
      have ht := (hm i rfl).thread
      refine ⟨rfl, hu', hc, ?_, ?_, (Settled.lastCall (hm i rfl).1).trans h3, h4⟩
      · rw [ht]; exact h1
      · rw [ht]; exact h2
    | user =>
      obtain ⟨i, -, h1, -⟩ := hl
      rw [hu] at h1; cases h1
    | spin => exact hu'

/-- The panic handler keeps the rules wherever it can print. -/
theorem wp_panicking_to {S : St} (h : Printing E me S) {P : Label → St → Prop}
    (k : ∀ S', S'.locks.umode = false → P .spin S') : K.wp E me panicking P S := by
  unfold panicking K.print
  rw [K.wp_bind]
  exact K.wp_heapUse Printing.steady h fun S' h' => k S' h'.umode

theorem wp_panicking {S : St} (h : Printing E me S) :
    K.wp E me panicking (labelPost E me) S := wp_panicking_to h fun _ hu => hu

/-! ## The invariant of the machine -/

/-- A process that does not run goes on by the rules. -/
def Parked (E : Env) (saved : Nat → K Label) (j : Nat) (S : St) : Prop :=
  match (S.proc j).context with
  | .zero => False
  | .forkret _ => (S.proc j).dropping = false ∧ (S.proc j).reaped = none ∧
      S.hist.before j = none
  | .sched => ∀ S', Mine E j S S' → Handoff E j S' →
    K.wp E (some j) (saved j) (labelPost E (some j)) S'

structure MInv (E : Env) (m : Machine) (h : History) (me : Option Nat)
    (own : Party → Finset Nat) : Prop where
  locks : m.sys.locks.Inv
  owned : E.track → Owned E.cfg own m.sys.phys.free
  settled : m.sys.locks.sie = true → Settled E me ⟨m.sys, own, h⟩
  code : K.wp E me m.code (labelPost E me) ⟨m.sys, own, h⟩
  threads : ∀ j, some j ≠ me → m.sys.data.Live j → Parked E m.saved j ⟨m.sys, own, h⟩
  sched : ∀ i, me = some i → ∀ S, HandBack E i S → K.wp E none m.sched (labelPost E none) S
  timer : E.timer → ∀ x ∈ m.sys.timer.deadlines, x.2 = x.1 + 1000000

/-- The hart has trapped. -/
def St.trap (S : St) (scause sepc : Nat) (spp : Bool) : St :=
  S.step (S.sys.trap scause sepc spp) S.own

/-- The process that calls `switch`. -/
def Process.park (p : Process) : Process := { p with context := .sched }

theorem park_state (d : Data) (i j : Nat) :
    ((d.updProc i Process.park).process_table j).state = (d.process_table j).state := by
  rw [Data.updProc_table]
  split
  · next hj => rw [hj]; rfl
  · rfl

theorem next_park (h : History) (s : Sys) (i : Nat) :
    h.next s { s with data := s.data.updProc i Process.park } = h :=
  h.next_same rfl (park_state s.data i)

/-- The code at the places where contexts go on keeps the rules. -/
structure Code (E : Env) : Prop where
  main : ∀ m, Machine.Init E.cfg m →
    K.wp E none (main E.cfg) (labelPost E none) ⟨m.sys, fun _ => ∅, .start⟩
  forkret : ∀ i S, Handoff E i S → Born (S.proc i) (S.hist.before i) →
    K.wp E (some i) (forkret E.cfg) (labelPost E (some i)) S
  entry : ∀ me l p S, labelPost E me l S → S.locks.Inv → l.entry E.cfg = some p →
    K.wp E me p (labelPost E me) S
  kernelvec : ∀ me S pc (Q : St → Prop), S.locks.Inv → S.locks.umode = false →
    S.locks.sie = true → Settled E me S → (∀ S', Drift E me S S' → Q S') →
    K.wp E me kernelvec (fun _ => Q) (S.trap TIMER pc true)
  usertrap : ∀ me S scause, S.locks.Inv → labelPost E me .user S →
    K.wp E me (uservec >>= fun _ => usertrap E.cfg) (labelPost E me)
      (S.trap scause S.data.pc false)
  /-- The user program stays in its own memory. -/
  user : ∀ me S phys regs pc, labelPost E me .user S → (E.track → Owned E.cfg S.own S.sys.phys.free) →
    (∀ r, regs r < 2 ^ 32) → pc < 2 ^ 32 → Sys.UserWrites S.sys.phys phys S.data.csr.satp →
    Upd E me S (S.step (S.sys.user phys regs pc) S.own) ∧
      labelPost E me .user (S.step (S.sys.user phys regs pc) S.own)

/-- The runs considered. -/
def Machine.Assume (E : Env) (m : Machine) : Prop :=
  (∀ e k, m.code = .op (.note e) k → e.Assume E) ∧
    (E.timer → ∀ k, m.code = .op .time k → TimeOk m.time m.sys.timer)

/-! ## Steps -/

theorem Parked.mono {saved : Nat → K Label} {j : Nat} {S S' : St} (h : Parked E saved j S)
    (hc : (S'.proc j).context = (S.proc j).context) (hm : Mine E j S S') :
    Parked E saved j S' := by
  have ht := hm.thread
  have hd : (S'.proc j).dropping = (S.proc j).dropping := by rw [ht]
  have hr : (S'.proc j).reaped = (S.proc j).reaped := by rw [ht]
  unfold Parked at *
  rw [hc, hd, hr, hm.before]
  cases hx : (S.proc j).context with
  | zero => rw [hx] at h; exact h
  | forkret sp => rw [hx] at h; exact h
  | sched =>
    rw [hx] at h
    exact fun T hT hh => h T (hm.trans hT) hh

theorem Born.parked {saved : Nat → K Label} {j : Nat} {S : St}
    (h : Born (S.proc j) (S.hist.before j)) : Parked E saved j S := by
  obtain ⟨⟨sp, hc⟩, hd, hr, hb⟩ := h
  unfold Parked
  rw [hc]
  exact ⟨hd, hr, hb⟩

/-- A step of the machine: the invariant, and what the step leaves of the threads that do not run. -/
structure MNext (E : Env) (m : Machine) (h : History) (me : Option Nat) (own : Party → Finset Nat)
    (m' : Machine) (h' : History) (me' : Option Nat) (own' : Party → Finset Nat) : Prop where
  inv : MInv E m' h' me' own'
  rely : ∀ j, some j ≠ me → Rely E j ⟨m.sys, own, h⟩ ⟨m'.sys, own', h'⟩
  /-- The kernel's own pages are not written to. -/
  image : E.track → E.cfg.SameImage m.sys.phys.mem m'.sys.phys.mem
  /-- Who does not run is only run by `switch`. -/
  idle : ∀ j, some j ≠ me → (∀ k, m.code ≠ .op (.toProc j) k) → some j ≠ me'

theorem Rely.refl (j : Nat) (S : St) : Rely E j S S := fun hl => ⟨hl, rfl, .refl j S⟩

theorem Rely.trans {j : Nat} {S₁ S₂ S₃ : St} (h₁ : Rely E j S₁ S₂) (h₂ : Rely E j S₂ S₃) :
    Rely E j S₁ S₃ := fun hl =>
  ⟨(h₂ (h₁ hl).1).1, (h₂ (h₁ hl).1).2.1.trans (h₁ hl).2.1, (h₁ hl).2.2.trans (h₂ (h₁ hl).1).2.2⟩

namespace MInv

variable {m : Machine} {h : History} {own : Party → Finset Nat}

/-- A step of the running context. -/
theorem upd (hi : MInv E m h me own) {s : Sys} {own' : Party → Finset Nat} {code : K Label}
    (hu : Upd E me ⟨m.sys, own, h⟩ ⟨s, own', h.next m.sys s⟩) (hl : s.locks.Inv)
    (hc : K.wp E me code (labelPost E me) ⟨s, own', h.next m.sys s⟩)
    (ht : E.timer → ∀ x ∈ s.timer.deadlines, x.2 = x.1 + 1000000) :
    MNext E m h me own { m with sys := s, code := code } (h.next m.sys s) me own' where
  inv :=
    { locks := hl
      owned := hu.owned
      settled := hu.good
      code := hc
      threads := fun j hj hlive => by
        rcases hu.newborn j hj hlive with h1 | h1
        · exact (hi.threads j hj h1).mono (hu.frame j hj h1).2.1 (hu.frame j hj h1).2.2
        · exact h1.parked
      sched := hi.sched
      timer := ht }
  rely := hu.frame
  image := hu.image
  idle _ hj _ := hj

/-- Nothing happens but to the code. -/
theorem same (hi : MInv E m h me own) {code : K Label}
    (hc : K.wp E me code (labelPost E me) ⟨m.sys, own, h⟩) :
    MNext E m h me own { m with code := code } h me own :=
  ⟨⟨hi.locks, hi.owned, hi.settled, hc, hi.threads, hi.sched, hi.timer⟩, fun j _ => .refl j _,
    fun _ _ _ => rfl, fun _ hj _ => hj⟩

/-- What the next operation ensures, whatever the code ends in. -/
theorem next_to (hi : MInv E m h me own) {P : Label → St → Prop} {o : KOp} {k : o.Resp → K Label}
    (hp : K.wp E me (.op o k) P ⟨m.sys, own, h⟩) : m.sys.locks.umode = false ∧
      opSpec E me o (fun r => K.wp E me (k r) P) ⟨m.sys, own, h⟩ :=
  ⟨hp.1, hp.2 _ (.self hp.1 hi.settled) hi.locks hi.owned⟩

theorem next (hi : MInv E m h me own) {o : KOp} {k : o.Resp → K Label}
    (hc : m.code = .op o k) : m.sys.locks.umode = false ∧
      opSpec E me o (fun r => K.wp E me (k r) (labelPost E me)) ⟨m.sys, own, h⟩ := by
  have h1 := hi.code
  rw [hc] at h1
  exact hi.next_to h1

/-- An operation of the running context, whose code ends in `P`. -/
theorem op_to (hi : MInv E m h me own) {P : Label → St → Prop}
    (hP : ∀ l S, P l S → labelPost E me l S) {o : KOp} {k : o.Resp → K Label} {n : Nat} {r : o.Resp}
    {s : Sys} (ha : m.Assume E) (hc : m.code = .op o k)
    (hp : K.wp E me (.op o k) P ⟨m.sys, own, h⟩) (hx : o.exec E.cfg m.time n m.sys = .ok (r, s)) :
    ∃ own', MNext E m h me own { m with sys := s, code := k r } (h.next m.sys s) me own' ∧
      K.wp E me (k r) P ⟨s, own', h.next m.sys s⟩ := by
  obtain ⟨hu, ho⟩ := hi.next_to hp
  have hupd : ∀ {own' : Party → Finset Nat},
      Upd E me ⟨m.sys, own, h⟩ ⟨s, own', h.next m.sys s⟩ → s.locks.Inv →
      K.wp E me (k r) P ⟨s, own', h.next m.sys s⟩ →
      (E.timer → ∀ x ∈ s.timer.deadlines, x.2 = x.1 + 1000000) →
      ∃ own', MNext E m h me own { m with sys := s, code := k r } (h.next m.sys s) me own' ∧
        K.wp E me (k r) P ⟨s, own', h.next m.sys s⟩ :=
    fun hu hl hq ht => ⟨_, hi.upd hu hl (K.wp_conseq hq hP) ht, hq⟩
  have hsame : s = m.sys → K.wp E me (k r) P ⟨m.sys, own, h⟩ →
      ∃ own', MNext E m h me own { m with sys := s, code := k r } (h.next m.sys s) me own' ∧
        K.wp E me (k r) P ⟨s, own', h.next m.sys s⟩ := fun hs hq => by
    subst hs
    rw [h.next_self]
    exact ⟨own, hi.same (K.wp_conseq hq hP), hq⟩
  cases o with
  | mem o =>
    obtain ⟨own', hup, hq⟩ := ho.2.2 r s hx
    obtain ⟨phys, -, rfl⟩ := Sys.execMem_ok hx
    exact hupd hup hi.locks hq hi.timer
  | get =>
    cases hx
    exact hsame rfl ho
  | set f =>
    cases hx
    obtain ⟨-, -, own', hup, hq⟩ := ho
    exact hupd hup hi.locks hq hi.timer
  | locks =>
    cases hx
    exact hsame rfl ho
  | setSie b =>
    cases hx
    refine hupd ho.1 (hi.locks.of_held rfl rfl fun hn => ?_) ho.2.2 hi.timer
    cases b with
    | false => rfl
    | true => exact (hn (ho.2.1 rfl)).elim
  | setPrev b =>
    cases hx
    refine hupd ?_ (hi.locks.of_held rfl rfl hi.locks.off) ho hi.timer
    refine .of_eq rfl rfl rfl rfl rfl (fun j _ => ?_) (fun hs => ?_) hi.owned
    · exact congrFun (congrArg History.before (h.next_same rfl fun _ => rfl)) j
    · exact (hi.settled hs).of_locks rfl rfl rfl (h.next_same rfl fun _ => rfl) rfl rfl
  | acquire l old =>
    have hm : l ∉ m.sys.locks.held := ho.1
    have hxe : KOp.exec E.cfg m.time n (.acquire l old) m.sys =
        .ok ((), { m.sys with locks :=
          { m.sys.locks.pushInterruptOff old with held := insert l m.sys.locks.held } }) := if_neg hm
    rw [hxe] at hx
    cases hx
    exact hupd ho.2.1 (hi.locks.acquire hm old) ho.2.2 hi.timer
  | release l =>
    have hm : l ∈ m.sys.locks.held := ho.1
    have hst := hi.locks.stack_pos hm
    have hxe : KOp.exec E.cfg m.time n (.release l) m.sys =
        .ok ((), { m.sys with locks :=
          { m.sys.locks.popInterruptOff with held := m.sys.locks.held.erase l } }) :=
      if_neg (by omega)
    rw [hxe] at hx
    cases hx
    exact hupd ho.2.2.1 (hi.locks.release hm) ho.2.2.2 hi.timer
  | sret =>
    cases hx
    exact hupd ho.2.1 (hi.locks.of_held rfl rfl fun hn => (hn ho.1).elim) ho.2.2 hi.timer
  | toSched i => cases hx
  | toProc i => cases hx
  | any =>
    cases hx
    exact hsame rfl (ho n)
  | time =>
    cases hx
    have hq := ho m.time fun ht => ha.2 ht k hc
    refine hupd ?_ hi.locks hq hi.timer
    refine .of_eq rfl rfl rfl rfl rfl (fun j _ => ?_) (fun hs => ?_) hi.owned
    · exact congrFun (congrArg History.before (h.next_same rfl fun _ => rfl)) j
    · exact (hi.settled hs).of_locks rfl rfl rfl (h.next_same rfl fun _ => rfl) rfl rfl
  | stimecmp v =>
    cases hx
    refine hupd ?_ hi.locks ho.2 fun ht x hxm => ?_
    · refine .of_eq rfl rfl rfl rfl rfl (fun j _ => ?_) (fun hs => ?_) hi.owned
      · exact congrFun (congrArg History.before (h.next_same rfl fun _ => rfl)) j
      · exact (hi.settled hs).of_locks rfl rfl rfl (h.next_same rfl fun _ => rfl) rfl rfl
    · rcases List.mem_cons.1 hxm with rfl | hxm
      · exact ho.1 ht
      · exact hi.timer ht x hxm
  | note e =>
    cases hx
    obtain ⟨hup, hq⟩ := ho.2 (ha.1 e k hc)
    exact hupd hup hi.locks hq hi.timer
  | panic msg => cases hx
  | lost => cases hx

/-- An operation of the running context. -/
theorem op (hi : MInv E m h me own) {o : KOp} {k : o.Resp → K Label} {n : Nat} {r : o.Resp}
    {s : Sys} (ha : m.Assume E) (hc : m.code = .op o k)
    (hx : o.exec E.cfg m.time n m.sys = .ok (r, s)) :
    ∃ own', MNext E m h me own { m with sys := s, code := k r } (h.next m.sys s) me own' := by
  have hp := hi.code
  rw [hc] at hp
  obtain ⟨own', hn, -⟩ := hi.op_to (fun _ _ hl => hl) ha hc hp hx
  exact ⟨own', hn⟩

/-- An operation that stops with a panic or a page fault ends in the panic handler. -/
theorem stops (hi : MInv E m h me own) (hpr : St.Prints me ⟨m.sys, own, h⟩)
    (hu : m.sys.locks.umode = false) :
    MNext E m h me own { m with code := panicking } h me own :=
  hi.same (wp_panicking ⟨hpr, hi.locks, hu, hi.settled⟩)

theorem prints (hi : MInv E m h me own) {o : KOp} {k : o.Resp → K Label} {n : Nat} {e : Stop}
    (hc : m.code = .op o k) (hx : o.exec E.cfg m.time n m.sys = .error e) (he : e ≠ .switch) :
    e ≠ .spin ∧ St.Prints me ⟨m.sys, own, h⟩ := by
  obtain ⟨hu, ho⟩ := hi.next hc
  cases o with
  | mem o =>
    refine ⟨fun hs => ?_, ho.2.1 e hx⟩
    change m.sys.execMem E.cfg o = .error e at hx
    unfold Sys.execMem at hx
    subst hs
    cases hp : Phys.exec E.cfg o m.sys.phys with
    | ok q =>
      rw [hp] at hx
      cases hx
    | error e' =>
      rw [hp] at hx
      cases o <;> cases hx
  | acquire l old =>
    have hxe : KOp.exec E.cfg m.time n (.acquire l old) m.sys =
        .ok ((), { m.sys with locks :=
          { m.sys.locks.pushInterruptOff old with held := insert l m.sys.locks.held } }) :=
      if_neg ho.1
    rw [hxe] at hx
    cases hx
  | release l =>
    have hst := hi.locks.stack_pos ho.1
    have hxe : KOp.exec E.cfg m.time n (.release l) m.sys =
        .ok ((), { m.sys with locks :=
          { m.sys.locks.popInterruptOff with held := m.sys.locks.held.erase l } }) :=
      if_neg (by omega)
    rw [hxe] at hx
    cases hx
  | panic msg =>
    cases hx
    exact ⟨by simp, ho.2⟩
  | toSched i =>
    cases hx
    exact (he rfl).elim
  | toProc i =>
    cases hx
    exact (he rfl).elim
  | lost => exact ho.elim
  | get => cases hx
  | set f => cases hx
  | locks => cases hx
  | setSie b => cases hx
  | setPrev b => cases hx
  | sret => cases hx
  | any => cases hx
  | time => cases hx
  | stimecmp v => cases hx
  | note e => cases hx

/-- In the kernel with interrupts off. -/
theorem sieOff (hi : MInv E m h me own) (hu : m.sys.locks.umode = false)
    (hpr : St.Prints me ⟨m.sys, own, h⟩) :
    MNext E m h me own { m with sys := m.sys.sieOff, code := panicking } h me own := by
  have hm : ∀ j, Mine E j ⟨m.sys, own, h⟩ ⟨m.sys.sieOff, own, h⟩ := fun _ =>
    ⟨.of_eq rfl rfl rfl rfl rfl, rfl⟩
  refine ⟨⟨hi.locks.of_held rfl rfl fun _ => rfl, hi.owned, fun hs => (by cases hs), ?_,
    fun j hj hl => (hi.threads j hj hl).mono rfl (hm j), hi.sched, hi.timer⟩,
    fun j _ hl => ⟨hl, rfl, hm j⟩, fun _ _ _ => rfl, fun _ hj _ => hj⟩
  exact wp_panicking ⟨⟨hpr.heap, hpr.current⟩, hi.locks.of_held rfl rfl fun _ => rfl, hu,
    fun hs => by cases hs⟩

/-- `switch` to the scheduler. -/
theorem toSched (hi : MInv E m h me own) {i : Nat} {k : Unit → K Label}
    (hc : m.code = .op (.toSched i) k) :
    MNext E m h me own { m with
      sys := { m.sys with data := m.sys.data.updProc i Process.park }
      code := m.sched
      saved := Function.update m.saved i (k ()) } h none own := by
  obtain ⟨hu, rfl, hb, hk⟩ := hi.next hc
  have hm : ∀ j, Mine E j ⟨m.sys, own, h⟩
      ⟨{ m.sys with data := m.sys.data.updProc i Process.park }, own, h⟩ := fun j => by
    refine ⟨⟨rfl, ?_, rfl, fun _ => .refl .., fun _ => .refl ..⟩, rfl⟩
    show (m.sys.data.process_table j).SameThread ((m.sys.data.updProc i _).process_table j)
    rw [Data.updProc_table]
    split
    · next hj => rw [hj]; rfl
    · rfl
  have hlive : ∀ j, (m.sys.data.updProc i Process.park).Live j → m.sys.data.Live j := fun j hl => by
    obtain ⟨hn, hs⟩ := hl
    refine ⟨hn, ?_⟩
    rwa [park_state] at hs
  refine ⟨⟨hi.locks, hi.owned, fun hs => ?_, ?_, fun j _ hl => ?_, fun j hj => ?_, hi.timer⟩,
    fun j hj hl => ⟨⟨hl.1, ?_⟩, ?_, hm j⟩, fun _ _ _ => rfl,
    fun j _ _ he => by cases he⟩
  rotate_left 4
  · rw [park_state]
    exact hl.2
  · exact congrArg Process.context (Data.updProc_ne _ _ fun he => hj (congrArg some he))
  · exact (Bool.false_ne_true (hb.sie.symm.trans hs)).elim
  · exact hi.sched i rfl _ ⟨hb.held, hb.stack, hb.sie, hb.umode, hb.current, hb.stvec,
      hb.inv.updProc (fun _ => ⟨⟨rfl, rfl, rfl, rfl⟩, rfl, rfl, ⟨rfl, rfl, rfl⟩, rfl⟩)⟩
  · by_cases hj : j = i
    · subst hj
      have hk' := hk (hlive j hl)
      unfold Parked
      simp only [St.proc, Data.updProc_self, Function.update_self, Process.park]
      exact fun S hS hh' => hk' S ((hm j).trans hS) hh'
    · have hp := hi.threads j (fun he => hj (Option.some.inj he)) (hlive j hl)
      have := hp.mono (congrArg Process.context (Data.updProc_ne _ _ hj)) (hm j)
      unfold Parked at this ⊢
      simp only [Function.update_of_ne hj]
      exact this
  · cases hj

/-- `switch` to a process. -/
theorem toProc (hi : MInv E m h me own) (hco : Code E) {i : Nat} {k : Unit → K Label}
    (hc : m.code = .op (.toProc i) k) :
    MNext E m h me own { m with code := m.resume E.cfg i, sched := k () } h (some i) own := by
  obtain ⟨hu, rfl, hb, hk⟩ := hi.next hc
  have hr : i < m.sys.data.nproc := hb.inv.table.run_lt i rfl
  have hp := hi.threads i (fun he => by cases he)
    ⟨hr, .inr (.inl ((hb.inv.table.running i hr).2 rfl))⟩
  refine ⟨⟨hi.locks, hi.owned, fun hs => ?_, ?_, fun j _ hl => hi.threads j (fun he => by cases he) hl,
    fun j hj => ?_, hi.timer⟩, fun j _ => .refl j _, fun _ _ _ => rfl, fun j _ hne he => ?_⟩
  · exact (Bool.false_ne_true (hb.sie.symm.trans hs)).elim
  · unfold Parked at hp
    unfold Machine.resume
    cases hx : (m.sys.data.process_table i).context with
    | zero =>
      simp only [St.proc, hx] at hp
    | forkret sp =>
      simp only [St.proc, hx] at hp
      exact hco.forkret i _ hb ⟨⟨sp, hx⟩, hp.1, hp.2.1, hp.2.2⟩
    | sched =>
      simp only [St.proc, hx] at hp
      exact hp _ (.refl ..) hb
  · cases hj
    exact hk
  · obtain rfl := Option.some.inj he
    exact hne k hc

/-- A trap to the kernel's code `code`. -/
theorem trap (hi : MInv E m h me own) {scause sepc : Nat} {spp : Bool} {code : K Label}
    (hc : K.wp E me code (labelPost E me) (St.trap ⟨m.sys, own, h⟩ scause sepc spp)) :
    MNext E m h me own { m with sys := m.sys.trap scause sepc spp, code := code }
      (h.next m.sys (m.sys.trap scause sepc spp)) me own := by
  refine hi.upd ?_ (hi.locks.of_held rfl rfl fun _ => rfl) hc hi.timer
  refine .of_eq rfl rfl rfl rfl rfl (fun j _ => ?_) (fun hs => by cases hs) hi.owned
  exact congrFun (congrArg History.before (h.next_same rfl fun _ => rfl)) j

/-- **A step of the machine keeps the invariant.** -/
theorem step (hi : MInv E m h me own) (hco : Code E) (ha : m.Assume E) {m' : Machine}
    (hs : Machine.Step E.cfg m m') :
    ∃ me' own', MNext E m h me own m' (h.next m.sys m'.sys) me' own' := by
  cases hs with
  | op hc hx =>
    obtain ⟨own', hi'⟩ := hi.op ha hc hx
    exact ⟨me, own', hi'⟩
  | panic hc hx =>
    obtain ⟨-, hpr⟩ := hi.prints hc hx (by simp)
    exact ⟨me, own, by rw [h.next_self]; exact hi.stops hpr (hi.next hc).1⟩
  | fault hc hx =>
    obtain ⟨-, hpr⟩ := hi.prints hc hx (by simp)
    refine ⟨me, own, ?_⟩
    rw [show h.next m.sys m.sys.sieOff = h from h.next_same rfl fun _ => rfl]
    exact hi.sieOff (hi.next hc).1 hpr
  | spin hc hx => exact ((hi.prints hc hx (by simp)).1 rfl).elim
  | @toSched i k hc => exact ⟨none, own, (next_park h m.sys i).symm ▸ hi.toSched hc⟩
  | @toProc i k hc => exact ⟨some i, own, by rw [h.next_self]; exact hi.toProc hco hc⟩
  | @label l code hc he =>
    refine ⟨me, own, ?_⟩
    rw [h.next_self]
    have hl := hi.code
    rw [hc] at hl
    exact hi.same (hco.entry me l code _ hl hi.locks he)
  | @interrupt pc hsie hu =>
    refine ⟨me, own, hi.trap ?_⟩
    have hst := hi.settled hsie
    have hv : m.sys.data.csr.stvec = .kernelvec := by
      have := hst.stvec
      rw [if_neg (by rw [hu]; simp)] at this
      exact this
    simp only [hv]
    rw [K.wp_bind]
    exact hco.kernelvec me ⟨m.sys, own, h⟩ pc (K.wp E me m.code (labelPost E me)) hi.locks hu hsie
      hst fun S' hd => K.wp_drift hi.code hd hu
  | @user phys regs pc hc hr hp hw =>
    have hl := hi.code
    rw [hc] at hl
    obtain ⟨hup, hl'⟩ := hco.user me ⟨m.sys, own, h⟩ phys regs pc hl hi.owned hr hp hw
    have hcode : K.wp E me m.code (labelPost E me) ⟨m.sys.user phys regs pc, own,
        h.next m.sys (m.sys.user phys regs pc)⟩ := by
      rw [hc]
      exact hl'
    exact ⟨me, own, hi.upd hup hi.locks hcode hi.timer⟩
  | @trap scause hc =>
    have hl := hi.code
    rw [hc] at hl
    obtain ⟨i, -, hu, -, hst, -⟩ := hl
    have hv : m.sys.data.csr.stvec = .uservec := by
      have := hst.stvec
      rw [if_pos hu] at this
      exact this
    refine ⟨me, own, hi.trap ?_⟩
    simp only [hv]
    have hl := hi.code
    rw [hc] at hl
    exact hco.usertrap me ⟨m.sys, own, h⟩ scause hi.locks hl
  | tick ht h64 =>
    refine ⟨me, own, ?_⟩
    rw [show h.next m.sys m.sys = h from h.next_self _]
    exact ⟨⟨hi.locks, hi.owned, hi.settled, hi.code, hi.threads, hi.sched, hi.timer⟩,
      fun j _ => .refl j _, fun _ _ _ => rfl, fun _ hj _ => hj⟩

theorem init (hco : Code E) (hm : Machine.Init E.cfg m) :
    MInv E m .start none fun _ => ∅ where
  locks := by rw [hm.locks]; exact ⟨rfl, fun h => (h rfl).elim⟩
  owned _ := ⟨hm.nodup, hm.frames, fun _ _ hf => (Finset.notMem_empty _ hf).elim,
    fun _ _ hf => (Finset.notMem_empty _ hf).elim, fun _ _ _ hf => (Finset.notMem_empty _ hf).elim⟩
  settled hs := by
    rw [hm.locks] at hs
    cases hs
  code := by rw [hm.code]; exact hco.main m hm
  threads j _ hl := by
    have := hl.1
    rw [hm.nproc] at this
    omega
  sched i hi := by cases hi
  timer _ x hx := by
    rw [hm.deadlines] at hx
    cases hx

/-- **In every machine reached, the context that runs keeps the rules.** -/
theorem run (hco : Code E) {A : Machine → Prop} (hA : ∀ m, A m → m.Assume E) {m : Machine}
    {h : History} (hr : Machine.Run E.cfg A m h) : ∃ me own, MInv E m h me own := by
  induction hr with
  | init hm => exact ⟨_, _, init hco hm⟩
  | step _ ha hs ih =>
    obtain ⟨me, own, hi⟩ := ih
    obtain ⟨me', own', hn⟩ := hi.step hco (hA _ ha) hs
    exact ⟨me', own', hn.inv⟩

end MInv

end BareMetal
