import BareMetal.Kernel.Proof.Lease
import BareMetal.Kernel.Proof.Logic

/-!
# Rules of the kernel's operations

With interrupts off nothing else runs, and the state is known: `Quiet` is such a state, and its
rules say what it is after an operation. With no lock held the invariants hold and interrupts may
be on: `Calm` says what a thread still knows then. Between the two, `Section` is the state in a
critical section whose end restores the invariants.

Memory code (`wp_lift`) stays in states that a `Keeper` describes; where memory is followed it has to
keep the logic of owned frames. Code that only reads stays where it is (`wp_lift_reads`).
-/

namespace BareMetal

open Lib

variable {E : Env} {me : Option Nat}

/-! ## Relations between states -/

theorem Process.SameThread.refl (p : Process) : p.SameThread p := rfl

theorem Process.SameThread.trans {p₁ p₂ p₃ : Process} (h₁ : p₁.SameThread p₂)
    (h₂ : p₂.SameThread p₃) : p₁.SameThread p₃ := by
  unfold Process.SameThread at *
  rw [h₂, h₁]

theorem Process.SameThread.pid {p p' : Process} (h : p.SameThread p') : p'.pid = p.pid := by
  rw [h]

theorem Process.SameThread.reaped {p p' : Process} (h : p.SameThread p') :
    p'.reaped = p.reaped := by
  rw [h]

theorem Process.SameThread.dropping {p p' : Process} (h : p.SameThread p') :
    p'.dropping = p.dropping := by
  rw [h]

theorem Untouched.refl (i : Nat) (S : St) : Untouched E i S S :=
  ⟨rfl, .refl _, rfl, fun _ => .refl .., fun _ => .refl ..⟩

theorem Untouched.trans {i : Nat} {S₁ S₂ S₃ : St} (h₁ : Untouched E i S₁ S₂)
    (h₂ : Untouched E i S₂ S₃) : Untouched E i S₁ S₃ where
  nproc := h₂.nproc.trans h₁.nproc
  thread := h₁.thread.trans h₂.thread
  events := h₂.events.trans h₁.events
  slot ht := (h₁.slot ht).trans (h₂.slot ht)
  loc ht := (h₁.loc ht).trans (h₂.loc ht)

theorem Mine.refl (i : Nat) (S : St) : Mine E i S S := ⟨.refl i S, rfl⟩

theorem Mine.trans {i : Nat} {S₁ S₂ S₃ : St} (h₁ : Mine E i S₁ S₂) (h₂ : Mine E i S₂ S₃) :
    Mine E i S₁ S₃ := ⟨h₁.1.trans h₂.1, h₂.before.trans h₁.before⟩

/-- The processes, the log and the memory are as they were. -/
theorem Untouched.of_eq {i : Nat} {S S' : St} (hd : S'.data.process_table = S.data.process_table)
    (hn : S'.data.nproc = S.data.nproc) (hl : S'.data.log = S.data.log)
    (hm : S'.sys.phys = S.sys.phys) (ho : S'.own = S.own) : Untouched E i S S' := by
  have ht : (S.proc i).SameThread (S'.proc i) := by
    show (S.data.process_table i).SameThread (S'.data.process_table i)
    rw [hd]
    rfl
  refine ⟨hn, ht, by rw [hl], fun _ => ?_, fun _ => ?_⟩
  all_goals
    unfold SamePart St.mem
    rw [ho, hm]
    exact .refl ..

/-- Interference that can happen has happened. -/
theorem Drift.self {S : St} (hu : S.locks.umode = false)
    (hs : S.locks.sie = true → Settled E me S) : Drift E me S S := by
  cases h : S.locks.sie with
  | false => exact .inl ⟨h, rfl⟩
  | true => exact .inr ⟨h, h, hu, hs h, fun i _ => .refl i S⟩

theorem Drift.trans {S₁ S₂ S₃ : St} (h₁ : Drift E me S₁ S₂) (h₂ : Drift E me S₂ S₃) :
    Drift E me S₁ S₃ := by
  rcases h₁ with ⟨hs, rfl⟩ | ⟨hs, hs', hu, hc, hm⟩
  · exact h₂
  · rcases h₂ with ⟨hs₂, -⟩ | ⟨-, hs₃, hu₃, hc₃, hm₃⟩
    · rw [hs'] at hs₂; cases hs₂
    · exact .inr ⟨hs, hs₃, hu₃, hc₃, fun i hi => (hm i hi).trans (hm₃ i hi)⟩

/-! ## Histories -/

namespace History

variable (h : History)

/-- What a change of the kernel's data adds to the history. -/
def moved (d d' : Data) : History where
  before i := if d.Frees d' i then none else h.before i
  dispatched r := h.dispatched r + if d.Dispatches d' r then 1 else 0

theorem next_data {s s' : Sys}
    (hl : s'.locks.interrupt_off_stack = s.locks.interrupt_off_stack) :
    h.next s s' = h.moved s.data s'.data := by
  have ho : ¬ s.locks.Opens s'.locks := fun hx => by
    have := hx.1.symm.trans (hl.symm.trans hx.2)
    cases this
  have hc : ¬ s.locks.Closes s'.locks := fun hx => by
    have := hx.1.symm.trans (hl.symm.trans hx.2)
    cases this
  simp only [next, moved, ho, hc, and_false, if_false]

theorem moved_eq {d d' : Data} (hf : ∀ i, ¬ d.Frees d' i) (hd : ∀ i, ¬ d.Dispatches d' i) :
    h.moved d d' = h := by
  simp only [moved, hf, hd, if_false, Nat.add_zero]

/-- No state changes. -/
theorem moved_same {d d' : Data}
    (hs : ∀ i, (d'.process_table i).state = (d.process_table i).state) : h.moved d d' = h := by
  refine h.moved_eq (fun i hf => hf.1 ((hs i).symm.trans hf.2)) fun i hd => ?_
  have := hd.1.symm.trans ((hs i).symm.trans hd.2)
  cases this

theorem moved_self (d : Data) : h.moved d d = h := h.moved_same fun _ => rfl

theorem next_self (s : Sys) : h.next s s = h := by rw [h.next_data rfl, h.moved_self]

/-- No state changes, and no critical section opens or closes. -/
theorem next_same {s s' : Sys}
    (hl : s'.locks.interrupt_off_stack = s.locks.interrupt_off_stack)
    (hs : ∀ i, (s'.data.process_table i).state = (s.data.process_table i).state) :
    h.next s s' = h := by rw [h.next_data hl, h.moved_same hs]

end History

/-! ## Invariants -/

theorem Inv.of_eq {run : Option Nat} {S S' : St} (h : Inv E run S)
    (hd : S'.data.process_table = S.data.process_table) (hn : S'.data.nproc = S.data.nproc)
    (hp : S'.data.pid = S.data.pid) (hl : S'.data.log = S.data.log)
    (hk : S'.data.kvm = S.data.kvm) (hm : S'.mem = S.mem) (ho : S'.own = S.own)
    (hh : S'.hist.dispatched = S.hist.dispatched)
    (hb : ∀ j < S.data.nproc, (S.proc j).state = .Unused → S.hist.before j = none →
      S'.hist.before j = none) : Inv E run S' where
  table := h.table.congr hn hp fun i _ => by rw [hd]; exact ⟨rfl, rfl, rfl, rfl⟩
  exits := h.exits.congr hn hp hl fun i _ => by rw [hd]; exact ⟨rfl, rfl, rfl, rfl⟩
  counted j hj := by
    show (S'.data.process_table j).quants = _
    rw [hd, hh]
    exact h.counted j (hn ▸ hj)
  fresh j hj hs := by
    have hs' : (S.proc j).state = .Unused := by
      show (S.data.process_table j).state = _
      rw [← hd]
      exact hs
    exact hb j (hn ▸ hj) hs' (h.fresh j (hn ▸ hj) hs')
  mem ht := by
    rw [ho, hm]
    refine (h.mem ht).congr (.refl ..) (fun _ _ => .refl ..) hn hk (fun i _ => ?_)
      (fun i hi => ?_) fun i _ hi => ?_
    · rw [hd]
      exact ⟨rfl, rfl, rfl⟩
    · exact ⟨hn ▸ hi.1, by rw [← hd]; exact hi.2⟩
    · exact ⟨hn.symm ▸ hi.1, by rw [hd]; exact hi.2⟩

/-- The fields of a process that no invariant reads apart. -/
structure Process.Alike (p p' : Process) : Prop extends p.SameRow p' where
  xstatus : p'.xstatus = p.xstatus
  reaped : p'.reaped = p.reaped
  mem : p.SameMem p'
  quants : p'.quants = p.quants

theorem Inv.updProc {run : Option Nat} {sys : Sys} {own : Party → Finset Nat} {h : History}
    {i : Nat} {f : Process → Process} (hi : Inv E run ⟨sys, own, h⟩) (hf : ∀ p : Process, p.Alike (f p)) :
    Inv E run ⟨{ sys with data := sys.data.updProc i f }, own, h⟩ := by
  have ha : ∀ j, (sys.data.process_table j).Alike ((sys.data.updProc i f).process_table j) :=
    fun j => by
      rw [Data.updProc_table]
      split
      · next hj => rw [hj]; exact hf _
      · exact ⟨⟨rfl, rfl, rfl, rfl⟩, rfl, rfl, ⟨rfl, rfl, rfl⟩, rfl⟩
  refine ⟨hi.table.congr rfl rfl fun j _ => (ha j).toSameRow, hi.exits.congr rfl rfl rfl fun j _ => ?_,
    fun j hj => (ha j).quants.trans (hi.counted j hj),
    fun j hj hs => hi.fresh j hj ((ha j).state.symm.trans hs), fun ht => ?_⟩
  · exact ⟨(ha j).pid, (ha j).state, (ha j).xstatus, (ha j).reaped⟩
  · refine (hi.mem ht).congr (.refl ..) (fun _ _ => .refl ..) rfl rfl (fun j _ => (ha j).mem)
      (fun j hl => ⟨hl.1, ?_⟩) fun j _ hl => ⟨hl.1, ?_⟩
    · rw [← (ha j).state]
      exact hl.2
    · show ((sys.data.updProc i f).process_table j).state = _ ∨ _
      rw [(ha j).state]
      exact hl.2

/-- Of the locks, only the privilege and what is held matter. -/
theorem Settled.of_locks {S S' : St} (h : Settled E me S) (hd : S'.data = S.data)
    (hm : S'.sys.phys = S.sys.phys) (ho : S'.own = S.own) (hh : S'.hist = S.hist)
    (hl : S'.locks.held = S.locks.held) (hu : S'.locks.umode = S.locks.umode) :
    Settled E me S' where
  held := hl.trans h.held
  current := by rw [hd]; exact h.current
  stvec := by rw [hd, hu]; exact h.stvec
  inv := h.inv.of_eq (by rw [hd]) (by rw [hd]) (by rw [hd]) (by rw [hd]) (by rw [hd])
    (congrArg Phys.mem hm) ho (by rw [hh]) fun j _ _ h => by rw [hh]; exact h
  closed := by rw [hh]; exact h.closed

/-! ## Upd -/

/-- Nothing changed but what no invariant reads. -/
theorem Upd.of_eq {S S' : St} (hd : S'.data.process_table = S.data.process_table)
    (hn : S'.data.nproc = S.data.nproc) (hl : S'.data.log = S.data.log)
    (hm : S'.sys.phys = S.sys.phys) (ho : S'.own = S.own)
    (hb : ∀ j, some j ≠ me → S'.hist.before j = S.hist.before j)
    (hg : S'.locks.sie = true → Settled E me S')
    (hw : E.track → Owned E.cfg S.own S.sys.phys.free) : Upd E me S S' where
  frame j hj h :=
    ⟨⟨by rw [hn]; exact h.1, by rw [hd]; exact h.2⟩, congrArg Process.context (congrFun hd j),
      .of_eq hd hn hl hm ho, hb j hj⟩
  newborn j _ h := .inl ⟨by rw [← hn]; exact h.1, by rw [← hd]; exact h.2⟩
  good := hg
  owned ht := by rw [ho, hm]; exact hw ht
  image _ := by
    unfold St.mem
    rw [hm]
    exact .refl _ _

/-! ## Locks -/

theorem Locks.Inv.acquire {l : Locks} (h : l.Inv) {x : LockId} (hx : x ∉ l.held) (old : Bool) :
    Locks.Inv { l.pushInterruptOff old with held := insert x l.held } := by
  refine ⟨?_, fun _ => rfl⟩
  show l.interrupt_off_stack + 1 = (insert x l.held).card
  rw [Finset.card_insert_of_notMem hx, h.stack]

theorem Locks.Inv.release {l : Locks} (h : l.Inv) {x : LockId} (hx : x ∈ l.held) :
    Locks.Inv { l.popInterruptOff with held := l.held.erase x } := by
  have hc : (l.held.erase x).card = l.interrupt_off_stack - 1 := by
    rw [Finset.card_erase_of_mem hx, h.stack]
  refine ⟨hc.symm, fun hn => ?_⟩
  have hne : l.interrupt_off_stack - 1 ≠ 0 := by
    rw [← hc]
    exact Finset.card_ne_zero.2 (Finset.nonempty_iff_ne_empty.2 hn)
  show (if l.interrupt_off_stack - 1 = 0 ∧ _ then true else l.sie) = false
  rw [if_neg fun h => hne h.1]
  exact h.off (Finset.ne_empty_of_mem hx)

/-- Something is held, so the stack is not empty. -/
theorem Locks.Inv.stack_pos {l : Locks} (h : l.Inv) {x : LockId} (hx : x ∈ l.held) :
    1 ≤ l.interrupt_off_stack := by
  rw [h.stack]
  exact Finset.card_pos.2 ⟨x, hx⟩

/-- With nothing held, any interrupt bit will do. -/
theorem Locks.Inv.of_held {l l' : Locks} (h : l.Inv) (hs : l'.interrupt_off_stack = l.interrupt_off_stack)
    (hh : l'.held = l.held) (ho : l'.held ≠ ∅ → l'.sie = false) : l'.Inv :=
  ⟨by rw [hs, hh]; exact h.stack, ho⟩

section
variable {S : St} {l : LockId} {old : Bool}

theorem St.acquire_dispatched : (S.acquire l old).hist.dispatched = S.hist.dispatched := by
  refine funext fun r => ?_
  have hd : ¬ S.data.Dispatches S.data r := fun h => by
    have := h.1.symm.trans h.2
    cases this
  exact congrArg _ (if_neg hd)

theorem St.acquire_before (i : Nat) : (S.acquire l old).hist.before i =
    if S.data.current = some i ∧ S.locks.interrupt_off_stack = 0 then some S.locks.sie
    else S.hist.before i := by
  show (if S.data.Frees S.data i then none
    else if S.data.current = some i ∧ S.locks.interrupt_off_stack = 0 ∧
      S.locks.interrupt_off_stack + 1 = 1 then some S.locks.sie
    else if S.data.current = some i ∧ S.locks.interrupt_off_stack = 1 ∧
      S.locks.interrupt_off_stack + 1 = 0 then none else S.hist.before i) = _
  rw [if_neg fun h : S.data.Frees S.data i => h.1 h.2]
  simp

theorem St.release_dispatched : (S.release l).hist.dispatched = S.hist.dispatched := by
  refine funext fun r => ?_
  have hd : ¬ S.data.Dispatches S.data r := fun h => by
    have := h.1.symm.trans h.2
    cases this
  exact congrArg _ (if_neg hd)

theorem St.release_before (i : Nat) : (S.release l).hist.before i =
    if S.data.current = some i ∧ S.locks.interrupt_off_stack = 1 then none
    else S.hist.before i := by
  show (if S.data.Frees S.data i then none
    else if S.data.current = some i ∧ S.locks.interrupt_off_stack = 0 ∧
      S.locks.interrupt_off_stack - 1 = 1 then some S.locks.sie
    else if S.data.current = some i ∧ S.locks.interrupt_off_stack = 1 ∧
      S.locks.interrupt_off_stack - 1 = 0 then none else S.hist.before i) = _
  rw [if_neg fun h : S.data.Frees S.data i => h.1 h.2, if_neg fun h => by omega]
  refine if_congr ⟨fun h => ⟨h.1, h.2.1⟩, fun h => ⟨h.1, h.2, by omega⟩⟩ rfl rfl

/-- Inside a critical section, or in the scheduler, a lock leaves no trace. -/
theorem St.acquire_hist (h : S.locks.interrupt_off_stack ≠ 0 ∨ S.data.current = none) :
    (S.acquire l old).hist = S.hist := by
  refine History.ext (funext fun i => ?_) St.acquire_dispatched
  rw [St.acquire_before]
  refine if_neg fun hx => h.elim (fun h => h hx.2) fun h => ?_
  rw [h] at hx
  cases hx.1

theorem St.release_hist (h : S.locks.interrupt_off_stack ≠ 1 ∨ S.data.current = none) :
    (S.release l).hist = S.hist := by
  refine History.ext (funext fun i => ?_) St.release_dispatched
  rw [St.release_before]
  refine if_neg fun hx => h.elim (fun h => h hx.2) fun h => ?_
  rw [h] at hx
  cases hx.1

theorem Upd.acquire (h0 : S.locks.interrupt_off_stack = 0 → S.data.current = me)
    (hw : E.track → Owned E.cfg S.own S.sys.phys.free) : Upd E me S (S.acquire l old) := by
  refine .of_eq rfl rfl rfl rfl rfl (fun j hj => ?_) (fun h => by cases h) hw
  rw [St.acquire_before]
  exact if_neg fun h => hj (h.1.symm.trans (h0 h.2))

theorem Upd.release (h1 : S.locks.interrupt_off_stack = 1 → S.data.current = me)
    (hg : (S.release l).locks.sie = true → Settled E me (S.release l))
    (hw : E.track → Owned E.cfg S.own S.sys.phys.free) : Upd E me S (S.release l) := by
  refine .of_eq rfl rfl rfl rfl rfl (fun j hj => ?_) hg hw
  rw [St.release_before]
  exact if_neg fun h => hj (h.1.symm.trans (h1 h.2))

end

/-- Taking a lock and releasing it leaves the interrupt bit. -/
theorem Locks.release_acquire {l : Locks} (h : l.Inv) {x : LockId} (hx : x ∉ l.held) :
    { ({ l.pushInterruptOff l.sie with held := insert x l.held } : Locks).popInterruptOff with
      held := (insert x l.held).erase x } =
    { l with interrupt_prev_state :=
        if l.interrupt_off_stack = 0 then l.sie else l.interrupt_prev_state } := by
  have hsie : l.interrupt_off_stack ≠ 0 → l.sie = false := fun h0 => h.off fun he => h0 (by
    rw [h.stack, he, Finset.card_empty])
  rw [Finset.erase_insert hx]
  unfold Locks.pushInterruptOff Locks.popInterruptOff
  obtain ⟨sie, umode, stack, prev, held⟩ := l
  dsimp only at hsie ⊢
  rw [Nat.add_sub_cancel]
  by_cases h0 : stack = 0
  · cases sie <;> simp [h0]
  · simp [h0, hsie h0]

/-! ## Memory code and the heap -/

/-- `S'` is `S` after code that uses the heap, or after memory code where memory is not followed. -/
structure St.Idles (E : Env) (S S' : St) : Prop where
  data : S'.data = S.data
  timer : S'.sys.timer = S.sys.timer
  sie : S'.locks.sie = S.locks.sie
  umode : S'.locks.umode = S.locks.umode
  stack : S'.locks.interrupt_off_stack = S.locks.interrupt_off_stack
  held : S'.locks.held = S.locks.held
  prev : S.locks.held ≠ ∅ → S'.locks.interrupt_prev_state = S.locks.interrupt_prev_state
  before : ∀ i, S'.hist.before i = S.hist.before i ∨
    (S.locks.held = ∅ ∧ S.data.current = some i ∧ S'.hist.before i = none)
  dispatched : S'.hist.dispatched = S.hist.dispatched
  mem : E.track → S'.sys.phys = S.sys.phys ∧ S'.own = S.own

/-- States that other contexts, memory code and uses of the heap lead to each other. -/
structure Steady (E : Env) (me : Option Nat) (P : St → Prop) : Prop where
  umode : ∀ S, P S → S.locks.umode = false
  prints : ∀ S, P S → S.Prints me
  settled : ∀ S, P S → S.locks.sie = true → Settled E me S
  drift : ∀ S S', P S → Drift E me S S' → S'.locks.Inv → P S'
  idles : ∀ S S', P S → S.Idles E S' → P S'

theorem Inv.idles {run : Option Nat} {S S' : St} (h : Inv E run S) (hi : S.Idles E S') :
    Inv E run S' where
  table := by rw [hi.data]; exact h.table
  exits := by rw [hi.data]; exact h.exits
  counted j hj := by
    show (S'.data.process_table j).quants = _
    rw [hi.data] at hj ⊢
    rw [hi.dispatched]
    exact h.counted j hj
  fresh j hj hs := by
    have hs' : (S.proc j).state = .Unused := by
      show (S.data.process_table j).state = _
      rw [← hi.data]
      exact hs
    have hb := h.fresh j (hi.data ▸ hj) hs'
    rcases hi.before j with he | ⟨-, -, he⟩
    · exact he.trans hb
    · exact he
  mem ht := by
    obtain ⟨hp, ho⟩ := hi.mem ht
    rw [hi.data, ho]
    show MemInv _ _ S'.sys.phys.mem _
    rw [hp]
    exact h.mem ht

theorem Settled.idles {S S' : St} (h : Settled E me S) (hi : S.Idles E S') : Settled E me S' where
  held := hi.held.trans h.held
  current := by rw [hi.data]; exact h.current
  stvec := by rw [hi.data, hi.umode]; exact h.stvec
  inv := h.inv.idles hi
  closed i hme := by
    rcases hi.before i with hb | ⟨-, -, hb⟩
    · exact hb.trans (h.closed i hme)
    · exact hb

/-- `S'` is `S` once the heap is locked. -/
structure St.HeapLocked (S S' : St) : Prop where
  data : S'.data = S.data
  timer : S'.sys.timer = S.sys.timer
  locks : S'.locks =
    { S.locks.pushInterruptOff S.locks.sie with held := insert .heap S.locks.held }
  before : ∀ i, S'.hist.before i =
    if S.data.current = some i ∧ S.locks.interrupt_off_stack = 0 then some S.locks.sie
    else S.hist.before i
  dispatched : S'.hist.dispatched = S.hist.dispatched
  phys : S'.sys.phys = S.sys.phys
  own : S'.own = S.own

/-- The state with memory `phys`, the frames of which belong to `own`. -/
def St.setPhys (S : St) (phys : Phys) (own : Party → Finset Nat) : St :=
  S.step { S.sys with phys } own

@[simp] theorem St.setPhys_hist (S : St) (phys : Phys) (own : Party → Finset Nat) :
    (S.setPhys phys own).hist = S.hist := S.hist.next_same rfl fun _ => rfl

theorem St.HeapLocked.setPhys {S₀ S : St} (h : S₀.HeapLocked S) (phys : Phys)
    (own : Party → Finset Nat) : (S₀.setPhys phys own).HeapLocked (S.setPhys phys own) := by
  refine ⟨h.data, h.timer, h.locks, fun i => ?_, ?_, rfl, rfl⟩
  · rw [St.setPhys_hist, St.setPhys_hist]
    exact h.before i
  · rw [St.setPhys_hist, St.setPhys_hist]
    exact h.dispatched

/-- Memory goes to `phys` and its frames to `own`; what the other threads have stays theirs, as it
was. -/
structure St.Spares (E : Env) (me : Option Nat) (S : St) (phys : Phys) (own : Party → Finset Nat) :
    Prop where
  owned : Owned E.cfg own phys.free
  frame : ∀ j, some j ≠ me → S.data.Live j →
    SamePart S (S.setPhys phys own) (.slot j) ∧ SamePart S (S.setPhys phys own) (.loc j)
  image : E.cfg.SameImage S.mem phys.mem

theorem St.HeapLocked.spares {S₀ S : St} (h : S₀.HeapLocked S) {phys : Phys}
    {own : Party → Finset Nat} (hs : S₀.Spares E me phys own) : S.Spares E me phys own := by
  refine ⟨hs.owned, fun j hj hl => ?_, ?_⟩
  · unfold SamePart St.mem
    rw [h.own, h.phys]
    exact hs.frame j hj (h.data ▸ hl)
  · unfold St.mem
    rw [h.phys]
    exact hs.image

/-- Memory operations change memory only. -/
theorem Sys.execMem_ok {c : Cfg} {o : MemOp} {s s' : Sys} {r : o.Resp}
    (h : s.execMem c o = .ok (r, s')) :
    ∃ phys, Phys.exec c o s.phys = .ok (r, phys) ∧ s' = { s with phys } := by
  unfold Sys.execMem at h
  cases hx : Phys.exec c o s.phys with
  | error e =>
    rw [hx] at h
    cases h
  | ok q =>
    rw [hx] at h
    cases h
    exact ⟨_, rfl, rfl⟩

/-- A lock that is taken was free. -/
theorem Sys.acquire_ok {c : Cfg} {t n : Nat} {l : LockId} {old : Bool} {s s' : Sys} {r : Unit}
    (h : KOp.exec c t n (.acquire l old) s = .ok (r, s')) : l ∉ s.locks.held ∧ s' = { s with
      locks := { s.locks.pushInterruptOff old with held := insert l s.locks.held } } := by
  by_cases hl : l ∈ s.locks.held
  · have : Except.error Stop.spin = Except.ok (r, s') := (if_pos hl).symm.trans h
    cases this
  · cases (if_neg hl).symm.trans h
    exact ⟨hl, rfl⟩

/-- A lock that is released leaves a critical section. -/
theorem Sys.release_ok {c : Cfg} {t n : Nat} {l : LockId} {s s' : Sys} {r : Unit}
    (h : KOp.exec c t n (.release l) s = .ok (r, s')) : 1 ≤ s.locks.interrupt_off_stack ∧
      s' = { s with locks := { s.locks.popInterruptOff with held := s.locks.held.erase l } } := by
  by_cases hl : s.locks.interrupt_off_stack < 1
  · have : Except.error Stop.panic = Except.ok (r, s') := (if_pos hl).symm.trans h
    cases this
  · cases (if_neg hl).symm.trans h
    exact ⟨by omega, rfl⟩

/-- A memory operation. -/
theorem Upd.mem {S : St} {phys : Phys} {own : Party → Finset Nat}
    (h : E.track → S.Spares E me phys own)
    (hg : S.locks.sie = true → Settled E me (S.setPhys phys own)) :
    Upd E me S (S.setPhys phys own) where
  frame j hj hl := by
    refine ⟨hl, rfl, ⟨rfl, rfl, rfl, fun ht => ((h ht).frame j hj hl).1,
      fun ht => ((h ht).frame j hj hl).2⟩, ?_⟩
    rw [St.setPhys_hist]
  newborn j _ hl := .inl hl
  good := hg
  owned ht := (h ht).owned
  image ht := (h ht).image

/-- The mode of memory code in the kernel: the allocator may have no frame, and the code may
panic. -/
def Env.mode (E : Env) (shared : Bool) : Mode := ⟨E.cfg, shared, fun _ => True, True, False⟩

/-- An operation that does not change memory. -/
def MemOp.Reads : MemOp → Prop
  | .read _ => True
  | .readByte _ => True
  | .panic _ => True
  | _ => False

namespace MemOp.Reads

variable {o : MemOp} {c : Cfg} {s s' : Phys} {r : o.Resp}

theorem same (ho : o.Reads) (h : Phys.exec c o s = .ok (r, s')) : s' = s := by
  cases o with
  | read a => exact (Phys.exec_read h).2
  | readByte a => exact (Phys.exec_readByte h).2
  | panic msg => exact r.elim
  | _ => exact ho.elim

/-- What the logic says of the value that is read. -/
theorem wp (ho : o.Reads) {D : Mode} (hD : D.shared = true) {v : View} {R : o.Resp → View → Prop}
    (h : Phys.exec c o s = .ok (r, s')) (hv : ∀ a, pageOf a ∈ v.own → v.mem a = s.mem a)
    (hw : memSpec D o R v) : R r v := by
  have hst : ∀ a, v.Stable D a → v.mem a = s.mem a := fun a ha =>
    hv a (ha.resolve_left (by rw [hD]; simp))
  cases o with
  | read a =>
    obtain ⟨rfl, -⟩ := Phys.exec_read h
    exact hw.2 _ (Bytes.word_lt _ _) fun ha => Bytes.word_congr fun i hi => (hst _ (ha i hi)).symm
  | readByte a =>
    obtain ⟨rfl, -⟩ := Phys.exec_readByte h
    exact hw.2 _ fun ha => (hst _ ha).symm
  | panic msg => exact r.elim
  | _ => exact ho.elim

end MemOp.Reads

/-- Memory code that only reads leaves its view. -/
theorem M.wp_reads {α : Type} {p : M α} (hp : p.Only MemOp.Reads) {D : Mode}
    (hD : D.stop) {v : View} : M.wp D p (fun _ _ => True) v := by
  induction p with
  | ret a => exact trivial
  | op o p ih =>
    obtain ⟨ho, hp⟩ := hp
    cases o with
    | read a => exact ⟨.inr hD, fun x _ _ => ih x (hp x)⟩
    | readByte a => exact ⟨.inr hD, fun x _ => ih x (hp x)⟩
    | panic msg => exact hD
    | _ => exact ho.elim

/-- States that memory code of the mode `D` leads to each other, and its view in each of them. -/
structure Keeper (E : Env) (me : Option Nat) (D : Mode) (P : View → St → Prop) : Prop where
  steady : ∀ v, Steady E me (P v)
  op : ∀ {v : View} {S : St} {o : MemOp} {Q : o.Resp → View → Prop}, P v S →
    (E.track → Owned E.cfg S.own S.sys.phys.free) → (E.track → memSpec D o Q v) →
    (E.track → ∀ f, o = .dealloc f → f ∉ S.sys.phys.free) ∧
      ∀ r phys, Phys.exec E.cfg o S.sys.phys = .ok (r, phys) → ∃ v' own,
        (E.track → S.Spares E me phys own) ∧ P v' (S.setPhys phys own) ∧ (E.track → Q r v')

section
variable {P : St → Prop} {S : St} {α : Type}

namespace K

theorem wp_lock_heap (hP : Steady E me P) (h : P S) {p : K α} {Q : α → St → Prop}
    (k : ∀ S₀ S', P S₀ → S₀.locks.Inv → S₀.HeapLocked S' → wp E me p Q S') :
    wp E me (lock .heap >>= fun _ => p) Q S := by
  refine ⟨hP.umode _ h, fun S₁ hd₁ hl₁ _ => ?_⟩
  have h₁ := hP.drift _ _ h hd₁ hl₁
  refine ⟨hP.umode _ h₁, fun S₂ hd₂ hl₂ how₂ => ?_⟩
  have h₂ := hP.drift _ _ h₁ hd₂ hl₂
  have hsie : S₁.locks.sie = S₂.locks.sie := by
    rcases hd₂ with ⟨-, rfl⟩ | ⟨hs, hs', -⟩
    · rfl
    · exact hs.trans hs'.symm
  have hpr := hP.prints _ h₂
  have hcur : S₂.locks.interrupt_off_stack = 0 → S₂.data.current = me := fun h0 =>
    hpr.current (Finset.card_eq_zero.1 (hl₂.stack.symm.trans h0))
  rw [hsie]
  exact ⟨hpr.heap, .acquire hcur how₂, k S₂ _ h₂ hl₂
    ⟨rfl, rfl, rfl, St.acquire_before, St.acquire_dispatched, rfl, rfl⟩⟩

theorem wp_release_heap (hP : Steady E me P) {S' : St} (h : P S)
    (hl : S.locks.Inv) (hh : S.HeapLocked S') {p : K α} {Q : α → St → Prop}
    (k : ∀ S', P S' → wp E me p Q S') : wp E me (release .heap >>= fun _ => p) Q S' := by
  have hpr := hP.prints _ h
  have hsie : S'.locks.sie = false := by rw [hh.locks]; rfl
  have hu : S'.locks.umode = false := by rw [hh.locks]; exact hP.umode _ h
  have hstack : S'.locks.interrupt_off_stack = S.locks.interrupt_off_stack + 1 := by
    rw [hh.locks]; rfl
  have h0 : S.locks.interrupt_off_stack = 0 ↔ S.locks.held = ∅ := by
    rw [hl.stack, Finset.card_eq_zero]
  -- what the release leaves
  have hlocks : (S'.release .heap).locks = { S.locks with
      interrupt_prev_state :=
        if S.locks.interrupt_off_stack = 0 then S.locks.sie
        else S.locks.interrupt_prev_state } := by
    rw [← Locks.release_acquire hl hpr.heap]
    show ({ S'.locks.popInterruptOff with held := S'.locks.held.erase .heap } : Locks) = _
    rw [hh.locks]
  have hi : S.Idles E (S'.release .heap) := by
    refine ⟨hh.data, hh.timer, by rw [hlocks], by rw [hlocks], by rw [hlocks], by rw [hlocks],
      fun hne => ?_, fun i => ?_, St.release_dispatched.trans hh.dispatched,
      fun _ => ⟨hh.phys, hh.own⟩⟩
    · rw [hlocks]
      exact if_neg fun he => hne (h0.1 he)
    · rw [St.release_before, hh.before, hh.data, hstack]
      by_cases hc : S.data.current = some i ∧ S.locks.interrupt_off_stack = 0
      · exact .inr ⟨h0.1 hc.2, hc.1, if_pos ⟨hc.1, by rw [hc.2]⟩⟩
      · refine .inl ?_
        rw [if_neg fun h' => hc ⟨h'.1, by omega⟩, if_neg hc]
  have h' := hP.idles _ _ h hi
  refine ⟨hu, fun S₁ hd _ how => ?_⟩
  obtain ⟨-, rfl⟩ : S'.locks.sie = false ∧ S₁ = S' := by
    rcases hd with hd | ⟨hs, -⟩
    · exact hd
    · rw [hsie] at hs; cases hs
  refine ⟨by rw [hh.locks]; exact Finset.mem_insert_self .., fun h1 i hc => .inl ?_,
    .release (fun h1 => ?_) (hP.settled _ h') how, k _ h'⟩
  · rw [hstack] at h1
    rw [hh.before, if_pos ⟨hh.data ▸ hc, by omega⟩, hh.locks]
    exact congrArg some (if_pos (by omega)).symm
  · rw [hh.data]
    exact hpr.current (h0.1 (by omega))

theorem wp_heapUseLoop (hP : Steady E me P) {Q : Unit → St → Prop}
    (k : ∀ S', P S' → Q () S') : ∀ n S, P S → wp E me (heapUseLoop n) Q S := by
  intro n
  induction n with
  | zero => exact fun S h => k S h
  | succ n ih =>
    intro S h
    exact wp_lock_heap hP h fun S₀ S' h₀ hl₀ hh => wp_release_heap hP h₀ hl₀ hh ih

theorem wp_heapUse (hP : Steady E me P) (h : P S) {Q : Unit → St → Prop}
    (k : ∀ S', P S' → Q () S') : wp E me heapUse Q S :=
  ⟨hP.umode _ h, fun S' hd hl _ n => wp_heapUseLoop hP k n S' (hP.drift _ _ h hd hl)⟩

section
variable {D : Mode} {P : View → St → Prop} {v : View} {o : MemOp} {R : o.Resp → View → Prop}
  {p : o.Resp → K α} {Q : α → St → Prop}

/-- A memory operation that does not fail, with the heap locked. -/
theorem wp_mem_locked (hK : Keeper E me D P) {S₀ : St} (h : P v S₀) (hh : S₀.HeapLocked S)
    (ho : ∀ c s e, Phys.exec c o s ≠ .error e) (hw : E.track → memSpec D o R v)
    (k : ∀ r v' S₁ S', P v' S₁ → S₁.locks = S₀.locks → S₁.HeapLocked S' → (E.track → R r v') →
      wp E me (p r) Q S') : wp E me (mem o >>= p) Q S := by
  have hsie : S.locks.sie = false := by rw [hh.locks]; rfl
  refine ⟨by rw [hh.locks]; exact (hK.steady v).umode _ h, fun S₁ hd _ how => ?_⟩
  obtain ⟨-, rfl⟩ : S.locks.sie = false ∧ S₁ = S := by
    rcases hd with hd | ⟨hs, -⟩
    · exact hd
    · rw [hsie] at hs; cases hs
  obtain ⟨hfree, hop⟩ := hK.op h (by rw [← hh.own, ← hh.phys]; exact how) hw
  rw [← hh.phys] at hfree hop
  refine ⟨hfree, fun e he => ?_, fun r s he => ?_⟩
  · unfold Sys.execMem at he
    cases hx : Phys.exec E.cfg o S₁.sys.phys with
    | error e => exact (ho _ _ _ hx).elim
    | ok q =>
      rw [hx] at he
      cases he
  · obtain ⟨phys, hx, rfl⟩ := Sys.execMem_ok he
    obtain ⟨v', own, hsp, hP, hR⟩ := hop r phys hx
    exact ⟨own, .mem (fun ht => hh.spares (hsp ht)) (by rw [hsie]; intro hs; cases hs),
      k r v' _ _ hP rfl (hh.setPhys phys own) hR⟩

/-- A memory operation with the heap not locked. -/
theorem wp_mem (hK : Keeper E me D P) (h : P v S) (hw : E.track → memSpec D o R v)
    (k : ∀ r v' S', P v' S' → (E.track → R r v') → wp E me (p r) Q S') :
    wp E me (mem o >>= p) Q S := by
  refine ⟨(hK.steady v).umode _ h, fun S₁ hd hl how => ?_⟩
  have h₁ := (hK.steady v).drift _ _ h hd hl
  obtain ⟨hfree, hop⟩ := hK.op h₁ how hw
  refine ⟨hfree, fun e _ => (hK.steady v).prints _ h₁, fun r s he => ?_⟩
  obtain ⟨phys, hx, rfl⟩ := Sys.execMem_ok he
  obtain ⟨v', own, hsp, hP, hR⟩ := hop r phys hx
  exact ⟨own, .mem hsp ((hK.steady v').settled _ hP), k r v' _ hP hR⟩

/-- A panic of memory code. -/
theorem wp_mem_panic (hP : Steady E me (P v)) (h : P v S) {msg : String} {p : Empty → K α} :
    wp E me (mem (.panic msg) >>= p) Q S := by
  refine ⟨hP.umode _ h, fun S₁ hd hl _ => ⟨fun _ f hf => (by cases hf), fun e _ => ?_, fun r => r.elim⟩⟩
  exact hP.prints _ (hP.drift _ _ h hd hl)

theorem wp_memOp (hK : Keeper E me D P) (h : P v S) (hw : E.track → memSpec D o R v)
    (k : ∀ r v' S', P v' S' → (E.track → R r v') → wp E me (p r) Q S') :
    wp E me (memOp o >>= p) Q S := by
  cases o with
  | alloc =>
    refine wp_lock_heap (hK.steady v) h fun S₀ S' h₀ hl₀ hh => ?_
    refine wp_mem_locked hK h₀ hh (fun c s e he => ?_) hw fun r v' S₁ S₂ h₁ hl₁ hh₁ hR => ?_
    · cases he
    · exact wp_release_heap (hK.steady v') h₁ (hl₁ ▸ hl₀) hh₁ fun S₃ h₃ => k r v' S₃ h₃ hR
  | dealloc f =>
    show wp E me ((if f = 0 then _ else _) >>= p) Q S
    by_cases hf : f = 0
    · rw [if_pos hf]
      exact wp_mem_panic (hK.steady v) h
    · rw [if_neg hf]
      refine wp_lock_heap (hK.steady v) h fun S₀ S' h₀ hl₀ hh => ?_
      refine wp_mem_locked hK h₀ hh (fun c s e he => ?_) hw fun r v' S₁ S₂ h₁ hl₁ hh₁ hR => ?_
      · simp [Phys.exec, hf] at he
      · exact wp_release_heap (hK.steady v') h₁ (hl₁ ▸ hl₀) hh₁ fun S₃ h₃ => k () v' S₃ h₃ hR
  | _ => exact wp_mem hK h hw k

end

/-! ### Panics -/

theorem wp_panic (hP : Steady E me P) (h : P S) {msg : String} (hf : ¬ Forbidden E msg)
    {Q : α → St → Prop} : wp E me (K.panic msg) Q S :=
  ⟨hP.umode _ h, fun _ hd hl _ => ⟨hf, hP.prints _ (hP.drift _ _ h hd hl)⟩⟩

theorem wp_add (hP : Steady E me P) (h : P S) {loc : String} {a b : Nat}
    (hf : ¬ Forbidden E (loc ++ ": attempt to add with overflow")) {f : Nat → K α}
    {Q : α → St → Prop} (k : a + b < USIZE → wp E me (f (a + b)) Q S) :
    wp E me (add loc a b >>= f) Q S := by
  rw [wp_bind]
  unfold add
  split
  · next hlt => exact k hlt
  · exact wp_panic hP h hf

theorem wp_unwrap {β : Type} (hP : Steady E me P) (h : P S) {o : Option β} {f : β → K α}
    {Q : α → St → Prop} (k : ∀ a, o = some a → wp E me (f a) Q S) :
    wp E me (unwrap o >>= f) Q S := by
  rw [wp_bind]
  cases o with
  | some a => exact k a rfl
  | none => exact wp_panic hP h (by simp [Forbidden])

theorem wp_unwrapOk {β : Type} (hP : Steady E me P) (h : P S) {x : Except Unit β} {f : β → K α}
    {Q : α → St → Prop} (k : ∀ a, x = .ok a → wp E me (f a) Q S) :
    wp E me (unwrapOk x >>= f) Q S := by
  rw [wp_bind]
  cases x with
  | ok a => exact k a rfl
  | error => exact wp_panic hP h (by simp [Forbidden])

/-! ### Memory code -/

theorem wp_lift {D : Mode} {P : View → St → Prop} (hK : Keeper E me D P) {p : M α}
    {R : α → View → Prop} {Q : α → St → Prop}
    (k : ∀ a v S', P v S' → (E.track → R a v) → Q a S') :
    ∀ v S, P v S → (E.track → M.wp D p R v) → wp E me (lift p) Q S := by
  induction p with
  | ret a => exact fun v S h hw => k a v S h hw
  | op o p ih => exact fun v S h hw => wp_memOp hK h hw fun r v' S' h' hR => ih r v' S' h' hR

/-- A read. -/
theorem wp_mem_read {P : St → Prop} (hP : Steady E me P) (h : P S) {o : MemOp} (ho : o.Reads)
    {p : o.Resp → K α} {Q : α → St → Prop}
    (k : ∀ r S', P S' → Phys.exec E.cfg o S'.sys.phys = .ok (r, S'.sys.phys) →
      wp E me (p r) Q S') : wp E me (mem o >>= p) Q S := by
  refine ⟨hP.umode _ h, fun S₁ hd hl how => ?_⟩
  have h₁ := hP.drift _ _ h hd hl
  refine ⟨fun _ f hf => ?_, fun e _ => hP.prints _ h₁, fun r s he => ?_⟩
  · subst hf
    exact ho.elim
  obtain ⟨phys, hx, rfl⟩ := Sys.execMem_ok he
  obtain rfl := ho.same hx
  have hs : S₁.step { S₁.sys with phys := S₁.sys.phys } S₁.own = S₁ :=
    congrArg (St.mk _ S₁.own) (S₁.hist.next_self _)
  refine ⟨S₁.own, ?_⟩
  rw [hs]
  refine ⟨.of_eq rfl rfl rfl rfl rfl (fun _ _ => rfl) (hP.settled _ h₁) how, k r S₁ h₁ hx⟩

/-- Memory code that only reads, from frames where memory is as its view says. -/
theorem wp_lift_reads {P : St → Prop} (hP : Steady E me P) {v : View}
    (hv : E.track → ∀ S, P S → ∀ a, pageOf a ∈ v.own → v.mem a = S.mem a) {D : Mode}
    (hD : D.shared = true) {p : M α} (hp : p.Only MemOp.Reads) {R : α → View → Prop}
    {Q : α → St → Prop} (k : ∀ a S', P S' → (E.track → R a v) → Q a S') :
    ∀ S, P S → (E.track → M.wp D p R v) → wp E me (lift p) Q S := by
  induction p with
  | ret a => exact fun S h hw => k a S h hw
  | op o p ih =>
    intro S h hw
    have hgo : wp E me (mem o >>= fun r => lift (p r)) Q S := by
      refine wp_mem_read hP h hp.1 fun r S' h' hx => ih r (hp.2 r) S' h' fun ht => ?_
      exact hp.1.wp hD hx (hv ht S' h') (hw ht)
    have ho := hp.1
    cases o with
    | alloc => exact ho.elim
    | dealloc f => exact ho.elim
    | _ => exact hgo

end K

end

/-! ## Printing anywhere -/

/-- The state of code that may print: no more than the machine keeps. -/
structure Printing (E : Env) (me : Option Nat) (S : St) : Prop extends S.Prints me where
  locks : S.locks.Inv
  umode : S.locks.umode = false
  settled : S.locks.sie = true → Settled E me S

theorem Printing.drift {S S' : St} (h : Printing E me S) (hd : Drift E me S S')
    (hl : S'.locks.Inv) : Printing E me S' := by
  rcases hd with ⟨-, rfl⟩ | ⟨-, hs, hu, hc, -⟩
  · exact h
  · refine ⟨⟨?_, fun _ => hc.current⟩, hl, hu, fun _ => hc⟩
    rw [hc.held]
    exact Finset.notMem_empty _

theorem Printing.steady : Steady E me (Printing E me) where
  umode _ h := h.umode
  prints _ h := h.toPrints
  settled _ h := h.settled
  drift _ _ h hd hl := h.drift hd hl
  idles S S' h hi := by
    refine ⟨⟨?_, fun he => ?_⟩, h.locks.of_held hi.stack hi.held fun hn => ?_, hi.umode.trans h.umode,
      fun hs => (h.settled (hi.sie ▸ hs)).idles hi⟩
    · rw [hi.held]
      exact h.heap
    · rw [hi.data]
      exact h.current (hi.held ▸ he)
    · rw [hi.sie]
      exact h.locks.off (hi.held ▸ hn)

end BareMetal
