import BareMetal.Kernel.Proof.Rules

/-!
# Code with interrupts off

`q.on d L` is a state of the kernel with interrupts off: its data is `d`, the locks `L` are held, and
`q` says the rest. Nothing else runs, and the rules say what each operation makes of the state. An
assignment to the kernel's data must be `Legal` and spare the other threads (`Data.Spares`); for an
assignment to one process both follow from `Data.Assigns`.
-/

namespace BareMetal

open Lib

/-- A state with interrupts off, but for the kernel's data and the locks that are held. -/
structure Quiet where
  prev : Bool
  hist : History
  timer : Timer
  phys : Phys
  own : Party → Finset Nat

namespace Quiet

def locks (q : Quiet) (L : Finset LockId) : Locks := ⟨false, false, L.card, q.prev, L⟩

def on (q : Quiet) (d : Data) (L : Finset LockId) : St :=
  ⟨⟨q.phys, q.locks L, d, q.timer⟩, q.own, q.hist⟩

theorem locks_inv (q : Quiet) (L : Finset LockId) : (q.locks L).Inv := ⟨rfl, fun _ => rfl⟩

/-- A state with interrupts off, in the kernel. -/
theorem exists_on {S : St} (hs : S.locks.sie = false) (hu : S.locks.umode = false)
    (hl : S.locks.Inv) : ∃ q : Quiet, q.on S.data S.locks.held = S := by
  obtain ⟨⟨phys, ⟨sie, umode, stack, prev, held⟩, d, t⟩, own, h⟩ := S
  dsimp only [St.locks] at hs hu
  subst hs hu
  obtain rfl : stack = held.card := hl.stack
  exact ⟨⟨prev, h, t, phys, own⟩, rfl⟩

end Quiet

variable {E : Env} {me : Option Nat}

/-- The invariants do not depend on the locks that are held. -/
theorem Inv.on {run : Option Nat} {q : Quiet} {d : Data} {L : Finset LockId}
    (h : Inv E run (q.on d L)) (L' : Finset LockId) : Inv E run (q.on d L') :=
  h.of_eq rfl rfl rfl rfl rfl rfl rfl rfl fun _ _ _ h => h

/-! ## Assignments -/

/-- A change of the kernel's data spares the threads that do not run. -/
structure Data.Spares (me : Option Nat) (h : History) (d d' : Data) : Prop where
  frame : ∀ j, some j ≠ me → d.Live j → d'.Live j ∧ d'.nproc = d.nproc ∧
    (d'.process_table j).context = (d.process_table j).context ∧
    (d.process_table j).SameThread (d'.process_table j) ∧ eventsOf j d'.log = eventsOf j d.log
  newborn : ∀ j, some j ≠ me → d'.Live j → d.Live j ∨ Born (d'.process_table j) (h.before j)

theorem Data.Live.not_frees {d d' : Data} {j : Nat} (h : d'.Live j) : ¬ d.Frees d' j := fun hf => by
  have h1 := h.2
  rw [hf.2] at h1
  rcases h1 with h1 | h1 | h1 <;> cases h1

theorem Data.Spares.upd {q : Quiet} {L : Finset LockId} {d d' : Data}
    (h : d.Spares me q.hist d') (hw : E.track → Owned E.cfg q.own q.phys.free) :
    Upd E me (q.on d L) ({ q with hist := q.hist.moved d d' }.on d' L) where
  frame j hj hl := by
    obtain ⟨h1, h2, hc, h3, h4⟩ := h.frame j hj hl
    exact ⟨h1, hc, ⟨h2, h3, h4, fun _ => .refl .., fun _ => .refl ..⟩, if_neg h1.not_frees⟩
  newborn j hj hl := by
    have hl' : d'.Live j := hl
    refine (h.newborn j hj hl).imp_right fun hb => ?_
    show Born (d'.process_table j) (if d.Frees d' j then none else q.hist.before j)
    rw [if_neg hl'.not_frees]
    exact hb
  good hs := by cases hs
  owned := hw
  image _ := .refl _ _

/-- No state changes. -/
theorem Data.Spares.upd_same {q : Quiet} {L : Finset LockId} {d d' : Data}
    (h : d.Spares me q.hist d')
    (hs : ∀ i, (d'.process_table i).state = (d.process_table i).state)
    (hw : E.track → Owned E.cfg q.own q.phys.free) : Upd E me (q.on d L) (q.on d' L) := by
  have hu := h.upd (L := L) hw
  rw [q.hist.moved_same hs] at hu
  exact hu

@[simp] theorem Data.moves_refl (d : Data) (j : Nat) (s : ProcState) : d.Moves j s s := by
  cases s <;> exact rfl

/-- Who stays in a state is not dispatched. -/
theorem Data.not_dispatches_of_state {d d' : Data} {j : Nat}
    (h : (d'.process_table j).state = (d.process_table j).state) : ¬ d.Dispatches d' j := fun hd => by
  have := hd.1.symm.trans (h.symm.trans hd.2)
  cases this

theorem Data.Renames.of_pid {d : Data} {j : Nat} {p p' : Process} (hp : p'.pid = p.pid)
    (hx : p.state = .Zombie → p'.xstatus = p.xstatus ∧ p'.state = .Zombie) : d.Renames j p p' :=
  ⟨.inl hp, fun h => (hx h).1, fun h h' => by
    have := (hx h).2.symm.trans h'
    cases this⟩

theorem Data.Renames.refl (d : Data) (j : Nat) (p : Process) : d.Renames j p p :=
  .of_pid rfl fun h => ⟨rfl, h⟩

/-- The processes are as they were. -/
theorem Data.Changes.of_table {d d' : Data} (ht : d'.process_table = d.process_table)
    (hn' : d'.nproc = d.nproc) (hp : d.pid ≤ d'.pid)
    (hc : ∀ i, d'.current = some i → d.current ≠ some i → d.Picked i) : d.Changes d' where
  state j _ := by
    rw [ht]
    exact d.moves_refl j _
  pick j _ hd := by
    unfold Data.Dispatches at hd
    rw [ht] at hd
    have := hd.1.symm.trans hd.2
    cases this
  current := hc
  quants j _ := Nat.le_of_eq (by rw [ht])
  counts j _ := .inl (by rw [ht])
  nproc := Nat.le_of_eq hn'.symm
  grown j hj hj' := absurd hj (by omega)
  names j _ := by
    rw [ht]
    exact .refl d j _
  next := hp
  trapframe j _ _ := by rw [ht]; exact ⟨rfl, rfl⟩
  pagetable j _ _ _ := by rw [ht]; exact ⟨rfl, rfl⟩
  made j hj ha hn := by
    unfold Data.Alive Data.Live at ha hn
    rw [ht, hn'] at ha
    exact (hn (hn' ▸ hj) ha).elim

theorem Data.Spares.of_table {d d' : Data} {h : History}
    (ht : d'.process_table = d.process_table) (hn : d'.nproc = d.nproc) (hl : d'.log = d.log) :
    d.Spares me h d' where
  frame j _ hj := by
    refine ⟨⟨by rw [hn]; exact hj.1, by rw [ht]; exact hj.2⟩, hn, by rw [ht], ?_, by rw [hl]⟩
    rw [ht]
    exact .refl _
  newborn j _ hj := .inl ⟨by rw [← hn]; exact hj.1, by rw [← ht]; exact hj.2⟩

/-- Slot `j` may be assigned `p`. -/
structure Data.Assigns (me : Option Nat) (h : History) (d : Data) (j : Nat) (p : Process) :
    Prop where
  moves : d.Moves j (d.process_table j).state p.state
  pick : (d.process_table j).state = .Runnable → p.state = .Running → ∀ r < d.nproc,
    (d.process_table r).state = .Runnable → (d.process_table j).quants ≤ (d.process_table r).quants
  quants : (d.process_table j).quants ≤ p.quants
  counts : p.quants = (d.process_table j).quants ∨ (d.process_table j).state = .Running
  names : d.Renames j (d.process_table j) p
  trapframe : d.Alive j → p.trapframe = (d.process_table j).trapframe ∧
    p.unboxing = (d.process_table j).unboxing
  pagetable : d.Alive j → ¬ (d.current = some j ∧ d.Execs j) →
    p.pagetable = (d.process_table j).pagetable ∧ p.dropping = (d.process_table j).dropping
  made : j < d.nproc → ¬ d.Alive j → (p.state = .Runnable ∨ p.state = .Running ∨
    p.state = .Sleeping) ∨ p.state = .Zombie → p.unboxing = false ∧ p.dropping = false
  thread : some j ≠ me → d.Live j → (p.state = .Runnable ∨ p.state = .Running ∨
    p.state = .Sleeping) ∧ p.context = (d.process_table j).context ∧
      (d.process_table j).SameThread p
  born : some j ≠ me → ¬ d.Live j → (p.state = .Runnable ∨ p.state = .Running ∨
    p.state = .Sleeping) → Born p (h.before j)

section
variable {d : Data} {h : History} {j : Nat} {g : Process → Process} {p : Process}

theorem Data.Assigns.legal (ha : d.Assigns me h j (g (d.process_table j))) :
    Legal d (d.updProc j g) where
  state i _ := by
    rw [Data.updProc_table]
    split
    · next hi => rw [hi]; exact ha.moves
    · exact d.moves_refl i _
  pick i _ hd := by
    unfold Data.Dispatches at hd
    rw [Data.updProc_table] at hd
    split at hd
    · next hi => rw [hi] at hd ⊢; exact ha.pick hd.1 hd.2
    · have := hd.1.symm.trans hd.2
      cases this
  current i h1 h2 := (h2 h1).elim
  quants i _ := by
    rw [Data.updProc_table]
    split
    · next hi => rw [hi]; exact ha.quants
    · exact Nat.le_refl _
  counts i _ := by
    rw [Data.updProc_table]
    split
    · next hi => rw [hi]; exact ha.counts
    · exact .inl rfl
  nproc := Nat.le_refl _
  grown i hi hi' := absurd hi (Nat.not_lt.2 hi')
  names i _ := by
    rw [Data.updProc_table]
    split
    · next hi => rw [hi]; exact ha.names
    · exact .refl d i _
  next := Nat.le_refl _
  trapframe i _ hi := by
    rw [Data.updProc_table]
    split
    · next he => rw [he] at hi ⊢; exact ha.trapframe hi
    · exact ⟨rfl, rfl⟩
  pagetable i _ hi hx := by
    rw [Data.updProc_table]
    split
    · next he => rw [he] at hi hx ⊢; exact ha.pagetable hi hx
    · exact ⟨rfl, rfl⟩
  made i hin hi hn := by
    unfold Data.Alive Data.Live at hi
    rw [Data.updProc_table] at hi ⊢
    split at hi
    · next he =>
      rw [he] at hin hn ⊢
      rw [if_pos rfl]
      exact ha.made hin (hn hin) (hi.imp_left And.right)
    · exact (hn hin hi).elim
  log := rfl

theorem Data.Assigns.spares (ha : d.Assigns me h j (g (d.process_table j))) :
    d.Spares me h (d.updProc j g) where
  frame i hi hl := by
    unfold Data.Live
    rw [Data.updProc_table]
    split
    · next he =>
      rw [he] at hi hl ⊢
      exact ⟨⟨hl.1, (ha.thread hi hl).1⟩, rfl, (ha.thread hi hl).2.1, (ha.thread hi hl).2.2, rfl⟩
    · exact ⟨hl, rfl, rfl, rfl, rfl⟩
  newborn i hi hl := by
    have hl' := hl
    unfold Data.Live at hl'
    rw [Data.updProc_table] at hl' ⊢
    split at hl'
    · next he =>
      rw [he] at hi hl' ⊢
      rw [if_pos rfl]
      exact (em (d.Live j)).imp_right fun hn => ha.born hi hn hl'.2
    · exact .inl hl'

/-- The fields that only some assignments may change are as they were. -/
structure Process.Keeps (p p' : Process) : Prop where
  state : p'.state = p.state
  quants : p'.quants = p.quants
  trapframe : p'.trapframe = p.trapframe
  pagetable : p'.pagetable = p.pagetable
  dropping : p'.dropping = p.dropping
  unboxing : p'.unboxing = p.unboxing
  pid : p'.pid = p.pid
  xstatus : p.state = .Zombie → p'.xstatus = p.xstatus

/-- A thread assigns to its own process. -/
theorem Data.Assigns.own (hg : (d.process_table j).Keeps p) :
    d.Assigns (some j) h j p where
  moves := by rw [hg.state]; exact d.moves_refl j _
  pick h1 h2 := by
    have := h1.symm.trans (hg.state.symm.trans h2)
    cases this
  quants := Nat.le_of_eq hg.quants.symm
  counts := .inl hg.quants
  names := .of_pid hg.pid fun h => ⟨hg.xstatus h, hg.state.trans h⟩
  trapframe _ := ⟨hg.trapframe, hg.unboxing⟩
  pagetable _ _ := ⟨hg.pagetable, hg.dropping⟩
  made hj hn hs := (hn (by rw [hg.state] at hs; exact hs.imp_left fun hs => ⟨hj, hs⟩)).elim
  thread hj := (hj rfl).elim
  born hj := (hj rfl).elim

theorem Data.not_alive (hu : (d.process_table j).state = .Unused ∨
    (d.process_table j).state = .Used) : ¬ d.Alive j := by
  unfold Data.Alive Data.Live
  rcases hu with hu | hu <;> simp [hu]

theorem Data.not_zombie (hu : (d.process_table j).state = .Unused ∨
    (d.process_table j).state = .Used) : (d.process_table j).state ≠ .Zombie := by
  rcases hu with hu | hu <;> simp [hu]

/-- A process that is being built. -/
theorem Data.Assigns.idle (hu : (d.process_table j).state = .Unused ∨
    (d.process_table j).state = .Used)
    (hs : p.state = (d.process_table j).state)
    (hq : p.quants = (d.process_table j).quants)
    (hp : p.pid = (d.process_table j).pid ∨
      p.pid = some d.pid ∧ (d.process_table j).state = .Unused) :
    d.Assigns me h j p where
  moves := by rw [hs]; exact d.moves_refl j _
  pick h1 h2 := by
    have := h1.symm.trans (hs.symm.trans h2)
    cases this
  quants := Nat.le_of_eq hq.symm
  counts := .inl hq
  names := ⟨hp.imp_right .inr, fun h => (Data.not_zombie hu h).elim,
    fun h => (Data.not_zombie hu h).elim⟩
  trapframe ha := (Data.not_alive hu ha).elim
  pagetable ha := (Data.not_alive hu ha).elim
  made _ _ hs' := by
    rw [hs] at hs'
    rcases hu with hu | hu <;> simp [hu] at hs'
  thread _ hl := (Data.not_alive hu (.inl hl)).elim
  born _ _ hs' := by
    rw [hs] at hs'
    rcases hu with hu | hu <;> simp [hu] at hs'

/-- A slot is taken. -/
theorem Data.Assigns.take (hu : (d.process_table j).state = .Unused) (hs : p.state = .Used)
    (hq : p.quants = (d.process_table j).quants) (hp : p.pid = (d.process_table j).pid) :
    d.Assigns me h j p where
  moves := by rw [hu, hs]; exact trivial
  pick h1 := by
    rw [hu] at h1
    cases h1
  quants := Nat.le_of_eq hq.symm
  counts := .inl hq
  names := .of_pid hp fun h => (Data.not_zombie (.inl hu) h).elim
  trapframe ha := (Data.not_alive (.inl hu) ha).elim
  pagetable ha := (Data.not_alive (.inl hu) ha).elim
  made _ _ hs' := by simp [hs] at hs'
  thread _ hl := (Data.not_alive (.inl hu) (.inl hl)).elim
  born _ _ hs' := by
    rw [hs] at hs'
    rcases hs' with h | h | h <;> cases h

/-- A process is ready to run. -/
theorem Data.Assigns.ready (hu : (d.process_table j).state = .Used) (hs : p.state = .Runnable)
    (hq : p.quants = (d.process_table j).quants) (hp : p.pid = (d.process_table j).pid)
    (hb : Born p (h.before j)) (hf : p.unboxing = false) : d.Assigns me h j p where
  moves := by rw [hu, hs]; exact trivial
  pick h1 := by
    rw [hu] at h1
    cases h1
  quants := Nat.le_of_eq hq.symm
  counts := .inl hq
  names := .of_pid hp fun h => (Data.not_zombie (.inr hu) h).elim
  trapframe ha := (Data.not_alive (.inr hu) ha).elim
  pagetable ha := (Data.not_alive (.inr hu) ha).elim
  made _ _ _ := ⟨hf, hb.dropping⟩
  thread _ hl := (Data.not_alive (.inr hu) (.inl hl)).elim
  born _ _ _ := hb

end

/-! ## Memory code and the heap -/

namespace Quiet

/-- `q'` is `q` after memory code: with no lock held, the saved interrupt bit may be another. -/
structure Near (E : Env) (L : Finset LockId) (q q' : Quiet) : Prop where
  hist : q'.hist = q.hist
  timer : q'.timer = q.timer
  prev : L ≠ ∅ → q'.prev = q.prev
  mem : E.track → q'.phys = q.phys ∧ q'.own = q.own

theorem Near.refl (L : Finset LockId) (q : Quiet) : q.Near E L q :=
  ⟨rfl, rfl, fun _ => rfl, fun _ => ⟨rfl, rfl⟩⟩

theorem Near.trans {L : Finset LockId} {q₁ q₂ q₃ : Quiet} (h₁ : q₁.Near E L q₂)
    (h₂ : q₂.Near E L q₃) : q₁.Near E L q₃ where
  hist := h₂.hist.trans h₁.hist
  timer := h₂.timer.trans h₁.timer
  prev hL := (h₂.prev hL).trans (h₁.prev hL)
  mem ht := ⟨(h₂.mem ht).1.trans (h₁.mem ht).1, (h₂.mem ht).2.trans (h₁.mem ht).2⟩

def Like (E : Env) (q : Quiet) (d : Data) (L : Finset LockId) (S : St) : Prop :=
  ∃ q', q.Near E L q' ∧ S = q'.on d L

theorem like (q : Quiet) (d : Data) (L : Finset LockId) : q.Like E d L (q.on d L) :=
  ⟨q, .refl L q, rfl⟩

/-- Memory code may run. -/
structure Uses (me : Option Nat) (h : History) (d : Data) (L : Finset LockId) : Prop where
  heap : LockId.heap ∉ L
  current : L = ∅ → d.current = me
  closed : L = ∅ → ∀ i, me = some i → h.before i = none

/-- In a critical section memory code may run. -/
theorem Uses.of_held {h : History} {d : Data} {L : Finset LockId} (hh : LockId.heap ∉ L)
    (hne : L ≠ ∅) : Uses me h d L := ⟨hh, fun he => (hne he).elim, fun he => (hne he).elim⟩

theorem Uses.steady {q : Quiet} {d : Data} {L : Finset LockId} (h : Uses me q.hist d L) :
    Steady E me (q.Like E d L) where
  umode S hS := by
    obtain ⟨q', -, rfl⟩ := hS
    rfl
  prints S hS := by
    obtain ⟨q', -, rfl⟩ := hS
    exact ⟨h.heap, h.current⟩
  settled S hS hs := by
    obtain ⟨q', -, rfl⟩ := hS
    cases hs
  drift S S' hS hd _ := by
    obtain ⟨q', hn, rfl⟩ := hS
    rcases hd with ⟨-, rfl⟩ | ⟨hs, -⟩
    · exact ⟨q', hn, rfl⟩
    · cases hs
  idles S S' hS hi := by
    obtain ⟨q', hn, rfl⟩ := hS
    have hb : S'.hist = q.hist := by
      refine History.ext (funext fun i => (hi.before i).elim (fun he => ?_) fun hx => ?_)
        (hi.dispatched.trans (congrArg History.dispatched hn.hist))
      · exact he.trans (congrFun (congrArg History.before hn.hist) i)
      · exact hx.2.2.trans (h.closed hx.1 i ((h.current hx.1).symm.trans hx.2.1)).symm
    refine ⟨⟨S'.locks.interrupt_prev_state, q.hist, S'.sys.timer, S'.sys.phys, S'.own⟩,
      ⟨rfl, hi.timer.trans hn.timer, fun hL => (hi.prev hL).trans (hn.prev hL), fun ht => ?_⟩, ?_⟩
    · exact ⟨(hi.mem ht).1.trans (hn.mem ht).1, (hi.mem ht).2.trans (hn.mem ht).2⟩
    obtain ⟨⟨phys', ⟨sie, umode, stack, prev', held⟩, d, t⟩, own', hist⟩ := S'
    obtain rfl := hi.data
    obtain rfl : sie = false := hi.sie
    obtain rfl : umode = false := hi.umode
    obtain rfl : held = L := hi.held
    obtain rfl : stack = held.card := hi.stack
    obtain rfl : hist = q.hist := hb
    rfl

/-- `q'` is `q` after memory code that worked on the lease `l` and has the view `v` now. -/
structure Worked (E : Env) (l : Lease) (L : Finset LockId) (q q' : Quiet) (v : View) : Prop where
  hist : q'.hist = q.hist
  timer : q'.timer = q.timer
  prev : L ≠ ∅ → q'.prev = q.prev
  mem : E.track → l.Did E.cfg false q.own q.phys.mem v q'.own q'.phys.mem

theorem Worked.near {l : Lease} {L : Finset LockId} {q q₁ q₂ : Quiet} {v : View}
    (h : q.Worked E l L q₁ v) (hn : q₁.Near E L q₂) : q.Worked E l L q₂ v where
  hist := hn.hist.trans h.hist
  timer := hn.timer.trans h.timer
  prev hL := (hn.prev hL).trans (h.prev hL)
  mem ht := by
    rw [(hn.mem ht).1, (hn.mem ht).2]
    exact h.mem ht

/-- `q'` is `q` after code that changed the memory of party `x` only. -/
structure Only (E : Env) (x : Party) (L : Finset LockId) (q q' : Quiet) : Prop where
  hist : q'.hist = q.hist
  timer : q'.timer = q.timer
  prev : L ≠ ∅ → q'.prev = q.prev
  rest : E.track → ∀ y, y ≠ x → SameAt q.own q'.own q.phys.mem q'.phys.mem y

theorem Only.trans {x : Party} {L : Finset LockId} {q₁ q₂ q₃ : Quiet} (h₁ : q₁.Only E x L q₂)
    (h₂ : q₂.Only E x L q₃) : q₁.Only E x L q₃ where
  hist := h₂.hist.trans h₁.hist
  timer := h₂.timer.trans h₁.timer
  prev hL := (h₂.prev hL).trans (h₁.prev hL)
  rest ht y hy := (h₁.rest ht y hy).trans (h₂.rest ht y hy)

theorem Near.only {L : Finset LockId} {q q' : Quiet} (h : q.Near E L q') (x : Party) :
    q.Only E x L q' where
  hist := h.hist
  timer := h.timer
  prev := h.prev
  rest ht y _ := by
    rw [(h.mem ht).1, (h.mem ht).2]
    exact .refl ..

theorem Worked.only {x : Party} {base : Finset Nat} {start : Bytes} {L : Finset LockId}
    {q q' : Quiet} {v : View} (h : q.Worked E (.one x base start) L q' v) : q.Only E x L q' :=
  ⟨h.hist, h.timer, h.prev, fun ht => (h.mem ht).rest⟩

end Quiet

/-- The parties of a lease are none of the live processes that do not run. -/
def Lease.Mine (l : Lease) (me : Option Nat) (d : Data) : Prop :=
  ∀ j, some j ≠ me → d.Live j → ¬ l.parties (.slot j) ∧ ¬ l.parties (.loc j)

theorem Lease.Mine.slot {j : Nat} {base : Finset Nat} {start : Bytes} {d : Data}
    (hj : some j = me ∨ ¬ d.Live j) : (Lease.one (.slot j) base start).Mine me d := by
  refine fun k hk hl => ⟨fun he => ?_, Party.noConfusion⟩
  obtain rfl : k = j := Party.slot.inj he
  exact hj.elim (fun h => hk h) fun h => h hl

theorem Quiet.Uses.keeper {q : Quiet} {d : Data} {L : Finset LockId} {l : Lease}
    (hu : Quiet.Uses me q.hist d L) (hl : l.Mine me d) :
    Keeper E me (E.mode false) fun v S => ∃ q', q.Worked E l L q' v ∧ S = q'.on d L where
  steady v := by
    have hq : ∀ q' : Quiet, q.Worked E l L q' v → Steady E me (q'.Like E d L) := fun q' hw =>
      Quiet.Uses.steady (by rw [hw.hist]; exact hu)
    refine ⟨fun S h => ?_, fun S h => ?_, fun S h hs => ?_, fun S S' h hd hi => ?_,
      fun S S' h hi => ?_⟩
    all_goals obtain ⟨q', hw, rfl⟩ := h
    · rfl
    · exact (hq q' hw).prints _ (q'.like d L)
    · cases hs
    · obtain ⟨q₂, hn, rfl⟩ := (hq q' hw).drift _ _ (q'.like d L) hd hi
      exact ⟨q₂, hw.near hn, rfl⟩
    · obtain ⟨q₂, hn, rfl⟩ := (hq q' hw).idles _ _ (q'.like d L) hi
      exact ⟨q₂, hw.near hn, rfl⟩
  op {v S o Q} h how hm := by
    obtain ⟨q', hw, rfl⟩ := h
    by_cases ht : E.track
    · obtain ⟨hf, hop⟩ := (hw.mem ht).has.op (how ht) (M := E.mode false) rfl
        (fun _ => (hw.mem ht).whole rfl) trivial (hm ht)
      refine ⟨fun _ => hf, fun r phys hx => ?_⟩
      obtain ⟨v', own, how', hd, hQ⟩ := hop r phys hx
      refine ⟨v', own, fun _ => ⟨how', fun j hj hlive => ?_, hd.image⟩,
        ⟨{ q' with phys, own }, ⟨hw.hist, hw.timer, hw.prev, fun _ => (hw.mem ht).trans hd⟩, ?_⟩,
        fun _ => hQ⟩
      · obtain ⟨h1, h2⟩ := hl j hj hlive
        exact ⟨hd.rest _ h1, hd.rest _ h2⟩
      · exact congrArg (St.mk _ own) (q'.hist.next_same rfl fun _ => rfl)
    · refine ⟨fun h => (ht h).elim, fun r phys _ => ⟨v, q'.own, fun h => (ht h).elim,
        ⟨{ q' with phys }, ⟨hw.hist, hw.timer, hw.prev, fun h => (ht h).elim⟩, ?_⟩,
        fun h => (ht h).elim⟩⟩
      exact congrArg (St.mk _ q'.own) (q'.hist.next_same rfl fun _ => rfl)

/-! ## Rules -/

namespace K

variable {q : Quiet} {d : Data} {L : Finset LockId} {α β : Type}

/-- An operation of a quiet state: nothing comes before it. -/
theorem wp_quiet {o : KOp} {k : o.Resp → K α} {Q : α → St → Prop}
    (h : (E.track → Owned E.cfg q.own q.phys.free) →
      opSpec E me o (fun r => wp E me (k r) Q) (q.on d L)) : wp E me (.op o k) Q (q.on d L) := by
  refine ⟨rfl, fun S hd _ how => ?_⟩
  rcases hd with ⟨-, rfl⟩ | ⟨hs, -⟩
  · exact h how
  · cases hs

theorem wp_get {f : Data → K α} {Q : α → St → Prop} (h : wp E me (f d) Q (q.on d L)) :
    wp E me (get >>= f) Q (q.on d L) := wp_quiet fun _ => h

theorem wp_proc {i : Nat} {f : Process → K α} {Q : α → St → Prop}
    (h : wp E me (f (d.process_table i)) Q (q.on d L)) :
    wp E me (proc i >>= f) Q (q.on d L) := wp_quiet fun _ => h

theorem wp_locks {f : Locks → K α} {Q : α → St → Prop} (h : wp E me (f (q.locks L)) Q (q.on d L)) :
    wp E me (locks >>= f) Q (q.on d L) := wp_quiet fun _ => h

theorem wp_set {g : Data → Data} {f : Unit → K α} {Q : α → St → Prop} (hl : Legal d (g d))
    (hs : d.Spares me q.hist (g d)) (hc : ∀ j, d.Dispatches (g d) j → (q.on d L).Counted)
    (h : wp E me (f ()) Q ({ q with hist := q.hist.moved d (g d) }.on (g d) L)) :
    wp E me (set g >>= f) Q (q.on d L) := by
  have he : (q.on d L).step { (q.on d L).sys with data := g d } q.own =
      { q with hist := q.hist.moved d (g d) }.on (g d) L :=
    congrArg (St.mk _ q.own) (q.hist.next_data rfl)
  refine wp_quiet fun how => ⟨hl, hc, q.own, ?_⟩
  exact (congrArg (fun S => Upd E me (q.on d L) S ∧ wp E me (f ()) Q S) he).mpr ⟨hs.upd how, h⟩

/-- An assignment that changes the state of no process. -/
theorem wp_set_same {g : Data → Data} {f : Unit → K α} {Q : α → St → Prop} (hl : Legal d (g d))
    (hs : d.Spares me q.hist (g d))
    (hst : ∀ i, ((g d).process_table i).state = (d.process_table i).state)
    (h : wp E me (f ()) Q (q.on (g d) L)) : wp E me (set g >>= f) Q (q.on d L) := by
  refine wp_set hl hs (fun j hd => (Data.not_dispatches_of_state (hst j) hd).elim) ?_
  rw [q.hist.moved_same hst]
  exact h

/-- An assignment that leaves the processes alone. -/
theorem wp_setRest {g : Data → Data} {f : Unit → K α} {Q : α → St → Prop}
    (ht : (g d).process_table = d.process_table) (hn : (g d).nproc = d.nproc)
    (hl : (g d).log = d.log) (hp : d.pid ≤ (g d).pid)
    (hc : ∀ i, (g d).current = some i → d.current ≠ some i → d.Picked i)
    (h : wp E me (f ()) Q (q.on (g d) L)) : wp E me (set g >>= f) Q (q.on d L) :=
  wp_set_same ⟨.of_table ht hn hp hc, hl⟩ (.of_table ht hn hl) (fun _ => by rw [ht]) h

/-- An assignment to process `j` that neither frees nor dispatches it. -/
theorem wp_setProc {j : Nat} {g : Process → Process} {f : Unit → K α} {Q : α → St → Prop}
    (ha : d.Assigns me q.hist j (g (d.process_table j)))
    (hn : (g (d.process_table j)).state = (d.process_table j).state ∨
      (g (d.process_table j)).state ≠ .Unused ∧ (g (d.process_table j)).state ≠ .Running)
    (h : wp E me (f ()) Q (q.on (d.updProc j g) L)) :
    wp E me (setProc j g >>= f) Q (q.on d L) := by
  have hd : ∀ i, ¬ d.Dispatches (d.updProc j g) i := fun i hd => by
    unfold Data.Dispatches at hd
    rw [Data.updProc_table] at hd
    split at hd
    · next hi =>
      rw [hi] at hd
      rcases hn with hn | hn
      · have := hd.1.symm.trans (hn.symm.trans hd.2)
        cases this
      · exact hn.2 hd.2
    · have := hd.1.symm.trans hd.2
      cases this
  refine wp_set ha.legal ha.spares (fun i h => (hd i h).elim) ?_
  rw [q.hist.moved_eq (fun i hf => ?_) hd]
  · exact h
  · unfold Data.Frees at hf
    rw [Data.updProc_table] at hf
    split at hf
    · next hi =>
      rw [hi] at hf
      exact hn.elim (fun hn => hf.1 (hn.symm.trans hf.2)) fun hn => hn.1 hf.2
    · exact hf.1 hf.2

theorem wp_note {e : Event} {f : Unit → K α} {Q : α → St → Prop} (hok : e.Ok E me (q.on d L))
    (he : ∀ j, e.slot = some j → me = some j ∨ ¬ d.Live j)
    (h : e.Assume E → wp E me (f ()) Q (q.on { d with log := e :: d.log } L)) :
    wp E me (note e >>= f) Q (q.on d L) := by
  have hs : d.Spares me q.hist { d with log := e :: d.log } := by
    refine ⟨fun j hj hl => ⟨hl, rfl, rfl, rfl, ?_⟩, fun j _ hl => .inl hl⟩
    refine List.filter_cons_of_neg ?_
    simpa using fun hx => (he j hx).elim (fun h => hj h.symm) fun h => h hl
  have hq : (q.on d L).setData { d with log := e :: d.log } = q.on { d with log := e :: d.log } L :=
    congrArg (St.mk _ q.own) (q.hist.next_same rfl fun _ => rfl)
  refine wp_quiet fun how => ⟨hok, fun ha => ?_⟩
  exact (congrArg (fun S => Upd E me (q.on d L) S ∧ wp E me (f ()) Q S) hq).mpr
    ⟨hs.upd_same (fun _ => rfl) how, h ha⟩

/-! ### Locks -/

/-- A lock inside a critical section. -/
theorem wp_lock {l : LockId} {f : Unit → K α} {Q : α → St → Prop} (hl : l ∉ L) (hL : L ≠ ∅)
    (h : wp E me (f ()) Q (q.on d (insert l L))) : wp E me (lock l >>= f) Q (q.on d L) := by
  have hc : L.card ≠ 0 := Finset.card_ne_zero.2 (Finset.nonempty_iff_ne_empty.2 hL)
  have hlocks : ({ (q.locks L).pushInterruptOff false with held := insert l L } : Locks) =
      q.locks (insert l L) := by
    show (⟨false, false, L.card + 1, if L.card = 0 then false else q.prev, insert l L⟩ : Locks) =
      ⟨false, false, (insert l L).card, q.prev, insert l L⟩
    rw [if_neg hc, Finset.card_insert_of_notMem hl]
  have he : (q.on d L).acquire l false = q.on d (insert l L) :=
    congrArg₂ (fun l h => (⟨⟨q.phys, l, d, q.timer⟩, q.own, h⟩ : St)) hlocks
      (@St.acquire_hist (q.on d L) l false (.inl hc))
  refine wp_quiet fun _ => wp_quiet fun how => ⟨hl, .acquire (fun h0 => (hc h0).elim) how, ?_⟩
  exact he ▸ h

/-- The first lock of the scheduler. -/
theorem wp_lock_first {l : LockId} {f : Unit → K α} {Q : α → St → Prop}
    (hcur : d.current = none) (hme : me = none)
    (h : wp E me (f ()) Q ({ q with prev := false }.on d {l})) :
    wp E me (lock l >>= f) Q (q.on d ∅) := by
  have he : (q.on d ∅).acquire l false = { q with prev := false }.on d {l} :=
    congrArg (St.mk _ q.own) (@St.acquire_hist (q.on d ∅) l false (.inr hcur))
  exact wp_quiet fun _ => wp_quiet fun how =>
    ⟨Finset.notMem_empty _, .acquire (fun _ => hcur.trans hme.symm) how, he ▸ h⟩

/-- A release inside a critical section. -/
theorem wp_release {l : LockId} {L' : Finset LockId} {f : Unit → K α} {Q : α → St → Prop}
    (hl : l ∈ L) (hL : L.erase l = L') (hne : L' ≠ ∅) (h : wp E me (f ()) Q (q.on d L')) :
    wp E me (release l >>= f) Q (q.on d L) := by
  have hc : L'.card = L.card - 1 := hL ▸ Finset.card_erase_of_mem hl
  have h0 : L.card - 1 ≠ 0 := by
    rw [← hc]
    exact Finset.card_ne_zero.2 (Finset.nonempty_iff_ne_empty.2 hne)
  have h1 : (q.on d L).locks.interrupt_off_stack ≠ 1 := fun h1 => h0 (by
    rw [show L.card = 1 from h1])
  have hlocks : ({ (q.locks L).popInterruptOff with held := L.erase l } : Locks) =
      q.locks L' := by
    show (⟨if L.card - 1 = 0 ∧ q.prev = true then true else false, false, L.card - 1, q.prev,
      L.erase l⟩ : Locks) = ⟨false, false, L'.card, q.prev, L'⟩
    rw [hc, hL, if_neg fun hx => h0 hx.1]
  have he : (q.on d L).release l = q.on d L' :=
    congrArg₂ (fun l h => (⟨⟨q.phys, l, d, q.timer⟩, q.own, h⟩ : St)) hlocks
      (@St.release_hist (q.on d L) l (.inl h1))
  refine wp_quiet fun how => ⟨hl, fun hx => (h1 hx).elim, ?_⟩
  rw [he]
  refine ⟨he ▸ .release (fun hx => (h1 hx).elim) (fun hs => ?_) how, h⟩
  rw [he] at hs
  cases hs

/-- The last release of the scheduler, where interrupts were off before. -/
theorem wp_release_last {l : LockId} {f : Unit → K α} {Q : α → St → Prop} (hp : q.prev = false)
    (hcur : d.current = none) (hme : me = none) (h : wp E me (f ()) Q (q.on d ∅)) :
    wp E me (release l >>= f) Q (q.on d {l}) := by
  have hlocks : ({ (q.locks {l}).popInterruptOff with held := ({l} : Finset LockId).erase l } :
      Locks) = q.locks ∅ := by
    obtain ⟨prev, hist, timer, phys, own⟩ := q
    subst hp
    exact congrArg (fun L => (⟨false, false, 0, false, L⟩ : Locks)) (Finset.erase_singleton l)
  have he : (q.on d {l}).release l = q.on d ∅ :=
    congrArg₂ (fun l h => (⟨⟨q.phys, l, d, q.timer⟩, q.own, h⟩ : St)) hlocks
      (@St.release_hist (q.on d {l}) l (.inr hcur))
  refine wp_quiet fun how => ⟨Finset.mem_singleton_self _, fun _ i hc => ?_, ?_⟩
  · rw [show (q.on d {l}).data.current = none from hcur] at hc
    cases hc
  · rw [he]
    refine ⟨he ▸ .release (fun _ => hcur.trans hme.symm) (fun hs => ?_) how, h⟩
    rw [he] at hs
    cases hs

/-! ### Memory code and the heap -/

section
variable {Q : β → St → Prop} (hu : Quiet.Uses me q.hist d L)
include hu

theorem wp_heapUse_quiet {f : Unit → K β}
    (k : ∀ q' : Quiet, q.Near E L q' → wp E me (f ()) Q (q'.on d L)) :
    wp E me (heapUse >>= f) Q (q.on d L) := by
  rw [wp_bind]
  refine wp_heapUse hu.steady (q.like d L) fun S h => ?_
  obtain ⟨q', hn, rfl⟩ := h
  exact k q' hn

/-- Memory code of the lease `l`, in the logic of owned frames with nothing else running. -/
theorem wp_lift_quiet {l : Lease} {o : Finset Nat} (hl : l.Mine me d)
    (h₀ : E.track → l.Has ⟨o, q.phys.mem⟩ q.own q.phys.mem) {p : M α} {R : α → View → Prop}
    (hp : E.track → M.wp (E.mode false) p R ⟨o, q.phys.mem⟩) {f : α → K β}
    (k : ∀ a v' (q' : Quiet), q.Worked E l L q' v' → (E.track → R a v') →
      wp E me (f a) Q (q'.on d L)) : wp E me (lift p >>= f) Q (q.on d L) := by
  rw [wp_bind]
  refine wp_lift (hu.keeper hl) (fun a v' S h hR => ?_) ⟨o, q.phys.mem⟩ (q.on d L)
    ⟨q, ⟨rfl, rfl, fun _ => rfl, fun ht => (h₀ ht).did fun _ => rfl⟩, rfl⟩ hp
  obtain ⟨q', hw, rfl⟩ := h
  exact k a v' q' hw hR

end

end K

end BareMetal
