import BareMetal.Kernel.Proof.Exits
import BareMetal.Kernel.Proof.Forks
import BareMetal.Kernel.Proof.Waits

/-!
# A parent and its child

A run of the machine that every start with frames enough has: init runs in user mode
(`Machine.Init.alone`), forks (`Machine.Later.forked`) and waits (`Machine.Init.slept`); the child
runs, exits (`Machine.Init.dying`) and is a zombie (`Machine.Init.died`); init is woken
(`Machine.Init.woken`) and reaps it (`Machine.Init.delivered`).
-/

namespace BareMetal

open Lib K

/-! ## The table -/

/-- The states of the slots when only the first two are used. -/
def duo (p q : ProcState) : Nat → ProcState := fun j => if j = 0 then p else if j = 1 then q else .Unused

theorem duo_zero (p q r : ProcState) : Function.update (duo p q) 0 r = duo r q := by
  funext j
  unfold duo Function.update
  grind

theorem duo_one (p q r : ProcState) : Function.update (duo p q) 1 r = duo p r := by
  funext j
  unfold duo Function.update
  grind

/-- Init is in slot 0 and its only child in slot 1; the slots are in the states `st`, and no counter
is above `n`. -/
structure Family (d : Data) (st : Nat → ProcState) (n : Nat) : Prop where
  nproc : d.nproc = 4
  init : (d.process_table 0).pid = some 0
  child : (d.process_table 1).pid = some 1
  parent : ∀ j < 4, (d.process_table j).parent = if j = 1 then some 0 else none
  state : ∀ j < 4, (d.process_table j).state = st j
  quants : ∀ j < 4, (d.process_table j).quants ≤ n
  size : USER_START + (d.process_table 1).pagetable.size < USIZE

namespace Family

variable {d d' : Data} {st : Nat → ProcState} {p q : ProcState} {n : Nat}

theorem same (h : Family d st n) (hs : d.SameTable d') : Family d' st n := by
  obtain ⟨h1, h2, h3, h4, h5, h6, h7⟩ := h
  rw [← hs.nproc] at h1
  rw [← hs.process_table] at h2 h3 h4 h5 h6 h7
  exact ⟨h1, h2, h3, h4, h5, h6, h7⟩

/-- Slot `i` goes to another state. -/
theorem update {i n' : Nat} {f : Process → Process} (h : Family d st n)
    (hd : d'.process_table = (d.updProc i f).process_table) (hn : d'.nproc = d.nproc)
    (hf : (f (d.process_table i)).pid = (d.process_table i).pid ∧
      (f (d.process_table i)).parent = (d.process_table i).parent ∧
      (f (d.process_table i)).pagetable = (d.process_table i).pagetable)
    (hle : n ≤ n') (hq : (f (d.process_table i)).quants ≤ n') :
    Family d' (Function.update st i (f (d.process_table i)).state) n' := by
  have hself : d'.process_table i = f (d.process_table i) := by rw [hd, Data.updProc_self]
  have hne : ∀ j, j ≠ i → d'.process_table j = d.process_table j := fun j hj => by
    rw [hd, Data.updProc_ne _ _ hj]
  have hkept : ∀ j, (d'.process_table j).pid = (d.process_table j).pid ∧
      (d'.process_table j).parent = (d.process_table j).parent ∧
      (d'.process_table j).pagetable = (d.process_table j).pagetable := fun j => by
    by_cases hj : j = i
    · rw [hj, hself]
      exact hf
    · rw [hne j hj]
      exact ⟨rfl, rfl, rfl⟩
  refine ⟨hn.trans h.nproc, (hkept 0).1.trans h.init, (hkept 1).1.trans h.child,
    fun j hj => (hkept j).2.1.trans (h.parent j hj), fun j hj => ?_, fun j hj => ?_, ?_⟩
  · by_cases hji : j = i
    · rw [hji, hself, Function.update_self]
    · rw [hne j hji, Function.update_of_ne hji]
      exact h.state j hj
  · by_cases hji : j = i
    · rw [hji, hself]
      exact hq
    · rw [hne j hji]
      exact (h.quants j hj).trans hle
  · rw [(hkept 1).2.2]
    exact h.size

/-- Slot `i` gets its turn. -/
theorem turn {i : Nat} (h : Family d st n) (ht : d.Turn d' i) (hn : d'.nproc = d.nproc) :
    Family d' (Function.update st i .Running) (n + 1) := by
  refine h.update (f := fun p => { p with state := .Running, quants := p.quants + 1 }) ?_ hn
    ⟨rfl, rfl, rfl⟩ (Nat.le_succ n) ?_
  · funext j
    by_cases hj : j = i
    · rw [hj, Data.updProc_self, ht.self]
    · rw [Data.updProc_ne _ _ hj, ht.others j hj]
  · have hlt := ht.lt
    rw [h.nproc] at hlt
    exact Nat.succ_le_succ (h.quants i hlt)

/-- Init goes to sleep and hands the hart back. -/
theorem asleep (h : Family d (duo p q) n) :
    Family ((d.asleep 0 (d.process_table 0).pid).parked 0) (duo .Sleeping q) n := by
  have hu : Family ((d.asleep 0 (d.process_table 0).pid).parked 0)
      (Function.update (duo p q) 0 .Sleeping) n := by
    refine h.update (i := 0) (f := fun p => { p with
      sleep_channel := (d.process_table 0).pid, state := .Sleeping, context := .sched })
      ?_ rfl ⟨rfl, rfl, rfl⟩ (Nat.le_refl n) (h.quants 0 (by omega))
    unfold Data.parked Data.asleep
    simp only [Data.updProc_updProc]
  rwa [duo_zero] at hu

/-- The child exits, and init is awake. -/
theorem exited {x : Nat} (h : Family d (duo .Sleeping .Running) n)
    (hch : (d.process_table 0).sleep_channel = some 0) (hx : d.Exited d' 1 x) :
    Family d' (duo .Runnable .Zombie) n := by
  have hn := h.nproc
  have hpid : ∀ j < 4, (d'.process_table j).pid = (d.process_table j).pid := fun j hj =>
    (hx.same j (by omega)).1
  have hpar : ∀ j < 4, (d'.process_table j).parent = if j = 1 then some 0 else none := fun j hj => by
    rw [hx.parent j (by omega), h.parent j hj, h.child]
    split <;> simp
  refine ⟨hx.nproc.trans hn, (hpid 0 (by omega)).trans h.init, (hpid 1 (by omega)).trans h.child,
    hpar, fun j hj => ?_, fun j hj => ?_, ?_⟩
  · by_cases h1 : j = 1
    · subst h1
      exact hx.dead.1
    · have hst := h.state j hj
      rcases (hx.state j (by omega) h1).1 with ⟨he, hsl⟩ | ⟨hsl, he⟩
      · by_cases h0 : j = 0
        · subst h0
          refine ((hsl hst).1 ?_).elim
          rw [hch, hpar 1 (by omega)]
          rfl
        · rw [he, hst]
          simp [duo, h0, h1]
      · have h0 : j = 0 := by
          by_contra h0
          have := hst.symm.trans hsl
          simp [duo, h0, h1] at this
        rw [he, h0]
        rfl
  · rw [(hx.kept j (by omega)).1]
    exact h.quants j hj
  · rw [(hx.kept 1 (by omega)).2.2.1]
    exact h.size

theorem sleeps (h : Family d (duo .Running .Runnable) n) : d.Sleeps 0 := by
  have hn := h.nproc
  refine ⟨by omega, fun j hj => (by omega), ⟨1, by omega, ?_⟩, fun j hj hp => ?_⟩
  · rw [h.parent 1 (by omega), h.init]
    rfl
  · have hj : j < 4 := by omega
    rw [h.parent j hj, h.init] at hp
    have h1 : j = 1 := by
      by_contra h1
      simp [h1] at hp
    rw [h.state j hj, h1]
    simp [duo]

theorem reapable (h : Family d (duo .Running .Zombie) n) : d.Reapable 0 1 1 := by
  have hn := h.nproc
  refine ⟨by omega, by omega, h.state 1 (by omega), ?_, h.child, fun j hj _ => ?_⟩
  · rw [h.parent 1 (by omega), h.init]
    rfl
  · obtain rfl : j = 0 := by omega
    rw [h.state 0 (by omega)]
    simp [duo]

/-- Only slot `i` can run. -/
theorem only {i : Nat} (h : Family d st n) (hst : ∀ j < 4, st j = .Runnable → j = i) :
    ∀ j < d.nproc, (d.process_table j).state = .Runnable → j = i := fun j hj hr => by
  rw [h.nproc] at hj
  rw [h.state j hj] at hr
  exact hst j hj hr

theorem quants_lt (h : Family d st n) (hlt : n + 1 < USIZE) :
    ∀ j < d.nproc, (d.process_table j).quants + 1 < USIZE := fun j hj => by
  rw [h.nproc] at hj
  have := h.quants j hj
  omega

end Family

/-! ## Init alone -/

/-- Init runs, the other slots are free, and so are `k` frames beside those of a fork. -/
structure Alone (s : Sys) (k : Nat) : Prop where
  nproc : s.data.nproc = 4
  issued : s.data.pid = 1
  current : s.data.current = some 0
  pid : (s.data.process_table 0).pid = some 0
  parent : ∀ j < 4, (s.data.process_table j).parent = none
  state : ∀ j < 4, (s.data.process_table j).state = duo .Running .Unused j
  quants : ∀ j < 4, (s.data.process_table j).quants ≤ 1
  kstack : ∀ j < 4, (s.data.process_table j).kstack + KERNEL_STACK_PAGES * PAGESIZE < USIZE
  fork : CanFork s 0 1
  frames : forkFrames s.phys.mem (s.data.process_table 0).pagetable + k ≤ s.phys.free.length

section
variable {c : Cfg} {m₁ : Bytes} {img : Slice} {argv : List (List UInt8)} {k n : Nat} {s s' s₂ : Sys}
  {own : Finset Nat} {live : Prop}

/-- The first process has its turn. -/
theorem Started.alone (hst : Started c m₁ img argv k s)
    (ht : s.data.Turn s₂.data 0) (hp : s₂.phys = s.phys) (hn : s₂.data.nproc = s.data.nproc)
    (hpid : s₂.data.pid = s.data.pid) (h0 : 0 < n) (hk : 2 * imagePages img + 5 + n ≤ k) :
    Alone s₂ n := by
  obtain ⟨s₀, s₁, v, tab, fr, -, hx, -, hp₁, hd₁⟩ := hst.program
  have hne : ∀ j, j ≠ 0 → s₂.data.process_table j = s.data.process_table j := ht.others
  have hself := ht.self
  have hu : (s₂.data.process_table 0).pagetable = (s₁.data.process_table 0).pagetable := by
    rw [hself, hd₁, Data.updProc_self]
  have hmem : s₂.phys.mem = v.mem := by rw [hp, hp₁, hx.mem]
  have hcov : World.Covered s₂.phys.mem (s₂.data.process_table 0).pagetable := by
    rw [hu, hmem]
    exact hx.program.covered hx.space hx.fits
  have hframes : forkFrames s₂.phys.mem (s₂.data.process_table 0).pagetable + n ≤
      s₂.phys.free.length := by
    have h1 := forkFrames_le s₂.phys.mem (s₂.data.process_table 0).pagetable
    have h2 : (s₂.data.process_table 0).pagetable.size / PAGESIZE = imagePages img + 2 := by
      rw [hu, hx.program.size]
      exact Nat.mul_div_cancel _ (by rw [PAGESIZE_eq]; decide)
    have h3 := hst.frames
    rw [hp] at h1 ⊢
    omega
  have hstate : ∀ j < 4, (s₂.data.process_table j).state = duo .Running .Unused j := fun j hj => by
    by_cases hj0 : j = 0
    · rw [hj0, hself]
      rfl
    · rw [hne j hj0, hst.unused j hj hj0]
      simp [duo, hj0]
  have hkstack : ∀ j < 4, (s₂.data.process_table j).kstack + KERNEL_STACK_PAGES * PAGESIZE < USIZE :=
    fun j hj => by
    have h1 : (s₂.data.process_table j).kstack = kstackAddr j := by
      by_cases hj0 : j = 0
      · rw [hj0, hself]
        exact hst.kstack 0 (by omega)
      · rw [hne j hj0]
        exact hst.kstack j hj
    have h2 := (kstackAddr_page (stack_bounds (i := j) (by omega)).1).2.1
    have h3 := trampoline_va.2.1
    omega
  have hstart : USER_START < USIZE := by
    rw [USIZE_eq]
    decide
  refine ⟨hn.trans hst.nproc, hpid.trans hst.issued, ht.current, ?_, fun j hj => ?_, hstate,
    fun j hj => ?_, hkstack, ⟨⟨?_, ?_, fun j hj => ?_⟩, ?_, hkstack 1 (by omega), ?_, hcov, ?_⟩,
    hframes⟩
  · rw [hself]
    exact hst.pid
  · by_cases hj0 : j = 0
    · rw [hj0, hself]
      exact hst.parent 0 (by omega)
    · rw [hne j hj0]
      exact hst.parent j hj
  · by_cases hj0 : j = 0
    · rw [hj0, hself]
      exact Nat.succ_le_succ (hst.quants 0 (by omega)).le
    · rw [hne j hj0, hst.quants j hj]
      omega
  · rw [hn, hst.nproc]
    decide
  · rw [hstate 1 (by omega)]
    rfl
  · obtain rfl : j = 0 := by omega
    rw [hstate 0 (by omega)]
    simp [duo]
  · rw [hpid, hst.issued, USIZE_eq]
    decide
  · rw [hne 1 (by omega), hst.empty 1 (by omega) (by omega)]
    exact hstart
  · omega

/-- And is in user mode. -/
theorem Alone.resumed {tf : Nat} (h : Alone s k)
    (hm : SlotMem c own s.phys.mem (s.data.process_table 0) live)
    (hd : (s.data.process_table 0).dropping = false)
    (htf : (s.data.process_table 0).trapframe = tf) (hf : c.IsFrame tf)
    (hr : Resumed 0 tf s s') : Alone s' k := by
  have hmem : ∀ a, pageOf a ≠ (s.data.process_table 0).trapframe →
      s'.phys.mem a = s.phys.mem a := fun a ha =>
    hr.mem a fun hin => ha (htf ▸ pageOf_eq_of hf.page (by rw [PAGESIZE_eq]; omega))
  obtain ⟨hfork, hframes⟩ := h.fork.same hm hd hr.toSameTable hr.free hmem
  obtain ⟨h1, h2, h3, h4, h5, h6, h7, h8, -, h10⟩ := h
  rw [← hr.nproc] at h1
  rw [← hr.pid] at h2
  rw [← hr.current] at h3
  rw [← hr.process_table] at h4 h5 h6 h7 h8
  refine ⟨h1, h2, h3, h4, h5, h6, h7, h8, hfork, ?_⟩
  rw [hr.process_table, hframes, hr.free]
  exact h10

/-- Init has forked. -/
theorem Alone.forks {d' : Data} (h : Alone s k) (hf : s.data.Forks d' 0 1) :
    Family d' (duo .Running .Runnable) 1 := by
  obtain ⟨f, sp, u, hu, hchild⟩ := hf.child
  have hne := hf.others
  refine ⟨hf.nproc.trans h.nproc, ?_, ?_, fun j hj => ?_, fun j hj => ?_, fun j hj => ?_, ?_⟩
  · rw [hne 0 (by omega)]
    exact h.pid
  · rw [hchild, h.issued]
  · by_cases hj1 : j = 1
    · rw [hj1, hchild]
      exact h.pid
    · rw [hne j hj1, h.parent j hj, if_neg hj1]
  · by_cases hj1 : j = 1
    · rw [hj1, hchild]
      rfl
    · rw [hne j hj1, h.state j hj]
      simp [duo, hj1]
  · by_cases hj1 : j = 1
    · rw [hj1, hchild]
      exact h.quants 1 (by omega)
    · rw [hne j hj1]
      exact h.quants j hj
  · rw [hchild]
    dsimp only
    rw [hu]
    exact h.fork.covered.1

end

/-! ## Runs -/

/-- The child has not run yet. -/
structure Data.NewChild (d : Data) : Prop where
  context : ∃ sp, (d.process_table 1).context = .forkret sp
  dropping : (d.process_table 1).dropping = false
  kstack : (d.process_table 1).kstack + KERNEL_STACK_PAGES * PAGESIZE < USIZE

/-- Init waits for a child. -/
structure Data.InitWaits (d : Data) : Prop where
  channel : (d.process_table 0).sleep_channel = some 0
  context : (d.process_table 0).context = .sched

theorem Data.NewChild.same {d d' : Data} (h : d.NewChild)
    (hs : d'.process_table 1 = d.process_table 1) : d'.NewChild := by
  obtain ⟨h1, h2, h3⟩ := h
  rw [← hs] at h1 h2 h3
  exact ⟨h1, h2, h3⟩

theorem Data.InitWaits.same {d d' : Data} (h : d.InitWaits)
    (hs : d'.process_table 0 = d.process_table 0) : d'.InitWaits := by
  obtain ⟨h1, h2⟩ := h
  rw [← hs] at h1 h2
  exact ⟨h1, h2⟩

namespace Machine

variable {c : Cfg} {m : Machine} {k n x : Nat}

/-- **Init runs in user mode.** -/
theorem Init.alone (hm : Init c m) (hc : c.Eager) (h0 : 0 < n)
    (hmem : 10000 + programFrames c.INIT + (2 * imagePages c.INIT + 5 + n) ≤
      m.sys.phys.free.length) :
    ∃ m', Alone m'.sys n ∧ m'.code = .ret .user ∧ m'.sched = afterTurn 0 ∧
      Later c StatusFits m m' := by
  obtain ⟨m', hl, he, hsched, s₁, s₂, own, live, hst, ht, hp, hn, hpid, hslot, hframe, hr⟩ :=
    (hm.leads hc hmem).later
  have ha := hst.alone ht hp hn hpid h0 (Nat.le_refl _)
  have hd : (s₂.data.process_table 0).dropping = false := by
    rw [ht.self]
    exact hst.dropping
  exact ⟨m', ha.resumed hslot hd rfl hframe hr, he.code, hsched, hl⟩

/-- **It forks.** -/
theorem Later.forked (hc : c.Eager) (hr : Reach c StatusFits m) (hcode : m.code = .ret .user)
    (ha : Alone m.sys k) : ∃ s, Family s.data (duo .Running .Runnable) 1 ∧ s.data.NewChild ∧
      s.data.current = some 0 ∧ k ≤ s.phys.free.length + 1 ∧
      Later c StatusFits m { m with sys := s, code := .ret .user } := by
  obtain ⟨s, hf, hfree, hl⟩ := Later.fork hc hr hcode ha.current (ha.kstack 0 (by omega)) ha.fork
  have hframes := ha.frames
  obtain ⟨f, sp, u, -, hchild⟩ := hf.child
  refine ⟨s, ha.forks hf, ?_, hf.current.trans ha.current, by omega, hl⟩
  refine ⟨⟨sp, ?_⟩, ?_, ?_⟩
  · rw [hchild]
  · rw [hchild]
  · rw [hchild]
    exact ha.kstack 1 (by omega)

/-- **It waits**, and the scheduler begins a pass. -/
theorem Later.slept (hr : Reach c StatusFits m) (hcode : m.code = .ret .user)
    (hsched : m.sched = afterTurn 0) (hcur : m.sys.data.current = some 0)
    (hf : Family m.sys.data (duo .Running .Runnable) n) (hnew : m.sys.data.NewChild) :
    ∃ s, Family s.data (duo .Sleeping .Runnable) n ∧ s.data.NewChild ∧ s.data.InitWaits ∧
      s.phys.free = m.sys.phys.free ∧ s.locks.Holds false ∅ ∧ Later c StatusFits m { m with
        sys := s, code := schedulerPass, saved := Function.update m.saved 0 (BareMetal.awake 0 0) } := by
  obtain ⟨s₁, hs₁, hfree, hb₁, hl₁⟩ := Later.wait hr hcode hcur
  have hf₁ : Family s₁.data (duo .Running .Runnable) n :=
    (show Family { m.sys.data with log := .wait 0 0 :: m.sys.data.log } _ n from
      ⟨hf.1, hf.2, hf.3, hf.4, hf.5, hf.6, hf.7⟩).same hs₁
  obtain ⟨s₂, hp₂, hd₂, hb₂, hl₂⟩ := Later.asleep (c := c) (m := { m with
    sys := s₁, code := kwaitLoop c 0 0 }) rfl hsched hb₁ hf₁.sleeps (hs₁.current.trans hcur)
  refine ⟨s₂, ?_, hnew.same ?_, ⟨?_, ?_⟩, ?_, hb₂, hl₁.trans hl₂⟩
  · rw [hd₂]
    exact hf₁.asleep
  · rw [hd₂]
    unfold Data.parked Data.asleep
    dsimp only
    rw [Data.updProc_ne _ _ (by omega), Data.updProc_ne _ _ (by omega),
      Data.updProc_ne _ _ (by omega), hs₁.process_table]
  · rw [hd₂]
    unfold Data.parked Data.asleep
    dsimp only
    rw [Data.updProc_self, Data.updProc_self, Data.updProc_self]
    exact hf₁.init
  · rw [hd₂]
    unfold Data.parked
    dsimp only
    rw [Data.updProc_self]
  · rw [hp₂]
    exact hfree

/-- **The child runs.** -/
theorem Later.born (hr : Reach c StatusFits m) (hcode : m.code = schedulerPass)
    (hb : m.sys.locks.Holds false ∅) (hf : Family m.sys.data (duo .Sleeping .Runnable) n)
    (hlt : n + 1 < USIZE) (hnew : m.sys.data.NewChild) (hw : m.sys.data.InitWaits) :
    ∃ s, Family s.data (duo .Sleeping .Running) (n + 1) ∧ s.data.InitWaits ∧
      s.data.current = some 1 ∧ s.phys.free = m.sys.phys.free ∧
      Later c StatusFits m { m with sys := s, code := .ret .user, sched := afterTurn 1 } := by
  have hn := hf.nproc
  obtain ⟨s₁, ht, hp₁, hn₁, -, hl₁⟩ := Later.dispatch (c := c) hcode hb (i := 1) (by omega)
    (hf.state 1 (by omega)) (hf.only fun j hj hd => by unfold duo at hd; grind) (hf.quants_lt hlt)
  have hnew₁ : s₁.data.process_table 1 = _ := ht.self
  obtain ⟨sp, hctx⟩ := hnew.context
  have hctx₁ : (s₁.data.process_table 1).context = .forkret sp := by
    rw [hnew₁]
    exact hctx
  obtain ⟨s₂, hres, hl₂⟩ := Later.start (m := { m with
      sys := s₁, code := .op (.toProc 1) fun _ => afterTurn 1 }) (hl₁.reach hr) rfl hctx₁
    (by rw [hnew₁]; exact hnew.dropping) (by rw [hnew₁]; exact hnew.kstack)
  have hf₁ := hf.turn ht hn₁
  rw [duo_one] at hf₁
  refine ⟨s₂, hf₁.same hres.toSameTable, hw.same ?_, hres.current.trans ht.current, ?_, hl₁.trans hl₂⟩
  · rw [hres.process_table]
    exact ht.others 0 (by omega)
  · rw [hres.free]
    exact congrArg Phys.free hp₁

/-- **The child becomes a zombie**, and the scheduler begins a pass. -/
theorem Later.died {d : Data} (hcode : m.code = endExit 1 x) (hsched : m.sched = afterTurn 1)
    (hf : Family d (duo .Sleeping .Running) n) (hw : d.InitWaits) (hcur : d.current = some 1)
    (hd : d.Dying m.sys.data 1 x) (hb : m.sys.locks.Holds true {.proc 1, .exit 1}) :
    ∃ s k, Family s.data (duo .Runnable .Zombie) n ∧
      (s.data.process_table 0).context = .sched ∧ (s.data.process_table 1).xstatus = x ∧
      .exit 1 x ∈ s.data.log ∧ s.phys.free = m.sys.phys.free ∧ s.locks.Holds false ∅ ∧
      Later c StatusFits m { m with
        sys := s, code := schedulerPass, saved := Function.update m.saved 1 k } := by
  have hf₁ := hf.exited hw.channel hd.exited
  have hpid : (m.sys.data.process_table 1).pid = some 1 := by
    have := hf₁.child
    rwa [Data.updProc_self] at this
  obtain ⟨s, k, hp, hds, hb', hl⟩ := Later.zombie (c := c) hcode hsched (hd.current.trans hcur) hpid hb
  have hx₁ : (s.data.process_table 1) = { m.sys.data.process_table 1 with
      state := .Zombie, context := .sched } := by
    rw [hds]
    unfold Data.parked
    dsimp only
    rw [Data.updProc_self]
    dsimp only
    rw [Data.updProc_self]
  have hx₀ : ∀ j, j ≠ 1 → s.data.process_table j = m.sys.data.process_table j := fun j hj => by
    rw [hds]
    unfold Data.parked
    dsimp only
    rw [Data.updProc_ne _ _ hj]
    dsimp only
    rw [Data.updProc_ne _ _ hj]
  refine ⟨s, k, ?_, ?_, ?_, ?_, congrArg Phys.free hp, hb', hl⟩
  · have hu : Family s.data (Function.update (duo .Runnable .Zombie) 1 .Zombie) n := by
      have hz := hf₁.state 1 (by omega)
      rw [← show duo .Runnable .Zombie 1 = .Zombie from rfl, ← hz]
      refine hf₁.update (i := 1) (f := fun p => { p with context := .sched }) ?_ ?_ ⟨rfl, rfl, rfl⟩
        (Nat.le_refl n) (hf₁.quants 1 (by omega))
      · funext j
        by_cases hj : j = 1
        · rw [hj, hx₁, Data.updProc_self, Data.updProc_self]
        · rw [hx₀ j hj, Data.updProc_ne _ _ hj, Data.updProc_ne _ _ hj]
      · rw [hds]
        rfl
    rwa [duo_one] at hu
  · rw [hx₀ 0 (by omega), hd.context]
    exact hw.context
  · have := hd.exited.dead.2
    rw [Data.updProc_self] at this
    rw [hx₁]
    exact this
  · rw [hds]
    exact List.mem_cons_self

/-- **Init is woken**, and is about to leave the critical section in which it went to sleep. -/
theorem Later.woken (hr : Reach c StatusFits m) (hcode : m.code = schedulerPass)
    (hb : m.sys.locks.Holds false ∅) (hf : Family m.sys.data (duo .Runnable .Zombie) n)
    (hlt : n + 1 < USIZE) (hctx : (m.sys.data.process_table 0).context = .sched)
    (hsaved : m.saved 0 = BareMetal.awake 0 0) :
    ∃ s, Family s.data (duo .Running .Zombie) (n + 1) ∧
      (s.data.process_table 0).context = .sched ∧
      (s.data.process_table 1).xstatus = (m.sys.data.process_table 1).xstatus ∧
      s.data.current = some 0 ∧ s.phys.free = m.sys.phys.free ∧ s.locks.Holds true {.proc 0} ∧
      Later c StatusFits m { m with
        sys := s
        code := .op (.release (.proc 0)) fun _ => .ret (.kwait 0 0)
        sched := afterTurn 0 } := by
  have hn := hf.nproc
  obtain ⟨s₁, ht, hp₁, hn₁, -, hl₁⟩ := Later.dispatch (c := c) hcode hb (i := 0) (by omega)
    (hf.state 0 (by omega)) (hf.only fun j hj hd => by unfold duo at hd; grind) (hf.quants_lt hlt)
  have hf₁ := hf.turn ht hn₁
  rw [duo_zero] at hf₁
  have hctx₁ : (s₁.data.process_table 0).context = .sched := by
    rw [ht.self]
    exact hctx
  obtain ⟨s₂, hp₂, hd₂, hcur₂, hb₂, hl₂⟩ := Later.awake (m := { m with
      sys := s₁, code := .op (.toProc 0) fun _ => afterTurn 0 }) (hl₁.reach hr) rfl hctx₁ hsaved
  refine ⟨s₂, ?_, ?_, ?_, hcur₂, ?_, hb₂, hl₁.trans hl₂⟩
  · have hu : Family s₂.data (Function.update (duo .Running .Zombie) 0
        (s₁.data.process_table 0).state) (n + 1) := by
      rw [hd₂]
      exact hf₁.update (i := 0) (f := fun p => { p with sleep_channel := none }) rfl rfl
        ⟨rfl, rfl, rfl⟩ (Nat.le_refl _) (hf₁.quants 0 (by omega))
    rwa [hf₁.state 0 (by omega), duo_zero] at hu
  · rw [hd₂, Data.updProc_self]
    exact hctx₁
  · rw [hd₂, Data.updProc_ne _ _ (by omega)]
    dsimp only
    rw [ht.others 1 (by omega)]
  · rw [hp₂]
    exact congrArg Phys.free hp₁

/-- **It reaps the child**: what it returns is the child's pid and status. -/
theorem Later.delivered (hc : c.Eager) (hr : Reach c StatusFits m)
    (hcode : m.code = .op (.release (.proc 0)) fun _ => .ret (.kwait 0 0))
    (hf : Family m.sys.data (duo .Running .Zombie) n) (hcur : m.sys.data.current = some 0)
    (hb : m.sys.locks.Holds true {.proc 0}) (hfree : 2 ≤ m.sys.phys.free.length) :
    ∃ k s, s.locks.sie = true ∧ Later c StatusFits m { m with
      sys := s, code := .op (.note (.waited 0 0 1 (m.sys.data.process_table 1).xstatus)) k } := by
  obtain ⟨q, s₁, ⟨rfl, hp₁, hd₁, hb₁⟩, hl₁⟩ := Later.comes (c := c) hcode (D := fun q s =>
      q = .ret (.kwait 0 0) ∧ s.phys = m.sys.phys ∧ s.data = m.sys.data ∧ s.locks.Holds true ∅)
    (comes_bind (p := release (.proc 0)) (always_give hb (Finset.mem_singleton_self _)
      fun s p d hb => comes_here ⟨rfl, p, d, by rwa [Finset.erase_singleton] at hb⟩))
  have h₂ : Step c { m with sys := s₁, code := .ret (.kwait 0 0) } { m with
      sys := s₁, code := kwaitLoop c 0 0 } := .label rfl rfl
  have hl₂ := hl₁.tail ⟨.of_label rfl, h₂⟩
  have hz := hf.reapable
  obtain ⟨k, s, u, tf, -, hsie, hl₃⟩ := Later.reaps (m := { m with
      sys := s₁, code := kwaitLoop c 0 0 }) (p := 1) (z := 1) hc (Later.reach hl₂ hr) rfl
    (by rw [hd₁]; exact hcur) hb₁ (by rwa [hd₁]) (by rw [hd₁]; exact hf.size) (by rwa [hp₁])
  dsimp only at hl₃
  rw [hd₁] at hl₃
  exact ⟨k, s, hsie, hl₂.trans hl₃⟩

/-! ### From a start with frames enough -/

section
variable (hm : Init c m) (hc : c.Eager) (hmem : 10000 + programFrames c.INIT +
  (2 * imagePages c.INIT + 5 + 3) ≤ m.sys.phys.free.length)

include hm hc hmem

theorem Init.slept : ∃ m', Reach c StatusFits m' ∧ m'.code = schedulerPass ∧
    m'.saved 0 = BareMetal.awake 0 0 ∧ Family m'.sys.data (duo .Sleeping .Runnable) 1 ∧
    m'.sys.data.NewChild ∧ m'.sys.data.InitWaits ∧ m'.sys.locks.Holds false ∅ ∧
    2 ≤ m'.sys.phys.free.length := by
  obtain ⟨m₁, ha, hcode, hsched, hl₁⟩ := hm.alone hc (n := 3) (by decide) hmem
  have hr₁ := hl₁.reach (.init hm)
  obtain ⟨s₂, hf₂, hnew₂, hcur₂, hfree₂, hl₂⟩ := Later.forked hc hr₁ hcode ha
  have hr₂ := hl₂.reach hr₁
  obtain ⟨s₃, hf₃, hnew₃, hw₃, hfree₃, hb₃, hl₃⟩ := Later.slept hr₂ rfl hsched hcur₂ hf₂ hnew₂
  refine ⟨_, hl₃.reach hr₂, rfl, ?_, hf₃, hnew₃, hw₃, hb₃, ?_⟩
  · dsimp only
    rw [Function.update_self]
  dsimp only at hfree₃ ⊢
  rw [hfree₃]
  omega

theorem Init.dying (hx : x < 2 ^ 32) : ∃ d m', Reach c StatusFits m' ∧ m'.code = endExit 1 x ∧
    m'.sched = afterTurn 1 ∧ m'.saved 0 = BareMetal.awake 0 0 ∧
    Family d (duo .Sleeping .Running) 2 ∧ d.InitWaits ∧ d.current = some 1 ∧
    d.Dying m'.sys.data 1 x ∧ m'.sys.locks.Holds true {.proc 1, .exit 1} ∧
    2 ≤ m'.sys.phys.free.length := by
  obtain ⟨m₁, hr₁, hcode₁, hsaved₁, hf₁, hnew₁, hw₁, hb₁, hfree₁⟩ := hm.slept hc hmem
  obtain ⟨s₂, hf₂, hw₂, hcur₂, hfree₂, hl₂⟩ := Later.born hr₁ hcode₁ hb₁ hf₁
    (by rw [USIZE_eq]; decide) hnew₁ hw₁
  have hr₂ := hl₂.reach hr₁
  obtain ⟨s₃, hd₃, hfree₃, hb₃, hl₃⟩ :=
    Later.exit hr₂ rfl hcur₂ (by rw [hf₂.child]; simp) hx
  refine ⟨s₂.data, _, hl₃.reach hr₂, rfl, rfl, hsaved₁, hf₂, hw₂, hcur₂, hd₃, hb₃, ?_⟩
  dsimp only at hfree₃ ⊢
  rw [hfree₃, hfree₂]
  exact hfree₁

theorem Init.died (hx : x < 2 ^ 32) : ∃ m', Reach c StatusFits m' ∧ m'.code = schedulerPass ∧
    m'.saved 0 = BareMetal.awake 0 0 ∧ Family m'.sys.data (duo .Runnable .Zombie) 2 ∧
    (m'.sys.data.process_table 0).context = .sched ∧ (m'.sys.data.process_table 1).xstatus = x ∧
    .exit 1 x ∈ m'.sys.data.log ∧ m'.sys.locks.Holds false ∅ ∧ 2 ≤ m'.sys.phys.free.length := by
  obtain ⟨d, m₁, hr₁, hcode₁, hsched₁, hsaved₁, hf₁, hw₁, hcur₁, hd₁, hb₁, hfree₁⟩ :=
    hm.dying hc hmem hx
  obtain ⟨s₂, k, hf₂, hctx₂, hx₂, hlog₂, hfree₂, hb₂, hl₂⟩ :=
    Later.died hcode₁ hsched₁ hf₁ hw₁ hcur₁ hd₁ hb₁
  refine ⟨_, hl₂.reach hr₁, rfl, ?_, hf₂, hctx₂, hx₂, hlog₂, hb₂, ?_⟩
  · dsimp only
    rw [Function.update_of_ne (by decide)]
    exact hsaved₁
  · dsimp only
    rw [hfree₂]
    exact hfree₁

theorem Init.woken (hx : x < 2 ^ 32) : ∃ m₁ m', Reach c StatusFits m₁ ∧ m₁.code = schedulerPass ∧
    Family m₁.sys.data (duo .Runnable .Zombie) 2 ∧ (m₁.sys.data.process_table 1).xstatus = x ∧
    .exit 1 x ∈ m₁.sys.data.log ∧ Later c StatusFits m₁ m' ∧
    m'.code = (.op (.release (.proc 0)) fun _ => .ret (.kwait 0 0)) ∧
    Family m'.sys.data (duo .Running .Zombie) 3 ∧
    (m'.sys.data.process_table 0).context = .sched ∧ (m'.sys.data.process_table 1).xstatus = x ∧
    m'.sys.data.current = some 0 ∧ m'.sys.locks.Holds true {.proc 0} ∧
    2 ≤ m'.sys.phys.free.length := by
  obtain ⟨m₁, hr₁, hcode₁, hsaved₁, hf₁, hctx₁, hx₁, hlog₁, hb₁, hfree₁⟩ := hm.died hc hmem hx
  obtain ⟨s₂, hf₂, hctx₂, hx₂, hcur₂, hfree₂, hb₂, hl₂⟩ := Later.woken hr₁ hcode₁ hb₁ hf₁
    (by rw [USIZE_eq]; decide) hctx₁ hsaved₁
  refine ⟨m₁, _, hr₁, hcode₁, hf₁, hx₁, hlog₁, hl₂, rfl, hf₂, hctx₂, hx₂.trans hx₁, hcur₂, hb₂, ?_⟩
  dsimp only
  rw [hfree₂]
  exact hfree₁

theorem Init.delivered (hx : x < 2 ^ 32) : ∃ m₁ m' k, Reach c StatusFits m₁ ∧
    m₁.code = schedulerPass ∧ Family m₁.sys.data (duo .Runnable .Zombie) 2 ∧
    (m₁.sys.data.process_table 1).xstatus = x ∧ .exit 1 x ∈ m₁.sys.data.log ∧
    Later c StatusFits m₁ m' ∧ m'.code = .op (.note (.waited 0 0 1 x)) k ∧
    m'.sys.locks.sie = true := by
  obtain ⟨m₁, m₂, hr₁, hcode₁, hf₁, hx₁, hlog₁, hl₂, hcode₂, hf₂, -, hx₂, hcur₂, hb₂, hfree₂⟩ :=
    hm.woken hc hmem hx
  obtain ⟨k, s₃, hsie, hl₃⟩ := Later.delivered hc (hl₂.reach hr₁) hcode₂ hf₂ hcur₂ hb₂ hfree₂
  rw [hx₂] at hl₃
  exact ⟨m₁, _, k, hr₁, hcode₁, hf₁, hx₁, hlog₁, hl₂.trans hl₃, rfl, hsie⟩

end

theorem boot_room : 10000 + programFrames Cfg.demo.INIT + (2 * imagePages Cfg.demo.INIT + 5 + 3) ≤
    boot.sys.phys.free.length := by
  have hpages : 2 * imagePages Cfg.demo.INIT + 5 + 3 ≤ 900 := by decide +kernel
  exact (Nat.add_le_add_left hpages _).trans boot_spare

end Machine

end BareMetal
