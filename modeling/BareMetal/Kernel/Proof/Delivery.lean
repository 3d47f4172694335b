import BareMetal.Lib.Trace
import BareMetal.Kernel.Proof.First
import BareMetal.Kernel.Proof.Life

/-!
# Pids and exit statuses

A pid is given once (`pids_never_reused`). The log of a run is a trace: a process exits once, is
reaped once, by its parent, and `kwait` returns it once, right after it has reaped it
(`exits_delivered`); who has exited and is not reaped yet is a zombie in the table
(`no_exit_lost`), and stays one with its pid and its status until its parent reaps it
(`zombie_waits`).
-/

namespace BareMetal

open Lib

variable {c : Cfg} {A : Machine → Prop} {m m' : Machine} {h : History}

/-! ## The log -/

/-- The event may come after those in the log. -/
def Event.Follows (log : List Event) : Event → Prop
  | .exit pid _ => ∀ x, (pid, x) ∉ exits log
  | .reap _ _ pid xstatus => (pid, xstatus) ∈ exits log ∧ ∀ x, (pid, x) ∉ reaps log
  | .waited i _ pid xstatus => (∃ j, (eventsOf i log).head? = some (.reap i j pid xstatus)) ∧
      ∀ x, (pid, x) ∉ returns log
  | _ => True

theorem Event.Ok.follows {E : Env} {me : Option Nat} {S : St} {e : Event} (h : e.Ok E me S) :
    e.Follows S.data.log := by
  cases e with
  | exit pid xstatus =>
    obtain ⟨i, -, -, -, -, hx⟩ := h
    exact hx
  | reap i j pid xstatus =>
    obtain ⟨-, -, -, -, -, -, hx, hr⟩ := h
    exact ⟨hx, hr⟩
  | waited i addr pid xstatus =>
    obtain ⟨-, -, -, hj, -, hr, -⟩ := h
    exact ⟨hj, hr⟩
  | _ => trivial

theorem mem_exits {p x : Nat} {l : List Event} : (p, x) ∈ exits l ↔ .exit p x ∈ l := by
  constructor
  · intro h
    obtain ⟨e, he, hx⟩ := List.mem_filterMap.1 h
    cases e with
    | exit p' x' =>
      obtain ⟨rfl, rfl⟩ := Prod.mk.inj (Option.some.inj hx)
      exact he
    | _ => cases hx
  · exact fun h => List.mem_filterMap.2 ⟨_, h, rfl⟩

namespace Machine

/-- The log of a run is a trace of events each of which may come after those before it. -/
theorem Run.trace (hr : Run c A m h) : Trace (fun l e => e.Follows l) m.sys.data.log := by
  induction hr with
  | init hm =>
    rw [hm.log]
    exact .nil
  | step hr _ hs ih =>
    rcases hs.log hr with hl | ⟨e, k, hc, hl⟩
    · rw [hl]
      exact ih
    · obtain ⟨-, me, own, hok, -⟩ := hr.next hc
      have hl : _ = e :: _ := congrArg Data.log hl
      rw [hl]
      exact ih.cons hok.follows

/-- The log grows. -/
theorem Later.log (hl : Later c A m m') (hr : Reach c A m) :
    m.sys.data.log <:+ m'.sys.data.log := by
  induction hl with
  | refl => exact List.suffix_rfl
  | @tail m₁ m₂ h₁ hs ih =>
    obtain ⟨h, hr₁⟩ := (Later.reach h₁ hr).run
    rcases hs.2.log hr₁ with hl | ⟨e, k, -, hl⟩
    · exact hl ▸ ih
    · have hl : m₂.sys.data.log = e :: m₁.sys.data.log := congrArg Data.log hl
      exact hl ▸ ih.trans (List.suffix_cons ..)

end Machine

/-! ## Delivery -/

/-- Every exit is delivered once at most. -/
structure Delivered (log : List Event) : Prop where
  exit_once : ((exits log).map Prod.fst).Nodup
  reap_once : ((reaps log).map Prod.fst).Nodup
  return_once : ((returns log).map Prod.fst).Nodup
  /-- Who is reaped has exited, with that status. -/
  reaped : ∀ l₂ i j p x l₁, log = l₂ ++ .reap i j p x :: l₁ → .exit p x ∈ l₁
  /-- What `kwait` returns the same thread has just reaped. -/
  returned : ∀ l₂ i addr p x l₁, log = l₂ ++ .waited i addr p x :: l₁ →
    ∃ l j l₀, l₁ = l ++ .reap i j p x :: l₀ ∧ eventsOf i l = []

theorem Delivered.of_trace {l : List Event} (h : Trace (fun l e => e.Follows l) l) :
    Delivered l where
  exit_once := h.once fun l e p x hf he => by
    cases e with
    | exit p' x' =>
      obtain ⟨rfl, -⟩ := Prod.mk.inj (Option.some.inj he)
      exact hf
    | _ => cases he
  reap_once := h.once fun l e p x hf he => by
    cases e with
    | reap i j p' x' =>
      obtain ⟨rfl, -⟩ := Prod.mk.inj (Option.some.inj he)
      exact hf.2
    | _ => cases he
  return_once := h.once fun l e p x hf he => by
    cases e with
    | waited i addr p' x' =>
      obtain ⟨rfl, -⟩ := Prod.mk.inj (Option.some.inj he)
      exact hf.2
    | _ => cases he
  reaped := by
    rintro l₂ i j p x l₁ rfl
    exact mem_exits.1 h.admitted.1
  returned := by
    rintro l₂ i addr p x l₁ rfl
    obtain ⟨⟨j, hj⟩, -⟩ := h.admitted
    obtain ⟨l, l₀, rfl, hl⟩ := head?_filter_eq_some hj
    exact ⟨l, j, l₀, rfl, hl⟩

/-- What the kernel finds when it notes an event. -/
def Machine.Noted (m : Machine) : Event → Prop
  | .exit pid xstatus => ∃ i, (m.sys.data.process_table i).pid = some pid ∧
      (m.sys.data.process_table i).state = .Zombie ∧
      (m.sys.data.process_table i).xstatus = xstatus
  | .reap i j pid xstatus => j < m.sys.data.nproc ∧
      (m.sys.data.process_table j).state = .Zombie ∧
      (m.sys.data.process_table j).pid = some pid ∧
      (m.sys.data.process_table j).parent = (m.sys.data.process_table i).pid ∧
      (m.sys.data.process_table j).xstatus = xstatus
  | .waited i addr pid xstatus =>
      (∀ j < m.sys.data.nproc, (m.sys.data.process_table j).pid ≠ some pid) ∧
      (addr ≠ 0 → UserWord m.sys.phys.mem (m.sys.data.process_table i).pagetable addr
        (xstatus % 2 ^ 32))
  | .noKids i => ∀ j < m.sys.data.nproc,
      (m.sys.data.process_table j).parent ≠ (m.sys.data.process_table i).pid
  | _ => True

theorem Event.Ok.noted (hl : c.Linked) {own : Party → Finset Nat} {me : Option Nat} {e : Event}
    (h' : e.Ok c.tracked me ⟨m.sys, own, h⟩) : m.Noted e := by
  cases e with
  | exit pid xstatus =>
    obtain ⟨i, -, hp, hz, hx, -⟩ := h'
    exact ⟨i, hp, hz, hx⟩
  | reap i j pid xstatus =>
    obtain ⟨-, hj, hz, hp, hpar, hx, -⟩ := h'
    exact ⟨hj, hz, hp, hpar, hx⟩
  | waited i addr pid xstatus =>
    obtain ⟨-, -, hgone, -, -, -, hw, -⟩ := h'
    exact ⟨hgone, hw hl⟩
  | noKids i => exact h'.2.1
  | _ => trivial

/-- **An exit status is delivered once, and to the parent**: each process exits once, is reaped once,
and what a call of `kwait` returns, and stores, is what it has just reaped, a child that was a
zombie. -/
theorem exits_delivered (hr : Machine.Reach c Machine.StatusFits m) :
    Delivered m.sys.data.log ∧ ∀ e k, m.code = .op (.note e) k → m.Noted e := by
  obtain ⟨h, hr⟩ := hr.run
  refine ⟨.of_trace hr.trace, fun e k hc => ?_⟩
  obtain ⟨me, own, hi⟩ := hr.keeps_tracked
  exact (hi.next hc).2.1.noted hr.linked

/-- The child of init has exited with the status 7, and init is about to return from `kwait`. -/
theorem exits_delivered_demo : ∃ (m : Machine) (k : Unit → K Label),
    m.code = .op (.note (.waited 0 0 1 7)) k ∧ .exit 1 7 ∈ m.sys.data.log ∧
    Delivered m.sys.data.log ∧ ∀ e k, m.code = .op (.note e) k → m.Noted e := by
  obtain ⟨m₁, m, k, hr₁, -, -, -, hlog, hl, hcode, -⟩ :=
    Machine.boot_init.delivered Cfg.demo_eager Machine.boot_room (x := 7) (by decide)
  exact ⟨m, k, hcode, (hl.log hr₁).subset hlog, exits_delivered (hl.reach hr₁)⟩

/-- The table accounts for every exit. -/
structure Data.Accounts (d : Data) : Prop where
  /-- Who has exited has been reaped, or is a zombie that keeps the status. -/
  kept : ∀ p x, .exit p x ∈ d.log → (p, x) ∈ reaps d.log ∨ ∃ i < d.nproc,
    (d.process_table i).state = .Zombie ∧ (d.process_table i).pid = some p ∧
      (d.process_table i).xstatus = x
  /-- A zombie has exited with its status and has not been reaped. -/
  zombie : ∀ i < d.nproc, (d.process_table i).state = .Zombie → ∃ p,
    (d.process_table i).pid = some p ∧ .exit p (d.process_table i).xstatus ∈ d.log ∧
      ∀ x, (p, x) ∉ reaps d.log
  alive : ∀ i < d.nproc, (d.process_table i).state ≠ .Zombie → ∀ p x,
    (d.process_table i).pid = some p → .exit p x ∉ d.log

theorem Exits.accounts {d : Data} (h : Exits d) : d.Accounts where
  kept p x hx := h.kept p x (mem_exits.2 hx)
  zombie i hi hz := by
    obtain ⟨p, hp, hx, hr⟩ := h.zombie i hi hz
    exact ⟨p, hp, mem_exits.1 hx, hr⟩
  alive i hi hz p x hp hx := h.alive i hi hz p x hp (mem_exits.2 hx)

/-- **No exit is lost**: wherever the hart can change hands the table accounts for every exit. -/
theorem no_exit_lost (hr : Machine.Reach c (fun _ => True) m) (hw : m.AtSwitch) :
    m.sys.data.Accounts := by
  obtain ⟨h, hr⟩ := hr.run
  obtain ⟨me, own, hi⟩ := hr.keeps
  obtain ⟨run, hinv, -⟩ := hw.inv hi
  exact hinv.exits.accounts

/-- The child of init has exited, and the scheduler begins a pass. -/
theorem no_exit_lost_demo : ∃ m : Machine, m.AtPass ∧ .exit 1 7 ∈ m.sys.data.log ∧
    (m.sys.data.process_table 1).state = .Zombie ∧ m.sys.data.Accounts := by
  obtain ⟨m, hr, hcode, -, hf, -, -, hlog, -⟩ :=
    Machine.boot_init.died Cfg.demo_eager Machine.boot_room (x := 7) (by decide)
  exact ⟨m, ⟨_, hcode⟩, hlog, hf.state 1 (by decide),
    no_exit_lost (hr.mono fun _ _ => trivial) (.inl ⟨_, hcode⟩)⟩

/-! ## Runs -/

namespace Machine

/-- A pid below the counter is not given again. -/
theorem Later.pid (hl : Later c A m m') (hr : Reach c A m) :
    m.sys.data.pid ≤ m'.sys.data.pid ∧ m.sys.data.nproc ≤ m'.sys.data.nproc ∧
      ∀ i < m'.sys.data.nproc, ∀ p < m.sys.data.pid,
        (m'.sys.data.process_table i).pid = some p →
          i < m.sys.data.nproc ∧ (m.sys.data.process_table i).pid = some p := by
  induction hl with
  | refl => exact ⟨Nat.le_refl _, Nat.le_refl _, fun i hi p _ hp => ⟨hi, hp⟩⟩
  | @tail m₁ m₂ h₁ hs ih =>
    obtain ⟨hpid, hn, hold⟩ := ih
    obtain ⟨h, hr₁⟩ := (Later.reach h₁ hr).run
    have hc := (hs.2.legal hr₁).1
    refine ⟨hpid.trans hc.next, hn.trans hc.nproc, fun i hi p hlt hp => ?_⟩
    by_cases hi₁ : i < m₁.sys.data.nproc
    · refine hold i hi₁ p hlt ?_
      rcases (hc.names i hi₁).pid with he | ⟨he, -⟩ | ⟨he, -⟩
      · exact he.symm.trans hp
      · cases he.symm.trans hp
      · have := Option.some.inj (he.symm.trans hp)
        omega
    · cases (hc.grown i hi (by omega)).symm.trans hp

/-- The kernel's own pages stay as they are. -/
theorem Later.image (hl : Later c StatusFits m m') (hr : Reach c StatusFits m) :
    c.SameImage m.sys.phys.mem m'.sys.phys.mem := by
  induction hl with
  | refl => exact .refl c _
  | @tail m₁ m₂ h₁ hs ih =>
    obtain ⟨h, hr₁⟩ := (Later.reach h₁ hr).run
    obtain ⟨me, own, hi⟩ := hr₁.keeps_tracked
    obtain ⟨me', own', hn⟩ := hi.step (code_keeps _) (assume_tracked c hs.1) hs.2
    exact ih.trans (hn.image hr₁.linked)

/-- The scheduler waits with interrupts on, and begins its first pass. -/
theorem boot_passes : ∃ m m' : Machine, m.sys.locks.sie = true ∧ m'.AtPass ∧
    Reach Cfg.demo (fun _ => True) m ∧ Later Cfg.demo (fun _ => True) m m' := by
  obtain ⟨s, hs, -, hr⟩ := boot_open (A := fun _ => True) fun _ _ => trivial
  exact ⟨_, _, hs, ⟨_, rfl⟩, hr,
    .single ⟨trivial, .op (n := 0) (o := .setSie false) (k := fun _ => schedulerPass) rfl rfl⟩⟩

end Machine

/-- **No pid is given twice**: wherever the hart can change hands all pids are below the counter, the
counter never goes down, and a pid below it is later where it was, or nowhere. -/
theorem pids_never_reused (hr : Machine.Reach c (fun _ => True) m) (hw : m.AtSwitch)
    (hl : Machine.Later c (fun _ => True) m m') :
    m.sys.data.pid ≤ m'.sys.data.pid ∧
      (∀ i < m.sys.data.nproc, ∀ p, (m.sys.data.process_table i).pid = some p →
        p < m.sys.data.pid) ∧
      ∀ i < m'.sys.data.nproc, ∀ p < m.sys.data.pid, (m'.sys.data.process_table i).pid = some p →
        i < m.sys.data.nproc ∧ (m.sys.data.process_table i).pid = some p := by
  obtain ⟨hpid, -, hold⟩ := hl.pid hr
  obtain ⟨h, hr⟩ := hr.run
  obtain ⟨me, own, hi⟩ := hr.keeps
  obtain ⟨run, hinv, -⟩ := hw.inv hi
  exact ⟨hpid, hinv.table.issued, hold⟩

/-- The scheduler begins its first pass. -/
theorem pids_never_reused_demo : ∃ m m' : Machine, m.sys.locks.sie = true ∧ m'.AtPass ∧
    m.sys.data.pid ≤ m'.sys.data.pid ∧
      (∀ i < m.sys.data.nproc, ∀ p, (m.sys.data.process_table i).pid = some p →
        p < m.sys.data.pid) ∧
      ∀ i < m'.sys.data.nproc, ∀ p < m.sys.data.pid, (m'.sys.data.process_table i).pid = some p →
        i < m.sys.data.nproc ∧ (m.sys.data.process_table i).pid = some p := by
  obtain ⟨m, m', hs, hp, hr, hl⟩ := Machine.boot_passes
  exact ⟨m, m', hs, hp, pids_never_reused hr (.inr (.inr (.inr hs))) hl⟩

/-- Every zombie is in its slot, with its pid and its status, until it is reaped, and then its pid is
gone. -/
def Data.Awaits (d d' : Data) : Prop :=
  ∀ j < d.nproc, (d.process_table j).state = .Zombie → ∃ p, (d.process_table j).pid = some p ∧
    (((d'.process_table j).state = .Zombie ∧ (d'.process_table j).pid = some p ∧
        (d'.process_table j).xstatus = (d.process_table j).xstatus) ∨
      (p, (d.process_table j).xstatus) ∈ reaps d'.log ∧
        ∀ i < d'.nproc, (d'.process_table i).pid ≠ some p)

/-- **A zombie waits for its parent**, whatever runs meanwhile. -/
theorem zombie_waits (hr : Machine.Reach c (fun _ => True) m) (hw : m.AtSwitch)
    (hl : Machine.Later c (fun _ => True) m m') (hw' : m'.AtSwitch) :
    m.sys.data.Awaits m'.sys.data := by
  have hlog := hl.log hr
  obtain ⟨-, -, hold⟩ := hl.pid hr
  obtain ⟨h', hr'⟩ := (hl.reach hr).run
  obtain ⟨h, hr⟩ := hr.run
  obtain ⟨me, own, hi⟩ := hr.keeps
  obtain ⟨run, hinv, -⟩ := hw.inv hi
  obtain ⟨me', own', hi'⟩ := hr'.keeps
  obtain ⟨run', hinv', -⟩ := hw'.inv hi'
  intro j hj hz
  obtain ⟨p, hp, hx, -⟩ := hinv.exits.accounts.zombie j hj hz
  refine ⟨p, hp, ?_⟩
  rcases hinv'.exits.accounts.kept p _ (hlog.mem hx) with hreap | ⟨i, hin, hiz, hip, hix⟩
  · exact .inr ⟨hreap, hinv'.exits.gone hreap⟩
  · -- the pid is where it was
    obtain ⟨hin₀, hip₀⟩ := hold i hin p (hinv.table.issued j hj p hp) hip
    obtain rfl : i = j := hinv.table.distinct i hin₀ j hj (fun hn => by cases hn.symm.trans hip₀)
      (hip₀.trans hp.symm)
    exact .inl ⟨hiz, hip, hix⟩

/-- The child of init waits for it, and is reaped. -/
theorem zombie_waits_demo : ∃ (m m' : Machine) (k : Unit → K Label), m.AtPass ∧
    m.sys.data.nproc = 4 ∧ (m.sys.data.process_table 1).state = .Zombie ∧
    m'.code = .op (.note (.waited 0 0 1 7)) k ∧ m.sys.data.Awaits m'.sys.data := by
  obtain ⟨m, m', k, hr, hcode, hf, -, -, hl, hcode', hsie⟩ :=
    Machine.boot_init.delivered Cfg.demo_eager Machine.boot_room (x := 7) (by decide)
  have hany : ∀ m : Machine, m.StatusFits → True := fun _ _ => trivial
  exact ⟨m, m', k, ⟨_, hcode⟩, hf.nproc, hf.state 1 (by decide), hcode',
    zombie_waits (hr.mono hany) (.inl ⟨_, hcode⟩) (hl.mono hany) (.inr (.inr (.inr hsie)))⟩

/-- **What the kernel is linked from is never written to**, by the kernel or by a program: its code, the
trampoline and the embedded programs, all bytes outside the frames of the allocator, stay as they
are. The kernel's variables are in `Data`. -/
theorem image_intact (hr : Machine.Reach c Machine.StatusFits m)
    (hl : Machine.Later c Machine.StatusFits m m') {a : Nat} (ha : ¬ c.IsFrame (pageOf a)) :
    m'.sys.phys.mem a = m.sys.phys.mem a :=
  hl.image hr a ha

/-- The first byte of the kernel, from the entry of `main` to init's program. -/
theorem image_intact_demo : ∃ m : Machine, m.code = .ret .user ∧
    ¬ Cfg.demo.IsFrame (pageOf KERNEL_START) ∧
    m.sys.phys.mem KERNEL_START = Machine.boot.sys.phys.mem KERNEL_START := by
  obtain ⟨m, hl, ⟨he, -, -⟩⟩ :=
    (Machine.boot_init.leads (k := 0) Cfg.demo_eager Machine.boot_frames).later
  have ha : ¬ Cfg.demo.IsFrame (pageOf KERNEL_START) := fun h => by
    have h1 : Cfg.demo.ekernel ≤ KERNEL_START := h.start.trans (pageOf_le _).1
    revert h1
    decide
  exact ⟨m, he.code, ha, image_intact (.init Machine.boot_init) hl ha⟩

end BareMetal
