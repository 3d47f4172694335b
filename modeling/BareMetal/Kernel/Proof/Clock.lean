import BareMetal.Kernel.Proof.Started

/-!
# The timer

Both trap handlers read the low word of the time and write the low word of the comparator. As long
as the two have the same high word, and the low word does not overflow, every deadline is one
quantum away (`timer_on_time_when`). Once the time has 33 bits the deadline lies in the past
(`timer_late`), and just before that the addition panics (`timer_overflow`).
-/

namespace BareMetal

open Lib K

/-- Memory is not followed; the timer is. -/
def Cfg.timed (c : Cfg) : Env := { c.plain with timer := True }

/-- `deadline` with a quantum `q`. -/
def quantum (report : K Unit) (q : Nat) : K Unit := do
  let time ← time
  let _ ← add "deadline" time q
  report
  stimecmp (← add "deadline" time q)

theorem deadline_quantum (report : K Unit) : deadline report = quantum report 1000000 := by
  unfold deadline quantum
  rfl

namespace Machine

variable {c : Cfg} {A : Machine → Prop} {m : Machine}

/-- When the handler reads the time, its low word is enough for the deadline, and it has the high
word of the comparator. -/
def LowWord (m : Machine) : Prop := ∀ k, m.code = .op .time k → TimeOk m.time m.sys.timer

/-- Each deadline is one quantum after the time that it was computed from, and no computation of
one overflows. -/
structure OnTime (m : Machine) : Prop where
  deadlines : ∀ x ∈ m.sys.timer.deadlines, x.2 = x.1 + 1000000
  checks : ∀ k, m.code ≠ .op (.panic "deadline: attempt to add with overflow") k

/-- The deadline of a machine whose time has the low word for it. -/
theorem Reach.quantum {q : Nat} (hA : ∀ m', m.SameClock m' → A m') {f : Unit → K Label}
    (hr : Reach c A m) (hc : m.code = BareMetal.quantum (pure ()) q >>= f)
    (ht : m.time % 2 ^ 32 + q < USIZE) :
    Reach c A { m with
      sys := { m.sys with timer := { m.sys.timer with
        stimecmp := m.time % 2 ^ 32 + q
        asked := m.time
        deadlines := (m.time, m.time % 2 ^ 32 + q + 2 ^ 32 * m.sys.timer.stimecmph) ::
          m.sys.timer.deadlines } }
      code := f () } := by
  have h₁ := hr.step (hA m ⟨rfl, rfl⟩) (.op (n := 0) (o := .time) (k := _) hc rfl)
  refine h₁.step (hA _ ⟨rfl, rfl⟩) (.op (n := 0) (o := .stimecmp (m.time % 2 ^ 32 + q)) (k := f) ?_ rfl)
  show ((add "deadline" (m.time % 2 ^ 32) q >>= fun _ => (pure () : K Unit) >>= fun _ =>
    add "deadline" (m.time % 2 ^ 32) q >>= stimecmp) >>= f : K Label) = _
  unfold add
  rw [if_pos ht]
  rfl

/-- A timer interrupt in the kernel comes to the next deadline. -/
theorem Reach.kerneltrap (hA : ∀ m', m.SameClock m' → A m') {g : Unit → K Label} (hr : Reach c A m)
    (hc : m.code = BareMetal.kerneltrap >>= g) (hspp : m.sys.data.csr.spp = true)
    (hsie : m.sys.locks.sie = false) (hsc : m.sys.data.csr.scause = TIMER) :
    ∃ f : Unit → K Label, Reach c A { m with code := deadline (pure ()) >>= f } := by
  have h₁ := hr.step (hA m ⟨rfl, rfl⟩) (.op (n := 0) (o := .get) (k := _) hc rfl)
  dsimp only [Free.bind] at h₁
  simp only [hspp, Bool.not_true, Bool.false_eq_true, if_false] at h₁
  have h₂ := h₁.step (hA _ ⟨rfl, rfl⟩) (.op (n := 0) (o := .locks) (k := _) rfl rfl)
  dsimp only [Free.bind] at h₂
  simp only [hsie, Bool.false_eq_true, if_false, hsc, if_true] at h₂
  obtain ⟨f, hf⟩ : ∃ f : Unit → K Unit, Reach c A { m with
      code := (deadline (pure ()) >>= f) >>= g } := ⟨_, h₂⟩
  rw [Free.bind_assoc] at hf
  exact ⟨_, hf⟩

/-- The kernel has trapped, on a timer interrupt that comes at time `t`. -/
theorem boot_interrupt {t : Nat} (ht : t < 2 ^ 64)
    (hA : ∀ m : Machine, m.time = 0 ∨ m.time = t → m.sys.timer.stimecmph = 0 → A m) :
    ∃ (s : Sys) (f : Unit → K Label), s.timer.stimecmph = 0 ∧
      Reach Cfg.demo A { boot with sys := s, time := t, code := deadline (pure ()) >>= f } := by
  obtain ⟨s, hsie, hs, hr⟩ := boot_open (A := A) fun m hm => hA m (.inl hm.1) hm.2
  obtain ⟨h, hrun⟩ := hr.run
  obtain ⟨me, own, hi⟩ := hrun.keeps
  have hu : s.locks.umode = false := (hi.next (o := .setSie false) (k := _) rfl).1
  have hvec : s.data.csr.stvec = .kernelvec := by
    have := (hi.settled hsie).stvec
    change s.data.csr.stvec = if s.locks.umode then _ else _ at this
    rw [hu] at this
    exact this
  have h₁ := hr.step (hA _ (.inl rfl) hs) (.tick (Nat.zero_le t) ht)
  have h₂ := h₁.step (hA _ (.inr rfl) hs) (@Step.interrupt Cfg.demo _ 0 hsie hu)
  simp only [hvec] at h₂
  have hcode : kernelvec = BareMetal.kerneltrap >>= fun _ => (do if ← sret then lost else return ()) :=
    rfl
  rw [hcode, Free.bind_assoc] at h₂
  obtain ⟨f, hf⟩ := h₂.kerneltrap (fun m hm => hA m (.inr hm.1) (hm.2.trans hs)) rfl rfl rfl rfl
  exact ⟨s.trap TIMER 0 true, f, hs, hf⟩

end Machine

/-- **The timer moves forward** in every run in which the handlers read the time while its low word
is enough. -/
theorem timer_on_time_when {c : Cfg} {m : Machine} (h : Machine.Reach c Machine.LowWord m) :
    m.OnTime := by
  obtain ⟨h, hr⟩ := h.run
  have hA : ∀ m : Machine, m.LowWord → m.Assume c.timed := fun m hm => by
    refine ⟨fun e k _ => ?_, fun _ => hm⟩
    cases e with
    | wait i addr => exact fun h => h.elim
    | _ => exact trivial
  obtain ⟨me, own, hi⟩ := MInv.run (E := c.timed) (code_keeps _) hA hr
  refine ⟨hi.timer trivial, fun k hc => ?_⟩
  obtain ⟨-, ho⟩ := hi.next hc
  exact ho.1 (.inr (.inr (.inr (.inr ⟨trivial, rfl⟩))))

/-- A timer interrupt at time 4000000000, and the deadline that its handler sets. -/
theorem timer_on_time_demo : ∃ m : Machine, (4000000000, 4001000000) ∈ m.sys.timer.deadlines ∧
    m.OnTime := by
  have hA : ∀ m : Machine, m.time = 0 ∨ m.time = 4000000000 → m.sys.timer.stimecmph = 0 →
      m.LowWord := fun m ht hs k _ => by
    unfold TimeOk
    rw [hs]
    omega
  obtain ⟨s, f, hs, hr⟩ := Machine.boot_interrupt (t := 4000000000) (by decide) hA
  rw [deadline_quantum] at hr
  have hex : ∃ q, q = 1000000 := ⟨_, rfl⟩
  obtain ⟨q, hq⟩ := hex
  rw [← hq] at hr
  have hr' := hr.quantum (fun m hm => hA m (.inr hm.1) (hm.2.trans hs)) rfl (by
    show 4000000000 % 2 ^ 32 + q < USIZE
    rw [USIZE_eq]
    omega)
  have hd : 4000000000 % 2 ^ 32 + q + 2 ^ 32 * s.timer.stimecmph = 4001000000 := by
    rw [hs]
    omega
  refine ⟨_, ?_, timer_on_time_when hr'⟩
  show _ ∈ (4000000000, 4000000000 % 2 ^ 32 + q + 2 ^ 32 * s.timer.stimecmph) :: s.timer.deadlines
  rw [hd]
  exact List.mem_cons_self ..

/-! ## Where it does not -/

/-- At time 2^32 the next deadline is in the past. -/
theorem timer_late : ∃ m : Machine, Machine.Reach Cfg.demo (fun _ => True) m ∧
    (2 ^ 32, 1000000) ∈ m.sys.timer.deadlines ∧ ¬ m.OnTime := by
  obtain ⟨s, f, hs, hr⟩ := Machine.boot_interrupt (A := fun _ => True) (t := 2 ^ 32) (by decide)
    fun _ _ _ => trivial
  rw [deadline_quantum] at hr
  have hex : ∃ q, q = 1000000 := ⟨_, rfl⟩
  obtain ⟨q, hq⟩ := hex
  rw [← hq] at hr ⊢
  have hr' := hr.quantum (fun _ _ => trivial) rfl (by
    show 2 ^ 32 % 2 ^ 32 + q < USIZE
    rw [USIZE_eq]
    omega)
  have hd : 2 ^ 32 % 2 ^ 32 + q + 2 ^ 32 * s.timer.stimecmph = q := by
    rw [hs]
    omega
  have hmem : (2 ^ 32, q) ∈ (2 ^ 32, 2 ^ 32 % 2 ^ 32 + q + 2 ^ 32 * s.timer.stimecmph) ::
      s.timer.deadlines := by
    rw [hd]
    exact List.mem_cons_self ..
  refine ⟨_, hr', hmem, fun ho => ?_⟩
  have := ho.deadlines _ hmem
  dsimp only at this
  omega

/-- Just before, the handler panics. -/
theorem timer_overflow : ∃ m : Machine, Machine.Reach Cfg.demo (fun _ => True) m ∧
    m.time = 2 ^ 32 - 1 ∧ ∃ k, m.code = .op (.panic "deadline: attempt to add with overflow") k := by
  obtain ⟨s, f, hs, hr⟩ := Machine.boot_interrupt (A := fun _ => True) (t := 2 ^ 32 - 1) (by decide)
    fun _ _ _ => trivial
  rw [deadline_quantum] at hr
  have hex : ∃ q, q = 1000000 := ⟨_, rfl⟩
  obtain ⟨q, hq⟩ := hex
  rw [← hq] at hr
  have h₁ := hr.step trivial (.op (n := 0) (o := .time) (k := _) rfl rfl)
  refine ⟨_, h₁, rfl, ?_⟩
  have hlt : ¬ (2 ^ 32 - 1) % 2 ^ 32 + q < USIZE := by
    rw [USIZE_eq]
    omega
  have hadd : add "deadline" ((2 ^ 32 - 1) % 2 ^ 32) q =
      K.panic "deadline: attempt to add with overflow" := if_neg hlt
  obtain ⟨k, hk⟩ : ∃ k : Empty → K Label,
      (add "deadline" ((2 ^ 32 - 1) % 2 ^ 32) q >>= fun _ => (pure () : K Unit) >>= fun _ =>
        add "deadline" ((2 ^ 32 - 1) % 2 ^ 32) q >>= stimecmp) >>= f =
      .op (.panic "deadline: attempt to add with overflow") k := by
    rw [hadd]
    exact ⟨_, rfl⟩
  exact ⟨k, hk⟩

end BareMetal
