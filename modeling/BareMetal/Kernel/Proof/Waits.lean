import BareMetal.Kernel.Proof.Switch

/-!
# A process that waits

A process in user mode can wait for a child (`Machine.Later.wait`). It sleeps if it has no child to
reap (`Machine.Later.asleep`), and goes on where it was when it is woken (`Machine.Later.awake`);
then it reaps the first child that has exited (`Machine.Later.reaps`).
-/

namespace BareMetal

open Lib K

/-- What is left of a round of `kwait` when the sleeper has the hart again. -/
def awake (i addr : Nat) : K Label := do
  setPrev true
  setProc i fun p => { p with sleep_channel := none }
  release (.proc i)
  return .kwait i addr

/-- The process of slot `i` has a child and can reap none. -/
structure Data.Sleeps (d : Data) (i : Nat) : Prop where
  lt : i < d.nproc
  first : ∀ j < i, (d.process_table j).pid ≠ (d.process_table i).pid
  child : ∃ j < d.nproc, (d.process_table j).parent = (d.process_table i).pid
  alive : ∀ j < d.nproc, (d.process_table j).parent = (d.process_table i).pid →
    (d.process_table j).state ≠ .Zombie

namespace K

variable {c : Cfg} {s : Sys} {i : Nat} {b : Bool} {H : Finset LockId} {P : MemOp → Phys → Prop}

/-- The scan passes `n` slots without a child to reap. -/
theorem always_kwaitScan {pid : Option Nat} {n' : Nat} {Q : Bool × Option Nat × Nat → Sys → Prop}
    (hl : ∀ j, LockId.proc j ∉ H) (n : Nat) : ∀ {k : Nat} {r : Bool} {s : Sys},
      s.locks.Holds b H →
      (∀ j, k ≤ j → j < k + n → (s.data.process_table j).parent = pid →
        (s.data.process_table j).state ≠ .Zombie) →
      (∀ r' s', (r' = true ↔ r = true ∨
          ∃ j, k ≤ j ∧ j < k + n ∧ (s.data.process_table j).parent = pid) →
        s'.phys = s.phys → s'.data = s.data → s'.locks.Holds b H →
        Always c P (kwaitScan i pid n' (k + n) r') Q s') →
      Always c P (kwaitScan i pid (n' + n) k r) Q s := by
  induction n with
  | zero =>
    intro k r s hb _ h
    refine h r s ⟨.inl, ?_⟩ rfl rfl hb
    rintro (hr | ⟨j, hj, hj', -⟩)
    · exact hr
    · omega
  | succ n ih =>
    intro k r s hb hz h
    have hk : k + 1 + n = k + (n + 1) := by omega
    show Always c P (kwaitScan i pid (n' + n + 1) k r) Q s
    unfold kwaitScan
    refine always_bind (always_proc ?_)
    have hgo : ∀ r₁ s₁, (r₁ = true ↔ r = true ∨ (s.data.process_table k).parent = pid) →
        s₁.phys = s.phys → s₁.data = s.data → s₁.locks.Holds b H →
        Always c P (kwaitScan i pid (n' + n) (k + 1) r₁) Q s₁ := by
      intro r₁ s₁ hr₁ p1 d1 hb₁
      refine ih hb₁ (fun j h1 h2 => ?_) fun r' s' hr p' d' hb' => ?_
      · rw [d1]
        exact hz j (by omega) (by omega)
      · rw [hk]
        refine h r' s' ?_ (p'.trans p1) (d'.trans d1) hb'
        rw [hr, hr₁, d1, or_assoc]
        refine or_congr_right ⟨?_, ?_⟩
        · rintro (hp | ⟨j, h1, h2, hp⟩)
          · exact ⟨k, Nat.le_refl k, by omega, hp⟩
          · exact ⟨j, by omega, by omega, hp⟩
        · rintro ⟨j, h1, h2, hp⟩
          rcases Nat.eq_or_lt_of_le h1 with rfl | h1
          · exact .inl hp
          · exact .inr ⟨j, h1, by omega, hp⟩
    by_cases hp : (s.data.process_table k).parent = pid
    · rw [if_pos hp]
      refine always_bind (always_take hb (hl k) fun s₁ p1 d1 hb₁ => always_bind (always_proc ?_))
      rw [d1, if_neg (hz k (Nat.le_refl k) (by omega) hp)]
      refine always_bind (always_give hb₁ (Finset.mem_insert_self _ _) fun s₂ p2 d2 hb₂ => ?_)
      rw [Finset.erase_insert (hl k)] at hb₂
      exact hgo true s₂ ⟨fun _ => .inr hp, fun _ => rfl⟩ (p2.trans p1) (d2.trans d1) hb₂
    · rw [if_neg hp]
      exact hgo r s ⟨.inl, fun hr => hr.resolve_right hp⟩ rfl rfl hb

theorem always_findPid {pid : Option Nat} {Q : Option Nat → Sys → Prop} (n : Nat) : ∀ {k : Nat},
    k ≤ i → i < k + n → (s.data.process_table i).pid = pid →
    (∀ j, k ≤ j → j < i → (s.data.process_table j).pid ≠ pid) → Q (some i) s →
    Always c P (findPid pid n k) Q s := by
  induction n with
  | zero =>
    intro k h1 h2
    omega
  | succ n ih =>
    intro k h1 h2 hp hno h
    unfold findPid
    refine always_bind (always_proc ?_)
    by_cases hk : k = i
    · subst hk
      rw [if_pos hp]
      exact h
    · rw [if_neg (hno k (Nat.le_refl k) (by omega))]
      exact ih (by omega) (by omega) hp (fun j h3 h4 => hno j (by omega) h4) h

/-- The process goes to sleep, and keeps its slot locked. -/
theorem always_kwaitLocked (hb : s.locks.Holds b {.kernel}) (hs : s.data.Sleeps i)
    {Q : Bool × Option Nat × Nat → Sys → Prop}
    (h : ∀ s', s'.phys = s.phys → s'.data = s.data.asleep i (s.data.process_table i).pid →
      s'.locks.Holds b {.proc i, .kernel} → Q (true, none, 0) s') :
    Always c P (kwaitLocked i (s.data.process_table i).pid) Q s := by
  obtain ⟨hi, hfirst, ⟨j, hj, hchild⟩, halive⟩ := hs
  unfold kwaitLocked
  refine always_bind (always_get (always_bind ?_))
  have hscan : Always c P
      (kwaitScan i (s.data.process_table i).pid (0 + s.data.nproc) 0 false)
      (fun r s' => r = (true, none, 0) ∧ s'.phys = s.phys ∧ s'.data = s.data ∧
        s'.locks.Holds b {.kernel}) s :=
    always_kwaitScan (by simp) s.data.nproc hb (fun j _ hj => halive j (by omega))
      fun r' s' hr p' d' hb' => by
        obtain rfl : r' = true := hr.2 (.inr ⟨j, Nat.zero_le j, by omega, hchild⟩)
        exact ⟨rfl, p', d', hb'⟩
  rw [Nat.zero_add] at hscan
  refine hscan.mono fun r s₁ hq => ?_
  obtain ⟨rfl, p1, d1, hb₁⟩ := hq
  dsimp only
  rw [if_pos ⟨rfl, rfl⟩]
  refine always_bind (always_get (always_bind (always_findPid (i := i) _ (Nat.zero_le i)
    (by rw [d1]; omega) (by rw [d1]) (fun j _ hj => by rw [d1]; exact hfirst j hj) ?_)))
  refine always_bind (always_take hb₁ (by simp) fun s₂ p2 d2 hb₂ => always_bind (always_setProc
    (always_bind (always_setProc ?_))))
  exact h _ (p2.trans p1) (by rw [d2, d1]; rfl) hb₂

/-- A round of `kwait` that finds nothing to reap comes to the switch. -/
theorem comes_asleep {D : K Label → Sys → Prop} {addr : Nat} (hb : s.locks.Holds true ∅)
    (hs : s.data.Sleeps i) (hcur : s.data.current = some i)
    (h : ∀ s', s'.phys = s.phys → s'.data = s.data.asleep i (s.data.process_table i).pid →
      s'.locks.Holds true {.proc i} → D (.op (.toSched i) fun _ => awake i addr) s') :
    Comes c D (kwaitLoop c i addr) s := by
  unfold kwaitLoop kwaitRound
  refine comes_within (always_proc (comes_within (always_take hb (Finset.notMem_empty _)
    fun s₁ p1 d1 hb₁ => comes_within ?_)))
  have hlocked := always_kwaitLocked (c := c) (P := fun _ _ => True) (s := s₁) (i := i) hb₁
    (by rwa [d1]) (Q := fun r s' => r = (true, none, 0) ∧ s'.phys = s₁.phys ∧
      s'.data = s₁.data.asleep i (s₁.data.process_table i).pid ∧
      s'.locks.Holds true {.proc i, .kernel}) fun s' p' d' hb' => ⟨rfl, p', d', hb'⟩
  rw [d1] at hlocked
  refine hlocked.mono fun r s₂ hq => ?_
  obtain ⟨rfl, p2, d2, hb₂⟩ := hq
  refine comes_within (always_give hb₂ (by simp) fun s₃ p3 d3 hb₃ => ?_)
  rw [Finset.pair_comm, Finset.erase_insert (by simp)] at hb₃
  dsimp only
  rw [if_pos rfl, Free.bind_assoc]
  have hd₃ := d3.trans d2
  have hnot : ((s₃.data).process_table i).state ≠ .Running := by
    rw [hd₃]
    unfold Data.asleep
    rw [Data.updProc_self]
    simp
  exact comes_sched hb₃ (by rw [hd₃]; exact hcur) hnot (h _ (p3.trans (p2.trans p1)) hd₃ hb₃)

end K

/-! ## A child that has exited -/

/-- Slot `i` has reaped the zombie in slot `z`, with the pid `p` and the status `x`. -/
def Data.reaped (d : Data) (i z p x : Nat) (u : Uvm) (tf : Nat) : Data :=
  (({ d with log := .reap i z p x :: d.log } : Data).updProc i fun q =>
    { q with reaped := some (p, x) }).updProc z fun q => q.freed u tf

/-- The frames of slot `i`. -/
theorem Owned.slotView {c : Cfg} {own : Party → Finset Nat} {s : Phys} {i : Nat}
    (h : Owned c own s.free) :
    View.Of c (own (.slot i) ∪ s.free.toFinset) s.mem ⟨own (.slot i), s.mem⟩ s := by
  refine ⟨rfl, fun _ _ => rfl, h.nodup, fun f hf => h.not_free _ _ hf, fun f => ?_, fun f hf => ?_⟩
  · rw [Finset.mem_union, List.mem_toFinset]
  · rcases Finset.mem_union.1 hf with hf | hf
    · exact h.frame _ _ hf
    · exact h.free_frame f (List.mem_toFinset.1 hf)

section
variable {c : Cfg} {s : Sys} {i z : Nat} {b : Bool} {v : View} {total : Finset Nat} {m₀ : Bytes}

/-- **`Process::free`** ends when two frames are free. -/
theorem always_free {tab : Nat → Option Nat} (hc : c.Eager) (hof : v.Of c total m₀ s.phys)
    (hh : LockId.heap ∉ s.locks.held) (htf : (s.data.process_table z).trapframe ∈ v.own)
    (hs : Space c { v with own := v.own.erase (s.data.process_table z).trapframe }
      (s.data.process_table z).pagetable tab)
    (hend : USER_START + (s.data.process_table z).pagetable.size < USIZE)
    (hfree : 2 ≤ s.phys.free.length) :
    K.Always c (fun _ _ => True) (Process.free z) (fun _ s' =>
      (∃ u tf, s'.data = s.data.updProc z fun p => p.freed u tf) ∧ SameLocks s s') s := by
  have hne : s.phys.free ≠ [] := by
    intro h0
    rw [h0] at hfree
    simp at hfree
  unfold Process.free
  refine always_bind (always_setProc (always_bind (always_setProc (always_bind (always_setProc ?_)))))
  simp only [Data.updProc_updProc]
  refine always_part (E := tight c total.card False) (R := fun u v' => ∃ f, f ∉ v.own ∧
      v'.own = insert f v.own ∧ ∀ a, pageOf a ≠ f → v'.mem a = v.mem a)
    (s := { s with data := s.data.updProc z fun p =>
      { p with pid := none, state := .Unused, parent := none } })
    rfl id (tight_oom hc total False) hof hh (wp_uvmNew (fun ho => hof.not_oom hne ho)
      fun v' f hf ho hm _ => ⟨f, hf, ho, hm⟩) fun u v₁ s₁ hof₁ hr d1 l1 => ?_
  obtain ⟨f, hf, ho₁, hm₁⟩ := hr
  have hpz : s₁.data.process_table z =
      { s.data.process_table z with pid := none, state := .Unused, parent := none } := by
    rw [d1, Data.updProc_self]
  have hold : ∀ g ∈ v.own.erase (s.data.process_table z).trapframe, g ∈ v₁.own := fun g hg => by
    rw [ho₁]
    exact Finset.mem_insert_of_mem (Finset.mem_of_mem_erase hg)
  have hs₁ : Space c { v₁ with own := v.own.erase (s.data.process_table z).trapframe }
      (s₁.data.process_table z).pagetable tab := by
    rw [hpz]
    refine hs.congr (fun _ hg => hg) fun a ha => hm₁ a fun he => hf ?_
    rw [← he]
    exact Finset.mem_of_mem_erase (hs.tree.has_own ha)
  refine always_newPagetable hc hof₁ (by rw [l1.held]; exact hh) hold hs₁ (by rw [hpz]; exact hend)
    fun v₂ s₂ hof₂ hkeep hsub d2 l2 => ?_
  have hpz₂ : (s₂.data.process_table z).trapframe = (s.data.process_table z).trapframe := by
    rw [d2, Data.updProc_self, hpz]
  refine always_bind (always_setProc (always_bind (always_setProc (always_bind (always_setProc ?_)))))
  simp only [Data.updProc_updProc]
  have hfree₂ : s₂.phys.free ≠ [] := by
    intro h0
    have hcard := hof.card
    have hcard₂ := hof₂.card
    have hle := Finset.card_le_card hsub
    rw [ho₁, Finset.card_insert_of_notMem hf] at hle
    rw [h0, List.length_nil] at hcard₂
    omega
  rw [← Free.bind_ret (replaceTrapframe z Trapframe.newIn)]
  refine always_replaceTrapframe (v := v₂) (s := { s₂ with data := s₂.data.updProc z fun p =>
      { p with context := .zero, xstatus := 0, sleep_channel := none } })
    hc hof₂ (by rw [l2.held, l1.held]; exact hh) ?_ (wp_newIn_boxed fun ho => hof₂.not_oom hfree₂ ho)
    fun v₃ tf s₃ hb l3 => ⟨⟨u, tf, ?_⟩, ?_⟩
  · rw [Data.updProc_self]
    dsimp only
    rw [hpz₂]
    refine hkeep _ ?_ (Finset.notMem_erase _ _)
    rw [ho₁]
    exact Finset.mem_insert_of_mem htf
  · rw [hb.data]
    dsimp only
    rw [d2, d1]
    simp only [Data.updProc_updProc]
    rfl
  · have h₁ : SameLocks s s₁ := l1.congr rfl rfl
    have h₃ : SameLocks s₂ s₃ := l3.congr rfl rfl
    exact h₁.trans (l2.trans h₃)

/-- Slot `i` can reap the child in slot `z`, with the pid `p`. -/
structure Data.Reapable (d : Data) (i z p : Nat) : Prop where
  lt : z < d.nproc
  ne : z ≠ i
  zombie : (d.process_table z).state = .Zombie
  parent : (d.process_table z).parent = (d.process_table i).pid
  pid : (d.process_table z).pid = some p
  /-- It is the first one. -/
  first : ∀ j < z, (d.process_table j).parent = (d.process_table i).pid →
    (d.process_table j).state ≠ .Zombie

/-- The zombie is reaped. -/
theorem always_reap {own : Party → Finset Nat} {p n : Nat} {r : Bool} (hc : c.Eager)
    (ho : Owned c own s.phys.free) (hm : MemInv c own s.phys.mem s.data)
    (hz : s.data.Reapable i z p) (hb : s.locks.Holds b {.kernel})
    (hend : USER_START + (s.data.process_table z).pagetable.size < USIZE)
    (hfree : 2 ≤ s.phys.free.length) :
    K.Always c (fun _ _ => True) (kwaitScan i (s.data.process_table i).pid (n + 1) z r)
      (fun q s' => q = (true, some p, (s.data.process_table z).xstatus) ∧ (∃ u tf,
        s'.data = s.data.reaped i z p (s.data.process_table z).xstatus u tf) ∧
        s'.locks.Holds b {.kernel}) s := by
  have hslot : SlotMem c (own (.slot z)) s.phys.mem (s.data.process_table z) (s.data.Live z) :=
    hm.slot z hz.lt
  have hdead : ¬ s.data.Live z := fun hl => by
    have := hl.2
    rw [hz.zombie] at this
    simp at this
  obtain ⟨tab, hs, -⟩ := hslot.space (hslot.whole_of hdead)
  unfold kwaitScan
  refine always_bind (always_proc ?_)
  rw [if_pos hz.parent]
  refine always_bind (always_take hb (by simp) fun s₁ p1 d1 hb₁ => always_bind (always_proc ?_))
  rw [d1, if_pos hz.zombie]
  refine always_bind (always_proc (always_bind (always_proc (always_bind (always_note trivial
    (always_bind (always_setProc (always_bind ?_))))))))
  dsimp only
  rw [d1, hz.pid, Option.getD_some]
  obtain ⟨d₂, hd₂⟩ : ∃ d₂, d₂ = ({ s.data with
    log := .reap i z p (s.data.process_table z).xstatus :: s.data.log } : Data).updProc i
      fun q => { q with reaped := some (p, (s.data.process_table z).xstatus) } := ⟨_, rfl⟩
  rw [← hd₂]
  have hpz : d₂.process_table z = s.data.process_table z := by
    rw [hd₂, Data.updProc_ne _ _ hz.ne]
  have hheap : LockId.heap ∉ s₁.locks.held := by
    rw [hb₁.held]
    simp
  have hs₂ : Space c ⟨(own (.slot z)).erase (d₂.process_table z).trapframe, s.phys.mem⟩
      (d₂.process_table z).pagetable tab := by
    rw [hpz]
    exact hs
  have hfreed := always_free (c := c) (s := { s₁ with data := d₂ }) (z := z)
    (v := ⟨own (.slot z), s.phys.mem⟩) hc (by rw [← p1] at ho ⊢; exact ho.slotView) hheap
    (by rw [hpz]; exact hslot.trapframe) hs₂ (by rw [hpz]; exact hend) (by rw [p1]; exact hfree)
  refine hfreed.mono fun _ s₂ hq => ?_
  obtain ⟨⟨u, tf, d2⟩, l2⟩ := hq
  refine always_bind (always_give (l2.holds hb₁) (Finset.mem_insert_self _ _) fun s₃ p3 d3 hb₃ => ?_)
  rw [Finset.erase_insert (by simp)] at hb₃
  refine ⟨rfl, ⟨u, tf, ?_⟩, hb₃⟩
  rw [d3, d2, hd₂]
  rfl

/-- A round of `kwait` that finds a zombie comes to its end. -/
theorem comes_reaps {D : K Label → Sys → Prop} {own : Party → Finset Nat} {p : Nat} (hc : c.Eager)
    (ho : Owned c own s.phys.free) (hm : MemInv c own s.phys.mem s.data)
    (hz : s.data.Reapable i z p) (hb : s.locks.Holds true ∅)
    (hend : USER_START + (s.data.process_table z).pagetable.size < USIZE)
    (hfree : 2 ≤ s.phys.free.length)
    (h : ∀ k s' u tf, s'.data = s.data.reaped i z p (s.data.process_table z).xstatus u tf →
      s'.locks.Holds true ∅ →
      D (.op (.note (.waited i 0 p (s.data.process_table z).xstatus)) k) s') :
    Comes c D (kwaitLoop c i 0) s := by
  obtain ⟨n, hn⟩ : ∃ n, s.data.nproc = n + 1 + z := ⟨s.data.nproc - 1 - z, by have := hz.lt; omega⟩
  unfold kwaitLoop kwaitRound
  refine comes_within (always_proc (comes_within (always_take hb (Finset.notMem_empty _)
    fun s₁ p1 d1 hb₁ => ?_)))
  have hscan : K.Always c (fun _ _ => True)
      (kwaitScan i (s.data.process_table i).pid s.data.nproc 0 false)
      (fun q s' => q = (true, some p, (s.data.process_table z).xstatus) ∧ (∃ u tf,
        s'.data = s.data.reaped i z p (s.data.process_table z).xstatus u tf) ∧
        s'.locks.Holds true {.kernel}) s₁ := by
    rw [hn]
    refine always_kwaitScan (by simp) z hb₁ (fun j _ hj => ?_) fun r s₂ _ p2 d2 hb₂ => ?_
    · rw [d1]
      exact hz.first j (by omega)
    · have hd := d2.trans d1
      have hp := p2.trans p1
      rw [Nat.zero_add, ← hd]
      exact always_reap (s := s₂) hc (by rwa [hp]) (by rwa [hp, hd]) (by rwa [hd]) hb₂
        (by rwa [hd]) (by rwa [hp])
  have hlocked : K.Always c (fun _ _ => True) (kwaitLocked i (s.data.process_table i).pid)
      (fun q s' => q = (true, some p, (s.data.process_table z).xstatus) ∧ (∃ u tf,
        s'.data = s.data.reaped i z p (s.data.process_table z).xstatus u tf) ∧
        s'.locks.Holds true {.kernel}) s₁ := by
    unfold kwaitLocked
    refine always_bind (always_get (always_bind ?_))
    rw [d1]
    refine hscan.mono fun q s₂ hq => ?_
    obtain ⟨rfl, hq⟩ := hq
    dsimp only
    rw [if_neg (by simp), if_neg (by simp)]
    exact ⟨rfl, hq⟩
  refine comes_within (hlocked.mono fun q s₂ hq => ?_)
  obtain ⟨rfl, ⟨u, tf, d2⟩, hb₂⟩ := hq
  refine comes_within (always_give hb₂ (Finset.mem_singleton_self _) fun s₃ p3 d3 hb₃ => ?_)
  rw [Finset.erase_singleton] at hb₃
  exact comes_here (h _ s₃ u tf (d3.trans d2) hb₃)

end

/-! ## Runs -/

namespace Machine

variable {c : Cfg} {m : Machine} {i : Nat}

/-- **A process in user mode can wait.** -/
theorem Later.wait (hr : Reach c StatusFits m) (hcode : m.code = .ret .user)
    (hcur : m.sys.data.current = some i) :
    ∃ s, ({ m.sys.data with log := .wait i 0 :: m.sys.data.log } : Data).SameTable s.data ∧
      s.phys.free = m.sys.phys.free ∧ s.locks.Holds true ∅ ∧
      Later c StatusFits m { m with sys := s, code := kwaitLoop c i 0 } := by
  obtain ⟨s₁, regs, h₁, hframe, ha7, ha0, hl₁⟩ :=
    Later.call (n := SYS_WAIT) (x := 0) hr hcode hcur (by decide) (by decide)
  have hcomes : Comes c (fun p s => p = .ret (.kwait i 0) ∧
      s = { s₁ with data := { s₁.data with log := .wait i 0 :: s₁.data.log } }) (syscall c i) s₁ := by
    unfold syscall
    refine comes_bind (always_trapframeField hframe rfl (by decide) ?_)
    rw [ha7, if_neg (by decide), if_neg (by decide), if_neg (by decide), if_pos rfl]
    refine comes_bind (always_trapframeField hframe rfl (by decide) ?_)
    rw [ha0]
    exact comes_bind (always_note (.inl rfl) (comes_here ⟨rfl, rfl⟩))
  obtain ⟨p, s₂, ⟨rfl, rfl⟩, hl₂⟩ := Later.comes (m := { m with
    sys := s₁, code := syscall c i }) rfl hcomes
  refine ⟨{ s₁ with data := { s₁.data with log := .wait i 0 :: s₁.data.log } },
    ⟨h₁.process_table, h₁.nproc, h₁.pid, h₁.current, ?_⟩, h₁.free, h₁.holds,
    (hl₁.trans hl₂).tail ⟨.of_label rfl, .label rfl rfl⟩⟩
  exact congrArg (List.cons (.wait i 0)) h₁.log

/-- Without a child to reap it sleeps, and the scheduler begins its next pass. -/
theorem Later.asleep {addr : Nat} (hc : m.code = kwaitLoop c i addr)
    (hsched : m.sched = afterTurn i) (hb : m.sys.locks.Holds true ∅) (hs : m.sys.data.Sleeps i)
    (hcur : m.sys.data.current = some i) :
    ∃ s, s.phys = m.sys.phys ∧
      s.data = (m.sys.data.asleep i (m.sys.data.process_table i).pid).parked i ∧
      s.locks.Holds false ∅ ∧ Later c StatusFits m { m with
        sys := s, code := schedulerPass, saved := Function.update m.saved i (awake i addr) } := by
  obtain ⟨q, s₁, ⟨rfl, hp₁, hd₁, hb₁⟩, hl₁⟩ := Later.comes hc (comes_asleep (c := c)
    (D := fun q s => q = .op (.toSched i) (fun _ => awake i addr) ∧ s.phys = m.sys.phys ∧
      s.data = m.sys.data.asleep i (m.sys.data.process_table i).pid ∧ s.locks.Holds true {.proc i})
    hb hs hcur fun s' hp hd hb => ⟨rfl, hp, hd, hb⟩)
  obtain ⟨s₂, hp₂, hd₂, hb₂, hl₂⟩ := Later.toPass (m := { m with
    sys := s₁, code := .op (.toSched i) fun _ => awake i addr }) rfl hsched hb₁
  exact ⟨s₂, hp₂.trans hp₁, by rw [hd₂]; exact congrArg (Data.parked · i) hd₁, hb₂, hl₁.trans hl₂⟩

/-- **Who was woken** goes on where it was, and is about to leave its critical section. -/
theorem Later.awake {addr : Nat} (hr : Reach c StatusFits m)
    (hc : m.code = .op (.toProc i) fun _ => afterTurn i)
    (hctx : (m.sys.data.process_table i).context = .sched)
    (hsaved : m.saved i = BareMetal.awake i addr) :
    ∃ s, s.phys = m.sys.phys ∧
      s.data = m.sys.data.updProc i (fun p => { p with sleep_channel := none }) ∧
      s.data.current = some i ∧ s.locks.Holds true {.proc i} ∧
      Later c StatusFits m { m with
        sys := s
        code := .op (.release (.proc i)) fun _ => .ret (.kwait i addr)
        sched := afterTurn i } := by
  obtain ⟨h, hr'⟩ := hr.run
  obtain ⟨-, me, own, ho⟩ := hr'.next hc
  obtain ⟨-, hh, -⟩ := ho
  have hcur : m.sys.data.current = some i := hh.current
  have hresume : m.resume c i = BareMetal.awake i addr := by
    unfold resume
    rw [hctx, hsaved]
  have h₁ : Step c m { m with code := BareMetal.awake i addr, sched := afterTurn i } := by
    rw [← hresume]
    exact .toProc hc
  have hcomes : Comes c (fun q s => q = .op (.release (.proc i)) (fun _ => .ret (.kwait i addr)) ∧
      s = { m.sys with
        locks := { m.sys.locks with interrupt_prev_state := true }
        data := m.sys.data.updProc i fun p => { p with sleep_channel := none } })
      (BareMetal.awake i addr) m.sys := by
    refine comes_bind ⟨trivial, fun _ _ => ⟨(), _, rfl, comes_bind (always_setProc
      (comes_here ⟨rfl, rfl⟩))⟩⟩
  obtain ⟨q, s, ⟨rfl, hs⟩, hl⟩ := Later.comes (c := c) (m := { m with
    code := BareMetal.awake i addr, sched := afterTurn i }) rfl hcomes
  have hb : s.locks.Holds true {.proc i} := by
    rw [hs]
    refine ⟨hh.held, hh.stack, ?_, fun _ => rfl⟩
    rw [if_neg (Finset.singleton_ne_empty _)]
    exact hh.sie
  exact ⟨s, by rw [hs], by rw [hs], by rw [hs]; exact hcur, hb,
    .head ⟨.of_op hc fun _ _ h => (by cases h), h₁⟩ hl⟩

/-- **It reaps the first child that has exited.** -/
theorem Later.reaps {p z : Nat} (hc : c.Eager) (hr : Reach c StatusFits m)
    (hcode : m.code = kwaitLoop c i 0) (hcur : m.sys.data.current = some i)
    (hb : m.sys.locks.Holds true ∅) (hz : m.sys.data.Reapable i z p)
    (hend : USER_START + (m.sys.data.process_table z).pagetable.size < USIZE)
    (hfree : 2 ≤ m.sys.phys.free.length) :
    ∃ k s u tf, s.data = m.sys.data.reaped i z p (m.sys.data.process_table z).xstatus u tf ∧
      s.locks.sie = true ∧ Later c StatusFits m { m with
        sys := s, code := .op (.note (.waited i 0 p (m.sys.data.process_table z).xstatus)) k } := by
  obtain ⟨own, g, how, hi⟩ := hr.settled hb.sie hcur
  have hm : MemInv c own m.sys.phys.mem m.sys.data := hi.mem hr.linked
  obtain ⟨q, s, ⟨k, rfl, u, tf, hd, hb'⟩, hl⟩ := Later.comes hcode (comes_reaps (c := c)
    (D := fun q s => ∃ k,
      q = .op (.note (.waited i 0 p (m.sys.data.process_table z).xstatus)) k ∧ ∃ u tf,
        s.data = m.sys.data.reaped i z p (m.sys.data.process_table z).xstatus u tf ∧
          s.locks.Holds true ∅) hc how hm hz hb hend hfree
    fun k s' u tf hd hb => ⟨k, rfl, u, tf, hd, hb⟩)
  exact ⟨k, s, u, tf, hd, hb'.sie, hl⟩

end Machine

end BareMetal
