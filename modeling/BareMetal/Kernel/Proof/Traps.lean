import BareMetal.Kernel.Proof.Call
import BareMetal.Kernel.Proof.Exit
import BareMetal.Kernel.Proof.Sound

/-!
# Traps

The trap handlers and the way back to user mode. `Off E i q d` is the state of process `i` in the
kernel with interrupts off and no lock held, whatever `stvec` holds: between the trap and the point
where the handler turns interrupts on, and in `prepare_return`.
-/

namespace BareMetal

open Lib

variable {E : Env} {me : Option Nat} {b : Bool} {S₀ S : St}

structure Off (E : Env) (i : Nat) (q : Quiet) (d : Data) : Prop where
  current : d.current = some i
  inv : Inv E (some i) (q.on d ∅)
  closed : q.hist.before i = none
  plain : Plain i (q.on d ∅)

/-- Memory and timer apart, `q'` is `q`. -/
structure Quiet.Ticks (E : Env) (q q' : Quiet) : Prop where
  hist : q'.hist = q.hist
  mem : E.track → q'.phys = q.phys ∧ q'.own = q.own

theorem Inv.ticks {run : Option Nat} {q q' : Quiet} {d : Data} (h : Inv E run (q.on d ∅))
    (hn : q.Ticks E q') : Inv E run (q'.on d ∅) := by
  have hi : Inv E run ({ q with timer := q'.timer }.on d ∅) :=
    h.of_eq rfl rfl rfl rfl rfl rfl rfl rfl fun _ _ _ h => h
  refine hi.idles ⟨rfl, rfl, rfl, rfl, rfl, rfl, fun he => (he rfl).elim, fun j => .inl ?_, ?_, hn.mem⟩
  · exact congrFun (congrArg History.before hn.hist) j
  · exact congrArg History.dispatched hn.hist

theorem Untouched.ticks {i : Nat} {q q' : Quiet} (d : Data) (hn : q.Ticks E q') :
    Untouched E i (q.on d ∅) (q'.on d ∅) := by
  have hm : ∀ p, E.track → SamePart (q.on d ∅) (q'.on d ∅) p := fun p ht => by
    obtain ⟨h1, h2⟩ := hn.mem ht
    unfold SamePart St.mem Quiet.on
    rw [h1, h2]
    exact .refl ..
  exact ⟨rfl, .refl _, rfl, hm _, hm _⟩

theorem St.trap_hist {scause sepc : Nat} {spp : Bool} : (S.trap scause sepc spp).hist = S.hist :=
  S.hist.next_same rfl fun _ => rfl

namespace Off

variable {i : Nat} {q q' : Quiet} {d d' : Data}

theorem uses (h : Off E i q d) : Quiet.Uses (some i) q.hist d ∅ :=
  ⟨Finset.notMem_empty _, fun _ => h.current, fun _ j hj => by cases hj; exact h.closed⟩

theorem ticks (h : Off E i q d) (hn : q.Ticks E q') : Off E i q' d :=
  ⟨h.current, h.inv.ticks hn, by rw [hn.hist]; exact h.closed, h.plain.1, h.plain.2⟩

theorem data (h : Off E i q d) (ht : d'.process_table = d.process_table) (hn : d'.nproc = d.nproc)
    (hp : d'.pid = d.pid) (hl : d'.log = d.log) (hk : d'.kvm = d.kvm) (hc : d'.current = d.current) :
    Off E i q d' := by
  refine ⟨hc.trans h.current, h.inv.of_eq ht hn hp hl hk rfl rfl rfl fun _ _ _ h => h, h.closed, ?_⟩
  obtain ⟨h1, h2⟩ := h.plain
  refine ⟨?_, ?_⟩
  · show (d'.process_table i).dropping = false
    rw [ht]
    exact h1
  · show (d'.process_table i).reaped = none
    rw [ht]
    exact h2

/-- Memory changes, and its invariant holds again. -/
theorem remember (h : Off E i q d) (hh : q'.hist = q.hist)
    (hm : E.track → MemInv E.cfg q'.own q'.phys.mem d) : Off E i q' d := by
  refine ⟨h.current, ⟨h.inv.table, h.inv.exits, fun j hj => ?_, fun j hj hs => ?_, hm⟩, ?_, h.plain.1,
    h.plain.2⟩
  · show _ = q'.hist.dispatched j
    rw [hh]
    exact h.inv.counted j hj
  · show q'.hist.before j = none
    rw [hh]
    exact h.inv.fresh j hj hs
  · rw [hh]
    exact h.closed

theorem slotMem (h : Off E i q d) (ht : E.track) :
    SlotMem E.cfg (q.own (.slot i)) q.phys.mem (d.process_table i) True := by
  have hl := h.inv.table.run_live
  exact ((h.inv.mem ht).slot i hl.1).grow (fun _ => hl) (fun _ _ => trivial)
    (Finset.Subset.refl _) (fun _ _ => rfl) ⟨rfl, rfl, rfl⟩

/-- Once traps go to the kernel's vector interrupts may be on. -/
theorem calm (h : Off E i q d) (hs : d.csr.stvec = .kernelvec) :
    Calm E (some i) false (q.on d ∅) (q.on d ∅) :=
  .refl rfl rfl (q.locks_inv ∅)
    ⟨rfl, h.current, hs, h.inv, fun j hj => by cases hj; exact h.closed⟩

end Off

/-- With interrupts off a calm state is known. -/
theorem Calm.off {i : Nat} (h : Calm E (some i) false S₀ S) (hp : Plain i S₀) :
    ∃ q, S = q.on S.data ∅ ∧ Off E i q S.data := by
  obtain ⟨q, hq⟩ := h.quiet
  have hi := h.settled.inv
  have hc := h.settled.closed i rfl
  have hpl := hp.kept (h.kept i rfl)
  refine ⟨q, hq.symm, h.settled.current, ?_, ?_, ?_⟩
  · rw [hq]
    exact hi
  · show (q.on S.data ∅).hist.before i = none
    rw [hq]
    exact hc
  · rw [hq]
    exact hpl

theorem Quiet.Near.ticks {q q' : Quiet} {L : Finset LockId} (h : q.Near E L q') : q.Ticks E q' :=
  ⟨h.hist, h.mem⟩

namespace K

variable {q : Quiet} {d : Data} {i : Nat} {α β : Type} {Q : β → St → Prop}

/-! ## The timer -/

theorem wp_time {L : Finset LockId} {f : Nat → K β} (k : ∀ t, (E.timer → TimeOk t q.timer) →
    wp E me (f (t % 2 ^ 32)) Q ({ q with timer := { q.timer with asked := t } }.on d L)) :
    wp E me (time >>= f) Q (q.on d L) := by
  refine wp_quiet fun _ t ht => ?_
  have he : (q.on d L).step { (q.on d L).sys with timer := { q.timer with asked := t } } q.own =
      { q with timer := { q.timer with asked := t } }.on d L :=
    congrArg (St.mk _ q.own) (q.hist.next_same rfl fun _ => rfl)
  exact he ▸ k t ht

/-- The deadline is one quantum from the time that was read. -/
theorem wp_deadline {report : K Unit} {Q : Unit → St → Prop}
    (hrep : ∀ (q' : Quiet) (f : Unit → K Unit), q'.hist = q.hist →
      (∀ q'' : Quiet, q'.Near E ∅ q'' → wp E me (f ()) Q (q''.on d ∅)) →
      wp E me (report >>= f) Q (q'.on d ∅))
    (hu : Quiet.Uses me q.hist d ∅) (k : ∀ q', q.Ticks E q' → Q () (q'.on d ∅)) :
    wp E me (deadline report) Q (q.on d ∅) := by
  unfold deadline
  obtain ⟨n, hn⟩ : ∃ n, n = 1000000 := ⟨_, rfl⟩
  rw [← hn]
  refine wp_time fun t ht => ?_
  generalize hv : t % 2 ^ 32 = v at ht ⊢
  have hadd : ∀ (q' : Quiet) (f : Nat → K Unit), q'.hist = q.hist →
      (v + n < USIZE → wp E me (f (v + n)) Q (q'.on d ∅)) →
      wp E me (add "deadline" v n >>= f) Q (q'.on d ∅) := by
    intro q' f hq hf
    rw [wp_bind]
    unfold add
    split
    · next hlt => exact hf hlt
    · next hge =>
      refine wp_panic (Quiet.Uses.steady (q := q') (by rw [hq]; exact hu)) (q'.like d ∅) fun hforb => ?_
      have htm : E.timer := by
        unfold Forbidden at hforb
        simp at hforb
        exact hforb
      have := (ht htm).1
      rw [USIZE_eq] at hge
      omega
  refine hadd _ _ rfl fun hlt => hrep _ _ rfl fun q₁ hn₁ => hadd _ _ hn₁.hist fun _ => ?_
  refine wp_quiet fun _ => ⟨fun htm => ?_, ?_⟩
  · obtain ⟨hlow, hhigh⟩ := ht htm
    show v + n + 2 ^ 32 * q₁.timer.stimecmph = q₁.timer.asked + 1000000
    rw [hn₁.timer, ← hhigh, hn, ← hv]
    show t % 2 ^ 32 + 1000000 + 2 ^ 32 * (t / 2 ^ 32) = t + 1000000
    omega
  · refine (congrArg (Q ()) ?_).mpr (k { q₁ with timer := { q₁.timer with
      stimecmp := v + n
      deadlines := (q₁.timer.asked, v + n + 2 ^ 32 * q₁.timer.stimecmph) :: q₁.timer.deadlines } }
      ⟨hn₁.hist, hn₁.mem⟩)
    exact congrArg (St.mk _ q₁.own) (q₁.hist.next_same rfl fun _ => rfl)

/-! ## Back to user mode -/

/-- With nothing else running the walk of the hart is that of the page table in memory. -/
theorem wp_hartTrapframe {D : Mode} (hs : D.shared = false) (hstop : D.stop) {v : View}
    {satp : Nat} : M.wp D (hartTrapframe satp) (fun a v' => v' = v ∧
      ∃ e, Sv32.walk v.mem (satpRoot satp) TRAPFRAME = some (e, a)) v := by
  have hread : ∀ {a : Nat} {Q : Nat → View → Prop}, Q (v.mem.word a) v → M.wp D (M.read a) Q v :=
    fun hQ => ⟨.inr hstop, fun x _ hx => by rw [hx fun _ _ => .inl hs]; exact hQ⟩
  unfold hartTrapframe
  rw [M.wp_bind]
  have hwalk : M.wp D (hartWalk (satpRoot satp) TRAPFRAME) (fun r v' => v' = v ∧
      r = Sv32.walk v.mem (satpRoot satp) TRAPFRAME) v := by
    unfold hartWalk Sv32.walk
    split
    · rw [M.wp_bind]
      refine hread ?_
      dsimp only
      split
      · exact ⟨rfl, rfl⟩
      · split
        · exact ⟨rfl, rfl⟩
        · rw [M.wp_bind]
          exact hread ⟨rfl, rfl⟩
    · exact ⟨rfl, rfl⟩
  refine M.wp_conseq hwalk fun r v' h => ?_
  obtain ⟨rfl, rfl⟩ := h
  cases hr : Sv32.walk v'.mem (satpRoot satp) TRAPFRAME with
  | none => exact M.wp_panic hstop
  | some x =>
    dsimp only
    split
    · exact ⟨rfl, x.1, rfl⟩
    · exact M.wp_panic hstop

theorem satpRoot_getSatp {c : Cfg} {u : Uvm} (h : c.IsFrame u.pagetable.root) :
    satpRoot u.getSatp.intoUsize = u.pagetable.root := by
  have hb := h.bound
  have hp := h.page
  rw [PAGESIZE_eq] at hp
  have h1 : (1 : Nat) <<< 31 % USIZE ||| 0 <<< 22 % USIZE ||| u.pagetable.root >>> 12 =
      2 ^ 31 + u.pagetable.root / 2 ^ 12 := by
    rw [Nat.shiftRight_eq_div_pow, show (1 : Nat) <<< 31 % USIZE ||| 0 <<< 22 % USIZE = 2 ^ 31 * 1 by rfl]
    rw [← Nat.two_pow_add_eq_or_of_lt (by omega), Nat.mul_one]
  unfold satpRoot Uvm.getSatp SATP.intoUsize
  dsimp only
  rw [h1]
  omega

/-- With nothing else running a word is read as it is in memory. -/
theorem wp_read_alone {D : Mode} (hs : D.shared = false) (hstop : D.stop) {v : View} {a : Nat}
    {Q : Nat → View → Prop} (hQ : Q (v.mem.word a) v) : M.wp D (M.read a) Q v :=
  ⟨.inr hstop, fun x _ hx => by rw [hx fun _ _ => .inl hs]; exact hQ⟩

/-- `m'` is `m` with the registers saved at `tf`. -/
structure Saves (tf : Nat) (regs : Nat → Nat) (rs : List Nat) (m m' : Bytes) : Prop where
  rest : ∀ a, (∀ r ∈ rs, a < tf + r ∨ tf + r + 4 ≤ a) → m' a = m a
  word : ∀ r ∈ rs, regs r < 2 ^ 32 → m'.word (tf + r) = regs r

theorem Saves.cons {tf r : Nat} {regs : Nat → Nat} {rs : List Nat} {m m' : Bytes}
    (h : Saves tf regs rs (m.setWord (tf + r) (regs r)) m') (hlt : ∀ x ∈ rs, r + 4 ≤ x) :
    Saves tf regs (r :: rs) m m' := by
  refine ⟨fun a ha => ?_, fun x hx hw => ?_⟩
  · rw [h.rest a fun x hx => ha x (List.mem_cons_of_mem _ hx)]
    exact Bytes.setWord_ne (ha r (List.mem_cons_self ..))
  · rcases List.mem_cons.1 hx with rfl | hx
    · rw [← Bytes.word_setWord (m := m) (a := tf + x) hw]
      refine Bytes.word_congr fun k hk => h.rest _ fun y hy => .inl ?_
      have := hlt y hy
      omega
    · exact h.word x hx hw

/-- The registers are saved. -/
theorem wp_saveRegs {D : Mode} (hns : ¬ D.strict) {tf : Nat} (hp : tf % PAGESIZE = 0)
    {regs : Nat → Nat} (rs : List Nat) : ∀ {m : Bytes}, (∀ r ∈ rs, r + 4 ≤ PAGESIZE) →
    rs.Pairwise (fun r r' => r + 4 ≤ r') →
    M.wp D (saveRegs tf regs rs) (fun _ v => v.own = {tf} ∧ Saves tf regs rs m v.mem) ⟨{tf}, m⟩ := by
  induction rs with
  | nil =>
    intro m _ _
    exact ⟨rfl, fun a _ => rfl, fun r hr => by cases hr⟩
  | cons r rs ih =>
    intro m hr hd
    obtain ⟨hlt, hd⟩ := List.pairwise_cons.1 hd
    unfold saveRegs
    rw [M.wp_bind]
    refine wp_write_field hns hp (hr r (List.mem_cons_self ..)) ?_
    refine M.wp_conseq (ih (fun x hx => hr x (List.mem_cons_of_mem _ hx)) hd) fun _ v h => ?_
    exact ⟨h.1, h.2.cons hlt⟩

/-- The registers are loaded. -/
theorem wp_loadRegs {D : Mode} (hs : D.shared = false) (hstop : D.stop) {v : View} {tf : Nat}
    (rs : List Nat) : ∀ regs : Nat → Nat, M.wp D (loadRegs tf rs regs) (fun regs' v' => v' = v ∧
      ∀ r, regs' r = if r ∈ rs then v.mem.word (tf + r) else regs r) v := by
  induction rs with
  | nil => exact fun _ => ⟨rfl, fun r => (if_neg (by simp)).symm⟩
  | cons r rs ih =>
    intro regs
    unfold loadRegs
    rw [M.wp_bind]
    refine wp_read_alone hs hstop ?_
    refine M.wp_conseq (ih (Function.update regs r (v.mem.word (tf + r)))) fun regs' v' h => ?_
    obtain ⟨hv, h⟩ := h
    refine ⟨hv, fun x => ?_⟩
    rw [h]
    by_cases hm : x ∈ rs
    · rw [if_pos hm, if_pos (List.mem_cons_of_mem _ hm)]
    · by_cases he : x = r
      · subst he
        rw [if_neg hm, if_pos List.mem_cons_self, Function.update_self]
      · rw [if_neg hm, if_neg (by simp [he, hm]), Function.update_of_ne he]

section
variable (h : Off E i q d)
include h

/-- Memory code that leaves what it finds. -/
theorem wp_look_off {p : M α} {R : α → Prop} (hp : E.track →
      M.wp (E.mode false) p (fun a v => v = ⟨∅, q.phys.mem⟩ ∧ R a) ⟨∅, q.phys.mem⟩) {f : α → K β}
    (k : ∀ a q', Off E i q' d → (E.track → q'.own = q.own ∧ q'.phys.mem = q.phys.mem ∧ R a) →
      wp E (some i) (f a) Q (q'.on d ∅)) :
    wp E (some i) (lift p >>= f) Q (q.on d ∅) := by
  refine wp_lift_quiet h.uses (.slot (.inl rfl)) (fun _ => Lease.one_start) hp
    fun a v q₁ hw hv => ?_
  have hsame : E.track → q₁.own = q.own ∧ q₁.phys.mem = q.phys.mem := fun ht => by
    obtain ⟨ho, -⟩ := Lease.one_has.1 (hw.mem ht).has
    have hv := (hv ht).1
    refine ⟨funext fun y => ?_, ?_⟩
    · by_cases hy : y = .slot i
      · rw [hy, ho, hv, Finset.union_empty]
      · exact ((hw.mem ht).rest y hy).1
    · rw [← (hw.mem ht).whole rfl, hv]
  refine k a q₁ (h.remember hw.hist fun ht => ?_) fun ht =>
    ⟨(hsame ht).1, (hsame ht).2, (hv ht).2⟩
  obtain ⟨h1, h2⟩ := hsame ht
  rw [h1, h2]
  exact h.inv.mem ht

/-- Memory code on the trapframe. -/
theorem wp_box_off {tf : Nat} (hf : E.track → E.cfg.IsFrame tf)
    (htf : E.track → tf = (d.process_table i).trapframe) {p : M α} {R : Bytes → Prop}
    (hp : E.cfg.IsFrame tf → M.wp (E.mode false) p (fun _ v => v.own = {tf} ∧ R v.mem)
      ⟨{tf}, q.phys.mem⟩) {f : α → K β}
    (k : ∀ a q', Off E i q' d → (E.track → q'.own = q.own ∧ R q'.phys.mem) →
      wp E (some i) (f a) Q (q'.on d ∅)) :
    wp E (some i) (lift p >>= f) Q (q.on d ∅) := by
  have hin : E.track → tf ∈ q.own (.slot i) := fun ht => by
    rw [htf ht]
    exact (h.slotMem ht).trapframe
  refine wp_box_at (x := .slot i) (R := fun _ => R) h.uses (fun _ _ => .slot (.inl rfl)) hin
    (fun ht => hp (hf ht)) fun a q₁ hn hw => ?_
  refine k a q₁ (h.remember hn.hist fun ht => ?_) fun ht => ⟨(hw ht).1, (hw ht).2.2⟩
  have hrest : ∀ x, x ≠ .slot i → SameAt q.own q₁.own q.phys.mem q₁.phys.mem x := hn.rest ht
  obtain ⟨ho, hm, -⟩ := hw ht
  rw [ho] at hrest ⊢
  refine (h.inv.mem ht).put (h.slotMem ht).loose hrest ?_
  rw [← htf ht]
  exact hm

/-- A field of the trapframe is written. -/
theorem wp_write_off (how : E.track → Owned E.cfg q.own q.phys.free) {field v : Nat}
    (hfield : field + 4 ≤ Trapframe.SIZE) {f : Unit → K β}
    (k : ∀ q', Off E i q' d → (E.track → q'.own = q.own ∧
      q'.phys.mem = q.phys.mem.setWord ((d.process_table i).trapframe + field) v) →
      wp E (some i) (f ()) Q (q'.on d ∅)) :
    wp E (some i) (lift (M.write ((d.process_table i).trapframe + field) v) >>= f) Q (q.on d ∅) :=
  wp_box_off h (R := fun m => m = q.phys.mem.setWord ((d.process_table i).trapframe + field) v)
    (fun ht => (how ht).frame _ _ (h.slotMem ht).trapframe) (fun _ => rfl)
    (fun hf => wp_write_field id hf.page (Trapframe.in_page hfield) ⟨rfl, rfl⟩)
    fun _ q' h' hw => k q' h' hw

/-- A field of the trapframe is read. -/
theorem wp_read_off {field : Nat} {f : Nat → K β}
    (k : ∀ v q', Off E i q' d → (E.track → q'.own = q.own ∧ q'.phys.mem = q.phys.mem ∧
      v = q.phys.mem.word ((d.process_table i).trapframe + field)) →
      wp E (some i) (f v) Q (q'.on d ∅)) :
    wp E (some i) (lift (M.read ((d.process_table i).trapframe + field)) >>= f) Q (q.on d ∅) :=
  wp_look_off h (R := fun v => v = q.phys.mem.word ((d.process_table i).trapframe + field))
    (fun _ => wp_read_alone rfl trivial ⟨rfl, rfl⟩) k

theorem wp_setCsr_off {g : Csr → Csr} {f : Unit → K β}
    (k : Off E i q (d.updCsr g) → wp E (some i) (f ()) Q (q.on (d.updCsr g) ∅)) :
    wp E (some i) (setCsr g >>= f) Q (q.on d ∅) :=
  wp_setRest rfl rfl rfl (Nat.le_refl _) (fun _ h1 h2 => (h2 h1).elim) (k (h.data rfl rfl rfl rfl rfl rfl))

theorem wp_trapframeRead_off {field : Nat} {f : Nat → K β}
    (k : ∀ v q', Off E i q' d → (E.track → q'.own = q.own ∧ q'.phys.mem = q.phys.mem ∧
      v = q.phys.mem.word ((d.process_table i).trapframe + field)) →
      wp E (some i) (f v) Q (q'.on d ∅)) :
    wp E (some i) (trapframeRead i field >>= f) Q (q.on d ∅) := by
  rw [wp_bind]
  unfold trapframeRead
  exact wp_proc (wp_read_off (f := pure) h k)

theorem wp_trapframeWrite_off {field v : Nat} (hfield : field + 4 ≤ Trapframe.SIZE)
    {f : Unit → K β} (k : ∀ q', Off E i q' d → (E.track → q'.own = q.own ∧
      q'.phys.mem = q.phys.mem.setWord ((d.process_table i).trapframe + field) v) →
      wp E (some i) (f ()) Q (q'.on d ∅)) :
    wp E (some i) (trapframeWrite i field v >>= f) Q (q.on d ∅) := by
  rw [wp_bind]
  unfold trapframeWrite
  exact wp_proc_owned fun how => wp_write_off (f := pure) h how hfield k

theorem wp_add_off {loc : String} {a b : Nat}
    (hf : ¬ Forbidden E (loc ++ ": attempt to add with overflow")) {f : Nat → K β}
    (k : a + b < USIZE → wp E (some i) (f (a + b)) Q (q.on d ∅)) :
    wp E (some i) (add loc a b >>= f) Q (q.on d ∅) :=
  wp_add h.uses.steady (q.like d ∅) hf k

end

theorem wp_sret {f : Bool → K β}
    (hc : Settled E me ((q.on d ∅).step (q.on d ∅).sys.sret q.own))
    (k : wp E me (f (!d.csr.spp)) Q ((q.on d ∅).step (q.on d ∅).sys.sret q.own)) :
    wp E me (sret >>= f) Q (q.on d ∅) := by
  refine wp_quiet fun how => ⟨rfl, .of_eq rfl rfl rfl rfl rfl (fun j _ => ?_) (fun _ => hc) how, k⟩
  exact congrFun (congrArg History.before (q.hist.next_same rfl fun _ => rfl)) j

/-- Process `i` is in its program, with the registers and the pc that its trapframe held in `S`; the
kernel has written its own words there. -/
structure Landed (E : Env) (i : Nat) (S S' : St) : Prop where
  thread : (S.proc i).SameThread (S'.proc i)
  own : E.track → S'.own (.slot i) = S.own (.slot i)
  mem : E.track → ∀ a, pageOf a ∈ S.own (.slot i) →
    ¬ ((S.proc i).trapframe ≤ a ∧ a < (S.proc i).trapframe + 20) → S'.mem a = S.mem a
  regs : E.track → ∀ r ∈ Trapframe.regs,
    S'.data.regs r = S.mem.word ((S.proc i).trapframe + r)
  pc : E.track → S'.data.pc = S.mem.word ((S.proc i).trapframe + Trapframe.epc)

/-- The trampoline finds the process's own trapframe. -/
theorem wp_hartTrapframe_off (h : Off E i q d) (how : E.track → Owned E.cfg q.own q.phys.free)
    {satp : Nat} (hsatp : E.track → satpRoot satp = (d.process_table i).pagetable.pagetable.root)
    {f : Nat → K β} (k : ∀ tf q', Off E i q' d →
      (E.track → q'.own = q.own ∧ q'.phys.mem = q.phys.mem ∧ tf = (d.process_table i).trapframe) →
      wp E (some i) (f tf) Q (q'.on d ∅)) :
    wp E (some i) (lift (hartTrapframe satp) >>= f) Q (q.on d ∅) := by
  refine wp_look_off h (fun _ => wp_hartTrapframe rfl trivial) fun tf q₁ h₁ hw =>
    k tf q₁ h₁ fun ht => ?_
  obtain ⟨ho, hm, e, he⟩ := hw ht
  rw [hsatp ht, (h.slotMem ht).walk_trapframe h.plain.dropping
    ((how ht).frame _ _ (h.slotMem ht).trapframe)] at he
  exact ⟨ho, hm, (congrArg Prod.snd (Option.some.inj he)).symm⟩

theorem wp_userret (h : Off E i q d) (hs : d.csr.stvec = .uservec)
    (hp : d.csr.spp = false) (hi : d.csr.spie = true) (hpc : E.track → d.csr.sepc < 2 ^ 32)
    {satp : Nat} (hsatp : E.track → satpRoot satp = (d.process_table i).pagetable.pagetable.root)
    {Q : Label → St → Prop} (k : ∀ S', labelPost E (some i) .user S' →
      S'.data.process_table = d.process_table → S'.data.pc = d.csr.sepc →
      (E.track → S'.own = q.own ∧ S'.mem = q.phys.mem ∧ ∀ r ∈ Trapframe.regs,
        S'.data.regs r = q.phys.mem.word ((d.process_table i).trapframe + r)) → Q .user S') :
    wp E (some i) (userret satp) Q (q.on d ∅) := by
  unfold userret
  refine wp_owned fun how => wp_setCsr_off h fun h => ?_
  refine wp_hartTrapframe_off h how hsatp fun tf q₁ h₁ hw₁ => wp_get ?_
  refine wp_look_off h₁ (fun _ => wp_loadRegs rfl trivial _ _) fun regs q₂ h₂ hw₂ => ?_
  have h₃ : Off E i q₂ { d.updCsr (fun csr => { csr with satp }) with regs } :=
    h₂.data rfl rfl rfl rfl rfl rfl
  refine wp_setRest rfl rfl rfl (Nat.le_refl _) (fun _ h1 h2 => (h2 h1).elim) ?_
  have hregs : E.track → ∀ r ∈ Trapframe.regs,
      regs r = q.phys.mem.word ((d.process_table i).trapframe + r) := fun ht r hr => by
    obtain ⟨-, hm₁, htf⟩ := hw₁ ht
    rw [(hw₂ ht).2.2 r, if_pos hr, hm₁, htf]
    rfl
  generalize hd : ({ d.updCsr (fun csr => { csr with satp }) with regs } : Data) = d' at h₃ ⊢
  have hcsr : d'.csr = { d.csr with satp } := by
    rw [← hd]
    rfl
  have hh : ((q₂.on d' ∅).step (q₂.on d' ∅).sys.sret q₂.own).hist = q₂.hist :=
    q₂.hist.next_same rfl fun _ => rfl
  have hu : ((q₂.on d' ∅).step (q₂.on d' ∅).sys.sret q₂.own).locks.umode = true := by
    show (!d'.csr.spp) = true
    rw [hcsr, hp]
    rfl
  have hset : Settled E (some i) ((q₂.on d' ∅).step (q₂.on d' ∅).sys.sret q₂.own) := by
    refine ⟨rfl, h₃.current, ?_, h₃.inv.of_eq rfl rfl rfl rfl rfl rfl rfl (by rw [hh]; rfl)
      fun j _ _ hn => by rw [hh]; exact hn, fun j hj => ?_⟩
    · rw [if_pos hu]
      exact (congrArg Csr.stvec hcsr).trans hs
    · obtain rfl := Option.some.inj hj
      rw [hh]
      exact h₃.closed
  have hspp : d'.csr.spp = false := (congrArg Csr.spp hcsr).trans hp
  have hsepc : d'.csr.sepc = d.csr.sepc := by rw [hcsr]
  have hregs' : E.track → ∀ r ∈ Trapframe.regs,
      d'.regs r = q.phys.mem.word ((d.process_table i).trapframe + r) := by
    rw [← hd]
    exact hregs
  refine wp_sret hset ?_
  simp only [hspp, Bool.not_false, if_true]
  refine k _ ⟨i, rfl, hu, ?_, hset, h₃.plain.1, h₃.plain.2, fun ht => ?_, fun ht => ⟨fun r hr => ?_, ?_⟩⟩
    ?_ hsepc fun ht => ⟨?_, ?_, hregs' ht⟩
  · exact (congrArg Csr.spie hcsr).trans hi
  · show satpRoot d'.csr.satp = (d'.process_table i).pagetable.pagetable.root
    rw [hcsr, ← hd]
    exact hsatp ht
  · show d'.regs r < 2 ^ 32
    rw [hregs' ht r hr]
    exact Bytes.word_lt ..
  · show d'.csr.sepc < 2 ^ 32
    rw [hsepc]
    exact hpc ht
  · show d'.process_table = _
    rw [← hd]
    rfl
  · exact (hw₂ ht).1.trans (hw₁ ht).1
  · exact (hw₂ ht).2.1.trans (hw₁ ht).2.1

/-- `prepare_return` and `userret`. -/
theorem wp_usertrapret_at {c : Cfg} (h : Calm E (some i) b S₀ S) (hp : Plain i S₀)
    {Q : Label → St → Prop}
    (k : ∀ S', labelPost E (some i) .user S' → Landed E i S₀ S' → Q .user S') :
    wp E (some i) (usertrapret c i) Q S := by
  unfold usertrapret prepareReturn
  rw [wp_bind]
  refine wp_setSie_calm h false fun S₁ hu h₁ => ?_
  obtain ⟨q, hq, hoff⟩ := h₁.off (hp.kept (hu i rfl))
  have hu := hu i rfl
  generalize S₁.data = d at hq hoff
  subst hq
  obtain ⟨tf, htf⟩ : ∃ tf, (d.process_table i).trapframe = tf := ⟨_, rfl⟩
  refine wp_owned fun how₀ => wp_setCsr_off hoff fun h => wp_get (wp_proc_owned fun how => ?_)
  refine wp_write_off h how (by decide) fun q₁ h hw₁ => wp_proc ?_
  refine wp_add_off h (by simp [Forbidden]) fun _ => wp_proc_owned fun how => ?_
  refine wp_write_off h how (by decide) fun q₂ h hw₂ => wp_proc_owned fun how => ?_
  refine wp_write_off h how (by decide) fun q₃ h hw₃ => wp_proc_owned fun how => ?_
  refine wp_write_off h how (by decide) fun q₄ h hw₄ => wp_setCsr_off h fun h => wp_proc ?_
  refine wp_read_off h fun epc q₅ h hw₅ => ?_
  have hmem : E.track → q₅.own = q.own ∧
      (∀ a, ¬ (tf ≤ a ∧ a < tf + 20) → q₅.phys.mem a = q.phys.mem a) ∧
      epc = q.phys.mem.word (tf + Trapframe.epc) := fun ht => by
    have hset : ∀ {p p' : Quiet} {k v : Nat},
        p'.phys.mem = p.phys.mem.setWord ((d.process_table i).trapframe + k) v →
        ∀ a, a < tf + k ∨ tf + k + 4 ≤ a → p'.phys.mem a = p.phys.mem a := by
      intro p p' k v hm a ha
      rw [hm, htf]
      exact Bytes.setWord_ne ha
    have hrest : ∀ a, ¬ (tf ≤ a ∧ a < tf + 20) ∨ tf + 12 ≤ a ∧ a < tf + 16 →
        q₅.phys.mem a = q.phys.mem a := by
      intro a ha
      rw [(hw₅ ht).2.1, hset (hw₄ ht).2 a (by unfold Trapframe.hartid; omega),
        hset (hw₃ ht).2 a (by unfold Trapframe.trap_handler; omega),
        hset (hw₂ ht).2 a (by unfold Trapframe.kernel_sp; omega),
        hset (hw₁ ht).2 a (by unfold Trapframe.kernel_satp; omega)]
    refine ⟨?_, fun a ha => hrest a (.inl ha), ?_⟩
    · rw [(hw₅ ht).1, (hw₄ ht).1, (hw₃ ht).1, (hw₂ ht).1, (hw₁ ht).1]
    · rw [(hw₅ ht).2.2, ← (hw₅ ht).2.1]
      show Bytes.word _ ((d.process_table i).trapframe + _) = _
      rw [htf]
      exact Bytes.word_congr fun k hk => hrest _ (.inr (by unfold Trapframe.epc; omega))
  have htf₀ : (S₀.proc i).trapframe = tf := by
    rw [← htf]
    exact hu.thread.trapframe.symm
  have hword : E.track → ∀ r, r + 4 ≤ Trapframe.SIZE →
      q.phys.mem.word (tf + r) = S₀.mem.word (tf + r) := by
    intro ht r hr
    have hin : tf ∈ S₀.own (.slot i) := by
      rw [← (hu.slot ht).1, ← htf]
      exact (hoff.slotMem ht).trapframe
    have hpg : tf % PAGESIZE = 0 := by
      rw [← htf]
      exact ((how₀ ht).frame _ _ (hoff.slotMem ht).trapframe).page
    have := Trapframe.in_page hr
    refine Bytes.word_congr fun k hk => (hu.slot ht).2 _ ?_
    rwa [pageOf_eq_of hpg (by omega)]
  refine wp_setCsr_off (f := pure) h fun h => wp_proc (wp_userret h rfl rfl rfl (fun ht => ?_)
    (fun ht => ?_) fun S' hl htab hpc hw => k S' hl ⟨?_, fun ht => ?_, fun ht a ha hna => ?_,
      fun ht r hr => ?_, fun ht => ?_⟩)
  · show epc < 2 ^ 32
    rw [(hw₅ ht).2.2]
    exact Bytes.word_lt ..
  · obtain ⟨tab, hs, -⟩ := (h.slotMem ht).space h.plain.dropping
    exact satpRoot_getSatp hs.tree.root_frame
  · have hh : S'.proc i = d.process_table i := congrFun htab i
    rw [hh]
    exact hu.thread
  · obtain ⟨ho, -⟩ := hmem ht
    rw [(hw ht).1, ho]
    exact (hu.slot ht).1
  · rw [htf₀] at hna
    rw [(hw ht).2.1, (hmem ht).2.1 a hna]
    exact (hu.slot ht).2 a ha
  · have hr' : 20 ≤ r := (by decide : ∀ r ∈ Trapframe.regs, 20 ≤ r) r hr
    rw [(hw ht).2.2 r hr, htf₀, ← hword ht r ((by decide : ∀ r ∈ Trapframe.regs,
      r + 4 ≤ Trapframe.SIZE) r hr)]
    show q₅.phys.mem.word ((d.process_table i).trapframe + r) = _
    rw [htf]
    exact Bytes.word_congr fun k hk => (hmem ht).2.1 _ (by omega)
  · rw [hpc, htf₀, ← hword ht _ (by decide)]
    exact (hmem ht).2.2

theorem wp_usertrapret {c : Cfg} (h : Calm E (some i) b S₀ S) (hp : Plain i S₀) :
    wp E (some i) (usertrapret c i) (labelPost E (some i)) S :=
  wp_usertrapret_at h hp fun _ hl _ => hl

theorem wp_forkret {c : Cfg} (h : Handoff E i S)
    (hb : Born (S.proc i) (S.hist.before i)) :
    wp E (some i) (forkret c) (labelPost E (some i)) S := by
  obtain ⟨q, hq⟩ := Quiet.exists_on h.sie h.umode
    ⟨by rw [h.stack, h.held]; rfl, fun _ => h.sie⟩
  rw [h.held] at hq
  have hcur : S.data.current = some i := h.current
  generalize S.data = d at hq hcur
  subst hq
  unfold forkret
  refine wp_get ?_
  simp only [hcur]
  have hp : Plain i (q.on d {.proc i}) := ⟨hb.dropping, hb.reaped⟩
  refine wp_release_open (b := q.prev) rfl hcur h.stvec h.inv (fun j hj => .inr ?_)
    fun S' _ _ _ _ h' => wp_usertrapret h' hp
  obtain rfl := Option.some.inj hj
  exact ⟨hb.before, hb.context⟩

/-! ## Traps from user mode -/

theorem wp_syscall (h : Runs E i b S) :
    wp E (some i) (syscall E.cfg i) (labelPost E (some i)) S := by
  have hR : Steady E (some i) (Runs E i b) := Runs.steady
  unfold syscall
  refine wp_trapframeRead hR h fun sys_num S₁ _ h₁ => ?_
  by_cases hw : sys_num = SYS_WRITE
  · rw [if_pos hw, wp_bind]
    exact wp_sysWrite h₁.calm fun S₂ hk₂ h₂ => wp_usertrapret h₂ (h₁.plain.kin hk₂)
  rw [if_neg hw]
  by_cases hf : sys_num = SYS_FORK
  · rw [if_pos hf, wp_bind]
    exact wp_sysFork h₁.calm h₁.plain fun S₂ hk₂ h₂ => wp_usertrapret h₂ (h₁.plain.kin hk₂)
  rw [if_neg hf]
  by_cases hx : sys_num = SYS_EXEC
  · rw [if_pos hx, wp_bind]
    exact wp_sysExec h₁.calm h₁.plain fun S₂ h₂ => wp_usertrapret h₂.calm h₂.plain
  rw [if_neg hx]
  by_cases hwt : sys_num = SYS_WAIT
  · rw [if_pos hwt]
    refine wp_trapframeRead hR h₁ fun addr S₂ hlt h₂ => ?_
    refine wp_note_calm (f := fun _ => pure _) h₂.calm rfl
      (fun S₃ h₃ => ⟨⟨rfl, (h₂.plain.kept (h₃.kept i rfl)).dropping⟩, fun _ => ?_⟩)
      fun S₃ S₄ ha h₃ hS₄ h₄ => ?_
    · exact h₃.settled.inv.exits.note (.inr ⟨i, addr, .inl rfl⟩) fun p x => by simp
    have hp : Plain i S₄ := by
      obtain ⟨h1, h2⟩ := h₂.plain.kept (h₃.kept i rfl)
      rw [hS₄]
      exact ⟨h1, h2⟩
    refine ⟨rfl, h₄.umode, h₄.settled, hp.dropping, hp.reaped, ?_, hlt, ha⟩
    rw [hS₄]
    exact lastCall_call rfl rfl
  rw [if_neg hwt]
  by_cases he : sys_num = SYS_EXIT
  · rw [if_pos he]
    exact wp_trapframeRead hR h₁ fun xstatus S₂ _ h₂ =>
      wp_kexit h₂.calm h₂.plain.reaped h₂.plain.dropping
  · rw [if_neg he]
    exact wp_panic hR h₁ (by simp [Forbidden])

/-- Process `i`, which was in its program in `S`, is in the kernel: its registers are in the trapframe,
and the pc from which it will go on. -/
structure Caught (E : Env) (i pc : Nat) (S S' : St) : Prop where
  frame : E.track → (S.proc i).trapframe % PAGESIZE = 0 ∧
    (S.proc i).trapframe ∈ S.own (.slot i)
  thread : (S.proc i).SameThread (S'.proc i)
  own : E.track → S'.own (.slot i) = S.own (.slot i)
  mem : E.track → ∀ a, pageOf a ∈ S.own (.slot i) → pageOf a ≠ (S.proc i).trapframe →
    S'.mem a = S.mem a
  regs : E.track → ∀ r ∈ Trapframe.regs,
    S'.mem.word ((S.proc i).trapframe + r) = S.data.regs r
  pc : E.track → S'.mem.word ((S.proc i).trapframe + Trapframe.epc) = pc

theorem Caught.untouched {i pc : Nat} {S S' S'' : St} (h : Caught E i pc S S')
    (hu : Untouched E i S' S'') : Caught E i pc S S'' := by
  have hpage : E.track → ∀ a, pageOf a ∈ S.own (.slot i) → S''.mem a = S'.mem a :=
    fun ht a ha => (hu.slot ht).2 a (by rwa [h.own ht])
  have hword : E.track → ∀ r, r + 4 ≤ Trapframe.SIZE →
      S''.mem.word ((S.proc i).trapframe + r) = S'.mem.word ((S.proc i).trapframe + r) := by
    intro ht r hr
    obtain ⟨hp, hf⟩ := h.frame ht
    have := Trapframe.in_page hr
    refine Bytes.word_congr fun k hk => hpage ht _ ?_
    rwa [pageOf_eq_of hp (by omega)]
  have hregs : ∀ r ∈ Trapframe.regs, r + 4 ≤ Trapframe.SIZE := by decide
  refine ⟨h.frame, h.thread.trans hu.thread, fun ht => (hu.slot ht).1.trans (h.own ht),
    fun ht a ha hne => (hpage ht a ha).trans (h.mem ht a ha hne), fun ht r hr => ?_, fun ht => ?_⟩
  · exact (hword ht r (hregs r hr)).trans (h.regs ht r hr)
  · exact (hword ht _ (by decide)).trans (h.pc ht)

/-- The pc is written to the trapframe. -/
theorem Caught.setPc {i pc pc' : Nat} {S S' S'' : St} (h : Caught E i pc S S')
    (hthread : (S.proc i).SameThread (S''.proc i))
    (hm : E.track → S''.own (.slot i) = S'.own (.slot i) ∧ pc' < 2 ^ 32 ∧
      S''.mem = S'.mem.setWord ((S.proc i).trapframe + Trapframe.epc) pc') :
    Caught E i pc' S S'' := by
  refine ⟨h.frame, hthread, fun ht => (hm ht).1.trans (h.own ht), fun ht a ha hne => ?_,
    fun ht r hr => ?_, fun ht => ?_⟩
  · rw [(hm ht).2.2, Bytes.setWord_ne]
    · exact h.mem ht a ha hne
    · by_contra hlt
      refine hne (pageOf_eq_of (h.frame ht).1 ?_)
      rw [PAGESIZE_eq]
      unfold Trapframe.epc at hlt
      omega
  · rw [(hm ht).2.2, Bytes.word_setWord_ne]
    · exact h.regs ht r hr
    · have := (by decide : ∀ r ∈ Trapframe.regs, Trapframe.epc + 4 ≤ r) r hr
      omega
  · rw [(hm ht).2.2, Bytes.word_setWord (hm ht).2.1]

/-- A trap from user mode, up to what depends on its cause. -/
theorem wp_usertrap_of {scause : Nat} (hl : S.locks.Inv) (h : labelPost E me .user S)
    {Q : Label → St → Prop}
    (hsys : scause = ECALL → ∀ i S', me = some i → Runs E i true S' →
      Caught E i (S.data.pc + 4) S S' → wp E (some i) (syscall E.cfg i) Q S')
    (htim : scause = TIMER → ∀ i S', me = some i → Calm E (some i) false S' S' → Plain i S' →
      Caught E i S.data.pc S S' → wp E (some i) (usertrapret E.cfg i) Q S') :
    wp E me (uservec >>= fun _ => usertrap E.cfg) Q (S.trap scause S.data.pc false) := by
  obtain ⟨i, rfl, hu, hs, hset, hdrop, hreap, hsatp, hwords⟩ := h
  obtain ⟨q, hq⟩ := Quiet.exists_on (S := S.trap scause S.data.pc false) rfl rfl
    (hl.of_held rfl rfl fun _ => rfl)
  have hheld : (S.trap scause S.data.pc false).locks.held = ∅ := hset.held
  rw [hheld] at hq
  have hoff : Off E i q (S.trap scause S.data.pc false).data := by
    refine ⟨hset.current, ?_, ?_, hdrop, hreap⟩
    · rw [hq]
      exact hset.inv.of_eq rfl rfl rfl rfl rfl rfl rfl (by rw [St.trap_hist])
        fun j _ _ hn => by rw [St.trap_hist]; exact hn
    · show (q.on (S.trap scause S.data.pc false).data ∅).hist.before i = none
      rw [hq, St.trap_hist]
      exact hset.closed i rfl
  obtain ⟨hown, hphys⟩ : q.own = S.own ∧ q.phys = S.sys.phys :=
    ⟨congrArg St.own hq, congrArg (fun S : St => S.sys.phys) hq⟩
  obtain ⟨hspp, hcause, hsepc, htab, hregs⟩ : (S.trap scause S.data.pc false).data.csr.spp = false ∧
      (S.trap scause S.data.pc false).data.csr.scause = scause ∧
      (S.trap scause S.data.pc false).data.csr.sepc = S.data.pc ∧
      (S.trap scause S.data.pc false).data.process_table = S.data.process_table ∧
      (S.trap scause S.data.pc false).data.regs = S.data.regs := ⟨rfl, rfl, rfl, rfl, rfl⟩
  replace hsatp : E.track → satpRoot (S.trap scause S.data.pc false).data.csr.satp =
    ((S.trap scause S.data.pc false).data.process_table i).pagetable.pagetable.root := hsatp
  generalize (S.trap scause S.data.pc false).data = d at hq hoff hspp hcause hsepc htab hregs hsatp
  rw [← hq, wp_bind]
  unfold uservec
  refine wp_get_owned fun how => ?_
  have hframe : E.track → E.cfg.IsFrame (d.process_table i).trapframe := fun ht =>
    (how ht).frame _ _ (hoff.slotMem ht).trapframe
  -- the vector finds the process's own trapframe
  refine wp_hartTrapframe_off hoff how hsatp fun tf q₁ h₁ hw₁ => ?_
  have hoffs : ∀ r ∈ Trapframe.regs, r + 4 ≤ Trapframe.SIZE := by decide
  refine wp_box_off h₁ (fun ht => (hw₁ ht).2.2 ▸ hframe ht) (fun ht => (hw₁ ht).2.2)
    (fun hf => wp_saveRegs id hf.page _ (fun r hr => Trapframe.in_page (hoffs r hr))
      (by decide)) fun _ q₂ h₂ hw₂ => ?_
  refine wp_look_off h₂ (R := fun _ => True) (fun _ => wp_read_alone rfl trivial ⟨rfl, trivial⟩)
    fun satp q₃ h₃ hw₃ => ?_
  refine wp_setCsr_off (f := pure) h₃ fun h₄ => ?_
  have hspp : (d.updCsr fun csr => { csr with satp }).csr.spp = false := hspp
  have hcause : (d.updCsr fun csr => { csr with satp }).csr.scause = scause := hcause
  have hsepc : (d.updCsr fun csr => { csr with satp }).csr.sepc = S.data.pc := hsepc
  have htab₁ : (d.updCsr fun csr => { csr with satp }).process_table = d.process_table := rfl
  generalize (d.updCsr fun csr => { csr with satp }) = d₁ at h₄ hspp hcause hsepc htab₁
  unfold usertrap
  refine wp_get ?_
  simp only [h₄.current, hspp, Bool.false_eq_true, if_false]
  refine wp_locks ?_
  simp only [show (q₃.locks ∅).sie = false from rfl, Bool.false_eq_true, if_false]
  refine wp_setCsr_off h₄ fun h₅ => ?_
  have hst : (d₁.updCsr fun csr => { csr with stvec := .kernelvec }).csr.stvec = .kernelvec := rfl
  have htab₂ : (d₁.updCsr fun csr => { csr with stvec := .kernelvec }).process_table =
    d₁.process_table := rfl
  generalize (d₁.updCsr fun csr => { csr with stvec := .kernelvec }) = d₂ at h₅ hst htab₂
  replace htab₂ : d₂.process_table = S.data.process_table := htab₂.trans (htab₁.trans htab)
  refine wp_trapframeWrite_off h₅ (by decide) fun q₄ h₆ hw₄ => ?_
  have htf : (d₂.process_table i).trapframe = (S.proc i).trapframe := by rw [htab₂]
  have hsame : (S.proc i).SameThread (d₂.process_table i) := by
    rw [htab₂]
    exact .refl _
  have hsaved : Caught E i (q₃.phys.mem.word ((S.proc i).trapframe + Trapframe.epc)) S
      (q₃.on d₂ ∅) := by
    have hmem : E.track → q₃.own = S.own ∧ Saves (S.proc i).trapframe S.data.regs Trapframe.regs
        S.mem q₃.phys.mem := fun ht => by
      obtain ⟨o₁, m₁, ht₁⟩ := hw₁ ht
      obtain ⟨o₂, hs₂⟩ := hw₂ ht
      rw [ht₁, htab, hregs, m₁, hphys, ← (hw₃ ht).2.1] at hs₂
      exact ⟨by rw [(hw₃ ht).1, o₂, o₁, hown], hs₂⟩
    refine ⟨fun ht => ?_, hsame, fun ht => congrFun (hmem ht).1 _, fun ht a _ hne => ?_,
      fun ht r hr => (hmem ht).2.word r hr ((hwords ht).1 r hr), fun _ => rfl⟩
    · have hf := hframe ht
      have hin := (hoff.slotMem ht).trapframe
      rw [htab] at hf hin
      rw [hown] at hin
      exact ⟨hf.page, hin⟩
    · have hf := hframe ht
      rw [htab] at hf
      refine (hmem ht).2.rest a fun r hr => ?_
      by_contra hlt
      have := Trapframe.in_page (hoffs r hr)
      exact hne (pageOf_eq_of hf.page (by omega))
  have hcaught : Caught E i S.data.pc S (q₄.on d₂ ∅) := hsaved.setPc hsame fun ht => by
    obtain ⟨o₄, m₄⟩ := hw₄ ht
    rw [htf, hsepc] at m₄
    exact ⟨congrFun o₄ _, (hwords ht).2, m₄⟩
  by_cases hsc : d₁.csr.scause = ECALL
  · rw [if_pos hsc]
    refine wp_trapframeRead_off h₆ fun v q₅ h₇ hw₅ => wp_add_off h₇ (by simp [Forbidden])
      fun hlt => ?_
    refine wp_trapframeWrite_off h₇ (by decide) fun q₆ h₈ hw₆ => ?_
    have hcaught' : Caught E i (S.data.pc + 4) S (q₆.on d₂ ∅) := hcaught.setPc hsame fun ht => by
      obtain ⟨o₅, m₅, hv⟩ := hw₅ ht
      obtain ⟨o₆, m₆⟩ := hw₆ ht
      have hpc : v = S.data.pc := by
        rw [hv, htf]
        exact hcaught.pc ht
      rw [htf, hpc, m₅] at m₆
      exact ⟨congrFun (o₆.trans o₅) _, hpc ▸ hlt, m₆⟩
    exact wp_setSie_calm (h₈.calm hst) true fun S₁ hu₁ hc₁ =>
      hsys (hcause.symm.trans hsc) i S₁ rfl (hc₁.runs (h₈.plain.kept (hu₁ i rfl)))
        (hcaught'.untouched (hu₁ i rfl))
  rw [if_neg hsc]
  by_cases hti : d₁.csr.scause = TIMER
  · rw [if_pos hti, wp_bind]
    refine wp_deadline (fun q' f hq' k => wp_heapUse_quiet (by rw [hq']; exact h₆.uses) k) h₆.uses
      fun q₅ hn => ?_
    have h₇ := h₆.ticks hn
    rw [wp_bind]
    exact wp_yeld (h₇.calm hst) fun S₁ hu₁ hc₁ => htim (hcause.symm.trans hti) i S₁ rfl hc₁
      (h₇.plain.kept hu₁) ((hcaught.untouched (.ticks d₂ hn)).untouched hu₁)
  · rw [if_neg hti]
    exact wp_panic h₆.uses.steady (q₄.like d₂ ∅) (by simp [Forbidden])

theorem wp_usertrap {scause : Nat} (hl : S.locks.Inv) (h : labelPost E me .user S) :
    wp E me (uservec >>= fun _ => usertrap E.cfg) (labelPost E me) (S.trap scause S.data.pc false) := by
  refine wp_usertrap_of hl h (fun _ i S' hm hr _ => ?_) fun _ i S' hm hc hp _ => ?_
  · subst hm
    exact wp_syscall hr
  · subst hm
    exact wp_usertrapret hc hp

/-! ## Traps in the kernel -/

/-- The handler has returned; the kernel goes on where it was. -/
theorem wp_kernelret {Q : St → Prop} (h : Calm E me false S₀ (q.on d ∅)) (hp : d.csr.spp = true)
    (hi : d.csr.spie = true) (k : ∀ S', S'.locks.sie = true → S'.locks.umode = false →
      Settled E me S' → (∀ i, me = some i → Untouched E i S₀ S') → Q S') :
    wp E me (do if ← sret then lost else return ()) (fun _ => Q) (q.on d ∅) := by
  have hh : ((q.on d ∅).step (q.on d ∅).sys.sret q.own).hist = q.hist :=
    q.hist.next_same rfl fun _ => rfl
  have hu : ((q.on d ∅).step (q.on d ∅).sys.sret q.own).locks.umode = false := by
    show (!d.csr.spp) = false
    rw [hp]
    rfl
  have hset : Settled E me ((q.on d ∅).step (q.on d ∅).sys.sret q.own) := by
    refine ⟨rfl, h.settled.current, ?_, h.settled.inv.of_eq rfl rfl rfl rfl rfl rfl rfl (by rw [hh]; rfl)
      fun j _ _ hn => by rw [hh]; exact hn, fun j hj => ?_⟩
    · rw [hu]
      exact h.settled.stvec
    · rw [hh]
      exact h.settled.closed j hj
  refine wp_sret hset ?_
  simp only [hp, Bool.not_true, Bool.false_eq_true, if_false]
  exact k _ hi hu hset fun i hme => (h.kept i hme).trans (.of_eq rfl rfl rfl rfl rfl)

theorem wp_kernelvec {pc : Nat} {Q : St → Prop} (hu : S.locks.umode = false)
    (hs : S.locks.sie = true) (hc : Settled E me S) (hl : S.locks.Inv)
    (k : ∀ S', Drift E me S S' → Q S') :
    wp E me kernelvec (fun _ => Q) (S.trap TIMER pc true) := by
  have hset : Settled E me (S.trap TIMER pc true) := by
    refine ⟨hc.held, hc.current, ?_, hc.inv.of_eq rfl rfl rfl rfl rfl rfl rfl (by rw [St.trap_hist])
      fun j _ _ hn => by rw [St.trap_hist]; exact hn, fun j hj => ?_⟩
    · have := hc.stvec
      rw [hu] at this
      exact this
    · rw [St.trap_hist]
      exact hc.closed j hj
  have hcalm : Calm E me false (S.trap TIMER pc true) (S.trap TIMER pc true) :=
    .refl rfl rfl (hl.of_held rfl rfl fun _ => rfl) hset
  have hdrift : ∀ S', S'.locks.sie = true → S'.locks.umode = false → Settled E me S' →
      (∀ i, me = some i → Untouched E i (S.trap TIMER pc true) S') → Q S' := by
    intro S' h1 h2 h3 h4
    refine k S' (.inr ⟨hs, h1, h2, h3, fun i hi => ⟨?_, ?_⟩⟩)
    · have h5 : Untouched E i S (S.trap TIMER pc true) := .of_eq rfl rfl rfl rfl rfl
      exact h5.trans (h4 i hi)
    · exact (h3.closed i hi).trans (hc.closed i hi).symm
  obtain ⟨q, hq⟩ := hcalm.quiet
  obtain ⟨hspp, hspie, hsc⟩ : (S.trap TIMER pc true).data.csr.spp = true ∧
      (S.trap TIMER pc true).data.csr.spie = true ∧
      (S.trap TIMER pc true).data.csr.scause = TIMER := ⟨rfl, hs, rfl⟩
  generalize S.trap TIMER pc true = S₀ at hset hcalm hdrift hq hspp hspie hsc
  have hcur := hset.current
  have hstv : S₀.data.csr.stvec = .kernelvec := by
    rw [hset.stvec, hcalm.umode]
    rfl
  generalize S₀.data = d at hq hspp hspie hsc hcur hstv
  subst hq
  have huse : Quiet.Uses me q.hist d ∅ := ⟨Finset.notMem_empty _, fun _ => hcur, fun _ i hi => hset.closed i hi⟩
  unfold kernelvec kerneltrap
  rw [wp_bind]
  refine wp_get ?_
  simp only [hspp, Bool.not_true, Bool.false_eq_true, if_false]
  refine wp_locks ?_
  simp only [show (q.locks ∅).sie = false from rfl, Bool.false_eq_true, if_false, hsc, if_true]
  rw [wp_bind]
  refine wp_deadline (fun q' f _ k => k q' (.refl _ _)) huse fun q₁ hn => wp_get ?_
  have hset₁ : Settled E me (q₁.on d ∅) := ⟨rfl, hcur, hstv, hset.inv.ticks hn, fun j hj => by
    show q₁.hist.before j = none
    rw [hn.hist]
    exact hset.closed j hj⟩
  -- the registers are given back
  have hlast : ∀ S₂ : St, S₂.locks.sie = false → S₂.locks.umode = false → S₂.locks.Inv →
      Settled E me S₂ → (∀ i, me = some i → Untouched E i (q.on d ∅) S₂) →
      wp E me (setCsr fun csr' => { csr' with sepc := d.csr.sepc, spp := true, spie := true })
        (fun _ S' => wp E me (do if ← sret then lost else return ()) (fun _ => Q) S') S₂ := by
    intro S₂ hs₂ hu₂ hl₂ hset₂ hun₂
    have hc₂ : Calm E me false S₂ S₂ := .refl hu₂ hs₂ hl₂ hset₂
    obtain ⟨q₂, hq₂⟩ := hc₂.quiet
    generalize S₂.data = d₂ at hq₂
    subst hq₂
    refine wp_setRest (f := pure) rfl rfl rfl (Nat.le_refl _) (fun _ h1 h2 => (h2 h1).elim) ?_
    have hc₃ : Calm E me false
        (q₂.on (d₂.updCsr fun csr' => { csr' with sepc := d.csr.sepc, spp := true, spie := true }) ∅)
        (q₂.on (d₂.updCsr fun csr' => { csr' with sepc := d.csr.sepc, spp := true, spie := true }) ∅) :=
      .refl rfl rfl (q₂.locks_inv ∅) ⟨rfl, hset₂.current, hset₂.stvec,
        hset₂.inv.of_eq rfl rfl rfl rfl rfl rfl rfl rfl fun _ _ _ h => h, hset₂.closed⟩
    refine wp_kernelret hc₃ rfl rfl fun S' h1 h2 h3 h4 => hdrift S' h1 h2 h3 fun j hj => ?_
    have h5 : Untouched E j (q₂.on d₂ ∅)
        (q₂.on (d₂.updCsr fun csr' => { csr' with sepc := d.csr.sepc, spp := true, spie := true }) ∅) :=
      .of_eq rfl rfl rfl rfl rfl
    exact (hun₂ j hj).trans (h5.trans (h4 j hj))
  rw [hspie]
  cases me with
  | none =>
    simp only [hcur]
    exact hlast _ rfl rfl (q₁.locks_inv ∅) hset₁ fun i hi => by cases hi
  | some i =>
    simp only [hcur]
    rw [wp_bind]
    have hc₁ : Calm E (some i) false (q₁.on d ∅) (q₁.on d ∅) := .refl rfl rfl (q₁.locks_inv ∅) hset₁
    refine wp_yeld hc₁ fun S₂ hu₂ hc₂ => hlast S₂ hc₂.sie hc₂.umode hc₂.locks hc₂.settled fun j hj => ?_
    obtain rfl := Option.some.inj hj
    exact (Untouched.ticks d hn).trans hu₂

end K

end BareMetal
