import BareMetal.Kernel.Proof.Total

/-!
# `sys_exec`

`StringsRead`: the arguments as `sys_exec` reads them from the caller's memory. A call that returns
has read them and run `kexec` on them (`sysExec_ends`). A caller whose memory holds a path and
arguments that can be read gets to `kexec`, and through it (`OwnState.sysExec_runs`).
-/

namespace BareMetal

open Lib K

/-- The root of a process's page table. -/
abbrev Sys.root (s : Sys) (i : Nat) : Nat := (s.data.process_table i).pagetable.pagetable.root

/-! ## What it reads -/

/-- What `sys_exec` reads at `a` of the caller's address space, before the null pointer: only the
first byte of each pointer and of each string is translated. -/
def StringsRead (m : Bytes) (root : Nat) : Nat → List (List UInt8) → Prop
  | a, [] => ∃ q, Sv32.walk m root a = some q ∧ m.word q.2 = 0
  | a, arg :: argv => ∃ q r, Sv32.walk m root a = some q ∧ m.word q.2 ≠ 0 ∧
      Sv32.walk m root (m.word q.2) = some r ∧ m (r.2 + arg.length) = 0 ∧
      (∀ k < arg.length, arg[k]? = some (m (r.2 + k)) ∧ m (r.2 + k) ≠ 0) ∧
      StringsRead m root (a + 4) argv

theorem StringsRead.nul {m : Bytes} {root : Nat} : ∀ {a : Nat} {argv : List (List UInt8)},
    StringsRead m root a argv → ∀ arg ∈ argv, (0 : UInt8) ∉ arg
  | _, [], _, _, h => absurd h List.not_mem_nil
  | _, _ :: _, ⟨_, _, _, _, _, _, hb, hr⟩, arg, h => by
    rcases List.mem_cons.1 h with rfl | h
    · intro h0
      obtain ⟨k, hk, he⟩ := List.mem_iff_getElem.1 h0
      obtain ⟨h1, h2⟩ := hb k hk
      rw [List.getElem?_eq_getElem hk, he] at h1
      exact h2 (Option.some.inj h1).symm
    · exact hr.nul arg h

section
variable {c : Cfg} {s s' : Sys} {i : Nat} {tr : List (KOp × Sys)} {v : View} {total : Finset Nat}
  {tab : Nat → Option Nat}

/-- Only the locks and the timer changed. -/
def Same (s s' : Sys) : Prop := s'.phys = s.phys ∧ s'.data = s.data

theorem Same.trans {s₁ : Sys} (h : Same s s₁) (h' : Same s₁ s') : Same s s' :=
  ⟨h'.1.trans h.1, h'.2.trans h.2⟩

/-- `f(&mut proc.pagetable, ..).unwrap()`, and what follows. -/
theorem unwrap_ends {α β : Type} {g : Uvm → M (Except Unit α)} {f : α → K β} {x : β}
    (h : K.Ends c (do f (← unwrapOk (← lift (g (← proc i).pagetable)))) s tr x s') :
    ∃ b s₁ tr₁, (g (s.data.process_table i).pagetable).run c s.phys = .ok (.ok b, s₁.phys) ∧
      s₁.data = s.data ∧ K.Ends c (f b) s₁ tr₁ x s' := by
  obtain ⟨p, s₁, tr₁, tr₂, h1, h2, -⟩ := h.bind
  obtain ⟨rfl, rfl⟩ := proc_ends h1
  obtain ⟨r, s₂, tr₃, tr₄, h3, h4, -⟩ := h2.bind
  obtain ⟨he, hd⟩ := lift_ends h3
  obtain ⟨b, s₃, tr₅, tr₆, h5, h6, -⟩ := h4.bind
  cases r with
  | error e => exact (panic_ends h5).elim
  | ok b' =>
    obtain ⟨rfl, rfl, -⟩ := h5.ret_inv
    exact ⟨b, s₃, tr₆, he.run, hd, h6⟩

theorem read_run {a x : Nat} {p p' : Phys} (h : (M.read a).run c p = .ok (x, p')) :
    x = p.mem.word a ∧ p' = p := by
  by_cases hr : Readable a 4
  · rw [(M.quiet_read hr).1] at h
    cases h
    exact ⟨rfl, rfl⟩
  · rw [M.read, M.perform, Free.perform, M.run, Free.run_op] at h
    simp only [Phys.exec, if_neg hr] at h
    cases h

theorem trapframeRead_ends {k x : Nat} (h : K.Ends c (trapframeRead i k) s tr x s') :
    x = s.phys.mem.word ((s.data.process_table i).trapframe + k) ∧ Same s s' := by
  obtain ⟨p, s₁, tr₁, tr₂, h1, h2, -⟩ := h.bind
  obtain ⟨rfl, rfl⟩ := proc_ends h1
  obtain ⟨he, hd⟩ := lift_ends h2
  obtain ⟨hx, hp⟩ := read_run he.run
  exact ⟨hx, hp, hd⟩

/-- A word from its bytes. -/
theorem leWord_word {m : Bytes} {a : Nat} {bs : List UInt8} (hl : bs.length = 4)
    (hb : ∀ i < 4, bs[i]? = some (m (a + i))) : leWord bs = m.word a := by
  obtain ⟨b0, b1, b2, b3, rfl⟩ : ∃ b0 b1 b2 b3, bs = [b0, b1, b2, b3] := by
    match bs, hl with
    | [b0, b1, b2, b3], _ => exact ⟨b0, b1, b2, b3, rfl⟩
  have h0 : b0 = m a := Option.some.inj (hb 0 (by omega))
  have h1 : b1 = m (a + 1) := Option.some.inj (hb 1 (by omega))
  have h2 : b2 = m (a + 2) := Option.some.inj (hb 2 (by omega))
  have h3 : b3 = m (a + 3) := Option.some.inj (hb 3 (by omega))
  subst h0 h1 h2 h3
  simp only [leWord, List.foldr_cons, List.foldr_nil, Bytes.word]
  omega

/-- `copy_in` of a word. -/
theorem copyIn_word {u : Uvm} {a : Nat} {bs : List UInt8} {p p' : Phys} (hs : Space c v u tab)
    (hm : v.mem = p.mem) (ha : a < USIZE) (h : (copyIn u a 4).run c p = .ok (.ok bs, p')) :
    p' = p ∧ ∃ q, Sv32.walk p.mem u.pagetable.root a = some q ∧ leWord bs = p.mem.word q.2 := by
  unfold copyIn at h
  rw [(walkaddr_run hs hm ha _).1] at h
  cases hq : Sv32.walk p.mem u.pagetable.root a with
  | none =>
    rw [hq] at h
    cases h
  | some q =>
    rw [hq] at h
    dsimp only [Option.map_some] at h
    obtain ⟨bs', hr, he⟩ := ((map_run _ _).2 _ _).1 h
    cases he
    obtain ⟨rfl, hl, hb⟩ := readBytes_run 4 hr
    exact ⟨rfl, q, rfl, leWord_word hl hb⟩

theorem copyIn_str {u : Uvm} {a : Nat} {arg : List UInt8} {p p' : Phys} (hs : Space c v u tab)
    (hm : v.mem = p.mem) (ha : a < USIZE) (h : (copyInStr u a).run c p = .ok (.ok arg, p')) :
    p' = p ∧ ∃ r, Sv32.walk p.mem u.pagetable.root a = some r ∧ p.mem (r.2 + arg.length) = 0 ∧
      ∀ k < arg.length, arg[k]? = some (p.mem (r.2 + k)) ∧ p.mem (r.2 + k) ≠ 0 := by
  unfold copyInStr at h
  rw [(walkaddr_run hs hm ha _).1] at h
  cases hq : Sv32.walk p.mem u.pagetable.root a with
  | none =>
    rw [hq] at h
    cases h
  | some q =>
    rw [hq] at h
    dsimp only [Option.map_some] at h
    obtain ⟨bs, hr, he⟩ := ((map_run _ _).2 _ _).1 h
    unfold fromUtf8 at he
    split at he
    · cases he
      obtain ⟨rfl, h0, hb⟩ := readStr_run _ hr
      exact ⟨rfl, q, rfl, h0, hb⟩
    · cases he

theorem Same.space (h : Same s s') (hs : Space c v (s.data.process_table i).pagetable tab)
    (hm : v.mem = s.phys.mem) :
    Space c v (s'.data.process_table i).pagetable tab ∧ v.mem = s'.phys.mem := by
  rw [h.1, h.2]
  exact ⟨hs, hm⟩

/-- The loop over `argv`. -/
theorem sysExecArgs_ends (n : Nat) : ∀ {a : Nat} {s : Sys} {tr : List (KOp × Sys)}
    {argv : List (List UInt8)}, Space c v (s.data.process_table i).pagetable tab →
    v.mem = s.phys.mem → a < USIZE → K.Ends c (sysExecArgs i n a) s tr argv s' →
    StringsRead s.phys.mem (s.root i) a argv ∧ Same s s' := by
  induction n with
  | zero => exact fun _ _ _ h => (panic_ends h).elim
  | succ n ih =>
    intro a s tr argv hs hm ha h
    unfold sysExecArgs at h
    obtain ⟨bs, s₁, tr₁, h1, d1, h2⟩ := unwrap_ends (g := fun u => copyIn u a 4) h
    obtain ⟨p1, q, hq, hw⟩ := copyIn_word hs hm ha h1
    dsimp only at h2
    rw [hw] at h2
    by_cases h0 : s.phys.mem.word q.2 = 0
    · rw [if_pos h0] at h2
      obtain ⟨rfl, rfl, -⟩ := h2.ret_inv
      exact ⟨⟨q, hq, h0⟩, p1, d1⟩
    · rw [if_neg h0] at h2
      have hsame₁ : Same s s₁ := ⟨p1, d1⟩
      obtain ⟨hs₁, hm₁⟩ := hsame₁.space hs hm
      obtain ⟨arg, s₂, tr₂, h3, d2, h4⟩ :=
        unwrap_ends (g := fun u => copyInStr u (s.phys.mem.word q.2)) h2
      obtain ⟨p2, r, hr, hnul, hb⟩ := copyIn_str hs₁ hm₁ (by
        rw [USIZE_eq]
        exact Bytes.word_lt _ _) h3
      obtain ⟨_, s₃, tr₃, tr₄, h5, h6, -⟩ := h4.bind
      have hidle := heapUse_ends h5
      have hsame : Same s s₃ := ⟨by rw [hidle.phys, p2, p1], by rw [hidle.data, d2, d1]⟩
      obtain ⟨a', s₄, tr₅, tr₆, h7, h8, -⟩ := h6.bind
      obtain ⟨rfl, rfl, hlt⟩ := add_ends h7
      obtain ⟨l, s₅, tr₇, tr₈, h9, h10, -⟩ := h8.bind
      obtain ⟨rfl, rfl, -⟩ := h10.ret_inv
      obtain ⟨hs₃, hm₃⟩ := hsame.space hs hm
      obtain ⟨hl, hsame'⟩ := ih hs₃ hm₃ hlt h9
      rw [p1] at hr hnul hb
      rw [hsame.1, Sys.root, hsame.2] at hl
      rw [d1] at hr
      exact ⟨⟨q, r, hq, h0, hr, hnul, hb, hl⟩, hsame.trans hsame'⟩

/-- **`sys_exec`** reads the arguments and calls `kexec`. -/
theorem sysExec_ends (hst : OwnState c s i) (h : K.Ends c (sysExec c i) s tr () s') :
    ∃ path argv s₁ tr₁ s₂, StringsRead s.phys.mem (s.root i)
        (s.phys.mem.word ((s.data.process_table i).trapframe + Trapframe.a1)) argv ∧
      Same s s₁ ∧ K.Ends c (kexec c i path argv) s₁ tr₁ (.ok ()) s₂ ∧ Same s₂ s' := by
  obtain ⟨v₀, total, tab₀, hof₀, -, hsp₀⟩ := hst
  have hus : ∀ {m : Bytes} {a : Nat}, m.word a < USIZE := by
    rw [USIZE_eq]
    exact Bytes.word_lt _ _
  obtain ⟨x, s₁, tr₁, tr₂, h1, h2, -⟩ := h.bind
  obtain ⟨rfl, q1⟩ := trapframeRead_ends h1
  obtain ⟨y, s₂, tr₃, tr₄, h3, h4, -⟩ := h2.bind
  obtain ⟨rfl, q2⟩ := trapframeRead_ends h3
  have q2 := q1.trans q2
  obtain ⟨hs₂, hm₂⟩ := q2.space hsp₀ hof₀.mem
  obtain ⟨path, s₃, tr₅, h5, d3, h6⟩ := unwrap_ends (g := fun u => copyInStr u _) h4
  obtain ⟨p3, -⟩ := copyIn_str hs₂ hm₂ hus h5
  have q3 := q2.trans ⟨p3, d3⟩
  obtain ⟨hs₃, hm₃⟩ := q3.space hsp₀ hof₀.mem
  obtain ⟨argv, s₄, tr₆, tr₇, h7, h8, -⟩ := h6.bind
  obtain ⟨hread, q4⟩ := sysExecArgs_ends _ hs₃ hm₃ hus h7
  rw [q3.1, Sys.root, q3.2] at hread
  obtain ⟨_, s₅, tr₈, tr₉, h9, h10, -⟩ := h8.bind
  have hidle := heapUse_ends h9
  have q5 := (q3.trans q4).trans ⟨hidle.phys, hidle.data⟩
  obtain ⟨r, s₆, tr₁₀, tr₁₁, h11, h12, -⟩ := h10.bind
  obtain ⟨_, s₇, tr₁₂, tr₁₃, h13, h14, -⟩ := h12.bind
  cases r with
  | error e => exact (panic_ends h13).elim
  | ok u =>
    obtain ⟨-, rfl, -⟩ := h13.ret_inv
    have hidle' := heapUse_ends h14
    rw [q1.1, q1.2] at hread
    exact ⟨path, argv, s₅, tr₁₀, _, hread, q5, h11, hidle'.phys, hidle'.data⟩

theorem OwnState.same {s₁ : Sys} (hst : OwnState c s i) (h : Same s s₁) : OwnState c s₁ i := by
  obtain ⟨v, total, tab, hof, htf, hs⟩ := hst
  unfold OwnState
  rw [h.1, h.2]
  exact ⟨v, total, tab, hof, htf, hs⟩

/-! ## What it can read -/

/-- `copy_in_str` reads the string `l` at `a`. -/
def StringAt (m : Bytes) (root a : Nat) (l : List UInt8) : Prop :=
  ByteArray.validateUTF8 ⟨l.toArray⟩ ∧ ∃ q, Sv32.walk m root a = some q ∧
    m (q.2 + l.length) = 0 ∧ (∀ k < l.length, l[k]? = some (m (q.2 + k)) ∧ m (q.2 + k) ≠ 0) ∧
    ∀ k ≤ l.length, Readable (q.2 + k) 1

/-- The loop over `argv` reads `argv` at `a`. -/
def StringsAt (m : Bytes) (root : Nat) : Nat → List (List UInt8) → Prop
  | a, [] => ∃ q, Sv32.walk m root a = some q ∧ (∀ k < 4, Readable (q.2 + k) 1) ∧ m.word q.2 = 0
  | a, arg :: argv => a + 4 < USIZE ∧ ∃ q, Sv32.walk m root a = some q ∧
      (∀ k < 4, Readable (q.2 + k) 1) ∧ m.word q.2 ≠ 0 ∧ StringAt m root (m.word q.2) arg ∧
      StringsAt m root (a + 4) argv

theorem readStr_ok {p : Phys} (n : Nat) : ∀ {a : Nat} {l : List UInt8}, l.length < n →
    p.mem (a + l.length) = 0 → (∀ k < l.length, l[k]? = some (p.mem (a + k)) ∧ p.mem (a + k) ≠ 0) →
    (∀ k ≤ l.length, Readable (a + k) 1) → (readStr a n).run c p = .ok (l, p) := by
  induction n with
  | zero => exact fun h _ _ _ => absurd h (Nat.not_lt_zero _)
  | succ n ih =>
    intro a l hn h0 hb hr
    unfold readStr
    rw [(readByte_ok (a := a) (hr 0 (Nat.zero_le _)) _).1]
    cases l with
    | nil =>
      rw [if_pos (show p.mem a = 0 from h0)]
      rfl
    | cons b l =>
      obtain ⟨hb0, hne⟩ := hb 0 (Nat.succ_pos _)
      have hb0 : b = p.mem a := Option.some.inj hb0
      rw [if_neg (show ¬ p.mem a = 0 from hne)]
      refine ((map_run _ _).2 _ _).2 ⟨l, ih (by simpa using hn) ?_ (fun k hk => ?_) (fun k hk => ?_), ?_⟩
      · rw [← h0, List.length_cons]
        congr 1
        omega
      · have := hb (k + 1) (by simpa using hk)
        rwa [List.getElem?_cons_succ, ← Nat.add_assoc, Nat.add_right_comm] at this
      · have := hr (k + 1) (by simpa using hk)
        rwa [← Nat.add_assoc, Nat.add_right_comm] at this
      · rw [hb0]

theorem StringAt.copyIn {u : Uvm} {p : Phys} {a : Nat} {l : List UInt8} (hs : Space c v u tab)
    (hm : v.mem = p.mem) (ha : a < USIZE) (h : StringAt p.mem u.pagetable.root a l) :
    (copyInStr u a).run c p = .ok (.ok l, p) := by
  obtain ⟨hu, q, hq, h0, hb, hr⟩ := h
  unfold copyInStr
  rw [(walkaddr_run hs hm ha _).1, hq]
  dsimp only [Option.map_some]
  have hlen : l.length < RAMEND - q.2 + 1 := by
    have := (hr l.length (Nat.le_refl _)).2
    omega
  refine ((map_run _ _).2 _ _).2 ⟨l, readStr_ok _ hlen h0 hb hr, ?_⟩
  unfold fromUtf8
  rw [if_pos hu]

theorem copyIn_reads {u : Uvm} {p : Phys} {a : Nat} {q : Nat × Nat} (hs : Space c v u tab)
    (hm : v.mem = p.mem) (ha : a < USIZE) (hq : Sv32.walk p.mem u.pagetable.root a = some q)
    (hr : ∀ k < 4, Readable (q.2 + k) 1) :
    ∃ bs, (BareMetal.copyIn u a 4).run c p = .ok (.ok bs, p) ∧ leWord bs = p.mem.word q.2 := by
  obtain ⟨bs, hrun⟩ := readBytes_ok (c := c) (s := p) 4 hr
  refine ⟨bs, ?_, leWord_word (readBytes_run 4 hrun).2.1 (readBytes_run 4 hrun).2.2⟩
  unfold BareMetal.copyIn
  rw [(walkaddr_run hs hm ha _).1, hq]
  exact ((map_run _ _).2 _ _).2 ⟨bs, hrun, rfl⟩

/-- `f(&mut proc.pagetable, ..).unwrap()` of code that reads, and what follows. -/
theorem always_unwrap {α β : Type} {P : MemOp → Phys → Prop} {g : Uvm → M (Except Unit α)}
    {f : α → K β} {b : α} {Q : β → Sys → Prop}
    (hr : (g (s.data.process_table i).pagetable).run c s.phys = .ok (.ok b, s.phys))
    (hP : ∀ o x, P o x) (hh : LockId.heap ∉ s.locks.held)
    (h : ∀ s₁, Same s s₁ → s₁.locks.held = s.locks.held → Always c P (f b) Q s₁) :
    Always c P (do f (← unwrapOk (← lift (g (← proc i).pagetable)))) Q s := by
  obtain ⟨tr, he⟩ := Free.run_ends hr
  refine always_bind (always_proc (always_bind (always_lift he (fun _ _ => hP _ _) hh ?_)))
  exact fun s₁ hp hd hl => always_bind (h s₁ ⟨hp, hd⟩ hl)

theorem always_trapframeRead {P : MemOp → Phys → Prop} {k : Nat} {Q : Nat → Sys → Prop}
    (hr : Readable ((s.data.process_table i).trapframe + k) 4) (hP : ∀ o x, P o x)
    (hh : LockId.heap ∉ s.locks.held) (h : ∀ s₁, Same s s₁ → s₁.locks.held = s.locks.held →
      Q (s.phys.mem.word ((s.data.process_table i).trapframe + k)) s₁) :
    Always c P (trapframeRead i k) Q s := by
  obtain ⟨tr, he⟩ := Free.run_ends (M.quiet_read (c := c) (s := s.phys) hr).1
  exact always_bind (always_proc (always_lift he (fun _ _ => hP _ _) hh
    fun s₁ hp hd hl => h s₁ ⟨hp, hd⟩ hl))

theorem sysExecArgs_always {P : MemOp → Phys → Prop} (hP : ∀ o x, P o x) (n : Nat) :
    ∀ {a : Nat} {s : Sys} {argv : List (List UInt8)}, argv.length < n →
    Space c v (s.data.process_table i).pagetable tab → v.mem = s.phys.mem → a < USIZE →
    LockId.heap ∉ s.locks.held → StringsAt s.phys.mem (s.root i) a argv →
    Always c P (sysExecArgs i n a) (fun r s₁ => r = argv ∧ Same s s₁ ∧
      s₁.locks.held = s.locks.held) s := by
  induction n with
  | zero => exact fun h _ _ _ _ _ => absurd h (Nat.not_lt_zero _)
  | succ n ih =>
    intro a s argv hn hs hm ha hh h
    unfold sysExecArgs
    cases argv with
    | nil =>
      obtain ⟨q, hq, hr, h0⟩ := h
      obtain ⟨bs, hrun, hw⟩ := copyIn_reads hs hm ha hq hr
      refine always_unwrap (g := fun u => copyIn u a 4) hrun hP hh fun s₁ hsame hl => ?_
      rw [hw, if_pos h0]
      exact ⟨rfl, hsame, hl⟩
    | cons arg argv =>
      obtain ⟨hlt, q, hq, hr, h0, hstr, hrest⟩ := h
      obtain ⟨bs, hrun, hw⟩ := copyIn_reads hs hm ha hq hr
      refine always_unwrap (g := fun u => copyIn u a 4) hrun hP hh fun s₁ hsame₁ hl₁ => ?_
      rw [hw, if_neg h0]
      obtain ⟨hs₁, hm₁⟩ := hsame₁.space hs hm
      have hroot : s₁.root i = s.root i := by rw [Sys.root, hsame₁.2]
      rw [← hsame₁.1, ← hroot] at hstr hrest
      have hword : s.phys.mem.word q.2 < USIZE := by
        rw [USIZE_eq]
        exact Bytes.word_lt _ _
      rw [hsame₁.1] at hstr
      refine always_unwrap (g := fun u => copyInStr u (s.phys.mem.word q.2))
        (StringAt.copyIn hs₁ hm₁ hword (by rw [hsame₁.1]; exact hstr)) hP (by rwa [hl₁])
        fun s₂ hsame₂ hl₂ => ?_
      refine always_bind (always_heapUse (by rwa [hl₂, hl₁]) fun s₃ hp₃ hd₃ hl₃ => ?_)
      refine always_bind (always_add hlt ?_)
      have hsame₃ : Same s₁ s₃ := hsame₂.trans ⟨hp₃, hd₃⟩
      obtain ⟨hs₃, hm₃⟩ := hsame₃.space hs₁ hm₁
      refine always_bind ((ih (by simpa using hn) hs₃ hm₃ hlt (by rwa [hl₃, hl₂, hl₁]) (by
        rwa [hsame₃.1, Sys.root, hsame₃.2])).mono fun r s₄ hq => ?_)
      obtain ⟨rfl, hsame₄, hl₄⟩ := hq
      exact ⟨rfl, (hsame₁.trans hsame₃).trans hsame₄, by rw [hl₄, hl₃, hl₂, hl₁]⟩

/-- **`sys_exec` returns** where the caller's registers lead to a path of a program and to arguments
that fit, and there are frames for the program. -/
theorem OwnState.sysExec_runs (hc : c.Eager) (hst : OwnState c s i) (hh : LockId.heap ∉ s.locks.held)
    {path : List UInt8} {argv : List (List UInt8)} {img : Slice}
    (hpath : StringAt s.phys.mem (s.root i)
      (s.phys.mem.word ((s.data.process_table i).trapframe + Trapframe.a0)) path)
    (hargv : StringsAt s.phys.mem (s.root i)
      (s.phys.mem.word ((s.data.process_table i).trapframe + Trapframe.a1)) argv)
    (hn : argv.length < USIZE / 4 + 1) (hp : program c path = some img)
    (hmem : programFrames img ≤ s.phys.free.length) (hf : StackFits (stackBase img) argv)
    (hend : USER_START + (s.data.process_table i).pagetable.size < USIZE) :
    ∃ tr s', K.Ends c (sysExec c i) s tr () s' := by
  obtain ⟨v, total, tab, hof, htf, hs⟩ := id hst
  have hframe := hof.frame _ ((hof.cover _).2 (.inl htf))
  have hread : ∀ k, k + 4 ≤ PAGESIZE → Readable ((s.data.process_table i).trapframe + k) 4 :=
    fun k hk => hframe.readable (pageOf_eq_of hframe.page (by omega)) (by
      rw [Nat.add_mod, hframe.page, Nat.zero_add, Nat.mod_mod]
      have := Nat.mod_le k PAGESIZE
      omega)
  have hword : ∀ k, s.phys.mem.word k < USIZE := fun k => by
    rw [USIZE_eq]
    exact Bytes.word_lt _ _
  have hP : ∀ (o : MemOp) (x : Phys), (fun _ _ => True : MemOp → Phys → Prop) o x :=
    fun _ _ => trivial
  have hA : Always c (fun _ _ => True) (sysExec c i) (fun _ _ => True) s := by
    refine always_bind (always_trapframeRead (hread _ (by rw [PAGESIZE_eq]; decide)) hP hh
      fun s₁ h₁ l₁ => ?_)
    refine always_bind (always_trapframeRead (by
      rw [h₁.2]
      exact hread _ (by rw [PAGESIZE_eq]; decide)) hP (by rwa [l₁]) fun s₂ h₂ l₂ => ?_)
    -- the registers are what they were
    rw [h₁.1, h₁.2]
    have h₂ := h₁.trans h₂
    have l₂ := l₂.trans l₁
    obtain ⟨hs₂, hm₂⟩ := h₂.space hs hof.mem
    refine always_unwrap (g := fun u => copyInStr u _) (StringAt.copyIn hs₂ hm₂ (hword _) (by
      rw [h₂.1, h₂.2]
      exact hpath)) hP (by rwa [l₂]) fun s₃ h₃ l₃ => ?_
    have h₃ := h₂.trans h₃
    have l₃ := l₃.trans l₂
    obtain ⟨hs₃, hm₃⟩ := h₃.space hs hof.mem
    refine always_bind ((sysExecArgs_always hP _ hn hs₃ hm₃ (hword _) (by rwa [l₃]) (by
      rwa [h₃.1, Sys.root, h₃.2])).mono fun r s₄ hq => ?_)
    obtain ⟨rfl, h₄, l₄⟩ := hq
    have h₄ := h₃.trans h₄
    have l₄ := l₄.trans l₃
    refine always_bind (always_heapUse (by rwa [l₄]) fun s₅ hp₅ hd₅ l₅ => ?_)
    have h₅ := h₄.trans ⟨hp₅, hd₅⟩
    have l₅ := l₅.trans l₄
    have hg : KexecGoes s₅ i img r := by
      have hpos := imageFrames_lt img
      refine ⟨fun he => ?_, fun _ => by rw [h₅.1]; exact hmem, fun _ => hf.down, fun _ _ => by
        rw [h₅.2]; exact hend⟩
      rw [← h₅.1, he, List.length_nil] at hmem
      omega
    obtain ⟨f, hk⟩ := (hst.same h₅).kexec_always hc (by rwa [l₅]) hp hg
    refine always_bind ((hk.ops fun _ _ _ => trivial).mono fun r₁ s₆ hq => ?_)
    obtain rfl := hq.1.ok_iff.2 ⟨by rw [h₅.1]; exact hmem, hf⟩
    exact always_bind (always_heapUse (by rw [hq.2.1, l₅]; exact hh) fun _ _ _ _ => trivial)
  obtain ⟨tr, ⟨⟩, s', he, -⟩ := hA.ends
  exact ⟨tr, s', he⟩

end

end BareMetal
