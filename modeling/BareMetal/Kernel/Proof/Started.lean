import BareMetal.Kernel.Proof.Discipline
import BareMetal.Kernel.Proof.Fork
import BareMetal.Kernel.Proof.Program

/-!
# The boot goes through

With frames to spare `main` makes the processes, loads init and comes to the scheduler
(`main_always`). `Machine.Reach.always`: code that always ends takes a machine to what follows it.
So there is a machine in which the scheduler begins a pass (`Machine.boot_pass`).
-/

namespace BareMetal

open Lib K

/-! ## Code that gives its locks back -/

namespace K

/-- What the code takes of locks it gives back. -/
def Balanced {α : Type} (c : Cfg) (p : K α) : Prop :=
  ∀ s tr a s', Ends c p s tr a s' → SameLocks s s'

variable {c : Cfg} {α β : Type}

theorem balanced_pure (a : α) : Balanced c (pure a) := fun _ _ _ _ h => by
  obtain ⟨-, rfl, -⟩ := h.ret_inv
  exact .of_eq rfl

theorem balanced_bind {p : K α} {f : α → K β} (hp : Balanced c p) (hf : ∀ a, Balanced c (f a)) :
    Balanced c (p >>= f) := fun _ _ _ _ h => by
  obtain ⟨a, s₁, tr₁, tr₂, h1, h2, -⟩ := h.bind
  exact (hp _ _ _ _ h1).trans (hf a _ _ _ _ h2)

theorem balanced_lift (p : M α) : Balanced c (lift p) := fun _ _ _ _ h => lift_same h

theorem balanced_proc (i : Nat) : Balanced c (proc i) := fun _ _ _ _ h => by
  obtain ⟨-, rfl⟩ := proc_ends h
  exact .of_eq rfl

theorem balanced_setProc (i : Nat) (f : Process → Process) : Balanced c (setProc i f) := by
  intro s tr a s' h
  obtain rfl := setProc_ends h
  exact .of_eq rfl

theorem balanced_heapUseLoop (n : Nat) : Balanced c (heapUseLoop n) := by
  induction n with
  | zero => exact balanced_pure ()
  | succ n ih =>
    intro s tr a s' h
    obtain ⟨u, s₁, tr₁, tr₂, h1, h2, -⟩ := h.bind
    obtain ⟨u', s₂, tr₃, tr₄, h3, h4, -⟩ := h2.bind
    exact (locked_same h1 (.of_eq rfl) h3).trans (ih _ _ _ _ h4)

theorem balanced_heapUse : Balanced c heapUse := fun _ _ _ _ h => by
  obtain ⟨n, s₁, tr₁, tr₂, h1, h2, -⟩ := h.bind
  obtain ⟨⟨t, k, hx⟩, -⟩ := perform_ends h1
  cases hx
  exact balanced_heapUseLoop n _ _ _ _ h2

theorem balanced_note (e : Event) : Balanced c (note e) := by
  intro s tr a s' h
  obtain rfl := note_ends h
  exact .of_eq rfl

theorem balanced_replacePagetable (i : Nat) (u : Uvm) : Balanced c (replacePagetable i u) :=
  balanced_bind (balanced_setProc i _) fun _ => balanced_bind (balanced_proc i) fun _ =>
    balanced_bind (balanced_lift _) fun _ => balanced_setProc i _

theorem balanced_kexecOwned (i : Nat) (path : List UInt8) (argv : List (List UInt8)) :
    Balanced c (kexecOwned c i path argv) := by
  have hw : ∀ {k x : Nat} {p : K (Except Unit Unit)}, Balanced c p →
      Balanced c (proc i >>= fun q => lift (M.write (q.trapframe + k) x) >>= fun _ => p) :=
    fun hp => balanced_bind (balanced_proc i) fun _ => balanced_bind (balanced_lift _) fun _ => hp
  have hdrop : ∀ u : Uvm, Balanced c (lift u.drop >>= fun _ => (pure (Except.error ()) : K (Except Unit Unit))) := fun u =>
    balanced_bind (balanced_lift _) fun _ => balanced_pure _
  unfold kexecOwned
  cases program c path with
  | none => exact fun _ _ _ _ h => (panic_ends h).elim
  | some img =>
    refine balanced_bind (balanced_lift _) fun u => balanced_bind (balanced_proc i) fun p =>
      balanced_bind (balanced_lift _) fun r => ?_
    obtain ⟨r, u⟩ := r
    cases r with
    | error e => exact hdrop u
    | ok e =>
      refine balanced_bind (balanced_lift _) fun r => balanced_bind balanced_heapUse fun _ => ?_
      cases r with
      | error e => exact hdrop u
      | ok sp =>
        exact balanced_bind (balanced_note _) fun _ => hw (hw (balanced_bind
          (balanced_replacePagetable i u) fun _ =>
            hw (hw (balanced_bind (balanced_note _) fun _ => balanced_pure _))))

theorem balanced_kexec (i : Nat) (path : List UInt8) (argv : List (List UInt8)) :
    Balanced c (kexec c i path argv) :=
  balanced_bind (balanced_kexecOwned i path argv) fun _ => balanced_bind balanced_heapUse fun _ =>
    balanced_pure _

section
variable {s : Sys} {j : Nat} {v : View} {total P : Finset Nat} {m₀ : Bytes}

/-- `(proc j).pagetable = u` gives its locks back. -/
theorem always_newPagetable {u : Uvm} {β : Type} {f : Unit → K β} {Q : β → Sys → Prop}
    {tab : Nat → Option Nat} (hc : c.Eager) (hof : v.Of c total m₀ s.phys)
    (hh : LockId.heap ∉ s.locks.held) (hP : ∀ f ∈ P, f ∈ v.own)
    (hs : Space c { v with own := P } (s.data.process_table j).pagetable tab)
    (hend : USER_START + (s.data.process_table j).pagetable.size < USIZE)
    (h : ∀ v' s', View.Of c total m₀ v' s'.phys → (∀ f ∈ v.own, f ∉ P → f ∈ v'.own) →
      v'.own ⊆ v.own →
      s'.data = s.data.updProc j (fun p => { p with pagetable := u, dropping := false }) →
      SameLocks s s' → Always c (fun _ _ => True) (f ()) Q s') :
    Always c (fun _ _ => True) (replacePagetable j u >>= f) Q s := by
  have ha := always_replacePagetable (u := u) (f := Free.ret)
    (P := fun _ _ => True) (Q := fun _ s' => ∃ v', View.Of c total m₀ v' s'.phys ∧
      (∀ f ∈ v.own, f ∉ P → f ∈ v'.own) ∧ v'.own ⊆ v.own ∧
      s'.data = s.data.updProc j (fun p => { p with pagetable := u, dropping := false }))
    hc hof hh hP hs hend (fun _ _ _ _ => trivial)
    fun v' s' hof' hold hsub _ hd _ => ⟨v', hof', hold, hsub, hd⟩
  rw [Free.bind_ret] at ha
  refine always_bind ((ha.and_ends fun _ _ _ he => balanced_replacePagetable j u _ _ _ _ he).mono
    fun _ s' hq => ?_)
  obtain ⟨⟨v', hof', hold, hsub, hd⟩, hl⟩ := hq
  exact h v' s' hof' hold hsub hd hl

end

end K

/-! ## The processes -/

/-- Slot `j` has the address space and the box of a new process; the party does not own the address
space. -/
structure Spared (c : Cfg) (s : Sys) (v : View) (total : Finset Nat) (m₀ : Bytes) (j : Nat) :
    Prop where
  new : ∃ r f, (s.data.process_table j).IsNew j r f ∧ r ∉ total ∧
    Tree c ⟨{r}, m₀⟩ r (fun _ => none) ∧ f ∈ v.own

/-- The kernel has made `n` processes, and `k` frames are left; it has not touched its image, which
was in `m₁` at the start. -/
structure Stocked (c : Cfg) (m₁ : Bytes) (s : Sys) (n k root : Nat) : Prop where
  image : c.SameImage m₁ s.phys.mem
  kvm : s.data.kvm = some ⟨root⟩
  nproc : s.data.nproc = n
  kstack : ∀ j < n, (s.data.process_table j).kstack = kstackAddr j
  memory : ∃ v total m₀ tab fr, v.Of c total m₀ s.phys ∧ KvmInv c v root tab (StackPages n) fr ∧
    v.own.card + k ≤ total.card ∧ ∀ j < n, Spared c s v total m₀ j

section
variable {c : Cfg} {s s' : Sys} {i j : Nat} {v v' : View} {total : Finset Nat} {m₀ m₁ : Bytes}

theorem View.Of.sameImage {p p' : Phys} (h : v.Of c total m₀ p) (h' : v'.Of c total m₀ p') :
    c.SameImage p.mem p'.mem := fun a ha => by
  have hno : pageOf a ∉ total := fun hf => ha (h.frame _ hf)
  rw [h.same a hno, h'.same a hno]

theorem Spared.congr {total' : Finset Nat} (h : Spared c s v total m₀ j)
    (hp : s'.data.process_table j = s.data.process_table j) (ht : ∀ f ∈ total', f ∈ total)
    (hm : ∀ a, pageOf a ∉ total → m₁ a = m₀ a) (ho : ∀ f ∈ v.own, f ∈ v'.own) :
    Spared c s' v' total' m₁ j := by
  obtain ⟨r, f, hn, hr, hz, hb⟩ := h.new
  refine ⟨r, f, by rwa [hp], fun h => hr (ht r h), hz.congr (fun g hg => hz.has_own hg)
    fun a ha => hm a ?_, ho f hb⟩
  rw [Finset.mem_singleton.1 (hz.has_own ha)]
  exact hr

/-- The party gives away a frame with its memory. -/
theorem View.Of.cede {m : Bytes} {o : Finset Nat} {r : Nat} {p : Phys}
    (h : View.Of c total m₀ ⟨insert r o, m⟩ p) (hr : r ∉ o) :
    View.Of c (total.erase r) m ⟨o, m⟩ p where
  mem := h.mem
  same a _ := congrFun h.mem.symm a
  nodup := h.nodup
  disj f hf := h.disj f (Finset.mem_insert_of_mem hf)
  cover f := by
    have hd := h.disj r (Finset.mem_insert_self _ _)
    rw [Finset.mem_erase, h.cover]
    dsimp only
    rw [Finset.mem_insert]
    constructor
    · rintro ⟨hne, (rfl | hf) | hf⟩
      · exact (hne rfl).elim
      · exact .inl hf
      · exact .inr hf
    · rintro (hf | hf)
      · exact ⟨fun he => hr (he ▸ hf), .inl (.inr hf)⟩
      · exact ⟨fun he => hd (he ▸ hf), .inr hf⟩
  frame f hf := h.frame f (Finset.mem_of_mem_erase hf)

/-- Memory code with frames to spare. -/
theorem always_plenty {α β : Type} {p : M α} {f : α → K β} {R : α → View → Prop}
    {Q : β → Sys → Prop} (hc : c.Eager) (hof : v.Of c total m₀ s.phys)
    (hh : LockId.heap ∉ s.locks.held) (hwp : M.wp (plenty c total.card) p R v)
    (h : ∀ a v' s', p.run c s.phys = .ok (a, s'.phys) → v'.Of c total m₀ s'.phys → R a v' →
      s'.data = s.data → SameLocks s s' → K.Always c (fun _ _ => True) (f a) Q s') :
    K.Always c (fun _ _ => True) (lift p >>= f) Q s := by
  obtain ⟨tr, a, x, v', he, hof', hr, -⟩ :=
    M.wp_total (E := plenty c total.card) rfl id (plenty_oom hc total) hof hwp
  have hrun : K.Always c (fun _ _ => True) (lift p)
      (fun b s' => b = a ∧ s'.phys = x ∧ s'.data = s.data) s :=
    always_lift he (fun _ _ => trivial) hh fun s' hp hd _ => ⟨rfl, hp, hd⟩
  refine always_bind ((hrun.and_ends fun _ _ _ h => lift_same h).mono fun b s' hb => ?_)
  obtain ⟨⟨rfl, rfl, hd⟩, hl⟩ := hb
  exact h b v' s' he.run hof' hr hd hl

theorem always_print {Q : Unit → Sys → Prop} (hh : LockId.heap ∉ s.locks.held)
    (h : ∀ s', s'.phys = s.phys → s'.data = s.data → SameLocks s s' → Q () s') :
    K.Always c (fun _ _ => True) K.heapUse Q s :=
  ((always_heapUse (Q := fun _ s' => s'.phys = s.phys ∧ s'.data = s.data) hh
    fun _ hp hd _ => ⟨hp, hd⟩).and_ends fun _ _ _ he => balanced_heapUse _ _ _ _ he).mono
      fun _ s' hq => h s' hq.1.1 hq.1.2 hq.2

theorem always_initprocLoop {root : Nat} {Q : Unit → Sys → Prop} (hc : c.Eager) (k n : Nat) :
    ∀ {s : Sys} {i : Nat}, Stocked c m₁ s i (2053 * n + k) root → 4 * (i + n) ≤ 15872 →
      LockId.heap ∉ s.locks.held →
      (∀ s', Stocked c m₁ s' (i + n) k root → s'.data.pid = s.data.pid → SameLocks s s' → Q () s') →
      K.Always c (fun _ _ => True) (initprocLoop ⟨root⟩ n i) Q s := by
  induction n with
  | zero =>
    intro s i h _ hh hQ
    rw [Nat.mul_zero, Nat.zero_add] at h
    exact hQ s h rfl (.of_eq rfl)
  | succ n ih =>
    intro s i h hmax hh hQ
    obtain ⟨v, total, m₀, tab, fr, hof, hk, hcard, hsp⟩ := h.memory
    have hfew : 4 * i ≤ 15872 := by omega
    have hfit := (stack_bounds hfew).1
    unfold initprocLoop
    -- the process
    refine always_plenty (R := fun p v' => ∃ r f m, p.IsNew i r f ∧
        r ∉ insert f v.own ∧ v' = ⟨insert r (insert f v.own), m⟩ ∧
        Tree c ⟨{r}, m⟩ r (fun _ => none) ∧
        f ∉ v.own ∧ ∀ a, pageOf a ∈ v.own → m a = v.mem a) hc hof hh
      (wp_processNew hfit (plenty_enough (by omega)) fun p v' r f hn hr _ hf ho hm hs => ?_)
      fun p v₁ s₁ _ hof₁ hR d1 l1 => ?_
    · have hrf : r ≠ f := fun he => hf (he ▸ Finset.mem_insert_self _ _)
      refine ⟨r, f, v'.mem, hn, fun h => ?_, ?_, hs.tree.congr (fun g hg => ?_) (fun _ _ => rfl),
        fun h => hf (Finset.mem_insert_of_mem h), fun a ha => hm a ?_ ?_⟩
      · rcases Finset.mem_insert.1 h with he | h
        · exact hrf he
        · exact hr h
      · rw [Finset.insert_comm, ← ho]
      · obtain rfl | ⟨k, hk⟩ := hg
        · exact Finset.mem_singleton_self _
        · cases hk
      · exact fun he => hr (he ▸ ha)
      · exact fun he => hf (Finset.mem_insert_of_mem (he ▸ ha))
    obtain ⟨r, f, m, hnew, hr, rfl, hz, hf, hm⟩ := hR
    have hrt : r ∈ total := (hof₁.cover r).2 (.inl (Finset.mem_insert_self _ _))
    have hk₁ : KvmInv c ⟨insert f v.own, m⟩ root tab (StackPages i) fr :=
      hk.congr (fun g hg => Finset.mem_insert_of_mem hg) hm
    have hc₁ : (insert f v.own).card = v.own.card + 1 := Finset.card_insert_of_notMem hf
    have ht₁ : (total.erase r).card = total.card - 1 := Finset.card_erase_of_mem hrt
    -- its stack
    have hof₁' : View.Of c (total.erase r) m ⟨insert f v.own, m⟩ s₁.phys := hof₁.cede hr
    refine always_plenty (R := fun _ v' => ∃ tab' fr', KvmInv c v' root tab' (StackPages (i + 1)) fr' ∧
        (∀ g ∈ insert f v.own, g ∈ v'.own) ∧ v'.own.card ≤ v.own.card + 2051) hc hof₁'
      (by rwa [l1.1]) (wp_allocKstack hfit hk₁ (stack_free hfew) (plenty_enough ?_)
        fun v' tab' fr' hk ht hle => ⟨tab', fr', hk.pages fun q => (stackPages_succ hfew q).symm,
          ht.sub, ?_⟩) fun _ v₂ s₂ _ hof₂ hR d2 l2 => ?_
    · unfold KERNEL_STACK_PAGES
      dsimp only
      omega
    · unfold KERNEL_STACK_PAGES at hle
      dsimp only at hle
      omega
    obtain ⟨tab', fr', hk₂, hsub, hle⟩ := hR
    -- the table
    refine always_bind (always_print (by rwa [l2.1, l1.1]) fun s₃ p3 d3 l3 =>
      always_bind (always_set ?_))
    have hd₃ : s₃.data = s.data := by rw [d3, d2, d1]
    have hold : ∀ {j}, j ≠ i → Function.update s₃.data.process_table i p j =
        s.data.process_table j := fun hji => by rw [Function.update_of_ne hji, hd₃]
    have hst : Stocked c m₁ { s₃ with data := { s₃.data with
        process_table := Function.update s₃.data.process_table i p, nproc := i + 1 } } (i + 1)
        (2053 * n + k) root := by
      refine ⟨?_, (congrArg Data.kvm hd₃).trans h.kvm, rfl, fun j hj => ?_, v₂, total.erase r, m, tab', fr',
        by rw [p3]; exact hof₂, hk₂, by omega, fun j hj => ?_⟩
      · refine h.image.trans ((hof.sameImage hof₁).trans ?_)
        show c.SameImage s₁.phys.mem s₃.phys.mem
        rw [p3]
        exact hof₁'.sameImage hof₂
      · show (Function.update s₃.data.process_table i p j).kstack = kstackAddr j
        by_cases hji : j = i
        · subst hji
          rw [Function.update_self]
          exact hnew.kstack
        · rw [hold hji]
          exact h.kstack j (by omega)
      · by_cases hji : j = i
        · subst hji
          refine ⟨r, f, ?_, Finset.notMem_erase _ _, hz, hsub f (Finset.mem_insert_self _ _)⟩
          show (Function.update s₃.data.process_table j p j).IsNew j r f
          rw [Function.update_self]
          exact hnew
        · refine (hsp j (by omega)).congr (hold hji) (fun g hg => Finset.mem_of_mem_erase hg)
            (fun a ha => ?_) fun g hg => hsub g (Finset.mem_insert_of_mem hg)
          have hmem : m a = s₁.phys.mem a := congrFun hof₁.mem a
          rw [hmem]
          exact hof₁.same a ha
    refine ih hst (by omega) ?_ fun s' hs' hp hl' => hQ s' ?_ ?_ ?_
    · show LockId.heap ∉ s₃.locks.held
      rwa [l3.1, l2.1, l1.1]
    · rw [show i + (n + 1) = i + 1 + n by omega]
      exact hs'
    · rw [hp]
      show s₃.data.pid = s.data.pid
      rw [hd₃]
    · have hlocks := (l1.trans l2).trans l3
      exact hlocks.trans (hl'.congr rfl rfl)

theorem always_initproc {root : Nat} {Q : Except Unit Unit → Sys → Prop} (hc : c.Eager) {k n : Nat}
    (h : Stocked c m₁ s i (2053 * n + k) root) (hmax : 4 * (i + n) ≤ 15872)
    (hh : LockId.heap ∉ s.locks.held)
    (hQ : ∀ s', Stocked c m₁ s' (i + n) k root → s'.data.pid = s.data.pid → SameLocks s s' →
      Q (.ok ()) s') :
    K.Always c (fun _ _ => True) (initproc n) Q s := by
  unfold initproc
  refine always_bind (always_get ?_)
  rw [h.kvm, h.nproc]
  exact always_bind ((always_initprocLoop hc k n h hmax hh hQ))

/-! ## Init -/

/-- An empty address space with a box. -/
theorem OwnState.empty {r f : Nat} (hr : Tree c ⟨{r}, s.phys.mem⟩ r fun _ => none)
    (hf : c.IsFrame f) (hn : (r :: f :: s.phys.free).Nodup)
    (hfr : ∀ g ∈ s.phys.free, c.IsFrame g)
    (hu : (s.data.process_table i).pagetable = ⟨USER_START, 0, ⟨r⟩⟩)
    (ht : (s.data.process_table i).trapframe = f) : OwnState c s i := by
  obtain ⟨hrn, hn⟩ := List.nodup_cons.1 hn
  obtain ⟨hfn, hn⟩ := List.nodup_cons.1 hn
  have hrf : r ≠ f := fun he => hrn (he ▸ List.mem_cons_self)
  refine ⟨⟨{f, r}, s.phys.mem⟩, {f, r} ∪ s.phys.free.toFinset, fun _ => none, ⟨rfl, fun _ _ => rfl,
    hn, fun g hg => ?_, fun g => ?_, fun g hg => ?_⟩, ?_, ?_⟩
  · rcases Finset.mem_insert.1 hg with rfl | hg
    · exact hfn
    · rw [Finset.mem_singleton.1 hg]
      exact fun hm => hrn (List.mem_cons_of_mem _ hm)
  · rw [Finset.mem_union, List.mem_toFinset]
  · rw [Finset.mem_union, List.mem_toFinset] at hg
    rcases hg with hg | hg
    · rcases Finset.mem_insert.1 hg with rfl | hg
      · exact hf
      · rw [Finset.mem_singleton.1 hg]
        exact hr.root_frame
    · exact hfr g hg
  · rw [ht]
    exact Finset.mem_insert_self _ _
  · rw [hu, ht]
    refine .new ?_
    rwa [Finset.erase_insert fun hm => hrf (Finset.mem_singleton.1 hm).symm]

theorem always_lock_count {l : LockId} {Q : Unit → Sys → Prop} (hl : l ∉ s.locks.held)
    (h : ∀ s', s'.phys = s.phys → s'.data = s.data → s'.locks.held = insert l s.locks.held →
      s'.locks.interrupt_off_stack = s.locks.interrupt_off_stack + 1 → Q () s') :
    K.Always c (fun _ _ => True) (lock l) Q s :=
  ((always_lock (Q := fun _ s' => s'.phys = s.phys ∧ s'.data = s.data) hl
    fun _ hp hd _ _ => ⟨hp, hd⟩).and_ends fun _ _ _ he => lock_takes he).mono
      fun _ s' hq => h s' hq.1.1 hq.1.2 hq.2.2.1 hq.2.2.2

theorem always_release_count {l : LockId} {Q : Unit → Sys → Prop}
    (hs : 1 ≤ s.locks.interrupt_off_stack)
    (h : ∀ s', s'.phys = s.phys → s'.data = s.data → s'.locks.held = s.locks.held.erase l →
      s'.locks.interrupt_off_stack = s.locks.interrupt_off_stack - 1 → Q () s') :
    K.Always c (fun _ _ => True) (release l) Q s :=
  ((always_release (Q := fun _ s' => s'.phys = s.phys ∧ s'.data = s.data) hs
    fun _ hp hd _ => ⟨hp, hd⟩).and_ends fun _ _ _ he => release_gives he).mono
      fun _ s' hq => h s' hq.1.1 hq.1.2 hq.2.1 hq.2.2

/-- Slot 0 has become the first process. -/
structure Claimed (c : Cfg) (s s' : Sys) : Prop where
  own : OwnState c s' 0
  size : (s'.data.process_table 0).pagetable.size = 0
  first : ∃ g sp, s'.data.process_table 0 = { s.data.process_table 0 with
    pid := some 0, state := .Used, trapframe := g, unboxing := false, context := .forkret sp }
  others : ∀ j, j ≠ 0 → s'.data.process_table j = s.data.process_table j
  nproc : s'.data.nproc = s.data.nproc
  pid : s'.data.pid = s.data.pid + 1
  image : c.SameImage s.phys.mem s'.phys.mem

/-- `allocproc` finds slot 0 as `Process::new` left it. -/
theorem always_allocproc_first {n k root : Nat} {β : Type} {g : Option Nat → K β}
    {Q : β → Sys → Prop} (hc : c.Eager) (h : Stocked c m₁ s (n + 1) (k + 1) root)
    (hh : LockId.heap ∉ s.locks.held) (hl : LockId.proc 0 ∉ s.locks.held) (hp : s.data.pid = 0)
    (hQ : ∀ s', Claimed c s s' → k ≤ s'.phys.free.length → s'.locks.held = insert (.proc 0) s.locks.held →
      s'.locks.interrupt_off_stack = s.locks.interrupt_off_stack + 1 →
      K.Always c (fun _ _ => True) (g (some 0)) Q s') :
    K.Always c (fun _ _ => True) (allocproc >>= g) Q s := by
  have hus := USIZE_eq
  obtain ⟨v, total, m₀, tab, fr, hof, hk, hcard, hsp⟩ := h.memory
  obtain ⟨r, f, hnew, hrt, hz, hf⟩ := (hsp 0 (Nat.succ_pos n)).new
  have hks : (s.data.process_table 0).kstack + KERNEL_STACK_PAGES * PAGESIZE < USIZE := by
    rw [hnew.kstack]
    have := (kstackAddr_page (stack_bounds (i := 0) (by omega)).1).2.1
    have := trampoline_va.2.1
    omega
  have hfirst : FirstFree s 0 :=
    ⟨by rw [h.nproc]; omega, hnew.state, fun k hk => absurd hk (Nat.not_lt_zero k)⟩
  refine always_allocproc hfirst ?_
  unfold claimSlot
  refine always_bind (always_bind (always_get (always_bind (always_setProc (always_bind
    (always_add (by rw [hp, hus]; omega) (always_bind (always_set (always_bind
      (always_setProc ?_))))))))))
  show K.Always c _ (replaceTrapframe 0 Trapframe.newIn >>= fun _ => _) _
    { s with data := s.data.claim 0 }
  unfold replaceTrapframe
  -- the new box
  refine always_bind (always_plenty (R := fun g v' => c.IsFrame g ∧ g ∉ v.own ∧
      v'.own = insert g v.own) hc hof hh
    (World.wp_newIn (fun ho => plenty_enough (k := v.own.card) (by omega) _ ho (Nat.le_refl _))
      fun g v' hg hgo ho _ _ => ⟨hg, hgo, ho⟩) fun g v₁ s₁ hx₁ hof₁ hR d1 l1 => ?_)
  obtain ⟨hg, hgo, ho₁⟩ := hR
  refine always_bind (always_setProc (always_bind (always_proc ?_)))
  have htf : (s₁.data.process_table 0).trapframe = f := by
    rw [d1]
    show ((s.data.claim 0).process_table 0).trapframe = f
    rw [Data.claim_self]
    exact hnew.trapframe
  rw [Data.updProc_self, htf]
  have hgf : f ≠ g := fun he => hgo (he ▸ hf)
  -- the old one
  refine always_plenty (s := { s₁ with data := s₁.data.updProc 0 fun p => { p with unboxing := true } })
    (R := fun _ v' => v' = { v₁ with own := v₁.own.erase f }) hc hof₁
    (by rw [l1.1]; exact hh) (M.wp_dealloc (by rw [ho₁]; exact Finset.mem_insert_of_mem hf) rfl)
    fun _ v₂ s₂ hx₂ hof₂ hv d2 l2 => always_setProc ?_
  subst hv
  have hheld : s₂.locks.held = s.locks.held := l2.1.trans l1.1
  have hstack : s₂.locks.interrupt_off_stack = s.locks.interrupt_off_stack := l2.2.trans l1.2
  refine always_bind (always_lock_count (by
    show LockId.proc 0 ∉ s₂.locks.held
    rw [hheld]
    exact hl) fun s₃ p3 d3 h3 n3 => ?_)
  refine always_bind (always_setProc (always_bind (always_proc (always_bind (always_add ?_
    (always_bind (always_setProc ?_)))))))
  · simp only [d3, d2, d1, Data.updProc_self, Data.claim_self]
    exact hks
  have hfree : total.card = (v₁.own.erase f).card + s₂.phys.free.length := hof₂.card
  have hc₁ : (v₁.own.erase f).card = v.own.card := by
    rw [ho₁, Finset.erase_insert_of_ne hgf.symm, Finset.card_insert_of_notMem fun hx =>
      hgo (Finset.mem_of_mem_erase hx), Finset.card_erase_of_mem hf]
    have := Finset.card_pos.2 ⟨f, hf⟩
    omega
  have hgm : g ∈ v₁.own.erase f := by
    rw [ho₁]
    exact Finset.mem_erase.2 ⟨hgf.symm, Finset.mem_insert_self _ _⟩
  have hrs : Tree c ⟨{r}, s₂.phys.mem⟩ r fun _ => none := by
    refine hz.congr (fun g hg => hz.has_own hg) fun a ha => hof₂.same a ?_
    rw [Finset.mem_singleton.1 (hz.has_own ha)]
    exact hrt
  have hrf : r ∉ s₂.phys.free := fun hx => hrt ((hof₂.cover r).2 (.inr hx))
  have hgs : g ∉ s₂.phys.free := hof₂.disj g hgm
  have hrg : r ≠ g := fun he => hrt (he ▸ (hof₂.cover g).2 (.inl hgm))
  refine hQ _ ⟨.empty (r := r) (f := g) ?_ hg ?_ (fun x hx => ?_) ?_ ?_, ?_, ⟨g, (s.data.process_table 0).kstack + KERNEL_STACK_PAGES * PAGESIZE, ?_⟩,
    fun j hj => ?_, ?_, ?_, ?_⟩ ?_ ?_ ?_
  · show Tree c ⟨{r}, s₃.phys.mem⟩ r fun _ => none
    rw [p3]
    exact hrs
  · show (r :: g :: s₃.phys.free).Nodup
    rw [p3]
    refine List.nodup_cons.2 ⟨fun hx => ?_, List.nodup_cons.2 ⟨hgs, hof₂.nodup⟩⟩
    rcases List.mem_cons.1 hx with he | hx
    · exact hrg he
    · exact hrf hx
  · have hx : x ∈ s₃.phys.free := hx
    rw [p3] at hx
    exact hof₂.frame x ((hof₂.cover x).2 (.inr hx))
  · simp only [d3, d2, d1, Data.updProc_self, Data.claim_self]
    exact hnew.pagetable
  · simp only [d3, d2, d1, Data.updProc_self, Data.claim_self]
  · simp only [d3, d2, d1, Data.updProc_self, Data.claim_self]
    rw [hnew.pagetable]
  · simp only [d3, d2, d1, Data.updProc_self, Data.claim_self, hp]
  · simp only [d3, d2, d1, Data.updProc_ne _ _ hj, Data.claim_ne _ hj]
  · show s₃.data.nproc = _
    rw [d3]
    show s₂.data.nproc = _
    rw [d2, d1]
    rfl
  · show s₃.data.pid = _
    rw [d3]
    show s₂.data.pid = _
    rw [d2, d1]
    rfl
  · show c.SameImage s.phys.mem s₃.phys.mem
    rw [p3]
    exact hof.sameImage hof₂
  · show k ≤ s₃.phys.free.length
    rw [p3]
    show k ≤ s₂.phys.free.length
    omega
  · show s₃.locks.held = _
    rw [h3]
    exact congrArg _ hheld
  · show s₃.locks.interrupt_off_stack = _
    rw [n3]
    exact congrArg (· + 1) hstack

theorem always_kexec {path : List UInt8} {argv : List (List UInt8)} {img : Slice} (hc : c.Eager)
    (hst : OwnState c s i) (hh : LockId.heap ∉ s.locks.held) (hp : program c path = some img)
    (hmem : programFrames img ≤ s.phys.free.length) (hf : StackFits (stackBase img) argv)
    (hend : USER_START + (s.data.process_table i).pagetable.size < USIZE) :
    K.Always c (fun _ _ => True) (kexec c i path argv) (fun r s' => r = .ok () ∧ SameLocks s s' ∧
      s.phys.free.length ≤ s'.phys.free.length + programFrames img ∧ ∃ v tab fr, Execed c s s' i img argv v tab fr ∧
        Installed s s' i (execSp (stackBase img + PAGESIZE) argv)) s := by
  have hpos := imageFrames_lt img
  have hg : KexecGoes s i img argv :=
    ⟨fun he => by rw [he, List.length_nil] at hmem; omega, fun _ => hmem, fun _ => hf.down,
      fun _ _ => hend⟩
  obtain ⟨f, ha⟩ := hst.kexec_always hc hh hp hg
  refine ((ha.ops fun _ _ _ => trivial).and_ends (R := fun r s' => SameLocks s s' ∧ (r = .ok () →
    ∃ v tab fr, Execed c s s' i img argv v tab fr ∧
      Installed s s' i (execSp (stackBase img + PAGESIZE) argv))) fun tr r s' he => ?_).mono
    fun r s' hq => ?_
  · refine ⟨balanced_kexec i path argv _ _ _ _ he, fun hr => ?_⟩
    subst hr
    obtain ⟨img', v, tab, fr, hp', hx, hin⟩ := hst.execed he
    obtain rfl := Option.some.inj (hp'.symm.trans hp)
    exact ⟨v, tab, fr, hx, hin⟩
  · have hok := hq.1.1.ok_iff.2 ⟨hmem, hf⟩
    exact ⟨hok, hq.2.1, hq.1.2.2 hok, hq.2.2 hok⟩

end

/-- The first process is about to run the program `img`, the other slots are free, and so are `k`
frames. Memory was `m₁` at the start. -/
structure Started (c : Cfg) (m₁ : Bytes) (img : Slice) (argv : List (List UInt8)) (k : Nat)
    (s : Sys) : Prop where
  nproc : s.data.nproc = 4
  issued : s.data.pid = 1
  frames : k ≤ s.phys.free.length
  runnable : (s.data.process_table 0).state = .Runnable
  pid : (s.data.process_table 0).pid = some 0
  context : ∃ sp, (s.data.process_table 0).context = .forkret sp
  kstack : ∀ j < 4, (s.data.process_table j).kstack = kstackAddr j
  parent : ∀ j < 4, (s.data.process_table j).parent = none
  unused : ∀ j < 4, j ≠ 0 → (s.data.process_table j).state = .Unused
  empty : ∀ j < 4, j ≠ 0 → (s.data.process_table j).pagetable.size = 0
  quants : ∀ j < 4, (s.data.process_table j).quants = 0
  program : ∃ s₀ s₁ v tab fr, c.SameImage m₁ s₀.phys.mem ∧ Execed c s₀ s₁ 0 img argv v tab fr ∧
    Installed s₀ s₁ 0 (execSp (stackBase img + PAGESIZE) argv) ∧ s.phys = s₁.phys ∧
      s.data = s₁.data.updProc 0 fun p => { p with state := .Runnable }

/-- **The boot goes through** to the scheduler when there are frames enough. -/
theorem main_always {c : Cfg} {m : Machine} {img : Slice} {k : Nat} (hc : c.Eager)
    (hm : Machine.Init c m) (hp : program c initPath = some img)
    (hmem : 10000 + programFrames img + k ≤ m.sys.phys.free.length)
    (hf : StackFits (stackBase img) [[49, 48]]) :
    K.Always c (fun _ _ => True) (main c)
      (fun l s => l = .scheduler ∧ Started c m.sys.phys.mem img [[49, 48]] k s) m.sys := by
  have hlocks := hm.locks
  have hof := View.Of.start hm.nodup hm.frames
  have hcard : m.sys.phys.free.toFinset.card = m.sys.phys.free.length :=
    List.toFinset_card_of_nodup hm.nodup
  unfold main
  -- the heap
  refine always_bind (always_lock_count (by rw [hlocks]; exact Finset.notMem_empty _)
    fun s₁ p1 d1 h1 n1 => always_bind (always_release_count (by omega) fun s₂ p2 d2 h2 n2 => ?_))
  rw [h1, hlocks] at h2
  rw [n1, hlocks] at n2
  refine always_bind (always_set (always_bind (always_lock_count ?_ fun s₃ p3 d3 h3 n3 => ?_)))
  · show LockId.kernel ∉ s₂.locks.held
    rw [h2]
    decide
  have h3 : s₃.locks.held = {.kernel} := h3.trans (by
    show insert LockId.kernel s₂.locks.held = _
    rw [h2]
    decide)
  have n3 : s₃.locks.interrupt_off_stack = 1 := n3.trans (congrArg (· + 1) n2)
  have hd₃ : s₃.data = m.sys.data.updCsr fun csr => { csr with stvec := .kernelvec } := by
    rw [d3]
    dsimp only
    rw [d2, d1]
  have hp₃ : s₃.phys = m.sys.phys := p3.trans (p2.trans p1)
  -- the kernel's table
  refine always_plenty (R := fun r v' => ∃ t tab, r = .ok t ∧
      KvmInv c v' t.root tab (fun _ => False) (fun _ => 0) ∧ v'.own.card ≤ 1025) hc
    (by rw [hp₃]; exact hof) (by rw [h3]; decide)
    (wp_kvmInit (by omega) rfl fun t v' tab hk hle => ⟨t, tab, rfl, hk, hle⟩)
    fun r v₄ s₄ _ hof₄ hR d4 l4 => ?_
  obtain ⟨t, tab, rfl, hk, hle⟩ := hR
  dsimp only
  refine always_bind (always_set ?_)
  -- the processes
  have himg : c.SameImage m.sys.phys.mem s₄.phys.mem := hof.sameImage hof₄
  have hst : Stocked c m.sys.phys.mem { s₄ with data := { s₄.data with kvm := some t } } 0
      (2053 * 4 + (programFrames img + k + 1)) t.root := by
    refine ⟨himg, rfl, ?_, fun j hj => absurd hj (Nat.not_lt_zero j), v₄, _, _, tab, fun _ => 0, hof₄,
      hk.pages stackPages_zero, by omega, fun j hj => absurd hj (Nat.not_lt_zero j)⟩
    show s₄.data.nproc = 0
    rw [d4, hd₃]
    exact hm.nproc
  have hpid : s₄.data.pid = 0 := by
    rw [d4, hd₃]
    exact hm.pid
  refine always_bind (always_initproc hc hst (by omega) ?_ fun s₅ h5 e5 l5 => ?_)
  · show LockId.heap ∉ s₄.locks.held
    rw [l4.1, h3]
    decide
  have hheld : s₅.locks.held = {.kernel} := l5.held.trans (l4.held.trans h3)
  have hstack : s₅.locks.interrupt_off_stack = 1 := l5.stack.trans (l4.stack.trans n3)
  refine always_bind (always_get ?_)
  dsimp only [Free.bind]
  rw [h5.kvm]
  dsimp only
  refine always_bind (always_set ?_)
  -- init
  have h5' : Stocked c m.sys.phys.mem { s₅ with data := s₅.data.updCsr fun csr =>
      { csr with satp := kvmSatp ⟨t.root⟩ } } 4 (programFrames img + k + 1) t.root := by
    obtain ⟨v, total, m₀, tab, fr, hof, hk, hc, hsp⟩ := h5.memory
    exact ⟨h5.image, h5.kvm, h5.nproc, h5.kstack, v, total, m₀, tab, fr, hof, hk, hc, fun j hj =>
      (hsp j hj).congr rfl (fun _ h => h) (fun _ _ => rfl) fun _ h => h⟩
  refine always_allocproc_first (n := 3) hc h5' ?_ ?_ (e5.trans hpid)
    fun s₆ h6 hfree h6l n6 => ?_
  · show LockId.heap ∉ s₅.locks.held
    rw [hheld]
    decide
  · show LockId.proc 0 ∉ s₅.locks.held
    rw [hheld]
    decide
  have h6l : s₆.locks.held = {.proc 0, .kernel} := h6l.trans (congrArg _ hheld)
  have n6 : s₆.locks.interrupt_off_stack = 2 := n6.trans (congrArg (· + 1) hstack)
  show K.Always c _ (release (.proc 0) >>= fun _ => _) _ s₆
  refine always_bind (always_release_count (by omega) fun s₇ p7 d7 l7 n7 => ?_)
  have l7 : s₇.locks.held = {.kernel} := by
    rw [l7, h6l]
    decide
  refine always_bind (always_print (by rw [l7]; decide) fun s₈ p8 d8 l8 => ?_)
  have hp₈ : s₈.phys = s₆.phys := p8.trans p7
  have hd₈ : s₈.data = s₆.data := d8.trans d7
  have hst₈ : OwnState c s₈ 0 := by
    unfold OwnState
    rw [hp₈, hd₈]
    exact h6.own
  refine always_bind ((always_kexec hc hst₈ (by rw [l8.1, l7]; decide) hp ?_ hf ?_).mono
    fun r s₉ hr => ?_)
  · rw [hp₈]
    omega
  · rw [hd₈, h6.size, USIZE_eq]
    decide
  obtain ⟨rfl, l9, hle, v, tab, fr, hx, hin⟩ := hr
  have hstack₉ : s₉.locks.interrupt_off_stack = 1 := by
    rw [l9.2, l8.2, n7, n6]
  show K.Always c _ (setProc 0 _ >>= fun _ => _) _ s₉
  refine always_bind (always_setProc (always_bind (always_release_count ?_
    fun s' p' d' _ _ => ⟨rfl, ?_⟩)))
  · show 1 ≤ s₉.locks.interrupt_off_stack
    omega
  -- the table
  obtain ⟨v₅, total, m₀, tab₅, fr₅, -, -, -, hnew⟩ := h5'.memory
  obtain ⟨g₀, sp, hfirst⟩ := h6.first
  have hn₉ : s₉.data.nproc = 4 := by
    rw [hin.data]
    show s₈.data.nproc = 4
    rw [hd₈, h6.nproc]
    exact h5'.nproc
  have hold : ∀ j, j ≠ 0 → s'.data.process_table j = s₅.data.process_table j := fun j hj => by
    rw [d']
    dsimp only
    rw [Data.updProc_ne _ _ hj, hin.data, Data.execed_ne _ _ hj, hd₈, h6.others j hj]
    rfl
  have hzero : s'.data.process_table 0 = { s₅.data.process_table 0 with
      pid := some 0, state := .Runnable, trapframe := g₀, unboxing := false, context := .forkret sp
      pagetable := (s₉.data.process_table 0).pagetable, dropping := false } := by
    rw [d']
    dsimp only
    rw [Data.updProc_self, hin.data, Data.execed_self, hd₈, hfirst]
    rfl
  -- what init's slot keeps of a new process
  have hkeep : ∀ {α : Type} (g : Process → α) (j : Nat), (j < 4 → g (s₅.data.process_table 0) =
      g { s₅.data.process_table 0 with
        pid := some 0, state := .Runnable, trapframe := g₀, unboxing := false
        context := .forkret sp, pagetable := (s₉.data.process_table 0).pagetable
        dropping := false }) → j < 4 → g (s'.data.process_table j) = g (s₅.data.process_table j) :=
    fun g j hg hj => by
      by_cases hne : j = 0
      · rw [hne, hzero, hg hj]
      · rw [hold j hne]
  refine ⟨?_, ?_, ?_, by rw [hzero], by rw [hzero], ⟨sp, by rw [hzero]⟩, fun j hj => ?_,
    fun j hj => ?_, fun j hj hne => ?_, fun j hj hne => ?_, fun j hj => ?_,
    s₈, s₉, v, tab, fr, ?_, hx, hin, p', d'⟩
  · rw [d']
    exact hn₉
  · rw [d']
    show s₉.data.pid = 1
    rw [hin.data]
    show s₈.data.pid = 1
    rw [hd₈, h6.pid]
    show s₅.data.pid + 1 = 1
    rw [e5, hpid]
  · rw [p']
    show k ≤ s₉.phys.free.length
    rw [hp₈] at hle
    omega
  · exact (hkeep Process.kstack j (fun _ => rfl) hj).trans (h5'.kstack j hj)
  · obtain ⟨r, f, hn, -⟩ := (hnew j hj).new
    exact (hkeep Process.parent j (fun _ => rfl) hj).trans hn.parent
  · obtain ⟨r, f, hn, -⟩ := (hnew j hj).new
    rw [hold j hne]
    exact hn.state
  · obtain ⟨r, f, hn, -⟩ := (hnew j hj).new
    have hn : (s₅.data.process_table j).IsNew j r f := hn
    rw [hold j hne, hn.pagetable]
  · obtain ⟨r, f, hn, -⟩ := (hnew j hj).new
    exact (hkeep Process.quants j (fun _ => rfl) hj).trans hn.quants
  · rw [hp₈]
    exact h5'.image.trans h6.image

/-! ## Machines that are reached -/

/-- The kernel never writes the high word of the comparator. -/
theorem KOp.exec_stimecmph {c : Cfg} {o : KOp} {t n : Nat} {s s' : Sys} {r : o.Resp}
    (h : o.exec c t n s = .ok (r, s')) : s'.timer.stimecmph = s.timer.stimecmph := by
  cases o with
  | mem o =>
    obtain ⟨phys, -, rfl⟩ := Sys.execMem_ok h
    rfl
  | acquire l old =>
    obtain ⟨-, rfl⟩ := Sys.acquire_ok h
    rfl
  | release l =>
    obtain ⟨-, rfl⟩ := Sys.release_ok h
    rfl
  | toSched i => cases h
  | toProc i => cases h
  | panic msg => cases h
  | lost => cases h
  | _ =>
    cases h
    rfl

namespace Machine

variable {c : Cfg} {A : Machine → Prop} {P : MemOp → Phys → Prop} {m : Machine}

/-- `m'` has the time of `m`, and the high word of its comparator. -/
def SameClock (m m' : Machine) : Prop :=
  m'.time = m.time ∧ m'.sys.timer.stimecmph = m.sys.timer.stimecmph

/-- **Code that always ends** takes the machine to what follows it. -/
theorem Reach.always {p : K Label} {Q : Label → Sys → Prop} (hA : ∀ m', m.SameClock m' → A m')
    (hr : Reach c A m) (hc : m.code = p) (ha : K.Always c P p Q m.sys) :
    ∃ l s, Q l s ∧ s.timer.stimecmph = m.sys.timer.stimecmph ∧
      Reach c A { m with sys := s, code := .ret l } := by
  induction p generalizing m with
  | ret l => exact ⟨l, m.sys, ha, rfl, by rw [← hc]; exact hr⟩
  | op o k ih =>
    obtain ⟨r, s, hx, hk⟩ := ha.2 m.time 0
    have hs := KOp.exec_stimecmph hx
    obtain ⟨l, s', hq, hs', hr'⟩ := ih r (m := { m with sys := s, code := k r })
      (fun m' h => hA m' ⟨h.1, h.2.trans hs⟩) (hr.step (hA m ⟨rfl, rfl⟩) (.op hc hx)) rfl hk
    exact ⟨l, s', hq, hs'.trans hs, hr'⟩

/-- The frames of a machine that starts. -/
@[irreducible] def bootFrames : List Nat := (List.range 11000).map fun i => 0x8020c000 + 4096 * i

/-- A machine at the entry of `main`, with frames enough. -/
def boot : Machine :=
  { demo with sys := { Sys.demo with phys := ⟨fun _ => 0, bootFrames, 0⟩ } }

theorem boot_init : Init Cfg.demo boot := by
  refine ⟨Cfg.demo_linked, rfl, ?_, fun f hf => ?_, rfl, rfl, rfl, rfl, rfl, rfl, rfl⟩
  · show bootFrames.Nodup
    unfold bootFrames
    exact List.nodup_range.map fun i j h => by omega
  · have hf : f ∈ bootFrames := hf
    unfold bootFrames at hf
    obtain ⟨i, hi, rfl⟩ := List.mem_map.1 hf
    have hi := List.mem_range.1 hi
    have hk : Cfg.demo.ekernel = 0x8020c000 := rfl
    have hr : RAMEND = 0x84000000 := rfl
    refine ⟨?_, ?_, ?_⟩
    · rw [PAGESIZE_eq]; omega
    · rw [hk]; omega
    · rw [PAGESIZE_eq, hr]; omega

theorem boot_spare : 10000 + programFrames Cfg.demo.INIT + 900 ≤ boot.sys.phys.free.length := by
  have hp : programFrames Cfg.demo.INIT = 5 := by decide +kernel
  have hlen : boot.sys.phys.free.length = 11000 := by
    show bootFrames.length = 11000
    unfold bootFrames
    rw [List.length_map, List.length_range]
  rw [hp, hlen]
  decide

theorem boot_frames : 10000 + programFrames Cfg.demo.INIT ≤ boot.sys.phys.free.length :=
  (Nat.le_add_right _ 900).trans boot_spare

/-- It comes to the top of the scheduler's loop. -/
theorem boot_scheduler (hA : ∀ m, boot.SameClock m → A m) : ∃ s, s.timer.stimecmph = 0 ∧
    Reach Cfg.demo A { boot with sys := s, code := .ret .scheduler } := by
  have hmain := main_always (k := 0) Cfg.demo_eager boot_init program_init boot_frames
    ⟨⟨by decide +kernel, by decide +kernel, by decide +kernel, trivial⟩, by decide +kernel,
      by decide +kernel⟩
  obtain ⟨l, s, ⟨rfl, -⟩, hs, hr⟩ := Reach.always hA (.init boot_init) rfl hmain
  exact ⟨s, hs, hr⟩

/-- There the interrupts are on for a moment. -/
theorem boot_open (hA : ∀ m, boot.SameClock m → A m) : ∃ s, s.locks.sie = true ∧
    s.timer.stimecmph = 0 ∧
      Reach Cfg.demo A { boot with sys := s, code := setSie false >>= fun _ => schedulerPass } := by
  obtain ⟨s, hs, hr⟩ := boot_scheduler hA
  have h₁ := hr.step (hA _ ⟨rfl, hs⟩)
    (.label rfl (rfl : Label.entry Cfg.demo .scheduler = some schedulerRound))
  have h₂ := h₁.step (hA _ ⟨rfl, hs⟩) (.op (n := 0) (o := .any) (k := _) rfl rfl)
  have h₃ := h₂.step (hA _ ⟨rfl, hs⟩) (.op (n := 0) (o := .setSie true) (k := _) rfl rfl)
  exact ⟨{ s with locks := { s.locks with sie := true } }, rfl, hs, h₃⟩

end Machine

end BareMetal
