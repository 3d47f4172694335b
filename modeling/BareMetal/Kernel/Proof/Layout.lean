import BareMetal.Kernel.Proof.Alone
import BareMetal.Kernel.Proof.Kvm
import BareMetal.Virt.Proof.CopyIn

/-!
# The layout of the kernel's address space

`Kernel.Built c tr s`: `s` comes from `Kvm::init` and any calls of `initproc`, and `tr` is what
they did. `kernel_layout`: the translation is then exactly `KernelPage`, and no valid entry of a
table was overwritten on the way.
-/

namespace BareMetal

open Lib K

/-- `Kvm::init`, then calls of `initproc` that succeed. -/
inductive Kernel.Built (c : Cfg) : List (KOp × Sys) → Sys → Prop
  | init {s s' : Sys} {tr kvm} (hn : s.phys.free.Nodup) (hf : ∀ f ∈ s.phys.free, c.IsFrame f)
    (h0 : s.data.nproc = 0) (h : K.Ends c (lift (Kvm.init c)) s tr (.ok kvm) s') :
    Kernel.Built c tr { s' with data := { s'.data with kvm := some kvm } }
  | initproc {s s' : Sys} {tr tr' n} (hb : Kernel.Built c tr s)
    (h : K.Ends c (initproc n) s tr' (.ok ()) s') : Kernel.Built c (tr ++ tr') s'

/-- What the kernel's address space maps with `n` processes: a page, its frame, its permissions. -/
inductive KernelPage (c : Cfg) (n : Nat) (stack : Nat → Nat → Nat) : Nat → Nat → Nat → Prop
  | uart : KernelPage c n stack (pageNo UART) UART (PTE_R ||| PTE_W)
  | text {q} (h : KERNEL_START ≤ q * PAGESIZE) (h' : q * PAGESIZE < c.etext) :
    KernelPage c n stack q (q * PAGESIZE) (PTE_X ||| PTE_R)
  | ram {q} (h : c.etext ≤ q * PAGESIZE) (h' : q * PAGESIZE < RAMEND) :
    KernelPage c n stack q (q * PAGESIZE) (PTE_R ||| PTE_W)
  | trampoline : KernelPage c n stack (pageNo TRAMPOLINE) c.trampoline (PTE_R ||| PTE_X)
  | stack {i k} (hi : i < n) (hk : k < KERNEL_STACK_PAGES) :
    KernelPage c n stack (pageNo (kstackAddr i) + k) (stack i k) (PTE_R ||| PTE_W)

/-- The pages of the stacks of the first `n` slots. -/
def StackPages (n q : Nat) : Prop :=
  ∃ i < n, InPages (pageNo TRAMPOLINE - 3 * (i + 1) + 1) KERNEL_STACK_PAGES q

/-! ## How many there can be -/

/-- The frames of 62 MiB. -/
theorem frames_card {c : Cfg} {o : Finset Nat} (h : ∀ f ∈ o, c.IsFrame f) : o.card ≤ 15872 := by
  have hsz := PAGESIZE_eq
  have hsub : o ⊆ (Finset.range 15872).image fun i => 0x80200000 + 4096 * i := fun f hf => by
    have h1 := (h f hf).bound
    have h2 := (h f hf).page
    rw [hsz] at h2
    exact Finset.mem_image.2 ⟨(f - 0x80200000) / 4096, Finset.mem_range.2 (by omega), by omega⟩
  refine (Finset.card_le_card hsub).trans (Finset.card_image_le.trans ?_)
  rw [Finset.card_range]

/-- Stacks of so many slots lie between the memory and the trampoline. -/
theorem stack_bounds {i : Nat} (h : 4 * i ≤ 15872) : KstackFits i ∧
    0x84000 < pageNo TRAMPOLINE - 3 * (i + 1) ∧
    RAMEND + PAGESIZE ≤ kstackAddr i ∧
    kstackAddr i = TRAMPOLINE - 3 * (i + 1) * PAGESIZE + PAGESIZE := by
  have ht := trampoline_va.1
  have hp := trampoline_va.2.2
  have hr : RAMEND = 0x84000000 := rfl
  unfold pageNo at hp
  unfold KstackFits kstackAddr KERNEL_STACK_PAGES pageNo
  rw [PAGESIZE_eq] at *
  omega

theorem kvmEntry_stack {c : Cfg} {q : Nat} (h : 0x84000 ≤ q) (h' : q < 0xffffe) :
    kvmEntry c q = 0 := by
  obtain ⟨p1, p2, p3, p4, p5, p6, p7, p8⟩ := layout_pages c
  have hr : RAMEND = 0x84000000 := rfl
  refine (kvmEntry_iff c q).2 fun f perm hk => ?_
  have hsz := PAGESIZE_eq
  cases hk with
  | uart => omega
  | text _ h1 =>
    rw [p4, hsz] at h1
    omega
  | ram _ h1 =>
    rw [hr, hsz] at h1
    omega
  | trampoline => omega

/-! ## The invariant -/

/-- The kernel has its table and the stacks of `n` slots. -/
structure Laid (c : Cfg) (s : Sys) (n : Nat) (v : View) (total : Finset Nat) (m₀ : Bytes)
    (root : Nat) (tab : Nat → Option Nat) (fr : Nat → Nat) : Prop where
  of : v.Of c total m₀ s.phys
  inv : KvmInv c v root tab (StackPages n) fr
  count : 4 * n ≤ v.own.card
  kvm : s.data.kvm = some ⟨root⟩
  nproc : s.data.nproc = n
  kstack : ∀ i < n, (s.data.process_table i).kstack = kstackAddr i

def Laid.Ex (c : Cfg) (s : Sys) (n : Nat) : Prop := ∃ v total m₀ root tab fr,
  Laid c s n v total m₀ root tab fr

/-- Code alone that overwrites no valid entry. -/
def strictly (c : Cfg) : Mode := ⟨c, false, fun _ => True, True, True⟩

theorem strictly_enough (c : Cfg) (k : Nat) : (strictly c).Enough k := fun _ _ _ => trivial

section
variable {c : Cfg} {s s' : Sys} {tr : List (KOp × Sys)}

theorem Laid.few {n root : Nat} {v : View} {total : Finset Nat} {m₀ : Bytes}
    {tab : Nat → Option Nat} {fr : Nat → Nat} (h : Laid c s n v total m₀ root tab fr) :
    4 * n ≤ 15872 :=
  h.count.trans (frames_card fun f hf => h.of.frame f ((h.of.cover f).2 (.inl hf)))

/-- Memory code run by the kernel alone. -/
theorem strict_ends {α : Type} {p : M α} {a : α} {v : View} {total : Finset Nat} {m₀ : Bytes}
    {σ σ' : Phys} {tr : List (MemOp × Phys)} {Q : α → View → Prop} (hof : v.Of c total m₀ σ)
    (hwp : M.wp (strictly c) p Q v) (he : M.Ends c p σ tr a σ') :
    (∀ x ∈ tr, x.1.Fresh x.2) ∧ ∃ v', v'.Of c total m₀ σ' ∧ Q a v' := by
  obtain ⟨h1, h2⟩ := M.ends_wp (E := strictly c) rfl (fun _ _ _ _ _ => trivial) hof hwp he
  exact ⟨fun x hx => h1 x hx trivial, h2⟩

/-- The maps of `Kvm::init` in a new table. -/
theorem wp_kvmMaps {E : Mode} {v : View} {t : PageTable} (ht : Tree E.cfg v t.root fun _ => none)
    {Q : Except Unit Unit → View → Prop}
    (hok : ∀ v' tab, KvmInv E.cfg v' t.root tab (fun _ => False) (fun _ => 0) →
      v'.own.card ≤ v.own.card + 1024 → Q (.ok ()) v')
    (herr : ∀ v' tab, Tree E.cfg v' t.root tab → Leaves (pte v'.mem tab) → E.oom v'.own →
      v'.own.card ≤ v.own.card + 1024 → Q (.error ()) v') :
    M.wp E (mapAll t (kvmMaps E.cfg)) Q v := by
  have hz : pte v.mem (fun _ => none) = fun _ => 0 := funext fun q => pte_none (fun _ => rfl) _ _
  refine wp_mapAll (kvmMaps E.cfg) ht (kvmMaps_ok _) (kvmMaps_apart _) (fun x _ q _ => ?_)
    (fun q hq => ?_) (fun v' tab hg he => hok v' tab ⟨hg.tree, fun q _ => ?_, fun q hq => hq.elim,
      fun q hq => hq.elim, fun q r hq => hq.elim⟩ hg.own_card)
    fun v' tab hg hl ho => herr v' tab hg.tree hl ho hg.own_card
  · rw [hz]
    exact Nat.zero_mod 2
  · rw [hz] at hq
    cases hq
  · rw [he, hz]
    rfl

/-- `Kvm::init` that succeeds. -/
theorem kvmInit_ends {σ σ' : Phys} {tr : List (MemOp × Phys)} {v : View} {total : Finset Nat}
    {m₀ : Bytes} (hof : v.Of c total m₀ σ) {kvm : PageTable}
    (h : M.Ends c (Kvm.init c) σ tr (.ok kvm) σ') :
    (∀ x ∈ tr, x.1.Fresh x.2) ∧ ∃ v' tab, v'.Of c total m₀ σ' ∧
      KvmInv c v' kvm.root tab (fun _ => False) fun _ => 0 := by
  obtain ⟨t, σ₁, tr₁, tr₂, h1, h2, rfl⟩ := h.bind
  obtain ⟨r, σ₂, tr₃, tr₄, h3, h4, rfl⟩ := h2.bind
  obtain ⟨hf₁, v₁, hof₁, ht⟩ := strict_ends
    (Q := fun (t : PageTable) v' => Tree c v' t.root fun _ => none) hof
    (wp_new (fun _ => trivial) fun v' f _ _ _ ht _ => ht) h1
  obtain ⟨hf₂, v₂, hof₂, hr⟩ := strict_ends (Q := fun r v' => r = .ok () →
      ∃ tab, KvmInv c v' t.root tab (fun _ => False) fun _ => 0) hof₁
    (wp_kvmMaps ht (fun v' tab' hk _ _ => ⟨tab', hk⟩) fun _ _ _ _ _ _ he => by cases he) h3
  cases r with
  | error e =>
    obtain ⟨u, σ₃, tr₅, tr₆, h5, h6, rfl⟩ := h4.bind
    obtain ⟨he, -⟩ := h6.ret_inv
    cases he
  | ok u =>
    obtain ⟨he, rfl, rfl⟩ := h4.ret_inv
    cases he
    obtain ⟨tab, hk⟩ := hr rfl
    refine ⟨fun x hx => ?_, v₂, tab, hof₂, hk⟩
    rw [List.append_nil] at hx
    rcases List.mem_append.1 hx with hx | hx
    · exact hf₁ x hx
    · exact hf₂ x hx

theorem stackPages_zero (q : Nat) : False ↔ StackPages 0 q :=
  ⟨fun h => h.elim, fun ⟨i, hi, _⟩ => absurd hi (Nat.not_lt_zero i)⟩

theorem laid_init (hn : s.phys.free.Nodup) (hf : ∀ f ∈ s.phys.free, c.IsFrame f)
    (h0 : s.data.nproc = 0) {kvm : PageTable}
    (h : K.Ends c (lift (Kvm.init c)) s tr (.ok kvm) s') :
    (∀ x ∈ memOps tr, x.1.Fresh x.2) ∧
      Laid.Ex c { s' with data := { s'.data with kvm := some kvm } } 0 := by
  have hof := View.Of.start hn hf
  obtain ⟨hm, hd⟩ := lift_ends h
  obtain ⟨hfr, v, tab, hof', hk⟩ := kvmInit_ends hof hm
  refine ⟨hfr, v, _, _, kvm.root, tab, fun _ => 0, hof', hk.pages stackPages_zero, Nat.zero_le _, rfl, ?_,
    fun i hi => absurd hi (Nat.not_lt_zero i)⟩
  show s'.data.nproc = 0
  rw [hd]
  exact h0

/-- The pages of one more stack. -/
theorem stackPages_succ {n : Nat} (h : 4 * n ≤ 15872) (q : Nat) :
    StackPages (n + 1) q ↔
      StackPages n q ∨ InPages (pageNo (kstackAddr n)) KERNEL_STACK_PAGES q := by
  rw [(kstackAddr_page (stack_bounds h).1).2.2]
  constructor
  · rintro ⟨i, hi, hq⟩
    rcases Nat.lt_succ_iff_lt_or_eq.1 hi with hi | rfl
    · exact .inl ⟨i, hi, hq⟩
    · exact .inr hq
  · rintro (⟨i, hi, hq⟩ | hq)
    · exact ⟨i, by omega, hq⟩
    · exact ⟨n, by omega, hq⟩

/-- The pages of the next stack are free. -/
theorem stack_free {n : Nat} (h : 4 * n ≤ 15872) :
    ∀ q, InPages (pageNo (kstackAddr n)) KERNEL_STACK_PAGES q →
      ¬ StackPages n q ∧ kvmEntry c q = 0 := by
  obtain ⟨hfit, hlow, -, -⟩ := stack_bounds h
  intro q hq
  rw [(kstackAddr_page hfit).2.2] at hq
  unfold InPages KERNEL_STACK_PAGES at hq
  rw [trampoline_va.2.2] at hq hlow
  refine ⟨fun ⟨i, hi, h1⟩ => ?_, kvmEntry_stack ?_ ?_⟩
  · unfold InPages KERNEL_STACK_PAGES at h1
    rw [trampoline_va.2.2] at h1
    omega
  · omega
  · omega

/-- One process more. -/
theorem process_ends {σ σ₁ σ' : Phys} {tr tr' : List (MemOp × Phys)} {v : View}
    {total : Finset Nat} {m₀ : Bytes} {n root : Nat} {tab : Nat → Option Nat} {fr : Nat → Nat}
    (hof : v.Of c total m₀ σ) (hk : KvmInv c v root tab (StackPages n) fr)
    (hc : 4 * n ≤ v.own.card) {p : Process} {u : Unit}
    (h : M.Ends c (Process.new n) σ tr p σ₁)
    (h' : M.Ends c (do allocKstack ⟨root⟩ (← KSTACK n)) σ₁ tr' u σ') :
    (∀ x ∈ tr ++ tr', x.1.Fresh x.2) ∧ p.kstack = kstackAddr n ∧ ∃ v' tab' fr',
      v'.Of c total m₀ σ' ∧ KvmInv c v' root tab' (StackPages (n + 1)) fr' ∧
        4 * (n + 1) ≤ v'.own.card := by
  have hfew : 4 * n ≤ 15872 :=
    hc.trans (frames_card fun f hf => hof.frame f ((hof.cover f).2 (.inl hf)))
  have hfit := (stack_bounds hfew).1
  obtain ⟨hf₁, v₁, hof₁, hp, ht₁, hk₁⟩ := strict_ends (Q := fun p v' => p.kstack = kstackAddr n ∧
      Took 2 v v' ∧ KvmInv c v' root tab (StackPages n) fr) hof
    (wp_processNew hfit (strictly_enough c _) fun p v' r f hp hr _ hf ho hm _ => by
      have htook : Took 2 v v' := by
        have h1 : Took 1 v ⟨insert r v.own, v.mem⟩ := .insert hr rfl
        exact h1.trans (.insert (v := ⟨insert r v.own, v.mem⟩) hf ho)
      refine ⟨hp.kstack, htook, hk.congr htook.sub fun a ha => hm a ?_ ?_⟩
      · exact fun he => hr (he ▸ ha)
      · exact fun he => hf (Finset.mem_insert_of_mem (he ▸ ha))) h
  obtain ⟨hf₂, v₂, hof₂, tab₂, fr₂, hk₂, ht₂⟩ := strict_ends (Q := fun _ v' => ∃ tab' fr',
      KvmInv c v' root tab' (StackPages (n + 1)) fr' ∧ Took KERNEL_STACK_PAGES v₁ v') hof₁
    (wp_allocKstack (E := strictly c) hfit hk₁ (stack_free hfew) (strictly_enough c _) fun v' tab' fr' hk' ht' _ =>
      ⟨tab', fr', hk'.pages fun q => (stackPages_succ hfew q).symm, ht'⟩) h'
  refine ⟨fun x hx => ?_, hp, v₂, tab₂, fr₂, hof₂, hk₂, ?_⟩
  · rcases List.mem_append.1 hx with hx | hx
    · exact hf₁ x hx
    · exact hf₂ x hx
  · have h1 := ht₁.card
    have h2 := ht₂.card
    unfold KERNEL_STACK_PAGES at h2
    omega

theorem initprocLoop_ends (n : Nat) : ∀ {s : Sys} {tr : List (KOp × Sys)} {i root : Nat}
    {v : View} {total : Finset Nat} {m₀ : Bytes} {tab : Nat → Option Nat} {fr : Nat → Nat}
    {u : Unit}, Laid c s i v total m₀ root tab fr →
      K.Ends c (initprocLoop ⟨root⟩ n i) s tr u s' →
      (∀ x ∈ memOps tr, x.1.Fresh x.2) ∧ Laid.Ex c s' (i + n) := by
  induction n with
  | zero =>
    intro s tr i root v total m₀ tab fr u h he
    obtain ⟨-, rfl, rfl⟩ := he.ret_inv
    exact ⟨fun x hx => (List.not_mem_nil hx).elim, v, total, m₀, root, tab, fr, h⟩
  | succ n ih =>
    intro s tr i root v total m₀ tab fr u h he
    unfold initprocLoop at he
    obtain ⟨p, s₁, tr₁, tr₂, h1, h2, rfl⟩ := he.bind
    obtain ⟨u₂, s₂, tr₃, tr₄, h3, h4, rfl⟩ := h2.bind
    obtain ⟨u₃, s₃, tr₅, tr₆, h5, h6, rfl⟩ := h4.bind
    obtain ⟨u₄, s₄, tr₇, tr₈, h7, h8, rfl⟩ := h6.bind
    obtain ⟨e1, d1⟩ := lift_ends h1
    obtain ⟨e2, d2⟩ := lift_ends h3
    obtain ⟨i1, i2, i3⟩ := heapUse_ends h5
    obtain ⟨⟨t, k, hx⟩, rfl⟩ := perform_ends h7
    cases hx
    obtain ⟨hf, hks, v', tab', fr', hof, hk, hc⟩ := process_ends h.of h.inv h.count e1 e2
    have hd : s₃.data = s.data := i3.trans (d2.trans d1)
    have hl : Laid c { s₃ with data := { s₃.data with
        process_table := Function.update s₃.data.process_table i p, nproc := i + 1 } } (i + 1) v'
        total m₀ root tab' fr' := by
      refine ⟨by rw [i2]; exact hof, hk, hc, ?_, rfl, fun j hj => ?_⟩
      · show s₃.data.kvm = _
        rw [hd]
        exact h.kvm
      · show (Function.update s₃.data.process_table i p j).kstack = kstackAddr j
        by_cases hji : j = i
        · subst hji
          rw [Function.update_self]
          exact hks
        · rw [Function.update_of_ne hji, hd]
          exact h.kstack j (by omega)
    obtain ⟨hf', hl'⟩ := ih hl h8
    refine ⟨fun x hx => ?_, by rw [show i + (n + 1) = i + 1 + n by omega]; exact hl'⟩
    simp only [memOps_append, i1, List.nil_append] at hx
    rcases List.mem_append.1 hx with hx | hx
    · exact hf x (List.mem_append_left _ hx)
    · rcases List.mem_append.1 hx with hx | hx
      · exact hf x (List.mem_append_right _ hx)
      · rcases List.mem_append.1 hx with hx | hx
        · cases hx
        · exact hf' x hx

theorem initproc_ends {n i root : Nat} {v : View} {total : Finset Nat} {m₀ : Bytes}
    {tab : Nat → Option Nat} {fr : Nat → Nat} {r : Except Unit Unit}
    (hl : Laid c s i v total m₀ root tab fr) (h : K.Ends c (initproc n) s tr r s') :
    (∀ x ∈ memOps tr, x.1.Fresh x.2) ∧ Laid.Ex c s' (i + n) := by
  obtain ⟨d, s₁, tr₁, tr₂, h1, h2, rfl⟩ := h.bind
  obtain ⟨⟨t, k, hx⟩, rfl⟩ := perform_ends h1
  cases hx
  rw [hl.kvm] at h2
  obtain ⟨u, s₂, tr₃, tr₄, h3, h4, rfl⟩ := h2.bind
  obtain ⟨-, rfl, rfl⟩ := h4.ret_inv
  have hn : s.data.nproc = i := hl.nproc
  rw [hn] at h3
  obtain ⟨hf, hl'⟩ := initprocLoop_ends n hl h3
  refine ⟨fun x hx => ?_, hl'⟩
  rw [List.append_nil, memOps_append] at hx
  exact hf x hx

end

/-- **Every** layout the kernel builds is laid out so. -/
theorem Kernel.Built.laid {c : Cfg} {tr : List (KOp × Sys)} {s : Sys} (h : Kernel.Built c tr s) :
    (∀ x ∈ memOps tr, x.1.Fresh x.2) ∧ Laid.Ex c s s.data.nproc := by
  induction h with
  | @init s s' tr kvm hn hf h0 h =>
    obtain ⟨h1, h2⟩ := laid_init hn hf h0 h
    have hd := (lift_ends h).2
    have hn0 : s'.data.nproc = 0 := by rw [hd, h0]
    have hany : ∀ k, k = 0 →
        Laid.Ex c { s' with data := { s'.data with kvm := some kvm } } k := fun k hk => hk ▸ h2
    exact ⟨h1, hany _ hn0⟩
  | @initproc s s' tr tr' n hb h ih =>
    obtain ⟨hf, v, total, m₀, root, tab, fr, hl⟩ := ih
    obtain ⟨hf', v', total', m₀', root', tab', fr', hl'⟩ := initproc_ends hl h
    refine ⟨fun x hx => ?_, v', total', m₀', root', tab', fr', ?_⟩
    · rw [memOps_append] at hx
      rcases List.mem_append.1 hx with hx | hx
      · exact hf x hx
      · exact hf' x hx
    · rw [hl'.nproc]
      exact hl'

/-! ## The layout -/

/-- Which process's stack a page is of, and which page of it. -/
theorem stackPage_iff {n q : Nat} (h : 4 * n ≤ 15872) : StackPages n q ↔
    ∃ i < n, ∃ k < KERNEL_STACK_PAGES, q = pageNo (kstackAddr i) + k := by
  constructor
  · rintro ⟨i, hi, hq⟩
    refine ⟨i, hi, q - pageNo (kstackAddr i), ?_⟩
    rw [(kstackAddr_page (stack_bounds (i := i) (by omega)).1).2.2]
    unfold InPages at hq
    omega
  · rintro ⟨i, hi, k, hk, rfl⟩
    refine ⟨i, hi, ?_⟩
    rw [(kstackAddr_page (stack_bounds (i := i) (by omega)).1).2.2]
    exact ⟨by omega, by omega⟩

/-- No page of a stack is a page of another, or of what `Kvm::init` maps. -/
theorem stackPage_inj {i j k l : Nat} (hi : 4 * i ≤ 15872) (hj : 4 * j ≤ 15872)
    (hk : k < KERNEL_STACK_PAGES) (hl : l < KERNEL_STACK_PAGES)
    (h : pageNo (kstackAddr i) + k = pageNo (kstackAddr j) + l) : i = j ∧ k = l := by
  have h1 := (stack_bounds hi).2.1
  have h2 := (stack_bounds hj).2.1
  rw [(kstackAddr_page (stack_bounds hi).1).2.2, (kstackAddr_page (stack_bounds hj).1).2.2] at h
  unfold KERNEL_STACK_PAGES at hk hl
  omega

section
variable {c : Cfg} {s : Sys} {n root : Nat} {v : View} {total : Finset Nat} {m₀ : Bytes}
  {tab : Nat → Option Nat} {fr : Nat → Nat}

/-- A leaf of the kernel's table. -/
theorem Laid.walk_leaf (h : Laid c s n v total m₀ root tab fr) {va f perm : Nat} (hva : va < USIZE)
    (he : pte v.mem tab (pageNo va) = leafWord f perm) (hf : Aligned f) (hp : PermOk perm)
    (hp' : perm / 2 % 8 ≠ 0) {e pa : Nat} : Sv32.walk s.phys.mem root va = some (e, pa) ↔
      e = leafWord f perm ∧ pa = f + va % PAGESIZE := by
  rw [← h.of.mem, h.inv.tree.sv32_leaf hva he hf hp hp', Option.some_inj, Prod.mk.injEq]
  exact and_congr eq_comm eq_comm

/-- A page is mapped by `Kvm::init`, or is one of a stack. -/
theorem KernelPage.kvm {c : Cfg} {n q f perm : Nat} {stack : Nat → Nat → Nat}
    (h : KernelPage c n stack q f perm) : KvmPage c q f perm ∨
      ∃ i < n, ∃ k < KERNEL_STACK_PAGES, q = pageNo (kstackAddr i) + k ∧ f = stack i k ∧
        perm = PTE_R ||| PTE_W := by
  cases h with
  | uart => exact .inl .uart
  | text h h' => exact .inl (.text h h')
  | ram h h' => exact .inl (.ram h h')
  | trampoline => exact .inl .trampoline
  | stack hi hk => exact .inr ⟨_, hi, _, hk, rfl, rfl, rfl⟩

theorem KvmPage.kernel {c : Cfg} {n q f perm : Nat} {stack : Nat → Nat → Nat}
    (h : KvmPage c q f perm) : KernelPage c n stack q f perm := by
  cases h with
  | uart => exact .uart
  | text h h' => exact .text h h'
  | ram h h' => exact .ram h h'
  | trampoline => exact .trampoline

/-- What `Kvm::init` maps can be stored in an entry. -/
theorem KvmPage.leaf {q f perm : Nat} (h : KvmPage c q f perm) :
    Aligned f ∧ PermOk perm ∧ perm / 2 % 8 ≠ 0 := by
  have hsz := PAGESIZE_eq
  have hus := USIZE_eq
  have hr : RAMEND = 0x84000000 := rfl
  cases h with
  | uart => exact ⟨⟨by rw [hsz]; decide, by decide⟩, ⟨by decide, by decide⟩, by decide⟩
  | text h h' =>
    have h1 := c.etext_end
    have h2 := c.ekernel_end
    exact ⟨⟨Nat.mul_mod_left _ _, by omega⟩, ⟨by decide, by decide⟩, by decide⟩
  | ram h h' => exact ⟨⟨Nat.mul_mod_left _ _, by omega⟩, ⟨by decide, by decide⟩, by decide⟩
  | trampoline =>
    have h1 := c.tramp_end
    exact ⟨⟨c.tramp_page, by omega⟩, ⟨by decide, by decide⟩, by decide⟩

/-- An entry tells its frame and its permissions. -/
theorem leafWord_inj {f perm f' perm' : Nat} (hf : Aligned f) (hp : PermOk perm)
    (hf' : Aligned f') (hp' : PermOk perm') (h : leafWord f perm = leafWord f' perm') :
    f = f' ∧ perm = perm' := by
  have h1 := hf.1
  have h2 := hf'.1
  rw [PAGESIZE_eq] at h1 h2
  unfold leafWord at h
  unfold PermOk at hp hp'
  omega

theorem StackPages.kvmEntry {q : Nat} (hn : 4 * n ≤ 15872) (h : StackPages n q) :
    kvmEntry c q = 0 := by
  obtain ⟨i, hi, hq⟩ := h
  have h1 := (stack_bounds (i := i) (by omega)).2.1
  unfold InPages KERNEL_STACK_PAGES at hq
  rw [trampoline_va.2.2] at h1 hq
  exact kvmEntry_stack (by omega) (by omega)

/-- The kernel's table page by page. -/
theorem Laid.walk_iff (h : Laid c s n v total m₀ root tab fr) {va : Nat} (hva : va < USIZE)
    {e pa : Nat} : Sv32.walk s.phys.mem root va = some (e, pa) ↔
      ∃ f perm, KernelPage c n (fun i k => fr (pageNo (kstackAddr i) + k)) (pageNo va) f perm ∧
        e = leafWord f perm ∧ pa = f + va % PAGESIZE := by
  have hfew := h.few
  by_cases hst : StackPages n (pageNo va)
  · -- a page of a stack
    have hf := (h.inv.page _ hst).1.aligned
    rw [h.walk_leaf hva (h.inv.stack _ hst) hf ⟨by decide, by decide⟩ (by decide)]
    constructor
    · rintro ⟨rfl, rfl⟩
      obtain ⟨i, hi, k, hk, hq⟩ := (stackPage_iff hfew).1 hst
      refine ⟨_, _, ?_, rfl, rfl⟩
      rw [hq]
      exact .stack hi hk
    · rintro ⟨f, perm, hp, rfl, rfl⟩
      rcases hp.kvm with hp | ⟨i, -, k, -, hq, rfl, rfl⟩
      · have h0 := hst.kvmEntry (c := c) hfew
        rw [(kvmEntry_iff c _).1 f perm hp] at h0
        exact absurd h0 (leafWord_ne_zero f perm)
      · rw [← hq]
        exact ⟨rfl, rfl⟩
  · by_cases hk : ∃ f perm, KvmPage c (pageNo va) f perm
    · -- a page of `Kvm::init`
      obtain ⟨f, perm, hk⟩ := hk
      have he := (kvmEntry_iff c _).1 f perm hk
      obtain ⟨hf, hp, hp'⟩ := hk.leaf
      rw [h.walk_leaf hva ((h.inv.base _ hst).trans he) hf hp hp']
      constructor
      · rintro ⟨rfl, rfl⟩
        exact ⟨f, perm, hk.kernel, rfl, rfl⟩
      · rintro ⟨f', perm', hq, rfl, rfl⟩
        rcases hq.kvm with hq | ⟨i, hi, k, hl, hq, -, -⟩
        · rw [(kvmEntry_iff c _).1 f' perm' hq] at he
          obtain ⟨h1, h2, -⟩ := hq.leaf
          obtain ⟨rfl, rfl⟩ := leafWord_inj h1 h2 hf hp he
          exact ⟨rfl, rfl⟩
        · exact absurd ((stackPage_iff hfew).2 ⟨i, hi, k, hl, hq⟩) hst
    · -- nothing
      rw [← h.of.mem, h.inv.tree.sv32_none hva]
      · constructor
        · intro hn
          cases hn
        · rintro ⟨f, perm, hq, -, -⟩
          rcases hq.kvm with hq | ⟨i, hi, k, hl, hq, -, -⟩
          · exact absurd ⟨f, perm, hq⟩ hk
          · exact absurd ((stackPage_iff hfew).2 ⟨i, hi, k, hl, hq⟩) hst
      · rw [h.inv.base _ hst]
        exact (kvmEntry_iff c _).2 fun f perm hq => hk ⟨f, perm, hq⟩

/-- Below a stack nothing is mapped. -/
theorem Laid.guard (h : Laid c s n v total m₀ root tab fr) {i va : Nat} (hi : i < n)
    (hva : pageNo va + 1 = pageNo (kstackAddr i)) : Sv32.walk s.phys.mem root va = none := by
  have hfew := h.few
  obtain ⟨hfit, hlow, -, -⟩ := stack_bounds (i := i) (by omega)
  rw [(kstackAddr_page hfit).2.2] at hva
  rw [trampoline_va.2.2] at hva hlow
  have hus : va < USIZE := by
    unfold pageNo at hva
    rw [PAGESIZE_eq] at hva
    rw [USIZE_eq]
    omega
  rw [← h.of.mem, h.inv.tree.sv32_none hus]
  rw [h.inv.base _ ?_]
  · exact kvmEntry_stack (by omega) (by omega)
  · rintro ⟨j, hj, hq⟩
    unfold InPages KERNEL_STACK_PAGES at hq
    rw [trampoline_va.2.2] at hq
    omega

end

/-- **The kernel's address space**, whatever `etext` and the trampoline are and however many
processes were made: its translation is exactly `KernelPage`, each page of a stack has a frame of
its own, the stacks lie apart with an unmapped page below each, their addresses do not wrap, and no
map call overwrote a valid entry. -/
theorem kernel_layout {c : Cfg} {tr : List (KOp × Sys)} {s : Sys} (h : Kernel.Built c tr s) :
    ∃ kvm stack, s.data.kvm = some kvm ∧
      (∀ va < USIZE, ∀ e pa, Sv32.walk s.phys.mem kvm.root va = some (e, pa) ↔
        ∃ f perm, KernelPage c s.data.nproc stack (pageNo va) f perm ∧ e = leafWord f perm ∧
          pa = f + va % PAGESIZE) ∧
      (∀ i < s.data.nproc, ∀ k < KERNEL_STACK_PAGES, c.IsFrame (stack i k)) ∧
      (∀ i < s.data.nproc, ∀ k < KERNEL_STACK_PAGES, ∀ j < s.data.nproc, ∀ l < KERNEL_STACK_PAGES,
        stack i k = stack j l → i = j ∧ k = l) ∧
      (∀ i < s.data.nproc, (s.data.process_table i).kstack = kstackAddr i ∧ KstackFits i ∧
        RAMEND + PAGESIZE ≤ kstackAddr i ∧
        kstackAddr i + KERNEL_STACK_PAGES * PAGESIZE ≤ TRAMPOLINE ∧
        ∀ va, pageNo va + 1 = pageNo (kstackAddr i) → Sv32.walk s.phys.mem kvm.root va = none) ∧
      (∀ i < s.data.nproc, ∀ j < s.data.nproc, i ≠ j →
        kstackAddr i + KERNEL_STACK_PAGES * PAGESIZE + PAGESIZE ≤ kstackAddr j ∨
          kstackAddr j + KERNEL_STACK_PAGES * PAGESIZE + PAGESIZE ≤ kstackAddr i) ∧
      ∀ x ∈ memOps tr, x.1.Fresh x.2 := by
  obtain ⟨hfresh, v, total, m₀, root, tab, fr, hl⟩ := h.laid
  have hfew := hl.few
  have hm := hl.of.mem
  have htree := hl.inv.tree
  have hsz := PAGESIZE_eq
  generalize hn : s.data.nproc = n at *
  have hi4 : ∀ {i}, i < n → 4 * i ≤ 15872 := fun hi => by omega
  have hpg : ∀ {i}, i < n → pageNo (kstackAddr i) = pageNo TRAMPOLINE - 3 * (i + 1) + 1 :=
    fun hi => (kstackAddr_page (stack_bounds (hi4 hi)).1).2.2
  -- the frame of each page of a stack
  let stack : Nat → Nat → Nat := fun i k => fr (pageNo (kstackAddr i) + k)
  have hS : ∀ {i k}, i < n → k < KERNEL_STACK_PAGES →
      StackPages n (pageNo (kstackAddr i) + k) := fun hi hk =>
    (stackPage_iff hfew).2 ⟨_, hi, _, hk, rfl⟩
  refine ⟨⟨root⟩, stack, hl.kvm, fun va hva e pa => ?_, fun i hi k hk => (hl.inv.page _ (hS hi hk)).1,
    fun i hi k hk j hj l hl' he => ?_, fun i hi => ?_, fun i hi j hj hij => ?_, hfresh⟩
  · exact hl.walk_iff hva
  · exact stackPage_inj (hi4 hi) (hi4 hj) hk hl' (hl.inv.inj _ _ (hS hi hk) (hS hj hl') he)
  · obtain ⟨b1, b2, b3, b4⟩ := stack_bounds (hi4 hi)
    exact ⟨hl.kstack i hi, b1, b3, (kstackAddr_page b1).2.1, fun va hva => hl.guard hi hva⟩
  · have b1 := stack_bounds (hi4 hi)
    have b2 := stack_bounds (hi4 hj)
    have hr : RAMEND = 0x84000000 := rfl
    unfold KERNEL_STACK_PAGES
    rw [hsz] at b1 b2 ⊢
    omega

/-! ## A kernel with one process -/

section
variable {c : Cfg} {s : Sys} {N : Nat} {v : View} {total : Finset Nat} {m₀ : Bytes}

theorem plenty_enough {k : Nat} (h : k < N) : (plenty c N).Enough k := fun o ho hk => by
  have ho : N ≤ o.card := ho
  omega

/-- Memory code that needs fewer frames than there are can run in the kernel. -/
theorem plenty_can {α : Type} {p : M α} {Q : α → View → Prop} (hc : ∀ t l, c.buddy t l = l.head?)
    (hof : v.Of c total m₀ s.phys) (hh : LockId.heap ∉ s.locks.held)
    (hwp : M.wp (plenty c total.card) p Q v) :
    ∃ tr a s', K.Ends c (lift p) s tr a s' ∧ s'.data = s.data ∧ LockId.heap ∉ s'.locks.held ∧
      ∃ v', v'.Of c total m₀ s'.phys ∧ Q a v' := by
  have h := M.run_wp (E := plenty c total.card) rfl (plenty_oom (.of_head hc) total) hof hwp
  cases hr : p.run c s.phys with
  | error e =>
    have h : Free.Meets _ _ (p.run c s.phys) := h
    rw [hr] at h
    exact h.elim
  | ok q =>
    obtain ⟨a, phys⟩ := q
    have h : Free.Meets _ _ (p.run c s.phys) := h
    rw [hr] at h
    obtain ⟨tr, s', he, rfl, hd, hl⟩ := lift_can hh hr
    exact ⟨tr, a, s', he, hd, hl, h⟩

/-- `Kvm::init` with frames to spare. -/
theorem wp_kvmInit (hN : 1025 < N) (hv : v.own = ∅) {Q : Except Unit PageTable → View → Prop}
    (hok : ∀ t v' tab, KvmInv c v' t.root tab (fun _ => False) (fun _ => 0) →
      v'.own.card ≤ 1025 → Q (.ok t) v') :
    M.wp (plenty c N) (Kvm.init c) Q v := by
  have hc : v.own.card = 0 := by rw [hv]; rfl
  unfold Kvm.init
  rw [M.wp_bind]
  refine wp_new (fun ho => plenty_enough (k := 0) (by omega) _ ho (by omega))
    fun v₁ f _ _ ho ht _ => ?_
  have hc₁ : v₁.own.card ≤ 1 := by
    rw [ho]
    exact (Finset.card_insert_le _ _).trans (by omega)
  rw [M.wp_bind]
  refine wp_kvmMaps ht (fun v₂ tab hk hle => hok ⟨f⟩ v₂ tab hk (by omega)) fun v₂ _ _ _ ho₂ hle => ?_
  exact (plenty_enough (k := 1025) hN _ ho₂ (by omega)).elim

/-- `initproc` with frames to spare. -/
theorem initproc_can {n root : Nat} {tab : Nat → Option Nat} {fr : Nat → Nat}
    (hc : ∀ t l, c.buddy t l = l.head?) (hl : Laid c s n v total m₀ root tab fr)
    (hh : LockId.heap ∉ s.locks.held) (hn : v.own.card + 2053 < total.card) :
    ∃ tr s', K.Ends c (initproc 1) s tr (.ok ()) s' := by
  have hget : KOp.Does c .get s s.data s := ⟨0, 0, rfl⟩
  have hfew := hl.few
  obtain ⟨hfit, hlow, -, -⟩ := stack_bounds hfew
  obtain ⟨tr₁, p, s₁, h1, d1, l1, v₁, hof₁, hc₁, hk₁⟩ := plenty_can (p := Process.new n)
    (Q := fun _ v' => v'.own.card ≤ v.own.card + 2 ∧ KvmInv c v' root tab (StackPages n) fr) hc
    hl.of hh (wp_processNew hfit (plenty_enough (by omega)) fun p v' r f _ hr _ hf ho hm _ => by
      refine ⟨?_, hl.inv.congr (fun g hg => ?_) fun a ha => hm a ?_ ?_⟩
      · rw [ho]
        exact (Finset.card_insert_le _ _).trans (Nat.succ_le_succ (Finset.card_insert_le _ _))
      · rw [ho]
        exact Finset.mem_insert_of_mem (Finset.mem_insert_of_mem hg)
      · exact fun he => hr (he ▸ ha)
      · exact fun he => hf (Finset.mem_insert_of_mem (he ▸ ha)))
  obtain ⟨tr₂, u, s₂, h2, -, -, -⟩ := plenty_can
    (p := do allocKstack ⟨root⟩ (← KSTACK n)) (Q := fun _ _ => True) hc hof₁ l1
    (wp_allocKstack hfit hk₁ (stack_free hfew) (plenty_enough (by unfold KERNEL_STACK_PAGES; omega))
      fun _ _ _ _ _ _ => trivial)
  obtain ⟨tr₃, h3⟩ := heapUse_can (c := c) (s := s₂)
  have hset : KOp.Does c (.set fun d => { d with
      process_table := Function.update d.process_table n p, nproc := n + 1 }) s₂ () _ := ⟨0, 0, rfl⟩
  obtain ⟨tr, s', h4⟩ : ∃ tr s', K.Ends c (do
      initprocLoop ⟨root⟩ 1 n
      return (Except.ok () : Except Unit Unit)) s tr (.ok ()) s' :=
    ⟨_, _, .seq (.seq h1 (.seq h2 (.seq h3 (.seq (.perform hset) (.ret _ _))))) (.ret _ _)⟩
  refine ⟨(.get, s) :: tr, s', .op hget ?_⟩
  simp only [Free.bind]
  rw [hl.kvm, hl.nproc]
  exact h4

/-- A kernel before `Kvm::init`. -/
def Sys.demo : Sys where
  phys := ⟨fun _ => 0, demoFrames 4000, 0⟩
  locks := ⟨false, false, 0, false, ∅⟩
  data :=
    { current := none
      process_table := fun i =>
        ⟨i, none, .Unused, 0, none, ⟨0, 0, ⟨0⟩⟩, .zero, 0, none, 0, 0, false, false, none⟩
      nproc := 0
      pid := 0
      kvm := none
      csr := ⟨.kernelvec, 0, 0, 0, false, false⟩
      regs := fun _ => 0
      pc := 0
      log := [] }
  timer := ⟨0, 0, 0, []⟩

/-- A kernel with one process. -/
theorem built_demo : ∃ tr s, Kernel.Built Cfg.demo tr s ∧ s.data.nproc = 1 := by
  have hc : ∀ t l, Cfg.demo.buddy t l = l.head? := fun _ _ => rfl
  have hf : ∀ f ∈ Sys.demo.phys.free, Cfg.demo.IsFrame f := fun f => demoFrames_frame (by omega)
  have hof := View.Of.start (demoFrames_nodup 4000) hf
  have hcard : Sys.demo.phys.free.toFinset.card = 4000 := by
    show (demoFrames 4000).toFinset.card = 4000
    rw [List.toFinset_card_of_nodup (demoFrames_nodup 4000)]
    exact demoFrames_length 4000
  obtain ⟨tr, r, s, h, hd, hh, v, hof', t, tab, rfl, hk, hle⟩ := plenty_can (p := Kvm.init Cfg.demo)
    (Q := fun r v' => ∃ t tab, r = .ok t ∧
      KvmInv Cfg.demo v' t.root tab (fun _ => False) (fun _ => 0) ∧ v'.own.card ≤ 1025) hc hof
    (Finset.notMem_empty _)
    (wp_kvmInit (by omega) rfl fun t v' tab hk hle => ⟨t, tab, rfl, hk, hle⟩)
  have hb : Kernel.Built Cfg.demo tr { s with data := { s.data with kvm := some t } } :=
    .init (demoFrames_nodup 4000) hf rfl h
  have hn : s.data.nproc = 0 := by rw [hd]; rfl
  have hl : Laid Cfg.demo { s with data := { s.data with kvm := some t } } 0 v
      Sys.demo.phys.free.toFinset Sys.demo.phys.mem t.root tab fun _ => 0 :=
    ⟨hof', hk.pages stackPages_zero, Nat.zero_le _, rfl, hn, fun i hi => absurd hi (Nat.not_lt_zero i)⟩
  obtain ⟨tr', s', h'⟩ := initproc_can hc hl hh (by omega)
  refine ⟨_, s', .initproc hb h', ?_⟩
  obtain ⟨-, v', total', m', root', tab', fr', hl'⟩ := initproc_ends hl h'
  exact hl'.nproc

/-- The layout of that kernel. -/
theorem kernel_layout_demo : ∃ tr s, Kernel.Built Cfg.demo tr s ∧ s.data.nproc = 1 ∧
    ∃ kvm stack, s.data.kvm = some kvm ∧
      (∀ va < USIZE, ∀ e pa, Sv32.walk s.phys.mem kvm.root va = some (e, pa) ↔
        ∃ f perm, KernelPage Cfg.demo s.data.nproc stack (pageNo va) f perm ∧
          e = leafWord f perm ∧ pa = f + va % PAGESIZE) ∧
      ∀ x ∈ memOps tr, x.1.Fresh x.2 := by
  obtain ⟨tr, s, hb, hn⟩ := built_demo
  obtain ⟨kvm, stack, h1, h2, -, -, -, -, h3⟩ := kernel_layout hb
  exact ⟨tr, s, hb, hn, kvm, stack, h1, h2, h3⟩

end

end BareMetal
