import BareMetal.Kernel.Boot
import BareMetal.Virt.Proof.World

/-!
# Building the kernel's address space

`KvmInv c v root tab S fr`: the kernel's table maps what `Kvm::init` maps (`kvmEntry`) and, at the
pages `S`, kernel stacks in frames of their own. `wp_kvmInit` establishes it without stacks, and
`wp_kstackPage` adds a page of a stack. A map call overwrites no valid entry: the rules of `map`
are used in a strict mode too.
-/

namespace BareMetal

open Lib

/-- The allocator does not fail a party that owns up to `k` frames, or failing is allowed. -/
def Mode.Enough (E : Mode) (k : Nat) : Prop := ∀ o : Finset Nat, E.oom o → o.card ≤ k → E.stop

theorem Mode.Enough.mono {E : Mode} {k l : Nat} (h : E.Enough k) (hl : l ≤ k) : E.Enough l :=
  fun o ho hc => h o ho (hc.trans hl)

/-- What a call of `map` must be given. -/
structure MapOk (x : Nat × Nat × Nat × Nat) : Prop where
  virt : x.1 % PAGESIZE = 0
  phys : x.2.1 % PAGESIZE = 0
  size : x.2.2.1 % PAGESIZE = 0
  virt_end : x.1 + x.2.2.1 < USIZE
  phys_end : x.2.1 + x.2.2.1 < USIZE
  perm : PermOk x.2.2.2
  leaf : Sv32.isLeaf x.2.2.2

/-- The pages of a call of `map`. -/
def MapPages (x : Nat × Nat × Nat × Nat) (q : Nat) : Prop :=
  InPages (pageNo x.1) (x.2.2.1 / PAGESIZE) q

/-- The entries after the calls. -/
def mapsEntry (maps : List (Nat × Nat × Nat × Nat)) (e : Nat → Nat) : Nat → Nat :=
  maps.foldl (fun e x => mapRange (pageNo x.1) (x.2.2.1 / PAGESIZE) x.2.1 x.2.2.2 e) e

theorem mapRange_out {p n pa perm q : Nat} {e : Nat → Nat} (h : ¬ InPages p n q) :
    mapRange p n pa perm e q = e q := if_neg h

/-- The valid entries are leaves. -/
def Leaves (e : Nat → Nat) : Prop := ∀ q, e q % 2 = 1 → Sv32.isLeaf (e q)

theorem Leaves.mapRange {p n pa perm : Nat} {e : Nat → Nat} (h : Leaves e)
    (hpa : pa % PAGESIZE = 0) (hend : pa + n * PAGESIZE < USIZE) (hp : PermOk perm)
    (hl : Sv32.isLeaf perm) : Leaves (mapRange p n pa perm e) := by
  intro q hq
  unfold BareMetal.mapRange at hq ⊢
  split
  · next hin =>
    have hle : (q - p) * PAGESIZE ≤ n * PAGESIZE := Nat.mul_le_mul_right PAGESIZE (by omega)
    exact (isLeaf_leafWord ⟨(Nat.add_mul_mod_self_right ..).trans hpa, by omega⟩ hp).2 hl
  · next hin =>
    rw [if_neg hin] at hq
    exact h q hq

section
variable {E : Mode} {v : View} {root : Nat} {tab : Nat → Option Nat}

/-- **`map`** call by call: no call touches a page of another. -/
theorem wp_mapAll (maps : List (Nat × Nat × Nat × Nat)) :
    ∀ {v : View} {tab : Nat → Option Nat}, Tree E.cfg v root tab → (∀ x ∈ maps, MapOk x) →
      maps.Pairwise (fun x y => ∀ q, MapPages x q → ¬ MapPages y q) →
      (∀ x ∈ maps, ∀ q, MapPages x q → pte v.mem tab q % 2 = 0) → Leaves (pte v.mem tab) →
      ∀ {Q : Except Unit Unit → View → Prop},
      (∀ v' tab', Grown E.cfg v v' root tab tab' →
        pte v'.mem tab' = mapsEntry maps (pte v.mem tab) → Q (.ok ()) v') →
      (∀ v' tab', Grown E.cfg v v' root tab tab' → Leaves (pte v'.mem tab') → E.oom v'.own →
        Q (.error ()) v') →
      M.wp E (mapAll ⟨root⟩ maps) Q v := by
  induction maps with
  | nil => exact fun h _ _ _ _ _ hok _ => hok _ _ (.refl h) rfl
  | cons x maps ih =>
    intro v tab h hm hd hz hl Q hok herr
    obtain ⟨virt, phys, size, perm⟩ := x
    obtain ⟨h1, h2, h3, h4, h5, h6, h7⟩ := hm _ List.mem_cons_self
    dsimp only at h1 h2 h3 h4 h5 h6 h7
    have hdiv : size / PAGESIZE * PAGESIZE = size :=
      Nat.div_mul_cancel (Nat.dvd_of_mod_eq_zero h3)
    obtain ⟨hd1, hd2⟩ := List.pairwise_cons.1 hd
    unfold mapAll
    rw [M.wp_bind, ← hdiv]
    refine wp_map h h1 (by rwa [hdiv]) h2 (by rwa [hdiv]) h6
      (fun _ q hq => hz _ List.mem_cons_self q hq) (fun v₁ tab₁ hg₁ _ he₁ => ?_)
      fun k hk v₁ tab₁ hg₁ _ ho _ he₁ => herr v₁ tab₁ hg₁ ?_ ho
    · refine ih hg₁.tree (fun y hy => hm y (List.mem_cons_of_mem _ hy)) hd2 (fun y hy q hq => ?_)
        (he₁ ▸ hl.mapRange h2 (by rwa [hdiv]) h6 h7) (fun v' tab' hg he => ?_)
        fun v' tab' hg hl' ho => herr v' tab' (hg₁.trans hg) hl' ho
      · rw [he₁, mapRange_out fun hx => hd1 y hy q hx hq]
        exact hz y (List.mem_cons_of_mem _ hy) q hq
      · refine hok v' tab' (hg₁.trans hg) ?_
        rw [he, he₁]
        rfl
    · have hle : k * PAGESIZE ≤ size / PAGESIZE * PAGESIZE :=
        Nat.mul_le_mul_right PAGESIZE (Nat.le_of_lt hk)
      exact he₁ ▸ hl.mapRange h2 (by omega) h6 h7

end

/-! ## The maps of `Kvm::init` -/

/-- The entries after `Kvm::init`. -/
def kvmEntry (c : Cfg) : Nat → Nat := mapsEntry (kvmMaps c) fun _ => 0

/-- Addresses of the layout in pages. -/
theorem layout_pages (c : Cfg) : pageNo UART = 0x10000 ∧ pageNo KERNEL_START = 0x80200 ∧
    pageNo TRAMPOLINE = 0xffffe ∧ c.etext = pageNo c.etext * PAGESIZE ∧
    0x80200 ≤ pageNo c.etext ∧ pageNo c.etext ≤ 0x84000 ∧
    pageNo c.etext + (RAMEND - c.etext) / PAGESIZE = 0x84000 ∧
    pageNo KERNEL_START + (c.etext - KERNEL_START) / PAGESIZE = pageNo c.etext := by
  have h1 := c.etext_start
  have h2 := c.etext_end
  have h3 := c.ekernel_end
  have h4 := c.etext_page
  have hu : UART = 0x10000000 := rfl
  have hk : KERNEL_START = 0x80200000 := rfl
  have hr : RAMEND = 0x84000000 := rfl
  have ht := trampoline_va.2.2
  unfold pageNo at *
  rw [PAGESIZE_eq] at h4 ht ⊢
  refine ⟨by rw [hu], by rw [hk], ht, by omega, by omega, by omega, by omega, by omega⟩

theorem kvmMaps_ok (c : Cfg) : ∀ x ∈ kvmMaps c, MapOk x := by
  have hus := USIZE_eq
  have h1 := c.etext_start
  have h2 := c.etext_end
  have h3 := c.ekernel_end
  have h4 := c.etext_page
  have hu : UART = 0x10000000 := rfl
  have hk : KERNEL_START = 0x80200000 := rfl
  have hr : RAMEND = 0x84000000 := rfl
  obtain ⟨t1, t2, -⟩ := trampoline_va
  obtain ⟨t3, t4⟩ := c.trampoline_bound
  rw [PAGESIZE_eq] at h4
  intro x hx
  simp only [kvmMaps, List.mem_cons, List.not_mem_nil, or_false] at hx
  have hrw : PermOk (PTE_R ||| PTE_W) := ⟨by decide, by decide⟩
  have hrx : PermOk (PTE_R ||| PTE_X) := ⟨by decide, by decide⟩
  have hxr : PermOk (PTE_X ||| PTE_R) := ⟨by decide, by decide⟩
  have lrw : Sv32.isLeaf (PTE_R ||| PTE_W) := by decide
  have lxr : Sv32.isLeaf (PTE_X ||| PTE_R) := by decide
  have lrx : Sv32.isLeaf (PTE_R ||| PTE_X) := by decide
  rcases hx with rfl | rfl | rfl | rfl
  · refine ⟨?_, ?_, Nat.mod_self _, ?_, ?_, hrw, lrw⟩ <;> dsimp only <;> rw [hu, PAGESIZE_eq] <;> omega
  · refine ⟨?_, ?_, ?_, ?_, ?_, hxr, lxr⟩ <;> dsimp only <;>
      first | omega | (rw [PAGESIZE_eq]; omega)
  · refine ⟨?_, ?_, ?_, ?_, ?_, hrw, lrw⟩ <;> dsimp only <;>
      first | omega | (rw [PAGESIZE_eq]; omega)
  · exact ⟨t1, t3, Nat.mod_self _, t2, t4, hrx, lrx⟩

theorem kvmMaps_apart (c : Cfg) :
    (kvmMaps c).Pairwise fun x y => ∀ q, MapPages x q → ¬ MapPages y q := by
  obtain ⟨p1, p2, p3, -, p5, p6, p7, p8⟩ := layout_pages c
  have h1 : PAGESIZE / PAGESIZE = 1 := Nat.div_self (by rw [PAGESIZE_eq]; omega)
  simp only [kvmMaps, List.pairwise_cons, List.mem_cons, List.not_mem_nil, or_false, forall_eq_or_imp,
    forall_eq, false_implies, implies_true, List.Pairwise.nil, and_true, MapPages, InPages, h1]
  refine ⟨⟨fun q => ?_, fun q => ?_, fun q => ?_⟩, ⟨fun q => ?_, fun q => ?_⟩, fun q => ?_⟩ <;> omega

/-- What `Kvm::init` maps: a page, the frame it leads to, the permissions. -/
inductive KvmPage (c : Cfg) : Nat → Nat → Nat → Prop
  | uart : KvmPage c (pageNo UART) UART (PTE_R ||| PTE_W)
  | text {q} (h : KERNEL_START ≤ q * PAGESIZE) (h' : q * PAGESIZE < c.etext) :
    KvmPage c q (q * PAGESIZE) (PTE_X ||| PTE_R)
  | ram {q} (h : c.etext ≤ q * PAGESIZE) (h' : q * PAGESIZE < RAMEND) :
    KvmPage c q (q * PAGESIZE) (PTE_R ||| PTE_W)
  | trampoline : KvmPage c (pageNo TRAMPOLINE) c.trampoline (PTE_R ||| PTE_X)

/-- The entries after `Kvm::init` page by page. -/
theorem kvmEntry_iff (c : Cfg) (q : Nat) :
    (∀ f perm, KvmPage c q f perm → kvmEntry c q = leafWord f perm) ∧
      ((∀ f perm, ¬ KvmPage c q f perm) → kvmEntry c q = 0) := by
  obtain ⟨p1, p2, p3, p4, p5, p6, p7, p8⟩ := layout_pages c
  have hsz := PAGESIZE_eq
  have hu : UART = 0x10000000 := rfl
  have hk : KERNEL_START = 0x80200000 := rfl
  have hr : RAMEND = 0x84000000 := rfl
  have h1 : PAGESIZE / PAGESIZE = 1 := Nat.div_self (by rw [hsz]; omega)
  have he : kvmEntry c q = mapRange (pageNo TRAMPOLINE) 1 c.trampoline (PTE_R ||| PTE_X)
      (mapRange (pageNo c.etext) ((RAMEND - c.etext) / PAGESIZE) c.etext (PTE_R ||| PTE_W)
        (mapRange (pageNo KERNEL_START) ((c.etext - KERNEL_START) / PAGESIZE) KERNEL_START
          (PTE_X ||| PTE_R) (mapRange (pageNo UART) 1 UART (PTE_R ||| PTE_W) fun _ => 0))) q := by
    unfold kvmEntry mapsEntry kvmMaps
    simp only [List.foldl_cons, List.foldl_nil, h1]
  rw [he]
  unfold mapRange
  constructor
  · rintro f perm (- | ⟨h, h'⟩ | ⟨h, h'⟩ | -)
    · rw [if_neg (by omega), if_neg (by omega), if_neg (by omega), if_pos (by omega), Nat.sub_self,
        Nat.zero_mul, Nat.add_zero]
    · rw [hsz] at h h' p4
      rw [if_neg (by omega), if_neg (by omega), if_pos (by omega)]
      congr 1
      rw [hsz]
      omega
    · rw [hsz] at h h' p4
      rw [if_neg (by omega), if_pos (by omega)]
      congr 1
      rw [hsz]
      omega
    · rw [if_pos (by omega), Nat.sub_self, Nat.zero_mul, Nat.add_zero]
  · intro hno
    have n1 : q ≠ pageNo UART := by
      rintro rfl
      exact hno _ _ .uart
    have n2 : q ≠ pageNo TRAMPOLINE := by
      rintro rfl
      exact hno _ _ .trampoline
    have n3 : KERNEL_START ≤ q * PAGESIZE → ¬ q * PAGESIZE < c.etext := fun h h' =>
      hno _ _ (.text h h')
    have n4 : c.etext ≤ q * PAGESIZE → ¬ q * PAGESIZE < RAMEND := fun h h' => hno _ _ (.ram h h')
    rw [hsz] at n3 n4 p4
    rw [if_neg (by omega), if_neg (by omega), if_neg (by omega), if_neg (by omega)]

/-! ## The table and the stacks -/

structure KvmInv (c : Cfg) (v : View) (root : Nat) (tab : Nat → Option Nat) (S : Nat → Prop)
    (fr : Nat → Nat) : Prop where
  tree : Tree c v root tab
  base : ∀ q, ¬ S q → pte v.mem tab q = kvmEntry c q
  stack : ∀ q, S q → pte v.mem tab q = leafWord (fr q) (PTE_R ||| PTE_W)
  page : ∀ q, S q → c.IsFrame (fr q) ∧ fr q ∈ v.own ∧ ¬ Tree.Has root tab (fr q)
  inj : ∀ q r, S q → S r → fr q = fr r → q = r

/-- The party took `k` frames and more, and gave none back. -/
structure Took (k : Nat) (v v' : View) : Prop where
  sub : ∀ f ∈ v.own, f ∈ v'.own
  card : v.own.card + k ≤ v'.own.card

theorem Took.trans {k l : Nat} {v₁ v₂ v₃ : View} (h₁ : Took k v₁ v₂) (h₂ : Took l v₂ v₃) :
    Took (k + l) v₁ v₃ :=
  ⟨fun f hf => h₂.sub f (h₁.sub f hf), by have := h₁.card; have := h₂.card; omega⟩

theorem Took.insert {v v' : View} {f : Nat} (hf : f ∉ v.own) (ho : v'.own = insert f v.own) :
    Took 1 v v' :=
  ⟨fun g hg => by rw [ho]; exact Finset.mem_insert_of_mem hg,
    by rw [ho, Finset.card_insert_of_notMem hf]⟩

theorem Grown.took {c : Cfg} {v v' : View} {root : Nat} {tab tab' : Nat → Option Nat}
    (h : Grown c v v' root tab tab') : Took 0 v v' :=
  ⟨fun _ hf => h.own_sub hf, Finset.card_le_card fun _ hf => h.own_sub hf⟩

namespace KvmInv

variable {c : Cfg} {v v₁ v' : View} {root : Nat} {tab tab' : Nat → Option Nat} {S : Nat → Prop}
  {fr : Nat → Nat}

theorem congr (h : KvmInv c v root tab S fr) (ho : ∀ f ∈ v.own, f ∈ v'.own)
    (hm : ∀ a, pageOf a ∈ v.own → v'.mem a = v.mem a) : KvmInv c v' root tab S fr := by
  have ht : ∀ a, Tree.Has root tab (pageOf a) → v'.mem a = v.mem a := fun a ha =>
    hm a (h.tree.has_own ha)
  have he := h.tree.pte_congr ht
  exact ⟨h.tree.congr (fun f hf => ho f (h.tree.has_own hf)) ht,
    fun q hq => (he q).trans (h.base q hq), fun q hq => (he q).trans (h.stack q hq),
    fun q hq => ⟨(h.page q hq).1, ho _ (h.page q hq).2.1, (h.page q hq).2.2⟩, h.inj⟩

/-- A page of a stack was mapped to a fresh frame. -/
theorem add (h : KvmInv c v root tab S fr) {p f : Nat} (hp : ¬ S p)
    (ha : Added c v v' root tab tab' (· = p) (fun _ => PTE_R ||| PTE_W) fun _ => f) :
    KvmInv c v' root tab' (fun q => S q ∨ q = p) (Function.update fr p f) := by
  have hne : ∀ q, S q → q ≠ p := fun q hq he => hp (he ▸ hq)
  have hfr : ∀ q, S q → Function.update fr p f q = fr q := fun q hq =>
    Function.update_of_ne (hne q hq) ..
  obtain ⟨hff, hfo, hft⟩ := ha.page rfl
  have hnew : ∀ q, S q → fr q ≠ f := fun q hq he => hfo (he ▸ (h.page q hq).2.1)
  refine ⟨ha.tree, fun q hq => ?_, fun q hq => ?_, fun q hq => ?_, fun q r hq hr he => ?_⟩
  · rw [not_or] at hq
    rw [ha.old hq.2, h.base q hq.1]
  · rcases hq with hq | rfl
    · rw [hfr q hq, ha.old (hne q hq), h.stack q hq]
    · rw [Function.update_self, ha.new rfl]
  · rcases hq with hq | rfl
    · obtain ⟨h1, h2, h3⟩ := h.page q hq
      rw [hfr q hq]
      exact ⟨h1, ha.own_sub h2, ha.not_has h2 h3⟩
    · rw [Function.update_self]
      exact ⟨hff, (ha.own _).2 (.inr (.inr ⟨_, rfl, rfl⟩)), hft⟩
  · rcases hq with hq | rfl <;> rcases hr with hr | rfl
    · rw [hfr q hq, hfr r hr] at he
      exact h.inj q r hq hr he
    · rw [hfr q hq, Function.update_self] at he
      exact absurd he (hnew q hq)
    · rw [hfr r hr, Function.update_self] at he
      exact absurd he.symm (hnew r hr)
    · rfl

theorem pages (h : KvmInv c v root tab S fr) {S' : Nat → Prop} (hS : ∀ q, S q ↔ S' q) :
    KvmInv c v root tab S' fr := by
  rwa [show S' = S from funext fun q => propext (hS q).symm]

end KvmInv

/-! ## The code -/

/-- `KSTACK!(n)`, where it is an address. -/
def kstackAddr (n : Nat) : Nat := TRAMPOLINE - (n + 1) * PAGESIZE * (KERNEL_STACK_PAGES + 1) + PAGESIZE

/-- The stack of slot `n` lies below the trampoline, in the address space. -/
def KstackFits (n : Nat) : Prop := (n + 1) * PAGESIZE * (KERNEL_STACK_PAGES + 1) ≤ TRAMPOLINE

/-- A process as `Process::new` makes it for slot `n`. -/
structure Process.IsNew (p : Process) (n root trapframe : Nat) : Prop where
  pid : p.pid = none
  state : p.state = .Unused
  kstack : p.kstack = kstackAddr n
  parent : p.parent = none
  pagetable : p.pagetable = ⟨USER_START, 0, ⟨root⟩⟩
  trapframe : p.trapframe = trapframe
  dropping : p.dropping = false
  reaped : p.reaped = none
  quants : p.quants = 0

section
variable {E : Mode} {v : View} {root : Nat} {tab : Nat → Option Nat} {S : Nat → Prop}
  {fr : Nat → Nat}

theorem kstackAddr_page {n : Nat} (h : KstackFits n) : kstackAddr n % PAGESIZE = 0 ∧
    kstackAddr n + KERNEL_STACK_PAGES * PAGESIZE ≤ TRAMPOLINE ∧
    pageNo (kstackAddr n) = pageNo TRAMPOLINE - 3 * (n + 1) + 1 := by
  have ht := trampoline_va.1
  unfold kstackAddr KstackFits pageNo KERNEL_STACK_PAGES at *
  rw [PAGESIZE_eq] at *
  omega

theorem wp_KSTACK {n : Nat} (h : KstackFits n) {Q : Nat → View → Prop} (hQ : Q (kstackAddr n) v) :
    M.wp E (KSTACK n) Q v := by
  have h1 := (kstackAddr_page h).2.1
  have h2 := trampoline_va.2.1
  unfold KSTACK
  rw [M.wp_bind]
  refine M.wp_sub h (M.wp_add ?_ hQ)
  unfold kstackAddr at h1
  omega

theorem wp_processNew {n : Nat} (h : KstackFits n) (hen : E.Enough (v.own.card + 1))
    {Q : Process → View → Prop}
    (hok : ∀ p v' r f, p.IsNew n r f → r ∉ v.own → E.cfg.IsFrame f → f ∉ insert r v.own →
      v'.own = insert f (insert r v.own) →
      (∀ a, pageOf a ≠ r → pageOf a ≠ f → v'.mem a = v.mem a) →
      Space E.cfg v' ⟨USER_START, 0, ⟨r⟩⟩ (fun _ => none) → Q p v') :
    M.wp E (Process.new n) Q v := by
  unfold Process.new
  rw [M.wp_bind]
  refine wp_KSTACK h ?_
  rw [M.wp_bind]
  refine wp_uvmNew (fun ho => hen _ ho (by omega)) fun v₁ r hr ho₁ hm₁ hs₁ => ?_
  rw [M.wp_bind]
  refine World.wp_newIn (fun ho => hen _ ho ?_) fun f v₂ hf hfo ho₂ hm₂ _ => ?_
  · rw [ho₁, Finset.card_insert_of_notMem hr]
  · rw [ho₁] at hfo ho₂
    have hfr : r ≠ f := fun he => hfo (he ▸ Finset.mem_insert_self _ _)
    refine hok _ v₂ r f ⟨rfl, rfl, rfl, rfl, rfl, rfl, rfl, rfl, rfl⟩ hr hf hfo ho₂
      (fun a h1 h2 => (hm₂ a h2).trans (hm₁ a h1)) (hs₁.congr (fun g hg => ?_) fun a ha => ?_)
    · rw [ho₁] at hg
      rw [ho₂]
      exact Finset.mem_insert_of_mem hg
    · rcases ha with ha | ⟨i, hi⟩
      · exact hm₂ a fun he => hfr (ha.symm.trans he)
      · cases hi

/-- **`alloc_kstack`** from page `i`, `n` pages. -/
theorem wp_allocKstackLoop {va : Nat} (hva : va % PAGESIZE = 0) (n : Nat) :
    ∀ {v : View} {tab : Nat → Option Nat} {S : Nat → Prop} {fr : Nat → Nat} {i : Nat},
      KvmInv E.cfg v root tab S fr → va + (i + n) * PAGESIZE < USIZE →
      (∀ q, InPages (pageNo va + i) n q → ¬ S q ∧ kvmEntry E.cfg q = 0) →
      E.Enough (v.own.card + n * 1025) → ∀ {Q : Unit → View → Prop},
      (∀ v' tab' fr', KvmInv E.cfg v' root tab' (fun q => S q ∨ InPages (pageNo va + i) n q) fr' →
        Took n v v' → v'.own.card ≤ v.own.card + n * 1025 → Q () v') →
      M.wp E (allocKstackLoop ⟨root⟩ va n i) Q v := by
  induction n with
  | zero =>
    intro v tab S fr i h _ _ _ Q hok
    refine hok v tab fr (h.pages fun q => ?_) ⟨fun _ hf => hf, by omega⟩ (by omega)
    exact ⟨.inl, fun hq => hq.resolve_right (not_inPages_zero _ _)⟩
  | succ n ih =>
    intro v tab S fr i h hlt hfree hen Q hok
    have hsz := PAGESIZE_eq
    have hpn : pageNo (va + i * PAGESIZE) = pageNo va + i := by
      unfold pageNo
      rw [hsz]
      omega
    have hin : InPages (pageNo va + i) (n + 1) (pageNo va + i) := ⟨by omega, by omega⟩
    obtain ⟨hnS, h0⟩ := hfree _ hin
    have hrw : PermOk (PTE_R ||| PTE_W) := ⟨by decide, by decide⟩
    have hlt' : va + i * PAGESIZE + PAGESIZE < USIZE ∧ va + (i + 1 + n) * PAGESIZE < USIZE := by
      rw [hsz, USIZE_eq] at hlt ⊢
      omega
    unfold allocKstackLoop
    rw [← bind_assoc, M.wp_bind]
    refine M.wp_allocate_unwrap (fun ho => hen _ ho (by omega)) fun f hf hfo m' hm' => ?_
    have hfn : ∀ a, pageOf a ∈ v.own → m' a = v.mem a := fun a ha =>
      hm' a (.inr fun he => hfo (he ▸ ha))
    have ht : Tree E.cfg { own := insert f v.own, mem := m' } root tab :=
      h.tree.congr (fun g hg => Finset.mem_insert_of_mem (h.tree.has_own hg)) fun a ha =>
        hfn a (h.tree.has_own ha)
    have hpe : pte m' tab = pte v.mem tab :=
      funext (h.tree.pte_congr fun a ha => hfn a (h.tree.has_own ha))
    have hb := hf.bound
    rw [M.wp_bind]
    refine M.wp_add (by omega) ?_
    rw [M.wp_bind]
    have h0' : pte m' tab (pageNo va + i) = 0 := by rw [hpe, h.base _ hnS, h0]
    refine wp_map_one ht (by rw [hsz] at hva ⊢; omega) hlt'.1 hf.page
      (by rw [hsz, USIZE_eq]; omega) hrw (fun _ => ?_) (fun v₁ tab₁ hg ht he => ?_)
      fun v₁ hg ho _ _ => ?_
    · show pte m' tab (pageNo (va + i * PAGESIZE)) % 2 = 0
      rw [hpn, h0']
    · have ha : Added E.cfg v v₁ root tab tab₁ (· = pageNo va + i)
          (fun _ => PTE_R ||| PTE_W) fun _ => f :=
        .page_round h.tree hf hfo rfl (fun a hne => hm' a (.inr hne)) hg (by rw [← hpn]; exact ht)
          (by rw [← hpn]; exact he) rfl
      have hk := h.add hnS ha
      have htook : Took 1 v v₁ := (Took.insert hfo rfl).trans hg.took
      have hle := hg.own_card
      rw [Finset.card_insert_of_notMem hfo] at hle
      rw [M.wp_bind]
      refine M.wp_unwrapOk (fun _ => ih (i := i + 1) hk hlt'.2
        (fun q hq => ?_) (hen.mono (by omega)) fun v' tab' fr' hk' ht' hc' => ?_) fun he => by cases he
      · unfold InPages at hq
        obtain ⟨h1, h2⟩ := hfree q ⟨by omega, by omega⟩
        refine ⟨fun hS => ?_, h2⟩
        rcases hS with hS | rfl
        · exact h1 hS
        · omega
      · refine hok v' tab' fr' (hk'.pages fun q => ?_) ⟨fun g hg => ht'.sub g (htook.sub g hg), ?_⟩
          (by omega)
        · unfold InPages
          constructor
          · rintro ((hS | rfl) | hq)
            · exact .inl hS
            · exact .inr ⟨by omega, by omega⟩
            · exact .inr ⟨by omega, by omega⟩
          · rintro (hS | hq)
            · exact .inl (.inl hS)
            · by_cases hqi : q = pageNo va + i
              · exact .inl (.inr hqi)
              · exact .inr ⟨by omega, by omega⟩
        · have := htook.card
          have := ht'.card
          omega
    · rw [M.wp_bind]
      refine M.wp_unwrapOk (fun he => by cases he) fun _ => hen _ ho ?_
      have hle := hg.own_card
      rw [Finset.card_insert_of_notMem hfo] at hle
      omega

/-- The stack of slot `n`. -/
theorem wp_allocKstack {n : Nat} (hn : KstackFits n) (h : KvmInv E.cfg v root tab S fr)
    (hfree : ∀ q, InPages (pageNo (kstackAddr n)) KERNEL_STACK_PAGES q →
      ¬ S q ∧ kvmEntry E.cfg q = 0)
    (hen : E.Enough (v.own.card + KERNEL_STACK_PAGES * 1025)) {Q : Unit → View → Prop}
    (hok : ∀ v' tab' fr', KvmInv E.cfg v' root tab'
        (fun q => S q ∨ InPages (pageNo (kstackAddr n)) KERNEL_STACK_PAGES q) fr' →
      Took KERNEL_STACK_PAGES v v' → v'.own.card ≤ v.own.card + KERNEL_STACK_PAGES * 1025 →
      Q () v') :
    M.wp E (do allocKstack ⟨root⟩ (← KSTACK n)) Q v := by
  obtain ⟨hpg, htop, -⟩ := kstackAddr_page hn
  have htv := trampoline_va.2.1
  rw [M.wp_bind]
  refine wp_KSTACK hn (wp_allocKstackLoop hpg KERNEL_STACK_PAGES (i := 0) h ?_ hfree hen hok)
  rw [Nat.zero_add]
  omega

end

end BareMetal
