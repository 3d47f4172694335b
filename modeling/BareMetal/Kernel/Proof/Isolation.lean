import BareMetal.Kernel.Proof.First
import BareMetal.Kernel.Proof.Life

/-!
# Isolation

`Sys.Uses s f u`: the system uses frame `f` as `u` says, for a page of a user, for a page table, for
a trapframe, for a kernel stack, or it is free. Wherever the hart can change hands a frame has one
use (`frames_one_use`), every process has the trampoline and its trapframe where the vectors look
for them (`vectors_mapped`), and no frame is freed twice (`no_double_free`). A user program writes to
its own pages and changes no use (`user_confined`); what a process has in memory it finds again when
it gets the hart back, whatever ran meanwhile (`memory_intact`).
-/

namespace BareMetal

open Lib

variable {c : Cfg} {f i j : Nat}

/-! ## Uses of frames -/

/-- Where the frame of a page table hangs: it is the root, or an entry of the root leads to it. -/
def TableAt (m : Bytes) (root f : Nat) : Option Nat → Prop
  | none => f = root
  | some n => n < 1024 ∧ m.word (root + 4 * n) % 2 = 1 ∧ m.word (root + 4 * n) / 1024 * 4096 = f

inductive SlotUse
  | trapframe
  /-- Virtual page `q` is a user page. -/
  | user (q : Nat)
  | table (n : Option Nat)

inductive KvmUse
  | table (n : Option Nat)
  /-- Page `k` of the kernel stack of slot `i`. -/
  | stack (i k : Nat)

inductive Use
  | free
  | slot (i : Nat) (u : SlotUse)
  | kvm (u : KvmUse)

/-- Physical page `f` is user page `q`; an address space that is being dropped has no pages. -/
def Process.Uses (p : Process) (m : Bytes) (f : Nat) : SlotUse → Prop
  | .trapframe => p.trapframe = f
  | .user q => p.dropping = false ∧ ∃ va e pa, pageNo va = q ∧
      Sv32.walk m p.pagetable.pagetable.root va = some (e, pa) ∧ e / 16 % 2 = 1 ∧ pageOf pa = f
  | .table n => p.dropping = false ∧ TableAt m p.pagetable.pagetable.root f n

def PageTable.Uses (t : PageTable) (nproc : Nat) (m : Bytes) (f : Nat) : KvmUse → Prop
  | .table n => TableAt m t.root f n
  | .stack i k => i < nproc ∧ k < KERNEL_STACK_PAGES ∧
      ∃ e, Sv32.walk m t.root (kstackPage i k * PAGESIZE) = some (e, f)

def Sys.Uses (s : Sys) (f : Nat) : Use → Prop
  | .free => f ∈ s.phys.free
  | .slot i u => i < s.data.nproc ∧ (s.data.process_table i).Uses s.phys.mem f u
  | .kvm u => ∃ t, s.data.kvm = some t ∧ t.Uses s.data.nproc s.phys.mem f u

/-! ## One use -/

section
variable {v : View} {root : Nat} {tab : Nat → Option Nat} {n n' : Option Nat}

theorem Tree.tableAt (h : Tree c v root tab) (hf : TableAt v.mem root f n) :
    (n = none ∧ f = root) ∨ ∃ k, n = some k ∧ tab k = some f := by
  cases n with
  | none => exact .inl ⟨rfl, hf⟩
  | some k =>
    obtain ⟨hk, hv, he⟩ := hf
    refine .inr ⟨k, rfl, ?_⟩
    rw [h.dir k hk] at hv he
    cases ht : tab k with
    | none =>
      rw [ht] at hv
      cases hv
    | some t =>
      have hp := (h.frame ht).page
      rw [ht, dirWord] at he
      unfold ptrWord at he
      rw [PAGESIZE_eq] at hp
      congr 1
      omega

theorem Tree.tableAt_has (h : Tree c v root tab) (hf : TableAt v.mem root f n) : Has root tab f := by
  rcases h.tableAt hf with ⟨-, rfl⟩ | ⟨k, -, hk⟩
  · exact .inl rfl
  · exact .inr ⟨k, hk⟩

theorem Tree.tableAt_inj (h : Tree c v root tab) (hf : TableAt v.mem root f n)
    (hf' : TableAt v.mem root f n') : n = n' := by
  rcases h.tableAt hf with ⟨rfl, he⟩ | ⟨k, rfl, hk⟩
  · rcases h.tableAt hf' with ⟨rfl, -⟩ | ⟨k, -, hk⟩
    · rfl
    · exact (h.ne_root hk he).elim
  · rcases h.tableAt hf' with ⟨-, he⟩ | ⟨l, rfl, hl⟩
    · exact (h.ne_root hk he).elim
    · rw [h.inj hk hl]

theorem Tree.tableAt_congr (h : Tree c v root tab) {m : Bytes}
    (hm : ∀ a, Has root tab (pageOf a) → m a = v.mem a) : TableAt m root f n ↔ TableAt v.mem root f n := by
  cases n with
  | none => exact .rfl
  | some k =>
    refine and_congr_right fun hk => ?_
    rw [word_entry_congr h.root_frame.page hk fun a ha => hm a (.inl ha)]

end

namespace SlotMem

variable {own : Finset Nat} {m : Bytes} {p : Process} {live : Prop} {u u' : SlotUse} {q : Nat}
  {n : Option Nat}

/-- A user page is in the address space, and no table of it. -/
theorem user_page (h : SlotMem c own m p live) (hu : p.Uses m f (.user q)) : ∃ tab,
    Space c ⟨own.erase p.trapframe, m⟩ p.pagetable tab ∧ Maps (pte m tab q) f := by
  obtain ⟨hd, va, e, pa, rfl, hw, he, rfl⟩ := hu
  obtain ⟨tab, hs, -⟩ := h.space hd
  exact ⟨tab, hs, hs.walk_maps hw he⟩

theorem mem_erase (h : SlotMem c own m p live) (hu : p.Uses m f u) (hne : u ≠ .trapframe) :
    f ∈ own.erase p.trapframe := by
  cases u with
  | trapframe => exact (hne rfl).elim
  | user q =>
    obtain ⟨tab, hs, hm⟩ := h.user_page hu
    exact (hs.user q f hm).1
  | table n =>
    obtain ⟨tab, hs, -⟩ := h.space hu.1
    exact hs.tree.has_own (hs.tree.tableAt_has hu.2)

theorem uses_mem (h : SlotMem c own m p live) (hu : p.Uses m f u) : f ∈ own := by
  by_cases hne : u = .trapframe
  · subst hne
    obtain rfl : p.trapframe = f := hu
    exact h.trapframe
  · exact Finset.mem_of_mem_erase (h.mem_erase hu hne)

theorem not_both (h : SlotMem c own m p live) (hu : p.Uses m f (.user q))
    (hn : p.Uses m f (.table n)) : False := by
  obtain ⟨tab, hs, hm⟩ := h.user_page hu
  exact (hs.user q f hm).2 (hs.tree.tableAt_has hn.2)

/-- The slot has one use for a frame. -/
theorem one_use (h : SlotMem c own m p live) (hu : p.Uses m f u) (hu' : p.Uses m f u') : u = u' := by
  have htf : ∀ {x y : SlotUse}, p.Uses m f x → p.Uses m f y → x = .trapframe → y = .trapframe :=
    fun {x y} hx hy he => by
      subst he
      obtain rfl : p.trapframe = f := hx
      by_contra hne
      exact Finset.ne_of_mem_erase (h.mem_erase hy hne) rfl
  cases u with
  | trapframe => exact (htf hu hu' rfl).symm
  | user q =>
    cases u' with
    | trapframe => exact htf hu' hu rfl
    | user r =>
      obtain ⟨hd, va, e, pa, rfl, hw, he, rfl⟩ := hu
      obtain ⟨-, va', e', pa', rfl, hw', he', hpa⟩ := hu'
      obtain ⟨tab, hs, -⟩ := h.space hd
      have hm' := hs.walk_maps hw' he'
      rw [hpa] at hm'
      rw [hs.inj _ _ _ (hs.walk_maps hw he) hm']
    | table n => exact (h.not_both hu hu').elim
  | table n =>
    cases u' with
    | trapframe => exact htf hu' hu rfl
    | user q => exact (h.not_both hu' hu).elim
    | table n' =>
      obtain ⟨tab, hs, -⟩ := h.space hu.1
      rw [hs.tree.tableAt_inj hu.2 hu'.2]

end SlotMem

/-- A page of a kernel stack is below the trampoline. -/
theorem kstackPage_va {k : Nat} (hk : k < KERNEL_STACK_PAGES) :
    kstackPage i k * PAGESIZE < USIZE ∧ pageNo (kstackPage i k * PAGESIZE) = kstackPage i k := by
  have h1 := trampoline_va.2.2
  have h2 : kstackPage i k < 0xfffff := by
    unfold kstackPage KERNEL_STACK_PAGES at *
    omega
  unfold pageNo
  rw [PAGESIZE_eq, USIZE_eq]
  omega

namespace KvmMem

variable {own : Finset Nat} {m : Bytes} {t : PageTable} {tab : Nat → Option Nat} {u u' : KvmUse}
  {nproc k : Nat}

theorem stack_page (h : KvmMem c own m t.root nproc tab) (hf : ∀ g ∈ own, c.IsFrame g)
    (hu : t.Uses nproc m f (.stack i k)) :
    f ∈ own ∧ ¬ Tree.Has t.root tab f ∧ pte m tab (kstackPage i k) = leafWord f (PTE_R ||| PTE_W) := by
  obtain ⟨hi, hk, e, hw⟩ := hu
  obtain ⟨g, hg, hno, he⟩ := h.stack i hi k hk
  obtain ⟨h1, h2⟩ := kstackPage_va (i := i) hk
  have he' : pte m tab (pageNo (kstackPage i k * PAGESIZE)) = leafWord g (PTE_R ||| PTE_W) := by
    rw [h2]
    exact he
  have hl := h.tree.sv32_leaf h1 he' (hf g hg).aligned ⟨by decide, by decide⟩ (by decide)
  rw [Nat.mul_mod_left] at hl
  obtain ⟨-, rfl⟩ := Prod.mk.inj (Option.some.inj (hw.symm.trans hl))
  exact ⟨hg, hno, he⟩

theorem uses_mem (h : KvmMem c own m t.root nproc tab) (hf : ∀ g ∈ own, c.IsFrame g)
    (hu : t.Uses nproc m f u) : f ∈ own := by
  cases u with
  | table n => exact h.tree.has_own (h.tree.tableAt_has hu)
  | stack i k => exact (h.stack_page hf hu).1

/-- The kernel's table has one use for a frame. -/
theorem one_use (h : KvmMem c own m t.root nproc tab) (hf : ∀ g ∈ own, c.IsFrame g)
    (hu : t.Uses nproc m f u) (hu' : t.Uses nproc m f u') : u = u' := by
  cases u with
  | table n =>
    cases u' with
    | table n' => rw [h.tree.tableAt_inj hu hu']
    | stack i k => exact ((h.stack_page hf hu').2.1 (h.tree.tableAt_has hu)).elim
  | stack i k =>
    cases u' with
    | table n' => exact ((h.stack_page hf hu).2.1 (h.tree.tableAt_has hu')).elim
    | stack j l =>
      obtain ⟨-, -, he⟩ := h.stack_page hf hu
      obtain ⟨-, -, he'⟩ := h.stack_page hf hu'
      obtain ⟨rfl, rfl⟩ := h.inj i hu.1 k hu.2.1 j hu'.1 l hu'.2.1 (he.trans he'.symm)
      rfl

end KvmMem

/-- Who owns the frames of a use. -/
def Use.party : Use → Option Party
  | .free => none
  | .slot i _ => some (.slot i)
  | .kvm _ => some .kvm

section
variable {s : Sys} {own : Party → Finset Nat} {u u' : Use}

/-- A frame in use belongs to the party of the use, or it is free. -/
theorem MemInv.uses_owner (h : MemInv c own s.phys.mem s.data) (how : Owned c own s.phys.free)
    (hu : s.Uses f u) : (u = .free ∧ f ∈ s.phys.free) ∨ ∃ x, u.party = some x ∧ f ∈ own x := by
  cases u with
  | free => exact .inl ⟨rfl, hu⟩
  | slot i u => exact .inr ⟨.slot i, rfl, (h.slot i hu.1).uses_mem hu.2⟩
  | kvm u =>
    obtain ⟨t, ht, hu⟩ := hu
    obtain ⟨t', tab, ht', hk⟩ := h.kvm
    obtain rfl := Option.some.inj (ht.symm.trans ht')
    exact .inr ⟨.kvm, rfl, hk.uses_mem (how.frame .kvm) hu⟩

/-- The system has one use for a frame. -/
theorem MemInv.one_use (h : MemInv c own s.phys.mem s.data) (how : Owned c own s.phys.free)
    (hu : s.Uses f u) (hu' : s.Uses f u') : u = u' := by
  have hp : u.party = u'.party := by
    rcases h.uses_owner how hu with ⟨rfl, hf⟩ | ⟨x, hx, hf⟩
    · rcases h.uses_owner how hu' with ⟨rfl, -⟩ | ⟨y, -, hf'⟩
      · rfl
      · exact (how.not_free y f hf' hf).elim
    · rcases h.uses_owner how hu' with ⟨-, hf'⟩ | ⟨y, hy, hf'⟩
      · exact (how.not_free x f hf hf').elim
      · rw [hx, hy, how.disj x y f hf hf']
  cases u with
  | free =>
    cases u' with
    | free => rfl
    | slot j u' => cases hp
    | kvm u' => cases hp
  | slot i u =>
    cases u' with
    | free => cases hp
    | slot j u' =>
      obtain rfl := Party.slot.inj (Option.some.inj hp)
      rw [(h.slot i hu.1).one_use hu.2 hu'.2]
    | kvm u' => cases hp
  | kvm u =>
    cases u' with
    | free => cases hp
    | slot j u' => cases hp
    | kvm u' =>
      obtain ⟨t, ht, hu⟩ := hu
      obtain ⟨t', ht', hu'⟩ := hu'
      obtain ⟨t'', tab, ht'', hk⟩ := h.kvm
      obtain rfl := Option.some.inj (ht.symm.trans ht'')
      obtain rfl := Option.some.inj (ht.symm.trans ht')
      rw [hk.one_use (how.frame .kvm) hu hu']

end

/-! ## Wherever the hart can change hands -/

namespace Machine

variable {m m' : Machine} {h : History}

/-- Who runs there, and what it finds. -/
theorem Run.atSwitch (hr : Run c StatusFits m h) (hw : m.AtSwitch) : ∃ me own,
    MInv c.tracked m h me own ∧ Owned c own m.sys.phys.free ∧
      MemInv c own m.sys.phys.mem m.sys.data ∧ ∀ j, m.sys.data.current ≠ some j → some j ≠ me := by
  obtain ⟨me, own, hi⟩ := hr.keeps_tracked
  obtain ⟨run, hinv, -, hne⟩ := hw.inv hi
  exact ⟨me, own, hi, hi.owned hr.linked, hinv.mem hr.linked, hne⟩

end Machine

/-- The trampoline and the trapframe are where the vectors look for them. -/
structure Process.Mapped (c : Cfg) (m : Bytes) (p : Process) : Prop where
  trampoline : Sv32.walk m p.pagetable.pagetable.root TRAMPOLINE =
    some (leafWord c.trampoline (PTE_R ||| PTE_X), c.trampoline)
  trapframe : Sv32.walk m p.pagetable.pagetable.root TRAPFRAME =
    some (leafWord p.trapframe (PTE_R ||| PTE_W), p.trapframe)

theorem SlotMem.mapped {own : Finset Nat} {m : Bytes} {p : Process} (h : SlotMem c own m p True)
    (hd : p.dropping = false) (hf : c.IsFrame p.trapframe) : p.Mapped c m := by
  refine ⟨?_, h.walk_trapframe hd hf⟩
  obtain ⟨tab, hs, hv⟩ := h.space hd
  obtain ⟨h1, h2, -⟩ := trampoline_va
  have hlt : TRAMPOLINE < USIZE := by omega
  have hal := c.trampoline_readable.aligned c.tramp_page
  have h3 := hs.tree.sv32_leaf hlt (hv trivial).trampoline hal ⟨by decide, by decide⟩ (by decide)
  rw [h1] at h3
  exact h3

/-- **Every process that can run has the vectors mapped**: the trampoline, and its own trapframe. -/
theorem vectors_mapped {m : Machine} (hr : Machine.Reach c Machine.StatusFits m)
    (hw : m.AtSwitch) (hl : m.sys.data.Live i)
    (hd : (m.sys.data.process_table i).dropping = false) :
    (m.sys.data.process_table i).Mapped c m.sys.phys.mem := by
  obtain ⟨h, hr⟩ := hr.run
  obtain ⟨me, own, -, how, hm, -⟩ := hr.atSwitch hw
  have hs : SlotMem c (own (.slot i)) m.sys.phys.mem (m.sys.data.process_table i) True :=
    (hm.slot i hl.1).grow (fun _ => hl) (fun _ _ => trivial) (Finset.Subset.refl _)
      (fun _ _ => rfl) ⟨rfl, rfl, rfl⟩
  exact hs.mapped hd (how.frame _ _ hs.trapframe)

/-- Those of init. -/
theorem vectors_mapped_demo : ∃ m : Machine,
    (m.sys.data.process_table 0).Mapped Cfg.demo m.sys.phys.mem := by
  obtain ⟨m, hr, he⟩ := Machine.boot_user
  exact ⟨m, vectors_mapped hr (.inr (.inr (.inr he.sie))) he.live he.whole⟩

/-- **No frame is freed twice**, in any step of a run. -/
theorem no_double_free {m : Machine} (hr : Machine.Reach c Machine.StatusFits m) :
    m.sys.phys.free.Nodup ∧ (∀ f ∈ m.sys.phys.free, c.IsFrame f) ∧
      ∀ f k, m.code = .op (.mem (.dealloc f)) k → f ∉ m.sys.phys.free := by
  obtain ⟨h, hr⟩ := hr.run
  obtain ⟨me, own, hi⟩ := hr.keeps_tracked
  have how : Owned c own m.sys.phys.free := hi.owned hr.linked
  exact ⟨how.nodup, how.free_frame, fun f k hc => (hi.next hc).2.1 hr.linked f rfl⟩

/-- A machine in user mode. -/
theorem no_double_free_demo : ∃ m : Machine, m.code = .ret .user ∧ m.sys.phys.free.Nodup := by
  obtain ⟨m, hr, he⟩ := Machine.boot_user
  exact ⟨m, he.code, (no_double_free hr).1⟩

/-! ## While a process does not run -/

namespace SlotMem

variable {own : Finset Nat} {m m' : Bytes} {p p' : Process} {live : Prop} {u : SlotUse}

/-- The pages and tables of a slot are those its tables say. -/
theorem uses_tables (h : SlotMem c own m p live)
    (hm : ∀ tab, Space c ⟨own.erase p.trapframe, m⟩ p.pagetable tab →
      ∀ a, Tree.Has p.pagetable.pagetable.root tab (pageOf a) → m' a = m a)
    (hp : p.SameMem p') (hu : p.Uses m f u) : p'.Uses m' f u := by
  obtain ⟨h1, h2, h3⟩ := hp
  cases u with
  | trapframe => exact h1.trans hu
  | user q =>
    obtain ⟨hd, va, e, pa, hq, hw, he, hpa⟩ := hu
    obtain ⟨tab, hs, -⟩ := h.space hd
    refine ⟨h3.trans hd, va, e, pa, hq, ?_, he, hpa⟩
    rw [h2, hs.tree.walk_congr (hm tab hs)]
    exact hw
  | table n =>
    obtain ⟨hd, ht⟩ := hu
    obtain ⟨tab, hs, -⟩ := h.space hd
    refine ⟨h3.trans hd, ?_⟩
    rw [h2]
    exact (hs.tree.tableAt_congr (hm tab hs)).2 ht

theorem tables_same (hm : ∀ a, pageOf a ∈ own → m' a = m a) (tab : Nat → Option Nat)
    (hs : Space c ⟨own.erase p.trapframe, m⟩ p.pagetable tab) (a : Nat)
    (ha : Tree.Has p.pagetable.pagetable.root tab (pageOf a)) : m' a = m a :=
  hm a (Finset.mem_of_mem_erase (hs.tree.has_own ha))

end SlotMem

theorem Process.SameThread.mem {p p' : Process} (h : p.SameThread p') : p.SameMem p' := by
  rw [h]
  exact ⟨rfl, rfl, rfl⟩

namespace Machine

variable {A : Machine → Prop} {m m' m'' : Machine} {h : History}

/-- `m'` comes after `m` in a run in which the hart is not given to slot `j`. -/
inductive Away (c : Cfg) (A : Machine → Prop) (j : Nat) (m : Machine) : Machine → Prop
  | refl : Away c A j m m
  | step {m' m'' : Machine} (h : Away c A j m m') (ha : A m') (hj : ∀ k, m'.code ≠ .op (.toProc j) k)
    (hs : Step c m' m'') : Away c A j m m''

/-- What slot `j` has stays as it is. -/
theorem Away.rely {E : Env} (hco : Code E) (hA : ∀ m, A m → m.Assume E)
    (ha : Away E.cfg A j m m') {me : Option Nat} {own : Party → Finset Nat}
    (hi : MInv E m h me own) (hj : some j ≠ me) : ∃ h' me' own', MInv E m' h' me' own' ∧
      some j ≠ me' ∧ Rely E j ⟨m.sys, own, h⟩ ⟨m'.sys, own', h'⟩ := by
  induction ha with
  | refl => exact ⟨h, me, own, hi, hj, .refl j _⟩
  | step _ ha hne hs ih =>
    obtain ⟨h', me', own', hi', hj', hr⟩ := ih
    obtain ⟨me'', own'', hn⟩ := hi'.step hco (hA _ ha) hs
    exact ⟨_, me'', own'', hn.inv, hn.idle j hj' hne, hr.trans (hn.rely j hj')⟩

/-- Slot `j` is in `m'` as it was in `m`: the fields that belong to its thread, what its page table
says, and what its frames hold. -/
structure Intact (j : Nat) (m m' : Machine) : Prop where
  live : m'.sys.data.Live j
  thread : (m.sys.data.process_table j).SameThread (m'.sys.data.process_table j)
  context : (m'.sys.data.process_table j).context = (m.sys.data.process_table j).context
  walk : ∀ va, Sv32.walk m'.sys.phys.mem (m'.sys.data.process_table j).pagetable.pagetable.root va =
    Sv32.walk m.sys.phys.mem (m.sys.data.process_table j).pagetable.pagetable.root va
  uses : ∀ f u, m.sys.Uses f (.slot j u) → m'.sys.Uses f (.slot j u) ∧ f ∉ m'.sys.phys.free ∧
    ∀ a, pageOf a = f → m'.sys.phys.mem a = m.sys.phys.mem a

end Machine

/-- **A process finds its memory as it left it**, whatever runs while it does not have the hart. -/
theorem memory_intact {m m' : Machine} (hr : Machine.Reach c Machine.StatusFits m)
    (hw : m.AtSwitch) (hl : m.sys.data.Live j) (hj : m.sys.data.current ≠ some j)
    (hd : (m.sys.data.process_table j).dropping = false)
    (ha : Machine.Away c Machine.StatusFits j m m') : Machine.Intact j m m' := by
  obtain ⟨h, hr⟩ := hr.run
  obtain ⟨me, own, hi, -, hm, hne⟩ := hr.atSwitch hw
  obtain ⟨h', me', own', hi', -, hre⟩ := ha.rely (E := c.tracked) (code_keeps _)
    (fun _ => Machine.assume_tracked c) hi (hne j hj)
  obtain ⟨hl', hctx, hmine⟩ := hre hl
  obtain ⟨ho, hmem⟩ := hmine.slot hr.linked
  have hs := hm.slot j hl.1
  have how : Owned c own' m'.sys.phys.free := hi'.owned hr.linked
  refine ⟨hl', hmine.thread, hctx, fun va => ?_, fun f u hu => ?_⟩
  · rw [hmine.thread.pagetable]
    exact hs.loose.walk hd (fun a ha _ => hmem a ha) va
  · have hf : f ∈ own (.slot j) := hs.uses_mem hu.2
    have ho : own' (.slot j) = own (.slot j) := ho
    have hf' : f ∈ own' (.slot j) := by rwa [ho]
    exact ⟨⟨hl'.1, hs.uses_tables (SlotMem.tables_same hmem) hmine.thread.mem hu.2⟩,
      how.not_free _ f hf', fun a ha => hmem a (ha ▸ hf)⟩

/-- Init, while the scheduler takes a step. -/
theorem memory_intact_demo : ∃ m m' : Machine, m.sys.locks.sie = true ∧ m'.sys.locks.sie = false ∧
    Machine.Intact 0 m m' := by
  obtain ⟨m, k, hr, hc, hsie, hcur, hlive, hd⟩ := Machine.boot_waiting
  have hfit : m.StatusFits := fun i a k h => by
    rw [hc] at h
    cases h
  have hstep : Machine.Step Cfg.demo m _ := .op (n := 0) hc rfl
  have haway := Machine.Away.refl.step (c := Cfg.demo) (j := 0) hfit
    (fun k h => by rw [hc] at h; cases h) hstep
  exact ⟨m, _, hsie, rfl, memory_intact hr (.inr (.inr (.inr hsie))) hlive (by rw [hcur]; simp) hd
    haway⟩

/-! ## The user program -/

namespace Machine

/-- A step of the program in slot `i` writes to user pages of `i` at most, and all uses stay. -/
structure Confined (i : Nat) (m m' : Machine) : Prop where
  own : ∀ a, m'.sys.phys.mem a ≠ m.sys.phys.mem a → ∃ q, m.sys.Uses (pageOf a) (.slot i (.user q))
  uses : ∀ f u, m.sys.Uses f u → m'.sys.Uses f u
  others : ∀ f u, m.sys.Uses f u → (∀ q, u ≠ .slot i (.user q)) → ∀ a, pageOf a = f →
    m'.sys.phys.mem a = m.sys.phys.mem a
  table : m'.sys.data.process_table = m.sys.data.process_table
  current : m'.sys.data.current = m.sys.data.current

end Machine

theorem KvmMem.uses_same {own : Finset Nat} {m m' : Bytes} {t : PageTable} {nproc : Nat}
    {tab : Nat → Option Nat} {u : KvmUse} (h : KvmMem c own m t.root nproc tab)
    (hm : ∀ a, pageOf a ∈ own → m' a = m a) (hu : t.Uses nproc m f u) : t.Uses nproc m' f u := by
  have hm' : ∀ a, Tree.Has t.root tab (pageOf a) → m' a = m a := fun a ha =>
    hm a (h.tree.has_own ha)
  cases u with
  | table n => exact (h.tree.tableAt_congr hm').2 hu
  | stack i k =>
    obtain ⟨hi, hk, e, hw⟩ := hu
    refine ⟨hi, hk, e, ?_⟩
    rw [h.tree.walk_congr hm']
    exact hw

/-- **The user program is confined** to the pages of its process, whatever it does and wherever it
traps. -/
theorem user_confined {m m' : Machine} (hr : Machine.Reach c Machine.StatusFits m)
    (hc : m.code = .ret .user) (hs : Machine.Step c m m') :
    ∃ i, m.sys.data.current = some i ∧ Machine.Confined i m m' := by
  obtain ⟨h, hr⟩ := hr.run
  obtain ⟨me, own, hi⟩ := hr.keeps_tracked
  have how : Owned c own m.sys.phys.free := hi.owned hr.linked
  have hl := hi.code
  rw [hc] at hl
  obtain ⟨i, rfl, hu, -, hset, hd, -, hsatp, -⟩ := hl
  have hm : MemInv c own m.sys.phys.mem m.sys.data := hset.inv.mem hr.linked
  have hslot := hm.slot i hset.inv.table.run_live.1
  refine ⟨i, hset.current, ?_⟩
  have hsame : m'.sys.phys = m.sys.phys → m'.sys.data.process_table = m.sys.data.process_table →
      m'.sys.data.nproc = m.sys.data.nproc → m'.sys.data.kvm = m.sys.data.kvm →
      m'.sys.data.current = m.sys.data.current → Machine.Confined i m m' := by
    intro hp ht hn hk hcur
    refine ⟨fun a ha => (ha (by rw [hp])).elim, fun f u hu => ?_, fun f u _ _ a _ => by rw [hp], ht,
      hcur⟩
    cases u with
    | free =>
      show f ∈ m'.sys.phys.free
      rw [hp]
      exact hu
    | slot j u =>
      unfold Sys.Uses
      rw [hp, ht, hn]
      exact hu
    | kvm u =>
      unfold Sys.Uses
      rw [hp, hn, hk]
      exact hu
  cases hs with
  | @user phys regs pc _ _ _ hw =>
    have hrest : ∀ x, x ≠ .slot i → SameAt own own m.sys.phys.mem phys.mem x :=
      (hset.inv.userWrites hr.linked how hd (hsatp hr.linked) hw).1
    have hpage : ∀ a, phys.mem a ≠ m.sys.phys.mem a → ∃ va e, Sv32.walk m.sys.phys.mem
        (m.sys.data.process_table i).pagetable.pagetable.root va = some (e, a) ∧ e / 16 % 2 = 1 :=
      fun a ha => by
        obtain ⟨va, e, hwalk, hub, -⟩ := hw.2.2 a ha
        rw [hsatp hr.linked] at hwalk
        exact ⟨va, e, hwalk, hub⟩
    have hown : ∀ a, phys.mem a ≠ m.sys.phys.mem a →
        ∃ q, m.sys.Uses (pageOf a) (.slot i (.user q)) := fun a ha => by
      obtain ⟨va, e, hwalk, hub⟩ := hpage a ha
      exact ⟨pageNo va, hset.inv.table.run_live.1, hd, va, e, a, rfl, hwalk, hub, rfl⟩
    refine ⟨hown, fun f u hu => ?_, fun f u hu hne a ha => ?_, rfl, rfl⟩
    · cases u with
      | free =>
        show f ∈ phys.free
        rw [hw.1]
        exact hu
      | slot j u =>
        refine ⟨hu.1, (hm.slot j hu.1).uses_tables (fun tab hsp a ha => ?_) ⟨rfl, rfl, rfl⟩ hu.2⟩
        by_cases hji : j = i
        · -- what the program writes is no table of its own
          subst hji
          by_contra hne
          obtain ⟨va, e, hwalk, hub⟩ := hpage a hne
          exact (hsp.user_walk hwalk hub).2 ha
        · exact SlotMem.tables_same (hrest (.slot j) (by simpa using hji)).2 tab hsp a ha
      | kvm u =>
        obtain ⟨t, ht, hu⟩ := hu
        obtain ⟨t', tab, ht', hk⟩ := hm.kvm
        obtain rfl := Option.some.inj (ht.symm.trans ht')
        exact ⟨t, ht, hk.uses_same (hrest .kvm (by simp)).2 hu⟩
    · by_contra hno
      obtain ⟨q, hq⟩ := hown a hno
      rw [ha] at hq
      exact hne q (hm.one_use how hu hq)
  | trap _ => exact hsame rfl rfl rfl rfl rfl
  | tick _ _ => exact hsame rfl rfl rfl rfl rfl
  | interrupt _ hn =>
    rw [hu] at hn
    cases hn
  | label hc' he =>
    rw [hc] at hc'
    cases hc'
    cases he
  | _ hc' =>
    rw [hc] at hc'
    cases hc'

/-- Init stores a byte at the bottom of its stack. -/
theorem user_confined_demo : ∃ (m m' : Machine) (i : Nat), m.sys.data.current = some i ∧
    (∃ a, m'.sys.phys.mem a ≠ m.sys.phys.mem a) ∧ Machine.Confined i m m' := by
  obtain ⟨m, hr, he⟩ := Machine.boot_user
  obtain ⟨e, f, hf, hu, hwr, -⟩ := he.stack
  obtain ⟨b, hb⟩ : ∃ b : UInt8, b ≠ m.sys.phys.mem f := ⟨m.sys.phys.mem f + 1, by simp⟩
  have hstep : Machine.Step Cfg.demo m { m with
      sys := m.sys.user ⟨m.sys.phys.mem.setByte f b, m.sys.phys.free, m.sys.phys.clock⟩
        (fun _ => 0) USER_START } :=
    .user he.code (fun _ => by decide) (by decide)
      ⟨rfl, rfl, fun a ha => by
        obtain rfl : a = f := by
          by_contra hne
          exact ha (Bytes.setByte_ne hne)
        exact ⟨_, _, hf, hu, hwr⟩⟩
  obtain ⟨i, hi⟩ := user_confined hr he.code hstep
  refine ⟨m, _, i, hi.1, ⟨f, ?_⟩, hi.2⟩
  show m.sys.phys.mem.setByte f b f ≠ m.sys.phys.mem f
  rw [Bytes.setByte_self]
  exact hb

end BareMetal
