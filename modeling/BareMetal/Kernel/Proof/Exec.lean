import BareMetal.Kernel.Proof.Alone
import BareMetal.Kernel.Proof.Args
import BareMetal.Kernel.Proof.Layout

/-!
# A process after `kexec`

`Execed`: the address space and the trapframe after a call of `kexec` that succeeded, byte for byte
(`OwnState.execed`).
-/

namespace BareMetal

open Lib K

/-- The first address of the stack. -/
def stackBase (img : Slice) : Nat := stackPage img * PAGESIZE

/-- The process of slot `i` after `kexec` of the image `img`, from the state `s`. -/
structure Execed (c : Cfg) (s s' : Sys) (i : Nat) (img : Slice) (argv : List (List UInt8)) (v : View)
    (tab : Nat → Option Nat) (fr : Nat → Nat) : Prop where
  fits : img.Fits c
  mem : v.mem = s'.phys.mem
  trapframe : (s'.data.process_table i).trapframe = (s.data.process_table i).trapframe
  frame : c.IsFrame (s.data.process_table i).trapframe
  space : Space c v (s'.data.process_table i).pagetable tab
  program : Program c v.mem img (s.data.process_table i).trapframe
    (s'.data.process_table i).pagetable tab fr
  image : ∀ j < imagePages img * PAGESIZE,
    v.mem (fr (pageNo USER_START + j / PAGESIZE) + j % PAGESIZE) = s.phys.mem (img.ptr + j)
  args : StackFits (stackBase img) argv
  stack : ∀ o < PAGESIZE, v.mem (fr (stackPage img) + o) =
    (stackByte (stackBase img + PAGESIZE) argv (stackBase img + o)).getD
      (s.phys.mem (fr (stackPage img) + o))
  free : fr (stackPage img) ∈ s.phys.free
  loaded : ∃ u₀ p₁ p₂, Uvm.new.run c s.phys = .ok (u₀, p₁) ∧
    (kexecLoad c u₀ (s.data.process_table i).trapframe img).run c p₁ =
      .ok ((.ok (), (s'.data.process_table i).pagetable), p₂) ∧
    ∀ va, Sv32.walk p₂.mem (s'.data.process_table i).pagetable.pagetable.root va =
      Sv32.walk s'.phys.mem (s'.data.process_table i).pagetable.pagetable.root va
  a0 : v.mem.word ((s.data.process_table i).trapframe + Trapframe.a0) = argv.length
  a1 : v.mem.word ((s.data.process_table i).trapframe + Trapframe.a1) =
    execSp (stackBase img + PAGESIZE) argv

/-- The kernel's data after slot `i` has got the address space `u`. -/
def Data.execed (d : Data) (i : Nat) (u : Uvm) : Data :=
  { d.updProc i fun p => { p with pagetable := u, dropping := false } with
    log := .execed i :: .exec i :: d.log }

@[simp] theorem Data.execed_self (d : Data) (i : Nat) (u : Uvm) :
    (d.execed i u).process_table i = { d.process_table i with pagetable := u, dropping := false } :=
  d.updProc_self i fun p => { p with pagetable := u, dropping := false }

theorem Data.execed_ne (d : Data) {i j : Nat} (u : Uvm) (h : j ≠ i) :
    (d.execed i u).process_table j = d.process_table j :=
  d.updProc_ne (fun p => { p with pagetable := u, dropping := false }) h

/-- The process of slot `i` has got a new address space, and starts in it with the stack pointer
`sp`; nothing else of the kernel's data changed. -/
structure Installed (s s' : Sys) (i sp : Nat) : Prop where
  data : s'.data = s.data.execed i (s'.data.process_table i).pagetable
  sp : s'.phys.mem.word ((s.data.process_table i).trapframe + Trapframe.sp) = sp
  epc : s'.phys.mem.word ((s.data.process_table i).trapframe + Trapframe.epc) = USER_START

section
variable {c : Cfg} {s s₁ s' : Sys} {i : Nat}

theorem Execed.same {img : Slice} {argv : List (List UInt8)} {v : View} {tab : Nat → Option Nat}
    {fr : Nat → Nat} (h : Execed c s s₁ i img argv v tab fr) (hp : s'.phys = s₁.phys)
    (hd : s'.data = s₁.data) : Execed c s s' i img argv v tab fr := by
  constructor
  all_goals try rw [hp]
  all_goals try rw [hd]
  exacts [h.fits, h.mem, h.trapframe, h.frame, h.space, h.program, h.image, h.args, h.stack, h.free,
    h.loaded, h.a0, h.a1]

theorem Installed.same {sp : Nat} (h : Installed s s₁ i sp) (hp : s'.phys = s₁.phys)
    (hd : s'.data = s₁.data) : Installed s s' i sp := by
  constructor
  all_goals try rw [hp]
  all_goals try rw [hd]
  exacts [h.data, h.sp, h.epc]

end

/-! ## The run -/

section
variable {c : Cfg} {s s' : Sys} {tr : List (KOp × Sys)} {i : Nat} {v : View} {total : Finset Nat}
  {m₀ : Bytes}

theorem proc_ends {p : Process} (h : K.Ends c (proc i) s tr p s') :
    p = s.data.process_table i ∧ s' = s := by
  obtain ⟨d, s₁, tr₁, tr₂, h1, h2, rfl⟩ := h.bind
  obtain ⟨⟨t, n, hx⟩, -⟩ := perform_ends h1
  cases hx
  obtain ⟨rfl, rfl, -⟩ := h2.ret_inv
  exact ⟨rfl, rfl⟩

theorem setProc_ends {f : Process → Process} {r : Unit} (h : K.Ends c (setProc i f) s tr r s') :
    s' = { s with data := s.data.updProc i f } := by
  obtain ⟨⟨t, n, hx⟩, -⟩ := perform_ends h
  cases hx
  rfl

theorem note_ends {e : Event} {r : Unit} (h : K.Ends c (note e) s tr r s') :
    s' = { s with data := { s.data with log := e :: s.data.log } } := by
  obtain ⟨⟨t, n, hx⟩, -⟩ := perform_ends h
  cases hx
  rfl

theorem get_ends {d : Data} (h : K.Ends c get s tr d s') : d = s.data ∧ s' = s := by
  obtain ⟨⟨t, n, hx⟩, -⟩ := perform_ends h
  cases hx
  exact ⟨rfl, rfl⟩

theorem set_ends {f : Data → Data} {r : Unit} (h : K.Ends c (set f) s tr r s') :
    s' = { s with data := f s.data } := by
  obtain ⟨⟨t, n, hx⟩, -⟩ := perform_ends h
  cases hx
  rfl

theorem panic_ends {α : Type} {msg : String} {x : α} : ¬ K.Ends c (K.panic msg) s tr x s'
  | .op ⟨_, _, h⟩ _ => by cases h

theorem add_ends {loc : String} {a b x : Nat} (h : K.Ends c (add loc a b) s tr x s') :
    x = a + b ∧ s' = s ∧ a + b < USIZE := by
  unfold add at h
  split at h
  · rename_i hlt
    obtain ⟨rfl, rfl, -⟩ := h.ret_inv
    exact ⟨rfl, rfl, hlt⟩
  · exact (panic_ends h).elim

/-- Memory code in the kernel, alone. -/
theorem lift_owned {E : Mode} {α : Type} {p : M α} {a : α} {Q : α → View → Prop}
    (hE : E.shared = false) (ho : E.Oom total) (hof : v.Of E.cfg total m₀ s.phys)
    (hwp : M.wp E p Q v) (h : K.Ends E.cfg (lift p) s tr a s') :
    s'.data = s.data ∧ ∃ v', v'.Of E.cfg total m₀ s'.phys ∧ Q a v' := by
  obtain ⟨he, hd⟩ := lift_ends h
  exact ⟨hd, (M.ends_wp hE ho hof hwp he).2⟩

/-- The same with any frames and any panics. -/
theorem lift_alone {α : Type} {p : M α} {a : α} {Q : α → View → Prop}
    (hof : v.Of c total m₀ s.phys) (hwp : M.wp (alone c True) p Q v)
    (h : K.Ends c (lift p) s tr a s') :
    s'.data = s.data ∧ ∃ v', v'.Of c total m₀ s'.phys ∧ Q a v' :=
  lift_owned (E := alone c True) rfl (alone_oom c True total) hof hwp h

theorem program_fits {path : List UInt8} {img : Slice} (h : program c path = some img) :
    img.Fits c := by
  unfold program at h
  split at h
  · cases h
    exact ⟨c.init_in.1, c.init_in.2⟩
  · split at h
    · cases h
      exact ⟨c.prime_in.1, c.prime_in.2⟩
    · cases h

/-- The process of slot `i` has an address space and a trapframe to itself. -/
def OwnState (c : Cfg) (s : Sys) (i : Nat) : Prop :=
  ∃ v total tab, View.Of c total s.phys.mem v s.phys ∧
    (s.data.process_table i).trapframe ∈ v.own ∧
    Space c { v with own := v.own.erase (s.data.process_table i).trapframe }
      (s.data.process_table i).pagetable tab

/-- The frames of the address space and of the trapframe. -/
theorem OwnState.of_own {o : Finset Nat} {tab : Nat → Option Nat} (hn : s.phys.free.Nodup)
    (hfree : ∀ f ∈ s.phys.free, c.IsFrame f) (ho : ∀ f ∈ o, c.IsFrame f ∧ f ∉ s.phys.free)
    (hb : c.IsFrame (s.data.process_table i).trapframe ∧
      (s.data.process_table i).trapframe ∉ s.phys.free)
    (hout : (s.data.process_table i).trapframe ∉ o)
    (hs : Space c ⟨o, s.phys.mem⟩ (s.data.process_table i).pagetable tab) : OwnState c s i := by
  have hown : ∀ f ∈ insert (s.data.process_table i).trapframe o, c.IsFrame f ∧ f ∉ s.phys.free :=
    fun f hf => (Finset.mem_insert.1 hf).elim (fun he => he ▸ hb) (ho f)
  refine ⟨⟨insert (s.data.process_table i).trapframe o, s.phys.mem⟩,
    insert (s.data.process_table i).trapframe o ∪ s.phys.free.toFinset, tab,
    ⟨rfl, fun _ _ => rfl, hn, fun f hf => (hown f hf).2, fun f => ?_, fun f hf => ?_⟩,
    Finset.mem_insert_self _ _, ?_⟩
  · rw [Finset.mem_union, List.mem_toFinset]
  · exact (Finset.mem_union.1 hf).elim (fun hf => (hown f hf).1)
      fun hf => hfree f (List.mem_toFinset.1 hf)
  · dsimp only
    rwa [Finset.erase_insert hout]

/-- An address space and a box of a reachable world, whatever is in the boxes. -/
theorem World.Reach.ownState {w : World} {k : Nat} {u : Uvm} (hr : World.Reach c w)
    (hk : w.uvms k = some u) (hfree : s.phys.free = w.phys.free)
    (hmem : ∀ a, pageOf a ∉ w.boxes → s.phys.mem a = w.phys.mem a)
    (hu : (s.data.process_table i).pagetable = u)
    (hb : (s.data.process_table i).trapframe ∈ w.boxes) : OwnState c s i := by
  have hi := hr.inv
  obtain ⟨tab, hs, -⟩ := hi.space k _ hk
  refine .of_own (hfree ▸ hi.nodup) (hfree ▸ hi.frames) (hfree ▸ hi.own k) (hfree ▸ hi.box _ hb)
    (fun hf => (hi.acc k _ hf).2.2 hb) (?_ : Space c _ _ tab)
  rw [hu]
  exact hs.congr (fun _ hf => hf) fun a ha => hmem a (hi.acc k _ (hs.tree.has_own ha)).2.2

end

/-- The stack of a program. -/
theorem Program.stackAt {c : Cfg} {v : View} {img : Slice} {tf : Nat} {u : Uvm}
    {tab : Nat → Option Nat} {fr : Nat → Nat} (h : Program c v.mem img tf u tab fr)
    (hs : Space c v u tab) (hi : img.Fits c) :
    StackAt c v u tab (fr (stackPage img)) (stackBase img) ∧
      u.begin + u.size = stackBase img + PAGESIZE := by
  have hsz := PAGESIZE_eq
  have hp := hi.pages
  have hlow := hp.low
  have hhigh := hp.high
  have hpn : pageNo (stackBase img) = stackPage img := by
    unfold pageNo stackBase
    rw [hsz]
    omega
  refine ⟨⟨hs, Nat.mul_mod_left _ _, ?_, by rw [hpn]; exact h.stack, h.frame _ (.inr rfl), ?_⟩, ?_⟩
  · unfold stackBase stackPage
    rw [hlow, hsz, USIZE_eq]
    omega
  · rw [hpn]
    refine h.none _ (fun hsys => ?_) (fun hin => ?_) (Nat.succ_ne_self _)
    · unfold SysPage at hsys
      rw [trampoline_va.2.2, trapframe_va.2.2] at hsys
      unfold stackPage at hsys
      omega
    · unfold InPages at hin
      unfold stackPage at hin
      omega
  · rw [h.begin_eq, h.size]
    unfold stackBase stackPage
    rw [hlow, hsz]
    unfold USER_START
    omega

/-- The frames of the user's pages are no tables, and apart from what was there before. -/
theorem Program.pages {c : Cfg} {v₀ v : View} {img : Slice} {tf : Nat} {u : Uvm}
    {tab : Nat → Option Nat} {fr : Nat → Nat} (h : Program c v.mem img tf u tab fr)
    (hs : Private c v₀ v u tab) {q : Nat}
    (hq : InPages (pageNo USER_START) (imagePages img) q ∨ q = stackPage img) :
    fr q ∉ v₀.own ∧ ¬ Tree.Has u.pagetable.root tab (fr q) ∧ Maps (pte v.mem tab q) (fr q) := by
  have hal := (h.frame q hq).aligned
  have hm : Maps (pte v.mem tab q) (fr q) := by
    rcases hq with hq | rfl
    · rw [h.image q hq]
      exact maps_leafWord hal image_perm.1 image_perm.2
    · rw [h.stack]
      exact maps_leafWord hal stack_perm.1 stack_perm.2
  exact ⟨hs.pages q _ hm, (hs.space.user q _ hm).2, hm⟩

/-! ## The process gets it -/

section
variable {c : Cfg} {s s' : Sys} {tr : List (KOp × Sys)} {i : Nat} {v : View} {total : Finset Nat}
  {m₀ : Bytes}

theorem write_alone {a x : Nat} {u : Unit} (hof : v.Of c total m₀ s.phys) (ho : v.Owns a 4)
    (h : K.Ends c (lift (M.write a x)) s tr u s') :
    s'.data = s.data ∧ View.Of c total m₀ { v with mem := v.mem.setWord a x } s'.phys := by
  obtain ⟨hd, v', hof', rfl⟩ := lift_alone (Q := fun _ v' => v' = { v with mem := v.mem.setWord a x })
    hof (M.wp_write (E := alone c True) (fun h => h.elim) ho rfl) h
  exact ⟨hd, hof'⟩

/-- A field of a trapframe lies in its page. -/
theorem trapframe_owns {f k : Nat} (hf : f % PAGESIZE = 0) (ho : f ∈ v.own)
    (hk : k + 4 ≤ Trapframe.SIZE) : v.Owns (f + k) 4 := by
  have hs : Trapframe.SIZE = 144 := rfl
  have hsz := PAGESIZE_eq
  refine ⟨by rwa [pageOf_eq_of hf (by omega)], ?_⟩
  rw [hsz] at hf ⊢
  omega

/-- Writing a field changes nothing outside the trapframe's page. -/
theorem trapframe_setWord {tf k x a : Nat} {m : Bytes} (hf : tf % PAGESIZE = 0)
    (hk : k + 4 ≤ Trapframe.SIZE) (ha : pageOf a ≠ tf) : m.setWord (tf + k) x a = m a :=
  Bytes.setWord_ne (by
    have hs : Trapframe.SIZE = 144 := rfl
    by_contra hin
    exact ha (pageOf_eq_of hf (by rw [PAGESIZE_eq]; omega)))

theorem Space.trapframe {u : Uvm} {tab : Nat → Option Nat} {tf k x : Nat} (h : Space c v u tab)
    (hf : tf % PAGESIZE = 0) (hk : k + 4 ≤ Trapframe.SIZE) (hto : tf ∉ v.own) :
    Space c { v with mem := v.mem.setWord (tf + k) x } u tab :=
  h.congr (fun _ hf => hf) fun _ ha =>
    trapframe_setWord hf hk fun he => hto (he ▸ h.tree.has_own ha)

/-- `(proc i).trapframe.field = x`, and what follows. -/
theorem trapframe_alone {β : Type} {rest : K β} {r : β} {k x tf : Nat}
    (hof : v.Of c total m₀ s.phys) (htf : (s.data.process_table i).trapframe = tf) (ho : tf ∈ v.own)
    (hk : k + 4 ≤ Trapframe.SIZE)
    (h : K.Ends c (do lift (M.write ((← proc i).trapframe + k) x); rest) s tr r s') :
    ∃ s₁ tr₁, s₁.data = s.data ∧ View.Of c total m₀ { v with mem := v.mem.setWord (tf + k) x } s₁.phys ∧
      K.Ends c rest s₁ tr₁ r s' := by
  obtain ⟨p, s₁, tr₁, tr₂, h1, h2, -⟩ := h.bind
  obtain ⟨rfl, rfl⟩ := proc_ends h1
  obtain ⟨_, s₂, tr₃, tr₄, h3, h4, -⟩ := h2.bind
  rw [htf] at h3
  have hf := hof.frame _ ((hof.cover _).2 (.inl ho))
  obtain ⟨hd, hof'⟩ := write_alone hof (trapframe_owns hf.page ho hk) h3
  exact ⟨s₂, tr₄, hd, hof', h4⟩

/-- `(proc i).pagetable = uvm`. -/
theorem replacePagetable_alone {u : Uvm} {r : Unit} {tab : Nat → Option Nat} {o : Finset Nat}
    (hof : v.Of c total m₀ s.phys) (ho : ∀ f ∈ o, f ∈ v.own)
    (hsp : Space c { v with own := o } (s.data.process_table i).pagetable tab)
    (h : K.Ends c (replacePagetable i u) s tr r s') :
    s'.data = s.data.updProc i (fun p => { p with pagetable := u, dropping := false }) ∧
      (∃ v', View.Of c total m₀ v' s'.phys ∧ (∀ f ∈ v.own, f ∉ o → f ∈ v'.own) ∧
        ∀ a, pageOf a ∉ o → v'.mem a = v.mem a) ∧
      USER_START + (s.data.process_table i).pagetable.size < USIZE := by
  obtain ⟨r₁, s₁, tr₁, tr₂, h1, h2, -⟩ := h.bind
  obtain rfl := setProc_ends h1
  obtain ⟨p, s₂, tr₃, tr₄, h3, h4, -⟩ := h2.bind
  obtain ⟨rfl, rfl⟩ := proc_ends h3
  obtain ⟨r₂, s₃, tr₅, tr₆, h5, h6, -⟩ := h4.bind
  obtain rfl := setProc_ends h6
  have hpt : ((s.data.updProc i fun p => { p with dropping := true }).process_table i).pagetable =
      (s.data.process_table i).pagetable := by
    simp only [Data.updProc, Function.update_self]
  dsimp only at h5
  rw [hpt] at h5
  have hsp' : Space c v (s.data.process_table i).pagetable tab := hsp.congr ho fun _ _ => rfl
  have hwp : M.wp (alone c True) (s.data.process_table i).pagetable.drop (fun _ v' =>
      ((∀ f ∈ v.own, f ∉ o → f ∈ v'.own) ∧ ∀ a, pageOf a ∉ o → v'.mem a = v.mem a) ∧
        ((s.data.process_table i).pagetable.size ≠ 0 →
          USER_START + (s.data.process_table i).pagetable.size < USIZE)) v := by
    refine wp_drop (E := alone c True) id hsp' (fun _ _ => trivial) fun v' hlt hown hm =>
      ⟨⟨fun f hf hno => (hown f).2 ⟨hf, fun hret => ?_⟩, fun a ha => hm a fun ht =>
        ha (hsp.tree.has_own ht)⟩, hlt⟩
    rcases hret with rfl | ⟨q, -, hq⟩
    · exact hno hsp.tree.root_own
    · exact hno (hsp.user q f hq.maps).1
  obtain ⟨d, v', hof', hv', hlt⟩ := lift_alone
    (s := { s with data := s.data.updProc i fun p => { p with dropping := true } }) hof hwp h5
  refine ⟨?_, ⟨v', hof', hv'⟩, ?_⟩
  · rw [d]
    simp only [Data.updProc, Function.update_self, Function.update_idem]
  · by_cases h0 : (s.data.process_table i).pagetable.size = 0
    · rw [h0, USIZE_eq]
      decide
    · exact hlt h0

/-- The writes at the end of `kexec`. -/
theorem install_ends {u : Uvm} {tab : Nat → Option Nat} {o : Finset Nat} {tf n sp : Nat}
    {r : Except Unit Unit} (hof : v.Of c total m₀ s.phys)
    (htf : (s.data.process_table i).trapframe = tf) (ho : ∀ f ∈ o, f ∈ v.own) (htv : tf ∈ v.own)
    (hto : tf ∉ o) (hn : n < 2 ^ 32) (hsp : sp < 2 ^ 32)
    (hs : Space c { v with own := o } (s.data.process_table i).pagetable tab)
    (h : K.Ends c (do
      note (.exec i)
      lift (M.write ((← proc i).trapframe + Trapframe.a0) n)
      lift (M.write ((← proc i).trapframe + Trapframe.a1) sp)
      replacePagetable i u
      lift (M.write ((← proc i).trapframe + Trapframe.sp) sp)
      lift (M.write ((← proc i).trapframe + Trapframe.epc) USER_START)
      note (.execed i)
      return r) s tr r s') :
    s'.data = s.data.execed i u ∧
      ∃ v', View.Of c total m₀ v' s'.phys ∧ (∀ f ∈ v.own, f ∉ o → f ∈ v'.own) ∧
        (∀ a, pageOf a ∉ o → pageOf a ≠ tf → v'.mem a = v.mem a) ∧
        v'.mem.word (tf + Trapframe.a0) = n ∧ v'.mem.word (tf + Trapframe.a1) = sp ∧
        v'.mem.word (tf + Trapframe.sp) = sp ∧ v'.mem.word (tf + Trapframe.epc) = USER_START := by
  have hsz := PAGESIZE_eq
  have hfp := (hof.frame _ ((hof.cover _).2 (.inl htv))).page
  -- the arguments' registers
  obtain ⟨_, s₀, _, _, h0, h, -⟩ := h.bind
  obtain rfl := note_ends h0
  obtain ⟨s₁, tr₁, d1, hof₁, h1⟩ := trapframe_alone (k := Trapframe.a0)
    (s := { s with data := { s.data with log := .exec i :: s.data.log } }) hof htf htv (by decide) h
  obtain ⟨s₂, tr₂, d2, hof₂, h2⟩ := trapframe_alone hof₁ (by rw [d1]; exact htf) htv (by decide) h1
  obtain ⟨_, s₃, tr₃, tr₄, h3, h4, -⟩ := h2.bind
  obtain ⟨d3, ⟨v₃, hof₃, hown, hm⟩, -⟩ := replacePagetable_alone (o := o) hof₂ ho
    (by
      rw [d2, d1]
      exact (hs.trapframe hfp (by decide) hto).trapframe hfp (by decide) hto) h3
  have htv₃ := hown tf htv hto
  have htf₃ : (s₃.data.process_table i).trapframe = tf := by
    rw [d3, d2, d1]
    simp only [Data.updProc, Function.update_self]
    exact htf
  -- the stack pointer and the start
  obtain ⟨s₄, tr₅, d4, hof₄, h5⟩ := trapframe_alone hof₃ htf₃ htv₃ (by decide) h4
  obtain ⟨s₅, tr₆, d5, hof₅, h6⟩ := trapframe_alone hof₄ (by rw [d4]; exact htf₃) htv₃ (by decide) h5
  obtain ⟨_, s₆, _, _, h7, h8, -⟩ := h6.bind
  obtain rfl := note_ends h7
  obtain ⟨-, rfl, -⟩ := h8.ret_inv
  have hw : ∀ k, k + 4 ≤ Trapframe.SIZE → k + 4 ≤ Trapframe.epc ∨ Trapframe.epc + 4 ≤ k →
      k + 4 ≤ Trapframe.sp ∨ Trapframe.sp + 4 ≤ k →
      ((v₃.mem.setWord (tf + Trapframe.sp) sp).setWord (tf + Trapframe.epc) USER_START).word (tf + k) =
        v₃.mem.word (tf + k) := fun k _ h1 h2 => by
    rw [Bytes.word_setWord_ne (by omega), Bytes.word_setWord_ne (by omega)]
  have hw₃ : ∀ k, k + 4 ≤ Trapframe.SIZE → v₃.mem.word (tf + k) =
      ((v.mem.setWord (tf + Trapframe.a0) n).setWord (tf + Trapframe.a1) sp).word (tf + k) :=
    fun k hk => Bytes.word_congr fun i hi => hm _ (by
      have hs : Trapframe.SIZE = 144 := rfl
      rw [Nat.add_assoc, pageOf_eq_of hfp (by rw [hsz]; omega)]
      exact hto)
  refine ⟨by rw [d5, d4, d3, d2, d1]; rfl, _, hof₅, fun f hf hno => hown f hf hno,
    fun a ha hne => ?_, ?_, ?_, ?_, Bytes.word_setWord (by decide)⟩
  · dsimp only
    rw [trapframe_setWord hfp (by decide) hne, trapframe_setWord hfp (by decide) hne, hm a ha]
    dsimp only
    rw [trapframe_setWord hfp (by decide) hne, trapframe_setWord hfp (by decide) hne]
  · dsimp only
    rw [hw _ (by decide) (by decide) (by decide), hw₃ _ (by decide),
      Bytes.word_setWord_ne (b := tf + Trapframe.a0) (a := tf + Trapframe.a1)
        (.inl (Nat.le_refl _)), Bytes.word_setWord hn]
  · dsimp only
    rw [hw _ (by decide) (by decide) (by decide), hw₃ _ (by decide), Bytes.word_setWord hsp]
  · have hepc : Trapframe.epc = 12 := rfl
    have hsp' : Trapframe.sp = 24 := rfl
    dsimp only
    rw [Bytes.word_setWord_ne (b := tf + Trapframe.sp) (a := tf + Trapframe.epc)
      (by omega), Bytes.word_setWord hsp]

end

section
variable {c : Cfg} {s s' : Sys} {tr : List (KOp × Sys)} {i : Nat} {path : List UInt8}
  {argv : List (List UInt8)}

theorem OwnState.execedOwned (hst : OwnState c s i)
    (h : K.Ends c (kexecOwned c i path argv) s tr (.ok ()) s') :
    ∃ img v tab fr, program c path = some img ∧ Execed c s s' i img argv v tab fr ∧
      Installed s s' i (execSp (stackBase img + PAGESIZE) argv) := by
  obtain ⟨v₀, total, tab₀, hof₀, htf, hsp₀⟩ := hst
  unfold kexecOwned at h
  cases hp : program c path with
  | none =>
    rw [hp] at h
    cases h with
    | op h _ => obtain ⟨t, n, hx⟩ := h; cases hx
  | some img =>
    rw [hp] at h
    have hfit := program_fits hp
    have htff := hof₀.frame _ ((hof₀.cover _).2 (.inl htf))
    -- `Uvm::new`
    obtain ⟨u₀, s₁, tr₁, tr₂, h1, h2, -⟩ := h.bind
    obtain ⟨d1, v₁, hof₁, r, rfl, hp₁⟩ := lift_alone (Q := fun u v' => ∃ r, u = ⟨USER_START, 0, ⟨r⟩⟩ ∧
        Private c v₀ v' u (fun _ => none) ∧ ∀ a, pageOf a ≠ r → v'.mem a = v₀.mem a) hof₀
      (wp_uvmNew (E := alone c True) (fun _ => trivial) fun v' f hf ho hm hs =>
        ⟨f, rfl, .new hf ho hm hs, hm⟩) h1
    obtain ⟨hp₁, hm₁⟩ := hp₁
    -- `kexecLoad`
    obtain ⟨p, s₁', tr₃, tr₄, h3, h4, -⟩ := h2.bind
    obtain ⟨rfl, rfl⟩ := proc_ends h3
    obtain ⟨⟨res, u⟩, s₂, tr₅, tr₆, h5, h6, -⟩ := h4.bind
    rw [d1] at h5
    obtain ⟨d2, v₂, hof₂, hl⟩ := lift_alone (Q := fun (q : Except Unit Unit × Uvm) v' =>
        q.1 = .ok () → ∃ tab fr, q.2.pagetable = ⟨r⟩ ∧ Private c v₀ v' q.2 tab ∧
          Program c v'.mem img (s.data.process_table i).trapframe q.2 tab fr ∧
          LoadedData v₁.mem v'.mem img fr) hof₁
      (wp_kexecLoad (E := alone c True) id hp₁ htff hfit (fun _ _ _ _ => trivial)
        (fun u' v' tab' fr hr hpr hpg hd _ _ => ⟨tab', fr, hr, hpr, hpg, hd rfl⟩)
        fun u' v' tab' o _ _ _ _ he => by cases he) h5
    cases res with
    | error e =>
      obtain ⟨a, s₃, tr₇, tr₈, h7, h8, -⟩ := h6.bind
      obtain ⟨he, -⟩ := h8.ret_inv
      cases he
    | ok e =>
      obtain ⟨tab, fr, hroot, hpr₂, hpg₂, hd₂⟩ := hl rfl
      -- the arguments
      obtain ⟨hsa, hend⟩ := hpg₂.stackAt hpr₂.space hfit
      obtain ⟨res, s₃, tr₇, tr₈, h7, h8, -⟩ := h6.bind
      obtain ⟨d3, v₃, hof₃, hl₃⟩ := lift_alone (Q := fun r v' => ∀ sp, r = .ok sp →
          sp = execSp (stackBase img + PAGESIZE) argv ∧ StackFits (stackBase img) argv ∧
          v'.own = v₂.own ∧ (∀ a, pageOf a ≠ fr (stackPage img) → v'.mem a = v₂.mem a) ∧
          ∀ o < PAGESIZE, v'.mem (fr (stackPage img) + o) =
            (stackByte (stackBase img + PAGESIZE) argv (stackBase img + o)).getD
              (v₂.mem (fr (stackPage img) + o))) hof₂
        (wp_kexecArgs (E := alone c True) hsa hend (.inr trivial)
          (fun m hf hm hd sp he => by cases he; exact ⟨rfl, hf, rfl, hm, hd⟩)
          fun m _ _ _ sp he => by cases he) h7
      obtain ⟨_, s₄, tr₉, tr₁₀, h9, h10, -⟩ := h8.bind
      have hidle := heapUse_ends h9
      rw [← hidle.phys] at hof₃
      cases res with
      | error e =>
        obtain ⟨a, s₅, tr₁₁, tr₁₂, h11, h12, -⟩ := h10.bind
        obtain ⟨he, -⟩ := h12.ret_inv
        cases he
      | ok sp =>
        obtain ⟨rfl, hsf, ho₃, hm₃, hdata⟩ := hl₃ sp rfl
        have hd₄ : s₄.data = s.data := by rw [hidle.data, d3, d2, d1]
        have hstack := hpg₂.pages hpr₂ (.inr rfl)
        have hpr₃ : Private c v₀ v₃ u tab := by
          have hw := hpr₂.write (m := v₃.mem) fun a ha => hm₃ a fun he => ha _ (he ▸ hstack.2.2)
          rwa [← ho₃] at hw
        have hlt := hsa.lt
        have hle := hsf.args.noWrap
        have hsp₄ : Space c { v₃ with own := v₀.own.erase (s.data.process_table i).trapframe }
            (s₄.data.process_table i).pagetable tab₀ := by
          rw [hd₄]
          exact hsp₀.congr (fun _ hf => hf) fun a ha =>
            hpr₃.mem a (Finset.mem_of_mem_erase (hsp₀.tree.has_own ha))
        obtain ⟨hd', v', hof', hown', hm', ha0, ha1, hwsp, hwepc⟩ := install_ends
          (o := v₀.own.erase (s.data.process_table i).trapframe) hof₃ (by rw [hd₄])
          (fun f hf => hpr₃.sub f (Finset.mem_of_mem_erase hf)) (hpr₃.sub _ htf)
          (Finset.notMem_erase _ _) (hsf.sp_lt hsa.lt).1 (hsf.sp_lt hsa.lt).2 hsp₄ h10
        rw [hd₄] at hd'
        have htf' : (s'.data.process_table i).trapframe = (s.data.process_table i).trapframe := by
          rw [hd', Data.execed_self]
        have hu' : (s'.data.process_table i).pagetable = u := by
          rw [hd', Data.execed_self]
        have hout : ∀ a, pageOf a ∉ v₀.own → v'.mem a = v₃.mem a := fun a ha =>
          hm' a (fun he => ha (Finset.mem_of_mem_erase he)) fun he => ha (he ▸ htf)
        have hkeep : ∀ a, Tree.Has u.pagetable.root tab (pageOf a) → v'.mem a = v₃.mem a :=
          fun a ha => hout a (hpr₃.tables _ ha)
        have hpte : ∀ q, pte v'.mem tab q = pte v₂.mem tab q := fun q => by
          rw [hpr₃.space.tree.pte_congr hkeep, hpr₂.space.tree.pte_congr fun a ha => hm₃ a fun he =>
            hstack.2.1 (he ▸ ha)]
        have hsp' : Space c v' u tab := hpr₃.narrow.congr
          (fun f hf => hown' f (Finset.mem_sdiff.1 hf).1
            fun he => (Finset.mem_sdiff.1 hf).2 (Finset.mem_of_mem_erase he)) hkeep
        refine ⟨img, v', tab, fr, rfl, ⟨hfit, hof'.mem, htf', htff, by rwa [hu'], ?_, fun j hj => ?_,
          hsf, fun o ho => ?_, ?_, ?_, ha0, ha1⟩, by rw [hu']; exact hd', by rw [← hof'.mem]; exact hwsp,
          by rw [← hof'.mem]; exact hwepc⟩
        · rw [hu']
          exact hpg₂.congr (funext hpte)
        · -- the image
          have hq : InPages (pageNo USER_START) (imagePages img) (pageNo USER_START + j / PAGESIZE) := by
            refine ⟨Nat.le_add_right _ _, ?_⟩
            have := Nat.div_lt_of_lt_mul (by rwa [Nat.mul_comm] at hj)
            omega
          have hpage := hpg₂.pages hpr₂ (.inl hq)
          have hpa : pageOf (fr (pageNo USER_START + j / PAGESIZE) + j % PAGESIZE) =
              fr (pageNo USER_START + j / PAGESIZE) :=
            pageOf_eq_of (hpg₂.frame _ (.inl hq)).page
              ⟨Nat.le_add_right _ _, Nat.add_lt_add_left (Nat.mod_lt _ (by rw [PAGESIZE_eq]; omega)) _⟩
          rw [hout _ (by rw [hpa]; exact hpage.1), hm₃ _ (by
            rw [hpa]
            intro he
            have := hpr₂.space.inj _ _ _ hpage.2.2 (he ▸ hstack.2.2)
            unfold InPages at hq
            unfold stackPage at this
            omega), hd₂.image j hj, hm₁ _ (hfit.pages.not_frame hj hp₁.space.tree.root_frame), hof₀.mem]
        · -- the stack
          have hpa : pageOf (fr (stackPage img) + o) = fr (stackPage img) :=
            pageOf_eq_of (hpg₂.frame _ (.inr rfl)).page ⟨Nat.le_add_right _ _, Nat.add_lt_add_left ho _⟩
          have hne : pageOf (fr (stackPage img) + o) ≠ r := by
            rw [hpa]
            rintro rfl
            exact hstack.2.1 (.inl (by rw [hroot]))
          rw [hout _ (by rw [hpa]; exact hstack.1), hdata o ho, hd₂.stack o ho, hm₁ _ hne, hof₀.mem]
        · have ht := (hof₃.cover _).2 (.inl (by rw [ho₃]; exact (hpr₂.space.user _ _ hstack.2.2).1))
          exact ((hof₀.cover _).1 ht).resolve_left hstack.1
        · rw [hu']
          exact ⟨_, _, _, (lift_ends h1).1.run, (lift_ends h5).1.run, fun va => by
            rw [← hof₂.mem, ← hof'.mem, hpr₂.space.tree.sv32_congr hsp'.tree hpte]⟩

/-- `kexec` is `kexecOwned`, and then the drop of its arguments. -/
theorem kexec_ends {r : Except Unit Unit} (h : K.Ends c (kexec c i path argv) s tr r s') :
    ∃ tr₁ s₁, K.Ends c (kexecOwned c i path argv) s tr₁ r s₁ ∧ s'.phys = s₁.phys ∧
      s'.data = s₁.data := by
  obtain ⟨r₁, s₁, tr₁, tr₂, h1, h2, -⟩ := h.bind
  obtain ⟨_, s₂, tr₃, tr₄, h3, h4, -⟩ := h2.bind
  obtain ⟨rfl, rfl, -⟩ := h4.ret_inv
  have hi := heapUse_ends h3
  exact ⟨tr₁, s₁, h1, hi.phys, hi.data⟩

/-- **`kexec` alone**. -/
theorem OwnState.execed (hst : OwnState c s i) (h : K.Ends c (kexec c i path argv) s tr (.ok ()) s') :
    ∃ img v tab fr, program c path = some img ∧ Execed c s s' i img argv v tab fr ∧
      Installed s s' i (execSp (stackBase img + PAGESIZE) argv) := by
  obtain ⟨tr₁, s₁, h1, hp, hd⟩ := kexec_ends h
  obtain ⟨img, v, tab, fr, himg, he, hi⟩ := hst.execedOwned h1
  exact ⟨img, v, tab, fr, himg, he.same hp hd, hi.same hp hd⟩

end

end BareMetal
