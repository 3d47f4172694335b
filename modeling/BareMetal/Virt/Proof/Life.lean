import BareMetal.Virt.Proof.UnmapRun
import BareMetal.Virt.Proof.World

/-!
# The life of an address space

`World.Lives c A w p`: the world `w` is reached from boot by methods that satisfy `A`, and `p k q`
is the permission with which page `q` of address space `k` was last added. `Lives.entries` is the
induction over these lives: what `new`, every method (`Move`) and `clone` (`Twin`) keep of the size,
the permissions and the entries of one address space holds of all of them in every world reached.
-/

namespace BareMetal

open Lib

/-- The permissions of the pages after a call. -/
def UvmOp.asked (o : UvmOp) (u u' : Uvm) (p : Nat → Nat) : Nat → Nat :=
  match o.perm with
  | some perm => fun q =>
    if InPages (pageNo (USER_START + u.size)) ((u'.size - u.size) / PAGESIZE) q then perm else p q
  | none => p

theorem UvmOp.Valid.permOk {w : World} {u : Uvm} {o : UvmOp} (h : o.Valid w u) :
    ∀ perm, o.perm = some perm → PermOk perm := by
  intro perm hp
  cases o with
  | alloc size perm' =>
    cases hp
    exact h
  | grow size perm' =>
    cases hp
    exact h
  | initProc trapframe => cases hp
  | load va img => cases hp
  | dealloc size => cases hp

/-- The entries of a clone. -/
def Twin (c : Cfg) (u : Uvm) (e e' : Nat → Nat) : Prop :=
  ∀ q, if ValidPages e (pageNo USER_START) (u.size / PAGESIZE) q then
    ∃ f, c.IsFrame f ∧ e' q = leafWord f (permOf (e q)) else e' q = 0

namespace World

inductive Lives (c : Cfg) (A : UvmOp → Uvm → Prop) : World → (Nat → Nat → Nat) → Prop
  | init {w} (h : Init c w) : Lives c A w fun _ _ => 0
  | new {w p k u s} (h : Lives c A w p) (hk : w.uvms k = none)
    (hr : Uvm.new.run c w.phys = .ok (u, s)) :
    Lives c A ((w.fresh k).put k (some u) s) (Function.update p k fun _ => 0)
  | op {w p k u u' s} (h : Lives c A w p) (o : UvmOp) (hk : w.uvms k = some u)
    (hv : o.Valid w u) (ha : A o u') (hr : (o.run c u).run c w.phys = .ok (u', s)) :
    Lives c A (w.put k (some u') s) (Function.update p k (o.asked u u' (p k)))
  | clone {w p k k' u u' s} (h : Lives c A w p) (hk : w.uvms k = some u) (hk' : w.uvms k' = none)
    (hr : u.clone.run c w.phys = .ok (u', s)) :
    Lives c A ((w.fresh k').put k' (some u') s) (Function.update p k' (p k))
  | drop {w p k u s} (h : Lives c A w p) (hk : w.uvms k = some u)
    (hr : u.drop.run c w.phys = .ok ((), s)) : Lives c A (w.put k none s) p
  | box {w p f s} (h : Lives c A w p) (hr : Trapframe.newIn.run c w.phys = .ok (f, s)) :
    Lives c A { w with phys := s, boxes := insert f w.boxes } p
  | unbox {w p f s} (h : Lives c A w p) (hf : f ∈ w.boxes)
    (hr : (M.dealloc f).run c w.phys = .ok ((), s)) :
    Lives c A { w with phys := s, boxes := w.boxes.erase f } p

variable {c : Cfg} {A : UvmOp → Uvm → Prop} {w : World} {p : Nat → Nat → Nat}

theorem Lives.reach (h : Lives c A w p) : Reach c w := by
  induction h with
  | init h => exact .init h
  | new _ hk hr ih => exact ih.step (.new hk hr)
  | op _ o hk hv _ hr ih => exact ih.step (.op o hk hv hr)
  | clone _ hk hk' hr ih => exact ih.step (.clone hk hk' hr)
  | drop _ hk hr ih => exact ih.step (.drop hk hr)
  | box _ hr ih => exact ih.step (.box hr)
  | unbox _ hf hr ih => exact ih.step (.unbox hf hr)

/-- Every world reached has such a life. -/
theorem Reach.lives (h : Reach c w) : ∃ p, Lives c (fun _ _ => True) w p := by
  induction h with
  | init h => exact ⟨_, .init h⟩
  | step _ hs ih =>
    obtain ⟨p, hp⟩ := ih
    cases hs with
    | new hk hr => exact ⟨_, hp.new hk hr⟩
    | op o hk hv hr => exact ⟨_, hp.op o hk hv trivial hr⟩
    | clone hk hk' hr => exact ⟨_, hp.clone hk hk' hr⟩
    | drop hk hr => exact ⟨_, hp.drop hk hr⟩
    | box hr => exact ⟨_, hp.box hr⟩
    | unbox hf hr => exact ⟨_, hp.unbox hf hr⟩

/-! ## Induction over lives -/

/-- The property `P` of every address space. -/
def Each (c : Cfg) (P : Uvm → (Nat → Nat) → (Nat → Nat) → Prop) (w : World)
    (p : Nat → Nat → Nat) : Prop :=
  ∀ k u, w.uvms k = some u → ∃ tab, Space c ⟨w.account k, w.phys.mem⟩ u tab ∧
    P u (p k) (pte w.phys.mem tab)

section
variable {P : Uvm → (Nat → Nat) → (Nat → Nat) → Prop} {s : Phys} {k : Nat}

/-- The frames of the other address spaces are not touched. -/
theorem Inv.others (h : Inv c w) {v' : View} {o : Finset Nat}
    (hof : v'.Of c (o ∪ w.phys.free.toFinset) w.phys.mem s) {l : Nat}
    (ho : ∀ f ∈ w.account l, f ∉ o) {a : Nat} (ha : pageOf a ∈ w.account l) :
    s.mem a = w.phys.mem a := by
  refine hof.same a fun hm => ?_
  rcases Finset.mem_union.1 hm with hm | hm
  · exact ho _ ha hm
  · exact (h.acc l _ ha).2.1 (List.mem_toFinset.1 hm)

/-- An address space whose frames are as they were. -/
theorem Each.keep (h : Each c P w p) {l : Nat} {u : Uvm} (hl : w.uvms l = some u)
    (hm : ∀ a, pageOf a ∈ w.account l → s.mem a = w.phys.mem a) :
    ∃ tab, Space c ⟨w.account l, s.mem⟩ u tab ∧ P u (p l) (pte s.mem tab) := by
  obtain ⟨tab, hsp, hP⟩ := h l u hl
  have htab : ∀ a, Tree.Has u.pagetable.root tab (pageOf a) → s.mem a = w.phys.mem a :=
    fun a ha => hm a (hsp.tree.has_own ha)
  refine ⟨tab, hsp.congr (fun _ hf => hf) htab, ?_⟩
  rw [show pte s.mem tab = pte w.phys.mem tab from funext (hsp.tree.pte_congr htab)]
  exact hP

/-- Code that ran for address space `k`. -/
theorem Each.put (h : Each c P w p) (hi : Inv c w) {u' : Uvm} {v' : View} {p' : Nat → Nat}
    (hof : v'.Of c (w.account k ∪ w.phys.free.toFinset) w.phys.mem s)
    (hs : ∃ tab, Space c v' u' tab ∧ P u' p' (pte v'.mem tab)) :
    Each c P (w.put k (some u') s) (Function.update p k p') := by
  intro l u hl
  by_cases hlk : l = k
  · subst hlk
    obtain ⟨tab, hsp, hP⟩ := hs
    obtain rfl : u' = u := by
      change Function.update w.uvms l (some u') l = some u at hl
      rw [Function.update_self] at hl
      exact Option.some.inj hl
    have hown : (w.put l (some u') s).account l = v'.own := (put_union hof).1
    refine ⟨tab, ?_, ?_⟩
    · rw [hown]
      exact hof.mem ▸ hsp
    · rw [Function.update_self]
      exact hof.mem ▸ hP
  · have hl' : w.uvms l = some u := by
      change Function.update w.uvms k (some u') l = some u at hl
      rwa [Function.update_of_ne hlk] at hl
    have ha : (w.put k (some u') s).account l = w.account l := Function.update_of_ne hlk _ _
    rw [ha, Function.update_of_ne hlk]
    exact h.keep hl' fun a ha => hi.others hof (fun f hf hfk => hlk (hi.disj l k f hf hfk)) ha

theorem Each.fresh (h : Each c P w p) (hk : w.uvms k = none) : Each c P (w.fresh k) p := by
  intro l u hl
  have hlk : l ≠ k := by
    rintro rfl
    change w.uvms l = some u at hl
    rw [hk] at hl
    cases hl
  rw [fresh_ne hlk]
  exact h l u hl

theorem Copied.twin {v v' : View} {u u' : Uvm} {tab tab' : Nat → Option Nat} {fr : Nat → Nat}
    (h : Copied c v v' u tab u' tab' fr) (hf : ∀ f ∈ v'.own, c.IsFrame f) :
    Twin c u (pte v.mem tab) (pte v'.mem tab') := by
  intro q
  split
  · rename_i hq
    refine ⟨fr q, hf _ ?_, h.entry q hq⟩
    exact (Finset.mem_sdiff.1 ((h.own (fr q)).2 (.inr ⟨q, hq, rfl⟩))).1
  · rename_i hq
    exact h.none q hq

/-- Code that made the clone `k'` of address space `k`. -/
theorem Each.clone (h : Each c P w p) (hi : Inv c w) {k' : Nat} {u u' : Uvm} {v' : View}
    {tab tab' : Nat → Option Nat} {fr : Nat → Nat} (hk : w.uvms k = some u)
    (hk' : w.uvms k' = none)
    (hof : v'.Of c (w.account k ∪ w.phys.free.toFinset) w.phys.mem s)
    (hcp : Copied c ⟨w.account k, w.phys.mem⟩ v' u tab u' tab' fr)
    (hP : P u' (p k) (pte v'.mem tab')) :
    Each c P ((w.fresh k').put k' (some u') s) (Function.update p k' (p k)) := by
  intro l u₁ hl
  by_cases hlk : l = k'
  · subst hlk
    obtain rfl : u' = u₁ := by
      change Function.update w.uvms l (some u') l = some u₁ at hl
      rw [Function.update_self] at hl
      exact Option.some.inj hl
    have hown : ((w.fresh l).put l (some u') s).account l = v'.own \ w.account k := by
      rw [← hi.clone_charge l hof]
      exact Function.update_self ..
    refine ⟨tab', ?_, ?_⟩
    · rw [hown]
      exact hof.mem ▸ hcp.space
    · rw [Function.update_self]
      exact hof.mem ▸ hP
  · have hl' : w.uvms l = some u₁ := by
      change Function.update w.uvms k' (some u') l = some u₁ at hl
      rwa [Function.update_of_ne hlk] at hl
    have ha : ((w.fresh k').put k' (some u') s).account l = w.account l :=
      (Function.update_of_ne hlk ..).trans (fresh_ne hlk)
    rw [ha, Function.update_of_ne hlk]
    refine h.keep hl' fun a ha => ?_
    change s.mem a = w.phys.mem a
    by_cases hlk : l = k
    · subst hlk
      rw [← hof.mem]
      exact hcp.mem a ha
    · exact hi.others hof (fun f hf hfk => hlk (hi.disj l k f hf hfk)) ha

/-- **Induction over lives.** -/
theorem Lives.entries (hnew : ∀ root, P ⟨USER_START, 0, ⟨root⟩⟩ (fun _ => 0) fun _ => 0)
    (hop : ∀ {u p e o u' e'}, A o u' → (∀ perm, o.perm = some perm → PermOk perm) →
      u.size % PAGESIZE = 0 → Move c u e o u' e' → P u p e → P u' (o.asked u u' p) e')
    (hclone : ∀ {u p e root e'}, u.size % PAGESIZE = 0 → Twin c u e e' → P u p e →
      P ⟨USER_START, u.size, ⟨root⟩⟩ p e')
    (h : Lives c A w p) : Each c P w p := by
  induction h with
  | init h =>
    intro k u hk
    rw [h.uvms k] at hk
    cases hk
  | @new w p k u s hl hk hr ih =>
    have hi := hl.reach.inv.clear hk
    have hwp : M.wp (alone c True) Uvm.new (fun u v' => ∃ tab, Space c v' u tab ∧
        P u (fun _ => 0) (pte v'.mem tab)) ⟨∅, w.phys.mem⟩ :=
      wp_uvmNew (fun _ => trivial) fun v' f _ _ _ hsp => ⟨_, hsp, hnew f⟩
    obtain ⟨v', hof, hq⟩ := hl.reach.inv.run_ok (fun f hf => by cases hf) hwp hr
    rw [← fresh_self w k] at hof
    exact (ih.fresh hk).put hi hof hq
  | @op w p k u u' s hl o hk hv ha hr ih =>
    have hi := hl.reach.inv
    obtain ⟨tab, hsp, hP⟩ := ih k u hk
    obtain ⟨v', hof, tab', hkept, hmove⟩ := hi.run_ok (hi.own k)
      (wp_op (E := alone c True) id hsp trivial o hv fun f hf => (hi.box f hf).1) hr
    exact ih.put hi hof ⟨tab', hkept.space, hop ha hv.permOk hsp.size_page hmove hP⟩
  | @clone w p k k' u u' s hl hk hk' hr ih =>
    have hi := hl.reach.inv
    obtain ⟨tab, hsp, hP⟩ := ih k u hk
    obtain ⟨v', tab', fr, hof, hcp⟩ := hi.cloned hsp hr
    have htw := Copied.twin hcp fun f hf => hof.frame f ((hof.cover f).2 (.inl hf))
    have hP' := @hclone u _ _ u'.pagetable.root _ hsp.size_page htw hP
    rw [← hsp.begin_eq, ← hcp.begin_eq, ← hcp.size_eq] at hP'
    exact ih.clone hi hk hk' hof hcp hP'
  | @drop w p k u s hl hk hr ih =>
    have hi := hl.reach.inv
    obtain ⟨tab, hsp, -⟩ := ih k u hk
    obtain ⟨v', hof, -⟩ := hi.dropped hsp hr
    intro l u₁ hl₁
    have hlk : l ≠ k := by
      rintro rfl
      change Function.update w.uvms l none l = some u₁ at hl₁
      rw [Function.update_self] at hl₁
      cases hl₁
    change Function.update w.uvms k none l = some u₁ at hl₁
    rw [Function.update_of_ne hlk] at hl₁
    have ha : (w.put k none s).account l = w.account l := Function.update_of_ne hlk _ _
    rw [ha]
    exact ih.keep hl₁ fun a ha => hi.others hof (fun f hf hfk => hlk (hi.disj l k f hf hfk)) ha
  | @box w p f s hl hr ih =>
    have hi := hl.reach.inv
    obtain ⟨v', hof, -⟩ := hi.run_ok (o := ∅) (fun f hf => by cases hf)
      (wp_newIn (E := alone c True) (Q := fun _ _ => True) (fun _ => trivial)
        fun _ _ _ _ _ _ _ => trivial) hr
    intro l u₁ hl₁
    exact ih.keep hl₁ fun a ha => hi.others hof (fun f _ => Finset.notMem_empty f) ha
  | @unbox w p f s hl hf hr ih =>
    obtain rfl := hl.reach.inv.unboxed hf hr
    intro l u₁ hl₁
    exact ih.keep hl₁ fun _ _ => rfl

end

/-- The demo image with an address space of `n` pages, and the life that led there. -/
theorem demo_life {n perm : Nat} (hn : n ≤ 100) (h0 : perm ≠ 0) (hp : PermOk perm)
    (hA : ∀ u, u.size = n * PAGESIZE → A (.alloc (n * PAGESIZE) perm) u) :
    ∃ w p u tab, Lives Cfg.demo A w p ∧ w.uvms 0 = some u ∧ u.size = n * PAGESIZE ∧
      Space Cfg.demo ⟨w.account 0, w.phys.mem⟩ u tab ∧
      (∀ q, InPages (pageNo USER_START) n q → pte w.phys.mem tab q ≠ 0) ∧
      1800 ≤ w.phys.free.length := by
  obtain ⟨f, s₁, s₂, w, tab, fr, hr₁, hr₂, rfl, hsp, he, -, hlen, -⟩ := demo_alloc_run hn h0 hp
  have hnew : Lives Cfg.demo A (demoNew f s₁) _ := .new (.init demo_init) rfl hr₁
  refine ⟨(demoNew f s₁).put 0 (some ⟨USER_START, n * PAGESIZE, ⟨f⟩⟩) s₂, _,
    ⟨USER_START, n * PAGESIZE, ⟨f⟩⟩, tab, hnew.op (.alloc (n * PAGESIZE) perm) rfl hp (hA _ rfl) hr₂,
    rfl, rfl, hsp, fun q hq => ?_, hlen⟩
  rw [(he q hq).1]
  exact leafWord_ne_zero _ _

end World

end BareMetal
