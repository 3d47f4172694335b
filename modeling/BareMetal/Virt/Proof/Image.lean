import BareMetal.Virt.Proof.Sized

/-!
# Loading an image

`loads_iff`: `load` copies whole pages, so it keeps to the image exactly when that is a whole number
of pages; and it takes the first page without a second-level table for an error, but a page whose
entry is 0 for a page at address 0. `load_rounds` is the run of the rounds before the one that
decides.
-/

namespace BareMetal

open Lib

/-- Every byte that the operation copies comes from `[ptr, ptr + len)`. -/
def MemOp.CopiesFrom (ptr len : Nat) : MemOp → Prop
  | .copy src _ n => ptr ≤ src ∧ src + n ≤ ptr + len
  | _ => True

section
variable {c : Cfg} {own : Finset Nat} {u : Uvm} {tab : Nat → Option Nat} {s : Phys}

/-- Memory after a round of `load` that wrote frame `f`. -/
def Phys.loaded (s : Phys) (src f : Nat) : Phys :=
  { s with mem := (s.mem.fill f 0 PAGESIZE).copy src f PAGESIZE }

/-- What a round of `load` does before the next. -/
def roundOps (root : Nat) (va a src f : Nat) : List MemOp :=
  [.read (root + 4 * (pageNo va / 1024)), .read a, .writeBytes f 0 PAGESIZE, .copy src f PAGESIZE]

theorem loadLoop_round {n va src a : Nat} (h : Tree c ⟨own, s.mem⟩ u.pagetable.root tab)
    (hs : slot tab (pageNo va) = some a) {f : Nat} (hf : frameOf (pte s.mem tab (pageNo va)) = f)
    (hw : c.Writable f PAGESIZE) (hr : Readable src PAGESIZE) (hva : va + PAGESIZE < USIZE)
    {tr : List (MemOp × Phys)} {r : Except Unit Unit} {s' : Phys}
    (hrest : M.Ends c (u.loadLoop n (va + PAGESIZE) (src + PAGESIZE)) (s.loaded src f) tr r s') :
    ∃ tr', M.Ends c (u.loadLoop (n + 1) va src) s tr' r s' ∧
      tr'.map (·.1) = roundOps u.pagetable.root va a src f ++ tr.map (·.1) := by
  have hlt : va < USIZE := by omega
  have hwalk := walk_ends h hlt
  rw [hs] at hwalk
  have hread := M.read_ends (c := c) (s := s) (h.slot_frame hs).1
  rw [slot_word hs] at hread
  have hadd : M.Ends c (M.add va PAGESIZE) (s.loaded src f) [] (va + PAGESIZE) (s.loaded src f) :=
    M.add_ends hva
  unfold Uvm.loadLoop
  let s₁ : Phys := { s with mem := s.mem.fill f 0 PAGESIZE }
  refine ⟨[(.read (u.pagetable.root + 4 * (pageNo va / 1024)), s)] ++ ([(.read a, s)] ++
    ([(.writeBytes f 0 PAGESIZE, s)] ++ ([(.copy src f PAGESIZE, s₁)] ++ ([] ++ tr)))),
    hwalk.seq (hread.seq ?_), rfl⟩
  dsimp only
  rw [Pte.pa_eq, show pte s.mem tab (pageNo va) / 1024 * 4096 % USIZE = f from hf]
  exact (M.writeBytes_ends hw).seq ((M.copy_ends hr hw).seq (hadd.seq hrest))

/-- A round that ended was such a round. -/
theorem loadLoop_round_inv {n va src a : Nat} (h : Tree c ⟨own, s.mem⟩ u.pagetable.root tab)
    (hlt : va < USIZE) (hs : slot tab (pageNo va) = some a) {f : Nat}
    (hf : frameOf (pte s.mem tab (pageNo va)) = f) {r : Except Unit Unit} {s' : Phys}
    (hr : (u.loadLoop (n + 1) va src).run c s = .ok (r, s')) :
    c.Writable f PAGESIZE ∧ Readable src PAGESIZE ∧ va + PAGESIZE < USIZE ∧
      (u.loadLoop n (va + PAGESIZE) (src + PAGESIZE)).run c (s.loaded src f) = .ok (r, s') := by
  have hwalk := (walk_ends h hlt).run
  rw [hs] at hwalk
  have hread := (M.read_ends (c := c) (s := s) (h.slot_frame hs).1).run
  rw [slot_word hs] at hread
  unfold Uvm.loadLoop M.run at hr
  rw [Free.run_bind, hwalk] at hr
  dsimp only at hr
  rw [Free.run_bind, hread] at hr
  dsimp only at hr
  rw [Pte.pa_eq, show pte s.mem tab (pageNo va) / 1024 * 4096 % USIZE = f from hf] at hr
  by_cases hw : c.Writable f PAGESIZE
  · rw [Free.run_bind, (M.writeBytes_ends hw).run] at hr
    dsimp only at hr
    by_cases hrd : Readable src PAGESIZE
    · rw [Free.run_bind, (M.copy_ends hrd hw).run] at hr
      dsimp only at hr
      by_cases hva : va + PAGESIZE < USIZE
      · rw [Free.run_bind, (M.add_ends hva).run] at hr
        exact ⟨hw, hrd, hva, hr⟩
      · unfold M.add at hr
        rw [if_neg hva] at hr
        cases hr
    · have he : (M.copyNonoverlapping src f PAGESIZE).run c
          { s with mem := s.mem.fill f 0 PAGESIZE } = .error "page fault" :=
        M.perform_error (if_neg fun h => hrd h.1)
      rw [Free.run_bind, show Free.run (Phys.exec c) _ _ = .error _ from he] at hr
      cases hr
  · have he : (M.writeBytes f 0 PAGESIZE).run c s = .error "page fault" :=
      M.perform_error (if_neg hw)
    rw [Free.run_bind, show Free.run (Phys.exec c) _ _ = .error _ from he] at hr
    cases hr

/-- A page without a second-level table. -/
theorem loadLoop_none {va : Nat} (n src : Nat) (h : Tree c ⟨own, s.mem⟩ u.pagetable.root tab)
    (hlt : va < USIZE) (hs : slot tab (pageNo va) = none) :
    M.Ends c (u.loadLoop (n + 1) va src) s [(.read (u.pagetable.root + 4 * (pageNo va / 1024)), s)]
      (.error ()) s := by
  have hwalk := walk_ends h hlt
  rw [hs] at hwalk
  unfold Uvm.loadLoop
  exact hwalk.last (.ret _ _)

/-! ## The rounds -/

/-- A frame that `load` may write without touching a table. -/
structure Frames (c : Cfg) (root : Nat) (tab : Nat → Option Nat) (F : Nat → Prop) : Prop where
  frame : ∀ f, F f → c.IsFrame f
  data : ∀ f, F f → ¬ Tree.Has root tab f

theorem Phys.loaded_mem {src f : Nat} (hf : f % PAGESIZE = 0) {a : Nat} (ha : pageOf a ≠ f) :
    (s.loaded src f).mem a = s.mem a := by
  have hn : a < f ∨ f + PAGESIZE ≤ a := by
    by_contra hn
    exact ha (pageOf_eq_of hf (by omega))
  show ((s.mem.fill f 0 PAGESIZE).copy src f PAGESIZE) a = _
  rw [Bytes.copy, Bytes.setBytes_ne hn, Bytes.fill_ne hn]

/-- A round that wrote a frame of `F` leaves the tables. -/
theorem Tree.loaded {F : Nat → Prop} (h : Tree c ⟨own, s.mem⟩ u.pagetable.root tab)
    (hF : Frames c u.pagetable.root tab F) (src : Nat) {f : Nat} (hf : F f) :
    Tree c ⟨own, (s.loaded src f).mem⟩ u.pagetable.root tab ∧
      pte (s.loaded src f).mem tab = pte s.mem tab := by
  have hm : ∀ a, Tree.Has u.pagetable.root tab (pageOf a) → (s.loaded src f).mem a = s.mem a := by
    intro a ha
    refine Phys.loaded_mem (hF.frame f hf).page fun he => ?_
    rw [he] at ha
    exact hF.data f hf ha
  exact ⟨h.congr (fun g hg => h.has_own hg) hm, funext (h.pte_congr hm)⟩

theorem roundOps_in {F : Nat → Prop} {root va a src f ptr len : Nat} (hf : f % PAGESIZE = 0)
    (hF : F f) (hs : ptr ≤ src ∧ src + PAGESIZE ≤ ptr + len) :
    ∀ o ∈ roundOps root va a src f, o.WritesIn F ∧ o.CopiesFrom ptr len := by
  have hpage : ∀ i < PAGESIZE, F (pageOf (f + i)) := by
    intro i hi
    rwa [pageOf_eq_of hf ⟨Nat.le_add_right _ _, Nat.add_lt_add_left hi f⟩]
  intro o ho
  simp only [roundOps, List.mem_cons, List.not_mem_nil, or_false] at ho
  rcases ho with rfl | rfl | rfl | rfl
  · exact ⟨trivial, trivial⟩
  · exact ⟨trivial, trivial⟩
  · exact ⟨hpage, trivial⟩
  · exact ⟨hpage, hs⟩

theorem pageNo_next {va : Nat} : pageNo (va + PAGESIZE) = pageNo va + 1 := by
  unfold pageNo
  rw [PAGESIZE_eq]
  omega

/-- **`i` rounds** that write frames of `F`, and then the rest of the loop. -/
theorem load_rounds {F : Nat → Prop} (hF : Frames c u.pagetable.root tab F) (i : Nat) :
    ∀ (src : Nat) {n va : Nat} {s : Phys}, Tree c ⟨own, s.mem⟩ u.pagetable.root tab → i ≤ n →
      (∀ j < i, slot tab (pageNo va + j) ≠ none ∧ F (frameOf (pte s.mem tab (pageNo va + j)))) →
      (∀ j < i, Readable (src + j * PAGESIZE) PAGESIZE) → va + i * PAGESIZE < USIZE →
      ∃ s₁ ops, Tree c ⟨own, s₁.mem⟩ u.pagetable.root tab ∧ pte s₁.mem tab = pte s.mem tab ∧
        (∀ o ∈ ops, o.WritesIn F ∧ o.CopiesFrom src (i * PAGESIZE)) ∧
        ∀ tr r s', M.Ends c (u.loadLoop (n - i) (va + i * PAGESIZE) (src + i * PAGESIZE)) s₁ tr r s' →
          ∃ tr', M.Ends c (u.loadLoop n va src) s tr' r s' ∧
            tr'.map (·.1) = ops ++ tr.map (·.1) := by
  induction i with
  | zero =>
    intro src n va s h _ _ _ _
    refine ⟨s, [], h, rfl, fun o ho => (List.not_mem_nil ho).elim, fun tr r s' he => ⟨tr, ?_, rfl⟩⟩
    rwa [Nat.zero_mul, Nat.add_zero, Nat.add_zero, Nat.sub_zero] at he
  | succ i ih =>
    intro src n va s h hn hpages hsrc hva
    have hsz := PAGESIZE_eq
    obtain ⟨m, rfl⟩ : ∃ m, n = m + 1 := ⟨n - 1, by omega⟩
    rw [Nat.succ_mul] at hva
    have h0 := hpages 0 (by omega)
    rw [Nat.add_zero] at h0
    obtain ⟨a, hs⟩ := Option.ne_none_iff_exists'.1 h0.1
    have hf := hF.frame _ h0.2
    have hw := hf.writable (pageOf_self hf.page) (n := PAGESIZE) (by rw [hf.page]; omega)
    have hr0 := hsrc 0 (by omega)
    rw [Nat.zero_mul, Nat.add_zero] at hr0
    obtain ⟨h₁, he₁⟩ := h.loaded hF src h0.2
    obtain ⟨s₁, ops, ht, hp, hops, hrest⟩ := @ih (src + PAGESIZE) m (va + PAGESIZE) _ h₁ (by omega)
      (fun j hj => by
        rw [pageNo_next, he₁, Nat.add_assoc, Nat.add_comm 1 j]
        exact hpages (j + 1) (by omega))
      (fun j hj => by
        have := hsrc (j + 1) (by omega)
        rwa [Nat.succ_mul, Nat.add_comm (j * PAGESIZE), ← Nat.add_assoc] at this)
      (by omega)
    refine ⟨s₁, roundOps u.pagetable.root va a src (frameOf (pte s.mem tab (pageNo va))) ++ ops, ht,
      hp.trans he₁, fun o ho => ?_, fun tr r s' he => ?_⟩
    · rw [Nat.succ_mul]
      rcases List.mem_append.1 ho with ho | ho
      · exact roundOps_in hf.page h0.2 ⟨Nat.le_refl _, by omega⟩ o ho
      · obtain ⟨h1, h2⟩ := hops o ho
        refine ⟨h1, ?_⟩
        cases o with
        | copy src' dst k =>
          obtain ⟨h3, h4⟩ := h2
          exact ⟨by omega, by omega⟩
        | _ => trivial
    · rw [Nat.succ_mul, Nat.add_comm (i * PAGESIZE), ← Nat.add_assoc, ← Nat.add_assoc,
        Nat.add_sub_add_right] at he
      obtain ⟨tr', he', hmap⟩ := hrest tr r s' he
      obtain ⟨tr'', he'', hmap'⟩ := loadLoop_round h hs rfl hw hr0 (by omega) he'
      exact ⟨tr'', he'', by rw [hmap', hmap, List.append_assoc]⟩

/-- What a run did whose writes all lie in frames of `F`: rounds on pages that lead to such frames,
all of them or, with `Err`, those before a page without a second-level table. -/
theorem load_ran {F : Nat → Prop} (hF : Frames c u.pagetable.root tab F) (n : Nat) :
    ∀ {va src : Nat} {s s' : Phys} {r : Except Unit Unit}, Tree c ⟨own, s.mem⟩ u.pagetable.root tab →
      va < USIZE → (u.loadLoop n va src).run c s = .ok (r, s') →
      (∀ o ∈ (u.loadLoop n va src).ops c s, o.WritesIn F) →
      ∃ i ≤ n, (∀ j < i, F (frameOf (pte s.mem tab (pageNo va + j))) ∧
        ∃ dst, MemOp.copy (src + j * PAGESIZE) dst PAGESIZE ∈ (u.loadLoop n va src).ops c s) ∧
        (r = .ok () ∧ i = n ∨
          r = .error () ∧ i < n ∧ va + i * PAGESIZE < USIZE ∧ slot tab (pageNo va + i) = none) := by
  induction n with
  | zero =>
    intro va src s s' r _ _ hr _
    refine ⟨0, Nat.le_refl _, fun j hj => absurd hj (Nat.not_lt_zero j), .inl ⟨?_, rfl⟩⟩
    cases hr
    rfl
  | succ n ih =>
    intro va src s s' r h hlt hr hops
    cases hs : slot tab (pageNo va) with
    | none =>
      have he := loadLoop_none n src h hlt hs
      rw [show (u.loadLoop (n + 1) va src).run c s = _ from he.run] at hr
      cases hr
      refine ⟨0, by omega, fun j hj => absurd hj (Nat.not_lt_zero j), .inr ⟨rfl, by omega, ?_, hs⟩⟩
      rwa [Nat.zero_mul, Nat.add_zero]
    | some a =>
      obtain ⟨hw, hrd, hva, hrest⟩ := loadLoop_round_inv h hlt hs rfl hr
      obtain ⟨tr, he⟩ := Free.run_ends hrest
      obtain ⟨tr', he', hmap⟩ := loadLoop_round h hs rfl hw hrd hva he
      have hops' := he'.ops
      rw [hmap] at hops'
      have hrops := M.Ends.ops he
      rw [← hrops] at hops'
      rw [hops'] at hops ⊢
      -- the frame of this round is one of `F`
      have hf : F (frameOf (pte s.mem tab (pageNo va))) := by
        have h0 : 0 < PAGESIZE := by rw [PAGESIZE_eq]; decide
        have := hops (.writeBytes (frameOf (pte s.mem tab (pageNo va))) 0 PAGESIZE)
          (List.mem_append_left _ (by simp [roundOps])) 0 h0
        rwa [Nat.add_zero, pageOf_self (frameOf_page _)] at this
      obtain ⟨h₁, he₁⟩ := h.loaded hF src hf
      obtain ⟨i, hi, hj, hend⟩ := ih h₁ hva hrest fun o ho => hops o (List.mem_append_right _ ho)
      rw [pageNo_next] at hj hend
      refine ⟨i + 1, by omega, fun j hji => ?_, ?_⟩
      · cases j with
        | zero =>
          refine ⟨hf, frameOf (pte s.mem tab (pageNo va)), List.mem_append_left _ ?_⟩
          rw [Nat.zero_mul, Nat.add_zero]
          simp [roundOps]
        | succ j =>
          obtain ⟨h1, dst, h2⟩ := hj j (by omega)
          rw [he₁, Nat.add_assoc, Nat.add_comm 1 j] at h1
          refine ⟨h1, dst, List.mem_append_right _ ?_⟩
          rwa [Nat.succ_mul, Nat.add_comm (j * PAGESIZE), ← Nat.add_assoc]
      · rcases hend with ⟨h1, h2⟩ | ⟨h1, h2, h3, h4⟩
        · exact .inl ⟨h1, by omega⟩
        · rw [Nat.add_assoc, Nat.add_comm 1 i] at h4
          refine .inr ⟨h1, by omega, ?_, h4⟩
          rwa [Nat.succ_mul, Nat.add_comm (i * PAGESIZE), ← Nat.add_assoc]

end

/-! ## Every page is below the last, and a page of the system is a leaf -/

/-- What the entries of any address space reached are like. -/
structure Regular (e : Nat → Nat) : Prop where
  top : ∀ q, e q ≠ 0 → q + 1 < 2 ^ 20
  sys : ∀ q, e q ≠ 0 → e q / 16 % 2 = 0 → Sv32.isLeaf (e q)

theorem Regular.move {c : Cfg} {u u' : Uvm} {e e' : Nat → Nat} {o : UvmOp} (h : Regular e)
    (hp : ∀ perm, o.perm = some perm → PermOk perm) (hm : Move c u e o u' e') : Regular e' := by
  have hsz := PAGESIZE_eq
  cases hm with
  | @initProc tf e' htf hm =>
    have hleaf : ∀ {w}, SysEntry w → Sv32.isLeaf w := by
      rintro w ⟨f, perm, hf, hp, hl, -, rfl⟩
      exact (isLeaf_leafWord hf hp).2 hl
    refine ⟨fun q hq => ?_, fun q hq hu => ?_⟩
    · rcases hm q with he | ⟨rfl, -⟩ | ⟨rfl, -⟩
      · exact h.top q (by rwa [← he])
      · rw [trampoline_va.2.2]
        decide
      · rw [trapframe_va.2.2]
        decide
    · rcases hm q with he | ⟨-, he⟩ | ⟨-, he⟩
      · rw [he] at hq hu ⊢
        exact h.sys q hq hu
      · rw [he]
        exact hleaf (sysEntry_trampoline c)
      · rw [he]
        exact hleaf (sysEntry_trapframe htf)
  | guard => exact h
  | @pages o perm n fr e' hperm h0 hb hin hout =>
    refine ⟨fun q hq => ?_, fun q hq hu => ?_⟩
    · by_cases hn : InPages (pageNo (USER_START + u.size)) n q
      · have hus := userStart_page
        unfold InPages pageNo at hn
        rw [hsz, USIZE_eq] at *
        omega
      · rw [hout q hn] at hq
        exact h.top q hq
    · by_cases hn : InPages (pageNo (USER_START + u.size)) n q
      · obtain ⟨hf, he⟩ := hin q hn
        rw [he, leafWord_u hf.aligned (permOk_or (hp perm hperm)), or_u] at hu
        cases hu
      · rw [hout q hn] at hq hu ⊢
        exact h.sys q hq hu
  | load => exact h
  | @dealloc size hle hsz =>
    have hcase : ∀ q, unmapRange (pageNo (USER_START + size)) ((u.size - size) / PAGESIZE) e q ≠ 0 →
        unmapRange (pageNo (USER_START + size)) ((u.size - size) / PAGESIZE) e q = e q := by
      intro q hq
      unfold unmapRange at hq ⊢
      split at hq
      · exact absurd rfl hq
      · rename_i hn
        exact if_neg hn
    refine ⟨fun q hq => ?_, fun q hq hu => ?_⟩
    · have he := hcase q hq
      rw [he] at hq
      exact h.top q hq
    · have he := hcase q hq
      rw [he] at hq hu ⊢
      exact h.sys q hq hu
  | refused => exact h

theorem Regular.twin {c : Cfg} {u : Uvm} {e e' : Nat → Nat} (h : Regular e) (ht : Twin c u e e') :
    Regular e' := by
  have hold : ∀ q, e' q ≠ 0 → e q ≠ 0 ∧ ∃ f, c.IsFrame f ∧ e' q = leafWord f (permOf (e q)) := by
    intro q hq
    have ht := ht q
    split at ht
    · rename_i hv
      refine ⟨fun h0 => ?_, ht⟩
      have := hv.2
      rw [h0] at this
      cases this
    · exact absurd ht hq
  refine ⟨fun q hq => h.top q (hold q hq).1, fun q hq hu => ?_⟩
  obtain ⟨h0, f, hf, he⟩ := hold q hq
  rw [he] at hu ⊢
  rw [leafWord_u hf.aligned (permOf_ok _), permOf_u] at hu
  rw [isLeaf_leafWord hf.aligned (permOf_ok _)]
  have := h.sys q h0 hu
  unfold Sv32.isLeaf permOf at *
  omega

theorem slot_of_pte {m : Bytes} {tab : Nat → Option Nat} {q : Nat} (h : pte m tab q ≠ 0) :
    slot tab q ≠ none := by
  intro hs
  rw [slot, Option.map_eq_none_iff] at hs
  refine h ?_
  rw [pte, hs]

/-- The end of the pages before the first that has no entry. -/
theorem Regular.end_lt {m : Bytes} {tab : Nat → Option Nat} (h : Regular (pte m tab)) {va n : Nat}
    (hlt : va < USIZE) (hp : ∀ j < n, pte m tab (pageNo va + j) ≠ 0) : va + n * PAGESIZE < USIZE := by
  have hsz := PAGESIZE_eq
  cases n with
  | zero => rwa [Nat.zero_mul, Nat.add_zero]
  | succ n =>
    have := h.top _ (hp n (Nat.lt_succ_self n))
    unfold pageNo at this
    rw [hsz] at *
    rw [USIZE_eq] at *
    omega

namespace World

variable {c : Cfg} {w : World} {k : Nat} {u : Uvm}

theorem Reach.regular (h : Reach c w) (hk : w.uvms k = some u) :
    ∃ tab, Space c ⟨w.account k, w.phys.mem⟩ u tab ∧ Regular (pte w.phys.mem tab) := by
  obtain ⟨p, hl⟩ := h.lives
  exact Lives.entries (P := fun _ _ e => Regular e) (fun _ => ⟨fun _ h => absurd rfl h,
    fun _ h => absurd rfl h⟩) (fun _ hp _ hm h => h.move hp hm) (fun _ ht h => h.twin ht) hl k u hk

/-! ## What `load` is to do -/

/-- `f` is the frame of a user page that the image covers. -/
def ImageFrame (w : World) (u : Uvm) (va : Nat) (img : Slice) (f : Nat) : Prop :=
  ∃ j < pagesTo 0 img.len, userFrame w.phys.mem u.pagetable.root (va + j * PAGESIZE) = some f

/-- Where every page is a user page, the image and zeros after it are placed, only the image is
copied and only these pages are written; where a page is not mapped, `Err`, and only user pages of
the range are written. -/
def Loads (c : Cfg) (w : World) (u : Uvm) (va : Nat) (img : Slice) : Prop :=
  ((∀ j < pagesTo 0 img.len,
      userFrame w.phys.mem u.pagetable.root (va + j * PAGESIZE) ≠ none) →
    ∃ phys, (u.load va img).run c w.phys = .ok (.ok (), phys) ∧
      (∀ i < pagesTo 0 img.len * PAGESIZE, ∃ pa perm,
        Sv32.translate phys.mem u.pagetable.root (va + i) = some (pa, perm) ∧
        phys.mem pa = if i < img.len then w.phys.mem (img.ptr + i) else 0) ∧
      ∀ o ∈ (u.load va img).ops c w.phys, o.WritesIn (ImageFrame w u va img) ∧
        o.CopiesFrom img.ptr img.len) ∧
  ((∃ j < pagesTo 0 img.len,
      Sv32.translate w.phys.mem u.pagetable.root (va + j * PAGESIZE) = none) →
    ∃ phys, (u.load va img).run c w.phys = .ok (.error (), phys) ∧
      ∀ o ∈ (u.load va img).ops c w.phys, o.WritesIn (ImageFrame w u va img))

/-- Where every page is a user page, the image is a whole number of pages; the first page that is
not mapped has no second-level table, and those before it lead to frames of user pages of the
range. -/
def LoadFits (w : World) (u : Uvm) (va : Nat) (img : Slice) : Prop :=
  ((∀ j < pagesTo 0 img.len,
      userFrame w.phys.mem u.pagetable.root (va + j * PAGESIZE) ≠ none) →
    img.len % PAGESIZE = 0) ∧
  ∀ j < pagesTo 0 img.len,
    Sv32.translate w.phys.mem u.pagetable.root (va + j * PAGESIZE) = none →
    (∀ i < j, Sv32.translate w.phys.mem u.pagetable.root (va + i * PAGESIZE) ≠ none) →
    w.phys.mem.word (u.pagetable.root + 4 * ((va + j * PAGESIZE) / 2 ^ 22)) % 2 = 0 ∧
      ∀ i < j, ∀ pa perm, Sv32.translate w.phys.mem u.pagetable.root (va + i * PAGESIZE) =
        some (pa, perm) → ImageFrame w u va img pa

theorem pageNo_add (va j : Nat) : pageNo (va + j * PAGESIZE) = pageNo va + j := by
  unfold pageNo
  rw [PAGESIZE_eq]
  omega

theorem load_eq {va : Nat} (hva : va % PAGESIZE = 0) (img : Slice) :
    u.load va img = u.loadLoop (pagesTo 0 img.len) va img.ptr := by
  unfold Uvm.load
  rw [if_neg (not_not_intro hva)]

/-- The frame of a page that is mapped. -/
theorem translate_frame {tab : Nat → Option Nat} (hsp : Space c ⟨w.account k, w.phys.mem⟩ u tab)
    {va pa perm : Nat} (hva : va % PAGESIZE = 0)
    (h : Sv32.translate w.phys.mem u.pagetable.root va = some (pa, perm)) :
    va < USIZE ∧ pte w.phys.mem tab (pageNo va) ≠ 0 ∧
      pa = frameOf (pte w.phys.mem tab (pageNo va)) := by
  have h0 : pte w.phys.mem tab (pageNo va) ≠ 0 := by
    intro h0
    have hn : Sv32.translate w.phys.mem u.pagetable.root va = none :=
      hsp.tree.translate_even (by dsimp only; rw [h0])
    rw [hn] at h
    cases h
  have hlt := hsp.tree.lt_of_odd (hsp.leaf _ h0).odd
  refine ⟨hlt, h0, ?_⟩
  obtain ⟨f, perm', hp, hf, hr, he⟩ := hsp.leaf _ h0
  have hal := hr.aligned hf
  dsimp only at he
  by_cases hl : Sv32.isLeaf perm'
  · have ht := hsp.tree.translate_leaf hlt he hal hp hl
    dsimp only at ht
    rw [ht, hva, Nat.add_zero] at h
    rw [he, frameOf_leafWord hal hp]
    exact (Prod.mk.inj (Option.some.inj h)).1.symm
  · have ht := (hsp.tree.translate_eq hlt).trans (if_pos (.inr (by
      dsimp only
      rwa [he, isLeaf_leafWord hal hp])))
    dsimp only at ht
    rw [ht] at h
    cases h

theorem image_frames {tab : Nat → Option Nat} (hi : Inv c w)
    (hsp : Space c ⟨w.account k, w.phys.mem⟩ u tab) {va : Nat} (hva : va % PAGESIZE = 0)
    (img : Slice) : Frames c u.pagetable.root tab (ImageFrame w u va img) := by
  have huser : ∀ f, ImageFrame w u va img f → f ∈ w.account k ∧ ¬ Tree.Has u.pagetable.root tab f := by
    rintro f ⟨j, -, hf⟩
    have hj : (va + j * PAGESIZE) % PAGESIZE = 0 := by rw [Nat.add_mul_mod_self_right, hva]
    exact hsp.user _ f ((hsp.tree.userFrame_iff hj).1 hf).2.maps
  exact ⟨fun f hf => (hi.acc k f (huser f hf).1).1, fun f hf => (huser f hf).2⟩

/-- An entry that leads to the frame of a user page of the image is a leaf. -/
theorem image_leaf {tab : Nat → Option Nat} (hsp : Space c ⟨w.account k, w.phys.mem⟩ u tab)
    (hreg : Regular (pte w.phys.mem tab)) {va a : Nat} (hva : va % PAGESIZE = 0) {img : Slice}
    (hf : c.IsFrame (frameOf (pte w.phys.mem tab (pageNo a))))
    (h : ImageFrame w u va img (frameOf (pte w.phys.mem tab (pageNo a)))) :
    Sv32.translate w.phys.mem u.pagetable.root a =
      some (frameOf (pte w.phys.mem tab (pageNo a)) + a % PAGESIZE,
        permOf (pte w.phys.mem tab (pageNo a))) := by
  obtain ⟨j, -, hj⟩ := h
  have hup := ((hsp.tree.userFrame_iff (by rw [Nat.add_mul_mod_self_right, hva])).1 hj).2
  have h0 : pte w.phys.mem tab (pageNo a) ≠ 0 := by
    intro h0
    rw [h0] at hf
    exact hf.ne_zero rfl
  have hleaf : Sv32.isLeaf (pte w.phys.mem tab (pageNo a)) := by
    by_cases hu : pte w.phys.mem tab (pageNo a) / 16 % 2 = 0
    · exact hreg.sys _ h0 hu
    · -- two user pages with one frame are one page
      have hm : Maps (pte w.phys.mem tab (pageNo a)) (frameOf (pte w.phys.mem tab (pageNo a))) :=
        ⟨(hsp.leaf _ h0).odd, by omega, rfl⟩
      rw [hsp.inj _ _ _ hm hup.maps]
      have := hup.2.1
      unfold Sv32.isLeaf
      omega
  obtain ⟨f, perm, hp, hf, hr, he⟩ := hsp.leaf _ h0
  have hal := hr.aligned hf
  dsimp only at he
  rw [he] at hleaf ⊢
  rw [frameOf_leafWord hal hp, permOf_leafWord hal hp]
  exact hsp.tree.translate_leaf (hsp.tree.lt_of_odd (hsp.leaf _ h0).odd) he hal hp
    ((isLeaf_leafWord hal hp).1 hleaf)

/-- A slice that the kernel may read and that is none of the frames of address space `k`. -/
def Borrowed (w : World) (k : Nat) (img : Slice) : Prop :=
  ∀ i < img.len, Readable (img.ptr + i) 1 ∧ pageOf (img.ptr + i) ∉ w.account k

theorem Borrowed.chunk {img : Slice} (h : Borrowed w k img) {j : Nat}
    (hj : (j + 1) * PAGESIZE ≤ img.len) : Readable (img.ptr + j * PAGESIZE) PAGESIZE := by
  have hsz := PAGESIZE_eq
  rw [Nat.succ_mul] at hj
  have h1 := (h (j * PAGESIZE) (by omega)).1.1
  have h2 := (h (j * PAGESIZE + (PAGESIZE - 1)) (by omega)).1.2
  exact ⟨h1, by omega⟩

/-- **When `load` keeps its promise, the image and the pages fit.** -/
theorem loads_fits (h : Reach c w) (hk : w.uvms k = some u) {va : Nat} (hva : va % PAGESIZE = 0)
    (hlt : va < USIZE) {img : Slice} (hL : Loads c w u va img) : LoadFits w u va img := by
  obtain ⟨tab, hsp, hreg⟩ := h.regular hk
  have hF := image_frames h.inv hsp hva img
  have hal : ∀ j, (va + j * PAGESIZE) % PAGESIZE = 0 := fun j => by
    rw [Nat.add_mul_mod_self_right, hva]
  obtain ⟨hA, hB⟩ := hL
  rw [load_eq hva] at hA hB
  refine ⟨fun hall => ?_, fun j hj hnone hfirst => ?_⟩
  · obtain ⟨phys, hr, -, hops⟩ := hA hall
    obtain ⟨i, -, hi, hend⟩ := load_ran hF _ hsp.tree hlt hr fun o ho => (hops o ho).1
    obtain ⟨-, rfl⟩ := hend.resolve_right fun h => by cases h.1
    by_contra hlen
    have hpos : 0 < pagesTo 0 img.len ∧ img.len < pagesTo 0 img.len * PAGESIZE := by
      unfold pagesTo
      rw [PAGESIZE_eq] at *
      omega
    obtain ⟨-, dst, hcp⟩ := hi (pagesTo 0 img.len - 1) (by omega)
    have hc := (hops _ hcp).2.2
    have hn : (pagesTo 0 img.len - 1) * PAGESIZE + PAGESIZE = pagesTo 0 img.len * PAGESIZE := by
      rw [← Nat.succ_mul, Nat.succ_eq_add_one, Nat.sub_add_cancel hpos.1]
    omega
  · obtain ⟨phys, hr, hops⟩ := hB ⟨j, hj, hnone⟩
    obtain ⟨i, -, hi, hend⟩ := load_ran hF _ hsp.tree hlt hr hops
    obtain ⟨-, hin, hilt, hslot⟩ := hend.resolve_left fun h => by cases h.1
    rw [← pageNo_add] at hslot
    have hle : j ≤ i := by
      by_contra hij
      refine hfirst i (by omega) (hsp.tree.translate_even ?_)
      rw [slot, Option.map_eq_none_iff] at hslot
      rw [pte, hslot]
      rfl
    have hji : ¬ j < i := by
      intro hji
      obtain ⟨hf, -⟩ := hi j hji
      rw [← pageNo_add] at hf
      rw [image_leaf hsp hreg hva (hF.frame _ hf) hf] at hnone
      cases hnone
    obtain rfl : j = i := by omega
    refine ⟨?_, fun i' hi' pa perm ht => ?_⟩
    · have := (hsp.tree.slot_none_iff hilt).1 hslot
      dsimp only at this
      omega
    · obtain ⟨-, -, rfl⟩ := translate_frame hsp (hal i') ht
      rw [pageNo_add]
      exact (hi i' hi').1

/-- A user page of the image, by its entry. -/
theorem image_entry {tab : Nat → Option Nat} (hsp : Space c ⟨w.account k, w.phys.mem⟩ u tab)
    {va : Nat} (hva : va % PAGESIZE = 0) {img : Slice} {j : Nat} (hj : j < pagesTo 0 img.len)
    (h : userFrame w.phys.mem u.pagetable.root (va + j * PAGESIZE) ≠ none) :
    UserPage (pte w.phys.mem tab (pageNo va + j)) (frameOf (pte w.phys.mem tab (pageNo va + j))) ∧
      ImageFrame w u va img (frameOf (pte w.phys.mem tab (pageNo va + j))) := by
  obtain ⟨f, hf⟩ := Option.ne_none_iff_exists'.1 h
  have hup := ((hsp.tree.userFrame_iff (by rw [Nat.add_mul_mod_self_right, hva])).1 hf).2
  rw [pageNo_add] at hup
  have he : frameOf (pte w.phys.mem tab (pageNo va + j)) = f := hup.2.2.2
  rw [he]
  exact ⟨hup, j, hj, hf⟩

/-- What a run over user pages left in them. -/
theorem loaded_bytes (hi : Inv c w) {tab : Nat → Option Nat}
    (hsp : Space c ⟨w.account k, w.phys.mem⟩ u tab) {va n : Nat} (hlt : va + n * PAGESIZE < USIZE)
    {img : Slice} (hb : Borrowed w k img) (hlen : n * PAGESIZE = img.len)
    (hent : ∀ j < n, UserPage (pte w.phys.mem tab (pageNo va + j))
      (frameOf (pte w.phys.mem tab (pageNo va + j)))) {s : Phys}
    (hr : (u.loadLoop n va img.ptr).run c w.phys = .ok (.ok (), s)) {i : Nat} (hin : i < img.len) :
    s.mem (frameOf (pte w.phys.mem tab (pageNo va + i / PAGESIZE)) + i % PAGESIZE) =
      w.phys.mem (img.ptr + i) := by
  have hpage : ∀ q, InPages (pageNo va) n q →
      UserPage (pte w.phys.mem tab q) (frameOf (pte w.phys.mem tab q)) := by
    intro q hq
    have := hent (q - pageNo va) (by unfold InPages at hq; omega)
    rwa [Nat.add_sub_cancel' hq.1] at this
  have hown : ∀ q, InPages (pageNo va) n q → frameOf (pte w.phys.mem tab q) ∈ w.account k ∧
      ¬ Tree.Has u.pagetable.root tab (frameOf (pte w.phys.mem tab q)) := fun q hq =>
    hsp.user q _ (hpage q hq).maps
  have hwp : M.wp (alone c True) (u.loadLoop n va img.ptr) (fun r v' => r = .ok () →
      ∀ i < n * PAGESIZE, v'.mem (frameOf (pte w.phys.mem tab (pageNo va + i / PAGESIZE)) +
        i % PAGESIZE) = w.phys.mem (img.ptr + i)) ⟨w.account k, w.phys.mem⟩ := by
    have hva : va < USIZE := by omega
    have hread : ∀ j < n, Readable (img.ptr + j * PAGESIZE) PAGESIZE := fun j hj =>
      hb.chunk (by rw [← hlen]; exact Nat.mul_le_mul_right _ hj)
    refine wp_loadLoop n hsp.tree hva hlt (.inl hread) (fun _ _ _ => trivial) ?_
      fun m r _ _ hdata hok => ?_
    · intro q hq _
      exact hown q hq
    refine hdata hok rfl (fun q hq j hj he => ?_) fun p q hp hq he => ?_
    · refine (hb j (by omega)).2 ?_
      rw [he]
      exact (hown q hq).1
    · have hm := (hpage q hq).maps
      dsimp only at he
      rw [← he] at hm
      exact hsp.inj p q _ (hpage p hp).maps hm
  obtain ⟨v', hof, hq⟩ := hi.run_ok (hi.own k) hwp hr
  rw [← hof.mem]
  exact hq rfl i (by omega)

theorem fits_loads (h : Reach c w) (hk : w.uvms k = some u) {va : Nat} (hva : va % PAGESIZE = 0)
    (hlt : va < USIZE) {img : Slice} (hb : Borrowed w k img) (hL : LoadFits w u va img) :
    Loads c w u va img := by
  obtain ⟨tab, hsp, hreg⟩ := h.regular hk
  have hi := h.inv
  have hF := image_frames hi hsp hva img
  have hsz := PAGESIZE_eq
  unfold Loads
  rw [load_eq hva]
  generalize hN : pagesTo 0 img.len = N at *
  have hlen : ∀ j < N, j * PAGESIZE < img.len := by
    intro j hj
    rw [← hN] at hj
    unfold pagesTo at hj
    rw [hsz] at *
    omega
  refine ⟨fun hall => ?_, fun hex => ?_⟩
  · have hwhole : N * PAGESIZE = img.len := by
      have := hL.1 (by rwa [hN])
      rw [← hN]
      unfold pagesTo
      rw [hsz] at *
      omega
    have hent := fun j hj => image_entry hsp hva (hN ▸ hj) (hall j hj)
    have hend := hreg.end_lt hlt fun j hj => (hent j hj).1.ne_zero
    have hread : ∀ j < N, Readable (img.ptr + j * PAGESIZE) PAGESIZE := fun j hj =>
      hb.chunk (by
        rw [← hwhole]
        exact Nat.mul_le_mul_right _ hj)
    obtain ⟨s₁, ops, ht, hp, hops, hrest⟩ := load_rounds hF N img.ptr (n := N) hsp.tree
      (Nat.le_refl N) (fun j hj => ⟨slot_of_pte (hent j hj).1.ne_zero, (hent j hj).2⟩) hread hend
    rw [Nat.sub_self] at hrest
    obtain ⟨tr, he, hmap⟩ := hrest [] (.ok ()) s₁ (.ret _ _)
    refine ⟨s₁, he.run, fun i hi' => ?_, ?_⟩
    · have hij : i / PAGESIZE < N ∧ pageNo (va + i) = pageNo va + i / PAGESIZE ∧
          (va + i) % PAGESIZE = i % PAGESIZE := by
        unfold pageNo
        rw [hsz] at hi' hva ⊢
        omega
      have hb' := loaded_bytes hi hsp hend hb hwhole (fun j hj => (hent j hj).1) he.run
        (i := i) (by omega)
      have hup := (hent _ hij.1).1
      obtain ⟨f, perm, hp', hf, hr, hw⟩ := hsp.leaf _ hup.ne_zero
      have hal := hr.aligned hf
      dsimp only at hw
      rw [hw, frameOf_leafWord hal hp'] at hb'
      refine ⟨f + (va + i) % PAGESIZE, perm, ?_, ?_⟩
      · refine ht.translate_leaf (by omega) ?_ hal hp' ?_
        · dsimp only
          rw [hp, hij.2.1, hw]
        · rw [hw] at hup
          refine (isLeaf_leafWord hal hp').1 ?_
          have := hup.2.1
          unfold Sv32.isLeaf
          omega
      · rw [hij.2.2, if_pos (by omega), hb']
    · rw [he.ops, hmap, List.map_nil, List.append_nil]
      rwa [hwhole] at hops
  · classical
    obtain ⟨hj, hnone⟩ := Nat.find_spec hex
    have hfirst := fun i hi => Nat.find_min hex (m := i) hi
    generalize Nat.find hex = j at *
    have hbefore : ∀ i < j,
        Sv32.translate w.phys.mem u.pagetable.root (va + i * PAGESIZE) ≠ none := fun i hi hn =>
      hfirst i hi ⟨by omega, hn⟩
    obtain ⟨hdir, himg⟩ := hL.2 j (by omega) hnone hbefore
    have hent : ∀ i < j, pte w.phys.mem tab (pageNo va + i) ≠ 0 ∧
        ImageFrame w u va img (frameOf (pte w.phys.mem tab (pageNo va + i))) := by
      intro i hi
      obtain ⟨⟨pa, perm⟩, ht⟩ := Option.ne_none_iff_exists'.1 (hbefore i hi)
      obtain ⟨-, h0, hpa⟩ := translate_frame hsp (by rw [Nat.add_mul_mod_self_right, hva]) ht
      have hf := himg i hi pa perm ht
      rw [hpa, pageNo_add] at hf
      rw [pageNo_add] at h0
      exact ⟨h0, hf⟩
    have hend := hreg.end_lt hlt fun i hi => (hent i hi).1
    have hread : ∀ i < j, Readable (img.ptr + i * PAGESIZE) PAGESIZE := by
      intro i hi
      refine hb.chunk (Nat.le_trans (Nat.mul_le_mul_right _ hi) ?_)
      exact Nat.le_of_lt (hlen j hj)
    obtain ⟨s₁, ops, ht, hp, hops, hrest⟩ := load_rounds hF j img.ptr (n := N) hsp.tree
      (Nat.le_of_lt hj) (fun i hi => ⟨slot_of_pte (hent i hi).1, (hent i hi).2⟩) hread hend
    have hslot : slot tab (pageNo (va + j * PAGESIZE)) = none :=
      (hsp.tree.slot_none_iff hend).2 (by dsimp only; omega)
    obtain ⟨n, hn⟩ : ∃ n, N - j = n + 1 := ⟨N - j - 1, by omega⟩
    rw [hn] at hrest
    obtain ⟨tr, he, hmap⟩ := hrest _ _ _ (loadLoop_none n _ ht hend hslot)
    refine ⟨s₁, he.run, ?_⟩
    rw [he.ops, hmap]
    intro o ho
    rcases List.mem_append.1 ho with ho | ho
    · exact (hops o ho).1
    · obtain rfl := List.mem_singleton.1 ho
      trivial

/-- **`load`** keeps its promise exactly when the image and the pages fit. -/
theorem loads_iff (h : Reach c w) (hk : w.uvms k = some u) {va : Nat} (hva : va % PAGESIZE = 0)
    (hlt : va < USIZE) {img : Slice} (hb : Borrowed w k img) :
    Loads c w u va img ↔ LoadFits w u va img :=
  ⟨loads_fits h hk hva hlt, fits_loads h hk hva hlt hb⟩

/-- An address space of one page, and an image of the kernel to load into it. -/
theorem demo_page : ∃ w u, Reach Cfg.demo w ∧ w.uvms 0 = some u ∧
    userFrame w.phys.mem u.pagetable.root USER_START ≠ none ∧
    ∀ len ≤ PAGESIZE, Borrowed w 0 ⟨Cfg.demo.INIT.ptr, len⟩ := by
  obtain ⟨w, u, tab, fr, h, hk, hsp, hs, hp, -⟩ := demo_alloc (n := 1) (by omega)
    (show PTE_R ||| PTE_W ≠ 0 by decide) ⟨by decide, by decide⟩
  obtain ⟨he, hfr⟩ := hp (pageNo USER_START) ⟨Nat.le_refl _, by omega⟩
  have hsz := PAGESIZE_eq
  refine ⟨w, u, h, hk, ?_, fun len hlen i hi => ⟨?_, fun hacc => ?_⟩⟩
  · have hup : UserPage (leafWord (fr (pageNo USER_START)) ((PTE_R ||| PTE_W) ||| PTE_U))
        (fr (pageNo USER_START)) :=
      userPage_leafWord (demoFrames_frame (by omega) hfr).aligned ⟨by decide, by decide⟩ (by decide)
        (by decide)
    rw [← he] at hup
    rw [(hsp.tree.userFrame_iff userStart_page).2 ⟨by decide, hup⟩]
    simp
  · have h1 : Cfg.demo.INIT.ptr = 0x80202000 := rfl
    have h2 : KERNEL_START = 0x80200000 := rfl
    have h3 : RAMEND = 0x84000000 := rfl
    dsimp only at hi
    refine ⟨?_, ?_⟩ <;> dsimp only <;> omega
  · -- the image lies below the end of the kernel
    have hf := (h.inv.acc 0 _ hacc).1.start
    have h1 : Cfg.demo.INIT.ptr = 0x80202000 := rfl
    have h2 : Cfg.demo.ekernel = 0x8020c000 := rfl
    unfold pageOf at hf
    dsimp only at hf hi
    rw [hsz] at hf hlen
    omega

theorem pagesTo_one {len : Nat} (h0 : 0 < len) (h : len ≤ PAGESIZE) : pagesTo 0 len = 1 := by
  unfold pagesTo
  rw [PAGESIZE_eq] at *
  omega

/-- The pages of an image of at most a page. -/
theorem forall_page {m : Bytes} {root len : Nat} {P : Option Nat → Prop} (h0 : 0 < len)
    (h : len ≤ PAGESIZE) (hp : P (userFrame m root USER_START)) :
    ∀ j < pagesTo 0 len, P (userFrame m root (USER_START + j * PAGESIZE)) := by
  intro j hj
  rw [pagesTo_one h0 h] at hj
  obtain rfl : j = 0 := by omega
  rwa [Nat.zero_mul, Nat.add_zero]

theorem userFrame_none {m : Bytes} {root va : Nat} (h : Sv32.translate m root va = none) :
    userFrame m root va = none := by
  unfold Sv32.translate at h
  rw [Option.map_eq_none_iff] at h
  unfold userFrame
  rw [h]

theorem loads_iff_demo : ∃ w u, w.uvms 0 = some u ∧
    Loads Cfg.demo w u USER_START ⟨Cfg.demo.INIT.ptr, PAGESIZE⟩ := by
  obtain ⟨w, u, h, hk, hp, hb⟩ := demo_page
  have h0 : 0 < PAGESIZE := by rw [PAGESIZE_eq]; decide
  refine ⟨w, u, hk, (loads_iff h hk userStart_page (by decide) (hb _ (Nat.le_refl _))).2
    ⟨fun _ => Nat.mod_self _, fun j hj hnone => ?_⟩⟩
  exact absurd (userFrame_none hnone)
    (forall_page (P := (· ≠ none)) h0 (Nat.le_refl _) hp j hj)

/-- An image of half a page: `load` reads a page. -/
theorem load_overread : ∃ w u, Reach Cfg.demo w ∧ w.uvms 0 = some u ∧
    Borrowed w 0 Cfg.demo.INIT ∧ ¬ Loads Cfg.demo w u USER_START Cfg.demo.INIT := by
  obtain ⟨w, u, h, hk, hp, hb⟩ := demo_page
  have hlen : Cfg.demo.INIT.len = 0x800 := rfl
  have hsz := PAGESIZE_eq
  refine ⟨w, u, h, hk, hb Cfg.demo.INIT.len (by omega), fun hL => ?_⟩
  have := (loads_fits h hk userStart_page (by decide) hL).1
    (forall_page (P := (· ≠ none)) (by omega) (by omega) hp)
  rw [hlen, hsz] at this
  cases this

end World

end BareMetal
