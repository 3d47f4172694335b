import BareMetal.Phys.Ops
import Mathlib.Data.Finset.Card

/-!
# A logic of owned frames

`M.wp E p Q v`: memory code `p`, run by a party that owns the frames `v.own` with contents `v.mem`,
stays within the frames it owns and ends in `Q`. Parameters (`Mode`) say what goes on around it:
whether other parties run between its operations (`shared`; then a frame it does not own may hold
anything, also a frame it is handed), when the allocator may return null (`oom`), whether it may
panic (`stop`), and whether it must not overwrite a valid table entry (`strict`).

`M.run_wp`: with nothing else running, the code run on physical memory does what the logic says,
its owner's frames and the allocator's free frames stay disjoint, and no frame is lost between
the two.
-/

namespace BareMetal

open Lib

structure Mode where
  cfg : Cfg
  shared : Bool
  oom : Finset Nat → Prop
  stop : Prop
  strict : Prop

/-- The frames a party owns, and memory as it sees it. -/
structure View where
  own : Finset Nat
  mem : Bytes

/-- `[a, a + n)` lies in one owned frame. -/
def View.Owns (v : View) (a n : Nat) : Prop := pageOf a ∈ v.own ∧ a % PAGESIZE + n ≤ PAGESIZE

/-- Nobody else changes the byte at `a`. -/
def View.Stable (E : Mode) (v : View) (a : Nat) : Prop := E.shared = false ∨ pageOf a ∈ v.own

/-- The conditions of each operation. A write outside what the kernel may write is a page fault;
every other write stays in an owned frame. -/
def memSpec (E : Mode) : Free.Spec MemOp MemOp.Resp View
  | .read a, Q, v =>
    (Readable a 4 ∨ E.stop) ∧
      ∀ x < 2 ^ 32, ((∀ i < 4, v.Stable E (a + i)) → x = v.mem.word a) → Q x v
  | .write a x, Q, v =>
    (E.strict → v.mem.word a % 2 = 0) ∧
      ((¬ E.cfg.Writable a 4 ∧ E.stop) ∨ v.Owns a 4 ∧ Q () { v with mem := v.mem.setWord a x })
  | .readByte a, Q, v =>
    (Readable a 1 ∨ E.stop) ∧ ∀ x, (v.Stable E a → x = v.mem a) → Q x v
  | .writeByte a b, Q, v =>
    (¬ E.cfg.Writable a 1 ∧ E.stop) ∨ v.Owns a 1 ∧ Q () { v with mem := v.mem.setByte a b }
  | .writeBytes a b n, Q, v =>
    (¬ E.cfg.Writable a n ∧ E.stop) ∨ v.Owns a n ∧ Q () { v with mem := v.mem.fill a b n }
  | .copy src dst n, Q, v =>
    (¬ E.cfg.Writable dst n ∧ E.stop) ∨ (Readable src n ∨ E.stop) ∧ v.Owns dst n ∧
      ∀ c : Nat → UInt8, (∀ i < n, v.Stable E (src + i) → c i = v.mem (src + i)) →
        Q () { v with mem := v.mem.setBytes dst n c }
  | .alloc, Q, v =>
    (E.oom v.own → Q 0 v) ∧
      ∀ f, E.cfg.IsFrame f → f ∉ v.own → ∀ m',
        (∀ x, (E.shared = false ∨ pageOf x ≠ f) → m' x = v.mem x) →
        Q f { own := insert f v.own, mem := m' }
  | .dealloc f, Q, v => f ∈ v.own ∧ Q () { v with own := v.own.erase f }
  | .panic _, _, _ => E.stop

theorem memSpec_mono (E : Mode) : Free.Spec.Mono (memSpec E) := by
  intro o Q Q' hQ v h
  cases o with
  | read a => exact ⟨h.1, fun x hx hs => hQ _ _ (h.2 x hx hs)⟩
  | readByte a => exact ⟨h.1, fun x hx => hQ _ _ (h.2 x hx)⟩
  | copy src dst n =>
    exact h.imp_right fun h => ⟨h.1, h.2.1, fun c hc => hQ _ _ (h.2.2 c hc)⟩
  | alloc =>
    exact ⟨fun ho => hQ _ _ (h.1 ho), fun f hf hn m' hm => hQ _ _ (h.2 f hf hn m' hm)⟩
  | panic _ => exact h
  | write a x => exact ⟨h.1, h.2.imp_right fun h => ⟨h.1, hQ _ _ h.2⟩⟩
  | writeByte a b => exact h.imp_right fun h => ⟨h.1, hQ _ _ h.2⟩
  | writeBytes a b n => exact h.imp_right fun h => ⟨h.1, hQ _ _ h.2⟩
  | dealloc f => exact ⟨h.1, hQ _ _ h.2⟩

namespace M

variable {E : Mode} {α β : Type} {v : View}

abbrev wp (E : Mode) (p : M α) (Q : α → View → Prop) (v : View) : Prop := Free.wp (memSpec E) p Q v

theorem wp_bind (p : M α) (f : α → M β) (Q : β → View → Prop) (v : View) :
    wp E (p >>= f) Q v ↔ wp E p (fun a => wp E (f a) Q) v := by
  unfold wp; rw [Free.wp_bind]

theorem wp_conseq {p : M α} {Q Q' : α → View → Prop} (hp : wp E p Q v)
    (hQ : ∀ a v, Q a v → Q' a v) : wp E p Q' v :=
  Free.wp_mono (memSpec_mono E) hQ v hp

theorem wp_pure (a : α) (Q : α → View → Prop) : wp E (pure a) Q v ↔ Q a v := Iff.rfl

/-! ## The rules of the operations -/

theorem wp_read {a : Nat} {Q : Nat → View → Prop} (hr : Readable a 4)
    (hs : ∀ i < 4, v.Stable E (a + i)) (h : Q (v.mem.word a) v) : wp E (read a) Q v :=
  ⟨.inl hr, fun x _ hx => by rw [hx hs]; exact h⟩

theorem wp_write {a x : Nat} {Q : Unit → View → Prop} (hs : E.strict → v.mem.word a % 2 = 0)
    (ho : v.Owns a 4) (h : Q () { v with mem := v.mem.setWord a x }) : wp E (write a x) Q v :=
  ⟨hs, .inr ⟨ho, h⟩⟩

theorem wp_writeByte {a : Nat} {b : UInt8} {Q : Unit → View → Prop} (ho : v.Owns a 1)
    (h : Q () { v with mem := v.mem.setByte a b }) : wp E (writeByte a b) Q v := .inr ⟨ho, h⟩

theorem wp_writeBytes {a n : Nat} {b : UInt8} {Q : Unit → View → Prop} (ho : v.Owns a n)
    (h : Q () { v with mem := v.mem.fill a b n }) : wp E (writeBytes a b n) Q v := .inr ⟨ho, h⟩

/-- A write through a null pointer faults. -/
theorem wp_writeBytes_null {n : Nat} {b : UInt8} {Q : Unit → View → Prop} (h : E.stop) :
    wp E (writeBytes 0 b n) Q v := by
  refine .inl ⟨fun hw => ?_, h⟩
  have h1 := E.cfg.etext_start
  have h2 := hw.1
  unfold KERNEL_START at h1
  omega

theorem wp_copy {src dst n : Nat} {Q : Unit → View → Prop} (hr : Readable src n ∨ E.stop)
    (ho : v.Owns dst n) (h : ∀ c : Nat → UInt8, (∀ i < n, v.Stable E (src + i) → c i = v.mem (src + i)) →
      Q () { v with mem := v.mem.setBytes dst n c }) :
    wp E (copyNonoverlapping src dst n) Q v := .inr ⟨hr, ho, h⟩

theorem wp_alloc {Q : Nat → View → Prop} (h0 : E.oom v.own → Q 0 v)
    (h : ∀ f, E.cfg.IsFrame f → f ∉ v.own → ∀ m',
      (∀ x, (E.shared = false ∨ pageOf x ≠ f) → m' x = v.mem x) →
      Q f { own := insert f v.own, mem := m' }) : wp E alloc Q v := ⟨h0, h⟩

theorem wp_dealloc {f : Nat} {Q : Unit → View → Prop} (hf : f ∈ v.own)
    (h : Q () { v with own := v.own.erase f }) : wp E (dealloc f) Q v := ⟨hf, h⟩

theorem wp_panic {msg : String} {Q : α → View → Prop} (h : E.stop) : wp E (panic msg) Q v := h

theorem wp_add {a b : Nat} {Q : Nat → View → Prop} (hlt : a + b < USIZE) (h : Q (a + b) v) :
    wp E (add a b) Q v := by
  unfold add
  rw [if_pos hlt]
  exact h

/-- A checked addition that may overflow only where a panic is allowed. -/
theorem wp_add_or {a b : Nat} {Q : Nat → View → Prop} (hs : USIZE ≤ a + b → E.stop)
    (h : a + b < USIZE → Q (a + b) v) : wp E (add a b) Q v := by
  by_cases hlt : a + b < USIZE
  · exact wp_add hlt (h hlt)
  · unfold add
    rw [if_neg hlt]
    exact wp_panic (hs (by omega))

theorem wp_sub {a b : Nat} {Q : Nat → View → Prop} (hle : b ≤ a) (h : Q (a - b) v) :
    wp E (sub a b) Q v := by
  unfold sub
  rw [if_pos hle]
  exact h

theorem wp_unwrap_some {a : α} {Q : α → View → Prop} (h : Q a v) : wp E (unwrap (some a)) Q v := h

theorem wp_unwrap_none {Q : α → View → Prop} (h : E.stop) : wp E (unwrap none) Q v := h

theorem wp_unwrapOk {r : Except Unit Unit} {Q : Unit → View → Prop} (hok : r = .ok () → Q () v)
    (herr : r = .error () → E.stop) : wp E (unwrapOk r) Q v := by
  cases r with
  | ok a => exact hok rfl
  | error a => exact herr rfl

/-- A frame, or the panic of an allocator that has none. -/
theorem wp_allocate_unwrap {Q : Nat → View → Prop} (h0 : E.oom v.own → E.stop)
    (h : ∀ f, E.cfg.IsFrame f → f ∉ v.own → ∀ m',
      (∀ x, (E.shared = false ∨ pageOf x ≠ f) → m' x = v.mem x) →
      Q f { own := insert f v.own, mem := m' }) :
    wp E (allocate >>= unwrap) Q v := by
  unfold allocate
  rw [wp_bind, wp_bind]
  refine wp_alloc (fun ho => ?_) fun f hf hfo m' hm' => ?_
  · exact h0 ho
  · have hb := hf.bound
    rw [wp_pure, if_neg (by omega)]
    exact h f hf hfo m' hm'

end M

/-! ## Soundness for a run alone -/

/-- The logic's view of physical memory when nothing else runs: `total` is every frame that the
party owns or the allocator holds free; outside these memory is as it was in `m₀`. -/
structure View.Of (c : Cfg) (total : Finset Nat) (m₀ : Bytes) (v : View) (s : Phys) : Prop where
  mem : v.mem = s.mem
  same : ∀ a, pageOf a ∉ total → s.mem a = m₀ a
  nodup : s.free.Nodup
  disj : ∀ f ∈ v.own, f ∉ s.free
  cover : ∀ f, f ∈ total ↔ f ∈ v.own ∨ f ∈ s.free
  frame : ∀ f ∈ total, c.IsFrame f

/-- At boot nobody owns a frame. -/
theorem View.Of.start {c : Cfg} {σ : Phys} (hn : σ.free.Nodup) (hf : ∀ f ∈ σ.free, c.IsFrame f) :
    View.Of c σ.free.toFinset σ.mem ⟨∅, σ.mem⟩ σ where
  mem := rfl
  same _ _ := rfl
  nodup := hn
  disj f hf' := by cases hf'
  cover f := by simp
  frame f hf' := hf f (List.mem_toFinset.1 hf')

/-- Every frame is owned or free. -/
theorem View.Of.card {c : Cfg} {total : Finset Nat} {m₀ : Bytes} {v : View} {s : Phys}
    (h : v.Of c total m₀ s) : total.card = v.own.card + s.free.length := by
  have he : total = v.own ∪ s.free.toFinset := Finset.ext fun f => by
    rw [h.cover, Finset.mem_union, List.mem_toFinset]
  rw [he, Finset.card_union_of_disjoint (Finset.disjoint_left.2 fun f hf hl =>
    h.disj f hf (List.mem_toFinset.1 hl)), List.toFinset_card_of_nodup h.nodup]

/-- Bytes in other pages lie outside a range in one page. -/
theorem View.Owns.out {v : View} {a n b : Nat} (h : v.Owns a n) (hb : pageOf b ≠ pageOf a) :
    b < a ∨ a + n ≤ b := by
  have h1 := h.2
  unfold pageOf at hb
  rw [PAGESIZE_eq] at *
  omega

theorem View.Owns.page {v : View} {a n i : Nat} (h : v.Owns a n) (hi : i < n) :
    pageOf (a + i) = pageOf a := by
  have h1 := h.2
  unfold pageOf
  rw [PAGESIZE_eq] at *
  omega

namespace View.Of

variable {c : Cfg} {total : Finset Nat} {m₀ : Bytes} {v : View} {s : Phys}

theorem writable (h : v.Of c total m₀ s) {a n : Nat} (ho : v.Owns a n) : c.Writable a n :=
  (h.frame _ ((h.cover _).2 (.inl ho.1))).writable rfl ho.2

/-- A change within an owned range. -/
theorem setMem (h : v.Of c total m₀ s) {a n : Nat} (ho : v.Owns a n) {m m' : Bytes} (hm : m = m')
    (hs : ∀ b, b < a ∨ a + n ≤ b → m' b = s.mem b) :
    ({ v with mem := m } : View).Of c total m₀ { s with mem := m' } := by
  refine ⟨hm, fun b hb => ?_, h.nodup, h.disj, h.cover, h.frame⟩
  exact (hs b (ho.out fun he => hb (he ▸ (h.cover _).2 (.inl ho.1)))).trans (h.same b hb)

theorem clock (h : v.Of c total m₀ s) (n : Nat) : v.Of c total m₀ { s with clock := n } :=
  ⟨h.mem, h.same, h.nodup, h.disj, h.cover, h.frame⟩

theorem take (h : v.Of c total m₀ s) {f : Nat} (hf : f ∈ s.free) (n : Nat) :
    ({ own := insert f v.own, mem := v.mem } : View).Of c total m₀
      { s with free := s.free.erase f, clock := n } := by
  refine ⟨h.mem, h.same, h.nodup.erase f, fun g hg hg' => ?_, fun g => ?_, h.frame⟩
  · rw [h.nodup.mem_erase_iff] at hg'
    rcases Finset.mem_insert.1 hg with rfl | hg
    · exact hg'.1 rfl
    · exact h.disj g hg hg'.2
  · rw [h.cover, Finset.mem_insert, h.nodup.mem_erase_iff]
    by_cases hgf : g = f
    · subst hgf; simp [hf]
    · simp [hgf]

theorem give (h : v.Of c total m₀ s) {f : Nat} (hf : f ∈ v.own) :
    ({ v with own := v.own.erase f } : View).Of c total m₀ (s.dealloc f) := by
  refine ⟨h.mem, h.same, List.nodup_cons.2 ⟨h.disj f hf, h.nodup⟩, fun g hg hg' => ?_, fun g => ?_,
    h.frame⟩
  · rw [Finset.mem_erase] at hg
    rcases List.mem_cons.1 hg' with rfl | hg'
    · exact hg.1 rfl
    · exact h.disj g hg.2 hg'
  · show _ ↔ _ ∨ g ∈ f :: s.free
    rw [h.cover, Finset.mem_erase, List.mem_cons]
    by_cases hgf : g = f
    · subst hgf; simp [hf]
    · simp [hgf]

end View.Of

/-- The allocator returns null only where the mode allows it. -/
def Mode.Oom (E : Mode) (total : Finset Nat) : Prop :=
  ∀ (v : View) (s : Phys) (m₀ : Bytes), v.Of E.cfg total m₀ s → (s.alloc E.cfg).1 = 0 → E.oom v.own

section
variable {E : Mode} {total : Finset Nat} {m₀ : Bytes}

theorem memSpec_sound (hE : E.shared = false) (ho : E.Oom total) (o : MemOp)
    (Q : o.Resp → View → Prop) (v : View) (s : Phys) (hR : v.Of E.cfg total m₀ s)
    (h : memSpec E o Q v) :
    Free.Meets (fun r s' => ∃ v', v'.Of E.cfg total m₀ s' ∧ Q r v') E.stop (Phys.exec E.cfg o s) := by
  have hst : ∀ a, v.Stable E a := fun a => .inl hE
  cases o with
  | read a =>
    simp only [Phys.exec]
    split
    · refine ⟨v, hR, h.2 _ (Bytes.word_lt _ _) fun _ => by rw [hR.mem]⟩
    · rename_i hr
      exact h.1.resolve_left hr
  | write a x =>
    simp only [Phys.exec]
    rcases h.2 with h | h
    · rw [if_neg h.1]
      exact h.2
    · rw [if_pos (hR.writable h.1)]
      exact ⟨_, hR.setMem h.1 (by rw [hR.mem]) fun b hb => Bytes.setWord_ne hb, h.2⟩
  | readByte a =>
    simp only [Phys.exec]
    split
    · refine ⟨v, hR, h.2 _ fun _ => by rw [hR.mem]⟩
    · rename_i hr
      exact h.1.resolve_left hr
  | writeByte a b =>
    simp only [Phys.exec]
    rcases h with h | h
    · rw [if_neg h.1]
      exact h.2
    · rw [if_pos (hR.writable h.1)]
      exact ⟨_, hR.setMem h.1 (by rw [hR.mem]) fun b hb => Bytes.setByte_ne (by omega), h.2⟩
  | writeBytes a b n =>
    simp only [Phys.exec]
    rcases h with h | h
    · rw [if_neg h.1]
      exact h.2
    · rw [if_pos (hR.writable h.1)]
      exact ⟨_, hR.setMem h.1 (by rw [hR.mem]) fun b hb => Bytes.fill_ne hb, h.2⟩
  | copy src dst n =>
    simp only [Phys.exec]
    rcases h with h | h
    · rw [if_neg fun hr => h.1 hr.2]
      exact h.2
    · split
      · refine ⟨_, hR.setMem h.2.1 ?_ fun b hb => ?_,
          h.2.2 (fun i => v.mem (src + i)) fun _ _ _ => rfl⟩
        · rw [hR.mem]; rfl
        · exact Bytes.setBytes_ne hb
      · rename_i hr
        exact h.1.resolve_left fun hr' => hr ⟨hr', hR.writable h.2.1⟩
  | alloc =>
    have hnull : (s.alloc E.cfg).1 = 0 → E.oom v.own := ho v s m₀ hR
    simp only [Phys.exec]
    unfold Phys.alloc at hnull ⊢
    split
    · rename_i f hb
      simp only [hb] at hnull
      split
      · rename_i hf
        exact ⟨_, hR.take hf _, h.2 f (hR.frame f ((hR.cover f).2 (.inr hf)))
          (fun hv => hR.disj f hv hf) _ fun _ _ => rfl⟩
      · rename_i hf
        rw [if_neg hf] at hnull
        exact ⟨v, hR.clock _, h.1 (hnull rfl)⟩
    · rename_i hb
      simp only [hb] at hnull
      exact ⟨v, hR.clock _, h.1 (hnull trivial)⟩
  | dealloc f =>
    simp only [Phys.exec]
    have hf := (hR.frame f ((hR.cover f).2 (.inl h.1))).bound
    rw [if_neg (by omega)]
    exact ⟨_, hR.give h.1, h.2⟩
  | panic msg => exact h

/-- **Soundness** of the logic for memory code that runs alone. -/
theorem M.run_wp {α : Type} (hE : E.shared = false) (ho : E.Oom total) {p : M α}
    {Q : α → View → Prop} {v : View} {s : Phys} (hR : v.Of E.cfg total m₀ s) (h : M.wp E p Q v) :
    Free.Meets (fun a s' => ∃ v', v'.Of E.cfg total m₀ s' ∧ Q a v') E.stop (p.run E.cfg s) :=
  Free.wp_run (fun o Q v s => memSpec_sound hE ho o Q v s) hR h

/-- Memory code's operations and how they end. -/
abbrev M.Ends {α : Type} (c : Cfg) (p : M α) (s : Phys) (tr : List (MemOp × Phys)) (a : α)
    (s' : Phys) : Prop :=
  Free.Ends (fun o s r s' => Phys.exec c o s = .ok (r, s')) p s tr a s'

/-- Every byte that the operation writes lies in a frame of `F`. -/
def MemOp.WritesIn (F : Nat → Prop) : MemOp → Prop
  | .write a _ => ∀ i < 4, F (pageOf (a + i))
  | .writeByte a _ => F (pageOf a)
  | .writeBytes a _ n => ∀ i < n, F (pageOf (a + i))
  | .copy _ dst n => ∀ i < n, F (pageOf (dst + i))
  | _ => True

/-- Code that may not panic runs to its end, and writes to frames it owns only. -/
theorem M.wp_total {α : Type} (hE : E.shared = false) (hstop : ¬ E.stop) (ho : E.Oom total)
    {p : M α} {Q : α → View → Prop} {v : View} {s : Phys} (hR : v.Of E.cfg total m₀ s)
    (h : M.wp E p Q v) : ∃ tr a s' v', M.Ends E.cfg p s tr a s' ∧ v'.Of E.cfg total m₀ s' ∧ Q a v' ∧
      ∀ x ∈ tr, x.1.WritesIn fun f => f ∈ total ∧ f ∉ x.2.free := by
  have hsound : ∀ (o : MemOp) (Q : o.Resp → View → Prop) v s, v.Of E.cfg total m₀ s →
      memSpec E o Q v → (o.WritesIn fun f => f ∈ total ∧ f ∉ s.free) ∧
        ∃ r s', Phys.exec E.cfg o s = .ok (r, s') ∧ ∃ v', v'.Of E.cfg total m₀ s' ∧ Q r v' := by
    intro o Q v s hv hq
    refine ⟨?_, ?_⟩
    rotate_left
    · have hm := memSpec_sound hE ho o Q v s hv hq
      cases hx : Phys.exec E.cfg o s with
      | error e =>
        rw [hx] at hm
        exact (hstop hm).elim
      | ok q =>
        rw [hx] at hm
        exact ⟨q.1, q.2, rfl, hm⟩
    have hown : ∀ {a n}, v.Owns a n → ∀ i < n, pageOf (a + i) ∈ total ∧ pageOf (a + i) ∉ s.free := by
      intro a n ha i hi
      rw [ha.page hi]
      exact ⟨(hv.cover _).2 (.inl ha.1), hv.disj _ ha.1⟩
    cases o with
    | write a x => exact hown (hq.2.resolve_left fun h => hstop h.2).1
    | writeByte a b => exact hown (hq.resolve_left fun h => hstop h.2).1 0 Nat.zero_lt_one
    | writeBytes a b n => exact hown (hq.resolve_left fun h => hstop h.2).1
    | copy src dst n => exact hown (hq.resolve_left fun h => hstop h.2).2.1
    | _ => trivial
  obtain ⟨tr, a, s', he, hw, v', hR', hq⟩ := Free.wp_total hsound hR h
  exact ⟨tr, a, s', v', he, hR', hq, hw⟩

/-- A word write that does not overwrite a valid table entry. -/
def MemOp.Fresh (s : Phys) : MemOp → Prop
  | .write a _ => s.mem.word a % 2 = 0
  | _ => True

theorem M.ends_wp {α : Type} (hE : E.shared = false) (ho : E.Oom total) {p : M α}
    {Q : α → View → Prop} {v : View} {s s' : Phys} {tr : List (MemOp × Phys)} {a : α}
    (hR : v.Of E.cfg total m₀ s) (h : M.wp E p Q v) (he : M.Ends E.cfg p s tr a s') :
    (∀ x ∈ tr, E.strict → x.1.Fresh x.2) ∧ ∃ v', v'.Of E.cfg total m₀ s' ∧ Q a v' := by
  refine Free.wp_ends (P := fun o s => E.strict → o.Fresh s) (fun o Q v s hv hq => ⟨fun hst => ?_,
    fun r s₁ hr => ?_⟩) hR h he
  · cases o with
    | write a x =>
      have := hq.1 hst
      rwa [hv.mem] at this
    | _ => trivial
  · have hm := memSpec_sound hE ho o Q v s hv hq
    rwa [hr] at hm

end

end BareMetal
