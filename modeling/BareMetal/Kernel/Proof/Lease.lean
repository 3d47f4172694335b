import BareMetal.Kernel.Proof.Mem

/-!
# Memory code among other parties

Memory code works on frames of some parties (`Lease.parties`) while other parties own frames too.
Of the frames of the parties it works for, it leaves those in `Lease.base` alone; a frame it
allocates goes to the party that is its `home`. `Lease.Has` relates the code's view to the ghost
state; an operation that the logic of owned frames allows keeps the relation, and what the other
parties own (`Lease.Has.op`).
-/

namespace BareMetal

open Lib

/-! ## What an operation did -/

namespace Phys

variable {c : Cfg} {s s' : Phys} {a n : Nat}

theorem of_ite {α : Type} {p : Prop} [Decidable p] {x y : α} {e : String}
    (h : (if p then Except.ok x else .error e) = .ok y) : p ∧ y = x := by
  split at h
  · next hp =>
    cases h
    exact ⟨hp, rfl⟩
  · cases h

theorem exec_read {r : Nat} (h : exec c (.read a) s = .ok (r, s')) : r = s.mem.word a ∧ s' = s := by
  obtain ⟨-, he⟩ := of_ite h
  cases he
  exact ⟨rfl, rfl⟩

theorem exec_readByte {r : UInt8} (h : exec c (.readByte a) s = .ok (r, s')) :
    r = s.mem a ∧ s' = s := by
  obtain ⟨-, he⟩ := of_ite h
  cases he
  exact ⟨rfl, rfl⟩

theorem exec_write {x : Nat} {r : Unit} (h : exec c (.write a x) s = .ok (r, s')) :
    c.Writable a 4 ∧ s' = { s with mem := s.mem.setWord a x } := by
  obtain ⟨hw, he⟩ := of_ite h
  cases he
  exact ⟨hw, rfl⟩

theorem exec_writeByte {x : UInt8} {r : Unit} (h : exec c (.writeByte a x) s = .ok (r, s')) :
    c.Writable a 1 ∧ s' = { s with mem := s.mem.setByte a x } := by
  obtain ⟨hw, he⟩ := of_ite h
  cases he
  exact ⟨hw, rfl⟩

theorem exec_writeBytes {x : UInt8} {r : Unit} (h : exec c (.writeBytes a x n) s = .ok (r, s')) :
    c.Writable a n ∧ s' = { s with mem := s.mem.fill a x n } := by
  obtain ⟨hw, he⟩ := of_ite h
  cases he
  exact ⟨hw, rfl⟩

theorem exec_copy {dst : Nat} {r : Unit} (h : exec c (.copy a dst n) s = .ok (r, s')) :
    c.Writable dst n ∧ s' = { s with mem := s.mem.copy a dst n } := by
  obtain ⟨hw, he⟩ := of_ite h
  cases he
  exact ⟨hw.2, rfl⟩

theorem exec_dealloc {f : Nat} {r : Unit} (h : exec c (.dealloc f) s = .ok (r, s')) :
    f ≠ 0 ∧ s' = s.dealloc f := by
  change (if f = 0 then _ else _) = _ at h
  split at h
  · cases h
  · next hf =>
    cases h
    exact ⟨hf, rfl⟩

/-- The allocator answers null, or a frame that was free. -/
theorem exec_alloc {r : Nat} (h : exec c .alloc s = .ok (r, s')) :
    (r = 0 ∧ ∃ n, s' = { s with clock := n }) ∨
      r ∈ s.free ∧ ∃ n, s' = { s with free := s.free.erase r, clock := n } := by
  have he : s.alloc c = (r, s') := Except.ok.inj h
  unfold Phys.alloc at he
  split at he
  · split at he
    · next hf =>
      cases he
      exact .inr ⟨hf, _, rfl⟩
    · cases he
      exact .inl ⟨rfl, _, rfl⟩
  · cases he
    exact .inl ⟨rfl, _, rfl⟩

end Phys

/-! ## Leases -/

structure Lease where
  parties : Party → Prop
  base : Party → Finset Nat
  home : Nat → Party
  /-- What memory held at the start. -/
  start : Bytes
  home_mem : ∀ f, parties (home f)

/-- The frames of party `p` when the code works on the frames `o`. -/
def Lease.own (l : Lease) (o : Finset Nat) (p : Party) : Finset Nat :=
  l.base p ∪ o.filter fun f => l.home f = p

structure Lease.Has (l : Lease) (v : View) (own : Party → Finset Nat) (m : Bytes) : Prop where
  own : ∀ p, l.parties p → own p = l.own v.own p
  base : ∀ p, l.parties p → ∀ f ∈ l.base p, f ∉ v.own
  mem : ∀ a, pageOf a ∈ v.own → v.mem a = m a
  kept : ∀ p, l.parties p → ∀ a, pageOf a ∈ l.base p → m a = l.start a

/-- What memory code did: it has the view `v'`, and the other parties have what they had. -/
structure Lease.Did (l : Lease) (c : Cfg) (shared : Bool) (own : Party → Finset Nat) (m : Bytes) (v' : View)
    (own' : Party → Finset Nat) (m' : Bytes) : Prop where
  has : l.Has v' own' m'
  whole : shared = false → v'.mem = m'
  rest : ∀ p, ¬ l.parties p → SameAt own own' m m' p
  image : c.SameImage m m'

theorem Lease.Did.trans {l : Lease} {c : Cfg} {shared : Bool} {own₁ own₂ own₃ : Party → Finset Nat}
    {m₁ m₂ m₃ : Bytes} {v₂ v₃ : View} (h₁ : l.Did c shared own₁ m₁ v₂ own₂ m₂)
    (h₂ : l.Did c shared own₂ m₂ v₃ own₃ m₃) : l.Did c shared own₁ m₁ v₃ own₃ m₃ :=
  ⟨h₂.has, h₂.whole, fun p hp => (h₁.rest p hp).trans (h₂.rest p hp), h₁.image.trans h₂.image⟩

namespace Lease

variable {l : Lease} {o : Finset Nat} {f : Nat} {p : Party}

theorem mem_own : f ∈ l.own o p ↔ f ∈ l.base p ∨ f ∈ o ∧ l.home f = p := by
  simp only [own, Finset.mem_union, Finset.mem_filter]

theorem own_insert (hf : l.home f = p) : l.own (insert f o) p = insert f (l.own o p) := by
  ext g
  simp only [mem_own, Finset.mem_insert]
  constructor
  · rintro (h | ⟨rfl | h, hp⟩)
    · exact .inr (.inl h)
    · exact .inl rfl
    · exact .inr (.inr ⟨h, hp⟩)
  · rintro (rfl | h | h)
    · exact .inr ⟨.inl rfl, hf⟩
    · exact .inl h
    · exact .inr ⟨.inr h.1, h.2⟩

namespace Has

variable {v : View} {own : Party → Finset Nat} {m : Bytes} {s : Phys} {c : Cfg}

/-- The code's frames belong to its parties. -/
theorem mem_home (h : l.Has v own m) (hf : f ∈ v.own) : f ∈ own (l.home f) := by
  rw [h.own _ (l.home_mem f), mem_own]
  exact .inr ⟨hf, rfl⟩

/-- The parties of the lease have what they had. -/
theorem same (h : l.Has v own m) {own' : Party → Finset Nat} {m' : Bytes}
    (hs : ∀ p, l.parties p → SameAt own own' m m' p) : l.Has v own' m' where
  own p hp := (hs p hp).1.trans (h.own p hp)
  base := h.base
  mem a ha := (h.mem a ha).trans ((hs _ (l.home_mem _)).2 a (h.mem_home ha)).symm
  kept p hp a ha := by
    refine ((hs p hp).2 a ?_).trans (h.kept p hp a ha)
    rw [h.own p hp, mem_own]
    exact .inl ha

/-- A page of a frame of the code is nobody else's, nor one that it leaves alone. -/
theorem not_mem_rest (h : l.Has v own m) (how : Owned c own s.free) (hf : f ∈ v.own)
    (hp : ¬ l.parties p) : f ∉ own p := fun hp' =>
  hp (how.disj _ _ f (h.mem_home hf) hp' ▸ l.home_mem f)

/-- The code writes to a frame of its own. -/
theorem put (h : l.Has v own s.mem) (how : Owned c own s.free) {a n : Nat} (ho : v.Owns a n)
    {w w' : Bytes} (hw : ∀ b, b < a ∨ a + n ≤ b → w b = v.mem b)
    (hw' : ∀ b, b < a ∨ a + n ≤ b → w' b = s.mem b)
    (hin : ∀ b, a ≤ b → b < a + n → w b = w' b) {shared : Bool}
    (hs : shared = false → v.mem = s.mem) :
    l.Did c shared own s.mem { v with mem := w } own w' := by
  have hout : ∀ b, pageOf b ≠ pageOf a → b < a ∨ a + n ≤ b := fun b => ho.out
  have heq : ∀ b, (a ≤ b ∧ b < a + n) ∨ (b < a ∨ a + n ≤ b) := fun b => by omega
  refine ⟨⟨h.own, h.base, fun b hb => ?_, fun p hp b hb => ?_⟩, fun hs' => funext fun b => ?_,
    fun p hp => ⟨rfl, fun b hb => ?_⟩, fun b hb => ?_⟩
  · rcases heq b with h1 | h1
    · exact hin b h1.1 h1.2
    · exact (hw b h1).trans ((h.mem b hb).trans (hw' b h1).symm)
  · refine (hw' b (hout b fun he => ?_)).trans (h.kept p hp b hb)
    exact h.base p hp _ hb (he ▸ ho.1)
  · rcases heq b with h1 | h1
    · exact hin b h1.1 h1.2
    · exact (hw b h1).trans ((congrFun (hs hs') b).trans (hw' b h1).symm)
  · exact hw' b (hout b fun he => h.not_mem_rest how ho.1 hp (he ▸ hb))
  · exact hw' b (hout b fun he => hb (he ▸ how.frame _ _ (h.mem_home ho.1)))

/-- Nothing happens. -/
theorem did (h : l.Has v own m) {shared : Bool} (hs : shared = false → v.mem = m) :
    l.Did c shared own m v own m :=
  ⟨h, hs, fun _ _ => .refl .., .refl _ _⟩

/-- A frame is allocated. -/
theorem take (h : l.Has v own s.mem) (how : Owned c own s.free) (hf : f ∈ s.free)
    {shared : Bool} (hs : shared = false → v.mem = s.mem) :
    Owned c (fun p => if p = l.home f then insert f (own p) else own p) (s.free.erase f) ∧
      l.Did c shared own s.mem ⟨insert f v.own, fun a => if pageOf a = f then s.mem a else v.mem a⟩
        (fun p => if p = l.home f then insert f (own p) else own p) s.mem := by
  have hno : ∀ p, f ∉ own p := fun p hp => how.not_free p f hp hf
  have hnv : f ∉ v.own := fun hv => hno _ (h.mem_home hv)
  refine ⟨?_, ⟨fun p hp => ?_, fun p hp g hg => ?_, fun a ha => ?_, h.kept⟩,
    fun hs' => funext fun a => ?_,
    fun p hp => ⟨if_neg fun he : p = l.home f => hp (he ▸ l.home_mem f), fun a _ => rfl⟩, .refl _ _⟩
  · have hmem : ∀ p, ∀ g ∈ (if p = l.home f then insert f (own p) else own p),
        g = f ∧ p = l.home f ∨ g ∈ own p := fun p g hg => by
      split at hg
      · next he => exact (Finset.mem_insert.1 hg).imp_left fun hg => ⟨hg, he⟩
      · exact .inr hg
    refine ⟨how.nodup.erase f, fun g hg => how.free_frame g (List.mem_of_mem_erase hg), fun p g hg => ?_,
      fun p g hg hg' => ?_, fun p q g hp hq => ?_⟩
    · rcases hmem p g hg with ⟨rfl, -⟩ | hg
      · exact how.free_frame g hf
      · exact how.frame p g hg
    · rw [how.nodup.mem_erase_iff] at hg'
      rcases hmem p g hg with ⟨he, -⟩ | hg
      · exact hg'.1 he
      · exact how.not_free p g hg hg'.2
    · rcases hmem p g hp with ⟨rfl, hp'⟩ | hp' <;> rcases hmem q g hq with ⟨he, hq'⟩ | hq'
      · exact hp'.trans hq'.symm
      · exact (hno q hq').elim
      · exact (hno p (he ▸ hp')).elim
      · exact how.disj p q g hp' hq'
  · by_cases he : p = l.home f
    · rw [if_pos he, own_insert he.symm, ← h.own p hp]
    · rw [if_neg he, h.own p hp]
      ext g
      simp only [mem_own, Finset.mem_insert]
      refine or_congr_right ⟨fun hg => ⟨.inr hg.1, hg.2⟩, ?_⟩
      rintro ⟨rfl | hg, hgp⟩
      · exact (he hgp.symm).elim
      · exact ⟨hg, hgp⟩
  · rw [Finset.mem_insert, not_or]
    refine ⟨fun he => hno p ?_, h.base p hp g hg⟩
    rw [h.own p hp, mem_own, ← he]
    exact .inl hg
  · show (if pageOf a = f then s.mem a else v.mem a) = s.mem a
    split
    · rfl
    · next hne => exact h.mem a ((Finset.mem_insert.1 ha).resolve_left hne)
  · show (if pageOf a = f then s.mem a else v.mem a) = s.mem a
    rw [hs hs', ite_self]

/-- A frame is given back. -/
theorem give (h : l.Has v own s.mem) (how : Owned c own s.free) (hf : f ∈ v.own) {shared : Bool}
    (hs : shared = false → v.mem = s.mem) :
    Owned c (fun p => (own p).erase f) (f :: s.free) ∧
      l.Did c shared own s.mem { v with own := v.own.erase f } (fun p => (own p).erase f) s.mem := by
  have hown := h.mem_home hf
  refine ⟨?_, ⟨fun p hp => ?_, fun p hp g hg hg' => ?_, fun a ha => ?_, h.kept⟩, hs,
    fun p hp => ⟨?_, fun a _ => rfl⟩, .refl _ _⟩
  · refine ⟨List.nodup_cons.2 ⟨how.not_free _ f hown, how.nodup⟩, fun g hg => ?_,
      fun p g hg => how.frame p g (Finset.mem_of_mem_erase hg), fun p g hg hg' => ?_,
      fun p q g hp hq => how.disj p q g (Finset.mem_of_mem_erase hp) (Finset.mem_of_mem_erase hq)⟩
    · rcases List.mem_cons.1 hg with rfl | hg
      · exact how.frame _ g hown
      · exact how.free_frame g hg
    · rcases List.mem_cons.1 hg' with he | hg'
      · exact Finset.ne_of_mem_erase hg he
      · exact how.not_free p g (Finset.mem_of_mem_erase hg) hg'
  · rw [h.own p hp]
    ext g
    simp only [mem_own, Finset.mem_erase]
    constructor
    · rintro ⟨hne, hg | hg⟩
      · exact .inl hg
      · exact .inr ⟨⟨hne, hg.1⟩, hg.2⟩
    · rintro (hg | ⟨⟨hne, hg⟩, hgp⟩)
      · exact ⟨fun he => h.base p hp g hg (he ▸ hf), .inl hg⟩
      · exact ⟨hne, .inr ⟨hg, hgp⟩⟩
  · exact h.base p hp g hg (Finset.mem_of_mem_erase hg')
  · exact h.mem a (Finset.mem_of_mem_erase ha)
  · exact Finset.erase_eq_of_notMem fun hp' => h.not_mem_rest how hf hp hp'

/-- An operation that the logic of owned frames allows. -/
theorem op (h : l.Has v own s.mem) (how : Owned c own s.free) {M : Mode} (hc : M.cfg = c)
    (hs : M.shared = false → v.mem = s.mem) {oper : MemOp} {Q : oper.Resp → View → Prop}
    (ho : M.oom v.own) (hw : memSpec M oper Q v) :
    (∀ f, oper = .dealloc f → f ∉ s.free) ∧ ∀ r s', Phys.exec c oper s = .ok (r, s') →
      ∃ v' own',
      Owned c own' s'.free ∧ l.Did c M.shared own s.mem v' own' s'.mem ∧ Q r v' := by
  subst hc
  have hst : ∀ a, v.Stable M a → v.mem a = s.mem a := fun a ha =>
    ha.elim (fun h0 => congrFun (hs h0) a) (h.mem a)
  cases oper with
  | read a =>
    refine ⟨fun f hf => (by cases hf), fun r s' hx => ?_⟩
    obtain ⟨rfl, rfl⟩ := Phys.exec_read hx
    exact ⟨v, own, how, h.did hs, hw.2 _ (Bytes.word_lt _ _) fun hst' =>
      Bytes.word_congr fun i hi => (hst _ (hst' i hi)).symm⟩
  | readByte a =>
    refine ⟨fun f hf => (by cases hf), fun r s' hx => ?_⟩
    obtain ⟨rfl, rfl⟩ := Phys.exec_readByte hx
    exact ⟨v, own, how, h.did hs, hw.2 _ fun hst' => (hst _ hst').symm⟩
  | write a x =>
    refine ⟨fun f hf => (by cases hf), fun r s' hx => ?_⟩
    obtain ⟨hwr, rfl⟩ := Phys.exec_write hx
    obtain ⟨hown, hq⟩ := hw.2.resolve_left fun hn => hn.1 hwr
    refine ⟨_, own, how, h.put how hown (fun b => Bytes.setWord_ne) (fun b => Bytes.setWord_ne)
      (fun b h1 h2 => ?_) hs, hq⟩
    obtain ⟨i, rfl⟩ := Nat.exists_eq_add_of_le h1
    rw [Bytes.setWord_byte (by omega), Bytes.setWord_byte (by omega)]
  | writeByte a x =>
    refine ⟨fun f hf => (by cases hf), fun r s' hx => ?_⟩
    obtain ⟨hwr, rfl⟩ := Phys.exec_writeByte hx
    obtain ⟨hown, hq⟩ := hw.resolve_left fun hn => hn.1 hwr
    refine ⟨_, own, how, h.put how hown (fun b hb => Bytes.setByte_ne (by omega))
      (fun b hb => Bytes.setByte_ne (by omega)) (fun b h1 h2 => ?_) hs, hq⟩
    obtain rfl : b = a := by omega
    rw [Bytes.setByte_self, Bytes.setByte_self]
  | writeBytes a x n =>
    refine ⟨fun f hf => (by cases hf), fun r s' hx => ?_⟩
    obtain ⟨hwr, rfl⟩ := Phys.exec_writeBytes hx
    obtain ⟨hown, hq⟩ := hw.resolve_left fun hn => hn.1 hwr
    refine ⟨_, own, how, h.put how hown (fun b => Bytes.fill_ne) (fun b => Bytes.fill_ne)
      (fun b h1 h2 => ?_) hs, hq⟩
    rw [Bytes.fill_in ⟨h1, h2⟩, Bytes.fill_in ⟨h1, h2⟩]
  | copy src dst n =>
    refine ⟨fun f hf => (by cases hf), fun r s' hx => ?_⟩
    obtain ⟨hwr, rfl⟩ := Phys.exec_copy hx
    obtain ⟨-, hown, hq⟩ := hw.resolve_left fun hn => hn.1 hwr
    have hd : l.Did M.cfg M.shared own s.mem
        { v with mem := v.mem.setBytes dst n fun i => s.mem (src + i) } own
        (s.mem.copy src dst n) := by
      refine h.put how hown (fun b => Bytes.setBytes_ne) (fun b => Bytes.setBytes_ne)
        (fun b h1 h2 => ?_) hs
      obtain ⟨i, rfl⟩ := Nat.exists_eq_add_of_le h1
      have hi : i < n := by omega
      show v.mem.setBytes dst n _ (dst + i) = s.mem.setBytes dst n (fun i => s.mem (src + i)) (dst + i)
      rw [Bytes.setBytes_at hi, Bytes.setBytes_at hi]
    exact ⟨_, own, how, hd, hq (fun i => s.mem (src + i)) fun i hi hst' => (hst _ hst').symm⟩
  | alloc =>
    refine ⟨fun f hf => (by cases hf), fun r s' hx => ?_⟩
    rcases Phys.exec_alloc hx with ⟨rfl, n, rfl⟩ | ⟨hf, n, rfl⟩
    · exact ⟨v, own, how, h.did hs, hw.1 ho⟩
    · obtain ⟨how', hd⟩ := h.take how hf hs
      refine ⟨_, _, how', hd, hw.2 r (how.free_frame r hf) (fun hv => ?_) _ fun x hx => ?_⟩
      · exact how.not_free _ r (h.mem_home hv) hf
      · split
        · next hp => exact (congrFun (hs (hx.resolve_right fun hn => hn hp)) x).symm
        · rfl
  | dealloc f =>
    obtain ⟨hf, hq⟩ := hw
    refine ⟨fun g hg => ?_, fun r s' hx => ?_⟩
    · obtain rfl := MemOp.dealloc.inj hg
      exact how.not_free _ _ (h.mem_home hf)
    · obtain ⟨-, rfl⟩ := Phys.exec_dealloc hx
      obtain ⟨how', hd⟩ := h.give how hf hs
      exact ⟨_, _, how', hd, hq⟩
  | panic msg =>
    exact ⟨fun f hf => (by cases hf), fun r => r.elim⟩

end Has

/-- The lease of one party. -/
def one (x : Party) (base : Finset Nat) (start : Bytes) : Lease :=
  ⟨fun p => p = x, fun _ => base, fun _ => x, start, fun _ => rfl⟩

theorem one_has {x : Party} {base : Finset Nat} {start : Bytes} {v : View}
    {own : Party → Finset Nat} {m : Bytes} : (one x base start).Has v own m ↔
      own x = base ∪ v.own ∧ (∀ f ∈ base, f ∉ v.own) ∧
      (∀ a, pageOf a ∈ v.own → v.mem a = m a) ∧ ∀ a, pageOf a ∈ base → m a = start a := by
  have hown : (one x base start).own v.own x = base ∪ v.own := by
    ext f
    rw [mem_own, Finset.mem_union]
    exact or_congr_right (and_iff_left rfl)
  refine ⟨fun h => ⟨(h.own x rfl).trans hown, h.base x rfl, h.mem, h.kept x rfl⟩, fun h => ?_⟩
  refine ⟨fun p hp => ?_, fun p _ => h.2.1, h.2.2.1, fun p _ => h.2.2.2⟩
  obtain rfl : p = x := hp
  exact h.1.trans hown.symm

/-- Code that has no frame yet. -/
theorem one_start {x : Party} {own : Party → Finset Nat} {m : Bytes} :
    (one x (own x) m).Has ⟨∅, m⟩ own m :=
  one_has.2 ⟨(Finset.union_empty _).symm, fun _ _ => Finset.notMem_empty _, fun _ _ => rfl,
    fun _ _ => rfl⟩

/-- Code that works on the frames `o` of the party. -/
theorem one_split {x : Party} {own : Party → Finset Nat} {m : Bytes} {o : Finset Nat}
    (ho : o ⊆ own x) : (one x (own x \ o) m).Has ⟨o, m⟩ own m :=
  one_has.2 ⟨(Finset.sdiff_union_of_subset ho).symm, fun _ hf => (Finset.mem_sdiff.1 hf).2,
    fun _ _ => rfl, fun _ _ => rfl⟩

/-- Code reads the frames `A` of party `x`; what it takes is for `y`. -/
def pair (x y : Party) (A : Finset Nat) (own : Party → Finset Nat) (m : Bytes) : Lease where
  parties p := p = x ∨ p = y
  base p := own p \ A
  home f := if f ∈ A then x else y
  start := m
  home_mem f := by
    split
    · exact .inl rfl
    · exact .inr rfl

section
variable {x y : Party} {A : Finset Nat} {own own' : Party → Finset Nat} {m m' : Bytes}

theorem pair_own (hxy : x ≠ y) (hA : A ⊆ own x) (hy : ∀ f ∈ own y, f ∉ A) {o : Finset Nat}
    (ho : A ⊆ o) : (pair x y A own m).own o x = own x ∧
      (pair x y A own m).own o y = own y ∪ (o \ A) := by
  constructor <;> ext f <;> rw [mem_own]
  · by_cases hf : f ∈ A
    · simp [pair, hf, ho hf, hA hf]
    · simp [pair, hf, hxy.symm]
  · by_cases hf : f ∈ A
    · have hno : f ∉ own y := fun h => hy f h hf
      simp [pair, hf, hxy, hno]
    · simp [pair, hf]

theorem pair_has (hxy : x ≠ y) (hA : A ⊆ own x) (hy : ∀ f ∈ own y, f ∉ A) :
    (pair x y A own m).Has ⟨A, m⟩ own m := by
  obtain ⟨h1, h2⟩ := pair_own (m := m) hxy hA hy (Finset.Subset.refl A)
  rw [Finset.sdiff_self, Finset.union_empty] at h2
  refine ⟨fun p hp => ?_, fun p _ f hf => (Finset.mem_sdiff.1 hf).2, fun _ _ => rfl,
    fun _ _ _ _ => rfl⟩
  rcases hp with rfl | rfl
  · exact h1.symm
  · exact h2.symm

/-- What code did that left the frames `A` as they were. -/
theorem pair_did {v : View} (hxy : x ≠ y) (hA : A ⊆ own x) (hy : ∀ f ∈ own y, f ∉ A)
    (h : (pair x y A own m).Did c false own m v own' m') (hv : A ⊆ v.own)
    (hm : ∀ a, pageOf a ∈ A → v.mem a = m a) :
    (∀ p, p ≠ y → SameAt own own' m m' p) ∧ own' y = own y ∪ (v.own \ A) ∧
      (∀ f ∈ own y, f ∉ v.own \ A) ∧ ∀ a, pageOf a ∈ own y → m' a = m a := by
  obtain ⟨h1, h2⟩ := pair_own (m := m) hxy hA hy hv
  have hbase : ∀ f, f ∈ own y → f ∈ (pair x y A own m).base y := fun f hf =>
    Finset.mem_sdiff.2 ⟨hf, hy f hf⟩
  refine ⟨fun p hp => ?_, (h.has.own y (.inr rfl)).trans h2, fun f hf hf' => ?_,
    fun a ha => h.has.kept y (.inr rfl) a (hbase _ ha)⟩
  · by_cases hpx : p = x
    · subst hpx
      refine ⟨(h.has.own p (.inl rfl)).trans h1, fun a ha => ?_⟩
      by_cases haA : pageOf a ∈ A
      · rw [← h.whole rfl]
        exact hm a haA
      · exact h.has.kept p (.inl rfl) a (Finset.mem_sdiff.2 ⟨ha, haA⟩)
    · exact h.rest p fun hor => hor.elim hpx hp
  · exact h.has.base y (.inr rfl) f (hbase f hf) (Finset.mem_sdiff.1 hf').1

end

end Lease

end BareMetal
