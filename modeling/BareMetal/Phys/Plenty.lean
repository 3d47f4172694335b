import BareMetal.Phys.Logic

/-!
# An allocator with frames to spare

`Cfg.demo` is a kernel image with a buddy allocator that hands out the first free frame. Such an
allocator returns null only to a party that owns every frame (`plenty_oom`), so code that needs
fewer frames than there are runs to its end.
-/

namespace BareMetal

open Lib

/-- A party that may not panic, and gets null from the allocator only when it owns `n` frames. -/
def plenty (c : Cfg) (n : Nat) : Mode := ⟨c, false, fun o => n ≤ o.card, False, False⟩

/-- The buddy allocator finds a frame whenever one is free. -/
def Cfg.Eager (c : Cfg) : Prop := ∀ t l, l ≠ [] → ∃ f ∈ l, c.buddy t l = some f

/-- Such an allocator returns null when every frame is owned, and only then. -/
theorem Cfg.Eager.null_own {c : Cfg} (hc : c.Eager) {total : Finset Nat} {m₀ : Bytes} {v : View}
    {s : Phys} (hv : v.Of c total m₀ s) (h0 : (s.alloc c).1 = 0) : v.own = total := by
  unfold Phys.alloc at h0
  by_cases hl : s.free = []
  · -- nothing is free
    ext f
    rw [hv.cover, hl]
    exact ⟨.inl, fun h => h.resolve_right List.not_mem_nil⟩
  · obtain ⟨f, hf, hb⟩ := hc s.clock s.free hl
    rw [hb] at h0
    simp only [if_pos hf] at h0
    have := (hv.frame f ((hv.cover f).2 (.inr hf))).bound
    omega

theorem plenty_oom {c : Cfg} (hc : c.Eager) (total : Finset Nat) :
    (plenty c total.card).Oom total := fun v _ _ hv h0 => by
  rw [hc.null_own hv h0]
  exact Nat.le_refl _

/-- A party that gets null from the allocator when it owns `n` frames, and only then. -/
def tight (c : Cfg) (n : Nat) (stop : Prop) : Mode := ⟨c, false, fun o => o.card = n, stop, False⟩

theorem tight_oom {c : Cfg} (hc : c.Eager) (total : Finset Nat) (stop : Prop) :
    (tight c total.card stop).Oom total := fun v _ _ hv h0 => by
  rw [hc.null_own hv h0]
  rfl

/-- A small kernel image. -/
def Cfg.demo : Cfg where
  trampoline := 0x80200000
  etext := 0x80201000
  ekernel := 0x8020c000
  usertrap := 0x80200100
  INIT := ⟨0x80202000, 0x800⟩
  PRIME := ⟨0x80203000, 0x800⟩
  buddy := fun _ free => free.head?
  tramp_start := by decide
  tramp_page := by rw [PAGESIZE_eq]
  tramp_end := by
    rw [PAGESIZE_eq]
    decide
  etext_start := by decide
  etext_page := by rw [PAGESIZE_eq]
  etext_end := by decide
  ekernel_page := by rw [PAGESIZE_eq]
  ekernel_end := by decide
  init_in := by decide
  prime_in := by decide

theorem Cfg.demo_linked : Cfg.demo.Linked := by
  unfold Cfg.Linked
  rw [PAGESIZE_eq]
  rfl

theorem Cfg.Eager.of_head {c : Cfg} (hc : ∀ t l, c.buddy t l = l.head?) : c.Eager := by
  intro t l hl
  cases l with
  | nil => exact absurd rfl hl
  | cons f l => exact ⟨f, List.mem_cons_self, hc t (f :: l)⟩

theorem Cfg.demo_eager : Cfg.demo.Eager := .of_head fun _ _ => rfl

/-- With frames to spare, code that may not panic runs to its end. -/
theorem plenty_run {c : Cfg} (hc : c.Eager) {α : Type} {p : M α} {Q : α → View → Prop}
    {total : Finset Nat} {m₀ : Bytes} {v : View} {s : Phys} (hv : v.Of c total m₀ s)
    (hwp : M.wp (plenty c total.card) p Q v) :
    ∃ a s' v', p.run c s = .ok (a, s') ∧ v'.Of c total m₀ s' ∧ Q a v' := by
  have hm : Free.Meets (fun a s => ∃ v', v'.Of c total m₀ s ∧ Q a v') False
      (p.run c s) := M.run_wp rfl (plenty_oom hc _) hv hwp
  cases hr : p.run c s with
  | error e =>
    rw [hr] at hm
    exact hm.elim
  | ok q =>
    rw [hr] at hm
    obtain ⟨v', hof, hq⟩ := hm
    exact ⟨q.1, q.2, v', rfl, hof, hq⟩

/-- Frames for it, no two of them adjacent. -/
@[irreducible] def demoFrames (n : Nat) : List Nat := (List.range n).map fun i => 0x8020c000 + 0x2000 * i

theorem demoFrames_nodup (n : Nat) : (demoFrames n).Nodup := by
  unfold demoFrames
  exact List.nodup_range.map fun i j h => by omega

theorem demoFrames_length (n : Nat) : (demoFrames n).length = n := by
  unfold demoFrames
  rw [List.length_map, List.length_range]

theorem mem_demoFrames {n f : Nat} (h : f ∈ demoFrames n) :
    ∃ i < n, f = 0x8020c000 + 0x2000 * i := by
  unfold demoFrames at h
  obtain ⟨i, hi, he⟩ := List.mem_map.1 h
  exact ⟨i, List.mem_range.1 hi, he.symm⟩

theorem demoFrames_frame {n f : Nat} (hn : n ≤ 7000) (h : f ∈ demoFrames n) :
    Cfg.demo.IsFrame f := by
  obtain ⟨i, hi, rfl⟩ := mem_demoFrames h
  have hk : Cfg.demo.ekernel = 0x8020c000 := rfl
  have hr : RAMEND = 0x84000000 := rfl
  refine ⟨?_, ?_, ?_⟩
  · rw [PAGESIZE_eq]; omega
  · rw [hk]; omega
  · rw [PAGESIZE_eq, hr]; omega

end BareMetal
