import Mathlib.Data.List.Nodup

/-!
# Traces

A trace lists events, the last one first. `Trace F l`: each event of `l` is one that `F` admits after
the events before it. What `F` does not admit twice comes once (`Trace.once`).
-/

namespace Lib

/-- A trace of events that `F` admits. -/
inductive Trace {α : Type} (F : List α → α → Prop) : List α → Prop
  | nil : Trace F []
  | cons {l e} (h : Trace F l) (hf : F l e) : Trace F (e :: l)

namespace Trace

variable {α β γ : Type} {F : List α → α → Prop} {l l₁ l₂ : List α} {e : α}

/-- What came first is a trace. -/
theorem of_append (h : Trace F (l₂ ++ l₁)) : Trace F l₁ := by
  induction l₂ with
  | nil => exact h
  | cons e l₂ ih =>
    cases h with
    | cons h _ => exact ih h

/-- Every event was admitted when it came. -/
theorem admitted (h : Trace F (l₂ ++ e :: l₁)) : F l₁ e := by
  cases h.of_append with
  | cons _ hf => exact hf

/-- A key that is not admitted a second time, with any value, comes once. -/
theorem once {f : α → Option (β × γ)} (h : Trace F l)
    (hk : ∀ l e b x, F l e → f e = some (b, x) → ∀ y, (b, y) ∉ l.filterMap f) :
    ((l.filterMap f).map Prod.fst).Nodup := by
  induction h with
  | nil => exact List.nodup_nil
  | @cons l e h hf ih =>
    cases he : f e with
    | none =>
      rw [List.filterMap_cons_none he]
      exact ih
    | some b =>
      rw [List.filterMap_cons_some he, List.map_cons, List.nodup_cons]
      refine ⟨fun hm => ?_, ih⟩
      obtain ⟨⟨-, y⟩, hy, rfl⟩ := List.mem_map.1 hm
      exact hk l e b.1 b.2 hf he y hy

end Trace

/-- The head of a filtered list, and what was left out before it. -/
theorem head?_filter_eq_some {α : Type} {p : α → Bool} {l : List α} {e : α}
    (h : (l.filter p).head? = some e) :
    ∃ l₁ l₀, l = l₁ ++ e :: l₀ ∧ l₁.filter p = [] := by
  rw [List.head?_filter] at h
  obtain ⟨-, l₁, l₀, rfl, hl⟩ := List.find?_eq_some_iff_append.1 h
  refine ⟨l₁, l₀, rfl, List.filter_eq_nil_iff.2 fun a ha hp => ?_⟩
  simpa [hp] using hl a ha

end Lib
