import Mathlib.Control.Lawful

/-!
# Programs over a signature of operations

`Free Op Resp α`: a program that performs operations `o : Op`, each answered by a value of
`Resp o`, and returns an `α`. A program is run by a handler (`Free.run`) or reasoned about by a
predicate transformer for each operation (`Free.wp`); `Free.wp_run` connects the two: a
transformer that is sound for every operation is sound for every program.
-/

namespace Lib

universe u v w

/-- A program over operations `Op` with responses `Resp`. -/
inductive Free (Op : Type u) (Resp : Op → Type) (α : Type) : Type u
  | ret (a : α)
  | op (o : Op) (k : Resp o → Free Op Resp α)

namespace Free

variable {Op : Type u} {Resp : Op → Type} {α β γ : Type}

def bind : Free Op Resp α → (α → Free Op Resp β) → Free Op Resp β
  | .ret a, f => f a
  | .op o k, f => .op o fun r => (k r).bind f

instance : Monad (Free Op Resp) where
  pure := .ret
  bind := bind

/-- The program that performs `o` and returns the response. -/
def perform (o : Op) : Free Op Resp (Resp o) := .op o .ret

/-- `for i in 0..n`. -/
def forRange (f : Nat → Free Op Resp Unit) : Nat → Free Op Resp Unit
  | 0 => .ret ()
  | n + 1 => bind (forRange f n) fun _ => f n

@[simp] theorem pure_eq (a : α) : (pure a : Free Op Resp α) = .ret a := rfl

@[simp] theorem ret_bind (a : α) (f : α → Free Op Resp β) : (.ret a >>= f) = f a := rfl

@[simp] theorem op_bind (o : Op) (k : Resp o → Free Op Resp α) (f : α → Free Op Resp β) :
    (.op o k >>= f) = .op o fun r => k r >>= f := rfl

@[simp] theorem perform_bind (o : Op) (f : Resp o → Free Op Resp β) :
    (perform o >>= f) = .op o f := rfl

theorem bind_ret (p : Free Op Resp α) : p >>= .ret = p := by
  induction p with
  | ret a => rfl
  | op o k ih => simp only [op_bind, ih]

theorem bind_assoc (p : Free Op Resp α) (f : α → Free Op Resp β) (g : β → Free Op Resp γ) :
    p >>= f >>= g = p >>= fun a => f a >>= g := by
  induction p with
  | ret a => rfl
  | op o k ih => simp only [op_bind, ih]

instance : LawfulMonad (Free Op Resp) :=
  LawfulMonad.mk' _ (fun p => bind_ret p) (fun _ _ => rfl) bind_assoc

/-! ## Running -/

/-- A handler answers an operation and moves the state, or stops the program with an error. -/
abbrev Handler (Op : Type u) (Resp : Op → Type) (σ : Type v) (ε : Type w) :=
  (o : Op) → σ → Except ε (Resp o × σ)

section
variable {σ : Type v} {ε : Type w} (h : Handler Op Resp σ ε)

def run : Free Op Resp α → σ → Except ε (α × σ)
  | .ret a, s => .ok (a, s)
  | .op o k, s =>
    match h o s with
    | .ok (r, s') => (k r).run s'
    | .error e => .error e

@[simp] theorem run_ret (a : α) (s : σ) : (ret a : Free Op Resp α).run h s = .ok (a, s) := rfl

theorem run_op (o : Op) (k : Resp o → Free Op Resp α) (s : σ) :
    (op o k).run h s = match h o s with
      | .ok (r, s') => (k r).run h s'
      | .error e => .error e := by
  rw [run]

theorem run_bind (p : Free Op Resp α) (f : α → Free Op Resp β) (s : σ) :
    (p >>= f).run h s = match p.run h s with
      | .ok (a, s') => (f a).run h s'
      | .error e => .error e := by
  induction p generalizing s with
  | ret a => rfl
  | op o k ih =>
    simp only [op_bind, run_op]
    cases h o s with
    | error e => rfl
    | ok q => exact ih q.1 q.2

end

/-! ## Traces -/

section
variable {σ : Type v} {ε : Type w} {κ : Type u} (h : Handler Op Resp σ ε) (log : Op → Option κ)

/-- What `log` notes of the operations a run attempts, in order. -/
def trace : Free Op Resp α → σ → List κ
  | .ret _, _ => []
  | .op o k, s =>
    (log o).toList ++ match h o s with
      | .ok (r, s') => (k r).trace s'
      | .error _ => []

@[simp] theorem trace_ret (a : α) (s : σ) : (ret a : Free Op Resp α).trace h log s = [] := rfl

theorem trace_op (o : Op) (k : Resp o → Free Op Resp α) (s : σ) :
    (op o k).trace h log s = (log o).toList ++ match h o s with
      | .ok (r, s') => (k r).trace h log s'
      | .error _ => [] := by
  rw [trace]

theorem trace_bind (p : Free Op Resp α) (f : α → Free Op Resp β) (s : σ) :
    (p >>= f).trace h log s = p.trace h log s ++ match p.run h s with
      | .ok (a, s') => (f a).trace h log s'
      | .error _ => [] := by
  induction p generalizing s with
  | ret a => rfl
  | op o k ih =>
    simp only [op_bind, trace_op, run_op, List.append_assoc]
    cases h o s with
    | error e => rfl
    | ok q => exact congrArg _ (ih q.1 q.2)

end

/-! ## Runs with open answers -/

section
variable {σ : Type v} (step : (o : Op) → σ → Resp o → σ → Prop)

/-- `p` can run from one state to another with a result; the list is what it did, in order. -/
inductive Ends : Free Op Resp α → σ → List (Op × σ) → α → σ → Prop
  | ret (a : α) (s : σ) : Ends (.ret a) s [] a s
  | op {o : Op} {k : Resp o → Free Op Resp α} {s : σ} {r : Resp o} {s₁ : σ}
    {tr : List (Op × σ)} {a : α} {s' : σ} (h : step o s r s₁) (hk : Ends (k r) s₁ tr a s') :
    Ends (.op o k) s ((o, s) :: tr) a s'

variable {step}

theorem Ends.bind {p : Free Op Resp α} {f : α → Free Op Resp β} {tr : List (Op × σ)} {b : β}
    {s s' : σ} (h : Ends step (p >>= f) s tr b s') : ∃ a s₁ tr₁ tr₂,
      Ends step p s tr₁ a s₁ ∧ Ends step (f a) s₁ tr₂ b s' ∧ tr = tr₁ ++ tr₂ := by
  induction p generalizing s tr with
  | ret a => exact ⟨a, s, [], tr, .ret a s, h, rfl⟩
  | op o k ih =>
    rw [op_bind] at h
    cases h with
    | op h hk =>
      obtain ⟨a, s₁, tr₁, tr₂, h1, h2, rfl⟩ := ih _ hk
      exact ⟨a, s₁, _, tr₂, .op h h1, h2, rfl⟩

/-- One run after another. -/
theorem Ends.seq {p : Free Op Resp α} {f : α → Free Op Resp β} {a : α} {b : β} {s s₁ s' : σ}
    {tr₁ tr₂ : List (Op × σ)} (h₁ : Ends step p s tr₁ a s₁) (h₂ : Ends step (f a) s₁ tr₂ b s') :
    Ends step (p >>= f) s (tr₁ ++ tr₂) b s' := by
  induction h₁ with
  | ret a s => exact h₂
  | op h _ ih => exact .op h (ih h₂)

/-- A run with nothing done after it. -/
theorem Ends.last {p : Free Op Resp α} {f : α → Free Op Resp β} {a : α} {b : β} {s s₁ s' : σ}
    {tr : List (Op × σ)} (h₁ : Ends step p s tr a s₁) (h₂ : Ends step (f a) s₁ [] b s') :
    Ends step (p >>= f) s tr b s' := by
  rw [← List.append_nil tr]
  exact h₁.seq h₂

theorem Ends.perform {o : Op} {s s' : σ} {r : Resp o} (h : step o s r s') :
    Ends step (perform o) s [(o, s)] r s' := .op h (.ret r s')

/-- What a handler's run does. -/
theorem run_ends {ε : Type w} {h : Handler Op Resp σ ε} {p : Free Op Resp α} {a : α} {s s' : σ}
    (hr : p.run h s = .ok (a, s')) :
    ∃ tr, Ends (fun o s r s' => h o s = .ok (r, s')) p s tr a s' := by
  induction p generalizing s with
  | ret b =>
    cases hr
    exact ⟨[], .ret _ _⟩
  | op o k ih =>
    rw [run_op] at hr
    cases hh : h o s with
    | error e =>
      rw [hh] at hr
      cases hr
    | ok q =>
      rw [hh] at hr
      obtain ⟨tr, he⟩ := ih q.1 hr
      exact ⟨_, .op hh he⟩

/-- What was done, a handler's run does. -/
theorem Ends.run {ε : Type w} {h : Handler Op Resp σ ε} {p : Free Op Resp α} {a : α} {s s' : σ}
    {tr : List (Op × σ)} (he : Ends (fun o s r s' => h o s = .ok (r, s')) p s tr a s') :
    p.run h s = .ok (a, s') := by
  induction he with
  | ret a s => rfl
  | op hx _ ih =>
    rw [run_op, hx]
    exact ih

/-- The trace of a run lists what it did. -/
theorem Ends.trace {ε : Type w} {κ : Type u} {h : Handler Op Resp σ ε} {log : Op → Option κ}
    {p : Free Op Resp α} {a : α} {s s' : σ} {tr : List (Op × σ)}
    (he : Ends (fun o s r s' => h o s = .ok (r, s')) p s tr a s') :
    p.trace h log s = tr.filterMap fun x => log x.1 := by
  induction he with
  | ret a s => rfl
  | @op o k s r s₁ tr a s' hx _ ih =>
    rw [trace_op, hx, List.filterMap_cons]
    cases log o <;> exact congrArg _ ih

theorem Ends.ret_inv {a b : α} {s s' : σ} {tr : List (Op × σ)}
    (h : Ends step (.ret a : Free Op Resp α) s tr b s') : b = a ∧ s' = s ∧ tr = [] := by
  cases h
  exact ⟨rfl, rfl, rfl⟩

end

/-! ## Which operations a program performs -/

/-- Every operation that `p` can come to satisfies `P`. -/
def Only (P : Op → Prop) : Free Op Resp α → Prop
  | .ret _ => True
  | .op o k => P o ∧ ∀ r, (k r).Only P

section
variable {P : Op → Prop}

theorem only_perform {o : Op} (h : P o) : (perform o : Free Op Resp (Resp o)).Only P :=
  ⟨h, fun _ => trivial⟩

theorem only_bind {p : Free Op Resp α} {f : α → Free Op Resp β} (hp : p.Only P)
    (hf : ∀ a, (f a).Only P) : (p >>= f).Only P := by
  induction p with
  | ret a => exact hf a
  | op o k ih => exact ⟨hp.1, fun r => ih r (hp.2 r)⟩

theorem only_forRange {f : Nat → Free Op Resp Unit} (hf : ∀ i, (f i).Only P) (n : Nat) :
    (forRange f n).Only P := by
  induction n with
  | zero => exact trivial
  | succ n ih => exact only_bind ih fun _ => hf n

theorem Ends.only {σ : Type v} {step : (o : Op) → σ → Resp o → σ → Prop} {p : Free Op Resp α}
    {a : α} {s s' : σ} {tr : List (Op × σ)} (he : Ends step p s tr a s') (hp : p.Only P) :
    ∀ x ∈ tr, P x.1 := by
  induction he with
  | ret a s => exact fun x hx => (List.not_mem_nil hx).elim
  | op hx _ ih =>
    intro x hm
    rcases List.mem_cons.1 hm with rfl | hm
    · exact hp.1
    · exact ih (hp.2 _) x hm

/-- The invariant rule of `for i in 0..n` for runs: `I` is kept by each round, and what a round does
satisfies `P`. -/
theorem Ends.forRange {σ : Type v} {step : (o : Op) → σ → Resp o → σ → Prop}
    {f : Nat → Free Op Resp Unit} {n : Nat} {I : σ → Prop}
    (hf : ∀ i < n, ∀ s, I s → ∃ tr s', Ends step (f i) s tr () s' ∧ I s' ∧ ∀ x ∈ tr, P x.1) {s : σ}
    (h0 : I s) : ∃ tr s', Ends step (forRange f n) s tr () s' ∧ I s' ∧ ∀ x ∈ tr, P x.1 := by
  induction n with
  | zero => exact ⟨[], s, .ret _ _, h0, fun x hx => (List.not_mem_nil hx).elim⟩
  | succ n ih =>
    obtain ⟨tr₁, s₁, h1, hI, hP⟩ := ih fun i hi => hf i (by omega)
    obtain ⟨tr₂, s₂, h2, hI', hP'⟩ := hf n (by omega) s₁ hI
    exact ⟨_, s₂, h1.seq h2, hI', fun x hx => (List.mem_append.1 hx).elim (hP x) (hP' x)⟩

end

/-! ## Predicate transformers -/

/-- What an operation guarantees: from a postcondition on the response and the state after, a
condition on the state before. -/
abbrev Spec (Op : Type u) (Resp : Op → Type) (σ : Type v) :=
  (o : Op) → (Resp o → σ → Prop) → σ → Prop

section
variable {σ : Type v} (Φ : Spec Op Resp σ)

def wp : Free Op Resp α → (α → σ → Prop) → σ → Prop
  | .ret a, Q => Q a
  | .op o k, Q => Φ o fun r => (k r).wp Q

@[simp] theorem wp_ret (a : α) (Q : α → σ → Prop) (s : σ) :
    (ret a : Free Op Resp α).wp Φ Q s = Q a s := rfl

theorem wp_bind (p : Free Op Resp α) (f : α → Free Op Resp β) (Q : β → σ → Prop) :
    (p >>= f).wp Φ Q = p.wp Φ fun a => (f a).wp Φ Q := by
  induction p with
  | ret a => rfl
  | op o k ih => simp only [op_bind, wp, ih]

/-- Transformers that weaken with their postcondition. -/
def Spec.Mono : Prop :=
  ∀ (o : Op) {Q Q' : Resp o → σ → Prop}, (∀ r s, Q r s → Q' r s) → ∀ s, Φ o Q s → Φ o Q' s

variable {Φ}

theorem wp_mono (hΦ : Spec.Mono Φ) {p : Free Op Resp α} {Q Q' : α → σ → Prop}
    (hQ : ∀ a s, Q a s → Q' a s) : ∀ s, p.wp Φ Q s → p.wp Φ Q' s := by
  induction p with
  | ret a => exact hQ a
  | op o k ih => exact hΦ o fun r s => ih r s

/-- The rule of consequence in the form the proofs use it: a specification of `p`, then the
rest of the program from what it ensures. -/
theorem wp_seq (hΦ : Spec.Mono Φ) {p : Free Op Resp α} {f : α → Free Op Resp β}
    {R : α → σ → Prop} {Q : β → σ → Prop} {s : σ} (hp : p.wp Φ R s)
    (hf : ∀ a s, R a s → (f a).wp Φ Q s) : (p >>= f).wp Φ Q s := by
  rw [wp_bind]
  exact wp_mono hΦ hf s hp

/-- The invariant rule of `for i in 0..n`. -/
theorem wp_forRange (hΦ : Spec.Mono Φ) {f : Nat → Free Op Resp Unit} {n : Nat}
    {I : Nat → σ → Prop} (hf : ∀ i < n, ∀ s, I i s → (f i).wp Φ (fun _ => I (i + 1)) s)
    {s : σ} (h0 : I 0 s) : (forRange f n).wp Φ (fun _ => I n) s := by
  induction n with
  | zero => exact h0
  | succ n ih =>
    exact wp_seq hΦ (ih fun i hi => hf i (by omega)) fun _ s hs => hf n (by omega) s hs

-- a loop is reasoned about by its rule, never by unrolling it
attribute [irreducible] forRange

/-- The outcome of a run meets a postcondition, or the run stopped and stopping is allowed. -/
def Meets {ε : Type w} (Q : α → σ → Prop) (stop : Prop) : Except ε (α × σ) → Prop
  | .ok (a, s) => Q a s
  | .error _ => stop

/-- **Soundness**: transformers that are sound for the handler's every answer, up to a relation
`R` between the states of the logic and those of the handler, are sound for every run. -/
theorem wp_run {τ : Type w} {ε : Type w} {h : Handler Op Resp τ ε} {R : σ → τ → Prop}
    {stop : Prop}
    (hs : ∀ (o : Op) (Q : Resp o → σ → Prop) s t, R s t → Φ o Q s →
      Meets (fun r t' => ∃ s', R s' t' ∧ Q r s') stop (h o t))
    {p : Free Op Resp α} {Q : α → σ → Prop} {s : σ} {t : τ} (hR : R s t) (hp : p.wp Φ Q s) :
    Meets (fun a t' => ∃ s', R s' t' ∧ Q a s') stop (p.run h t) := by
  induction p generalizing s t with
  | ret a => exact ⟨s, hR, hp⟩
  | op o k ih =>
    have h1 := hs o _ s t hR hp
    rw [run_op]
    cases hh : h o t with
    | error e => rw [hh] at h1; exact h1
    | ok q =>
      rw [hh] at h1
      obtain ⟨s', hR', hq⟩ := h1
      exact ih q.1 hR' hq

/-- Soundness for runs with open answers: what holds at every operation (`P`), and at the end. -/
theorem wp_ends {τ : Type w} {step : (o : Op) → τ → Resp o → τ → Prop} {R : σ → τ → Prop}
    {P : Op → τ → Prop}
    (hs : ∀ (o : Op) (Q : Resp o → σ → Prop) s t, R s t → Φ o Q s → P o t ∧
      ∀ r t', step o t r t' → ∃ s', R s' t' ∧ Q r s')
    {p : Free Op Resp α} {Q : α → σ → Prop} {s : σ} {t t' : τ} {tr : List (Op × τ)} {a : α}
    (hR : R s t) (hp : p.wp Φ Q s) (he : Ends step p t tr a t') :
    (∀ x ∈ tr, P x.1 x.2) ∧ ∃ s', R s' t' ∧ Q a s' := by
  induction he generalizing s with
  | ret a t => exact ⟨fun x hx => (List.not_mem_nil hx).elim, s, hR, hp⟩
  | @op o k t r t₁ tr a t' h _ ih =>
    obtain ⟨h1, h2⟩ := hs o _ s t hR hp
    obtain ⟨s₁, hR₁, hq⟩ := h2 r t₁ h
    obtain ⟨h3, h4⟩ := ih hR₁ hq
    refine ⟨fun x hx => ?_, h4⟩
    rcases List.mem_cons.1 hx with rfl | hx
    · exact h1
    · exact h3 x hx

/-- Soundness for runs that go on: the run to the end, what holds at every operation, and at the
end. -/
theorem wp_total {τ : Type w} {step : (o : Op) → τ → Resp o → τ → Prop} {R : σ → τ → Prop}
    {P : Op → τ → Prop}
    (hs : ∀ (o : Op) (Q : Resp o → σ → Prop) s t, R s t → Φ o Q s → P o t ∧
      ∃ r t', step o t r t' ∧ ∃ s', R s' t' ∧ Q r s')
    {p : Free Op Resp α} {Q : α → σ → Prop} {s : σ} {t : τ} (hR : R s t) (hp : p.wp Φ Q s) :
    ∃ tr a t', Ends step p t tr a t' ∧ (∀ x ∈ tr, P x.1 x.2) ∧ ∃ s', R s' t' ∧ Q a s' := by
  induction p generalizing s t with
  | ret a => exact ⟨[], a, t, .ret a t, fun x hx => (List.not_mem_nil hx).elim, s, hR, hp⟩
  | op o k ih =>
    obtain ⟨h1, r, t₁, hst, s₁, hR₁, hq⟩ := hs o _ s t hR hp
    obtain ⟨tr, a, t', he, h2, h3⟩ := ih r hR₁ hq
    refine ⟨_, a, t', .op hst he, fun x hx => ?_, h3⟩
    rcases List.mem_cons.1 hx with rfl | hx
    · exact h1
    · exact h2 x hx

end

end Free

end Lib
