import BareMetal.Kernel.Proof.Alone

/-!
# Kernel code that always ends

`K.Always c P p Q s`: with nothing else running, `p` goes on from `s` to its end, whatever the time
and whatever answers an operation that the model leaves open; it does not panic, fault, or wait for
a lock. `P` holds of each memory operation it does, `Q` at its end, and `wait` gets a status address
within a page. Memory code in the kernel ends when it does on memory alone (`always_lift`).
-/

namespace BareMetal

open Lib

/-- A status address lies within a page. -/
def Event.Fits : Event → Prop
  | .wait _ addr => AddrOk addr
  | _ => True

/-- `P` holds of the operation if it is one on memory. -/
def KOp.OnMem (P : MemOp → Phys → Prop) : KOp → Sys → Prop
  | .mem o, s => P o s.phys
  | .note e, _ => e.Fits
  | _, _ => True

/-- An operation that answers whatever the time, and to any open answer. -/
def alwaysSpec (c : Cfg) (P : MemOp → Phys → Prop) : Free.Spec KOp KOp.Resp Sys := fun o Q s =>
  o.OnMem P s ∧ ∀ t n, ∃ r s', o.exec c t n s = .ok (r, s') ∧ Q r s'

theorem alwaysSpec_mono (c : Cfg) (P : MemOp → Phys → Prop) : Free.Spec.Mono (alwaysSpec c P) := by
  intro o Q Q' hQ s h
  refine ⟨h.1, fun t n => ?_⟩
  obtain ⟨r, s', hx, hq⟩ := h.2 t n
  exact ⟨r, s', hx, hQ r s' hq⟩

namespace K

abbrev Always {α : Type} (c : Cfg) (P : MemOp → Phys → Prop) (p : K α) (Q : α → Sys → Prop)
    (s : Sys) : Prop := Free.wp (alwaysSpec c P) p Q s

variable {c : Cfg} {P : MemOp → Phys → Prop} {α β : Type} {s : Sys}

theorem always_bind {p : K α} {f : α → K β} {Q : β → Sys → Prop}
    (h : Always c P p (fun a => Always c P (f a) Q) s) : Always c P (p >>= f) Q s := by
  unfold Always
  rwa [Free.wp_bind]

theorem Always.mono {p : K α} {Q Q' : α → Sys → Prop} (h : Always c P p Q s)
    (hQ : ∀ a s, Q a s → Q' a s) : Always c P p Q' s := Free.wp_mono (alwaysSpec_mono c P) hQ s h

theorem Always.ops {P' : MemOp → Phys → Prop} {p : K α} {Q : α → Sys → Prop} (h : Always c P p Q s)
    (hP : ∀ o x, P o x → P' o x) : Always c P' p Q s := by
  induction p generalizing s with
  | ret a => exact h
  | op o k ih =>
    refine ⟨?_, fun t n => ?_⟩
    · cases o with
      | mem o => exact hP o s.phys h.1
      | note e => exact h.1
      | _ => trivial
    · obtain ⟨r, s₁, hx, hk⟩ := h.2 t n
      exact ⟨r, s₁, hx, ih r hk⟩

/-- Code that always ends has a run. -/
theorem Always.ends {p : K α} {Q : α → Sys → Prop} (h : Always c P p Q s) :
    ∃ tr a s', Ends c p s tr a s' ∧ Q a s' := by
  induction p generalizing s with
  | ret a => exact ⟨[], a, s, .ret a s, h⟩
  | op o k ih =>
    obtain ⟨r, s₁, hx, hk⟩ := h.2 0 0
    obtain ⟨tr, a, s', he, hq⟩ := ih r hk
    exact ⟨_, a, s', .op ⟨0, 0, hx⟩ he, hq⟩

/-- What every run that ends does. -/
theorem Always.and_ends {p : K α} {Q R : α → Sys → Prop} (h : Always c P p Q s)
    (hR : ∀ tr a s', Ends c p s tr a s' → R a s') : Always c P p (fun a s' => Q a s' ∧ R a s') s := by
  induction p generalizing s with
  | ret a => exact ⟨h, hR _ _ _ (.ret a s)⟩
  | op o k ih =>
    refine ⟨h.1, fun t n => ?_⟩
    obtain ⟨r, s₁, hx, hk⟩ := h.2 t n
    exact ⟨r, s₁, hx, ih r hk fun tr a s' he => hR _ a s' (.op ⟨t, n, hx⟩ he)⟩

/-! ## Rules -/

theorem always_proc {i : Nat} {Q : Process → Sys → Prop} (h : Q (s.data.process_table i) s) :
    Always c P (proc i) Q s := ⟨trivial, fun _ _ => ⟨s.data, s, rfl, h⟩⟩

theorem always_setProc {i : Nat} {f : Process → Process} {Q : Unit → Sys → Prop}
    (h : Q () { s with data := s.data.updProc i f }) : Always c P (setProc i f) Q s :=
  ⟨trivial, fun _ _ => ⟨(), _, rfl, h⟩⟩

theorem always_get {Q : Data → Sys → Prop} (h : Q s.data s) : Always c P get Q s :=
  ⟨trivial, fun _ _ => ⟨s.data, s, rfl, h⟩⟩

theorem always_set {f : Data → Data} {Q : Unit → Sys → Prop}
    (h : Q () { s with data := f s.data }) : Always c P (set f) Q s :=
  ⟨trivial, fun _ _ => ⟨(), _, rfl, h⟩⟩

theorem always_note {e : Event} {Q : Unit → Sys → Prop} (he : e.Fits)
    (h : Q () { s with data := { s.data with log := e :: s.data.log } }) :
    Always c P (note e) Q s := ⟨he, fun _ _ => ⟨(), _, rfl, h⟩⟩

theorem always_add {loc : String} {a b : Nat} {Q : Nat → Sys → Prop} (hlt : a + b < USIZE)
    (h : Q (a + b) s) : Always c P (add loc a b) Q s := by
  unfold add
  rw [if_pos hlt]
  exact h

theorem always_lock {l : LockId} {Q : Unit → Sys → Prop} (hl : l ∉ s.locks.held)
    (h : ∀ s', s'.phys = s.phys → s'.data = s.data → s'.locks.held = insert l s.locks.held →
      1 ≤ s'.locks.interrupt_off_stack → Q () s') : Always c P (lock l) Q s := by
  refine ⟨trivial, fun _ _ => ⟨s.locks, s, rfl, trivial, fun _ _ => ?_⟩⟩
  exact ⟨(), _, if_neg hl, h _ rfl rfl rfl (Nat.le_add_left ..)⟩

theorem always_release {l : LockId} {Q : Unit → Sys → Prop} (hs : 1 ≤ s.locks.interrupt_off_stack)
    (h : ∀ s', s'.phys = s.phys → s'.data = s.data → s'.locks.held = s.locks.held.erase l →
      Q () s') : Always c P (release l) Q s :=
  ⟨trivial, fun _ _ => ⟨(), _, if_neg (by omega), h _ rfl rfl rfl⟩⟩

/-- A lock that is taken, with what is known of those that are held. -/
theorem always_take {l : LockId} {b : Bool} {H : Finset LockId} {Q : Unit → Sys → Prop}
    (hb : s.locks.Holds b H) (hl : l ∉ H)
    (h : ∀ s', s'.phys = s.phys → s'.data = s.data → s'.locks.Holds b (insert l H) → Q () s') :
    Always c P (lock l) Q s := by
  refine ⟨trivial, fun _ _ => ⟨s.locks, s, rfl, trivial, fun _ _ => ?_⟩⟩
  exact ⟨(), _, if_neg (hb.held ▸ hl), h _ rfl rfl (hb.take hl)⟩

theorem always_give {l : LockId} {b : Bool} {H : Finset LockId} {Q : Unit → Sys → Prop}
    (hb : s.locks.Holds b H) (hl : l ∈ H)
    (h : ∀ s', s'.phys = s.phys → s'.data = s.data → s'.locks.Holds b (H.erase l) → Q () s') :
    Always c P (release l) Q s := by
  have hpos : ¬ s.locks.interrupt_off_stack < 1 := by
    rw [hb.stack]
    have := Finset.card_pos.2 ⟨l, hl⟩
    omega
  exact ⟨trivial, fun _ _ => ⟨(), _, if_neg hpos, h _ rfl rfl (hb.give hl)⟩⟩

/-- Taking a lock and giving it back. -/
theorem always_locked {l : LockId} {p : K α} {f : α → K β} {Q : β → Sys → Prop}
    (hl : l ∉ s.locks.held)
    (h : ∀ s', s'.phys = s.phys → s'.data = s.data → Always c P p (fun a s₁ =>
      s₁.locks = s'.locks ∧ ∀ s₂, s₂.phys = s₁.phys → s₂.data = s₁.data →
        s₂.locks.held = s.locks.held → Always c P (f a) Q s₂) s') :
    Always c P (lock l >>= fun _ => p >>= fun a => release l >>= fun _ => f a) Q s := by
  refine always_bind (always_lock hl fun s' hp hd hh hs => ?_)
  refine always_bind ((h s' hp hd).mono fun a s₁ h₁ => ?_)
  obtain ⟨hk, h₁⟩ := h₁
  refine always_bind (always_release (by rw [hk]; exact hs) fun s₂ hp₂ hd₂ hh₂ => ?_)
  refine h₁ s₂ hp₂ hd₂ ?_
  rw [hh₂, hk, hh, Finset.erase_insert hl]

theorem always_heapUseLoop {Q : Unit → Sys → Prop} (n : Nat) : ∀ {s : Sys},
    LockId.heap ∉ s.locks.held →
    (∀ s', s'.phys = s.phys → s'.data = s.data → s'.locks.held = s.locks.held → Q () s') →
    Always c P (heapUseLoop n) Q s := by
  induction n with
  | zero => exact fun _ h => h _ rfl rfl rfl
  | succ n ih =>
    intro s hh h
    show Always c P (lock .heap >>= fun _ => (pure () : K Unit) >>= fun _ => release .heap >>=
      fun _ => heapUseLoop n) Q s
    refine always_locked hh fun s' hp hd => ⟨rfl, fun s₂ hp₂ hd₂ hh₂ => ?_⟩
    refine ih (by rwa [hh₂]) fun s₃ hp₃ hd₃ hh₃ => h s₃ ?_ ?_ (hh₃.trans hh₂)
    · rw [hp₃, hp₂, hp]
    · rw [hd₃, hd₂, hd]

theorem always_heapUse {Q : Unit → Sys → Prop} (hh : LockId.heap ∉ s.locks.held)
    (h : ∀ s', s'.phys = s.phys → s'.data = s.data → s'.locks.held = s.locks.held → Q () s') :
    Always c P heapUse Q s :=
  ⟨trivial, fun _ n => ⟨n, s, rfl, always_heapUseLoop n hh h⟩⟩

theorem always_mem {o : MemOp} {r : o.Resp} {phys : Phys} {Q : o.Resp → Sys → Prop}
    (hx : Phys.exec c o s.phys = .ok (r, phys)) (hP : P o s.phys) (h : Q r { s with phys }) :
    Always c P (mem o) Q s :=
  ⟨hP, fun _ _ => ⟨r, _, by simp only [KOp.exec, Sys.execMem, hx], h⟩⟩

theorem always_memOp {o : MemOp} {r : o.Resp} {phys : Phys} {Q : o.Resp → Sys → Prop}
    (hh : LockId.heap ∉ s.locks.held) (hx : Phys.exec c o s.phys = .ok (r, phys)) (hP : P o s.phys)
    (h : ∀ s', s'.phys = phys → s'.data = s.data → s'.locks.held = s.locks.held → Q r s') :
    Always c P (memOp o) Q s := by
  have hmem : ∀ {o : MemOp} {r : o.Resp} {Q : o.Resp → Sys → Prop},
      Phys.exec c o s.phys = .ok (r, phys) → P o s.phys →
      (∀ s', s'.phys = phys → s'.data = s.data → s'.locks.held = s.locks.held → Q r s') →
      Always c P (mem o) Q s := fun hx hP h => always_mem hx hP (h _ rfl rfl rfl)
  cases o with
  | alloc =>
    refine always_locked (f := fun r => pure r) hh fun s' hp hd => ?_
    rw [← hp] at hx hP
    exact always_mem hx hP ⟨rfl, fun s₂ hp₂ hd₂ hh₂ => h s₂ hp₂ (hd₂.trans hd) hh₂⟩
  | dealloc f =>
    simp only [memOp]
    by_cases hf : f = 0
    · simp only [Phys.exec, if_pos hf] at hx
      cases hx
    · rw [if_neg hf]
      refine always_locked (f := fun r => pure r) hh fun s' hp hd => ?_
      rw [← hp] at hx hP
      exact always_mem hx hP ⟨rfl, fun s₂ hp₂ hd₂ hh₂ => h s₂ hp₂ (hd₂.trans hd) hh₂⟩
  | read a => exact hmem hx hP h
  | write a x => exact hmem hx hP h
  | readByte a => exact hmem hx hP h
  | writeByte a b => exact hmem hx hP h
  | writeBytes a b n => exact hmem hx hP h
  | copy src dst n => exact hmem hx hP h
  | panic msg => exact hmem hx hP h

/-- **Memory code in the kernel** ends when it does on memory alone. -/
theorem always_lift {p : M α} {a : α} {phys : Phys} {tr : List (MemOp × Phys)} {Q : α → Sys → Prop}
    (he : M.Ends c p s.phys tr a phys) (hP : ∀ x ∈ tr, P x.1 x.2) (hh : LockId.heap ∉ s.locks.held)
    (h : ∀ s', s'.phys = phys → s'.data = s.data → s'.locks.held = s.locks.held → Q a s') :
    Always c P (lift p) Q s := by
  induction p generalizing s tr with
  | ret b =>
    obtain ⟨rfl, rfl, -⟩ := he.ret_inv
    exact h s rfl rfl rfl
  | op o k ih =>
    cases he with
    | op hx hk =>
      refine always_bind (always_memOp hh hx (hP _ List.mem_cons_self) fun s₁ hp hd hl => ?_)
      subst hp
      refine ih _ hk (fun x hx => hP x (List.mem_cons_of_mem _ hx)) (by rwa [hl])
        fun s' hp' hd' hl' => h s' hp' (hd'.trans hd) (hl'.trans hl)

end K

end BareMetal
