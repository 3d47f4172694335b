import BareMetal.Kernel.Proof.Exec
import BareMetal.Kernel.Proof.Wait

/-!
# System calls

`kexec` and the handlers of `write`, `fork` and `exec` (`wp_sysWrite`, `wp_sysFork`, `wp_sysExec`):
they come back with the process where it was, or panic.
-/

namespace BareMetal

open Lib

variable {E : Env} {me : Option Nat} {b : Bool} {S₀ S : St}

/-- The process of slot `i` runs in the kernel, with no lock held. -/
structure Runs (E : Env) (i : Nat) (b : Bool) (S : St) : Prop where
  calm : Calm E (some i) b S S
  plain : Plain i S

theorem Calm.runs {i : Nat} (h : Calm E (some i) b S₀ S) (hp : Plain i S₀) : Runs E i b S :=
  ⟨h.rebase, hp.kept (h.kept i rfl)⟩

theorem Runs.steady {i : Nat} : Steady E (some i) (Runs E i b) where
  umode _ h := h.calm.umode
  prints S h := Calm.steady.prints S h.calm
  settled _ h _ := h.calm.settled
  drift _ _ h hd hl := (h.calm.drift hd hl).runs h.plain
  idles _ _ h hi := (h.calm.idles hi).runs h.plain

/-- A process in `kexec` assigns to its own page table. -/
theorem Data.Assigns.exec {d : Data} {h : History} {i : Nat} {p : Process}
    (hx : d.current = some i ∧ d.Execs i)
    (hs : p.state = (d.process_table i).state) (hq : p.quants = (d.process_table i).quants)
    (hp : p.pid = (d.process_table i).pid) (hs' : p.xstatus = (d.process_table i).xstatus)
    (ht : p.trapframe = (d.process_table i).trapframe)
    (hb : p.unboxing = (d.process_table i).unboxing) : d.Assigns (some i) h i p where
  moves := by rw [hs]; exact d.moves_refl i _
  pick h1 h2 := by
    have := h1.symm.trans (hs.symm.trans h2)
    cases this
  quants := Nat.le_of_eq hq.symm
  counts := .inl hq
  names := .of_pid hp fun h => ⟨hs', hs.trans h⟩
  trapframe _ := ⟨ht, hb⟩
  pagetable _ hn := (hn hx).elim
  made hi hn hl := (hn (by rw [hs] at hl; exact hl.imp_left fun hl => ⟨hi, hl⟩)).elim
  thread hj := (hj rfl).elim
  born hj := (hj rfl).elim

/-- A thread in `kexec` assigns to its page table. -/
theorem Inv.ownPagetable {run : Option Nat} (h : Inv E run S) {i : Nat} {f : Process → Process}
    (hrow : (S.proc i).SameRow (f (S.proc i))) (hx : (S.proc i).SameExit (f (S.proc i)))
    (hq : (f (S.proc i)).quants = (S.proc i).quants)
    (hm : E.track → SlotMem E.cfg (S.own (.slot i)) S.mem (f (S.proc i)) (S.data.Live i)) :
    Inv E run (S.setData (S.data.updProc i f)) := by
  have hlive : ∀ j, (S.data.updProc i f).Live j ↔ S.data.Live j := fun j => by
    unfold Data.Live
    rw [Data.updProc_rel (R := fun p p' => p'.state = p.state) (fun _ => rfl) S.data i hrow.state j]
    exact .rfl
  refine h.assign hrow (h.exits.congr rfl rfl rfl fun j _ =>
    Data.updProc_rel (fun _ => ⟨rfl, rfl, rfl, rfl⟩) _ i hx j) hq fun ht => ?_
  refine (h.mem ht).update (i := i) (.refl ..) (fun _ _ _ => .refl ..) rfl rfl (fun j _ hj => ?_)
    (fun j _ => hlive j) fun _ => ?_
  · rw [Data.updProc_ne _ _ hj]
    exact ⟨rfl, rfl, rfl⟩
  · rw [Data.updProc_self]
    exact (hm ht).grow (hlive i).1 (fun _ => (hlive i).2) (Finset.Subset.refl _) (fun _ _ => rfl)
      ⟨rfl, rfl, rfl⟩

/-- The fields of the trapframe lie in its page. -/
theorem Trapframe.in_page {field : Nat} (h : field + 4 ≤ SIZE) : field + 4 ≤ PAGESIZE := by
  have hs : SIZE = 144 := rfl
  rw [PAGESIZE_eq]
  omega

/-- A slot with two address spaces, after a field of its trapframe was written. -/
theorem SlotMem.Two.poked {i field : Nat} {u : Uvm} {B : Finset Nat} {live : Prop} {S S' : St}
    (h : SlotMem.Two E.cfg (S.own (.slot i)) S.mem (S.proc i) u B live)
    (hp : Poked E i ((S.proc i).trapframe + field) 4 S S') (ht : E.track)
    (hf : E.cfg.IsFrame (S.proc i).trapframe) (hfield : field + 4 ≤ Trapframe.SIZE) :
    SlotMem.Two E.cfg (S'.own (.slot i)) S'.mem (S'.proc i) u B live := by
  have h1 := Trapframe.in_page hfield
  have h2 : SlotMem.Two E.cfg (S.own (.slot i)) S'.mem (S.proc i) u B live :=
    h.poke fun a ha hne => hp.mem ht a ha (by
      by_contra hno
      exact hne (pageOf_eq_of hf.page (by omega)))
  rw [hp.own ht]
  refine ⟨h2.sub, h2.old.proc ?_, ?_⟩
  · rw [hp.kin.thread]
    exact ⟨rfl, rfl, rfl⟩
  · rw [hp.kin.thread.trapframe]
    exact h2.new

theorem SlotMem.Two.same {i : Nat} {u : Uvm} {B : Finset Nat} {live : Prop} {S S' : St}
    (h : SlotMem.Two E.cfg (S.own (.slot i)) S.mem (S.proc i) u B live)
    (hp : SamePart S S' (.slot i)) (ht : (S.proc i).SameThread (S'.proc i)) :
    SlotMem.Two E.cfg (S'.own (.slot i)) S'.mem (S'.proc i) u B live := by
  have h' : SlotMem.Two E.cfg (S.own (.slot i)) S'.mem (S.proc i) u B live :=
    h.poke fun a ha _ => hp.2 a ha
  rw [hp.1]
  refine ⟨h'.sub, h'.old.proc ?_, ?_⟩
  · rw [ht]
    exact ⟨rfl, rfl, rfl⟩
  · rw [ht.trapframe]
    exact h'.new

namespace K

variable {P : St → Prop} {α β : Type} {Q : β → St → Prop} {i : Nat}

theorem wp_proc_steady (hP : Steady E me P) (h : P S) {f : Process → K β}
    (k : ∀ S', P S' → wp E me (f (S'.proc i)) Q S') : wp E me (proc i >>= f) Q S :=
  ⟨hP.umode _ h, fun S' hd hl _ => k S' (hP.drift _ _ h hd hl)⟩

theorem wp_heapUse_steady (hP : Steady E me P) (h : P S) {f : Unit → K β}
    (k : ∀ S', P S' → wp E me (f ()) Q S') : wp E me (heapUse >>= f) Q S := by
  rw [wp_bind]
  exact wp_heapUse hP h k

/-! ## Exec -/

theorem wp_lift_keeper {D : Mode} {P : View → St → Prop} (hK : Keeper E me D P) {v : View}
    (h : P v S) {p : M α} {R : α → View → Prop} (hp : E.track → M.wp D p R v) {f : α → K β}
    (k : ∀ a v' S', P v' S' → (E.track → R a v') → wp E me (f a) Q S') :
    wp E me (lift p >>= f) Q S := by
  rw [wp_bind]
  exact wp_lift hK k v S h hp

/-- `kexec` up to the point where the new address space is built, in states that `P` describes with
the code's frames. -/
theorem wp_kexecOwned {sh : Bool} {P : View → St → Prop} (hK : Keeper E me (E.mode sh) P) {m : Bytes}
    (h : P ⟨∅, m⟩ S) {tf : Nat} (htf : E.track → E.cfg.IsFrame tf)
    (hproc : ∀ v S, P v S → (S.proc i).trapframe = tf) {path : List UInt8}
    {argv : List (List UInt8)} {Q : Except Unit Unit → St → Prop}
    (kerr : ∀ v S', P v S' → Q (.error ()) S')
    (k : ∀ u sp v S', P v S' → (E.track → ∃ tab, Space E.cfg v u tab ∧ Vectors E.cfg v.mem tab tf) →
      wp E me (do
        note (.exec i)
        trapframeWrite i Trapframe.a0 argv.length
        trapframeWrite i Trapframe.a1 sp
        replacePagetable i u
        trapframeWrite i Trapframe.sp sp
        trapframeWrite i Trapframe.epc USER_START
        note (.execed i)
        return .ok ()) Q S') :
    wp E me (kexecOwned E.cfg i path argv) Q S := by
  unfold kexecOwned
  cases himg : program E.cfg path with
  | none => exact wp_panic (hK.steady _) h (by simp [Forbidden])
  | some img =>
    have hfit := program_fits himg
    have hdrop : ∀ {v : View} {S : St} {u : Uvm}, P v S → (E.track → ∃ tab, Space E.cfg v u tab) →
        wp E me (do
          lift u.drop
          return .error ()) Q S := fun h hs => by
      refine wp_lift_keeper (f := fun _ => pure _) hK h (R := fun _ _ => True) (fun ht => ?_)
        fun _ v' S' h' _ => kerr v' S' h'
      obtain ⟨tab, hsp⟩ := hs ht
      exact wp_drop id hsp (fun _ _ => trivial) fun _ _ _ _ => trivial
    refine wp_lift_keeper hK h (R := fun u v => ∃ r, u = ⟨USER_START, 0, ⟨r⟩⟩ ∧
      Private E.cfg ⟨∅, m⟩ v u fun _ => none) (fun _ => ?_) fun pagetree v₁ S₁ h₁ hu => ?_
    · exact wp_uvmNew (fun _ => trivial) fun v' r hr ho hm hs => ⟨r, rfl, .new hr ho hm hs⟩
    refine wp_proc_steady (hK.steady _) h₁ fun S₂ h₂ => ?_
    rw [hproc _ _ h₂]
    refine wp_lift_keeper hK h₂ (R := fun r v => ∃ tab, Private E.cfg ⟨∅, m⟩ v r.2 tab ∧
      (r.1 = .ok () → ∃ fr, Program E.cfg v.mem img tf r.2 tab fr)) (fun ht => ?_)
      fun r v₃ S₃ h₃ hr => ?_
    · obtain ⟨r, rfl, hp⟩ := hu ht
      refine wp_kexecLoad id hp (htf ht) hfit (fun _ _ _ _ => trivial)
        (fun u' v' tab' fr _ hp' hpg _ _ => ⟨tab', hp', fun _ => ⟨fr, hpg⟩⟩)
        fun u' v' tab' o hp' _ _ _ => ⟨tab', hp', fun he => (by cases he)⟩
    obtain ⟨r, pagetree⟩ := r
    cases r with
    | error e => exact hdrop h₃ fun ht => (hr ht).imp fun _ h => h.1.space
    | ok e =>
      refine wp_lift_keeper hK h₃ (R := fun _ v => ∃ tab, Space E.cfg v pagetree tab ∧
        Vectors E.cfg v.mem tab tf) (fun ht => ?_) fun r v₄ S₄ h₄ hr₄ =>
        wp_heapUse_steady (hK.steady _) h₄ fun S₅ h₅ => ?_
      · obtain ⟨tab, hp, hpg⟩ := hr ht
        obtain ⟨fr, hpg⟩ := hpg rfl
        obtain ⟨hsa, hend⟩ := hpg.stackAt hp.space hfit
        have hkeep : ∀ m', (∀ a, pageOf a ≠ fr (stackPage img) → m' a = v₃.mem a) →
            ∃ tab, Space E.cfg { v₃ with mem := m' } pagetree tab ∧ Vectors E.cfg m' tab tf :=
          fun m' hm => by
            have hft := (hsa.space.user _ _ hsa.maps).2
            have he : pte m' tab = pte v₃.mem tab := funext (hp.space.tree.pte_congr fun a ha =>
              hm a fun he => hft (he ▸ ha))
            exact ⟨tab, (hsa.write hm).space, .congr ⟨hpg.trampoline, hpg.trapframe⟩ he⟩
        exact wp_kexecArgs hsa hend (.inr trivial) (fun m' _ hm _ => hkeep m' hm)
          fun m' _ _ hm => hkeep m' hm
      cases r with
      | error e => exact hdrop h₅ fun ht => (hr₄ ht).imp fun _ h => h.1
      | ok sp => exact k pagetree sp v₄ S₅ h₅ hr₄

theorem wp_kexec {sh : Bool} {P : View → St → Prop} (hK : Keeper E me (E.mode sh) P) {m : Bytes}
    (h : P ⟨∅, m⟩ S) {tf : Nat} (htf : E.track → E.cfg.IsFrame tf)
    (hproc : ∀ v S, P v S → (S.proc i).trapframe = tf) {path : List UInt8}
    {argv : List (List UInt8)} {Q : Except Unit Unit → St → Prop}
    (kerr : ∀ v S', P v S' → Q (.error ()) S')
    (k : ∀ u sp v S', P v S' → (E.track → ∃ tab, Space E.cfg v u tab ∧ Vectors E.cfg v.mem tab tf) →
      wp E me (do
        note (.exec i)
        trapframeWrite i Trapframe.a0 argv.length
        trapframeWrite i Trapframe.a1 sp
        replacePagetable i u
        trapframeWrite i Trapframe.sp sp
        trapframeWrite i Trapframe.epc USER_START
        note (.execed i)
        return .ok ()) (fun r S' => wp E me (heapUse >>= fun _ => pure r) Q S') S') :
    wp E me (kexec E.cfg i path argv) Q S := by
  unfold kexec
  rw [wp_bind]
  exact wp_kexecOwned hK h htf hproc (fun v S' h' => wp_heapUse_steady (f := fun _ => pure _)
    (hK.steady _) h' fun S'' h'' => kerr v S'' h'') k

/-- The thread of slot `i` gets a new address space, and gives the old one back. -/
theorem wp_replacePagetable_own {u : Uvm} {B : Finset Nat} {Q : Unit → St → Prop}
    (h : Calm E (some i) b S₀ S) (hp : Plain i S₀) (hx : lastCall i S₀.data.log = some (.exec i))
    (hm : E.track → SlotMem.Two E.cfg (S₀.own (.slot i)) S₀.mem (S₀.proc i) u B True)
    (k : ∀ S', Runs E i b S' → Q () S') : wp E (some i) (replacePagetable i u) Q S := by
  unfold replacePagetable
  refine wp_setProc_calm h (fun S₁ h₁ => ⟨?_, rfl, ?_⟩) fun S₁ S₂ h₁ hS₂ h₂ => ?_
  · refine Data.Assigns.legal (show S₁.data.Assigns (some i) S₁.hist i _ from
      .exec ⟨h₁.settled.current, ?_⟩ rfl rfl rfl rfl rfl rfl)
    exact (h₁.kept i rfl).lastCall.trans hx
  · refine h₁.settled.inv.ownPagetable ⟨rfl, rfl, rfl, rfl⟩ ⟨rfl, rfl, rfl, rfl⟩ rfl fun ht => ?_
    exact ⟨(h₁.slotMem ht).trapframe, fun _ => h₁.settled.inv.table.run_live, fun hd => (by cases hd)⟩
  have hx₂ : lastCall i S₂.data.log = some (.exec i) := by
    rw [hS₂]
    exact (h₁.kept i rfl).lastCall.trans hx
  have hr₂ : (S₂.proc i).reaped = none := by
    rw [hS₂, St.setData_self]
    exact (h₁.kept i rfl).thread.reaped.trans hp.reaped
  have hp₂ : S₂.proc i = { S₁.proc i with dropping := true } := by
    rw [hS₂]
    exact St.setData_self S₁ i fun p => { p with dropping := true }
  refine wp_proc_calm h₂ fun S₃ h₃ => ?_
  -- the slot has two address spaces
  have htf : (S₃.proc i).trapframe = (S₀.proc i).trapframe := by
    rw [(h₃.kept i rfl).thread.trapframe, hp₂]
    exact (h₁.kept i rfl).thread.trapframe
  have hpt : (S₃.proc i).pagetable = (S₀.proc i).pagetable := by
    rw [(h₃.kept i rfl).thread.pagetable, hp₂]
    exact (h₁.kept i rfl).thread.pagetable
  have hsame : E.track → SameAt S₀.own S₃.own S₀.mem S₃.mem (.slot i) := fun ht => by
    have h₀ : SameAt S₁.own S₂.own S₁.mem S₂.mem (.slot i) := by
      rw [hS₂]
      exact .refl ..
    exact (((h₁.kept i rfl).slot ht).trans h₀).trans ((h₃.kept i rfl).slot ht)
  have hm₃ : E.track → SlotMem.Two E.cfg (S₃.own (.slot i)) S₃.mem (S₀.proc i) u B True := fun ht => by
    rw [(hsame ht).1]
    exact (hm ht).poke fun a ha _ => (hsame ht).2 a ha
  obtain ⟨A, hA⟩ : ∃ A, A = (S₃.own (.slot i) \ B).erase (S₀.proc i).trapframe := ⟨_, rfl⟩
  have hAsub : A ⊆ S₃.own (.slot i) := by
    rw [hA]
    exact (Finset.erase_subset _ _).trans Finset.sdiff_subset
  have hbase : ∀ f ∈ S₃.own (.slot i), (f = (S₀.proc i).trapframe ∨ f ∈ B) →
      f ∈ S₃.own (.slot i) \ A := fun f hf hor => by
    refine Finset.mem_sdiff.2 ⟨hf, fun hfA => ?_⟩
    rw [hA, Finset.mem_erase, Finset.mem_sdiff] at hfA
    exact hor.elim hfA.1 hfA.2.2
  have htfo : E.track → (S₀.proc i).trapframe ∈ S₃.own (.slot i) := fun ht =>
    (Finset.mem_sdiff.1 (hm₃ ht).old.trapframe).1
  have hrest : E.track → SlotMem E.cfg (S₃.own (.slot i) \ A) S₃.mem (S₃.proc i) True := fun ht => by
    refine ⟨?_, fun _ => trivial, fun hd => ?_⟩
    · rw [htf]
      exact hbase _ (htfo ht) (.inl rfl)
    · rw [(h₃.kept i rfl).thread.dropping, hp₂] at hd
      cases hd
  refine wp_lift_calm h₃.rebase hrest (fun _ => Lease.one_split hAsub) (R := fun _ _ => True)
    (fun ht => ?_) fun _ v S₄ h₄ hk₄ hv₄ _ => ?_
  · obtain ⟨tab, hs, -⟩ := (hm₃ ht).old.space hp.dropping
    rw [hpt, hA]
    exact wp_drop id hs (fun _ _ => trivial) fun _ _ _ _ => trivial
  refine wp_setProc_calm (f := pure) h₄ (fun S₅ h₅ => ⟨?_, rfl, ?_⟩) fun S₅ S₆ h₅ hS₆ h₆ => ?_
  · refine Data.Assigns.legal (show S₅.data.Assigns (some i) S₅.hist i _ from
      .exec ⟨h₅.settled.current, ?_⟩ rfl rfl rfl rfl rfl rfl)
    exact (h₅.kept i rfl).lastCall.trans (hk₄.lastCall.trans ((h₃.kept i rfl).lastCall.trans hx₂))
  · refine h₅.settled.inv.ownPagetable ⟨rfl, rfl, rfl, rfl⟩ ⟨rfl, rfl, rfl, rfl⟩ rfl fun ht => ?_
    obtain ⟨ho, -, -, hk⟩ := Lease.one_has.1 (hv₄ ht)
    obtain ⟨ho₅, hk₅⟩ := (h₅.kept i rfl).slot ht
    have htf₅ : (S₅.proc i).trapframe = (S₀.proc i).trapframe :=
      (h₅.kept i rfl).thread.trapframe.trans (hk₄.thread.trapframe.trans htf)
    have hin : ∀ f ∈ S₃.own (.slot i) \ A, f ∈ S₅.own (.slot i) := fun f hf => by
      rw [ho₅, ho]
      exact Finset.mem_union_left _ hf
    have hB : ∀ f ∈ B, f ∈ S₃.own (.slot i) \ A := fun f hf => hbase f ((hm₃ ht).sub hf) (.inr hf)
    refine ⟨?_, fun hd => (by cases hd), fun _ => ?_⟩
    · show (S₅.proc i).trapframe ∈ _
      rw [htf₅]
      exact hin _ (hbase _ (htfo ht) (.inl rfl))
    obtain ⟨tab, hs, hv⟩ := (hm₃ ht).new
    have hkeep : ∀ a, Tree.Has u.pagetable.root tab (pageOf a) → S₅.mem a = S₃.mem a := fun a ha => by
      have haB := hB _ (hs.tree.has_own ha)
      refine (hk₅ a ?_).trans (hk a haB)
      rw [← ho₅]
      exact hin _ haB
    refine ⟨tab, hs.congr (fun f hf => Finset.mem_erase.2 ⟨fun he => ?_, hin f (hB f hf)⟩) hkeep,
      fun _ => ?_⟩
    · change f = (S₅.proc i).trapframe at he
      rw [htf₅] at he
      exact (Finset.mem_sdiff.1 (hm₃ ht).old.trapframe).2 (he ▸ hf)
    · show Vectors _ _ _ (S₅.proc i).trapframe
      rw [htf₅]
      exact (hv trivial).congr (funext (hs.tree.pte_congr hkeep))
  · refine k _ ⟨h₆, ?_, ?_⟩
    · rw [hS₆, St.setData_self]
    · rw [hS₆, St.setData_self]
      exact (h₅.kept i rfl).thread.reaped.trans
        (hk₄.thread.reaped.trans ((h₃.kept i rfl).thread.reaped.trans hr₂))

/-! ## The handlers -/

theorem wp_sysWrite (h : Calm E (some i) b S₀ S) {Q : Unit → St → Prop}
    (k : ∀ S', Kin i S₀ S' → Calm E (some i) b S' S' → Q () S') :
    wp E (some i) (sysWrite i) Q S := by
  have hP : Steady E (some i) (Calm E (some i) b S₀) := Calm.steady
  unfold sysWrite
  refine wp_trapframeRead hP h fun fd S₁ _ h₁ => wp_trapframeRead hP h₁ fun addr S₂ _ h₂ => ?_
  refine wp_trapframeRead hP h₂ fun size S₃ _ h₃ => ?_
  by_cases hfd : fd = 1
  · simp only [hfd, ne_eq, not_true_eq_false, if_false]
    refine wp_proc_steady hP h₃ fun S₄ h₄ =>
      wp_lift_steady hP h₄ (copyIn_readOnly _ _ _).2.1 fun r S₅ h₅ => ?_
    refine wp_unwrapOk hP h₅ fun bytes _ => wp_unwrapOk hP h₅ fun msg _ => ?_
    refine wp_heapUse_steady hP h₅ fun S₆ h₆ => ?_
    refine wp_trapframeWrite_calm h₆ (Trapframe.in_page (by decide)) fun S₇ hp h₇ => ?_
    exact wp_heapUse Calm.steady h₇ fun S' h' =>
      k S' (hp.kin.trans (h'.kept i rfl).kin) h'.rebase
  · simp only [hfd, ne_eq, not_false_eq_true, if_true]
    rw [wp_bind]
    exact wp_panic hP h₃ (by simp [Forbidden])

theorem wp_sysFork (h : Calm E (some i) b S₀ S) (hp : Plain i S₀) {Q : Unit → St → Prop}
    (k : ∀ S', Kin i S₀ S' → Calm E (some i) b S' S' → Q () S') :
    wp E (some i) (sysFork E.cfg i) Q S := by
  unfold sysFork
  rw [wp_bind]
  refine wp_kfork h hp.dropping (fun pid S' hk h' => ?_) fun S' h' => ?_
  · exact wp_unwrapOk (f := fun _ => pure ()) Calm.steady h' fun _ _ => k S' hk h'
  · exact wp_unwrapOk_stuck (f := fun _ => pure ()) rfl h'

theorem wp_sysExecArgs (hP : Steady E me P) {Q : List (List UInt8) → St → Prop}
    (k : ∀ argv S', P S' → Q argv S') :
    ∀ n argv_addr S, P S → wp E me (sysExecArgs i n argv_addr) Q S := by
  intro n
  induction n generalizing Q with
  | zero => exact fun _ S h => wp_panic hP h (by simp [Forbidden])
  | succ n ih =>
    intro argv_addr S h
    unfold sysExecArgs
    refine wp_proc_steady hP h fun S₁ h₁ =>
      wp_lift_steady hP h₁ (copyIn_readOnly _ _ _).1 fun r S₂ h₂ => ?_
    refine wp_unwrapOk hP h₂ fun bytes _ => ?_
    dsimp only
    split
    · exact k [] S₂ h₂
    · refine wp_proc_steady hP h₂ fun S₃ h₃ =>
        wp_lift_steady hP h₃ (copyIn_readOnly _ _ 0).2.2 fun r S₄ h₄ => ?_
      refine wp_unwrapOk hP h₄ fun arg_str _ => wp_heapUse_steady hP h₄ fun S₅ h₅ => ?_
      refine wp_add hP h₅ (by simp [Forbidden]) fun _ => ?_
      rw [wp_bind]
      exact ih (fun argv S' h' => k _ S' h') _ S₅ h₅

theorem wp_sysExec (h : Calm E (some i) b S₀ S) (hp : Plain i S₀) {Q : Unit → St → Prop}
    (k : ∀ S', Runs E i b S' → Q () S') : wp E (some i) (sysExec E.cfg i) Q S := by
  have hP : Steady E (some i) (Calm E (some i) b S₀) := Calm.steady
  unfold sysExec
  refine wp_trapframeRead hP h fun path_addr S₁ _ h₁ => ?_
  refine wp_trapframeRead hP h₁ fun argv_addr S₂ _ h₂ => ?_
  refine wp_proc_frame h₂ fun S₃ h₃ hf₃ =>
    wp_lift_steady hP h₃ (copyIn_readOnly _ _ 0).2.2 fun r S₄ h₄ => ?_
  refine wp_unwrapOk hP h₄ fun path _ => ?_
  rw [wp_bind]
  refine wp_sysExecArgs hP (fun argv S₅ h₅ => ?_) _ _ S₄ h₄
  refine wp_heapUse_steady hP h₅ fun S₆ h₆ => ?_
  rw [wp_bind]
  have hf₆ : E.track → E.cfg.IsFrame (S₆.proc i).trapframe := fun ht => by
    have h1 := hf₃ ht
    rw [(h₃.kept i rfl).thread.trapframe] at h1
    rw [(h₆.kept i rfl).thread.trapframe]
    exact h1
  -- the new address space is made beside what the slot has
  have hown : E.track → SlotMem E.cfg (S₆.own (.slot i)) S₆.mem (S₆.proc i) True :=
    fun ht => h₆.rebase.slotMem ht
  refine wp_kexec (Calm.keeper hown) ⟨h₆.rebase, .refl i S₆, fun _ => Lease.one_start⟩ hf₆
    (fun v S' h' => h'.2.1.thread.trapframe) (fun v S' h' => ?_) fun u sp v S' h' hnew => ?_
  · exact wp_unwrapOk_stuck rfl ⟨_, Calm.steady, h'.1⟩
  obtain ⟨h', hk', hv'⟩ := h'
  have hp' : Plain i S' := (hp.kept (h₆.kept i rfl)).kin hk'
  have hm' : E.track → SlotMem.Two E.cfg (S'.own (.slot i)) S'.mem (S'.proc i) u v.own True :=
    fun ht => by
      obtain ⟨ho, hb, hm, hk⟩ := Lease.one_has.1 (hv' ht)
      have hd : (S₆.proc i).dropping = false := (hp.kept (h₆.kept i rfl)).dropping
      have hold : SlotMem E.cfg (S₆.own (.slot i)) S₆.mem (S₆.proc i) False := by
        refine ⟨(hown ht).trapframe, fun h => ?_, fun h => ?_⟩
        · rw [hd] at h
          cases h
        · exact ((hown ht).space h).imp fun _ hs => ⟨hs.1, False.elim⟩
      refine (hold.proc ?_).beside ho hb hk ?_
      · rw [hk'.thread]
        exact ⟨rfl, rfl, rfl⟩
      · obtain ⟨tab, hs, hv⟩ := hnew ht
        have hmem : ∀ a, Tree.Has u.pagetable.root tab (pageOf a) → S'.mem a = v.mem a :=
          fun a ha => (hm a (hs.tree.has_own ha)).symm
        refine ⟨tab, hs.congr (fun _ hf => hf) hmem, fun _ => ?_⟩
        rw [hk'.thread.trapframe]
        exact hv.congr (funext (hs.tree.pte_congr hmem))
  have hf' : E.track → E.cfg.IsFrame (S'.proc i).trapframe := fun ht => by
    rw [hk'.thread.trapframe]
    exact hf₆ ht
  -- nothing fails from here on
  refine wp_note_calm h' rfl (fun T hT => ⟨⟨.inl rfl, (hp'.kept (hT.kept i rfl)).dropping⟩, fun _ =>
    hT.settled.inv.exits.note (.inr ⟨i, 0, .inr (.inl rfl)⟩) fun p x => by simp⟩)
    fun T S'' _ hT hS'' h'' => ?_
  have hpart : E.track → SamePart S' S'' (.slot i) := fun ht => by
    rw [hS'']
    exact (hT.kept i rfl).slot ht
  have hthread : (S'.proc i).SameThread (S''.proc i) := by
    rw [hS'']
    exact (hT.kept i rfl).thread
  have hx' : lastCall i S''.data.log = some (.exec i) := by
    rw [hS'']
    exact lastCall_call rfl rfl
  replace hp' : Plain i S'' :=
    ⟨hthread.dropping.trans hp'.dropping, hthread.reaped.trans hp'.reaped⟩
  replace hm' := fun ht => (hm' ht).same (hpart ht) hthread
  replace hf' : E.track → E.cfg.IsFrame (S''.proc i).trapframe := fun ht => by
    rw [hthread.trapframe]
    exact hf' ht
  refine wp_trapframeWrite_calm h'' (Trapframe.in_page (by decide)) fun S₇ hp₇ h₇ => ?_
  refine wp_trapframeWrite_calm h₇ (Trapframe.in_page (by decide)) fun S₈ hp₈ h₈ => ?_
  have hk₈ := hp₇.kin.trans hp₈.kin
  rw [wp_bind]
  refine wp_replacePagetable_own (B := v.own) h₈ (hp'.kin hk₈) (hk₈.lastCall.trans hx')
    (fun ht => ?_) fun S₉ h₉ => ?_
  · have hf₇ : E.cfg.IsFrame (S₇.proc i).trapframe := by
      rw [hp₇.kin.thread.trapframe]
      exact hf' ht
    exact ((hm' ht).poked hp₇ ht (hf' ht) (by decide)).poked hp₈ ht hf₇ (by decide)
  refine wp_trapframeWrite_calm h₉.calm (Trapframe.in_page (by decide)) fun T₁ hp₁ h₁ => ?_
  refine wp_trapframeWrite_calm h₁ (Trapframe.in_page (by decide)) fun T₂ hp₂ h₂ => ?_
  have hp₂' := h₉.plain.kin (hp₁.kin.trans hp₂.kin)
  refine wp_note_calm (f := fun _ => pure _) h₂ rfl (fun T hT => ⟨⟨.inl rfl,
    (hp₂'.kept (hT.kept i rfl)).dropping⟩, fun _ => hT.settled.inv.exits.note
      (.inr ⟨i, 0, .inr (.inr (.inl rfl))⟩) fun p x => by simp⟩) fun T T₃ _ hT hT₃ h₃ => ?_
  have hp₃ : Plain i T₃ := by
    have := hp₂'.kept (hT.kept i rfl)
    rw [hT₃]
    exact ⟨this.dropping, this.reaped⟩
  refine wp_heapUse_steady (f := fun _ => pure _) Calm.steady h₃ fun T₄ h₄ => ?_
  refine wp_unwrapOk Calm.steady h₄ fun _ _ => ?_
  exact wp_heapUse Calm.steady h₄ fun T₅ h₅ => k T₅ (h₅.runs hp₃)

end K

end BareMetal
