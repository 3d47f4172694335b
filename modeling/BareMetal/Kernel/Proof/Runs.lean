import Mathlib.Logic.Relation
import BareMetal.Kernel.Proof.Boot

/-!
# Runs of the machine

All the code of the kernel keeps the rules (`code_keeps`), so the machine keeps its invariant in every run
(`Machine.Run.keeps`). Whatever the run, the next operation of the running context satisfies its
rule (`Machine.Run.next`): lock discipline, legal assignments, no forbidden panic.
-/

namespace BareMetal

open Lib

variable {E : Env} {me : Option Nat}

namespace K

/-- `kwait`'s loop: one round, and what follows its return. -/
theorem wp_kwaitLoop {i addr : Nat} {S : St} (hl : S.locks.Inv)
    (h : labelPost E me (.kwait i addr) S) :
    wp E me (kwaitLoop E.cfg i addr) (labelPost E me) S := by
  obtain ⟨rfl, hu, hset, hd, hr, hlast, hlt, haddr⟩ := h
  have h : Calm E (some i) S.locks.sie S S := .refl hu rfl hl hset
  unfold kwaitLoop
  rw [wp_bind]
  refine wp_kwaitRound h ⟨hd, hr, hlast⟩ hlt haddr (fun S' h' hw => ?_) fun r S' h' hp => ?_
  · exact ⟨rfl, h'.umode, h'.settled, hw.dropping, hw.reaped, hw.call, hlt, haddr⟩
  · refine wp_trapframeWrite_calm h' (Trapframe.in_page (by decide)) fun S₂ hp₂ h₂ => ?_
    exact wp_usertrapret h₂ (hp.kin hp₂.kin)

end K

/-- The user program writes to pages of its process only, and to no table. -/
theorem Inv.userWrites {S : St} {i : Nat} {phys : Phys} {satp : Nat} (h : Inv E (some i) S)
    (ht : E.track) (how : Owned E.cfg S.own S.sys.phys.free) (hd : (S.proc i).dropping = false)
    (hs : satpRoot satp = (S.proc i).pagetable.pagetable.root)
    (hw : Sys.UserWrites S.sys.phys phys satp) :
    (∀ x, x ≠ .slot i → SameAt S.own S.own S.mem phys.mem x) ∧
      MemInv E.cfg S.own phys.mem S.data ∧ E.cfg.SameImage S.mem phys.mem := by
  have hlt := h.table.run_live.1
  have hslot : SlotMem E.cfg (S.own (.slot i)) S.mem (S.proc i) (S.data.Live i) :=
    (h.mem ht).slot i hlt
  have hpage : ∀ tab, Space E.cfg ⟨(S.own (.slot i)).erase (S.proc i).trapframe, S.mem⟩
      (S.proc i).pagetable tab → ∀ a, phys.mem a ≠ S.mem a → pageOf a ∈ S.own (.slot i) ∧
        ¬ Tree.Has (S.proc i).pagetable.pagetable.root tab (pageOf a) := fun tab hsp a ha => by
    obtain ⟨va, e, hwalk, hu, -⟩ := hw.2.2 a ha
    rw [hs] at hwalk
    exact (hsp.user_walk hwalk hu).imp_left Finset.mem_of_mem_erase
  obtain ⟨tab, hsp, -⟩ := hslot.space hd
  have hrest : ∀ x, x ≠ .slot i → SameAt S.own S.own S.mem phys.mem x := fun x hx =>
    ⟨rfl, fun a ha => by
      by_contra hne
      exact hx (how.disj _ _ _ ha (hpage tab hsp a hne).1)⟩
  refine ⟨hrest, (h.mem ht).update (hrest _ (by simp)) (fun j _ hj => hrest _ (by simpa using hj))
    rfl rfl (fun j _ _ => ⟨rfl, rfl, rfl⟩) (fun j _ => .rfl) fun _ => ?_, fun a ha => ?_⟩
  · refine hslot.congr id (fun _ => id) fun tab' hsp' a ha => ?_
    by_contra hne
    exact (hpage tab' hsp' a hne).2 ha
  · by_contra hne
    exact ha (how.frame _ _ (hpage tab hsp a hne).1)

/-- The user program changes memory, its registers and its pc only. -/
theorem Upd.user {S : St} {phys : Phys} {regs : Nat → Nat} {pc : Nat}
    (h : labelPost E me .user S) (how : E.track → Owned E.cfg S.own S.sys.phys.free)
    (hregs : ∀ r, regs r < 2 ^ 32) (hpc : pc < 2 ^ 32)
    (hw : Sys.UserWrites S.sys.phys phys S.data.csr.satp) :
    Upd E me S (S.step (S.sys.user phys regs pc) S.own) ∧
      labelPost E me .user (S.step (S.sys.user phys regs pc) S.own) := by
  obtain ⟨i, rfl, hu, hs, hset, hd, hr, hsatp, -⟩ := h
  have hh : (S.step (S.sys.user phys regs pc) S.own).hist = S.hist :=
    S.hist.next_same rfl fun _ => rfl
  have hb : ∀ j, (S.step (S.sys.user phys regs pc) S.own).hist.before j = S.hist.before j :=
    fun j => by rw [hh]
  have hmem := fun ht => hset.inv.userWrites ht (how ht) hd (hsatp ht) hw
  have hset' : Settled E (some i) (S.step (S.sys.user phys regs pc) S.own) := by
    refine ⟨hset.held, hset.current, hset.stvec, ⟨?_, ?_, fun j hj => ?_, fun j hj hs => ?_,
      fun ht => ?_⟩, fun j hj => ?_⟩
    · exact hset.inv.table.congr rfl rfl fun j _ => ⟨rfl, rfl, rfl, rfl⟩
    · exact hset.inv.exits.congr rfl rfl rfl fun j _ => ⟨rfl, rfl, rfl, rfl⟩
    · rw [hh]
      exact hset.inv.counted j hj
    · rw [hb]
      exact hset.inv.fresh j hj hs
    · exact (hmem ht).2.1.congr (.refl ..) (fun _ _ => .refl ..) rfl rfl
        (fun _ _ => ⟨rfl, rfl, rfl⟩) (fun _ hl => hl) fun _ _ hl => hl
    · rw [hb]
      exact hset.closed j hj
  refine ⟨⟨fun j hj hl => ⟨hl, rfl, ⟨rfl, rfl, rfl, fun ht => ?_, fun ht => ?_⟩, hb j⟩,
    fun j _ hl => .inl hl, fun _ => hset', fun ht => ?_, fun ht => (hmem ht).2.2⟩, ?_⟩
  · exact (hmem ht).1 _ fun he => hj (congrArg some (Party.slot.inj he))
  · exact (hmem ht).1 _ (by simp)
  · show Owned E.cfg S.own phys.free
    rw [hw.1]
    exact how ht
  · exact ⟨i, rfl, hu, hs, hset', hd, hr, hsatp, fun _ => ⟨fun r _ => hregs r, hpc⟩⟩

/-- The code of the kernel keeps the rules. -/
theorem code_keeps (E : Env) : Code E where
  main _ hm := K.wp_main hm
  forkret _ _ h hb := K.wp_forkret h hb
  entry me l p S h hl he := by
    cases l with
    | scheduler =>
      obtain rfl := Option.some.inj he
      exact K.wp_schedulerRound hl h
    | kwait i addr =>
      obtain rfl := Option.some.inj he
      exact K.wp_kwaitLoop hl h
    | user => cases he
    | spin => cases he
  kernelvec _ _ _ _ hl hu hs hset k := K.wp_kernelvec hu hs hset hl k
  usertrap _ _ _ hl h := K.wp_usertrap hl h
  user _ _ _ _ _ h how hr hp hw := Upd.user h how hr hp hw

/-- Locks and the process table are followed; memory and the timer are not. -/
def Cfg.plain (c : Cfg) : Env := ⟨c, False, False, False.elim⟩

/-- The memory is followed, too. -/
def Cfg.tracked (c : Cfg) : Env := ⟨c, c.Linked, False, id⟩

namespace Machine

/-- A status address that `wait` is called with lies within a page. -/
def StatusFits (m : Machine) : Prop :=
  ∀ i addr k, m.code = .op (.note (.wait i addr)) k → AddrOk addr

variable {c : Cfg} {A : Machine → Prop} {m m' : Machine} {h : History}

theorem StatusFits.of_op {o : KOp} {k : o.Resp → K Label} (hc : m.code = .op o k)
    (ho : ∀ i addr, o ≠ .note (.wait i addr)) : m.StatusFits := by
  intro i addr k' hc'
  cases hc.symm.trans hc'
  exact (ho i addr rfl).elim

theorem StatusFits.of_label {l : Label} (hc : m.code = .ret l) : m.StatusFits := by
  intro i addr k hc'
  cases hc.symm.trans hc'

theorem Run.linked (hr : Run c A m h) : c.Linked := by
  induction hr with
  | init hm => exact hm.linked
  | step _ _ _ ih => exact ih

theorem Reach.linked (hr : Reach c A m) : c.Linked := by
  obtain ⟨h, hr⟩ := hr.run
  exact hr.linked

theorem assume_plain (c : Cfg) (m : Machine) : m.Assume c.plain := by
  refine ⟨fun e k _ => ?_, fun h => h.elim⟩
  cases e with
  | wait i addr => exact fun h => h.elim
  | _ => exact trivial

theorem Run.keeps (hr : Run c A m h) : ∃ me own, MInv c.plain m h me own :=
  MInv.run (E := c.plain) (code_keeps _) (fun m _ => assume_plain c m) hr

theorem assume_tracked (c : Cfg) (hm : m.StatusFits) : m.Assume c.tracked := by
  refine ⟨fun e k hc => ?_, fun h => h.elim⟩
  cases e with
  | wait i addr => exact fun _ => hm i addr k hc
  | _ => exact trivial

/-- Runs in which the status addresses lie within a page keep the invariants of the memory. -/
theorem Run.keeps_tracked (hr : Run c StatusFits m h) : ∃ me own, MInv c.tracked m h me own :=
  MInv.run (E := c.tracked) (code_keeps _) (fun _ => assume_tracked c) hr

/-- `m'` comes after `m` in a run. -/
def Later (c : Cfg) (A : Machine → Prop) : Machine → Machine → Prop :=
  Relation.ReflTransGen fun m m' => A m ∧ Step c m m'

theorem Later.reach (hl : Later c A m m') (hr : Reach c A m) : Reach c A m' := by
  induction hl with
  | refl => exact hr
  | tail _ hs ih => exact ih.step hs.1 hs.2

theorem Reach.mono {A' : Machine → Prop} (h : Reach c A m) (hA : ∀ m, A m → A' m) :
    Reach c A' m := by
  induction h with
  | init hm => exact .init hm
  | step _ ha hs ih => exact .step ih (hA _ ha) hs

theorem Later.mono {A' : Machine → Prop} (hl : Later c A m m') (hA : ∀ m, A m → A' m) :
    Later c A' m m' := by
  induction hl with
  | refl => exact .refl
  | tail _ hs ih => exact ih.tail ⟨hA _ hs.1, hs.2⟩

/-- What the rule of the next operation says. -/
theorem Run.next (hr : Run c A m h) {o : KOp} {k : o.Resp → K Label} (hc : m.code = .op o k) :
    m.sys.locks.Inv ∧ ∃ me own, opSpec c.plain me o (fun r => K.wp c.plain me (k r) (labelPost c.plain me))
      ⟨m.sys, own, h⟩ := by
  obtain ⟨me, own, hi⟩ := hr.keeps
  exact ⟨hi.locks, me, own, (hi.next hc).2⟩

end Machine

end BareMetal
