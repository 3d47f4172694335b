import BareMetal.Kernel.Proof.Fork
import BareMetal.Kernel.Proof.Isolation

/-!
# The callers of `exec` and `fork`

`OwnState` and `ForkState` hold of every live process wherever the hart can change hands in a run of
the machine (`Machine.callers`), so of a process in user mode and of one whose system call has just
begun: what is said of `kexec` and of `kfork` from such states is said of every call in a run.
-/

namespace BareMetal

open Lib

section
variable {c : Cfg} {own : Party → Finset Nat} {s : Sys} {i : Nat}

/-- The frames of slot `i` are its address space and its trapframe. -/
theorem SlotMem.ownState (ho : Owned c own s.phys.free)
    (h : SlotMem c (own (.slot i)) s.phys.mem (s.data.process_table i) (s.data.Live i))
    (hd : (s.data.process_table i).dropping = false) : OwnState c s i := by
  obtain ⟨tab, hs, -⟩ := h.space hd
  exact .of_own ho.nodup ho.free_frame (fun f hf => ⟨ho.frame _ f (Finset.mem_of_mem_erase hf),
    ho.not_free _ f (Finset.mem_of_mem_erase hf)⟩) ⟨ho.frame _ _ h.trapframe,
    ho.not_free _ _ h.trapframe⟩ (Finset.notMem_erase _ _) hs

/-- The frames of the slots are theirs alone. -/
theorem MemInv.forkState (ho : Owned c own s.phys.free) (hm : MemInv c own s.phys.mem s.data)
    (hl : s.data.Live i) (hd : (s.data.process_table i).dropping = false) : ForkState c s i := by
  obtain ⟨tab, hs, -⟩ := (hm.slot i hl.1).space hd
  have htf : ∀ j < s.data.nproc, (s.data.process_table j).trapframe ∈ own (.slot j) :=
    fun j hj => (hm.slot j hj).trapframe
  have hne : ∀ j < s.data.nproc, j ≠ i →
      (s.data.process_table j).trapframe ∉ own (.slot i) := fun j hj hji hf =>
    hji (Party.slot.inj (ho.disj _ _ _ (htf j hj) hf))
  have hbox : ∀ j < s.data.nproc, (s.data.process_table j).trapframe ∈
      (Finset.range s.data.nproc).image fun j => (s.data.process_table j).trapframe := fun j hj =>
    Finset.mem_image.2 ⟨j, Finset.mem_range.2 hj, rfl⟩
  refine .of_own ho.nodup ho.free_frame (fun f hf => ?_) (fun f hf => ?_) hs (hbox i hl.1) hbox
    (fun hu => ?_) fun j hj hji he => hne j hj hji (he ▸ htf i hl.1)
  · obtain ⟨hfi, hf⟩ := Finset.mem_erase.1 hf
    refine ⟨ho.frame _ f hf, ho.not_free _ f hf, fun hb => ?_⟩
    obtain ⟨j, hj, rfl⟩ := Finset.mem_image.1 hb
    by_cases hji : j = i
    · exact hfi (by rw [hji])
    · exact hne j (Finset.mem_range.1 hj) hji hf
  · obtain ⟨j, hj, rfl⟩ := Finset.mem_image.1 hf
    have hj := htf j (Finset.mem_range.1 hj)
    exact ⟨ho.frame _ _ hj, ho.not_free _ _ hj⟩
  · have hlive := hl.2
    rw [hu] at hlive
    simp at hlive

end

/-- **Every process of a run that can run is such a caller.** -/
theorem Machine.callers {c : Cfg} {m : Machine} {i : Nat} (hr : Machine.Reach c Machine.StatusFits m)
    (hw : m.AtSwitch) (hl : m.sys.data.Live i)
    (hd : (m.sys.data.process_table i).dropping = false) :
    OwnState c m.sys i ∧ ForkState c m.sys i := by
  obtain ⟨h, hr⟩ := hr.run
  obtain ⟨me, own, -, how, hm, -⟩ := hr.atSwitch hw
  exact ⟨(hm.slot i hl.1).ownState how hd, hm.forkState how hl hd⟩

end BareMetal
