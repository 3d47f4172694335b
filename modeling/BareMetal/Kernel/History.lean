import BareMetal.Kernel.Machine

/-!
# What a run has seen

`History` follows a run: for each process the interrupt bit before the outermost
`push_interrupt_off` of the critical section it is in, and how often each slot has been dispatched.
A history depends on the states that the run goes through only (`History.next`).
-/

namespace BareMetal

/-- The scheduler picks slot `r`. -/
def Data.Dispatches (d d' : Data) (r : Nat) : Prop :=
  (d.process_table r).state = .Runnable ∧ (d'.process_table r).state = .Running

instance (d d' : Data) (r : Nat) : Decidable (d.Dispatches d' r) :=
  inferInstanceAs (Decidable (_ ∧ _))

/-- Slot `i` is freed. -/
def Data.Frees (d d' : Data) (i : Nat) : Prop :=
  (d.process_table i).state ≠ .Unused ∧ (d'.process_table i).state = .Unused

instance (d d' : Data) (i : Nat) : Decidable (d.Frees d' i) := inferInstanceAs (Decidable (_ ∧ _))

/-- A critical section begins, or ends. -/
def Locks.Opens (l l' : Locks) : Prop := l.interrupt_off_stack = 0 ∧ l'.interrupt_off_stack = 1

def Locks.Closes (l l' : Locks) : Prop := l.interrupt_off_stack = 1 ∧ l'.interrupt_off_stack = 0

instance (l l' : Locks) : Decidable (l.Opens l') := inferInstanceAs (Decidable (_ ∧ _))

instance (l l' : Locks) : Decidable (l.Closes l') := inferInstanceAs (Decidable (_ ∧ _))

@[ext]
structure History where
  before : Nat → Option Bool
  dispatched : Nat → Nat

/-- The history after a step from `s` to `s'`. -/
def History.next (s s' : Sys) (h : History) : History where
  before i :=
    if s.data.Frees s'.data i then none
    else if s.data.current = some i ∧ s.locks.Opens s'.locks then some s.locks.sie
    else if s.data.current = some i ∧ s.locks.Closes s'.locks then none
    else h.before i
  dispatched r := h.dispatched r + if s.data.Dispatches s'.data r then 1 else 0

/-- The history of a run that has not begun. -/
def History.start : History := ⟨fun _ => none, fun _ => 0⟩

/-- `m` is reached, and `h` is what the run has seen. -/
inductive Machine.Run (c : Cfg) (A : Machine → Prop) : Machine → History → Prop
  | init {m} (h : Init c m) : Run c A m .start
  | step {m m' h} (hr : Run c A m h) (ha : A m) (hs : Step c m m') : Run c A m' (h.next m.sys m'.sys)

theorem Machine.Reach.run {c : Cfg} {A : Machine → Prop} {m : Machine} (h : Reach c A m) :
    ∃ h, Run c A m h := by
  induction h with
  | init h => exact ⟨_, .init h⟩
  | step _ ha hs ih =>
    obtain ⟨h, hr⟩ := ih
    exact ⟨_, .step hr ha hs⟩

end BareMetal
