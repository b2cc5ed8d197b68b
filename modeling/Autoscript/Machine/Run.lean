import Autoscript.Machine.Step
/-!
# Running a program

A run takes steps until the program halts or a step fails.  There are no jumps
backward, so each successful step moves the instruction pointer forward
(`step_advances`) and every run ends.
-/
namespace Autoscript

namespace Machine

section
variable {program : Memory} {start pos next : Nat}

theorem lt_of_searchEnd (h : searchEnd program start pos = .ok next) : pos < next := by
  fun_induction searchEnd program start pos with
  | case1 => cases h
  | case2 pos _ =>
    cases h
    exact Nat.lt_add_of_pos_right (Instr.width_pos _)
  | case3 pos _ i _ _ ih => exact Nat.lt_of_le_of_lt (Nat.le_add_right _ _) (ih h)
  | case4 => cases h

theorem lt_of_functionEnd (h : functionEnd program pos = .ok next) : pos + 1 < next := lt_of_searchEnd h

end

theorem onStack_ok {α : Type} {op : Stack.Op α} {m m' : Machine} {a : α}
    (h : onStack op m = .ok a m') :
    m'.ip = m.ip ∧ m'.mode = m.mode ∧ m'.halted = m.halted ∧ op m.stack = .ok a m'.stack := by
  unfold onStack at h
  split at h
  · injection h with h1 h2
    subst h1 h2
    simp_all
  · cases h

theorem bind_ok {σ α β : Type} {x : EStateM Fault σ α} {f : α → EStateM Fault σ β} {s s' : σ}
    {b : β} (h : (x >>= f) s = .ok b s') : ∃ a t, x s = .ok a t ∧ f a t = .ok b s' := by
  simp only [bind, EStateM.bind] at h
  split at h
  · exact ⟨_, _, ‹_›, h⟩
  · cases h

end Machine

namespace Stack

open Machine (bind_ok)

theorem floor_push {w : Word} {s s' : Stack} {u : Unit} (h : push w s = .ok u s') :
    s'.floor = s.floor := by
  unfold push at h
  split at h
  · cases h
  · injection h with _ h; subst h; rfl

theorem floor_pop {w : Word} {s s' : Stack} (h : pop s = .ok w s') : s'.floor = s.floor := by
  unfold pop at h
  split at h
  · cases h
  · injection h with _ h; subst h; rfl

theorem floor_read {o : Int32} {w : Word} {s s' : Stack} (h : read o s = .ok w s') :
    s'.floor = s.floor := by
  unfold read at h
  split at h
  · cases h
  · injection h with _ h; subst h; rfl

theorem floor_write {o : Int32} {w : Word} {s s' : Stack} {u : Unit} (h : write o w s = .ok u s') :
    s'.floor = s.floor := by
  unfold write at h
  split at h
  · cases h
  · injection h with _ h; subst h; rfl

theorem floor_reserve {n : Nat} {s s' : Stack} {u : Unit} (h : reserve n s = .ok u s') :
    s'.floor = s.floor := by
  unfold reserve at h
  split at h
  · injection h with _ h; subst h; rfl
  · cases h

theorem floor_restore {n : Nat} {s s' : Stack} {u : Unit} (h : restore n s = .ok u s') :
    s'.floor = s.floor := by
  unfold restore at h
  split at h
  · cases h
  · injection h with _ h; subst h; rfl

theorem floor_setupFrame {n : Int32} {s s' : Stack} {u : Unit} (h : setupFrame n s = .ok u s') :
    s'.floor = s.floor := by
  unfold setupFrame at h
  split at h
  · cases h
  · obtain ⟨_, _, h1, k1⟩ := bind_ok h
    obtain ⟨_, _, h2, k2⟩ := bind_ok k1
    obtain ⟨_, _, h3, k3⟩ := bind_ok k2
    cases h1
    cases h3
    have hr := floor_reserve k3
    have hp := floor_push h2
    exact hr.trans hp

theorem floor_popFrame {s s' : Stack} {u : Unit} (h : popFrame s = .ok u s') :
    s'.floor = s.floor := by
  unfold popFrame at h
  obtain ⟨_, _, h1, k1⟩ := bind_ok h
  obtain ⟨_, _, h2, k2⟩ := bind_ok k1
  cases h1
  have hr := floor_restore k2
  have hp := floor_pop h2
  exact hr.trans hp

end Stack

namespace Machine

def SamePlace (m m' : Machine) : Prop := m'.ip = m.ip ∧ m'.stack.floor = m.stack.floor

theorem SamePlace.trans {a b c : Machine} (h : SamePlace a b) (k : SamePlace b c) :
    SamePlace a c := ⟨k.1.trans h.1, k.2.trans h.2⟩

theorem samePlace_push {w : Word} {m m' : Machine} {u : Unit} (h : push w m = .ok u m') :
    SamePlace m m' := ⟨(onStack_ok h).1, Stack.floor_push (onStack_ok h).2.2.2⟩

theorem samePlace_pop {w : Word} {m m' : Machine} (h : pop m = .ok w m') :
    SamePlace m m' := ⟨(onStack_ok h).1, Stack.floor_pop (onStack_ok h).2.2.2⟩

theorem samePlace_read {o : Int32} {w : Word} {m m' : Machine} (h : read o m = .ok w m') :
    SamePlace m m' := ⟨(onStack_ok h).1, Stack.floor_read (onStack_ok h).2.2.2⟩

theorem samePlace_write {o : Int32} {w : Word} {m m' : Machine} {u : Unit}
    (h : write o w m = .ok u m') : SamePlace m m' :=
  ⟨(onStack_ok h).1, Stack.floor_write (onStack_ok h).2.2.2⟩

theorem orFault_ok {α : Type} {f : Fault} {o : Option α} {m m' : Machine} {a : α}
    (h : orFault f o m = .ok a m') : m' = m ∧ o = some a := by
  cases o <;> cases h
  exact ⟨rfl, rfl⟩

theorem orThrow_ok {α : Type} {x : Except Fault α} {m m' : Machine} {a : α}
    (h : orThrow x m = .ok a m') : m' = m ∧ x = .ok a := by
  cases x <;> cases h
  exact ⟨rfl, rfl⟩

/-- An instruction leaves the pointer behind itself, or moves it further. -/
theorem execute_ok {i : Instr} {pos : Nat} {m m' : Machine} {e : Option Effect}
    (h : execute i pos m = .ok e m') :
    (m'.ip = m.ip ∨ pos + 1 < m'.ip) ∧ m'.stack.floor = m.stack.floor := by
  suffices SamePlace m m' ∨ (pos + 1 < m'.ip ∧ m'.stack.floor = m.stack.floor) by
    rcases this with h | h
    · exact ⟨.inl h.1, h.2⟩
    · exact ⟨.inr h.1, h.2⟩
  cases i with
  | halt => cases h; exact .inl ⟨rfl, rfl⟩
  | mode ty => cases h; exact .inl ⟨rfl, rfl⟩
  | arith op =>
    obtain ⟨_, _, h1, k1⟩ := bind_ok h
    obtain ⟨_, _, h2, k2⟩ := bind_ok k1
    obtain ⟨_, _, h3, k3⟩ := bind_ok k2
    obtain ⟨_, _, h4, k4⟩ := bind_ok k3
    obtain ⟨_, _, h5, k5⟩ := bind_ok k4
    cases h3
    obtain ⟨rfl, -⟩ := orFault_ok h4
    cases k5
    exact .inl (((samePlace_pop h1).trans (samePlace_pop h2)).trans (samePlace_push h5))
  | pushImm w =>
    obtain ⟨_, _, h1, k1⟩ := bind_ok h
    cases k1
    exact .inl (samePlace_push h1)
  | pushVar o =>
    obtain ⟨_, _, h1, k1⟩ := bind_ok h
    obtain ⟨_, _, h2, k2⟩ := bind_ok k1
    cases k2
    exact .inl ((samePlace_read h1).trans (samePlace_push h2))
  | storeVar o =>
    obtain ⟨_, _, h1, k1⟩ := bind_ok h
    obtain ⟨_, _, h2, k2⟩ := bind_ok k1
    cases k2
    exact .inl ((samePlace_pop h1).trans (samePlace_write h2))
  | display o =>
    obtain ⟨_, _, h1, k1⟩ := bind_ok h
    cases k1
    exact .inl (samePlace_read h1)
  | setupFrame n =>
    obtain ⟨_, _, h1, k1⟩ := bind_ok h
    cases k1
    exact .inl ⟨(onStack_ok h1).1, Stack.floor_setupFrame (onStack_ok h1).2.2.2⟩
  | freeFrame =>
    obtain ⟨_, _, h1, k1⟩ := bind_ok h
    cases k1
    exact .inl ⟨(onStack_ok h1).1, Stack.floor_popFrame (onStack_ok h1).2.2.2⟩
  | startFunc =>
    obtain ⟨_, _, h1, k1⟩ := bind_ok h
    obtain ⟨_, _, h2, k2⟩ := bind_ok k1
    cases h1
    obtain ⟨rfl, hf⟩ := orThrow_ok h2
    cases k2
    exact .inr ⟨lt_of_functionEnd hf, rfl⟩
  | endFunc => cases h
  | call => cases h
  | move =>
    obtain ⟨_, _, h1, k1⟩ := bind_ok h
    obtain ⟨_, _, h2, k2⟩ := bind_ok k1
    cases k2
    exact .inl ((samePlace_pop h1).trans (samePlace_pop h2))
  | delay =>
    obtain ⟨_, _, h1, k1⟩ := bind_ok h
    obtain ⟨_, _, h2, k2⟩ := bind_ok k1
    obtain ⟨rfl, -⟩ := orFault_ok h2
    cases k2
    exact .inl (samePlace_pop h1)

/-- A successful step starts inside the program and moves the pointer forward. -/
theorem step_advances {m m' : Machine} {e : Option Effect} (h : step m = .ok e m') :
    m.ip < m.stack.floor ∧ m.ip < m'.ip ∧ m'.stack.floor = m.stack.floor := by
  unfold step at h
  split at h
  · cases h
  · rename_i i hd
    have hlt : m.ip < min m.stack.floor m.stack.memory.size := Instr.lt_size_of_decode hd
    have hw := i.width_pos
    obtain ⟨hip, hfl⟩ := execute_ok h
    refine ⟨by omega, ?_, hfl⟩
    rcases hip with hip | hip
    · have : m'.ip = m.ip + i.width := hip
      omega
    · omega

/-- The end of a run: the effects in order, the last state, and the fault if a step
failed. -/
structure Run where
  effects : List Effect
  machine : Machine
  fault : Option Fault

def run (m : Machine) : Run :=
  if m.halted then ⟨[], m, none⟩
  else
    match _h : step m with
    | .error f m' => ⟨[], m', some f⟩
    | .ok e m' =>
      let r := m'.run
      { r with effects := e.toList ++ r.effects }
termination_by m.stack.floor - m.ip
decreasing_by
  have := step_advances _h
  omega

end Machine
end Autoscript
