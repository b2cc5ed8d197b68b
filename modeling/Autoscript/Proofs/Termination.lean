import Autoscript.Proofs.Trace
/-!
# Termination — every run ends

Neither the loop of a run nor the search for the end of a function has a bound of its own.  `Runs` and `Searches` are these
two loops as relations, in which nothing says that they end: a derivation is one finite course of the loop.  They have one
from everywhere, because a step and a look both move forward and both need a byte of the program to go on.
-/
namespace Autoscript.Machine

/-! ## The loop of a run -/

/-- **The loop of a run**: the states in which a step is taken, and the end of the run. -/
inductive Runs : Machine → List Machine → Run → Prop where
  | halted {m : Machine} : m.halted = true → Runs m [] ⟨[], m, none⟩
  | fault {m m' : Machine} {f : Fault} : m.halted = false → step m = .error f m' → Runs m [m] ⟨[], m', some f⟩
  | step {m m' : Machine} {e : Option Effect} {calls : List Machine} {r : Run} : m.halted = false → step m = .ok e m' →
      Runs m' calls r → Runs m (m :: calls) { r with effects := e.toList ++ r.effects }

def succeeds (m : Machine) : Bool :=
  match step m with
  | .ok _ _ => true
  | .error _ _ => false

theorem runs_history (m : Machine) : Runs m m.history m.run := by
  fun_induction history m with
  | case1 m hm =>
    rw [run, if_pos hm]
    exact .halted hm
  | case2 m hm f m' hs =>
    rw [run, if_neg hm]
    split
    · rename_i hs'
      cases hs.symm.trans hs'
      exact .fault (Bool.eq_false_iff.2 hm) hs
    · rename_i hs'
      cases hs.symm.trans hs'
  | case3 m hm e m' hs ih =>
    rw [run, if_neg hm]
    split
    · rename_i hs'
      cases hs.symm.trans hs'
    · rename_i hs'
      cases hs.symm.trans hs'
      exact .step (Bool.eq_false_iff.2 hm) hs ih

namespace Runs

variable {m : Machine} {calls : List Machine} {r : Run} (h : Runs m calls r)
include h

theorem ip_le : ∀ a ∈ calls, m.ip ≤ a.ip := by
  induction h with
  | halted => intro a ha; cases ha
  | fault =>
    intro a ha
    exact Nat.le_of_eq (congrArg ip (List.mem_singleton.1 ha).symm)
  | step _ hs _ ih =>
    intro a ha
    rcases List.mem_cons.1 ha with rfl | ha
    · exact Nat.le_refl _
    · exact Nat.le_trans (Nat.le_of_lt (step_advances hs).2.1) (ih a ha)

theorem pairwise : (calls.map ip).Pairwise (· < ·) := by
  induction h with
  | halted => exact .nil
  | fault => exact List.pairwise_singleton _ _
  | step _ hs hr ih =>
    refine .cons (fun pos hpos => ?_) ih
    obtain ⟨a, ha, rfl⟩ := List.mem_map.1 hpos
    exact Nat.lt_of_lt_of_le (step_advances hs).2.1 (hr.ip_le a ha)

/-- **A run takes at most one step for each byte ahead, and one that fails.** -/
theorem length_le : calls.length ≤ m.stack.floor - m.ip + 1 := by
  induction h with
  | halted => exact Nat.zero_le _
  | fault => exact Nat.le_add_left 1 _
  | step _ hs _ ih =>
    obtain ⟨hin, hip, hfloor⟩ := step_advances hs
    rw [hfloor] at ih
    rw [List.length_cons]
    omega

theorem halted_or_fault : (r.fault = none ∧ r.machine.halted = true) ∨ ∃ f, r.fault = some f := by
  induction h with
  | halted hm => exact .inl ⟨rfl, hm⟩
  | fault => exact .inr ⟨_, rfl⟩
  | step _ _ _ ih => exact ih

theorem effects : r.effects = calls.filterMap stepEffect := by
  induction h with
  | halted => rfl
  | fault _ hs => simp [stepEffect, hs]
  | @step m m' e calls r _ hs _ ih => cases e <;> simp [stepEffect, hs, ih]

theorem length_effects_le : r.effects.length ≤ calls.countP succeeds := by
  induction h with
  | halted => exact Nat.zero_le _
  | fault => exact Nat.zero_le _
  | @step m m' e calls r _ hs _ ih =>
    have hm : succeeds m = true := by simp [succeeds, hs]
    rw [List.countP_cons_of_pos hm, List.length_append]
    cases e <;> simp <;> omega

end Runs

/-! ## The end of a function -/

/-- **The search for the end of a function** from a position on: the positions at which it reads an instruction, and its
answer. -/
inductive Searches (p : Memory) (start : Nat) : Nat → List Nat → Except Fault Nat → Prop where
  | past {pos : Nat} : ¬ pos < p.size → Searches p start pos [] (.error (.unterminatedFunction start))
  | fault {pos : Nat} {e : DecodeError} : pos < p.size → Instr.decode p pos = .error e →
      Searches p start pos [pos] (.error (.decode e))
  | found {pos : Nat} : pos < p.size → Instr.decode p pos = .ok .endFunc →
      Searches p start pos [pos] (.ok (pos + Instr.endFunc.width))
  | next {pos : Nat} {i : Instr} {looks : List Nat} {answer : Except Fault Nat} : pos < p.size →
      Instr.decode p pos = .ok i → i ≠ .endFunc → Searches p start (pos + i.width) looks answer →
      Searches p start pos (pos :: looks) answer

/-- **A search ends**, after one look for each byte ahead at most. -/
theorem searches_searchEnd (p : Memory) (start pos : Nat) :
    ∃ looks, Searches p start pos looks (searchEnd p start pos) ∧ looks.length ≤ p.size - pos := by
  fun_induction searchEnd p start pos with
  | case1 pos hlt e hd => exact ⟨[pos], .fault hlt hd, by simp; omega⟩
  | case2 pos hlt hd => exact ⟨[pos], .found hlt hd, by simp; omega⟩
  | case3 pos hlt i hd hi ih =>
    obtain ⟨looks, hs, hl⟩ := ih
    have hw := i.width_pos
    exact ⟨pos :: looks, .next hlt hd hi hs, by rw [List.length_cons]; omega⟩
  | case4 pos hlt => exact ⟨[], .past hlt, Nat.zero_le _⟩

/-! ## Loaded programs -/

variable {program : List UInt8} {budget : Nat} {m : Machine}

/-- **Every run ends.**  A step that succeeds moves the pointer forward, so no position is stepped on twice and the loop of
a run has a finite course, with at most one step for each byte behind the header and one more; it ends with a halt or a
fault.  The search for the end of a function has one as well, in any memory and from anywhere.  Each step that succeeds has
at most one effect, and no other step has any. -/
theorem every_run_ends (h : load program budget = .ok m) :
    (∀ a e a', step a = .ok e a' → a.ip < a'.ip) ∧
    Runs m m.history m.run ∧ (m.history.map ip).Pairwise (· < ·) ∧
    m.history.length ≤ program.length - Program.headerSize + 1 ∧
    ((m.run.fault = none ∧ m.run.machine.halted = true) ∨ ∃ f, m.run.fault = some f) ∧
    (∀ p pos, ∃ looks, Searches p pos (pos + Opcode.startFunc.width) looks (functionEnd p pos) ∧
      looks.length ≤ p.size - (pos + Opcode.startFunc.width)) ∧
    m.run.effects = m.history.filterMap stepEffect ∧ m.run.effects.length ≤ m.history.countP succeeds := by
  have hr := runs_history m
  have hle := hr.length_le
  obtain ⟨-, -, rfl⟩ := load_ok h
  exact ⟨fun a e a' hs => (step_advances hs).2.1, hr, hr.pairwise, hle, hr.halted_or_fault,
    fun p pos => searches_searchEnd p pos _, hr.effects, hr.length_effects_le⟩

/-- A function without an end behind a shown variable. -/
theorem every_run_ends_of_open_function : ∃ m, load [1, 0, 0, 0, 0x0B, 4, 0, 0, 0, 8, 6, 3, 9] 40 = .ok m ∧
    m.history.length ≤ 10 ∧ m.run.effects.length ≤ m.history.countP succeeds ∧
    (∃ looks, Searches m.program 9 10 looks (functionEnd m.program 9)) ∧
    m.run.fault = some (.decode (.truncatedOperand .pushImm 11)) := by
  obtain ⟨-, -, -, hl, -, hs, -, he⟩ :=
    every_run_ends (rfl : load [1, 0, 0, 0, 0x0B, 4, 0, 0, 0, 8, 6, 3, 9] 40 = .ok _)
  obtain ⟨looks, hlooks, -⟩ := hs (Memory.ofBytes 40 [1, 0, 0, 0, 0x0B, 4, 0, 0, 0, 8, 6, 3, 9] |>.take 13) 9
  exact ⟨_, rfl, hl, he, ⟨looks, hlooks⟩, by decide +kernel⟩

end Autoscript.Machine
