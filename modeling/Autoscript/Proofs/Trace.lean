import Autoscript.Machine.Journal
import Autoscript.Proofs.Codec
import Autoscript.Proofs.Intact
/-!
# Trace — a run reads what a listing shows

A run looks at its program through the instruction pointer and through the search for the end of a function; a listing
sweeps over it once.  Both are in step: wherever a successful step leads, a sweep from there *continues* the sweep from
where the step began (`continues_of_step`).  So the instructions of a run are found in order by the sweep, and what
cannot be decoded in a run is what ends the sweep, but for a run that falls off the end of the program.
-/
namespace Autoscript

open Machine (Fault)

/-! ## Sweeps that continue each other -/

/-- **A sweep from `next` continues one from `pos`**: it finds the rest of the instructions and ends in the same way. -/
structure Memory.Continues (p : Memory) (pos next : Nat) : Prop where
  code : (p.sweep next).code <:+ (p.sweep pos).code
  error : (p.sweep next).error = (p.sweep pos).error
  inside : next ≤ p.size

namespace Memory

variable {p : Memory} {bytes : List UInt8} {pos next : Nat}

theorem Continues.trans {last : Nat} (h : p.Continues pos next) (k : p.Continues next last) : p.Continues pos last :=
  ⟨k.code.trans h.code, k.error.trans h.error, k.inside⟩

theorem continues_of_decode (h : p.Spells bytes) {i : Instr} (hd : Instr.decode p pos = .ok i) :
    p.Continues pos (pos + i.width) := by
  refine ⟨?_, ?_, Instr.end_le_of_decode h hd⟩
  · rw [Program.sweep_of_decode hd]
    exact List.suffix_cons _ _
  · rw [Program.sweep_of_decode hd]

theorem continues_of_searchEnd (h : p.Spells bytes) {start : Nat} (hf : Machine.searchEnd p start pos = .ok next) :
    p.Continues pos next := by
  fun_induction Machine.searchEnd p start pos with
  | case1 => cases hf
  | case2 pos _ hd =>
    cases hf
    exact continues_of_decode h hd
  | case3 pos _ i hd _ ih => exact (continues_of_decode h hd).trans (ih hf)
  | case4 => cases hf

theorem error_of_searchEnd {start : Nat} {e : DecodeError} (hf : Machine.searchEnd p start pos = .error (.decode e)) :
    (p.sweep pos).error = some e := by
  fun_induction Machine.searchEnd p start pos with
  | case1 pos hlt e' hd =>
    cases hf
    rw [sweep, if_pos hlt, hd]
  | case2 => cases hf
  | case3 pos _ i hd _ ih =>
    rw [Program.sweep_of_decode hd]
    exact ih hf
  | case4 => cases hf

/-- **Where the search for the end of a function fails to decode, the sweep does.** -/
theorem error_of_functionEnd {e : DecodeError} (hd : Instr.decode p pos = .ok .startFunc)
    (hf : Machine.functionEnd p pos = .error (.decode e)) : (p.sweep pos).error = some e := by
  rw [Program.sweep_of_decode hd]
  exact error_of_searchEnd hf

end Memory

/-! ## Operations that stay where they are -/

section
variable {σ α β γ : Type} {place : σ → γ}

/-- **An operation stays at its place**: it does not move it where it succeeds, and a failure of it is none to decode. -/
def Stays (place : σ → γ) (x : EStateM Fault σ α) : Prop :=
  ∀ s, match x s with
    | .ok _ t => place t = place s
    | .error f _ => ∀ e, f ≠ .decode e

theorem stays_pure (a : α) : Stays place (pure a : EStateM Fault σ α) := fun _ => rfl

theorem stays_throw {f : Fault} (hf : ∀ e, f ≠ .decode e) : Stays place (throw f : EStateM Fault σ α) := fun _ => hf

theorem stays_get : Stays place (get : EStateM Fault σ σ) := fun _ => rfl

theorem stays_modify {g : σ → σ} (hg : ∀ s, place (g s) = place s) : Stays place (modify g : EStateM Fault σ PUnit) := hg

theorem stays_bind {x : EStateM Fault σ α} {f : α → EStateM Fault σ β} (hx : Stays place x) (hf : ∀ a, Stays place (f a)) :
    Stays place (x >>= f) := by
  intro s
  have h := hx s
  show match EStateM.bind x f s with | .ok _ t => place t = place s | .error f _ => ∀ e, f ≠ .decode e
  unfold EStateM.bind
  split at h
  · rename_i a t hxs
    have h2 := hf a t
    rw [hxs]
    split at h2
    · rename_i b u hfs
      simp only [hfs]
      exact h2.trans h
    · rename_i g u hfs
      simp only [hfs]
      exact h2
  · rename_i g t hxs
    simp only [hxs]
    exact h

end

namespace Stack

theorem stays_push (w : Word) : Stays floor (push w) := by
  intro s
  unfold push
  by_cases h : s.sp < s.floor + Word.size
  · rw [if_pos h]; intro e he; cases he
  · rw [if_neg h]

theorem stays_pop : Stays floor pop := by
  intro s
  unfold pop
  cases s.memory.word? s.sp with
  | none => intro e he; cases he
  | some w => rfl

theorem stays_reserve (n : Nat) : Stays floor (reserve n) := by
  intro s
  unfold reserve
  by_cases h : s.floor + n ≤ s.sp
  · rw [if_pos h]
  · rw [if_neg h]; intro e he; cases he

theorem stays_restore (saved : Nat) : Stays floor (restore saved) := by
  intro s
  unfold restore
  by_cases h : saved < s.floor ∨ s.memory.size < saved
  · rw [if_pos h]; intro e he; cases he
  · rw [if_neg h]

theorem stays_read (offset : Int32) : Stays floor (read offset) := by
  intro s
  unfold read
  cases s.address? offset with
  | none => intro e he; cases he
  | some pos => rfl

theorem stays_write (offset : Int32) (w : Word) : Stays floor (write offset w) := by
  intro s
  unfold write
  cases s.address? offset with
  | none => intro e he; cases he
  | some pos => rfl

theorem stays_setupFrame (size : Int32) : Stays floor (setupFrame size) := by
  unfold setupFrame
  split
  · exact stays_throw fun e he => by cases he
  · exact stays_bind stays_get fun s => stays_bind (stays_push _) fun _ =>
      stays_bind (stays_modify fun _ => rfl) fun _ => stays_reserve _

theorem stays_popFrame : Stays floor popFrame :=
  stays_bind (stays_modify fun _ => rfl) fun _ => stays_bind stays_pop fun _ => stays_restore _

end Stack

namespace Machine

theorem stays_onStack {α : Type} {op : Stack.Op α} (h : Stays Stack.floor op) : Stays ip (onStack op) := by
  intro m
  have hs := h m.stack
  unfold onStack
  cases ho : op m.stack with
  | ok a t => rfl
  | error f t =>
    rw [ho] at hs
    exact hs

theorem stays_orFault {α : Type} {f : Fault} (hf : ∀ e, f ≠ .decode e) (o : Option α) : Stays ip (orFault f o) := by
  cases o with
  | none => exact stays_throw hf
  | some a => exact stays_pure a

/-- **Only the start of a function moves the pointer and decodes**, among the instructions that are carried out. -/
theorem stays_execute {i : Instr} (hi : i ≠ .startFunc) (pos : Nat) : Stays ip (execute i pos) := by
  have hpush (w : Word) : Stays ip (push w) := stays_onStack (Stack.stays_push w)
  have hpop : Stays ip pop := stays_onStack Stack.stays_pop
  have hread (o : Int32) : Stays ip (read o) := stays_onStack (Stack.stays_read o)
  cases i with
  | startFunc => exact absurd rfl hi
  | halt => exact stays_bind (stays_modify fun _ => rfl) fun _ => stays_pure _
  | mode ty => exact stays_bind (stays_modify fun _ => rfl) fun _ => stays_pure _
  | arith op =>
    exact stays_bind hpop fun _ => stays_bind hpop fun _ => stays_bind stays_get fun _ =>
      stays_bind (stays_orFault (fun e he => by cases he) _) fun w => stays_bind (hpush w) fun _ => stays_pure _
  | pushImm w => exact stays_bind (hpush w) fun _ => stays_pure _
  | pushVar o => exact stays_bind (hread o) fun w => stays_bind (hpush w) fun _ => stays_pure _
  | storeVar o =>
    exact stays_bind hpop fun w => stays_bind (stays_onStack (Stack.stays_write o w)) fun _ => stays_pure _
  | display o => exact stays_bind (hread o) fun _ => stays_bind stays_get fun _ => stays_pure _
  | setupFrame n => exact stays_bind (stays_onStack (Stack.stays_setupFrame n)) fun _ => stays_pure _
  | freeFrame => exact stays_bind (stays_onStack Stack.stays_popFrame) fun _ => stays_pure _
  | endFunc => exact stays_throw fun e he => by cases he
  | call => exact stays_throw fun e he => by cases he
  | move => exact stays_bind hpop fun _ => stays_bind hpop fun _ => stays_pure _
  | delay =>
    exact stays_bind hpop fun _ => stays_bind (stays_orFault (fun e he => by cases he) _) fun _ => stays_pure _

theorem execute_startFunc (pos : Nat) (m : Machine) : execute .startFunc pos m =
    match functionEnd m.program pos with
    | .ok next => .ok none { m with ip := next }
    | .error f => .error f m := by
  show (orThrow (functionEnd m.program pos) >>= _) m = _
  cases functionEnd m.program pos <;> rfl

/-! ## Steps -/

/-- **Where a successful step leads**: behind its instruction, or behind the function that the instruction starts. -/
theorem step_ok {m m' : Machine} {e : Option Effect} (h : step m = .ok e m') :
    ∃ i, Instr.decode m.program m.ip = .ok i ∧
      (m'.ip = m.ip + i.width ∨ (i = .startFunc ∧ functionEnd m.program m.ip = .ok m'.ip)) := by
  unfold step at h
  split at h
  · cases h
  · rename_i i hd
    refine ⟨i, hd, ?_⟩
    by_cases hi : i = .startFunc
    · subst hi
      rw [execute_startFunc] at h
      split at h
      · rename_i next hf
        cases h
        exact .inr ⟨rfl, hf⟩
      · cases h
    · have hs := stays_execute hi m.ip { m with ip := m.ip + i.width }
      rw [h] at hs
      exact .inl hs

/-- **Where a step fails to decode**: at its own instruction, or in the function that the instruction starts. -/
theorem step_decode {m m' : Machine} {e : DecodeError} (h : step m = .error (.decode e) m') :
    Instr.decode m.program m.ip = .error e ∨
      (Instr.decode m.program m.ip = .ok .startFunc ∧ functionEnd m.program m.ip = .error (.decode e)) := by
  unfold step at h
  split at h
  · rename_i e' hd
    cases h
    exact .inl hd
  · rename_i i hd
    by_cases hi : i = .startFunc
    · subst hi
      rw [execute_startFunc] at h
      split at h
      · cases h
      · rename_i f hf
        cases h
        exact .inr ⟨hd, hf⟩
    · have hs := stays_execute hi m.ip { m with ip := m.ip + i.width }
      rw [h] at hs
      exact absurd rfl (hs e)

variable {program : List UInt8} {budget : Nat} {m m' : Machine}

theorem Intact.decode (h : Intact program budget m) (pos : Nat) :
    Instr.decode m.program pos = Instr.decode (Program.image program) pos :=
  Memory.Spells.decode_congr (Stack.Intact.spells h) (Program.spells_image program) pos

theorem Intact.functionEnd (h : Intact program budget m) (pos : Nat) :
    functionEnd m.program pos = Machine.functionEnd (Program.image program) pos :=
  Memory.Spells.searchEnd_congr (Stack.Intact.spells h) (Program.spells_image program) pos _

/-- **A sweep from where a step leads continues the one from behind its instruction.** -/
theorem continues_of_step (h : Intact program budget m) {e : Option Effect} (hs : step m = .ok e m') :
    ∃ i, Instr.decode (Program.image program) m.ip = .ok i ∧
      (Program.image program).Continues (m.ip + i.width) m'.ip := by
  have hp := Program.spells_image program
  obtain ⟨i, hd, hip⟩ := step_ok hs
  rw [h.decode] at hd
  refine ⟨i, hd, ?_⟩
  rcases hip with hip | ⟨rfl, hf⟩
  · rw [hip]
    exact ⟨List.suffix_refl _, rfl, Instr.end_le_of_decode hp hd⟩
  · rw [h.functionEnd] at hf
    exact Memory.continues_of_searchEnd hp hf

theorem intact_of_step (hb : budget < 0x100000000) (h : Intact program budget m) {e : Option Effect}
    (hs : step m = .ok e m') : Intact program budget m' := by
  have hk := keeps_step hb m h
  rw [hs] at hk
  exact hk

/-! ## Runs -/

/-- The instruction that a machine is about to carry out, with its position. -/
def fetched? (m : Machine) : Option (Nat × Instr) :=
  match Instr.decode m.program m.ip with
  | .ok i => some (m.ip, i)
  | .error _ => none

/-- **The instructions that a run carries out**, each with its position; the last one may fail. -/
def executed (m : Machine) : List (Nat × Instr) := m.history.filterMap fetched?

theorem fetched_of_decode {i : Instr} (h : Intact program budget m)
    (hd : Instr.decode (Program.image program) m.ip = .ok i) : m.fetched? = some (m.ip, i) := by
  rw [← h.decode] at hd
  unfold fetched?
  rw [hd]

theorem executed_sublist (hb : budget < 0x100000000) (h : Intact program budget m) :
    m.executed.Sublist ((Program.image program).sweep m.ip).code := by
  unfold executed
  fun_induction history m with
  | case1 => exact List.nil_sublist _
  | case2 m _ f m' hs =>
    cases hd : Instr.decode (Program.image program) m.ip with
    | error e =>
      have hnone : m.fetched? = none := by
        unfold fetched?
        rw [h.decode, hd]
      rw [List.filterMap_cons, hnone]
      exact List.nil_sublist _
    | ok i =>
      rw [List.filterMap_cons, fetched_of_decode h hd, Program.sweep_of_decode hd]
      exact List.Sublist.cons_cons _ (List.nil_sublist _)
  | case3 m _ e m' hs ih =>
    obtain ⟨i, hd, hc⟩ := continues_of_step h hs
    rw [List.filterMap_cons, fetched_of_decode h hd, Program.sweep_of_decode hd]
    exact List.Sublist.cons_cons _ ((ih (intact_of_step hb h hs)).trans hc.code.sublist)

theorem error_of_run (hb : budget < 0x100000000) (h : Intact program budget m) (hip : m.ip ≤ program.length)
    {e : DecodeError} (hf : m.run.fault = some (.decode e)) :
    ((Program.image program).sweep m.ip).error = some e ∨
      (((Program.image program).sweep m.ip).error = none ∧ e = .endOfProgram program.length) := by
  have hsize := (Program.spells_image program).size
  fun_induction run m with
  | case1 => cases hf
  | case2 m _ f m' hs =>
    cases hf
    rcases step_decode hs with hd | ⟨hd, hfun⟩
    · rw [h.decode] at hd
      by_cases hlt : m.ip < (Program.image program).size
      · rw [Memory.sweep, if_pos hlt, hd]
        exact .inl rfl
      · have hend : m.ip = program.length := by omega
        have hnone : (Program.image program).get? m.ip = none := if_neg hlt
        unfold Instr.decode at hd
        rw [hnone] at hd
        cases hd
        rw [Memory.sweep, if_neg hlt, hend]
        exact .inr ⟨rfl, rfl⟩
    · rw [h.decode] at hd
      rw [h.functionEnd] at hfun
      exact .inl (Memory.error_of_functionEnd hd hfun)
  | case3 m _ e' m' hs r ih =>
    obtain ⟨i, hd, hnext⟩ := continues_of_step h hs
    have hc := (Memory.continues_of_decode (Program.spells_image program) hd).trans hnext
    rw [← hc.error]
    exact ih (intact_of_step hb h hs) (by rw [← hsize]; exact hc.inside) hf

theorem header_of_load (h : load program budget = .ok m) : Program.headerSize ≤ program.length := by
  unfold load at h
  match program with
  | [] | [_] | [_, _] | [_, _, _] => cases h
  | _ :: _ :: _ :: _ :: rest => exact Nat.le_add_left 4 rest.length

/-- **The machine and the listing read the same program.**  The instructions that a run carries out are in order among
those that a sweep finds; and a run that ends because something cannot be decoded has met what the listing fails at, or
has run past the end of a program that can be listed. -/
theorem executed_among_listed (h : load program budget = .ok m) :
    m.executed.Sublist ((Program.image program).sweep Program.headerSize).code ∧
      ∀ e, m.run.fault = some (.decode e) → Program.instructions program = .error e ∨
        ((∃ listing, Program.instructions program = .ok listing) ∧ e = .endOfProgram program.length) := by
  have hb := (load_ok h).2.1
  have hi := intact_of_load h
  have hip : m.ip = Program.headerSize := by rw [(load_ok h).2.2]
  have hl := header_of_load h
  refine ⟨?_, fun e hf => ?_⟩
  · rw [← hip]
    exact executed_sublist hb hi
  · have herr := error_of_run hb hi (by rw [hip]; exact hl) hf
    rw [hip] at herr
    rw [Program.instructions_of_header hl]
    rcases herr with he | ⟨he, rfl⟩
    · rw [he]
      exact .inl rfl
    · rw [he]
      exact .inr ⟨⟨_, rfl⟩, rfl⟩

/-- A function whose operands look like its end is passed over, and the operand of a later instruction is cut off. -/
theorem executed_among_listed_of_cut_program :
    ∃ m, load [1, 0, 0, 0, 8, 3, 9, 9, 9, 9, 9, 6, 2, 1, 0] 40 = .ok m ∧
      m.executed = [(4, .startFunc), (11, .mode .int)] ∧
      m.executed.Sublist
        ((Program.image [1, 0, 0, 0, 8, 3, 9, 9, 9, 9, 9, 6, 2, 1, 0]).sweep Program.headerSize).code ∧
      m.run.fault = some (.decode (.truncatedOperand .pushVar 12)) ∧
      Program.instructions [1, 0, 0, 0, 8, 3, 9, 9, 9, 9, 9, 6, 2, 1, 0] = .error (.truncatedOperand .pushVar 12) := by
  obtain ⟨hsub, hlist⟩ := executed_among_listed
    (rfl : load [1, 0, 0, 0, 8, 3, 9, 9, 9, 9, 9, 6, 2, 1, 0] 40 = .ok _)
  have hfault : (⟨.ofMemory (.ofBytes 40 [1, 0, 0, 0, 8, 3, 9, 9, 9, 9, 9, 6, 2, 1, 0]) 15, .int, 4, false⟩ :
      Machine).run.fault = some (.decode (.truncatedOperand .pushVar 12)) := by decide +kernel
  refine ⟨_, rfl, by decide +kernel, hsub, hfault, ?_⟩
  rcases hlist _ hfault with he | ⟨-, he⟩
  · exact he
  · cases he

end Machine
end Autoscript
