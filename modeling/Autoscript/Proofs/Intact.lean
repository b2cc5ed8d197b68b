import Autoscript.Machine.Load
import Autoscript.Machine.Run
import Autoscript.Proofs.Image
/-!
# Intact — no bytecode reaches its own image

Bytecode chooses frame sizes, offsets and, through the memory, the base pointer that a frame gives back.  Whatever it
chooses, both pointers stay between the end of the program and the end of the memory, and the program keeps its bytes.
A call that fails can have moved a pointer already, so an operation *keeps* a condition only if the state it leaves
satisfies it in either outcome (`Keeps`); sequences keep what their parts keep, and from there on it is one lemma for
each primitive of the stack.
-/
namespace Autoscript

open Machine (Fault)

/-! ## Operations that keep a condition -/

section
variable {σ α β : Type} {P : σ → Prop}

def endState : EStateM.Result Fault σ α → σ
  | .ok _ s => s
  | .error _ s => s

/-- **An operation keeps a condition**, also where it fails. -/
def Keeps (P : σ → Prop) (x : EStateM Fault σ α) : Prop := ∀ s, P s → P (endState (x s))

theorem keeps_pure (a : α) : Keeps P (pure a : EStateM Fault σ α) := fun _ h => h

theorem keeps_throw (f : Fault) : Keeps P (throw f : EStateM Fault σ α) := fun _ h => h

theorem keeps_get : Keeps P (get : EStateM Fault σ σ) := fun _ h => h

theorem keeps_modify {g : σ → σ} (hg : ∀ s, P s → P (g s)) : Keeps P (modify g : EStateM Fault σ PUnit) := hg

theorem keeps_bind {x : EStateM Fault σ α} {f : α → EStateM Fault σ β} (hx : Keeps P x) (hf : ∀ a, Keeps P (f a)) :
    Keeps P (x >>= f) := by
  intro s hs
  have h := hx s hs
  show P (endState (EStateM.bind x f s))
  unfold EStateM.bind
  split
  · rename_i a t hxs
    rw [hxs] at h
    exact hf a t h
  · rename_i e t hxs
    rw [hxs] at h
    exact h

end

/-! ## The stack -/

theorem Memory.slice_setWord {m : Memory} {i first stop : Nat} (h : stop ≤ i) (w : Word) :
    (m.setWord i w).slice first stop = m.slice first stop := by
  unfold Memory.slice
  refine List.map_congr_left fun k hk => ?_
  have hlt : k < stop - first := List.mem_range.1 hk
  exact Memory.byte_setWord_of_outside m i _ w (.inl (by omega))

theorem Memory.slice_ofBytes (size : Nat) (bytes : List UInt8) :
    (Memory.ofBytes size bytes).slice 0 bytes.length = bytes := by
  refine List.ext_getElem (by simp [Memory.slice]) fun k h1 h2 => ?_
  simp [Memory.slice, Memory.ofBytes, h2]

namespace Stack

/-- **A stack above an intact program**: both pointers lie between the end of the program and that of the memory. -/
structure Intact (program : List UInt8) (budget : Nat) (s : Stack) : Prop where
  floor : s.floor = program.length
  size : s.memory.size = budget
  sp_low : program.length ≤ s.sp
  sp_high : s.sp ≤ budget
  bp_low : program.length ≤ s.bp
  bp_high : s.bp ≤ budget
  image : s.memory.slice 0 program.length = program

variable {program : List UInt8} {budget : Nat}

namespace Intact

variable {s : Stack}

theorem setWord (h : Intact program budget s) {pos : Nat} (hp : program.length ≤ pos) (w : Word) :
    Intact program budget { s with memory := s.memory.setWord pos w } :=
  { h with image := by rw [Memory.slice_setWord hp]; exact h.image }

theorem setSp (h : Intact program budget s) {sp : Nat} (hl : program.length ≤ sp) (hh : sp ≤ budget) :
    Intact program budget { s with sp } := { h with sp_low := hl, sp_high := hh }

theorem setBp (h : Intact program budget s) {bp : Nat} (hl : program.length ≤ bp) (hh : bp ≤ budget) :
    Intact program budget { s with bp } := { h with bp_low := hl, bp_high := hh }

theorem lowest (h : Intact program budget s) (hb : budget < 0x100000000) : s.lowest = s.floor := by
  have hf := h.floor
  have hl := h.sp_low
  have hh := h.sp_high
  exact if_pos (by omega)

theorem address_bounds (h : Intact program budget s) (hb : budget < 0x100000000) {offset : Int32} {pos : Nat}
    (ha : s.address? offset = some pos) : program.length ≤ pos ∧ pos + Word.size ≤ budget := by
  have hf := h.floor
  have hs := h.size
  -- a floor below `2 ^ 63` is the same as a signed number
  have hlow := h.lowest hb
  unfold address? at ha
  simp only [hlow] at ha
  split at ha
  · cases ha
  · simp only [Option.some.injEq] at ha
    omega

end Intact

theorem keeps_push (w : Word) : Keeps (Intact program budget) (push w) := by
  intro s h
  have hf := h.floor
  have hh := h.sp_high
  unfold push
  split
  · exact h
  · have hl : program.length ≤ s.sp - Word.size := by omega
    exact (h.setWord hl w).setSp hl (by omega)

theorem keeps_pop : Keeps (Intact program budget) pop := by
  intro s h
  have hl := h.sp_low
  unfold pop
  split
  · exact h
  · rename_i w hw
    have hs : s.sp + Word.size ≤ s.memory.size := by
      unfold Memory.word? at hw
      split at hw
      · assumption
      · cases hw
    exact h.setSp (by omega) (h.size ▸ hs)

theorem keeps_reserve (n : Nat) : Keeps (Intact program budget) (reserve n) := by
  intro s h
  have hf := h.floor
  have hh := h.sp_high
  unfold reserve
  split
  · exact h.setSp (by omega) (by omega)
  · exact h

theorem keeps_restore (saved : Nat) : Keeps (Intact program budget) (restore saved) := by
  intro s h
  have hf := h.floor
  have hs := h.size
  unfold restore
  split
  · exact h
  · exact h.setBp (by omega) (by omega)

/-- Where there is no room for the variables the frame has been started all the same. -/
theorem keeps_setupFrame (size : Int32) : Keeps (Intact program budget) (setupFrame size) := by
  unfold setupFrame
  split
  · exact keeps_throw _
  · refine keeps_bind keeps_get fun s => keeps_bind (keeps_push _) fun _ => keeps_bind ?_ fun _ => keeps_reserve _
    exact keeps_modify fun s h => h.setBp h.sp_low h.sp_high

/-- Where the saved word is no base pointer the frame has been dropped all the same. -/
theorem keeps_popFrame : Keeps (Intact program budget) popFrame := by
  unfold popFrame
  refine keeps_bind ?_ fun _ => keeps_bind keeps_pop fun w => keeps_restore _
  exact keeps_modify fun s h => h.setSp h.bp_low h.bp_high

theorem keeps_read (offset : Int32) : Keeps (Intact program budget) (read offset) := by
  intro s h
  unfold read
  split <;> exact h

theorem keeps_write (hb : budget < 0x100000000) (offset : Int32) (w : Word) :
    Keeps (Intact program budget) (write offset w) := by
  intro s h
  unfold write
  split
  · exact h
  · rename_i pos ha
    exact h.setWord (h.address_bounds hb ha).1 w

/-- **The slices that the stack takes** are in range: the program, the words pushed and popped, and the variables. -/
structure InRange (s : Stack) : Prop where
  program : s.floor ≤ s.memory.size
  push : ∀ w s', push w s = .ok () s' →
    s.floor ≤ s'.sp ∧ s'.sp + Word.size ≤ s.memory.size ∧ s'.memory = s.memory.setWord s'.sp w
  pop : ∀ w s', pop s = .ok w s' → s.floor ≤ s.sp ∧ s.sp + Word.size ≤ s.memory.size ∧ w = s.memory.word s.sp
  vars : ∀ offset pos, s.address? offset = some pos → s.floor ≤ pos ∧ pos + Word.size ≤ s.memory.size

theorem Intact.inRange {s : Stack} (h : Intact program budget s) (hb : budget < 0x100000000) : InRange s := by
  have hf := h.floor
  have hs := h.size
  have hl := h.sp_low
  have hh := h.sp_high
  refine ⟨by omega, fun w s' hp => ?_, fun w s' hp => ?_, fun offset pos ha => ?_⟩
  · unfold Stack.push at hp
    split at hp
    · cases hp
    · cases hp
      have hw : 0 < Word.size := by decide
      refine ⟨?_, ?_, rfl⟩
      · show s.floor ≤ s.sp - Word.size
        omega
      · show s.sp - Word.size + Word.size ≤ s.memory.size
        omega
  · unfold Stack.pop Memory.word? at hp
    split at hp
    · cases hp
    · rename_i v hv
      cases hp
      split at hv
      · cases hv
        exact ⟨by omega, by assumption, rfl⟩
      · cases hv
  · rw [hf, hs]
    exact h.address_bounds hb ha

theorem Intact.spells {s : Stack} (h : s.Intact program budget) :
    (s.memory.take s.floor).Spells program := by
  have hle := Nat.le_trans h.sp_low h.sp_high
  intro i
  rw [Memory.get?, Memory.size_take, h.floor, h.size, Nat.min_eq_left hle]
  by_cases hi : i < program.length
  · have hslice : (s.memory.slice 0 program.length)[i]? = some (s.memory.byte i) := by simp [Memory.slice, hi]
    rw [h.image] at hslice
    rw [if_pos hi, hslice]
    rfl
  · rw [if_neg hi, List.getElem?_eq_none (by omega)]

end Stack

/-! ## The machine -/

namespace Machine

variable {program : List UInt8} {budget : Nat}

def Intact (program : List UInt8) (budget : Nat) (m : Machine) : Prop := m.stack.Intact program budget

theorem keeps_onStack {α : Type} {op : Stack.Op α} (h : Keeps (Stack.Intact program budget) op) :
    Keeps (Intact program budget) (onStack op) := by
  intro m hm
  have hs := h m.stack hm
  unfold onStack
  split
  · rename_i a t ht
    rw [ht] at hs
    exact hs
  · rename_i f t ht
    rw [ht] at hs
    exact hs

theorem keeps_orFault {α : Type} (f : Fault) (o : Option α) : Keeps (Intact program budget) (orFault f o) := by
  cases o with
  | none => exact keeps_throw f
  | some a => exact keeps_pure a

theorem keeps_orThrow {α : Type} (x : Except Fault α) : Keeps (Intact program budget) (orThrow x) := by
  cases x with
  | error f => exact keeps_throw f
  | ok a => exact keeps_pure a

/-- **No instruction touches the program**, wherever it stands and however it ends. -/
theorem keeps_execute (hb : budget < 0x100000000) (i : Instr) (pos : Nat) : Keeps (Intact program budget) (execute i pos) := by
  have hpush (w : Word) : Keeps (Intact program budget) (push w) := keeps_onStack (Stack.keeps_push w)
  have hpop : Keeps (Intact program budget) pop := keeps_onStack Stack.keeps_pop
  have hread (o : Int32) : Keeps (Intact program budget) (read o) := keeps_onStack (Stack.keeps_read o)
  have hwrite (o : Int32) (w : Word) : Keeps (Intact program budget) (write o w) :=
    keeps_onStack (Stack.keeps_write hb o w)
  cases i with
  | halt => exact keeps_bind (keeps_modify fun _ h => h) fun _ => keeps_pure _
  | mode ty => exact keeps_bind (keeps_modify fun _ h => h) fun _ => keeps_pure _
  | arith op =>
    exact keeps_bind hpop fun _ => keeps_bind hpop fun _ => keeps_bind keeps_get fun _ =>
      keeps_bind (keeps_orFault _ _) fun w => keeps_bind (hpush w) fun _ => keeps_pure _
  | pushImm w => exact keeps_bind (hpush w) fun _ => keeps_pure _
  | pushVar o => exact keeps_bind (hread o) fun w => keeps_bind (hpush w) fun _ => keeps_pure _
  | storeVar o => exact keeps_bind hpop fun w => keeps_bind (hwrite o w) fun _ => keeps_pure _
  | display o => exact keeps_bind (hread o) fun _ => keeps_bind keeps_get fun _ => keeps_pure _
  | setupFrame n => exact keeps_bind (keeps_onStack (Stack.keeps_setupFrame n)) fun _ => keeps_pure _
  | freeFrame => exact keeps_bind (keeps_onStack Stack.keeps_popFrame) fun _ => keeps_pure _
  | startFunc =>
    exact keeps_bind keeps_get fun _ => keeps_bind (keeps_orThrow _) fun _ =>
      keeps_bind (keeps_modify fun _ h => h) fun _ => keeps_pure _
  | endFunc => exact keeps_throw _
  | call => exact keeps_throw _
  | move => exact keeps_bind hpop fun _ => keeps_bind hpop fun _ => keeps_pure _
  | delay => exact keeps_bind hpop fun _ => keeps_bind (keeps_orFault _ _) fun _ => keeps_pure _

theorem keeps_step (hb : budget < 0x100000000) : Keeps (Intact program budget) step := by
  intro m h
  unfold step
  split
  · exact h
  · rename_i i _
    exact keeps_execute hb i m.ip { m with ip := m.ip + i.width } h

theorem intact_run (hb : budget < 0x100000000) {m : Machine} (h : Intact program budget m) :
    Intact program budget m.run.machine := by
  fun_induction run m with
  | case1 => exact h
  | case2 m _ f m' hs =>
    have hk := keeps_step hb m h
    rw [hs] at hk
    exact hk
  | case3 m _ e m' hs r ih =>
    have hk := keeps_step hb m h
    rw [hs] at hk
    exact ih hk

/-- What can be asked of a machine from outside: its own operations and those of its stack, with any arguments. -/
inductive Action where
  | step
  | interpret
  | setIp (ip : Nat)
  | setMode (mode : Ty)
  | push (w : Word)
  | pop
  | setupFrame (size : Int32)
  | popFrame
  | read (offset : Int32)
  | write (offset : Int32) (w : Word)

/-- The machine after an action, whether or not it failed. -/
def perform (m : Machine) : Action → Machine
  | .step => endState (step m)
  | .interpret => m.run.machine
  | .setIp ip => { m with ip }
  | .setMode mode => { m with mode }
  | .push w => endState (push w m)
  | .pop => endState (pop m)
  | .setupFrame size => endState (onStack (Stack.setupFrame size) m)
  | .popFrame => endState (onStack Stack.popFrame m)
  | .read offset => endState (read offset m)
  | .write offset w => endState (write offset w m)

theorem intact_perform (hb : budget < 0x100000000) {m : Machine} (h : Intact program budget m) :
    ∀ a : Action, Intact program budget (m.perform a)
  | .step => keeps_step hb m h
  | .interpret => intact_run hb h
  | .setIp _ => h
  | .setMode _ => h
  | .push w => keeps_onStack (Stack.keeps_push w) m h
  | .pop => keeps_onStack Stack.keeps_pop m h
  | .setupFrame size => keeps_onStack (Stack.keeps_setupFrame size) m h
  | .popFrame => keeps_onStack Stack.keeps_popFrame m h
  | .read offset => keeps_onStack (Stack.keeps_read offset) m h
  | .write offset w => keeps_onStack (Stack.keeps_write hb offset w) m h

theorem intact_performAll (hb : budget < 0x100000000) : ∀ (actions : List Action) {m : Machine}, Intact program budget m →
    Intact program budget (actions.foldl perform m)
  | [], _, h => h
  | a :: actions, _, h => intact_performAll hb actions (intact_perform hb h a)

theorem load_ok {m : Machine} (h : load program budget = .ok m) :
    program.length ≤ budget ∧ budget < 0x100000000 ∧
      m = ⟨.ofMemory (.ofBytes budget program) program.length, .int, Program.headerSize, false⟩ := by
  unfold load at h
  split at h
  · cases h
  · split at h
    · cases h
    · split at h
      · cases h
      · split at h
        · cases h
        · cases h
          exact ⟨by omega, by omega, rfl⟩

theorem intact_of_load {m : Machine} (h : load program budget = .ok m) : Intact program budget m := by
  obtain ⟨hl, -, rfl⟩ := load_ok h
  exact ⟨rfl, rfl, hl, Nat.le_refl _, hl, Nat.le_refl _, Memory.slice_ofBytes budget program⟩

/-! ## Handlers -/

/-- The parts of the machine that a step hands instructions to. -/
inductive Handler where
  | arithmetic
  | data
  | control
  | action

/-- The handler of an instruction; a step halts and sets the mode itself. -/
def handler? : Instr → Option Handler
  | .halt | .mode _ => none
  | .arith _ => some .arithmetic
  | .pushImm _ | .pushVar _ | .storeVar _ | .display _ => some .data
  | .setupFrame _ | .freeFrame | .startFunc | .endFunc | .call => some .control
  | .move | .delay => some .action

/-- What a handler does with an instruction, if it has an arm for it. -/
def Handler.handle? (h : Handler) (i : Instr) (pos : Nat) : Option (Op (Option Effect)) :=
  match h, i with
  | .arithmetic, .arith _ => some (execute i pos)
  | .data, .pushImm _ | .data, .pushVar _ | .data, .storeVar _ | .data, .display _ => some (execute i pos)
  | .control, .setupFrame _ | .control, .freeFrame | .control, .startFunc | .control, .endFunc | .control, .call =>
    some (execute i pos)
  | .action, .move | .action, .delay => some (execute i pos)
  | _, _ => none

theorem handle_of_handler {i : Instr} {h : Handler} (hi : handler? i = some h) (pos : Nat) :
    h.handle? i pos = some (execute i pos) := by
  cases i <;> cases hi <;> rfl

/-- **The memory of a loaded program stays intact**: after any actions, failed ones and those of a halted machine among
them, the pointers lie between the end of the program and that of the memory, the memory has its size and the program
its bytes.  So the slices that the stack takes next are in range, those of a frame that is dropped among them, and an
instruction comes to a handler that has an arm for it. -/
theorem intact_after_actions {m : Machine} (h : load program budget = .ok m) (actions : List Action) :
    m.stack.memory.size = budget ∧ (actions.foldl perform m).stack.Intact program budget ∧
      (actions.foldl perform m).stack.InRange ∧
      Stack.InRange { (actions.foldl perform m).stack with sp := (actions.foldl perform m).stack.bp } ∧
      ∀ i handler pos, handler? i = some handler → handler.handle? i pos = some (execute i pos) := by
  have hb : budget < 0x100000000 := (load_ok h).2.1
  have h0 := intact_of_load h
  have hi : (actions.foldl perform m).stack.Intact program budget := intact_performAll hb actions h0
  have hbp := hi.setSp hi.bp_low hi.bp_high
  exact ⟨h0.size, hi, hi.inRange hb, hbp.inRange hb, fun _ _ pos hh => handle_of_handler hh pos⟩

/-- Bytecode that drops the frame it was not given, run with a forged base pointer on the stack. -/
theorem intact_after_forged_frame : ∃ m, load [1, 0, 0, 0, 0x41, 0x0A] 16 = .ok m ∧
    (([.push 0xFFFFFFFF, .setupFrame 9, .write 0 3, .step, .interpret, .setIp 5, .step] : List Action).foldl
      perform m).stack.Intact [1, 0, 0, 0, 0x41, 0x0A] 16 :=
  ⟨_, rfl, (intact_after_actions rfl [.push 0xFFFFFFFF, .setupFrame 9, .write 0 3, .step, .interpret, .setIp 5,
    .step]).2.1⟩

end Machine
end Autoscript
