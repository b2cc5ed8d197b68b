import Autoscript.Proofs.Evaluator
import Autoscript.Proofs.Image
import Autoscript.Proofs.Intact
/-!
# Simulation — the machine does what the evaluator says

The code of a script runs in one frame.  `At` describes the machine at a point of that run: which code is ahead, which
operands lie on the stack and which variables in the frame.  What lies below the stack pointer is left open.  Each
instruction leads from one such point to the next, so the code of an expression pushes its value, that of a statement
does what the evaluator does, and a function is passed over; or else there is no room for another operand, and then
`Full` says how many would have been needed.
-/
namespace Autoscript

/-! ## Runs -/

namespace Machine

theorem bind_of_ok {σ α β : Type} {x : EStateM Fault σ α} {f : α → EStateM Fault σ β} {s t : σ} {a : α}
    (h : x s = .ok a t) : (x >>= f) s = f a t := by
  show EStateM.bind x f s = _
  rw [EStateM.bind, h]

theorem bind_of_error {σ α β : Type} {x : EStateM Fault σ α} {f : α → EStateM Fault σ β} {s t : σ} {e : Fault}
    (h : x s = .error e t) : (x >>= f) s = .error e t := by
  show EStateM.bind x f s = _
  rw [EStateM.bind, h]

theorem bind_get {σ β : Type} (f : σ → EStateM Fault σ β) (s : σ) : (get >>= f) s = f s s := rfl

theorem onStack_of_ok {α : Type} {op : Stack.Op α} {a : α} {s t : Stack} {ty : Ty} {ip : Nat} {halted : Bool}
    (h : op s = .ok a t) : onStack op ⟨s, ty, ip, halted⟩ = .ok a ⟨t, ty, ip, halted⟩ := by
  simp only [onStack, h]

theorem onStack_of_error {α : Type} {op : Stack.Op α} {f : Fault} {s t : Stack} {ty : Ty} {ip : Nat} {halted : Bool}
    (h : op s = .error f t) : onStack op ⟨s, ty, ip, halted⟩ = .error f ⟨t, ty, ip, halted⟩ := by
  simp only [onStack, h]

theorem step_of_decode {m : Machine} {i : Instr} (h : Instr.decode m.program m.ip = .ok i) :
    step m = execute i m.ip { m with ip := m.ip + i.width } := by
  unfold step
  simp only [h]

/-- **The run of one machine goes on as that of another**, with some effects in between. -/
def Leads (m : Machine) (effects : List Effect) (m' : Machine) : Prop :=
  m.run = { m'.run with effects := effects ++ m'.run.effects }

/-- The machine fails without another effect. -/
def Fails (m : Machine) (f : Fault) : Prop := m.run.effects = [] ∧ m.run.fault = some f

theorem leads_of_step {m m' : Machine} {e : Option Effect} (hm : m.halted = false) (hs : step m = .ok e m') :
    Leads m e.toList m' := by
  unfold Leads
  rw [run, hm, if_neg Bool.false_ne_true]
  split
  · rename_i h
    rw [hs] at h
    cases h
  · rename_i h
    rw [hs] at h
    cases h
    rfl

theorem fails_of_step {m m' : Machine} {f : Fault} (hm : m.halted = false) (hs : step m = .error f m') :
    Fails m f := by
  unfold Fails
  rw [run, hm, if_neg Bool.false_ne_true]
  split
  · rename_i h
    rw [hs] at h
    cases h
    exact ⟨rfl, rfl⟩
  · rename_i h
    rw [hs] at h
    cases h

theorem Leads.refl (m : Machine) : Leads m [] m := rfl

theorem Leads.trans {a b c : Machine} {es fs : List Effect} (h : Leads a es b) (k : Leads b fs c) :
    Leads a (es ++ fs) c := by
  unfold Leads at *
  rw [h, k]
  simp

theorem Leads.fails {a b : Machine} {f : Fault} (h : Leads a [] b) (k : Fails b f) : Fails a f := by
  unfold Fails
  rw [h]
  exact k

end Machine

/-! ## Words in memory -/

namespace Memory

theorem word_setWord_of_outside {m : Memory} {i j : Nat} (h : j + Word.size ≤ i ∨ i + Word.size ≤ j) (w : Word) :
    (m.setWord i w).word j = m.word j := by
  have hbyte (k : Nat) (hk : k < Word.size) : (m.setWord i w).byte (j + k) = m.byte (j + k) :=
    byte_setWord_of_outside m i (j + k) w (by omega)
  have h0 : (m.setWord i w).byte j = m.byte j := hbyte 0 (by decide)
  rw [word, word, h0, hbyte 1 (by decide), hbyte 2 (by decide), hbyte 3 (by decide)]

end Memory

namespace Script

/-! ## Variables -/

namespace Store

/-- The word of the `k`-th variable, zero for one that is not declared yet. -/
def wordAt : Store → Nat → Word
  | [], _ => 0
  | s :: rest, k => if k = rest.length + 1 then s.word else wordAt rest k

def declared (σ : Store) : Declared := σ.map fun s => (s.name, s.ty)

@[simp] theorem length_declared (σ : Store) : σ.declared.length = σ.length := List.length_map _

/-- **The symbol of a name is that of its newest slot.** -/
theorem symbol_declared : ∀ {σ : Store} {x : String} {sym : Symbol}, σ.declared.symbol? x = some sym →
    sym = ⟨(σ.slot x).2.ty, 4 * (σ.slot x).1⟩ ∧ 1 ≤ (σ.slot x).1 ∧ (σ.slot x).1 ≤ σ.length ∧
      σ.wordAt (σ.slot x).1 = (σ.slot x).2.word
  | [], _, _, h => (by cases h)
  | s :: rest, x, sym, h => by
    have hcons : declared (s :: rest) = (s.name, s.ty) :: declared rest := rfl
    rw [hcons, Declared.symbol?, length_declared] at h
    by_cases hx : s.name = x
    · rw [if_pos hx] at h
      cases h
      simp [slot, hx, wordAt]
    · rw [if_neg hx] at h
      obtain ⟨h0, h1, h2, h3⟩ := symbol_declared h
      have hne : (slot rest x).1 ≠ rest.length + 1 := by omega
      simp only [slot, if_neg hx, wordAt, if_neg hne, List.length_cons]
      exact ⟨h0, h1, by omega, h3⟩

theorem declared_assign (x : String) (w : Word) : ∀ σ : Store, (σ.assign x w).declared = σ.declared
  | [] => rfl
  | s :: rest => by
    by_cases hx : s.name = x
    · simp [assign, hx, declared]
    · have ih := declared_assign x w rest
      simp only [declared] at ih
      simp [assign, hx, declared, ih]

theorem length_assign (x : String) (w : Word) (σ : Store) : (σ.assign x w).length = σ.length := by
  rw [← length_declared, declared_assign, length_declared]

theorem wordAt_assign (w : Word) : ∀ {σ : Store} {x : String} {sym : Symbol}, σ.declared.symbol? x = some sym →
    ∀ k, (σ.assign x w).wordAt k = if k = (σ.slot x).1 then w else σ.wordAt k
  | [], _, _, h, _ => (by cases h)
  | s :: rest, x, sym, h, k => by
    have hcons : declared (s :: rest) = (s.name, s.ty) :: declared rest := rfl
    rw [hcons, Declared.symbol?, length_declared] at h
    by_cases hx : s.name = x
    · by_cases hk : k = rest.length + 1 <;> simp [assign, slot, hx, wordAt, hk]
    · rw [if_neg hx] at h
      have hle := (symbol_declared h).2.2.1
      have ih := wordAt_assign w h k
      by_cases hk : k = rest.length + 1
      · have hne : k ≠ (slot rest x).1 := by omega
        simp [assign, slot, hx, wordAt, length_assign, hk] at hne ⊢
        simp [hne]
      · simp [assign, slot, hx, wordAt, length_assign, hk, ih]

theorem wordAt_of_length_lt : ∀ {σ : Store} {k : Nat}, σ.length < k → σ.wordAt k = 0
  | [], _, _ => rfl
  | s :: rest, k, h => by
    rw [List.length_cons] at h
    rw [wordAt, if_neg (by omega)]
    exact wordAt_of_length_lt (by omega)

theorem wordAt_declare (σ : Store) (x : String) (ty : Ty) (k : Nat) : wordAt (⟨x, ty, 0⟩ :: σ) k = σ.wordAt k := by
  by_cases hk : k = σ.length + 1
  · rw [wordAt, if_pos hk, wordAt_of_length_lt (by omega)]
  · rw [wordAt, if_neg hk]

end Store

/-! ## The stack at a point of the run -/

/-- Where a program lies and how many variables it has. -/
structure Layout where
  program : List UInt8
  budget : Nat
  slots : Nat
  budget_lt : budget < 0x100000000
  slots_lt : slots < 0x20000000

/-- There is room for some operands below the saved base pointer and the variables. -/
def Layout.Room (L : Layout) (n : Nat) : Prop := L.program.length + 4 + 4 * L.slots + 4 * n ≤ L.budget

theorem Layout.Room.mono {L : Layout} {n k : Nat} (h : L.Room n) (hk : k ≤ n) : L.Room k := by
  unfold Layout.Room at *
  omega

/-- **The stack holds the variables and some operands**, the one on top first. -/
structure StackAt (L : Layout) (σ : Store) (ws : List Word) (s : Stack) : Prop where
  intact : s.Intact L.program L.budget
  base : s.bp + 4 = L.budget
  top : s.sp + 4 * ws.length + 4 * L.slots = s.bp
  operands : ∀ k w, ws[k]? = some w → s.memory.word (s.sp + 4 * k) = w
  vars : ∀ k, 1 ≤ k → k ≤ L.slots → s.memory.word (s.bp - 4 * k) = σ.wordAt k

namespace StackAt

variable {L : Layout} {σ : Store} {ws : List Word} {s : Stack}

theorem room (h : StackAt L σ ws s) : L.Room ws.length := by
  have hb := h.base
  have ht := h.top
  have hl := h.intact.sp_low
  unfold Layout.Room
  omega

theorem room_succ (h : StackAt L σ ws s) : L.Room (ws.length + 1) ↔ ¬ s.sp < s.floor + Word.size := by
  have hb := h.base
  have ht := h.top
  rw [Layout.Room, h.intact.floor, Word.size]
  omega

theorem push (h : StackAt L σ ws s) (hr : L.Room (ws.length + 1)) (w : Word) :
    ∃ s', Stack.push w s = .ok () s' ∧ StackAt L σ (w :: ws) s' := by
  have hb := h.base
  have ht := h.top
  have hn := h.room_succ.1 hr
  have hi := Stack.keeps_push w s h.intact
  -- the word that is written lies below the operands and the variables, so they are read as before
  simp only [Stack.push, if_neg hn, endState] at hi ⊢
  refine ⟨_, rfl, hi, hb, ?_, fun k v hk => ?_, fun k h1 h2 => ?_⟩
  · simp only [List.length_cons, Word.size] at *
    omega
  · cases k with
    | zero =>
      cases hk
      exact Memory.word_setWord _ _ _
    | succ k =>
      have hout : s.sp - Word.size + Word.size ≤ s.sp - Word.size + 4 * (k + 1) := by simp only [Word.size]; omega
      rw [Memory.word_setWord_of_outside (.inr hout)]
      have hpos : s.sp - Word.size + 4 * (k + 1) = s.sp + 4 * k := by simp only [Word.size] at *; omega
      rw [hpos]
      exact h.operands k v hk
  · have hout : s.sp - Word.size + Word.size ≤ s.bp - 4 * k := by simp only [Word.size] at *; omega
    rw [Memory.word_setWord_of_outside (.inr hout)]
    exact h.vars k h1 h2

theorem push_full (h : StackAt L σ ws s) (hr : ¬ L.Room (ws.length + 1)) (w : Word) :
    Stack.push w s = .error (.stackOverflow s.sp s.floor) s := by
  have hlt : s.sp < s.floor + Word.size := Decidable.of_not_not (mt h.room_succ.2 hr)
  rw [Stack.push, if_pos hlt]

theorem pop {w : Word} (h : StackAt L σ (w :: ws) s) : ∃ s', Stack.pop s = .ok w s' ∧ StackAt L σ ws s' := by
  have hb := h.base
  have ht := h.top
  rw [List.length_cons] at ht
  have hw : s.memory.word? s.sp = some w := by
    rw [Memory.word?, if_pos (by rw [h.intact.size, Word.size]; omega)]
    exact congrArg some (h.operands 0 w rfl)
  have hi := Stack.keeps_pop s h.intact
  simp only [Stack.pop, hw, endState] at hi ⊢
  refine ⟨_, rfl, hi, hb, ?_, fun k v hk => ?_, h.vars⟩
  · simp only [Word.size]
    omega
  · have hpos : s.sp + Word.size + 4 * k = s.sp + 4 * (k + 1) := by simp only [Word.size]; omega
    rw [hpos]
    exact h.operands (k + 1) v hk

theorem address (h : StackAt L σ ws s) {k : Nat} (h1 : 1 ≤ k) (h2 : k ≤ L.slots) :
    s.address? (Int32.ofNat (4 * k)) = some (s.bp - 4 * k) := by
  have hs := L.slots_lt
  have hb := h.base
  have ht := h.top
  have hf := h.intact.floor
  have hsize := h.intact.size
  have hl := h.intact.sp_low
  have hlow := h.intact.lowest L.budget_lt
  have ho : (Int32.ofNat (4 * k)).toInt = ((4 * k : Nat) : Int) := Int32.toInt_ofNat_of_lt (by omega)
  unfold Stack.address?
  simp only [ho, hlow, hsize, Word.size]
  rw [if_neg (by omega), Option.some.injEq]
  omega

theorem read (h : StackAt L σ ws s) {k : Nat} (h1 : 1 ≤ k) (h2 : k ≤ L.slots) :
    Stack.read (Int32.ofNat (4 * k)) s = .ok (σ.wordAt k) s := by
  simp only [Stack.read, h.address h1 h2, h.vars k h1 h2]

theorem write (h : StackAt L σ ws s) {σ' : Store} {k : Nat} {w : Word} (h1 : 1 ≤ k) (h2 : k ≤ L.slots)
    (hσ : ∀ j, σ'.wordAt j = if j = k then w else σ.wordAt j) :
    ∃ s', Stack.write (Int32.ofNat (4 * k)) w s = .ok () s' ∧ StackAt L σ' ws s' := by
  have hb := h.base
  have ht := h.top
  have hi := Stack.keeps_write L.budget_lt (Int32.ofNat (4 * k)) w s h.intact
  -- the word that is written lies above the operands and next to the other variables
  simp only [Stack.write, h.address h1 h2, endState] at hi ⊢
  refine ⟨_, rfl, hi, hb, ht, fun j v hj => ?_, fun j hj1 hj2 => ?_⟩
  · have hlt : j < ws.length := (List.getElem?_eq_some_iff.1 hj).1
    have hout : s.sp + 4 * j + Word.size ≤ s.bp - 4 * k := by simp only [Word.size]; omega
    rw [Memory.word_setWord_of_outside (.inl hout)]
    exact h.operands j v hj
  · rw [hσ j]
    by_cases hjk : j = k
    · rw [if_pos hjk, hjk]
      exact Memory.word_setWord _ _ _
    · have hout : s.bp - 4 * j + Word.size ≤ s.bp - 4 * k ∨ s.bp - 4 * k + Word.size ≤ s.bp - 4 * j := by
        simp only [Word.size]
        omega
      rw [if_neg hjk, Memory.word_setWord_of_outside hout]
      exact h.vars j hj1 hj2

end StackAt

/-! ## Points of the run -/

/-- **A point of the run**: the code ahead, the variables and the operands on the stack. -/
structure At (L : Layout) (ty : Ty) (code : List Instr) (σ : Store) (ws : List Word) (m : Machine) : Prop where
  running : m.halted = false
  mode : m.mode = ty
  ahead : Program.Ahead L.program m.ip code
  stack : StackAt L σ ws m.stack

/-- There is no room for some operands, and the run ends for want of it. -/
def Full (L : Layout) (n : Nat) (m : Machine) : Prop := ¬ L.Room n ∧ ∃ sp floor, m.run.fault = some (.stackOverflow sp floor)

theorem Full.mono {L : Layout} {n k : Nat} {m : Machine} (h : Full L n m) (hk : n ≤ k) : Full L k m :=
  ⟨fun hr => h.1 (hr.mono hk), h.2⟩

theorem Full.of_leads {L : Layout} {n : Nat} {m m' : Machine} {es : List Effect} (hl : Machine.Leads m es m')
    (h : Full L n m') : Full L n m := by
  refine ⟨h.1, ?_⟩
  rw [hl]
  exact h.2

open Machine (Leads Fails)

/-- **The machine follows a computation**: it goes on with its effects to a point that fits its result, or fails as it
does, or else there is no room for `n` operands. -/
def Follows {α : Type} (L : Layout) (n : Nat) (effects : α → List Effect) (P : α → Machine → Prop) (m : Machine) :
    Except Machine.Fault α → Prop
  | .ok a => (∃ m', Leads m (effects a) m' ∧ P a m') ∨ Full L n m
  | .error f => Fails m f ∨ Full L n m

/-- A computation of one word, without effects, that ends with the word on the stack. -/
abbrev Pushes (L : Layout) (ty : Ty) (code : List Instr) (σ : Store) (ws : List Word) (n : Nat) (m : Machine)
    (x : Except Machine.Fault Word) : Prop := Follows L n (fun _ => []) (fun w => At L ty code σ (w :: ws)) m x

namespace Follows

variable {α β : Type} {L : Layout} {n k : Nat} {effects : β → List Effect} {Q : β → Machine → Prop} {m m' : Machine}

theorem of_leads {y : Except Machine.Fault β} (hl : Leads m [] m') (h : Follows L n effects Q m' y) :
    Follows L n effects Q m y := by
  cases y with
  | error f =>
    rcases h with h | h
    · exact .inl (hl.fails h)
    · exact .inr (h.of_leads hl)
  | ok b =>
    rcases h with ⟨m2, hl2, h⟩ | h
    · exact .inl ⟨m2, hl.trans hl2, h⟩
    · exact .inr (h.of_leads hl)

/-- Of two computations in a row the second one starts where the first one ends. -/
theorem bind {P : α → Machine → Prop} {x : Except Machine.Fault α} {f : α → Except Machine.Fault β} (hn : n ≤ k)
    (hx : Follows L n (fun _ => []) P m x) (hf : ∀ a m', P a m' → Follows L k effects Q m' (f a)) :
    Follows L k effects Q m (x >>= f) := by
  cases x with
  | error e =>
    rcases hx with h | h
    · exact .inl h
    · exact .inr (h.mono hn)
  | ok a =>
    rcases hx with ⟨m1, hl, h1⟩ | h
    · exact (hf a m1 h1).of_leads hl
    · show Follows L k effects Q m (f a)
      cases f a with
      | error e => exact .inr (h.mono hn)
      | ok b => exact .inr (h.mono hn)

end Follows

/-! ## Instructions on the stack -/

namespace StackAt

open Machine (execute bind_of_ok bind_of_error bind_get onStack_of_ok onStack_of_error)

variable {L : Layout} {σ : Store} {ws : List Word} {m : Machine}

section
variable {i : Instr} {pos : Nat} {w : Word} (hi : execute i pos m = (Machine.push w >>= fun _ => pure none) m)
include hi

theorem execute_push (h : StackAt L σ ws m.stack) (hr : L.Room (ws.length + 1)) :
    ∃ s, execute i pos m = .ok none { m with stack := s } ∧ StackAt L σ (w :: ws) s := by
  obtain ⟨s, hs, hS⟩ := h.push hr w
  exact ⟨s, hi.trans (bind_of_ok (onStack_of_ok hs)), hS⟩

theorem execute_push_full (h : StackAt L σ ws m.stack) (hr : ¬ L.Room (ws.length + 1)) :
    ∃ sp floor m', execute i pos m = .error (.stackOverflow sp floor) m' :=
  ⟨_, _, _, hi.trans (bind_of_error (onStack_of_error (h.push_full hr w)))⟩

end

theorem execute_pushVar (h : StackAt L σ ws m.stack) {k : Nat} (h1 : 1 ≤ k) (h2 : k ≤ L.slots) (pos : Nat) :
    execute (.pushVar (Int32.ofNat (4 * k))) pos m = (Machine.push (σ.wordAt k) >>= fun _ => pure none) m :=
  bind_of_ok (onStack_of_ok (h.read h1 h2))

theorem execute_arith {l r : Word} (h : StackAt L σ (r :: l :: ws) m.stack) (op : Arith) (pos : Nat) :
    match op.eval m.mode l r with
    | some w => ∃ s, execute (.arith op) pos m = .ok none { m with stack := s } ∧ StackAt L σ (w :: ws) s
    | none => ∃ m', execute (.arith op) pos m = .error .divisionByZero m' := by
  have hr : L.Room (ws.length + 1) := h.room.mono (by simp)
  obtain ⟨s1, hs1, hS1⟩ := h.pop
  obtain ⟨s2, hs2, hS2⟩ := hS1.pop
  have he : execute (.arith op) pos m =
      (Machine.orFault .divisionByZero (op.eval m.mode l r) >>= fun w => Machine.push w >>= fun _ => pure none)
        { m with stack := s2 } :=
    (bind_of_ok (onStack_of_ok hs1)).trans ((bind_of_ok (onStack_of_ok hs2)).trans (bind_get _ _))
  cases hv : op.eval m.mode l r with
  | none =>
    rw [hv] at he
    exact ⟨_, he.trans (bind_of_error rfl)⟩
  | some w =>
    rw [hv] at he
    obtain ⟨s3, hs3, hS3⟩ := hS2.push hr w
    exact ⟨s3, he.trans ((bind_of_ok rfl).trans (bind_of_ok (onStack_of_ok hs3))), hS3⟩

theorem execute_storeVar {w : Word} (h : StackAt L σ (w :: ws) m.stack) {σ' : Store} {k : Nat} (h1 : 1 ≤ k)
    (h2 : k ≤ L.slots) (hσ : ∀ j, σ'.wordAt j = if j = k then w else σ.wordAt j) (pos : Nat) :
    ∃ s, execute (.storeVar (Int32.ofNat (4 * k))) pos m = .ok none { m with stack := s } ∧ StackAt L σ' ws s := by
  obtain ⟨s1, hs1, hS1⟩ := h.pop
  obtain ⟨s2, hs2, hS2⟩ := hS1.write h1 h2 hσ
  exact ⟨s2, (bind_of_ok (onStack_of_ok hs1)).trans (bind_of_ok (onStack_of_ok hs2)), hS2⟩

theorem execute_display (h : StackAt L σ ws m.stack) {k : Nat} (h1 : 1 ≤ k) (h2 : k ≤ L.slots) (pos : Nat) :
    execute (.display (Int32.ofNat (4 * k))) pos m =
      .ok (some (.display (Int32.ofNat (4 * k)) (m.mode.read (σ.wordAt k)))) m :=
  (bind_of_ok (onStack_of_ok (h.read h1 h2))).trans (bind_get _ _)

theorem execute_move {x y : Word} (h : StackAt L σ (y :: x :: ws) m.stack) (pos : Nat) :
    ∃ s, execute .move pos m = .ok (some (.move (Word.toInt x) (Word.toInt y))) { m with stack := s } ∧
      StackAt L σ ws s := by
  obtain ⟨s1, hs1, hS1⟩ := h.pop
  obtain ⟨s2, hs2, hS2⟩ := hS1.pop
  exact ⟨s2, (bind_of_ok (onStack_of_ok hs1)).trans (bind_of_ok (onStack_of_ok hs2)), hS2⟩

theorem execute_delay {w : Word} (h : StackAt L σ (w :: ws) m.stack) (pos : Nat) :
    match Single.nanoseconds? ⟨w⟩ with
    | some ns => ∃ s, execute .delay pos m = .ok (some (.delay ns)) { m with stack := s } ∧ StackAt L σ ws s
    | none => ∃ m', execute .delay pos m = .error (.invalidDelay ⟨w⟩) m' := by
  obtain ⟨s1, hs1, hS1⟩ := h.pop
  have he : execute .delay pos m =
      (Machine.orFault (.invalidDelay ⟨w⟩) (Single.nanoseconds? ⟨w⟩) >>= fun ns => pure (some (.delay ns)))
        { m with stack := s1 } := bind_of_ok (onStack_of_ok hs1)
  cases hv : Single.nanoseconds? ⟨w⟩ with
  | none =>
    rw [hv] at he
    exact ⟨_, he.trans (bind_of_error rfl)⟩
  | some ns =>
    rw [hv] at he
    exact ⟨s1, he.trans (bind_of_ok rfl), hS1⟩

end StackAt

/-! ## Instructions -/

namespace At

open Machine (execute bind_of_ok)

variable {L : Layout} {ty : Ty} {code : List Instr} {σ : Store} {ws : List Word} {m m' : Machine} {i : Instr}

theorem step (h : At L ty (i :: code) σ ws m) : m.step = execute i m.ip { m with ip := m.ip + i.width } :=
  Machine.step_of_decode (h.ahead.decode h.stack.intact.spells)

theorem leads (h : At L ty (i :: code) σ ws m) {e : Option Effect}
    (he : execute i m.ip { m with ip := m.ip + i.width } = .ok e m') : Leads m e.toList m' :=
  Machine.leads_of_step h.running (h.step.trans he)

theorem fails (h : At L ty (i :: code) σ ws m) {f : Machine.Fault}
    (he : execute i m.ip { m with ip := m.ip + i.width } = .error f m') : Fails m f :=
  Machine.fails_of_step h.running (h.step.trans he)

theorem next (h : At L ty (i :: code) σ ws m) {σ' : Store} {ws' : List Word} {s : Stack} (hs : StackAt L σ' ws' s) :
    At L ty code σ' ws' { m with ip := m.ip + i.width, stack := s } := ⟨h.running, h.mode, h.ahead.next, hs⟩

theorem setMode {ty' : Ty} (h : At L ty (.mode ty' :: code) σ ws m) : ∃ m', Leads m [] m' ∧ At L ty' code σ ws m' :=
  ⟨_, h.leads rfl, h.running, rfl, h.ahead.next, h.stack⟩

theorem push {w : Word} (h : At L ty (i :: code) σ ws m)
    (hi : execute i m.ip { m with ip := m.ip + i.width } =
      (Machine.push w >>= fun _ => pure none) { m with ip := m.ip + i.width }) :
    Pushes L ty code σ ws (ws.length + 1) m (.ok w) := by
  by_cases hr : L.Room (ws.length + 1)
  · obtain ⟨s, he, hS⟩ := StackAt.execute_push hi h.stack hr
    exact .inl ⟨_, h.leads he, h.next hS⟩
  · obtain ⟨sp, floor, m', he⟩ := StackAt.execute_push_full hi h.stack hr
    exact .inr ⟨hr, sp, floor, (h.fails he).2⟩

theorem pushVar {k : Nat} (h : At L ty (.pushVar (Int32.ofNat (4 * k)) :: code) σ ws m) (h1 : 1 ≤ k) (h2 : k ≤ L.slots) :
    Pushes L ty code σ ws (ws.length + 1) m (.ok (σ.wordAt k)) :=
  h.push (StackAt.execute_pushVar (m := { m with ip := m.ip + Instr.width (.pushVar (Int32.ofNat (4 * k))) }) h.stack
    h1 h2 m.ip)

theorem arith {op : Arith} {l r : Word} (n : Nat) (h : At L ty (.arith op :: code) σ (r :: l :: ws) m) :
    Pushes L ty code σ ws n m (apply op ty l r) := by
  obtain rfl := h.mode
  have he := StackAt.execute_arith (m := { m with ip := m.ip + Instr.width (.arith op) }) h.stack op m.ip
  rw [apply_eq]
  cases hv : op.eval m.mode l r with
  | none =>
    simp only [hv] at he
    obtain ⟨m', he⟩ := he
    exact .inl (h.fails he)
  | some w =>
    simp only [hv] at he
    obtain ⟨s, he, hS⟩ := he
    exact .inl ⟨_, h.leads he, h.next hS⟩

theorem storeVar {σ' : Store} {k : Nat} {w : Word} (h : At L ty (.storeVar (Int32.ofNat (4 * k)) :: code) σ (w :: ws) m)
    (h1 : 1 ≤ k) (h2 : k ≤ L.slots) (hσ : ∀ j, σ'.wordAt j = if j = k then w else σ.wordAt j) :
    ∃ m', Leads m [] m' ∧ At L ty code σ' ws m' := by
  obtain ⟨s, he, hS⟩ := StackAt.execute_storeVar
    (m := { m with ip := m.ip + Instr.width (.storeVar (Int32.ofNat (4 * k))) }) h.stack h1 h2 hσ m.ip
  exact ⟨_, h.leads he, h.next hS⟩

theorem display {k : Nat} (h : At L ty (.display (Int32.ofNat (4 * k)) :: code) σ ws m) (h1 : 1 ≤ k) (h2 : k ≤ L.slots) :
    ∃ m', Leads m [.display (Int32.ofNat (4 * k)) (ty.read (σ.wordAt k))] m' ∧ At L ty code σ ws m' := by
  obtain rfl := h.mode
  have he := StackAt.execute_display (m := { m with ip := m.ip + Instr.width (.display (Int32.ofNat (4 * k))) }) h.stack
    h1 h2 m.ip
  exact ⟨_, h.leads he, h.next h.stack⟩

theorem move {x y : Word} (h : At L ty (.move :: code) σ (y :: x :: ws) m) :
    ∃ m', Leads m [.move (Word.toInt x) (Word.toInt y)] m' ∧ At L ty code σ ws m' := by
  obtain ⟨s, he, hS⟩ := StackAt.execute_move (m := { m with ip := m.ip + Instr.width .move }) h.stack m.ip
  exact ⟨_, h.leads he, h.next hS⟩

theorem delay {w : Word} (h : At L ty (.delay :: code) σ (w :: ws) m) :
    match Single.nanoseconds? ⟨w⟩ with
    | some ns => ∃ m', Leads m [.delay ns] m' ∧ At L ty code σ ws m'
    | none => Fails m (.invalidDelay ⟨w⟩) := by
  have he := StackAt.execute_delay (m := { m with ip := m.ip + Instr.width .delay }) h.stack m.ip
  cases hv : Single.nanoseconds? ⟨w⟩ with
  | none =>
    simp only [hv] at he
    obtain ⟨m', he⟩ := he
    exact h.fails he
  | some ns =>
    simp only [hv] at he
    obtain ⟨s, he, hS⟩ := he
    exact ⟨_, h.leads he, h.next hS⟩

theorem startFunc {body : List Instr} (h : At L ty (.startFunc :: (body ++ .endFunc :: code)) σ ws m)
    (hb : .endFunc ∉ body) : ∃ m', Leads m [] m' ∧ At L ty code σ ws m' := by
  obtain ⟨next, hn, ha⟩ := h.ahead.functionEnd h.stack.intact.spells hb
  have he : execute .startFunc m.ip { m with ip := m.ip + Instr.width .startFunc } = .ok none { m with ip := next } := by
    have hx : Machine.orThrow (Machine.functionEnd m.program m.ip) { m with ip := m.ip + Instr.width .startFunc } =
        .ok next { m with ip := m.ip + Instr.width .startFunc } := by
      rw [show Machine.functionEnd m.program m.ip = _ from hn]
      rfl
    exact (bind_of_ok rfl).trans ((bind_of_ok hx).trans (bind_of_ok rfl))
  exact ⟨_, h.leads he, h.running, h.mode, ha, h.stack⟩

theorem halt (h : At L ty (.halt :: code) σ ws m) :
    m.run.effects = [] ∧ m.run.fault = none ∧ m.run.machine.halted = true := by
  have hl : Leads m [] { m with ip := m.ip + Instr.width .halt, halted := true } := h.leads rfl
  rw [hl, Machine.run, if_pos rfl]
  exact ⟨rfl, rfl, rfl⟩

end At

/-! ## Expressions and statements -/

variable {L : Layout} {ty : Ty} {σ : Store}

/-- **The code of an expression pushes its value.** -/
theorem At.expression (hσ : σ.length ≤ L.slots) : ∀ {e : Expr} {code : List Instr} {ws : List Word} {m : Machine},
    e.Typed σ.declared.symbol? ty → At L ty (e.code σ.declared.symbol? ty ++ code) σ ws m →
      Pushes L ty code σ ws (ws.length + e.depth) m (e.value σ ty)
  | .int n, _, _, _, _, h => by
    rw [Expr.value, ← Ty.ofInt_eq]
    exact h.push rfl
  | .float x, _, _, _, _, h => by
    rw [Expr.value, ← Ty.ofSingle_eq]
    exact h.push rfl
  | .name x, code, ws, m, ht, h => by
    obtain ⟨sym, hx, -⟩ := Option.map_eq_some_iff.1 ht
    obtain ⟨rfl, h1, h2, hw⟩ := Store.symbol_declared hx
    have hcode : Expr.code σ.declared.symbol? ty (.name x) = [.pushVar (Int32.ofNat (4 * (σ.slot x).1))] := by
      simp [Expr.code, hx, Symbol.operand]
    rw [hcode] at h
    have hp := h.pushVar h1 (h2.trans hσ)
    rw [hw] at hp
    exact hp
  | .binary op l r, code, ws, m, ⟨hl, hr⟩, h => by
    have hcode : Expr.code σ.declared.symbol? ty (.binary op l r) ++ code =
        l.code σ.declared.symbol? ty ++ (r.code σ.declared.symbol? ty ++ .arith op :: code) := by simp [Expr.code]
    rw [hcode] at h
    have hdl : ws.length + l.depth ≤ ws.length + Expr.depth (.binary op l r) := by simp only [Expr.depth]; omega
    have hdr : ws.length + 1 + r.depth ≤ ws.length + Expr.depth (.binary op l r) := by simp only [Expr.depth]; omega
    -- the left operand stays on the stack while the right one is computed
    refine Follows.bind hdl (At.expression hσ hl h) fun a m1 h1 => ?_
    exact Follows.bind hdr (At.expression hσ hr h1) fun b m2 h2 => h2.arith _

/-- A statement outside of functions: it ends at the code that follows, with the variables it leaves. -/
abbrev Performs (L : Layout) (n : Nat) (code : List Instr) (d : Declared) (m : Machine)
    (x : Except Machine.Fault (Store × Option Effect)) : Prop :=
  Follows L n (fun r => r.2.toList) (fun r m' => r.1.declared = d ∧ ∃ ty, At L ty code r.1 [] m') m x

section
variable {code : List Instr} {m : Machine}

theorem At.declare (h : At L ty code σ [] m) (t : Ty) (x : String) :
    Performs L 0 code ((x, t) :: σ.declared) m (Stmt.perform σ (.declare t x)) := by
  have hS : StackAt L (⟨x, t, 0⟩ :: σ) [] m.stack :=
    { h.stack with vars := fun k h1 h2 => by rw [Store.wordAt_declare]; exact h.stack.vars k h1 h2 }
  exact .inl ⟨m, .refl m, rfl, ty, h.running, h.mode, h.ahead, hS⟩

theorem At.assign {x : String} {e : Expr} {sym : Symbol} (hσ : σ.length ≤ L.slots)
    (hx : σ.declared.symbol? x = some sym) (ht : e.Typed σ.declared.symbol? sym.ty)
    (h : At L ty (.mode sym.ty :: (e.code σ.declared.symbol? sym.ty ++ .storeVar sym.operand :: code)) σ [] m) :
    Performs L e.depth code σ.declared m (Stmt.perform σ (.assign x e)) := by
  obtain ⟨rfl, h1, h2, -⟩ := Store.symbol_declared hx
  obtain ⟨m1, hm1, hA1⟩ := h.setMode
  refine Follows.of_leads hm1 (Follows.bind (by simp) (At.expression hσ ht hA1) fun w m2 hA2 => ?_)
  obtain ⟨m3, hm3, hA3⟩ := hA2.storeVar h1 (h2.trans hσ) (Store.wordAt_assign w hx)
  exact .inl ⟨m3, hm3, Store.declared_assign x w σ, _, hA3⟩

theorem At.show {x : String} {sym : Symbol} (hσ : σ.length ≤ L.slots) (hx : σ.declared.symbol? x = some sym)
    (h : At L ty (.mode sym.ty :: .display sym.operand :: code) σ [] m) :
    Performs L 0 code σ.declared m (Stmt.perform σ (.display x)) := by
  obtain ⟨rfl, h1, h2, hw⟩ := Store.symbol_declared hx
  obtain ⟨m1, hm1, hA1⟩ := h.setMode
  obtain ⟨m2, hm2, hA2⟩ := hA1.display h1 (h2.trans hσ)
  rw [hw, Ty.read_eq] at hm2
  exact .inl ⟨m2, hm1.trans hm2, rfl, _, hA2⟩

theorem At.moveTo {a b : Expr} (hσ : σ.length ≤ L.slots) (ha : a.Typed σ.declared.symbol? .int)
    (hb : b.Typed σ.declared.symbol? .int)
    (h : At L ty (.mode .int :: (a.code σ.declared.symbol? .int ++ (b.code σ.declared.symbol? .int ++ .move :: code)))
      σ [] m) : Performs L (max a.depth (1 + b.depth)) code σ.declared m (Stmt.perform σ (.move a b)) := by
  obtain ⟨m1, hm1, hA1⟩ := h.setMode
  refine Follows.of_leads hm1 (Follows.bind (by rw [List.length_nil]; omega) (At.expression hσ ha hA1) fun x m2 hA2 => ?_)
  refine Follows.bind (by rw [List.length_singleton]; omega) (At.expression hσ hb hA2) fun y m3 hA3 => ?_
  obtain ⟨m4, hm4, hA4⟩ := hA3.move
  rw [← Word.ofInt_signed, ← Word.ofInt_signed] at hm4
  exact .inl ⟨m4, hm4, rfl, _, hA4⟩

theorem At.wait {a : Expr} (hσ : σ.length ≤ L.slots) (ha : a.Typed σ.declared.symbol? .float)
    (h : At L ty (.mode .float :: (a.code σ.declared.symbol? .float ++ .delay :: code)) σ [] m) :
    Performs L a.depth code σ.declared m (Stmt.perform σ (.delay a)) := by
  obtain ⟨m1, hm1, hA1⟩ := h.setMode
  refine Follows.of_leads hm1 (Follows.bind (by simp) (At.expression hσ ha hA1) fun w m2 hA2 => ?_)
  have hd := hA2.delay
  rw [Single.nanoseconds?_eq] at hd
  cases hv : Single.waiting? ⟨w⟩ with
  | none =>
    rw [hv] at hd
    exact .inl hd
  | some ns =>
    rw [hv] at hd
    obtain ⟨m3, hm3, hA3⟩ := hd
    exact .inl ⟨m3, hm3, rfl, _, hA3⟩

end

/-- **The code of a statement does what the statement does.** -/
theorem At.statement {v : View} {s : Stmt} {code : List Instr} {m : Machine} (hl : v.locals = none)
    (hg : v.globals = σ.declared) (ha : v.Allows s) (hs : ∀ f, s ≠ .start f) (hσ : σ.length ≤ L.slots)
    (h : At L ty (s.code v ++ code) σ [] m) : Performs L s.depth code (v.after s).globals m (s.perform σ) := by
  have hscope : v.scope = σ.declared := by rw [View.scope, hl, hg]; rfl
  cases s with
  | blank => exact .inl ⟨m, .refl m, hg.symm, ty, h⟩
  | declare t x =>
    have hafter : (v.after (.declare t x)).globals = (x, t) :: σ.declared := by simp [View.after, hl, hg]
    rw [hafter]
    exact h.declare t x
  | assign x e =>
    have hafter : (v.after (.assign x e)).globals = σ.declared := hg
    obtain ⟨sym, hx, ht⟩ := ha
    rw [Stmt.code, hx, hscope] at h
    rw [hscope] at hx ht
    rw [hafter]
    exact At.assign hσ hx ht (by simpa using h)
  | display x =>
    have hafter : (v.after (.display x)).globals = σ.declared := hg
    obtain ⟨sym, hx⟩ := ha
    rw [Stmt.code, hx] at h
    rw [hscope] at hx
    rw [hafter]
    exact At.show hσ hx h
  | move a b =>
    have hafter : (v.after (.move a b)).globals = σ.declared := hg
    rw [View.Allows, hscope] at ha
    rw [Stmt.code, hscope] at h
    rw [hafter]
    exact At.moveTo hσ ha.1 ha.2 (by simpa using h)
  | delay a =>
    have hafter : (v.after (.delay a)).globals = σ.declared := hg
    rw [View.Allows, hscope] at ha
    rw [Stmt.code, hscope] at h
    rw [hafter]
    exact At.wait hσ ha (by simpa using h)
  | start f => exact absurd rfl (hs f)
  | finish => exact absurd hl ha

end Script
end Autoscript
