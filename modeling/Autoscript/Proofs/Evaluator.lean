import Autoscript.Machine.Step
import Autoscript.Proofs.Coercions
import Autoscript.Proofs.Syntax
/-!
# Evaluator — what a script means

A script is evaluated on its statements alone, without code or memory: a declaration opens a slot that holds zero, a
name stands for its newest slot, and what stands between the start and the end of a function is not evaluated.
Integers are computed exactly and cut to 32 bits, and literals, shown words and delays are converted by their values; the
operations on floats are the machine's.  How many operands an expression keeps at once is its depth; the
evaluator itself has no bound on them.
-/
namespace Autoscript

namespace Arith

def onIntegers : Arith → Int → Int → Option Int
  | .add, x, y => some (x + y)
  | .sub, x, y => some (x - y)
  | .mul, x, y => some (x * y)
  | .div, x, y => if y = 0 then none else some (x.tdiv y)

/-- **The machine's integers are exact integers cut to 32 bits.** -/
theorem onInts_eq (op : Arith) (x y : Int32) : op.onInts x y = (op.onIntegers x.toInt y.toInt).map Int32.ofInt := by
  cases op with
  | add => simp [onInts, onIntegers]
  | sub => simp [onInts, onIntegers]
  | mul => simp [onInts, onIntegers]
  | div =>
    by_cases hy : y = 0
    · simp [onInts, onIntegers, hy]
    · have hne : y.toInt ≠ 0 := fun h => hy (Int32.toInt_inj.1 h)
      simp only [onInts, onIntegers, if_neg hy, if_neg hne, Option.map_some, Option.some.injEq]
      apply Int32.toInt_inj.1
      rw [Int32.toInt_div, Int32.toInt_ofInt]

end Arith

namespace Script

/-! ## Variables -/

structure Slot where
  name : String
  ty : Ty
  word : Word

/-- The variables declared so far, the newest first. -/
abbrev Store := List Slot

namespace Store

/-- The newest slot of a name, with its number in the order of declaration.  An accepted script uses no name without
one. -/
def slot : Store → String → Nat × Slot
  | [], x => (0, ⟨x, .int, 0⟩)
  | s :: rest, x => if s.name = x then (rest.length + 1, s) else slot rest x

def assign : Store → String → Word → Store
  | [], _, _ => []
  | s :: rest, x, w => if s.name = x then { s with word := w } :: rest else s :: assign rest x w

end Store

/-! ## Expressions -/

def apply (op : Arith) : Ty → Word → Word → Except Machine.Fault Word
  | .int, l, r =>
    match op.onIntegers (Word.signed l) (Word.signed r) with
    | some n => .ok (Word.cut n)
    | none => .error .divisionByZero
  | .float, l, r => .ok (op.onSingles ⟨l⟩ ⟨r⟩).bits

theorem apply_eq (op : Arith) (ty : Ty) (l r : Word) :
    apply op ty l r = match op.eval ty l r with | some w => .ok w | none => .error .divisionByZero := by
  cases ty with
  | int =>
    simp only [apply, Arith.eval, Arith.onInts_eq, Word.signed_eq, Word.cut_eq]
    cases op.onIntegers (Word.toInt l).toInt (Word.toInt r).toInt <;> rfl
  | float => rfl

namespace Expr

/-- **The value of an expression for a type**, the left operand first. -/
def value (σ : Store) (ty : Ty) : Expr → Except Machine.Fault Word
  | .int n => .ok (integerAs ty n)
  | .float x => .ok (floatAs ty x)
  | .name x => .ok (σ.slot x).2.word
  | .binary op l r => do
    let a ← l.value σ ty
    let b ← r.value σ ty
    apply op ty a b

/-- **How many operands an expression keeps at once**: the left one is kept while the right one is computed. -/
def depth : Expr → Nat
  | .int _ | .float _ | .name _ => 1
  | .binary _ l r => max l.depth (1 + r.depth)

end Expr

/-! ## Statements -/

namespace Stmt

/-- **What a statement outside of functions does**: the variables after it and its effect, or the fault that stops the
script. -/
def perform (σ : Store) : Stmt → Except Machine.Fault (Store × Option Effect)
  | .blank | .start _ | .finish => .ok (σ, none)
  | .declare ty x => .ok (⟨x, ty, 0⟩ :: σ, none)
  | .assign x e => do
    let w ← e.value σ (σ.slot x).2.ty
    return (σ.assign x w, none)
  | .display x =>
    let (k, s) := σ.slot x
    .ok (σ, some (.display (Int32.ofNat (4 * k)) (shownAs s.ty s.word)))
  | .move a b => do
    let x ← a.value σ .int
    let y ← b.value σ .int
    return (σ, some (.move (Int32.ofInt (Word.signed x)) (Int32.ofInt (Word.signed y))))
  | .delay a => do
    let w ← a.value σ .float
    match Single.waiting? ⟨w⟩ with
    | some ns => return (σ, some (.delay ns))
    | none => throw (.invalidDelay ⟨w⟩)

def depth : Stmt → Nat
  | .assign _ e | .delay e => e.depth
  | .move a b => max a.depth (1 + b.depth)
  | _ => 0

end Stmt

/-- The statements that are evaluated: those that no function contains. -/
def topLevel : Bool → List Stmt → List Stmt
  | _, [] => []
  | _, .start _ :: ss => topLevel true ss
  | _, .finish :: ss => topLevel false ss
  | true, _ :: ss => topLevel true ss
  | false, s :: ss => s :: topLevel false ss

structure Evaluation where
  effects : List Effect
  fault : Option Machine.Fault

def performAll : Store → List Stmt → Evaluation
  | _, [] => ⟨[], none⟩
  | σ, s :: ss =>
    match s.perform σ with
    | .error f => ⟨[], some f⟩
    | .ok (σ', e) =>
      let r := performAll σ' ss
      { r with effects := e.toList ++ r.effects }

/-- **The meaning of a script.** -/
def evaluate (script : List Stmt) : Evaluation := performAll [] (topLevel false script)

def depthOf (ss : List Stmt) : Nat := (ss.map Stmt.depth).foldr max 0

def operandDepth (script : List Stmt) : Nat := depthOf (topLevel false script)

/-! ## Faults of a script -/

theorem fault_of_bind {α β : Type} {x : Except Machine.Fault α} {f : α → Except Machine.Fault β} {e : Machine.Fault}
    (h : x >>= f = .error e) : x = .error e ∨ ∃ a, x = .ok a ∧ f a = .error e := by
  cases x with
  | error e' => cases h; exact .inl rfl
  | ok a => exact .inr ⟨a, rfl, h⟩

theorem fault_of_apply {op : Arith} {ty : Ty} {l r : Word} {f : Machine.Fault} (h : apply op ty l r = .error f) :
    f = .divisionByZero := by
  cases ty with
  | int =>
    simp only [apply] at h
    split at h
    · cases h
    · cases h; rfl
  | float => cases h

theorem fault_of_value {σ : Store} {ty : Ty} : ∀ {e : Expr} {f : Machine.Fault}, e.value σ ty = .error f →
    f = .divisionByZero
  | .int _, _, h => (by cases h)
  | .float _, _, h => (by cases h)
  | .name _, _, h => (by cases h)
  | .binary op l r, f, h => by
    rcases fault_of_bind h with hl | ⟨a, -, h1⟩
    · exact fault_of_value hl
    · rcases fault_of_bind h1 with hr | ⟨b, -, h2⟩
      · exact fault_of_value hr
      · exact fault_of_apply h2

theorem fault_of_perform {σ : Store} {s : Stmt} {f : Machine.Fault} (h : s.perform σ = .error f) :
    f = .divisionByZero ∨ ∃ x, f = .invalidDelay x := by
  cases s with
  | blank | start | finish | declare | display => cases h
  | assign x e =>
    rcases fault_of_bind h with hv | ⟨w, -, hw⟩
    · exact .inl (fault_of_value hv)
    · cases hw
  | move a b =>
    rcases fault_of_bind h with ha | ⟨x, -, h1⟩
    · exact .inl (fault_of_value ha)
    · rcases fault_of_bind h1 with hb | ⟨y, -, h2⟩
      · exact .inl (fault_of_value hb)
      · cases h2
  | delay a =>
    rcases fault_of_bind h with ha | ⟨w, -, hw⟩
    · exact .inl (fault_of_value ha)
    · split at hw
      · cases hw
      · cases hw
        exact .inr ⟨_, rfl⟩

theorem fault_of_performAll : ∀ {ss : List Stmt} {σ : Store} {f : Machine.Fault}, (performAll σ ss).fault = some f →
    f = .divisionByZero ∨ ∃ x, f = .invalidDelay x
  | [], _, _, h => (by cases h)
  | s :: ss, σ, f, h => by
    unfold performAll at h
    split at h
    · rename_i hs
      cases h
      exact fault_of_perform hs
    · exact fault_of_performAll h

end Script
end Autoscript
