import Autoscript.Ty
/-!
# Scopes

Variables live in frames, one word each, at growing offsets below the frame's
base.  A frame only hands out new slots: declaring a name again points it at a
fresh one.  A script has two frames in view, the globals and the locals of the
function being defined; inside a function only its locals are visible.
-/
namespace Autoscript

/-- A declared variable: its type and its distance in bytes below the base. -/
structure Symbol where
  ty : Ty
  offset : Nat
deriving DecidableEq, Repr

def Symbol.operand (s : Symbol) : Int32 := Int32.ofNat s.offset

/-- The names declared in one frame, each with its latest symbol, and the bytes that
the slots handed out so far take. -/
structure Frame where
  symbols : List (String × Symbol)
  size : Nat
deriving DecidableEq, Repr

namespace Frame

def empty : Frame := ⟨[], 0⟩

def maxOffset : Nat := 0x7fffffff

def resolve? (f : Frame) (name : String) : Option Symbol := f.symbols.lookup name

def count (f : Frame) : Nat := f.symbols.length

/-- Gives a name the next slot.  There is none once its offset is too large for an
operand. -/
def declare? (f : Frame) (name : String) (ty : Ty) : Option (Frame × Symbol) :=
  let offset := f.size + Word.size
  if offset ≤ maxOffset then
    let symbol : Symbol := ⟨ty, offset⟩
    some (⟨(name, symbol) :: f.symbols.filter (fun p => p.1 != name), offset⟩, symbol)
  else none

theorem lookup_filter_ne {x y : String} (h : x ≠ y) : ∀ l : List (String × Symbol),
    (l.filter fun p => p.1 != y).lookup x = l.lookup x
  | [] => rfl
  | (z, b) :: l => by
    by_cases hz : z = y
    · subst hz
      have hx : (x == z) = false := by simpa using h
      have hf : ((z, b) :: l).filter (fun p => p.1 != z) = l.filter (fun p => p.1 != z) :=
        List.filter_cons_of_neg (by simp)
      rw [hf, List.lookup_cons, hx, lookup_filter_ne h l]
    · have hf : ((z, b) :: l).filter (fun p => p.1 != y) = (z, b) :: l.filter (fun p => p.1 != y) :=
        List.filter_cons_of_pos (by simpa using hz)
      rw [hf, List.lookup_cons, List.lookup_cons, lookup_filter_ne h l]

/-- What a declaration does: the name is pointed at the next slot, unless that is out of reach. -/
theorem declare?_cases (f : Frame) (x : String) (ty : Ty) :
    (f.size + Word.size ≤ maxOffset ∧ ∃ f', f.declare? x ty = some (f', ⟨ty, f.size + Word.size⟩) ∧
      f'.size = f.size + Word.size ∧
      ∀ y, f'.resolve? y = if x = y then some ⟨ty, f.size + Word.size⟩ else f.resolve? y) ∨
    (maxOffset < f.size + Word.size ∧ f.declare? x ty = none) := by
  by_cases h : f.size + Word.size ≤ maxOffset
  · refine .inl ⟨h, _, if_pos h, rfl, fun y => ?_⟩
    by_cases hxy : x = y
    · subst hxy
      simp [resolve?]
    · have hyx : (y == x) = false := by simpa using Ne.symm hxy
      rw [resolve?, List.lookup_cons, hyx, lookup_filter_ne (Ne.symm hxy), if_neg hxy, resolve?]
  · exact .inr ⟨Nat.not_le.1 h, if_neg h⟩

end Frame

structure Scopes where
  globals : Frame
  locals : Frame
  inFunction : Bool
deriving DecidableEq, Repr

namespace Scopes

inductive Part where
  | globals
  | locals
  | current
deriving DecidableEq, Repr

def initial : Scopes := ⟨.empty, .empty, false⟩

def frame (s : Scopes) : Part → Frame
  | .globals => s.globals
  | .locals => s.locals
  | .current => if s.inFunction then s.locals else s.globals

def setFrame (s : Scopes) (f : Frame) : Part → Scopes
  | .globals => { s with globals := f }
  | .locals => { s with locals := f }
  | .current => if s.inFunction then { s with locals := f } else { s with globals := f }

def enter (s : Scopes) : Scopes := { s with locals := .empty, inFunction := true }

def leave (s : Scopes) : Scopes := { s with locals := .empty, inFunction := false }

def resolve? (s : Scopes) (part : Part) (name : String) : Option Symbol :=
  (s.frame part).resolve? name

def declare? (s : Scopes) (part : Part) (name : String) (ty : Ty) : Option (Scopes × Symbol) :=
  ((s.frame part).declare? name ty).map fun (f, symbol) => (s.setFrame f part, symbol)

def clear (s : Scopes) (part : Part) : Scopes := s.setFrame .empty part

end Scopes
end Autoscript
