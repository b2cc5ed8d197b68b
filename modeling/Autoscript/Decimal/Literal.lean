import Autoscript.Decimal
/-!
# Decimal literals

The written form of a number: digits, perhaps a point and more digits, perhaps
an exponent.  There is no sign anywhere, since a sign is an operator of its own.
-/
namespace Autoscript.Decimal

def natural? (cs : List Char) : Option Nat :=
  if cs ≠ [] ∧ cs.all Char.isDigit then some (ofDigits cs) else none

def scale? : List Char → Option Nat
  | [] => some 0
  | c :: cs => if c = 'e' ∨ c = 'E' then natural? cs else none

/-- Reads `digits`, `digits.digits`, each with or without an exponent.  One side of
the point may be empty, both may not. -/
def literal? (cs : List Char) : Option Decimal :=
  let whole := cs.takeWhile Char.isDigit
  let rest := cs.dropWhile Char.isDigit
  let (places, tail) := match rest with
    | '.' :: more => (more.takeWhile Char.isDigit, more.dropWhile Char.isDigit)
    | _ => ([], rest)
  if whole = [] ∧ places = [] then none
  else (scale? tail).map fun e => ⟨ofDigits (whole ++ places), (e : Int) - places.length⟩

end Autoscript.Decimal
