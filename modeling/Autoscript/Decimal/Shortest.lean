import Autoscript.Decimal
/-!
# The shortest decimal that reads back

A binary number is written with the fewest digits that still round to it.  The
decimals with a given last place form a grid; going from coarse grids to fine
ones, the first grid that has a decimal rounding to the number gives the fewest
digits.  On each grid only the two neighbours of the number need a look.  A grid
as fine as the format's quantum contains the number itself, so the search ends.
-/
namespace Autoscript.Binary.Format

/-- The multiple of `10 ^ e` nearest to a pattern's value among the value's two
neighbours that round to the pattern.  Of two equally near the larger is taken. -/
def onGrid (F : Format) (pattern : Nat) (e : Int) : Option Decimal :=
  let num := F.magnitude pattern * Nat.pow 10 (-e).toNat
  let den := F.one * Nat.pow 10 e.toNat
  let below : Decimal := ⟨num / den, e⟩
  let above : Decimal := ⟨num / den + 1, e⟩
  if F.ofDecimal below = pattern then
    if F.ofDecimal above = pattern ∧ den ≤ 2 * (num % den) then some above else some below
  else if F.ofDecimal above = pattern then some above
  else none

/-- The powers of ten to try: from one above the number down to the quantum. -/
def grids (F : Format) (pattern : Nat) : List Int :=
  let top := (Decimal.digits (F.magnitude pattern / F.one)).length
  (List.range (top + F.depth + 1)).map fun i => (top : Int) - (i : Nat)

def shortest (F : Format) (pattern : Nat) : Decimal :=
  if pattern = 0 then ⟨0, 0⟩
  else ((F.grids pattern).findSome? (F.onGrid pattern)).getD (⟨0, 0⟩)

end Autoscript.Binary.Format
