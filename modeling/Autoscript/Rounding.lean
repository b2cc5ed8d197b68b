/-!
# Rounding a quotient

All rounding in the library goes through one function: the whole number nearest
to an exact quotient, a half going to the even neighbour.  The numbers are exact
until this one step, so a result is never rounded twice.
-/
namespace Autoscript

/-- The whole number nearest to `num / den`, a half going to the even neighbour. -/
def divRound (num den : Nat) : Nat :=
  let q := num / den
  let r := num % den
  if 2 * r < den then q
  else if den < 2 * r then q + 1
  else if q % 2 = 0 then q else q + 1

theorem divRound_mul (q den : Nat) (h : 0 < den) : divRound (q * den) den = q := by
  simp [divRound, Nat.mul_div_cancel _ h, h]

@[simp] theorem divRound_one (n : Nat) : divRound n 1 = n := by
  simpa using divRound_mul n 1 (by decide)

end Autoscript
