import Autoscript.Rounding
/-!
# Binary floating point formats

A finite number of a binary format is a whole number of *quanta*, the smallest
step of the format.  Measured that way a magnitude is a `Nat`, sums and products
of magnitudes are exact, and the only inexact step is `Format.nearest`, which
picks the pattern closest to a quotient of two naturals.

A *pattern* here is the bits of a number without its sign.  Patterns are ordered
like the magnitudes they stand for, so the carry of a significand that rounds up
to the next power of two lands in the exponent by itself.
-/
namespace Autoscript.Binary

structure Format where
  fractionBits : Nat
  exponentBits : Nat

namespace Format

def binary32 : Format := ⟨23, 8⟩

def binary64 : Format := ⟨52, 11⟩

/-- How many patterns share one exponent, which is also the weight of the hidden bit. -/
def binade (F : Format) : Nat := Nat.pow 2 F.fractionBits

/-- The pattern of infinity; every larger pattern is a NaN. -/
def infinity (F : Format) : Nat := (Nat.pow 2 F.exponentBits - 1) * F.binade

/-- A quantum is `2` to the minus this. -/
def depth (F : Format) : Nat := Nat.pow 2 (F.exponentBits - 1) - 2 + F.fractionBits

/-- How many quanta make one. -/
def one (F : Format) : Nat := Nat.pow 2 F.depth

/-- The number of quanta that a pattern stands for.  With the exponent field at
zero the significand has no hidden bit. -/
def magnitude (F : Format) (pattern : Nat) : Nat :=
  let e := pattern / F.binade
  let f := pattern % F.binade
  if e = 0 then f else (F.binade + f) * Nat.pow 2 (e - 1)

/-- The pattern nearest to `num / den` quanta, a half going to the even pattern,
infinity beyond the largest finite number.  A quotient of up to
`fractionBits + 1` bits is kept whole; of a longer one the `drop` lowest bits go. -/
def nearest (F : Format) (num den : Nat) : Nat :=
  let drop := (num / den).log2 - F.fractionBits
  min (drop * F.binade + divRound num (den * Nat.pow 2 drop)) F.infinity

end Format
end Autoscript.Binary
