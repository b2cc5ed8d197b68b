import Autoscript.Binary.Format
/-!
# Decimal numbers

A decimal is a coefficient and a power of ten.  This module writes one out
without an exponent mark and rounds one to a binary format; reading and choosing
digits are in `Autoscript.Decimal.Literal` and `Autoscript.Decimal.Shortest`.
-/
namespace Autoscript

/-- The number `coefficient * 10 ^ exponent`. -/
structure Decimal where
  coefficient : Nat
  exponent : Int
deriving DecidableEq, Repr

namespace Decimal

def digits (n : Nat) : List Char := Nat.toDigits 10 n

def ofDigits (ds : List Char) : Nat :=
  ds.foldl (fun n d => 10 * n + (d.toNat - '0'.toNat)) 0

/-- All digits in place, without an exponent mark: zeros fill up to the point from
either side, and the point is written only when places follow it. -/
def positional (d : Decimal) : List Char :=
  let ds := digits d.coefficient
  let places := (-d.exponent).toNat
  if places = 0 then ds ++ List.replicate d.exponent.toNat '0'
  else
    let padded := List.replicate (places + 1 - ds.length) '0' ++ ds
    let whole := padded.length - places
    padded.take whole ++ '.' :: padded.drop whole

theorem isDigit_of_mem_digits {n : Nat} {c : Char} (h : c ∈ digits n) : c.isDigit = true :=
  Nat.isDigit_of_mem_toDigits (by decide) (by decide) h

theorem isDigit_of_mem_padded {k n : Nat} {c : Char} (h : c ∈ List.replicate k '0' ++ digits n) : c.isDigit = true := by
  rcases List.mem_append.1 h with h | h
  · rw [List.eq_of_mem_replicate h]
    decide
  · exact isDigit_of_mem_digits h

theorem isDigit_or_point_of_mem_positional {d : Decimal} {c : Char} (h : c ∈ d.positional) :
    c.isDigit = true ∨ c = '.' := by
  unfold positional at h
  dsimp only at h
  split at h
  · exact .inl (isDigit_of_mem_padded (List.mem_append.2 (List.mem_append.1 h).symm))
  · rcases List.mem_append.1 h with h | h
    · exact .inl (isDigit_of_mem_padded (List.mem_of_mem_take h))
    · exact (List.mem_cons.1 h).symm.imp (fun h => isDigit_of_mem_padded (List.mem_of_mem_drop h)) id

@[simp] theorem ofDigits_digits (n : Nat) : ofDigits (digits n) = n :=
  Nat.ofDigitChars_toDigits (by decide) (by decide)

@[simp] theorem ofDigits_zeros_append (k : Nat) (ds : List Char) :
    ofDigits (List.replicate k '0' ++ ds) = ofDigits ds := by
  induction k with
  | zero => rfl
  | succ k ih => rw [List.replicate_succ, List.cons_append, ← ih]; rfl

end Decimal

namespace Binary.Format

/-- The pattern nearest to a decimal.  A power of ten at least as large as the
format's exponent range is beyond every finite number, so it is not computed. -/
def ofDecimal (F : Format) (d : Decimal) : Nat :=
  if d.coefficient = 0 then 0
  else if Nat.pow 2 (F.exponentBits - 1) ≤ d.exponent then F.infinity
  else
    F.nearest (d.coefficient * Nat.pow 10 d.exponent.toNat * F.one) (Nat.pow 10 (-d.exponent).toNat)

/-- A pattern's value with a fixed number of places, a half going to the even digit. -/
def fixed (F : Format) (places pattern : Nat) : Decimal :=
  ⟨divRound (F.magnitude pattern * Nat.pow 10 places) F.one, -places⟩

end Binary.Format
end Autoscript
