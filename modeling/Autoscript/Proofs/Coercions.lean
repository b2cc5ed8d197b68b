import Autoscript.Ty
import Autoscript.Proofs.Nearest
import Mathlib.Algebra.Order.Round
import Mathlib.Data.Rat.Floor
/-!
# Coercions — what a literal and a word stand for

A script means integers and rational numbers.  What a word stands for is read off its bits (`Word.signed`,
`Single.number?`).  A float in an integer's place is its number cut toward zero, an integer in a float's place is the number
nearest to it (`Single.nearestTo_ofInteger`), and a delay is its number in nanoseconds, rounded once.  The compiler and the
machine convert patterns and quanta instead; each of their conversions is the one that is meant (`Ty.ofInt_eq`,
`Ty.ofSingle_eq`, `Ty.read_eq`, `Single.nanoseconds?_eq`).
-/
namespace Autoscript

/-! ## Two's complement -/

namespace Word

/-- The word of an integer that is cut to 32 bits. -/
def cut (n : Int) : Word := UInt32.ofNat (n % 2 ^ 32).toNat

/-- The integer that a word spells, the upper half of the words being for negative ones. -/
def signed (w : Word) : Int := if w.toNat < 2 ^ 31 then w.toNat else w.toNat - 2 ^ 32

theorem cut_eq (n : Int) : cut n = ofInt (Int32.ofInt n) := by
  apply UInt32.toNat_inj.1
  have hmod : (n % 2 ^ 32).toNat < 2 ^ 32 := by omega
  show (UInt32.ofNat (n % 2 ^ 32).toNat).toNat = (BitVec.ofInt 32 n).toNat
  rw [UInt32.toNat_ofNat_of_lt' hmod, BitVec.toNat_ofInt]
  rfl

theorem signed_eq (w : Word) : signed w = (toInt w).toInt := by
  show _ = w.toBitVec.toInt
  rw [BitVec.toInt_eq_toNat_cond, UInt32.toNat_toBitVec, signed]
  norm_cast
  omega

theorem ofInt_signed (w : Word) : Int32.ofInt (signed w) = toInt w := by rw [signed_eq, Int32.ofInt_toInt]

end Word

/-! ## Rounding to integers -/

/-- The integer nearest to a number, the even one of two that are as near. -/
def nearestInt (v : ℚ) : Int := if Int.fract v = 1 / 2 ∧ round v % 2 = 1 then round v - 1 else round v

theorem nearestInt_eq {v : ℚ} {n : Int} (h : |v - n| ≤ 1 / 2) (htie : |v - n| = 1 / 2 → n % 2 = 0) : nearestInt v = n := by
  obtain ⟨hlow, hhigh⟩ := abs_le.1 h
  rcases (show v ≤ n + 1 / 2 by linarith).eq_or_lt with hmiddle | hbelow
  · -- in the middle above `n`, which is even: `round` goes up, to an odd number
    have hround : round v = n + 1 := by
      rw [round_eq, hmiddle, Int.floor_eq_iff]
      constructor <;> push_cast <;> linarith
    have hfract : Int.fract v = 1 / 2 := Int.fract_eq_iff.2 ⟨by norm_num, by norm_num, n, by linarith⟩
    have heven := htie (by rw [hmiddle, add_sub_cancel_left, abs_of_pos (by norm_num)])
    rw [nearestInt, if_pos ⟨hfract, by omega⟩, hround, add_sub_cancel_right]
  · have hround : round v = n := by
      rw [round_eq, Int.floor_eq_iff]
      constructor <;> linarith
    rw [nearestInt, hround, if_neg]
    rintro ⟨hfract, hodd⟩
    obtain ⟨-, -, k, hk⟩ := Int.fract_eq_iff.1 hfract
    have hlt : k < n := by
      rw [← Int.cast_lt (R := ℚ)]
      linarith
    have hle : n < k + 2 := by
      rw [← Int.cast_lt (R := ℚ)]
      push_cast
      linarith
    obtain rfl : n = k + 1 := by omega
    have hsub : v - (k + 1 : Int) = -(1 / 2) := by
      push_cast
      linarith
    have heven := htie (by rw [hsub, abs_neg, abs_of_pos (by norm_num)])
    omega

/-- **A quotient is rounded to the integer nearest to it.** -/
theorem nearestInt_div (num : Nat) {den : Nat} (hden : 0 < den) : nearestInt (num / den) = divRound num den := by
  have hpos : (0 : ℚ) < den := Nat.cast_pos.2 hden
  obtain ⟨hlow, hhigh, htie⟩ := divRound_bounds num hden
  obtain ⟨d, hd⟩ : ∃ d : Nat, d = ((num : Int) - divRound num den * den).natAbs := ⟨_, rfl⟩
  have hdistance : |(num : ℚ) / den - (divRound num den : Int)| = (d : ℚ) / den := by
    have hsub : (num : ℚ) / den - (divRound num den : Int) = ((num : Int) - divRound num den * den : Int) / den := by
      push_cast
      field_simp
    rw [hsub, abs_div, abs_of_pos hpos, hd, Nat.cast_natAbs, Int.cast_abs]
  apply nearestInt_eq
  · rw [hdistance, div_le_div_iff₀ hpos (by norm_num)]
    exact_mod_cast (show d * 2 ≤ 1 * den by omega)
  · rw [hdistance, div_eq_div_iff hpos.ne' (by norm_num)]
    intro h
    have htwice : d * 2 = 1 * den := by exact_mod_cast h
    omega

/-! ## Single precision -/

namespace Single

open Binary (Format)

theorem one_eq : (format.one : ℚ) = 2 ^ 149 := Nat.cast_pow 2 149

theorem natCast_eq (n : Nat) : (n : ℚ) = ((n * format.one : Nat) : ℚ) / ((1 : Nat) * 2 ^ 149) := by
  rw [Nat.cast_mul, Nat.cast_one, one_mul, one_eq, mul_div_cancel_right₀ _ (by norm_num)]

theorem value_eq (x : Single) : x.value = x.quanta / 2 ^ 149 := by
  unfold value quanta magnitude
  rw [size_eq]
  split
  · push_cast
    ring
  · rfl

/-- Zero is not negative, whatever its sign. -/
theorem value_neg_iff (x : Single) : x.value < 0 ↔ x.negative = true ∧ x.magnitude ≠ 0 := by
  have hpos : (0 : ℚ) < 2 ^ 149 := by norm_num
  rw [value_eq, div_lt_iff₀ hpos, zero_mul, Int.cast_lt_zero, quanta]
  cases x.negative with
  | true =>
    simp only [if_true, true_and]
    omega
  | false => simp

section
variable {x : Single} (h : ¬ x.value < 0)
include h

theorem magnitude_of_nonneg (hsign : x.negative = true) : x.magnitude = 0 := by
  rw [value_neg_iff, not_and_not_right] at h
  exact h hsign

theorem value_of_nonneg : x.value = (x.magnitude : ℚ) / format.one := by
  rw [value_eq, one_eq, quanta]
  split
  · rename_i hsign
    simp [magnitude_of_nonneg h hsign]
  · rfl

end

/-- The fields of a NaN: the highest exponent, and a fraction that is not zero. -/
theorem isNaN_iff (x : Single) : x.isNaN = true ↔ x.pattern / 2 ^ 23 = 255 ∧ x.pattern % 2 ^ 23 ≠ 0 := by
  have hlt : x.pattern < 2 ^ 31 := Nat.mod_lt _ (by decide)
  have hinfinity : format.infinity = 255 * 2 ^ 23 := by decide
  rw [isNaN, decide_eq_true_eq, hinfinity]
  omega

/-! ### Fields -/

/-- **The number that a word stands for as a float**: a sign, an exponent with a bias and a fraction.  A NaN is none, and
infinity stands for the power of two behind the largest number. -/
def number? (x : Single) : Option ℚ :=
  let word := x.bits.toNat
  let sign : ℚ := (-1) ^ (word / 2 ^ 31)
  let exponent : Nat := word / 2 ^ 23 % 2 ^ 8
  let fraction : ℚ := (word % 2 ^ 23 : Nat) / 2 ^ 23
  if exponent = 255 ∧ word % 2 ^ 23 ≠ 0 then none
  else if exponent = 0 then some (sign * (fraction * 2 ^ (-126 : Int)))
  else some (sign * ((1 + fraction) * 2 ^ ((exponent : Int) - 127)))

theorem number?_eq (x : Single) : x.number? = if x.isNaN then none else some x.value := by
  have hword : x.bits.toNat < 2 ^ 32 := x.bits.toNat_lt
  have hexponent : x.pattern / 2 ^ 23 = x.bits.toNat / 2 ^ 23 % 2 ^ 8 := by
    unfold pattern signBit
    omega
  have hfraction : x.pattern % 2 ^ 23 = x.bits.toNat % 2 ^ 23 := by
    unfold pattern signBit
    omega
  have hvalue : x.value = (-1) ^ (x.bits.toNat / 2 ^ 31) * size x.pattern := by
    have hbit : signBit = 2 ^ 31 := rfl
    rw [value, negative, hbit]
    simp only [decide_eq_true_eq]
    split
    · have hone : x.bits.toNat / 2 ^ 31 = 1 := by omega
      rw [hone, pow_one, neg_one_mul]
    · have hzero : x.bits.toNat / 2 ^ 31 = 0 := by omega
      rw [hzero, pow_zero, one_mul]
  rw [hvalue, size, hexponent, hfraction, number?]
  simp only [isNaN_iff, hexponent, hfraction]
  split_ifs <;> rfl

/-! ### To integers -/

/-- The number cut toward zero, then to 32 bits; a NaN gives zero. -/
def truncated (x : Single) : Int :=
  match x.number? with
  | none => 0
  | some v => max (-2 ^ 31) (min (if v < 0 then ⌈v⌉ else ⌊v⌋) (2 ^ 31 - 1))

theorem whole_eq (x : Single) : (if x.value < 0 then ⌈x.value⌉ else ⌊x.value⌋) =
    if x.negative then -((x.magnitude : Int) / format.one) else (x.magnitude : Int) / format.one := by
  by_cases h : x.value < 0
  · have hsign := ((value_neg_iff x).1 h).1
    have hvalue : x.value = -((x.magnitude : ℚ) / format.one) := by
      rw [value_eq, quanta, if_pos hsign, one_eq]
      push_cast
      ring
    rw [if_pos h, if_pos hsign, hvalue, Int.ceil_neg, Rat.floor_natCast_div_natCast]
  · rw [if_neg h, value_of_nonneg h, Rat.floor_natCast_div_natCast]
    split
    · rename_i hsign
      simp [magnitude_of_nonneg h hsign]
    · rfl

/-- **The integer part is the number, cut twice.** -/
theorem toInt_eq (x : Single) : x.toInt = Int32.ofInt x.truncated := by
  have hnonneg : (0 : Int) ≤ (x.magnitude : Int) / format.one := Int.natCast_nonneg (x.magnitude / format.one)
  unfold toInt truncated
  rw [number?_eq]
  by_cases hnan : x.isNaN = true
  · rw [if_pos hnan, if_pos hnan]
    rfl
  · rw [if_neg hnan, if_neg hnan]
    dsimp only
    rw [whole_eq]
    split <;> congr 1 <;> omega

/-! ### From integers -/

/-- **The number nearest to an integer**, by its fields: the exponent is that of the highest bit, and the significand is
rounded behind 23 bits more.  Its own highest bit counts one in the exponent. -/
def ofInteger (n : Int) : Single :=
  let exponent := n.natAbs.log2
  let significand := nearestInt (n.natAbs / 2 ^ exponent * 2 ^ 23)
  let pattern := if n = 0 then 0 else (exponent + 126) * 2 ^ 23 + significand.toNat
  ⟨UInt32.ofNat (if n < 0 then 2 ^ 31 + pattern else pattern)⟩

theorem log2_mul_one {m : Nat} (h : m ≠ 0) : (m * format.one).log2 = m.log2 + 149 := by
  have hone : format.one = 2 ^ 149 := rfl
  have hne : m * 2 ^ 149 ≠ 0 := Nat.mul_ne_zero h (by decide)
  rw [hone, Nat.log2_eq_iff hne, Nat.pow_add, Nat.add_right_comm, Nat.pow_add]
  exact ⟨Nat.mul_le_mul_right _ (Nat.log2_self_le h), Nat.mul_lt_mul_of_pos_right Nat.lt_log2_self (by decide)⟩

theorem nearest_mul_one {m : Nat} (h : m ≠ 0) (hm : m ≤ 2 ^ 31) : format.nearest (m * format.one) 1 =
    (m.log2 + 126) * 2 ^ 23 + (nearestInt (m / 2 ^ m.log2 * 2 ^ 23)).toNat := by
  have hfinite : format.nearest (m * format.one) 1 ≠ format.infinity := by
    have hle : (m : ℚ) ≤ 2 ^ 31 := by exact_mod_cast hm
    rw [Ne, nearest_eq_infinity_iff Nat.one_pos (natCast_eq m), not_le]
    linarith
  have hbinade : format.binade = 2 ^ 23 := rfl
  have hdrop : (m * format.one / 1).log2 - format.fractionBits = m.log2 + 126 := by
    rw [Nat.div_one, log2_mul_one h]
    rfl
  have hden : 0 < 1 * Nat.pow 2 (m.log2 + 126) := Nat.mul_pos Nat.one_pos (Nat.two_pow_pos _)
  have hquotient : ((m * format.one : Nat) : ℚ) / ((1 * Nat.pow 2 (m.log2 + 126) : Nat) : ℚ) = m / 2 ^ m.log2 * 2 ^ 23 := by
    have hpow : ((Nat.pow 2 (m.log2 + 126) : Nat) : ℚ) = 2 ^ m.log2 * 2 ^ 126 := by
      rw [← pow_add]
      exact Nat.cast_pow 2 _
    rw [Nat.cast_mul, Nat.cast_mul, one_eq, hpow]
    field_simp
    norm_num
  unfold Format.nearest at hfinite ⊢
  simp only [hdrop, hbinade] at hfinite ⊢
  rw [← hquotient, nearestInt_div _ hden, Int.toNat_natCast]
  exact min_eq_left (by omega)

theorem ofInteger_eq {n : Int} (h : n.natAbs ≤ 2 ^ 31) :
    ofInteger n = nearest (decide (n < 0)) (n.natAbs * format.one) 1 := by
  have hpattern : format.nearest (n.natAbs * format.one) 1 = if n = 0 then 0 else
      (n.natAbs.log2 + 126) * 2 ^ 23 + (nearestInt (n.natAbs / 2 ^ n.natAbs.log2 * 2 ^ 23)).toNat := by
    by_cases hn : n = 0
    · rw [if_pos hn, hn]
      decide
    · rw [if_neg hn, nearest_mul_one (Int.natAbs_ne_zero.2 hn) h]
  rw [nearest, hpattern, ofParts]
  simp only [decide_eq_true_eq]
  rfl

/-- **No number is nearer to the integer**, and the sign is the integer's. -/
theorem nearestTo_ofInteger {n : Int} (h : n.natAbs ≤ 2 ^ 31) :
    (ofInteger n).abs.NearestTo n.natAbs ∧ (ofInteger n).negative = decide (n < 0) := by
  have hlt := nearest_lt_signBit (n.natAbs * format.one) 1
  rw [ofInteger_eq h, abs, nearest, pattern_ofParts hlt, negative_ofParts hlt]
  exact ⟨nearestTo_nearest Nat.one_pos (natCast_eq _), rfl⟩

theorem ofInt_eq (n : Int32) : ofInt n = ofInteger n.toInt := by
  have hlow := n.le_toInt
  have hhigh := n.toInt_lt
  exact (ofInteger_eq (by omega)).symm

/-! ### Seconds -/

/-- **A number of seconds in nanoseconds**, to the nearest.  A NaN, a negative number and `2 ^ 64` seconds or more are
refused. -/
def waiting? (x : Single) : Option Nat :=
  match x.number? with
  | none => none
  | some v => if v < 0 ∨ 2 ^ 64 ≤ v then none else some (nearestInt (v * 10 ^ 9)).toNat

theorem nanoseconds?_eq (x : Single) : x.nanoseconds? = x.waiting? := by
  unfold nanoseconds? waiting?
  rw [number?_eq]
  by_cases hnan : x.isNaN = true
  · rw [if_pos (.inl hnan), if_pos hnan]
  rw [if_neg hnan]
  dsimp only
  by_cases hneg : x.value < 0
  · rw [if_pos (.inr (.inl ((value_neg_iff x).1 hneg))), if_pos (.inl hneg)]
  · have hone : 0 < format.one := Nat.two_pow_pos _
    have hvalue := value_of_nonneg hneg
    have hlarge : 2 ^ 64 ≤ x.value ↔ 0x10000000000000000 * format.one ≤ x.magnitude := by
      have hcast : ((0x10000000000000000 * format.one : Nat) : ℚ) = 2 ^ 64 * format.one := by
        rw [Nat.cast_mul]
        norm_num
      rw [hvalue, le_div_iff₀ (Nat.cast_pos.2 hone), ← hcast, Nat.cast_le]
    have hscaled : x.value * 10 ^ 9 = ((x.magnitude * 1000000000 : Nat) : ℚ) / format.one := by
      rw [hvalue]
      push_cast
      ring
    refine if_congr ((or_iff_right hnan).trans (or_congr (value_neg_iff x).symm hlarge.symm)) rfl ?_
    rw [hscaled, nearestInt_div _ hone, Int.toNat_natCast]

end Single

/-! ## Places of a type -/

namespace Script

/-- An integer literal where a value of the type stands. -/
def integerAs : Ty → Int32 → Word
  | .int, n => Word.cut n.toInt
  | .float, n => (Single.ofInteger n.toInt).bits

/-- A float literal where a value of the type stands. -/
def floatAs : Ty → Single → Word
  | .int, x => Word.cut x.truncated
  | .float, x => x.bits

/-- What a word of the type shows. -/
def shownAs : Ty → Word → Scalar
  | .int, w => .int (Int32.ofInt w.signed)
  | .float, w => .float ⟨w⟩

end Script

namespace Ty

open Script (integerAs floatAs shownAs)

theorem ofInt_eq (ty : Ty) (n : Int32) : ty.ofInt n = integerAs ty n := by
  cases ty with
  | int => rw [ofInt, integerAs, Word.cut_eq, Int32.ofInt_toInt]
  | float => rw [ofInt, integerAs, Single.ofInt_eq]

theorem ofSingle_eq (ty : Ty) (x : Single) : ty.ofSingle x = floatAs ty x := by
  cases ty with
  | int => rw [ofSingle, floatAs, Word.cut_eq, Single.toInt_eq]
  | float => rfl

theorem read_eq (ty : Ty) (w : Word) : ty.read w = shownAs ty w := by
  cases ty with
  | int => rw [read, shownAs, Word.ofInt_signed]
  | float => rfl

end Ty
end Autoscript
