import Autoscript.Binary.Single
import Mathlib.Algebra.Order.Field.Basic
import Mathlib.Algebra.Order.Field.Rat
import Mathlib.Tactic.Linarith
import Mathlib.Tactic.FieldSimp
import Mathlib.Tactic.Ring
/-!
# Nearest — a number is rounded to the one that is nearest

Patterns are ordered like their magnitudes (`strictMono_magnitude`), and a significand that is rounded misses by half a unit
of its last place at most.  So no pattern is nearer to a quotient than the one that `Format.nearest` gives, and one that is
as near leaves it the even one (`nearer_nearest`); infinity counts like the next power of two.

For single precision this says that the answer is the nearest of all numbers (`NearestTo`), and no other number is
(`nearestTo_iff`).
-/
namespace Autoscript

/-! ## Quotients -/

/-- **A quotient is rounded by a half at most**, and by a half only to an even number. -/
theorem divRound_bounds (num : Nat) {den : Nat} (hden : 0 < den) :
    2 * (divRound num den * den) ≤ 2 * num + den ∧ 2 * num ≤ 2 * (divRound num den * den) + den ∧
      (2 * (divRound num den * den) = 2 * num + den ∨ 2 * num = 2 * (divRound num den * den) + den →
        divRound num den % 2 = 0) := by
  have hnum := Nat.div_add_mod' num den
  have hmod := Nat.mod_lt num hden
  have hsucc := Nat.succ_mul (num / den) den
  unfold divRound
  dsimp only
  split_ifs with hlow hhigh heven
  · omega
  · rw [← Nat.succ_eq_add_one, hsucc]
    omega
  · omega
  · rw [← Nat.succ_eq_add_one, hsucc]
    omega

theorem divRound_le {num den k : Nat} (hden : 0 < den) (h : num ≤ k * den) : divRound num den ≤ k := by
  by_contra hk
  have hmul : (k + 1) * den ≤ divRound num den * den := Nat.mul_le_mul_right _ (by omega)
  have hround := (divRound_bounds num hden).1
  rw [Nat.succ_mul] at hmul
  omega

theorem le_divRound {num den k : Nat} (hden : 0 < den) (h : k * den ≤ num) : k ≤ divRound num den := by
  by_contra hk
  have hmul : (divRound num den + 1) * den ≤ k * den := Nat.mul_le_mul_right _ (by omega)
  have hround := (divRound_bounds num hden).2.1
  rw [Nat.succ_mul] at hmul
  omega

namespace Binary.Format

variable (F : Format)

/-! ## Magnitudes -/

theorem binade_pos : 0 < F.binade := Nat.two_pow_pos _

/-- **The magnitude of a significand with `drop` bits below it.**  The one that has become a power of two is the first of
the next exponent. -/
theorem magnitude_add {drop r : Nat} (hr : r ≤ 2 * F.binade) (h : drop = 0 ∨ F.binade ≤ r) :
    F.magnitude (drop * F.binade + r) = r * 2 ^ drop := by
  have hB := F.binade_pos
  unfold magnitude
  by_cases hlow : r < F.binade
  · obtain rfl : drop = 0 := h.resolve_right (Nat.not_le.2 hlow)
    simp [Nat.div_eq_of_lt hlow, Nat.mod_eq_of_lt hlow]
  · obtain ⟨f, rfl⟩ := Nat.exists_eq_add_of_le (Nat.not_lt.1 hlow)
    have hp : drop * F.binade + (F.binade + f) = F.binade * (drop + 1) + f := by ring
    rw [hp, Nat.mul_add_div hB, Nat.mul_add_mod]
    by_cases hf : f < F.binade
    · simp [Nat.div_eq_of_lt hf, Nat.mod_eq_of_lt hf]
    · obtain rfl : f = F.binade := by omega
      have hpow : F.binade * 2 ^ (drop + 1) = (F.binade + F.binade) * 2 ^ drop := by ring
      simpa [Nat.div_self hB] using hpow

/-- Every pattern is a significand with some bits below it. -/
theorem exists_eq_add (p : Nat) : ∃ drop r, p = drop * F.binade + r ∧ r < 2 * F.binade ∧ (drop = 0 ∨ F.binade ≤ r) := by
  have hdiv := Nat.div_add_mod' p F.binade
  have hmod := Nat.mod_lt p F.binade_pos
  cases hq : p / F.binade with
  | zero => exact ⟨0, p, by simp, by rw [hq] at hdiv; omega, .inl rfl⟩
  | succ drop =>
    rw [hq, Nat.succ_mul] at hdiv
    exact ⟨drop, F.binade + p % F.binade, by omega, by omega, .inr (Nat.le_add_right _ _)⟩

/-- **The next pattern is a unit of the last place further on**, or two where the exponent goes up. -/
theorem le_magnitude_succ {drop r : Nat} (hr : r ≤ 2 * F.binade) (h : drop = 0 ∨ F.binade ≤ r) :
    (r + 1) * 2 ^ drop ≤ F.magnitude (drop * F.binade + r + 1) := by
  by_cases hlast : r = 2 * F.binade
  · subst hlast
    have hB := F.binade_pos
    have hp : drop * F.binade + 2 * F.binade + 1 = (drop + 1) * F.binade + (F.binade + 1) := by ring
    rw [hp, F.magnitude_add (by omega) (.inr (by omega)), Nat.pow_succ', ← Nat.mul_assoc]
    exact Nat.mul_le_mul_right _ (by omega)
  · rw [Nat.add_assoc, F.magnitude_add (by omega) (h.imp_right Nat.le_succ_of_le)]

/-- **Patterns are ordered like their magnitudes.** -/
theorem strictMono_magnitude : StrictMono F.magnitude := by
  apply strictMono_nat_of_lt_succ
  intro p
  obtain ⟨drop, r, rfl, hr, h⟩ := F.exists_eq_add p
  calc F.magnitude (drop * F.binade + r) = r * 2 ^ drop := F.magnitude_add hr.le h
    _ < (r + 1) * 2 ^ drop := Nat.mul_lt_mul_of_pos_right (Nat.lt_succ_self r) (Nat.two_pow_pos drop)
    _ ≤ F.magnitude (drop * F.binade + r + 1) := F.le_magnitude_succ hr.le h

/-- **A lower pattern is a unit of the last place below**, except where the exponent goes down. -/
theorem magnitude_add_le {drop r q : Nat} (hr : r ≤ 2 * F.binade) (h : drop = 0 ∨ F.binade < r)
    (hq : q < drop * F.binade + r) : F.magnitude q + 2 ^ drop ≤ r * 2 ^ drop := by
  have hB := F.binade_pos
  have hpos : 0 < r := by rcases h with rfl | h <;> omega
  have hle : F.magnitude q ≤ F.magnitude (drop * F.binade + (r - 1)) := F.strictMono_magnitude.monotone (by omega)
  rw [F.magnitude_add (by omega) (h.imp_right Nat.le_sub_one_of_lt)] at hle
  calc F.magnitude q + 2 ^ drop ≤ (r - 1) * 2 ^ drop + 2 ^ drop := Nat.add_le_add_right hle _
    _ = r * 2 ^ drop := by rw [← Nat.succ_mul, Nat.succ_eq_add_one, Nat.sub_add_cancel hpos]

/-! ## Distances -/

/-- How far a pattern is from `num / den` quanta, in parts of `den`. -/
def distance (num den p : Nat) : Nat := ((F.magnitude p * den : Nat) - num : Int).natAbs

/-- **No farther than another pattern**, and as far only if it is even. -/
def Nearer (num den p q : Nat) : Prop :=
  F.distance num den p ≤ F.distance num den q ∧ (F.distance num den p = F.distance num den q → q = p ∨ p % 2 = 0)

variable {F} {num den : Nat}

theorem magnitude_mul_lt (hden : 0 < den) {p q : Nat} (h : p < q) : F.magnitude p * den < F.magnitude q * den :=
  Nat.mul_lt_mul_of_pos_right (F.strictMono_magnitude h) hden

/-- The quotient is below twice the weight of the hidden bit, and not below that weight if bits of it are dropped. -/
theorem quotient_bounds (hden : 0 < den) {drop : Nat} (hdrop : drop = (num / den).log2 - F.fractionBits) :
    num < 2 * F.binade * (den * 2 ^ drop) ∧ (drop = 0 ∨ F.binade * (den * 2 ^ drop) ≤ num) := by
  have hlt : num / den < 2 ^ ((num / den).log2 + 1) := Nat.lt_log2_self
  have hscale (k : Nat) : 2 ^ k * F.binade * den = F.binade * (den * 2 ^ k) := by ring
  constructor
  · have hle : 2 ^ ((num / den).log2 + 1) ≤ 2 ^ (drop + 1) * F.binade := by
      show _ ≤ 2 ^ (drop + 1) * 2 ^ F.fractionBits
      rw [← Nat.pow_add]
      exact Nat.pow_le_pow_right (by decide) (by omega)
    have hquotient := (Nat.div_lt_iff_lt_mul hden).1 (Nat.lt_of_lt_of_le hlt hle)
    calc num < 2 ^ (drop + 1) * F.binade * den := hquotient
      _ = 2 * F.binade * (den * 2 ^ drop) := by ring
  · by_cases hzero : drop = 0
    · exact .inl hzero
    · right
      have hne : num / den ≠ 0 := by
        intro h
        rw [h, Nat.log2_zero] at hdrop
        omega
      have hge : 2 ^ drop * F.binade ≤ num / den := by
        show 2 ^ drop * 2 ^ F.fractionBits ≤ _
        rw [← Nat.pow_add]
        exact (Nat.pow_le_pow_right (by decide) (by omega)).trans (Nat.log2_self_le hne)
      rw [← hscale]
      exact (Nat.le_div_iff_mul_le hden).1 hge

/-- The significand that is rounded has the bits that it should, or is the next power of two. -/
theorem rounded_bounds (hden : 0 < den) {drop r : Nat} (hdrop : drop = (num / den).log2 - F.fractionBits)
    (hr : r = divRound num (den * 2 ^ drop)) : r ≤ 2 * F.binade ∧ (drop = 0 ∨ F.binade ≤ r) := by
  have hD : 0 < den * 2 ^ drop := Nat.mul_pos hden (Nat.two_pow_pos drop)
  obtain ⟨hlt, hge⟩ := F.quotient_bounds hden hdrop
  exact ⟨hr ▸ divRound_le hD hlt.le, hge.imp_right fun h => hr ▸ le_divRound hD h⟩

/-- **The significand that is rounded**: the pattern made of it is nearer than any other, with no bound on the exponent. -/
theorem nearer_of_drop (hF : 0 < F.fractionBits) (hden : 0 < den) {drop r : Nat}
    (hdrop : drop = (num / den).log2 - F.fractionBits) (hr : r = divRound num (den * 2 ^ drop)) (q : Nat) :
    F.Nearer num den (drop * F.binade + r) q := by
  have hD : 0 < den * 2 ^ drop := Nat.mul_pos hden (Nat.two_pow_pos drop)
  have hge := (F.quotient_bounds hden hdrop).2
  obtain ⟨hlow, hhigh, htie⟩ := divRound_bounds num hD
  obtain ⟨hle, hnormal⟩ := F.rounded_bounds hden hdrop hr
  have hscale (k : Nat) : k * 2 ^ drop * den = k * (den * 2 ^ drop) := by ring
  have hp : F.magnitude (drop * F.binade + r) * den = r * (den * 2 ^ drop) := by rw [F.magnitude_add hle hnormal, hscale]
  -- the weight of an exponent is even, so the pattern is even with its significand
  have heven : r % 2 = 0 → (drop * F.binade + r) % 2 = 0 := by
    intro h
    have hbinade : F.binade % 2 = 0 := Nat.mod_eq_zero_of_dvd (dvd_pow_self 2 hF.ne')
    rw [Nat.add_mod, Nat.mul_mod, hbinade, h]
    rfl
  rw [← hr] at hlow hhigh htie
  unfold Nearer distance
  rw [hp]
  rcases Nat.lt_trichotomy q (drop * F.binade + r) with hq | rfl | hq
  · have hbelow : F.magnitude q * den + den * 2 ^ drop ≤ r * (den * 2 ^ drop) ∨
        F.magnitude q * den < r * (den * 2 ^ drop) ∧ r * (den * 2 ^ drop) ≤ num := by
      by_cases hnext : drop = 0 ∨ F.binade < r
      · left
        calc F.magnitude q * den + den * 2 ^ drop = (F.magnitude q + 2 ^ drop) * den := by ring
          _ ≤ r * 2 ^ drop * den := Nat.mul_le_mul_right den (F.magnitude_add_le hle hnext hq)
          _ = r * (den * 2 ^ drop) := hscale r
      · -- the first pattern of an exponent: the one below is nearer to it, but the number is not below it
        right
        rw [not_or] at hnext
        obtain rfl : r = F.binade := Nat.le_antisymm (Nat.not_lt.1 hnext.2) (hnormal.resolve_left hnext.1)
        exact ⟨hp ▸ F.magnitude_mul_lt hden hq, hge.resolve_left hnext.1⟩
    omega
  · rw [hp]
    exact ⟨Nat.le_refl _, fun _ => .inl rfl⟩
  · have habove : r * (den * 2 ^ drop) + den * 2 ^ drop ≤ F.magnitude q * den := by
      have hge' : F.magnitude (drop * F.binade + r + 1) ≤ F.magnitude q := F.strictMono_magnitude.monotone hq
      calc r * (den * 2 ^ drop) + den * 2 ^ drop = (r + 1) * 2 ^ drop * den := by ring
        _ ≤ F.magnitude q * den := Nat.mul_le_mul_right den ((F.le_magnitude_succ hle hnormal).trans hge')
    omega

/-- **No pattern is nearer than the one that is given**, up to infinity, and one that is as near leaves it the even one. -/
theorem nearer_nearest (hF : 0 < F.fractionBits) (num : Nat) (hden : 0 < den) {q : Nat} (hq : q ≤ F.infinity) :
    F.Nearer num den (F.nearest num den) q := by
  obtain ⟨drop, hdrop⟩ : ∃ drop, drop = (num / den).log2 - F.fractionBits := ⟨_, rfl⟩
  obtain ⟨p, hp⟩ : ∃ p, p = drop * F.binade + divRound num (den * 2 ^ drop) := ⟨_, rfl⟩
  have hnearest : F.nearest num den = min p F.infinity := by
    rw [hp, hdrop]
    rfl
  have hnearer (q : Nat) : F.Nearer num den p q := hp ▸ nearer_of_drop hF hden hdrop rfl q
  rw [hnearest]
  by_cases hp : p ≤ F.infinity
  · rw [Nat.min_eq_left hp]
    exact hnearer q
  · rw [Nat.min_eq_right (Nat.le_of_not_le hp)]
    by_cases heq : q = F.infinity
    · subst heq
      exact ⟨Nat.le_refl _, fun _ => .inl rfl⟩
    · -- beyond the middle between infinity and a higher pattern, and so beyond the middle to any lower one
      have hmiddle := (hnearer F.infinity).1
      have hlow := F.magnitude_mul_lt hden (show q < F.infinity by omega)
      have hhigh := F.magnitude_mul_lt hden (show F.infinity < p by omega)
      unfold Nearer distance at *
      omega

/-- **There is only one nearest pattern**: between two that are even there is a nearer one. -/
theorem nearer_unique (hden : 0 < den) {p p' top : Nat} (hp : p ≤ top) (hp' : p' ≤ top)
    (h : ∀ q ≤ top, F.Nearer num den p q) (h' : ∀ q ≤ top, F.Nearer num den p' q) : p = p' := by
  wlog hlt : p < p' generalizing p p'
  · by_contra hne
    exact hne (this hp' hp h' h (by omega)).symm
  exfalso
  obtain ⟨hle, htie⟩ := h p' hp'
  obtain ⟨hle', htie'⟩ := h' p hp
  -- equally near, both are even, and what is in the middle is nearer to the pattern behind the lower one
  have hnext := (h (p + 1) (Nat.le_trans hlt hp')).1
  have hlow : F.magnitude p * den < F.magnitude (p + 1) * den := F.magnitude_mul_lt hden (Nat.lt_succ_self p)
  have hhigh : p + 1 < p' → F.magnitude (p + 1) * den < F.magnitude p' * den := F.magnitude_mul_lt hden
  unfold distance at *
  omega

/-- **What is not below a pattern is not rounded below it.** -/
theorem le_nearest (hF : 0 < F.fractionBits) (hden : 0 < den) {q : Nat} (hq : q ≤ F.infinity) (h : F.magnitude q * den ≤ num) :
    q ≤ F.nearest num den := by
  by_contra hlt
  have hnearer := (nearer_nearest hF num hden hq).1
  have hmul := F.magnitude_mul_lt hden (Nat.not_le.1 hlt)
  unfold distance at hnearer
  omega

theorem nearest_le_infinity (F : Format) (num den : Nat) : F.nearest num den ≤ F.infinity := Nat.min_le_right _ _

/-- **Where infinity begins**: at the middle between the last finite pattern, which is odd, and infinity. -/
theorem nearest_eq_infinity_iff (hF : 0 < F.fractionBits) (hodd : (F.infinity - 1) % 2 = 1) (hden : 0 < den) :
    F.nearest num den = F.infinity ↔ (F.magnitude (F.infinity - 1) + F.magnitude F.infinity) * den ≤ 2 * num := by
  have hlast := F.magnitude_mul_lt hden (show F.infinity - 1 < F.infinity by omega)
  rw [Nat.add_mul]
  constructor
  · intro h
    have hnearer := (nearer_nearest hF num hden (show F.infinity - 1 ≤ F.infinity by omega)).1
    rw [h] at hnearer
    unfold distance at hnearer
    omega
  · intro h
    by_contra hne
    have hlt : F.nearest num den < F.infinity := Nat.lt_of_le_of_ne (F.nearest_le_infinity num den) hne
    obtain ⟨hle, htie⟩ := nearer_nearest hF num hden (Nat.le_refl F.infinity)
    by_cases hbefore : F.nearest num den = F.infinity - 1
    · rw [hbefore] at hle htie
      unfold distance at hle htie
      omega
    · have hmul := F.magnitude_mul_lt hden (show F.nearest num den < F.infinity - 1 by omega)
      unfold distance at hle
      omega

end Binary.Format

/-! ## Single precision -/

namespace Single

open Binary (Format)

/-! ### Parts -/

section
variable {sign : Bool} {p : Nat} (h : p < signBit)
include h

theorem toNat_ofParts : (ofParts sign p).bits.toNat = if sign then signBit + p else p := by
  have hlt : (if sign then signBit + p else p) < 2 ^ 32 := by
    have hbit : signBit = 2 ^ 31 := rfl
    split <;> omega
  rw [ofParts, UInt32.toNat_ofNat_of_lt' hlt]

theorem negative_ofParts : (ofParts sign p).negative = sign := by
  rw [negative, toNat_ofParts h]
  cases sign <;> simp [h]

theorem pattern_ofParts : (ofParts sign p).pattern = p := by
  rw [pattern, toNat_ofParts h]
  cases sign <;> simp [Nat.mod_eq_of_lt h]

end

/-- **A number that is not negative is given by its pattern.** -/
theorem eq_ofParts {x : Single} (h : x.negative = false) : x = ofParts false x.pattern := by
  have hlt : x.bits.toNat < signBit := by simpa [negative] using h
  obtain ⟨bits⟩ := x
  simp [ofParts, pattern, Nat.mod_eq_of_lt hlt]

theorem infinity_lt_signBit : format.infinity < signBit := by decide

theorem nearest_lt_signBit (num den : Nat) : format.nearest num den < signBit :=
  Nat.lt_of_le_of_lt (format.nearest_le_infinity num den) infinity_lt_signBit

@[simp] theorem negative_nearest (num den : Nat) : (nearest false num den).negative = false :=
  negative_ofParts (nearest_lt_signBit num den)

@[simp] theorem pattern_nearest (num den : Nat) : (nearest false num den).pattern = format.nearest num den :=
  pattern_ofParts (nearest_lt_signBit num den)

/-! ### Values -/

/-- **The size of the number with a finite pattern**, by the fields of the format: an exponent with a bias, and a fraction
behind a bit that is not stored.  Without an exponent that bit is zero. -/
def size (pattern : Nat) : ℚ :=
  let exponent : Nat := pattern / 2 ^ 23
  let fraction : ℚ := (pattern % 2 ^ 23 : Nat) / 2 ^ 23
  if exponent = 0 then fraction * 2 ^ (-126 : Int) else (1 + fraction) * 2 ^ ((exponent : Int) - 127)

def value (x : Single) : ℚ := if x.negative then -size x.pattern else size x.pattern

/-- **The number nearest to one that is not negative**: no finite number is nearer, and another one is as near only if the
last bit of this one is zero.  From the middle between the largest finite number and the next power of two on it is
infinity. -/
structure NearestTo (v : ℚ) (x : Single) : Prop where
  positive : x.negative = false
  infinite : 2 ^ 128 - 2 ^ 103 ≤ v → x.isInfinite = true
  finite : v < 2 ^ 128 - 2 ^ 103 → x.isFinite = true
  nearest : v < 2 ^ 128 - 2 ^ 103 → ∀ y : Single, y.isFinite = true → |x.value - v| ≤ |y.value - v| ∧
    (|x.value - v| = |y.value - v| → y = x ∨ x.pattern % 2 = 0)

theorem size_eq (p : Nat) : size p = format.magnitude p / 2 ^ 149 := by
  have hbinade : format.binade = 2 ^ 23 := rfl
  unfold size Format.magnitude
  rw [hbinade]
  dsimp only
  cases h : p / 2 ^ 23 with
  | zero =>
    rw [if_pos rfl, if_pos rfl]
    field_simp
  | succ e =>
    have hexponent : ((e + 1 : Nat) : Int) - 127 = (e : Int) - 126 := by push_cast; ring
    have hpow : Nat.pow 2 (e + 1 - 1) = 2 ^ e := rfl
    rw [if_neg (Nat.succ_ne_zero e), if_neg (Nat.succ_ne_zero e), hexponent, hpow, zpow_sub₀ (by norm_num), zpow_natCast]
    push_cast
    field_simp
    norm_num

@[simp] theorem size_zero : size 0 = 0 := by
  rw [size_eq]
  simp [Format.magnitude]

theorem value_of_positive {x : Single} (h : x.negative = false) : x.value = size x.pattern := by simp [value, h]

theorem size_nonneg (p : Nat) : 0 ≤ size p := by
  rw [size_eq]
  exact div_nonneg (Nat.cast_nonneg _) (by norm_num)

section
variable {v : ℚ} {num den : Nat} (hden : 0 < den) (hv : v = num / (den * 2 ^ 149))
include hden hv

theorem abs_size_sub (p : Nat) : |size p - v| = (format.distance num den p : ℚ) / (den * 2 ^ 149) := by
  have hcast : (0 : ℚ) < den := Nat.cast_pos.2 hden
  have hpos : (0 : ℚ) < den * 2 ^ 149 := mul_pos hcast (by norm_num)
  have hdistance : (format.distance num den p : ℚ) = |(format.magnitude p * den - num : ℚ)| := by
    rw [Format.distance, Nat.cast_natAbs]
    push_cast
    rfl
  have hsub : size p - v = (format.magnitude p * den - num) / (den * 2 ^ 149) := by
    rw [size_eq, hv]
    field_simp
  rw [hsub, abs_div, abs_of_pos hpos, hdistance]

theorem distance_le_iff (p q : Nat) :
    format.distance num den p ≤ format.distance num den q ↔ |size p - v| ≤ |size q - v| := by
  have hpos : (0 : ℚ) < den * 2 ^ 149 := mul_pos (Nat.cast_pos.2 hden) (by norm_num)
  rw [abs_size_sub hden hv, abs_size_sub hden hv, div_le_div_iff_of_pos_right hpos, Nat.cast_le]

theorem distance_eq_iff (p q : Nat) :
    format.distance num den p = format.distance num den q ↔ |size p - v| = |size q - v| := by
  have hpos : (0 : ℚ) < den * 2 ^ 149 := mul_pos (Nat.cast_pos.2 hden) (by norm_num)
  rw [abs_size_sub hden hv, abs_size_sub hden hv, div_left_inj' hpos.ne', Nat.cast_inj]

theorem nearest_eq_infinity_iff : format.nearest num den = format.infinity ↔ 2 ^ 128 - 2 ^ 103 ≤ v := by
  have hsum : format.magnitude (format.infinity - 1) + format.magnitude format.infinity =
      2 * ((2 ^ 128 - 2 ^ 103) * 2 ^ 149) := by decide +kernel
  have hpos : (0 : ℚ) < den * 2 ^ 149 := mul_pos (Nat.cast_pos.2 hden) (by norm_num)
  have hcast : (((2 ^ 128 - 2 ^ 103) * 2 ^ 149 * den : Nat) : ℚ) = (2 ^ 128 - 2 ^ 103) * (den * 2 ^ 149) := by
    push_cast
    ring
  rw [Format.nearest_eq_infinity_iff (by decide) (by decide) hden, hsum, Nat.mul_assoc, Nat.mul_le_mul_left_iff (by decide),
    hv, le_div_iff₀ hpos, ← hcast, Nat.cast_le]

/-- **A quotient of quanta is rounded to the number nearest to it.** -/
theorem nearestTo_nearest : NearestTo v (nearest false num den) := by
  have hnearer {q : Nat} (hq : q ≤ format.infinity) : format.Nearer num den (format.nearest num den) q :=
    Format.nearer_nearest (by decide) num hden hq
  have hinfinity := nearest_eq_infinity_iff hden hv
  constructor
  · exact negative_nearest num den
  · intro hlarge
    rw [isInfinite, pattern_nearest, decide_eq_true_eq]
    exact hinfinity.2 hlarge
  · intro hsmall
    rw [isFinite, pattern_nearest, decide_eq_true_eq]
    exact Nat.lt_of_le_of_ne (format.nearest_le_infinity num den) fun h => absurd (hinfinity.1 h) (not_le.2 hsmall)
  · intro _ y hy
    rw [isFinite, decide_eq_true_eq] at hy
    rw [value_of_positive (negative_nearest num den), pattern_nearest]
    by_cases hsign : y.negative = true
    · -- a negative number is not nearer than zero, and zero is even
      obtain ⟨hdist, htie⟩ := hnearer (Nat.zero_le format.infinity)
      rw [distance_le_iff hden hv] at hdist
      rw [distance_eq_iff hden hv] at htie
      have hsize := size_nonneg y.pattern
      have hpos : 0 ≤ v := hv ▸ div_nonneg (Nat.cast_nonneg _) (mul_nonneg (Nat.cast_nonneg _) (by norm_num))
      have hzero : |size 0 - v| = v := by rw [size_zero, zero_sub, abs_neg, abs_of_nonneg hpos]
      have hfar : |y.value - v| = size y.pattern + v := by
        rw [value, if_pos hsign, ← neg_add', abs_neg, abs_of_nonneg (add_nonneg hsize hpos)]
      rw [hfar]
      refine ⟨by linarith, fun h => .inr ?_⟩
      rcases htie (by linarith) with hp | hp
      · rw [← hp]
      · exact hp
    · have hsign : y.negative = false := by simpa using hsign
      obtain ⟨hdist, htie⟩ := hnearer hy.le
      rw [value_of_positive hsign, ← distance_le_iff hden hv, ← distance_eq_iff hden hv]
      refine ⟨hdist, fun h => (htie h).imp_left fun hp => ?_⟩
      rw [eq_ofParts hsign, hp, nearest]

/-- The nearest number has the nearest of the finite patterns. -/
theorem NearestTo.nearer {x : Single} (h : NearestTo v x) (hsmall : v < 2 ^ 128 - 2 ^ 103) {q : Nat}
    (hq : q < format.infinity) : format.Nearer num den x.pattern q := by
  have hlt := hq.trans infinity_lt_signBit
  obtain ⟨hdist, htie⟩ := h.nearest hsmall (ofParts false q) (by rw [isFinite, pattern_ofParts hlt]; exact decide_eq_true hq)
  rw [value_of_positive h.positive, value_of_positive (negative_ofParts hlt), pattern_ofParts hlt] at hdist htie
  refine ⟨(distance_le_iff hden hv _ _).2 hdist, fun heq => ?_⟩
  refine (htie ((distance_eq_iff hden hv _ _).1 heq)).imp_left fun hx => ?_
  rw [← hx, pattern_ofParts hlt]

/-- **There is one nearest number**, and it is the one that a quotient is rounded to. -/
theorem nearestTo_iff {x : Single} : NearestTo v x ↔ x = nearest false num den := by
  constructor
  · intro h
    have h' := nearestTo_nearest hden hv
    have hpattern : x.pattern = (nearest false num den).pattern := by
      by_cases hsmall : v < 2 ^ 128 - 2 ^ 103
      · have hfinite := h.finite hsmall
        have hfinite' := h'.finite hsmall
        rw [isFinite, decide_eq_true_eq] at hfinite hfinite'
        exact Format.nearer_unique hden (Nat.le_sub_one_of_lt hfinite) (Nat.le_sub_one_of_lt hfinite')
          (fun q hq => h.nearer hden hv hsmall (by omega)) (fun q hq => h'.nearer hden hv hsmall (by omega))
      · have hinfinite := h.infinite (not_lt.1 hsmall)
        have hinfinite' := h'.infinite (not_lt.1 hsmall)
        rw [isInfinite, decide_eq_true_eq] at hinfinite hinfinite'
        rw [hinfinite, hinfinite']
    rw [eq_ofParts h.positive, hpattern, ← eq_ofParts h'.positive]
  · rintro rfl
    exact nearestTo_nearest hden hv

end
end Single
end Autoscript
