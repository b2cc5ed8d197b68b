import Autoscript.Proofs.Spelling
import Autoscript.Proofs.Nearest
import Mathlib.Data.List.TakeWhile
/-!
# Shown — a value that is shown reads back

A finite float is shown with digits on both sides of a point.  They spell a decimal that rounds to the float: one that the
search of `Format.shortest` has found, which ends since the finest grid holds the float itself (`ofDecimal_shortest`), or all
the digits of a whole one.  A float that is not whole is never shown without the point, since whole decimals round to whole
floats (`one_dvd_magnitude`).  So what is shown reads as the literal of the same value, behind a minus sign where there is
one (`lex_text`).
-/
namespace Autoscript

open Binary (Format)

/-! ## Digits around a point -/

namespace Decimal

/-- **A decimal and its digits around a point**, with one before the point at least. -/
inductive Pointed : Decimal → List Char → Prop where
  | intro (whole places : List Char) : whole ≠ [] → (∀ c ∈ whole ++ places, c.isDigit = true) →
      Pointed ⟨ofDigits (whole ++ places), -places.length⟩ (whole ++ '.' :: places)

variable {d : Decimal} {cs : List Char}

theorem Pointed.literal? (h : d.Pointed cs) : Decimal.literal? cs = some d := by
  obtain ⟨whole, places, hne, hdigits⟩ := h
  rw [List.forall_mem_append] at hdigits
  obtain ⟨hwhole, hplaces⟩ := hdigits
  have htake : (whole ++ '.' :: places).takeWhile Char.isDigit = whole := by
    rw [List.takeWhile_append_of_pos hwhole]
    simp
  have hdrop : (whole ++ '.' :: places).dropWhile Char.isDigit = '.' :: places := by
    rw [List.dropWhile_append_of_pos hwhole]
    rfl
  have htake' : places.takeWhile Char.isDigit = places := List.takeWhile_eq_self_iff.2 hplaces
  have hdrop' : places.dropWhile Char.isDigit = [] := List.dropWhile_eq_nil_iff.2 hplaces
  simp [Decimal.literal?, htake, hdrop, htake', hdrop', hne, scale?]

theorem Pointed.natural? (h : d.Pointed cs) : Decimal.natural? cs = none := by
  obtain ⟨whole, places, hne, hdigits⟩ := h
  rw [Decimal.natural?, if_neg]
  rintro ⟨-, hall⟩
  exact absurd (List.all_eq_true.1 hall '.' (by simp)) (by decide)

theorem Pointed.exists_cons (h : d.Pointed cs) : ∃ c w, cs = c :: w ∧ c.isDigit = true ∧ ∀ c ∈ w, Lexer.isWordChar c = true := by
  obtain ⟨whole, places, hne, hdigits⟩ := h
  obtain ⟨c, w, rfl⟩ := List.exists_cons_of_ne_nil hne
  refine ⟨c, w ++ '.' :: places, rfl, hdigits c (by simp), fun e he => ?_⟩
  by_cases hpoint : e = '.'
  · subst hpoint
    decide
  · have hmem : e ∈ c :: w ++ places := by
      simp only [List.mem_append, List.mem_cons] at he ⊢
      tauto
    exact Lexer.isWordChar_of_isAlphanumeric (Lexer.isAlphanumeric_of_isDigit (hdigits e hmem))

/-- **Digits around a point are a float**, and no integer, keyword or name. -/
theorem Pointed.classify (h : d.Pointed cs) : Lexer.classify cs = .float (Single.ofDecimal d) := by
  have hhead : cs.head?.any Char.isDigit = true := by
    obtain ⟨c, w, rfl, hc, -⟩ := h.exists_cons
    exact hc
  simp only [Lexer.classify, h.natural?, h.literal?, hhead, if_true, Option.filter_none]

theorem pointed_positional (h : d.exponent < 0) : d.Pointed d.positional := by
  obtain ⟨coefficient, exponent⟩ := d
  obtain ⟨places, rfl⟩ : ∃ places : Nat, exponent = -(places : Int) := ⟨exponent.natAbs, by dsimp only at h; omega⟩
  dsimp only at h
  -- zeros fill up to one digit more than there are places, so that there is one before the point
  obtain ⟨padded, hpadded⟩ : ∃ padded, padded =
      List.replicate (places + 1 - (digits coefficient).length) '0' ++ digits coefficient := ⟨_, rfl⟩
  have hlength : places < padded.length := by
    rw [hpadded, List.length_append, List.length_replicate]
    omega
  have htext : positional ⟨coefficient, -places⟩ =
      padded.take (padded.length - places) ++ '.' :: padded.drop (padded.length - places) := by
    have hplaces : (-(-(places : Int))).toNat = places := by omega
    simp only [positional, hplaces]
    rw [if_neg (by omega), ← hpadded]
  have hpointed := Pointed.intro (padded.take (padded.length - places)) (padded.drop (padded.length - places))
    (List.ne_nil_of_length_pos (by rw [List.length_take]; omega))
    (by
      rw [List.take_append_drop, hpadded]
      exact fun c => isDigit_of_mem_padded)
  rw [List.take_append_drop, List.length_drop, show padded.length - (padded.length - places) = places by omega] at hpointed
  rw [hpadded, ofDigits_zeros_append, ofDigits_digits, ← hpadded] at hpointed
  rw [htext]
  exact hpointed

/-- A whole number with one place. -/
theorem pointed_whole (n : Nat) : Pointed ⟨10 * n, -1⟩ (digits n ++ ['.', '0']) := by
  have hvalue : ofDigits (digits n ++ ['0']) = 10 * n := by
    have happend : ofDigits (digits n ++ ['0']) = 10 * ofDigits (digits n) := List.foldl_append
    rw [happend, ofDigits_digits]
  have hpointed := Pointed.intro (digits n) ['0'] Nat.toDigits_ne_nil
    (List.forall_mem_append.2 ⟨fun c => isDigit_of_mem_digits, List.forall_mem_singleton.2 rfl⟩)
  rwa [hvalue] at hpointed

end Decimal

/-! ## Decimals that round to a pattern -/

namespace Binary.Format

variable {F : Format} {p : Nat}

theorem magnitude_zero (F : Format) : F.magnitude 0 = 0 := by simp [magnitude]

theorem magnitude_pos (h : 0 < p) : 0 < F.magnitude p :=
  Nat.lt_of_le_of_lt (Nat.zero_le _) (F.strictMono_magnitude h)

theorem ofDecimal_of_onGrid {e : Int} {d : Decimal} (h : F.onGrid p e = some d) : F.ofDecimal d = p := by
  unfold onGrid at h
  dsimp only at h
  split_ifs at h with hbelow habove habove
  · cases h
    exact habove.1
  · cases h
    exact hbelow
  · cases h
    exact habove

section
variable (hF : 0 < F.fractionBits)
include hF

/-- **A pattern's own magnitude is rounded to the pattern.** -/
theorem nearest_magnitude {den : Nat} (hden : 0 < den) (hp : p ≤ F.infinity) : F.nearest (F.magnitude p * den) den = p := by
  have hdistance := (nearer_nearest hF (F.magnitude p * den) hden hp).1
  have hmul : F.magnitude (F.nearest (F.magnitude p * den) den) * den = F.magnitude p * den := by
    unfold distance at hdistance
    omega
  exact F.strictMono_magnitude.injective (Nat.eq_of_mul_eq_mul_right hden hmul)

/-- **A decimal with the value of a pattern rounds to it.** -/
theorem ofDecimal_of_exact (hp : p ≤ F.infinity) {n places : Nat} (h : n * F.one = F.magnitude p * 10 ^ places) :
    F.ofDecimal ⟨n, -places⟩ = p := by
  have hpower : 0 < 10 ^ places := Nat.pow_pos (by decide)
  by_cases hn : n = 0
  · subst hn
    rw [Nat.zero_mul] at h
    by_contra hne
    have hpos : 0 < F.magnitude p := magnitude_pos (Nat.pos_of_ne_zero (Ne.symm hne))
    have hmul := Nat.mul_pos hpos hpower
    omega
  · have hexponent : ¬ ((Nat.pow 2 (F.exponentBits - 1) : Nat) : Int) ≤ -(places : Int) := by
      have htwo : 0 < Nat.pow 2 (F.exponentBits - 1) := Nat.two_pow_pos _
      omega
    have hwhole : (-(places : Int)).toNat = 0 := by omega
    have hplaces : (-(-(places : Int))).toNat = places := by omega
    rw [ofDecimal, if_neg hn, if_neg hexponent]
    dsimp only
    rw [hwhole, hplaces, show Nat.pow 10 0 = 1 from rfl, Nat.mul_one, h]
    exact nearest_magnitude hF hpower hp

/-- On the finest grid a number is its own neighbour. -/
theorem onGrid_finest (hp : p ≤ F.infinity) : F.onGrid p (-F.depth) ≠ none := by
  have hone : F.one = 2 ^ F.depth := rfl
  have hpow : (10 : Nat) ^ F.depth = 5 ^ F.depth * F.one := Nat.mul_pow 5 2 F.depth
  have hexact : F.magnitude p * 5 ^ F.depth * F.one = F.magnitude p * 10 ^ F.depth := by rw [hpow, Nat.mul_assoc]
  have hquotient : F.magnitude p * Nat.pow 10 F.depth / (F.one * Nat.pow 10 0) = F.magnitude p * 5 ^ F.depth := by
    show F.magnitude p * 10 ^ F.depth / (F.one * 1) = _
    rw [← hexact, Nat.mul_one, Nat.mul_div_cancel _ (hone ▸ Nat.two_pow_pos _)]
  have hwhole : (-(F.depth : Int)).toNat = 0 := by omega
  have hplaces : (-(-(F.depth : Int))).toNat = F.depth := by omega
  unfold onGrid
  dsimp only
  rw [hwhole, hplaces, hquotient, if_pos (ofDecimal_of_exact hF hp hexact)]
  split <;> simp

/-- **The shortest decimal reads back.** -/
theorem ofDecimal_shortest (hp : p ≤ F.infinity) : F.ofDecimal (F.shortest p) = p := by
  unfold shortest
  by_cases hzero : p = 0
  · rw [if_pos hzero, hzero]
    rfl
  · have hfinest : -(F.depth : Int) ∈ F.grids p := by
      unfold grids
      exact List.mem_map.2 ⟨_, List.mem_range.2 (Nat.lt_succ_self _), by push_cast; ring⟩
    rw [if_neg hzero]
    cases hfound : (F.grids p).findSome? (F.onGrid p) with
    | none => exact absurd (List.findSome?_eq_none_iff.1 hfound _ hfinest) (onGrid_finest hF hp)
    | some d =>
      obtain ⟨e, -, he⟩ := List.exists_of_findSome?_eq_some hfound
      exact ofDecimal_of_onGrid he

end

theorem one_dvd_magnitude_nearest {n : Nat} (h : F.nearest (n * F.one) 1 < F.infinity) :
    F.one ∣ F.magnitude (F.nearest (n * F.one) 1) := by
  obtain ⟨drop, hdrop⟩ : ∃ drop, drop = (n * F.one / 1).log2 - F.fractionBits := ⟨_, rfl⟩
  obtain ⟨r, hr⟩ : ∃ r, r = divRound (n * F.one) (1 * 2 ^ drop) := ⟨_, rfl⟩
  obtain ⟨hle, hnormal⟩ := F.rounded_bounds Nat.one_pos hdrop hr
  have hmin : F.nearest (n * F.one) 1 = min (drop * F.binade + r) F.infinity := by
    rw [hr, hdrop]
    rfl
  have hfinite : F.nearest (n * F.one) 1 = drop * F.binade + r := by omega
  rw [hfinite, F.magnitude_add hle hnormal]
  by_cases hdepth : drop ≤ F.depth
  · -- the bits that are dropped are zeros
    have hsplit : n * F.one = n * 2 ^ (F.depth - drop) * (1 * 2 ^ drop) := by
      rw [Nat.one_mul, Nat.mul_assoc, ← Nat.pow_add, Nat.sub_add_cancel hdepth]
      rfl
    rw [hsplit, divRound_mul _ _ (by rw [Nat.one_mul]; exact Nat.two_pow_pos drop)] at hr
    rw [Nat.one_mul, ← hr] at hsplit
    exact hsplit ▸ Nat.dvd_mul_left _ _
  · -- a unit of the last place is whole already
    exact Nat.dvd_mul_left_of_dvd (Nat.pow_dvd_pow 2 (Nat.le_of_not_le hdepth)) r

/-- **A whole decimal rounds to a whole number.** -/
theorem one_dvd_magnitude {d : Decimal} (hd : 0 ≤ d.exponent) (h : F.ofDecimal d < F.infinity) :
    F.one ∣ F.magnitude (F.ofDecimal d) := by
  have hplaces : (-d.exponent).toNat = 0 := by omega
  unfold ofDecimal at h ⊢
  split_ifs at h ⊢ with hzero hlarge
  · rw [magnitude_zero]
    exact Nat.dvd_zero _
  · exact absurd h (Nat.lt_irrefl _)
  · rw [hplaces] at h ⊢
    exact one_dvd_magnitude_nearest h

end Binary.Format

/-! ## Values that are shown -/

namespace Single

theorem fractionBits_pos : 0 < format.fractionBits := by decide

theorem pattern_lt {x : Single} (h : x.isFinite = true) : x.pattern < format.infinity := by simpa [isFinite] using h

/-- A whole float with all its digits and one place. -/
theorem ofDecimal_whole {x : Single} (h : x.isWhole = true) :
    ofDecimal ⟨10 * (x.magnitude / format.one), -1⟩ = x.abs := by
  rw [isWhole, Bool.and_eq_true] at h
  have hdvd : format.one ∣ x.magnitude := Nat.dvd_of_mod_eq_zero (beq_iff_eq.1 h.2)
  have hexact : 10 * (x.magnitude / format.one) * format.one = format.magnitude x.pattern * 10 ^ 1 := by
    rw [Nat.mul_assoc, Nat.div_mul_cancel hdvd, Nat.mul_comm]
    rfl
  exact congrArg (ofParts false) (Format.ofDecimal_of_exact fractionBits_pos (pattern_lt h.1).le hexact)

theorem ofDecimal_shortest {x : Single} (h : x.isFinite = true) : ofDecimal (format.shortest x.pattern) = x.abs :=
  congrArg (ofParts false) (Format.ofDecimal_shortest fractionBits_pos (pattern_lt h).le)

/-- **A float that is not whole has places**, however few digits it is shown with. -/
theorem exponent_shortest_neg {x : Single} (h : x.isFinite = true) (hwhole : ¬ x.isWhole = true) :
    (format.shortest x.pattern).exponent < 0 := by
  have hfinite := pattern_lt h
  have hshortest := Format.ofDecimal_shortest fractionBits_pos hfinite.le
  by_contra hexponent
  have hdvd := Format.one_dvd_magnitude (Int.not_lt.1 hexponent) (by rw [hshortest]; exact hfinite)
  rw [hshortest] at hdvd
  apply hwhole
  rw [isWhole, h, Bool.true_and]
  exact beq_iff_eq.2 (Nat.mod_eq_zero_of_dvd hdvd)

/-- **A finite float is shown as digits around a point**, which spell a decimal that rounds to it. -/
theorem exists_pointed {x : Single} (h : x.isFinite = true) : ∃ d cs,
    x.textWithPlace = x.sign ++ String.ofList cs ∧ d.Pointed cs ∧ ofDecimal d = x.abs := by
  by_cases hwhole : x.isWhole = true
  · refine ⟨_, _, ?_, Decimal.pointed_whole _, ofDecimal_whole hwhole⟩
    rw [textWithPlace, if_pos hwhole, String.ofList_append, String.append_assoc]
  · refine ⟨_, _, ?_, Decimal.pointed_positional (exponent_shortest_neg h hwhole), ofDecimal_shortest h⟩
    have hnan : x.isNaN = false := decide_eq_false (Nat.not_lt.2 (pattern_lt h).le)
    have hinfinite : x.isInfinite = false := decide_eq_false (pattern_lt h).ne
    rw [textWithPlace, if_neg hwhole, text, hnan, hinfinite]
    rfl

end Single

/-! ## Reading what is shown -/

theorem Lexer.lex_of_items {source : String} {ts : List Token} (h : items .initial source.toList = ts.map .ok) :
    lex source = .ok ts := by
  rw [lex_ok_iff, h]
  exact ⟨errors_map_ok ts, tokens_map_ok ts⟩

namespace Scalar

open Lexer

theorem lex_text_int {n : Int32} (hn : 0 ≤ n.toInt) :
    lex (Scalar.int n).text = .ok [⟨.int n, 1⟩, ⟨.endOfSource, 1⟩] := by
  obtain ⟨c, w, htext, hc, hw, hclass⟩ := (Spelling.int n hn).word_of_isWord rfl
  apply lex_of_items
  rw [text, htext, State.initial, items_last_word hc hw, ← htext, hclass]
  rfl

theorem lex_text_float {x : Single} (hx : x.isFinite = true) : lex (Scalar.float x).text =
    .ok ((if x.negative then [⟨.operator (.arith .sub), 1⟩] else []) ++ [⟨.float x.abs, 1⟩, ⟨.endOfSource, 1⟩]) := by
  obtain ⟨d, cs, htext, hpointed, hvalue⟩ := Single.exists_pointed hx
  obtain ⟨c, w, hcons, hc, hw⟩ := hpointed.exists_cons
  have hword : items .initial cs = [found 1 (.float x.abs), found 1 .endOfSource] := by
    rw [hcons, State.initial, items_last_word (isAlphanumeric_of_isDigit hc) hw, ← hcons, hpointed.classify, hvalue]
  apply lex_of_items
  rw [text, htext, Single.sign, String.toList_append, String.toList_ofList]
  by_cases hsign : x.negative = true
  · have hminus : items .initial ('-' :: cs) = found 1 (.operator (.arith .sub)) :: items .initial cs := rfl
    rw [if_pos hsign, if_pos hsign]
    exact hminus.trans (by rw [hword]; rfl)
  · rw [if_neg hsign, if_neg hsign]
    exact hword

/-- **What is shown reads back**: an integer that is not negative as itself, and a finite float as its absolute value,
behind a minus sign if its sign is set. -/
theorem lex_text :
    (∀ n : Int32, 0 ≤ n.toInt → lex (Scalar.int n).text = .ok [⟨.int n, 1⟩, ⟨.endOfSource, 1⟩]) ∧
      ∀ x : Single, x.isFinite = true → lex (Scalar.float x).text =
        .ok ((if x.negative then [⟨.operator (.arith .sub), 1⟩] else []) ++ [⟨.float x.abs, 1⟩, ⟨.endOfSource, 1⟩]) :=
  ⟨fun _ => lex_text_int, fun _ => lex_text_float⟩

/-- The largest integer, and the negative number that is nearest to zero, with all its places. -/
theorem lex_text_of_extremes :
    lex "2147483647" = .ok [⟨.int 2147483647, 1⟩, ⟨.endOfSource, 1⟩] ∧
      lex "-0.000000000000000000000000000000000000000000001" =
        .ok [⟨.operator (.arith .sub), 1⟩, ⟨.float ⟨1⟩, 1⟩, ⟨.endOfSource, 1⟩] := by
  have hint : (Scalar.int 2147483647).text = "2147483647" := by decide +kernel
  have hfloat : (Scalar.float ⟨0x80000001⟩).text = "-0.000000000000000000000000000000000000000000001" := by
    decide +kernel
  obtain ⟨hints, hfloats⟩ := lex_text
  exact ⟨hint ▸ hints 2147483647 (by decide), hfloat ▸ hfloats ⟨0x80000001⟩ (by decide)⟩

end Scalar
end Autoscript
