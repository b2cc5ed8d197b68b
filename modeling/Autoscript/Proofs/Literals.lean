import Autoscript.Proofs.Spelling
import Autoscript.Proofs.Coercions
import Mathlib.Data.List.Induction
import Mathlib.Data.List.TakeWhile
import Mathlib.Data.Nat.Digits.Defs
/-!
# Literals — digits of any length

Digits are read as an integer of 32 bits if they are one, and as a float otherwise (`classify_digits`); either is then
converted for the place where it goes.  Both ways lead to the same word: the integer, or the largest one, in an integer's
place, and the number nearest to it in a float's (`literal_stored`).
-/
namespace Autoscript

/-! ## Digits -/

/-- **The number that digits spell** in base ten, with the last of them for the units. -/
def Decimal.spelled (ds : List Char) : Nat := Nat.ofDigits 10 (ds.reverse.map fun d => d.toNat - '0'.toNat)

theorem Decimal.ofDigits_eq_spelled (ds : List Char) : ofDigits ds = spelled ds := by
  unfold ofDigits spelled
  induction ds using List.reverseRecOn with
  | nil => rfl
  | append_singleton ds d ih =>
    rw [List.foldl_append, List.reverse_append, List.foldl_cons, List.foldl_nil, ih, List.reverse_singleton,
      List.singleton_append, List.map_cons, Nat.ofDigits_cons, Nat.add_comm]

section
variable {ds : List Char} (hne : ds ≠ []) (hdigits : ∀ d ∈ ds, d.isDigit = true)
include hne hdigits

theorem Decimal.natural?_digits : natural? ds = some (ofDigits ds) := by
  rw [natural?, if_pos ⟨hne, List.all_eq_true.2 hdigits⟩]

theorem Decimal.literal?_digits : literal? ds = some ⟨ofDigits ds, 0⟩ := by
  have htake : ds.takeWhile Char.isDigit = ds := List.takeWhile_eq_self_iff.2 hdigits
  have hdrop : ds.dropWhile Char.isDigit = [] := List.dropWhile_eq_nil_iff.2 hdigits
  simp [literal?, htake, hdrop, hne, scale?]

/-- **How digits are read**: as an integer while they fit, then as the float nearest to the number. -/
theorem Lexer.classify_digits : classify ds = if Decimal.ofDigits ds < 2 ^ 31 then .int (Int32.ofNat (Decimal.ofDigits ds))
    else .float (Single.nearest false (Decimal.ofDigits ds * Single.format.one) 1) := by
  unfold classify
  rw [Decimal.natural?_digits hne hdigits, Decimal.literal?_digits hne hdigits]
  by_cases h : Decimal.ofDigits ds < 2 ^ 31
  · have hfits : (some (Decimal.ofDigits ds)).filter (· < 0x80000000) = some (Decimal.ofDigits ds) := by
      simpa [Option.filter] using h
    rw [hfits, if_pos h]
  · have hlarge : (some (Decimal.ofDigits ds)).filter (· < 0x80000000) = none := by simpa [Option.filter] using h
    have hhead : ds.head?.any Char.isDigit = true := by
      obtain ⟨d, ds, rfl⟩ := List.exists_cons_of_ne_nil hne
      exact hdigits d List.mem_cons_self
    have hpattern : Single.format.ofDecimal ⟨Decimal.ofDigits ds, 0⟩ =
        Single.format.nearest (Decimal.ofDigits ds * Single.format.one) 1 := by
      have hexponent : ¬ ((Nat.pow 2 (Single.format.exponentBits - 1) : Nat) : Int) ≤ 0 := by decide
      rw [Binary.Format.ofDecimal, if_neg (by dsimp only; omega), if_neg hexponent]
      simp
    rw [hlarge, if_neg h, if_pos hhead]
    dsimp only
    rw [Single.ofDecimal, hpattern, Single.nearest]

end

/-! ## Conversions -/

namespace Single

open Binary (Format)

theorem ofInt_ofNat {n : Nat} (h : n < 2 ^ 31) : ofInt (Int32.ofNat n) = nearest false (n * format.one) 1 := by
  have hn : (Int32.ofNat n).toInt = n := Int32.toInt_ofNat_of_lt h
  have hsign : decide ((n : Int) < 0) = false := by simp
  rw [ofInt, hn, hsign, Int.natAbs_natCast]

/-- **A number that is too large for an integer is rounded to one that is**, infinity included, and cut to the largest. -/
theorem toInt_nearest {n : Nat} (h : 2 ^ 31 ≤ n) : (nearest false (n * format.one) 1).toInt = 2147483647 := by
  have hle := format.nearest_le_infinity (n * format.one) 1
  have hmagnitude : format.magnitude 0x4f000000 = 2 ^ 31 * format.one := by decide +kernel
  -- the first number that is too large has a pattern of its own
  have hpower : 0x4f000000 ≤ format.nearest (n * format.one) 1 := by
    apply Format.le_nearest (by decide) Nat.one_pos (by decide)
    rw [hmagnitude, Nat.mul_one]
    exact Nat.mul_le_mul_right _ h
  have hwhole : 2 ^ 31 ≤ (nearest false (n * format.one) 1).magnitude / format.one := by
    rw [magnitude, pattern_nearest, Nat.le_div_iff_mul_le (by decide), ← hmagnitude]
    exact format.strictMono_magnitude.monotone hpower
  have hnan : (nearest false (n * format.one) 1).isNaN = false := by
    rw [isNaN, pattern_nearest, decide_eq_false_iff_not]
    exact Nat.not_lt.2 hle
  rw [toInt, hnan, negative_nearest]
  have hmin : min (((nearest false (n * format.one) 1).magnitude : Int) / format.one) 2147483647 = 2147483647 := by
    rw [min_eq_right]
    exact_mod_cast (show 2147483647 ≤ (nearest false (n * format.one) 1).magnitude / format.one by omega)
  simp only [Bool.false_eq_true, if_false, hmin]
  rfl

end Single

/-! ## Scripts -/

namespace Script

def storing (ty : Ty) (w : Word) : List Instr := [.setupFrame 4, .mode ty, .pushImm w, .storeVar 4, .halt]

def literalWord (ty : Ty) : Token.Kind → Option Word
  | .int n => some (ty.ofInt n)
  | .float x => some (ty.ofSingle x)
  | _ => none

theorem lex_assigned (ty : Ty) {ds : List Char} (hne : ds ≠ []) (hdigits : ∀ d ∈ ds, d.isDigit = true) :
    Lexer.lex (ty.word ++ " x\nx <- " ++ String.ofList ds) = .ok [⟨.keyword (.declare ty), 1⟩, ⟨.name "x", 1⟩,
      ⟨.endOfLine, 1⟩, ⟨.name "x", 2⟩, ⟨.operator .assign, 2⟩, ⟨Lexer.classify ds, 2⟩, ⟨.endOfSource, 2⟩] := by
  have hhead : Lexer.items .initial ((ty.word ++ " x\nx <- ").toList ++ ds) =
      [.keyword (.declare ty), .name "x", .endOfLine].map (Lexer.found 1) ++
        [.name "x", .operator .assign].map (Lexer.found 2) ++ Lexer.items ⟨.idle, 2⟩ ds := by
    cases ty <;> rfl
  have hlast : Lexer.items ⟨.idle, 2⟩ ds = [.ok ⟨Lexer.classify ds, 2⟩, .ok ⟨.endOfSource, 2⟩] := by
    obtain ⟨d, w, rfl⟩ := List.exists_cons_of_ne_nil hne
    have hd : Text.isAlphanumeric d = true := Lexer.isAlphanumeric_of_isDigit (hdigits d List.mem_cons_self)
    have hw : ∀ c ∈ w, Lexer.isWordChar c = true := fun c hc =>
      Lexer.isWordChar_of_isAlphanumeric (Lexer.isAlphanumeric_of_isDigit (hdigits c (List.mem_cons_of_mem _ hc)))
    exact Lexer.items_last_word hd hw 2
  rw [Lexer.lex_ok_iff, String.toList_append, String.toList_ofList, hhead, hlast]
  exact ⟨rfl, rfl⟩

/-- **A literal on the second line**, where the first one declares what it is stored in. -/
theorem compile_assigned (ty : Ty) {ds : List Char} (hne : ds ≠ []) (hdigits : ∀ d ∈ ds, d.isDigit = true) {w : Word}
    (hw : literalWord ty (Lexer.classify ds) = some w) :
    compile (ty.word ++ " x\nx <- " ++ String.ofList ds) = .ok (Program.assemble (storing ty w)) := by
  rw [compile, analyse, lex_assigned ty hne hdigits]
  generalize Lexer.classify ds = kind at hw
  cases kind with
  | int n =>
    cases hw
    cases ty <;> rfl
  | float x =>
    cases hw
    cases ty <;> rfl
  | operator | text | keyword | name | endOfLine | endOfSource => cases hw

/-- **Digits of any length are stored as the number they spell**, whether they were read as an integer or as a float: in an
integer's place as the integer, or the largest one if they spell more, and in a float's place as the float nearest to it. -/
theorem literal_stored {ds : List Char} (hne : ds ≠ []) (hdigits : ∀ d ∈ ds, d.isDigit = true) :
    compile ("int x\nx <- " ++ String.ofList ds) =
        .ok (Program.assemble (storing .int (Word.ofInt (Int32.ofNat (min (Decimal.spelled ds) 2147483647))))) ∧
      (∃! x : Single, x.NearestTo (Decimal.spelled ds)) ∧
      ∀ x : Single, x.NearestTo (Decimal.spelled ds) →
        compile ("float x\nx <- " ++ String.ofList ds) = .ok (Program.assemble (storing .float x.bits)) := by
  have hclass := Lexer.classify_digits hne hdigits
  rw [Decimal.ofDigits_eq_spelled] at hclass
  generalize Decimal.spelled ds = n at hclass ⊢
  have hnearest {x : Single} : x.NearestTo n ↔ x = Single.nearest false (n * Single.format.one) 1 :=
    Single.nearestTo_iff Nat.one_pos (Single.natCast_eq n)
  refine ⟨?_, ⟨_, hnearest.2 rfl, fun x => hnearest.1⟩, fun x hx => ?_⟩
  · apply compile_assigned .int hne hdigits
    rw [hclass]
    by_cases h : n < 2 ^ 31
    · rw [if_pos h, min_eq_left (by omega)]
      rfl
    · rw [if_neg h, min_eq_right (by omega), literalWord, Ty.ofSingle, Single.toInt_nearest (by omega)]
      rfl
  · apply compile_assigned .float hne hdigits
    rw [hclass, hnearest.1 hx]
    by_cases h : n < 2 ^ 31
    · rw [if_pos h, literalWord, Ty.ofInt, Single.ofInt_ofNat h]
    · rw [if_neg h, literalWord, Ty.ofSingle]

/-- Behind a zero, `2 ^ 31` and half a unit of a float's last place: too large for an integer, and in the middle between two
floats, of which the lower one is even. -/
theorem literal_stored_at_tie :
    compile "int x\nx <- 02147483776" = .ok (Program.assemble (storing .int 0x7fffffff)) ∧
    compile "float x\nx <- 02147483776" = .ok (Program.assemble (storing .float 0x4f000000)) := by
  have hdigits : "02147483776".toList.all Char.isDigit = true := by decide +kernel
  obtain ⟨hint, -, hfloat⟩ := literal_stored (by decide +kernel) (List.all_eq_true.1 hdigits)
  refine ⟨hint, hfloat ⟨0x4f000000⟩ ?_⟩
  apply (Single.nearestTo_iff Nat.one_pos (Single.natCast_eq _)).2
  decide +kernel

end Script
end Autoscript
