import Autoscript.Proofs.Codec
import Mathlib
/-!
# Listing — a program can be told by its listing

A line of a listing is a position, the name of an opcode and, in a column of its own, the operand; no part of it holds the
character that it ends with.  So a listing is cut into lines and fields in one way only, and each field is written in one
way for each value: the operand of `pushImm` by its bytes, since a float's text does not tell the bits of a NaN.  Two
programs with the same listing are the same (`eq_of_listing`).
-/
namespace Autoscript

theorem Word.bytes_injective : Function.Injective Word.bytes := by
  intro w w' h
  simp only [Word.bytes, List.cons.injEq, and_true] at h
  obtain ⟨h0, h1, h2, h3⟩ := h
  rw [← Word.ofBytes_byte w, h0, h1, h2, h3, Word.ofBytes_byte]

namespace Text

/-! ## Fields -/

/-- **A field is over at its separator**, which it does not hold. -/
theorem append_cons_inj {sep : Char} : ∀ {as as' bs bs' : List Char}, sep ∉ as → sep ∉ as' →
    as ++ sep :: bs = as' ++ sep :: bs' → as = as' ∧ bs = bs'
  | [], [], _, _, _, _, h => ⟨rfl, (List.cons.inj h).2⟩
  | [], a' :: as', _, _, _, h', h => absurd ((List.cons.inj h).1 ▸ List.mem_cons_self) h'
  | a :: as, [], _, _, hs, _, h => absurd ((List.cons.inj h).1.symm ▸ List.mem_cons_self) hs
  | a :: as, a' :: as', _, _, hs, hs', h => by
    obtain ⟨rfl, htail⟩ := List.cons.inj h
    obtain ⟨rfl, hrest⟩ := append_cons_inj (List.not_mem_of_not_mem_cons hs) (List.not_mem_of_not_mem_cons hs') htail
    exact ⟨rfl, hrest⟩

/-- Lines in a row, each with its end, are cut in one way. -/
theorem lines_inj : ∀ {ls ls' : List (List Char)}, (∀ l ∈ ls, '\n' ∉ l) → (∀ l ∈ ls', '\n' ∉ l) →
    ls.flatMap (· ++ ['\n']) = ls'.flatMap (· ++ ['\n']) → ls = ls'
  | [], [], _, _, _ => rfl
  | [], l' :: ls', _, _, h => by simp at h
  | l :: ls, [], _, _, h => by simp at h
  | l :: ls, l' :: ls', hl, hl', h => by
    rw [List.forall_mem_cons] at hl hl'
    simp only [List.flatMap_cons, List.append_assoc, List.singleton_append] at h
    obtain ⟨rfl, hrest⟩ := append_cons_inj hl.1 hl'.1 h
    rw [lines_inj hl.2 hl'.2 hrest]

/-! ## Numbers -/

theorem newline_notMem_int (n : Int) : '\n' ∉ n.repr.toList := by
  have hdigits (m : Nat) : '\n' ∉ Nat.toDigits 10 m := fun h => absurd (Decimal.isDigit_of_mem_digits h) (by decide)
  rw [Int.repr_eq_if]
  split
  · simp [hdigits]
  · simp [hdigits]

theorem hexByte_injective : Function.Injective hexByte := by
  have hdigit : ∀ m < 16, ∀ n < 16, Nat.digitChar m = Nat.digitChar n → m = n := by decide
  intro a b h
  have ha := a.toNat_lt
  have hb := b.toNat_lt
  obtain ⟨hhigh, hlow⟩ : Nat.digitChar (a.toNat / 16) = Nat.digitChar (b.toNat / 16) ∧
      Nat.digitChar (a.toNat % 16) = Nat.digitChar (b.toNat % 16) := by
    simpa [hexByte] using h
  have h1 := hdigit _ (by omega) _ (by omega) hhigh
  have h2 := hdigit _ (by omega) _ (by omega) hlow
  exact UInt8.toNat_inj.1 (by omega)

theorem mem_hexByte {b : UInt8} {c : Char} (h : c ∈ (hexByte b).toList) : c ≠ ' ' ∧ c ≠ '\n' := by
  have hdigit : ∀ m < 16, Nat.digitChar m ≠ ' ' ∧ Nat.digitChar m ≠ '\n' := by decide
  have hb := b.toNat_lt
  have hmem : c = Nat.digitChar (b.toNat / 16) ∨ c = Nat.digitChar (b.toNat % 16) := by simpa [hexByte] using h
  rcases hmem with rfl | rfl
  · exact hdigit _ (by omega)
  · exact hdigit _ (by omega)

/-- A name that is shorter than its column is followed by a blank. -/
theorem toList_padRight (width : Nat) (s t : String) : (padRight width s ++ " " ++ t).toList =
    s.toList ++ ' ' :: (List.replicate (width - s.length) ' ' ++ t.toList) := by
  simp [padRight, ← List.replicate_succ', List.replicate_succ]

end Text

/-! ## Instructions -/

namespace Opcode

theorem name_injective : Function.Injective name := by
  intro op op' h
  have hof := ofName?_name op
  rw [h, ofName?_name] at hof
  exact (Option.some.inj hof).symm

theorem mem_name {op : Opcode} {c : Char} (h : c ∈ op.name.toList) : c ≠ ' ' ∧ c ≠ '\n' := by
  have hall : ∀ op ∈ all, op.name.toList.all (fun c => c ≠ ' ' ∧ c ≠ '\n') = true := by decide +kernel
  have hmem : op ∈ all := List.mem_of_find?_eq_some (ofName?_name op)
  simpa using List.all_eq_true.1 (hall op hmem) c h

end Opcode

namespace Single

theorem newline_notMem_text (x : Single) : '\n' ∉ x.text.toList := by
  have hsign : '\n' ∉ x.sign.toList := by
    unfold sign
    split <;> decide
  have hdigits : '\n' ∉ (format.shortest x.pattern).positional := by
    intro h
    rcases Decimal.isDigit_or_point_of_mem_positional h with h | h
    · exact absurd h (by decide)
    · exact absurd h (by decide)
  unfold text
  split
  · decide
  · split
    · rw [String.toList_append, List.mem_append, not_or]
      exact ⟨hsign, by decide⟩
    · rw [String.toList_append, List.mem_append, not_or, String.toList_ofList]
      exact ⟨hsign, hdigits⟩

end Single

namespace Instr

/-- How an opcode's operand is written. -/
def operandText : Opcode → Word → String
  | .pushImm, w => Text.joinWith " " ((Word.bytes w).map Text.hexByte) ++ " (int " ++ toString (Word.toInt w).toInt ++
      ", float " ++ Single.text ⟨w⟩ ++ ")"
  | _, w => toString (Word.toInt w).toInt

theorem text_ofParts (op : Opcode) (w : Word) : (ofParts op w).text =
    if op.hasOperand then Text.padRight 12 op.name ++ " " ++ operandText op w else op.name := by
  cases op with
  | pushImm => simp [text, ofParts, operandText, opcode, Opcode.hasOperand, String.append_assoc]
  | _ => rfl

/-- Bytes in two digits each, with a blank behind them. -/
theorem bytes_inj {w w' : Word} {rest rest' : List Char}
    (h : (Text.joinWith " " ((Word.bytes w).map Text.hexByte)).toList ++ ' ' :: rest =
      (Text.joinWith " " ((Word.bytes w').map Text.hexByte)).toList ++ ' ' :: rest') : w = w' := by
  have hblank (b : UInt8) : ' ' ∉ (Text.hexByte b).toList := fun hmem => (Text.mem_hexByte hmem).1 rfl
  have hsep : " ".toList = [' '] := rfl
  simp only [Word.bytes, List.map_cons, List.map_nil, Text.joinWith, String.toList_append, hsep, List.append_assoc,
    List.cons_append, List.nil_append] at h
  obtain ⟨h0, h⟩ := Text.append_cons_inj (hblank _) (hblank _) h
  obtain ⟨h1, h⟩ := Text.append_cons_inj (hblank _) (hblank _) h
  obtain ⟨h2, h⟩ := Text.append_cons_inj (hblank _) (hblank _) h
  obtain ⟨h3, -⟩ := Text.append_cons_inj (hblank _) (hblank _) h
  have hbyte {b b' : UInt8} (h : (Text.hexByte b).toList = (Text.hexByte b').toList) : b = b' :=
    Text.hexByte_injective (String.toList_injective h)
  exact Word.bytes_injective (by rw [Word.bytes, hbyte h0, hbyte h1, hbyte h2, hbyte h3, Word.bytes])

theorem operandText_injective (op : Opcode) : Function.Injective (operandText op) := by
  intro w w' h
  by_cases hop : op = .pushImm
  · -- the bytes are enough: a float's text would not do
    subst hop
    have hbytes := congrArg String.toList h
    simp only [operandText, String.append_assoc, String.toList_append] at hbytes
    exact bytes_inj hbytes
  · have hnumber : toString (Word.toInt w).toInt = toString (Word.toInt w').toInt := by
      cases op with
      | pushImm => exact absurd rfl hop
      | _ => exact h
    have hint : Word.toInt w = Word.toInt w' := Int32.toInt_inj.1 (Int.repr_injective hnumber)
    rw [← Word.ofInt_toInt w, hint, Word.ofInt_toInt]

theorem exists_ofParts (i : Instr) : ∃ w, i = ofParts i.opcode w := by
  by_cases h : i.opcode.hasOperand = true
  · obtain ⟨w, -, hw⟩ := ofParts_of_operand.1 h
    exact ⟨w, hw.symm⟩
  · exact ⟨0, (ofParts_of_operand.2 (by simpa using h)).symm⟩

theorem ofParts_of_not_hasOperand {op : Opcode} (h : op.hasOperand = false) (w w' : Word) :
    ofParts op w = ofParts op w' := by
  cases op <;> first | rfl | cases h

/-- The name of the opcode is what stands before the first blank. -/
theorem takeWhile_text (i : Instr) : i.text.toList.takeWhile (· ≠ ' ') = i.opcode.name.toList := by
  have hname : ∀ c ∈ i.opcode.name.toList, decide (c ≠ ' ') = true := fun c hc => decide_eq_true (Opcode.mem_name hc).1
  obtain ⟨w, hi⟩ := exists_ofParts i
  rw [hi, text_ofParts, opcode_ofParts]
  split
  · rw [Text.toList_padRight, List.takeWhile_append_of_pos hname]
    simp
  · exact List.takeWhile_eq_self_iff.2 hname

/-- **An instruction is told by its text**: by the name of its opcode, and by the operand in its column. -/
theorem text_injective : Function.Injective text := by
  intro i j h
  have hname : i.opcode.name.toList = j.opcode.name.toList := by rw [← takeWhile_text, h, takeWhile_text]
  have hop : i.opcode = j.opcode := Opcode.name_injective (String.toList_injective hname)
  obtain ⟨w, hi⟩ := exists_ofParts i
  obtain ⟨w', hj⟩ := exists_ofParts j
  rw [hi, hj, hop]
  by_cases ho : j.opcode.hasOperand = true
  · rw [hi, hj, hop, text_ofParts, text_ofParts, if_pos ho, if_pos ho] at h
    rw [operandText_injective _ ((String.append_right_inj _).1 h)]
  · exact ofParts_of_not_hasOperand (by simpa using ho) w w'

theorem newline_notMem_operandText (op : Opcode) (w : Word) : '\n' ∉ (operandText op w).toList := by
  by_cases hop : op = .pushImm
  · subst hop
    have hbyte (b : UInt8) : '\n' ∉ (Text.hexByte b).toList := fun hmem => (Text.mem_hexByte hmem).2 rfl
    simp [operandText, Word.bytes, Text.joinWith, hbyte, Text.newline_notMem_int, Single.newline_notMem_text]
  · cases op with
    | pushImm => exact absurd rfl hop
    | _ => exact Text.newline_notMem_int _

theorem newline_notMem_text (i : Instr) : '\n' ∉ i.text.toList := by
  obtain ⟨w, hi⟩ := exists_ofParts i
  have hname : '\n' ∉ i.opcode.name.toList := fun hmem => (Opcode.mem_name hmem).2 rfl
  rw [hi, text_ofParts]
  split
  · rw [Text.toList_padRight]
    simp [hname, newline_notMem_operandText]
  · exact hname

end Instr

/-! ## Programs -/

namespace Program

/-- A line of a listing without its end. -/
def lineOf (q : Nat × Instr) : List Char := (Text.padLeft '0' 4 (toString q.1) ++ " " ++ q.2.text).toList

/-- The first line of a listing without its end. -/
def headOf (program : List UInt8) : List Char := ("version " ++ toString ((version? program).getD 0).toInt).toList

theorem listing_ok {program : List UInt8} {text : String} (h : listing program = .ok text) : ∃ code,
    instructions program = .ok code ∧ text.toList = (headOf program :: code.map lineOf).flatMap (· ++ ['\n']) := by
  unfold listing at h
  cases hcode : instructions program with
  | error e =>
    rw [hcode] at h
    cases h
  | ok code =>
    rw [hcode] at h
    cases h
    refine ⟨code, rfl, ?_⟩
    simp [headOf, lineOf, listingLine, String.toList_join, List.flatMap_map]

/-- A line is a position in digits, a blank and the text of an instruction. -/
theorem lineOf_eq (pos : Nat) (i : Instr) : ∃ k, lineOf (pos, i) =
    (List.replicate k '0' ++ Decimal.digits pos) ++ ' ' :: i.text.toList :=
  ⟨4 - pos.repr.length, by simp [lineOf, Text.padLeft, Decimal.digits]⟩

theorem lineOf_injective : Function.Injective lineOf := by
  rintro ⟨pos, i⟩ ⟨pos', j⟩ h
  obtain ⟨k, hk⟩ := lineOf_eq pos i
  obtain ⟨k', hk'⟩ := lineOf_eq pos' j
  have hblank (k pos : Nat) : ' ' ∉ List.replicate k '0' ++ Decimal.digits pos := fun h =>
    absurd (Decimal.isDigit_of_mem_padded h) (by decide)
  rw [hk, hk'] at h
  obtain ⟨hpos, htext⟩ := Text.append_cons_inj (hblank k pos) (hblank k' pos') h
  have hvalue := congrArg Decimal.ofDigits hpos
  simp only [Decimal.ofDigits_zeros_append, Decimal.ofDigits_digits] at hvalue
  rw [hvalue, Instr.text_injective (String.toList_injective htext)]

theorem newline_notMem_lineOf (q : Nat × Instr) : '\n' ∉ lineOf q := by
  obtain ⟨k, hk⟩ := lineOf_eq q.1 q.2
  have hpos : '\n' ∉ List.replicate k '0' ++ Decimal.digits q.1 := fun h =>
    absurd (Decimal.isDigit_of_mem_padded h) (by decide)
  rw [hk, List.mem_append, List.mem_cons, not_or, not_or]
  exact ⟨hpos, by decide, q.2.newline_notMem_text⟩

theorem newline_notMem_headOf (program : List UInt8) : '\n' ∉ headOf program := by
  simp [headOf, Text.newline_notMem_int]

theorem newline_notMem_lines (program : List UInt8) (code : List (Nat × Instr)) :
    ∀ l ∈ headOf program :: code.map lineOf, '\n' ∉ l := by
  intro l hl
  rcases List.mem_cons.1 hl with rfl | hl
  · exact newline_notMem_headOf program
  · obtain ⟨q, -, rfl⟩ := List.mem_map.1 hl
    exact newline_notMem_lineOf q

/-- A header is the bytes of the version. -/
theorem take_headerSize {program : List UInt8} (h : headerSize ≤ program.length) :
    program.take headerSize = Word.bytes (Word.ofInt ((version? program).getD 0)) := by
  match program, h with
  | a :: b :: c :: d :: rest, _ => exact (Word.bytes_ofBytes a b c d).symm

theorem take_eq_of_headOf {p q : List UInt8} (hp : headerSize ≤ p.length) (hq : headerSize ≤ q.length)
    (h : headOf p = headOf q) : p.take headerSize = q.take headerSize := by
  have hnumber := (String.append_right_inj _).1 (String.toList_injective h)
  have hversion : (version? p).getD 0 = (version? q).getD 0 := Int32.toInt_inj.1 (Int.repr_injective hnumber)
  rw [take_headerSize hp, take_headerSize hq, hversion]

/-- **A program is told by its listing**: by the version in the first line, and by the instructions below it. -/
theorem eq_of_listing {p q : List UInt8} {text : String} (hp : listing p = .ok text) (hq : listing q = .ok text) : p = q := by
  obtain ⟨code, hcode, htext⟩ := listing_ok hp
  obtain ⟨code', hcode', htext'⟩ := listing_ok hq
  have hlines := Text.lines_inj (newline_notMem_lines p code) (newline_notMem_lines q code') (htext.symm.trans htext')
  obtain ⟨hhead, hmap⟩ := List.cons.inj hlines
  have hheader := take_eq_of_headOf (length_le_of_instructions hcode) (length_le_of_instructions hcode') hhead
  obtain rfl : code = code' := List.map_injective_iff.2 lineOf_injective hmap
  rw [eq_encode_of_instructions hcode, eq_encode_of_instructions hcode', hheader]

/-- A NaN, which its bytes tell, and a variable at a negative offset. -/
theorem eq_of_listing_of_nan :
    listing [1, 0, 0, 0, 0x03, 0, 0, 0xc0, 0xff, 0x0b, 0xfc, 0xff, 0xff, 0xff] =
        .ok "version 1\n0004 PUSH_IMM     00 00 c0 ff (int -4194304, float NaN)\n0009 DISPLAY      -4\n" ∧
      [1, 0, 0, 0, 0x03, 0, 0, 0xc0, 0xff, 0x0b, 0xfc, 0xff, 0xff, 0xff] =
        assemble [.pushImm 0xffc00000, .display (-4)] := by
  have hlisting {program : List UInt8} (h : program = [1, 0, 0, 0] ++ encode [.pushImm 0xffc00000, .display (-4)]) :
      listing program =
        .ok "version 1\n0004 PUSH_IMM     00 00 c0 ff (int -4194304, float NaN)\n0009 DISPLAY      -4\n" := by
    rw [h, listing, instructions_encode rfl]
    exact congrArg Except.ok (by decide +kernel)
  exact ⟨hlisting rfl, eq_of_listing (hlisting rfl) (hlisting rfl)⟩

end Program
end Autoscript
