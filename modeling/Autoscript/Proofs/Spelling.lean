import Autoscript.Proofs.Lines
/-!
# Spelling — what is written reads back

A token is written in characters of its own (`Spelling`): an operator by its symbol, a keyword by its word, a number by its
digits, a text between quotes, any other word as it stands.  Between two tokens there may be blanks, and there have to be
some only between two words; then the lexer finds the tokens that were written, and no others (`lex_print`).
-/
namespace Autoscript

namespace Lexer

open Text (isAlphanumeric)

/-! ## How tokens are written -/

/-- The characters that separate tokens and are none. -/
def blanks : List Char := [' ', '\t', '\r']

/-- **What the characters of one token stand for.** -/
inductive Spelling : Token.Kind → List Char → Prop where
  | operator (op : Operator) : Spelling (.operator op) op.symbol.toList
  | keyword (k : Keyword) : Spelling (.keyword k) k.word.toList
  | int (n : Int32) : 0 ≤ n.toInt → Spelling (.int n) (toString n.toInt).toList
  | text (content : String) : '"' ∉ content.toList → Spelling (.text content) ('"' :: (content.toList ++ ['"']))
  | word (c : Char) (cs : List Char) : isAlphanumeric c = true → (∀ d ∈ cs, isWordChar d = true) →
      Spelling (classify (c :: cs)) (c :: cs)
  | endOfLine : Spelling .endOfLine ['\n']

/-- A token as it is written, and the blanks behind it. -/
structure Lexeme where
  kind : Token.Kind
  text : List Char
  gap : List Char
  spelling : Spelling kind text
  blank : gap ⊆ blanks

def isWord : Token.Kind → Bool
  | .int _ | .float _ | .keyword _ | .name _ => true
  | _ => false

/-- Two tokens in a row that do not run together: two words have a blank between them. -/
def Lexeme.Apart (l l' : Lexeme) : Prop := isWord l.kind = true → isWord l'.kind = true → l.gap ≠ []

def print (ls : List Lexeme) : List Char := ls.flatMap fun l => l.text ++ l.gap

/-! ## Words -/

/-- The characters that mean something by themselves wherever they stand, but in a text. -/
def marks : List Char := [' ', '\t', '\r', '\n', '+', '-', '*', '/', '(', ')', '<', '"']

theorem isWordChar_of_mem_marks {c : Char} (h : c ∈ marks) : isWordChar c = false := by
  have hall : marks.all (fun d => !isWordChar d) = true := by decide
  simpa using List.all_eq_true.1 hall c h

theorem isWordChar_of_isAlphanumeric {c : Char} (h : isAlphanumeric c = true) : isWordChar c = true := by
  simp [isWordChar, h]

theorem fresh_of_isAlphanumeric {c : Char} (h : isAlphanumeric c = true) (line : Nat) :
    fresh line c = ([], ⟨.word [c], line⟩) := by
  have hne : ∀ d ∈ marks, c ≠ d := by
    rintro d hd rfl
    have hw := isWordChar_of_mem_marks hd
    rw [isWordChar_of_isAlphanumeric h] at hw
    cases hw
  simp only [marks, List.forall_mem_cons] at hne
  simp [fresh, hne, h]

theorem items_reading : ∀ (w : List Char) {read cs : List Char} {line : Nat}, (∀ c ∈ w, isWordChar c = true) →
    items ⟨.word read, line⟩ (w ++ cs) = items ⟨.word (w.reverse ++ read), line⟩ cs
  | [], _, _, _, _ => rfl
  | c :: w, read, cs, line, h => by
    have hs : step ⟨.word read, line⟩ c = ([], ⟨.word (c :: read), line⟩) := by
      simp [step, h c List.mem_cons_self]
    rw [List.cons_append, items, hs, List.reverse_cons, List.append_assoc]
    exact items_reading w fun d hd => h d (List.mem_cons_of_mem _ hd)

/-- A word is over where no character of a word follows. -/
theorem items_word_end {cs : List Char} (h : ∀ c ∈ cs.head?, isWordChar c = false) (read : List Char) (line : Nat) :
    items ⟨.word read, line⟩ cs = wordItem line read :: items ⟨.idle, line⟩ cs := by
  cases cs with
  | nil => rfl
  | cons c cs =>
    have hc : isWordChar c = false := h c rfl
    simp [items, step, hc, before]

theorem items_word {c : Char} {w cs : List Char} (hc : isAlphanumeric c = true) (hw : ∀ d ∈ w, isWordChar d = true)
    (h : ∀ d ∈ cs.head?, isWordChar d = false) (line : Nat) :
    items ⟨.idle, line⟩ (c :: w ++ cs) = found line (classify (c :: w)) :: items ⟨.idle, line⟩ cs := by
  have hs : step ⟨.idle, line⟩ c = ([], ⟨.word [c], line⟩) := fresh_of_isAlphanumeric hc line
  rw [List.cons_append, items, hs]
  show items ⟨.word [c], line⟩ (w ++ cs) = _
  rw [items_reading w hw, items_word_end h]
  simp [wordItem]

theorem items_last_word {c : Char} {w : List Char} (hc : isAlphanumeric c = true) (hw : ∀ d ∈ w, isWordChar d = true)
    (line : Nat) : items ⟨.idle, line⟩ (c :: w) = [found line (classify (c :: w)), found line .endOfSource] := by
  rw [← List.append_nil (c :: w), items_word hc hw (by simp), List.append_nil]
  rfl

theorem isWord_classify (w : List Char) : isWord (classify w) = true := by
  unfold classify
  split
  · rfl
  · split
    · rfl
    · split <;> rfl

/-- The digits of a number that fits are read as it. -/
theorem classify_toDigits {n : Nat} (h : n < 0x80000000) : classify (Nat.toDigits 10 n) = .int (Int32.ofNat n) := by
  have hdigits : ∀ c ∈ Nat.toDigits 10 n, c.isDigit = true := fun c => Decimal.isDigit_of_mem_digits
  have hvalue : Decimal.ofDigits (Nat.toDigits 10 n) = n := Decimal.ofDigits_digits n
  have hnat : Decimal.natural? (Nat.toDigits 10 n) = some n := by
    rw [Decimal.natural?, if_pos ⟨Nat.toDigits_ne_nil, List.all_eq_true.2 hdigits⟩, hvalue]
  have hfits : (some n).filter (· < 0x80000000) = some n := by simp [Option.filter, h]
  simp only [classify, hnat, hfits]

theorem isAlphanumeric_of_isDigit {c : Char} (h : c.isDigit = true) : isAlphanumeric c = true := by
  have hlt : c.toNat < 0x80 := Nat.lt_of_le_of_lt (Char.isDigit_iff_toNat.1 h).2 (by decide)
  simp [isAlphanumeric, hlt, Char.isAlphanum, h]

/-- **A token that is written as a word is what its word stands for.** -/
theorem Spelling.word_of_isWord {k : Token.Kind} {text : List Char} (h : Spelling k text) (hk : isWord k = true) :
    ∃ c cs, text = c :: cs ∧ isAlphanumeric c = true ∧ (∀ d ∈ cs, isWordChar d = true) ∧ classify text = k := by
  cases h with
  | operator | text | endOfLine => cases hk
  | word c cs hc hcs => exact ⟨c, cs, rfl, hc, hcs, rfl⟩
  | keyword k =>
    cases k with
    | declare ty => cases ty <;> exact ⟨_, _, rfl, by decide, List.all_eq_true.1 (by decide), by decide⟩
    | _ => exact ⟨_, _, rfl, by decide, List.all_eq_true.1 (by decide), by decide⟩
  | int n hn =>
    obtain ⟨m, hm⟩ := Int.eq_ofNat_of_zero_le hn
    have hdigits : (toString n.toInt).toList = Nat.toDigits 10 m := by
      rw [hm]
      exact Nat.toList_repr
    have hlt : m < 0x80000000 := by
      have := n.toInt_lt
      omega
    have hvalue : Int32.ofNat m = n := by
      rw [← Int32.ofInt_eq_ofNat, ← hm, Int32.ofInt_toInt]
    obtain ⟨c, cs, hcons⟩ := List.exists_cons_of_ne_nil (Nat.toDigits_ne_nil (n := m) (b := 10))
    have hall : ∀ d ∈ c :: cs, isAlphanumeric d = true := fun d hd => by
      rw [← hcons] at hd
      exact isAlphanumeric_of_isDigit (Decimal.isDigit_of_mem_digits hd)
    rw [hdigits, classify_toDigits hlt, hvalue]
    refine ⟨c, cs, hcons, hall c List.mem_cons_self, fun d hd => ?_, rfl⟩
    exact isWordChar_of_isAlphanumeric (hall d (List.mem_cons_of_mem _ hd))

/-! ## Other tokens -/

theorem items_gap : ∀ (gap : List Char) {cs : List Char} {line : Nat}, gap ⊆ blanks →
    items ⟨.idle, line⟩ (gap ++ cs) = items ⟨.idle, line⟩ cs
  | [], _, _, _ => rfl
  | c :: gap, cs, line, h => by
    obtain ⟨hc, hgap⟩ := List.cons_subset.1 h
    have hs : step ⟨.idle, line⟩ c = ([], ⟨.idle, line⟩) := by
      have hc : c = ' ' ∨ c = '\t' ∨ c = '\r' := by simpa [blanks] using hc
      exact if_pos hc
    rw [List.cons_append, items, hs]
    exact items_gap gap hgap

/-- A text is over at the next quote; the lines in it are counted. -/
theorem items_text : ∀ (content : List Char) {read cs : List Char} {start line : Nat}, '"' ∉ content →
    items ⟨.text read start, line⟩ (content ++ '"' :: cs) =
      found start (.text (String.ofList (read.reverse ++ content))) :: items ⟨.idle, line + content.count '\n'⟩ cs
  | [], read, cs, start, line, _ => by
    rw [List.nil_append, items]
    simp [step]
  | c :: content, read, cs, start, line, h => by
    rw [List.mem_cons, not_or] at h
    have hs : step ⟨.text read start, line⟩ c = ([], ⟨.text (c :: read) start, if c = '\n' then line + 1 else line⟩) :=
      if_neg (Ne.symm h.1)
    rw [List.cons_append, items, hs, List.nil_append, items_text content h.2, List.reverse_cons, List.append_assoc,
      List.count_cons]
    by_cases hc : c = '\n'
    · simp [hc, Nat.add_assoc, Nat.add_comm 1]
    · simp [hc]

theorem Spelling.head_of_not_isWord {k : Token.Kind} {text : List Char} (h : Spelling k text) (hk : isWord k = false) :
    ∃ c cs, text = c :: cs ∧ isWordChar c = false := by
  cases h with
  | keyword | int => cases hk
  | word c cs =>
    rw [isWord_classify] at hk
    cases hk
  | operator op =>
    cases op with
    | arith op => cases op <;> exact ⟨_, _, rfl, by decide⟩
    | _ => exact ⟨_, _, rfl, by decide⟩
  | text | endOfLine => exact ⟨_, _, rfl, by decide⟩

/-- **A token that is written is read**, if it is no word that goes on; the lines in it are counted. -/
theorem Spelling.items {k : Token.Kind} {text : List Char} (h : Spelling k text) {cs : List Char}
    (hcs : isWord k = true → ∀ c ∈ cs.head?, isWordChar c = false) (line : Nat) :
    items ⟨.idle, line⟩ (text ++ cs) = found line k :: Lexer.items ⟨.idle, line + text.count '\n'⟩ cs := by
  by_cases hk : isWord k = true
  · obtain ⟨c, w, rfl, hc, hw, hclass⟩ := h.word_of_isWord hk
    have hcount : (c :: w).count '\n' = 0 := by
      refine List.count_eq_zero.2 fun hmem => ?_
      have hword : isWordChar '\n' = true := by
        rcases List.mem_cons.1 hmem with rfl | hmem
        · exact isWordChar_of_isAlphanumeric hc
        · exact hw _ hmem
      rw [isWordChar_of_mem_marks (by decide)] at hword
      cases hword
    rw [items_word hc hw (hcs hk), hclass, hcount]
    rfl
  · cases h with
    | keyword | int => exact absurd rfl hk
    | word => exact absurd (isWord_classify _) hk
    | endOfLine => rfl
    | operator op =>
      cases op with
      | arith op => cases op <;> rfl
      | _ => rfl
    | text content hq =>
      have hs : step ⟨.idle, line⟩ '"' = ([], ⟨.text [] line, line⟩) := rfl
      rw [List.cons_append, Lexer.items, hs, List.append_assoc]
      show Lexer.items ⟨.text [] line, line⟩ (content.toList ++ '"' :: cs) = _
      rw [items_text _ hq]
      simp

/-! ## Printed tokens -/

theorem head_print {l : Lexeme} {ls : List Lexeme} (h : (l :: ls).IsChain Lexeme.Apart) (hl : isWord l.kind = true) :
    ∀ c ∈ (l.gap ++ print ls).head?, isWordChar c = false := by
  cases hgap : l.gap with
  | cons c gap =>
    have hc : c ∈ blanks := l.blank (by rw [hgap]; exact List.mem_cons_self)
    have hmark : blanks ⊆ marks := by decide
    rintro d ⟨⟩
    exact isWordChar_of_mem_marks (hmark hc)
  | nil =>
    cases ls with
    | nil => simp [print]
    | cons l' ls =>
      have hapart : l.Apart l' := (List.isChain_cons_cons.1 h).1
      have hnot : isWord l'.kind = false := by
        by_contra hword
        exact hapart hl (by simpa using hword) hgap
      obtain ⟨c, cs, htext, hc⟩ := l'.spelling.head_of_not_isWord hnot
      simp [print, htext, hc]

def tokensOf : Nat → List Lexeme → List Token
  | line, [] => [⟨.endOfSource, line⟩]
  | line, l :: ls => ⟨l.kind, line⟩ :: tokensOf (line + l.text.count '\n') ls

theorem kinds_tokensOf : ∀ (line : Nat) (ls : List Lexeme),
    (tokensOf line ls).map Token.kind = ls.map Lexeme.kind ++ [.endOfSource]
  | _, [] => rfl
  | line, l :: ls => by rw [tokensOf, List.map_cons, kinds_tokensOf, List.map_cons, List.cons_append]

theorem items_tokensOf : ∀ {ls : List Lexeme} (line : Nat), ls.IsChain Lexeme.Apart →
    items ⟨.idle, line⟩ (print ls) = (tokensOf line ls).map .ok
  | [], _, _ => rfl
  | l :: ls, line, h => by
    have hl := l.spelling.items (head_print h) line
    have htail : ls.IsChain Lexeme.Apart := h.tail
    have hprint : print (l :: ls) = l.text ++ (l.gap ++ print ls) := by simp [print]
    rw [hprint, hl, items_gap _ l.blank, items_tokensOf _ htail]
    rfl

theorem items_print {ls : List Lexeme} (line : Nat) (h : ls.IsChain Lexeme.Apart) :
    ∃ ts : List Token, items ⟨.idle, line⟩ (print ls) = ts.map .ok ∧
      ts.map Token.kind = ls.map Lexeme.kind ++ [.endOfSource] :=
  ⟨tokensOf line ls, items_tokensOf line h, kinds_tokensOf line ls⟩

theorem errors_map_ok (ts : List Token) : errors (ts.map .ok) = [] := by simp [errors]

theorem tokens_map_ok (ts : List Token) : tokens (ts.map .ok) = ts := by
  simp [tokens]

/-- **What is written reads back.** -/
theorem lex_print (gap : List Char) (hgap : gap ⊆ blanks) {ls : List Lexeme} (h : ls.IsChain Lexeme.Apart) :
    ∃ ts, lex (String.ofList (gap ++ print ls)) = .ok ts ∧ ts.map Token.kind = ls.map Lexeme.kind ++ [.endOfSource] := by
  obtain ⟨ts, hitems, hk⟩ := items_print 1 h
  refine ⟨ts, lex_ok_iff.2 ?_, hk⟩
  rw [String.toList_ofList, State.initial, items_gap gap hgap, hitems]
  exact ⟨errors_map_ok ts, tokens_map_ok ts⟩

/-- An arrow before a minus sign, a text that holds one and the end of a line, and words on either side of one blank. -/
theorem lex_print_of_arrow_and_text :
    ∃ ts, lex "x<--\"a\n<-\"2.5\tmove\n 7" = .ok ts ∧ ts.map Token.kind =
      [.name "x", .operator .assign, .operator (.arith .sub), .text "a\n<-", .float ⟨0x40200000⟩, .keyword .move,
        .endOfLine, .int 7, .endOfSource] := by
  let ls : List Lexeme :=
    [⟨_, _, [], .word 'x' [] (by decide) (by simp), by decide⟩, ⟨_, _, [], .operator .assign, by decide⟩,
      ⟨_, _, [], .operator (.arith .sub), by decide⟩, ⟨_, _, [], .text "a\n<-" (by decide), by decide⟩,
      ⟨_, _, ['\t'], .word '2' ['.', '5'] (by decide) (List.all_eq_true.1 (by decide)), by decide⟩,
      ⟨_, _, [], .keyword .move, by decide⟩, ⟨_, _, [' '], .endOfLine, by decide⟩, ⟨_, _, [], .int 7 (by decide), by decide⟩]
  have hapart : ls.IsChain Lexeme.Apart := by simp [ls, Lexeme.Apart, isWord]
  obtain ⟨ts, hlex, hk⟩ := lex_print [] (by decide) hapart
  exact ⟨ts, hlex, hk⟩

end Lexer
end Autoscript
