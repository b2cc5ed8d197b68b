import Autoscript.Proofs.Spelling
import Mathlib.Data.List.DropRight
/-!
# Unreadable — what is wrong with a source

Whether a character is wrong is a matter of the characters before it and of the next one: whether it is inside of a text
(`quoted`), whether it goes on with a word (`inWord`), and whether it begins an arrow that the next one does not finish.
The errors of the lexer are what is wrong with the characters, one by one and in their order, and then what the source
ends in the middle of (`lex_reports_flaws`).
-/
namespace Autoscript.Lexer

open Text (isAlphanumeric)

/-! ## Character by character -/

/-- Whether characters end inside of a text: each quote opens one or closes one. -/
def quoted (cs : List Char) : Bool := cs.count '"' % 2 == 1

/-- Whether characters end in a word: the characters of words at the end have a letter or a digit among them. -/
def inWord (cs : List Char) : Bool := (cs.rtakeWhile isWordChar).any isAlphanumeric

/-- What is wrong with the beginning of an arrow, by the character behind it. -/
def dangling : Option Char → Option LexError.Cause
  | none => none
  | some d => if d = '-' then none else some (.danglingLess d)

/-- **What is wrong with a character**, by the characters before it and the next one. -/
def flaw (before : List Char) (c : Char) (next : Option Char) : Option LexError.Cause :=
  if quoted before then none
  else if c = '<' then dangling next
  else if c ∈ marks ∨ isAlphanumeric c ∨ ((c = '.' ∨ c = '_') ∧ inWord before) then none
  else some (.unknownSymbol c)

def flawAt (cs : List Char) (i : Nat) : Option LexError.Cause := cs[i]?.bind fun c => flaw (cs.take i) c cs[i + 1]?

/-- What characters end in the middle of. -/
def openEnd (cs : List Char) : Option LexError.Cause :=
  if quoted cs then some (.unexpectedEnd .text)
  else if cs.getLast? = some '<' then some (.unexpectedEnd .arrow)
  else none

/-- **All that is wrong with characters**, in their order. -/
def flaws (cs : List Char) : List LexError.Cause :=
  (List.range cs.length).filterMap (flawAt cs) ++ (openEnd cs).toList

/-! ## What the lexer is in the middle of -/

theorem quoted_concat (cs : List Char) (c : Char) : quoted (cs ++ [c]) = (quoted cs ^^ (c == '"')) := by
  rw [quoted, quoted, List.count_append, List.count_singleton]
  by_cases h : c = '"'
  · rcases Nat.mod_two_eq_zero_or_one (cs.count '"') with hm | hm <;> simp [h, Nat.add_mod, hm]
  · have hc : (c == '"') = false := by simpa using h
    simp [hc]

theorem inWord_concat (cs : List Char) (c : Char) :
    inWord (cs ++ [c]) = (isWordChar c && (isAlphanumeric c || inWord cs)) := by
  by_cases h : isWordChar c = true
  · simp [inWord, List.rtakeWhile_concat_pos, h, Bool.or_comm]
  · simp [inWord, List.rtakeWhile_concat_neg, h]

theorem inWord_of_getLast? {cs : List Char} (h : cs.getLast? = some '<') : inWord cs = false := by
  obtain ⟨init, rfl⟩ := List.getLast?_eq_some_iff.1 h
  rw [inWord_concat]
  rfl

/-- The mode that characters leave the lexer in. -/
def Leave (cs : List Char) : Mode → Prop
  | .idle => quoted cs = false ∧ inWord cs = false ∧ cs.getLast? ≠ some '<'
  | .word _ => quoted cs = false ∧ inWord cs = true
  | .text _ _ => quoted cs = true
  | .less => quoted cs = false ∧ cs.getLast? = some '<'

/-- What the lexer still has to report when it sees the next character. -/
def owed : Mode → Option Char → Option LexError.Cause
  | .less, next => dangling next
  | _, _ => none

theorem leave_initial : Leave [] State.initial.mode := ⟨rfl, rfl, by simp⟩

def causes (is : List Item) : List LexError.Cause := (errors is).map LexError.cause

theorem causes_append (is js : List Item) : causes (is ++ js) = causes is ++ causes js := by
  rw [causes, errors_append, List.map_append]
  rfl

/-! ## One character -/

section
variable {c : Char} (line : Nat)

theorem fresh_of_mem_marks (h : c ∈ marks) (hless : c ≠ '<') (hquote : c ≠ '"') :
    causes (fresh line c).1 = [] ∧ (fresh line c).2.mode = .idle := by
  simp only [marks, List.mem_cons, List.not_mem_nil, hless, hquote, or_false] at h
  rcases h with rfl | rfl | rfl | rfl | rfl | rfl | rfl | rfl | rfl | rfl
  all_goals exact ⟨rfl, rfl⟩

theorem fresh_of_unknown (h : c ∉ marks) (ha : isAlphanumeric c = false) :
    fresh line c = ([failed line (.unknownSymbol c)], ⟨.idle, line⟩) := by
  simp only [marks, List.mem_cons, List.not_mem_nil, or_false, not_or] at h
  simp [fresh, h, ha]

/-- **A character outside of any token**: what is wrong with it is reported now, or is owed. -/
theorem causes_fresh {pre : List Char} (hq : quoted pre = false) (hw : isWordChar c = true → inWord pre = false)
    (next : Option Char) :
    causes (fresh line c).1 ++ (owed (fresh line c).2.mode next).toList = (flaw pre c next).toList ∧
      Leave (pre ++ [c]) (fresh line c).2.mode := by
  by_cases hm : c ∈ marks
  · have hword := isWordChar_of_mem_marks hm
    by_cases hless : c = '<'
    · subst hless
      refine ⟨?_, by rw [quoted_concat, hq]; rfl, List.getLast?_concat⟩
      have hflaw : flaw pre '<' next = dangling next := by simp [flaw, hq]
      rw [hflaw]
      rfl
    · by_cases hquote : c = '"'
      · subst hquote
        have hflaw : flaw pre '"' next = none := by simp [flaw, hq, marks]
        refine ⟨by rw [hflaw]; rfl, ?_⟩
        show quoted (pre ++ ['"']) = true
        rw [quoted_concat, hq]
        rfl
      · obtain ⟨hc, hmode⟩ := fresh_of_mem_marks line hm hless hquote
        rw [hc, hmode]
        refine ⟨by simp [flaw, hq, hless, hm, owed], ?_, ?_, ?_⟩
        · simp [quoted_concat, hq, hquote]
        · simp [inWord_concat, hword]
        · simp [hless]
  · obtain ⟨hless, hquote⟩ : c ≠ '<' ∧ c ≠ '"' := by
      constructor <;> (rintro rfl; exact hm (by decide))
    have hq' : quoted (pre ++ [c]) = false := by simp [quoted_concat, hq, hquote]
    by_cases ha : isAlphanumeric c = true
    · have hword := isWordChar_of_isAlphanumeric ha
      rw [fresh_of_isAlphanumeric ha]
      refine ⟨by simp [flaw, hq, hless, ha, owed, causes, errors], hq', ?_⟩
      rw [inWord_concat, hword, ha]
      rfl
    · rw [fresh_of_unknown line hm (by simpa using ha)]
      have hnone : ¬ ((c = '.' ∨ c = '_') ∧ inWord pre = true) := by
        rintro ⟨hdot, hin⟩
        have hword : isWordChar c = true := by rcases hdot with rfl | rfl <;> rfl
        rw [hw hword] at hin
        cases hin
      have hflaw : flaw pre c next = some (.unknownSymbol c) := by simp [flaw, hq, hless, hm, ha, hnone]
      refine ⟨by rw [hflaw]; rfl, hq', ?_, by simp [hless]⟩
      rw [inWord_concat]
      cases hword : isWordChar c with
      | true => simp [ha, hw hword]
      | false => rfl

theorem flaw_of_quoted {pre : List Char} (hq : quoted pre = true) (next : Option Char) : flaw pre c next = none := by
  simp [flaw, hq]

theorem flaw_of_inWord {pre : List Char} (hin : inWord pre = true) (hc : isWordChar c = true) (next : Option Char) :
    flaw pre c next = none := by
  have hless : c ≠ '<' := by
    rintro rfl
    cases hc
  have hknown : isAlphanumeric c = true ∨ ((c = '.' ∨ c = '_') ∧ inWord pre = true) := by
    simpa [isWordChar, hin, or_assoc] using hc
  simp [flaw, hless, hknown]

end

/-- **One character**: what is wrong with it and the characters before it has been reported, or is owed. -/
theorem causes_step {pre : List Char} {s : State} (h : Leave pre s.mode) (c : Char) (next : Option Char) :
    causes (step s c).1 ++ (owed (step s c).2.mode next).toList =
        (owed s.mode (some c)).toList ++ (flaw pre c next).toList ∧
      Leave (pre ++ [c]) (step s c).2.mode := by
  obtain ⟨mode, line⟩ := s
  cases mode with
  | idle => exact causes_fresh line h.1 (fun _ => h.2.1) next
  | word read =>
    obtain ⟨hq, hin⟩ := h
    by_cases hc : isWordChar c = true
    · have hs : step ⟨.word read, line⟩ c = ([], ⟨.word (c :: read), line⟩) := if_pos hc
      have hquote : c ≠ '"' := by
        rintro rfl
        cases hc
      rw [hs, flaw_of_inWord hin hc]
      refine ⟨rfl, ?_, ?_⟩
      · simp [quoted_concat, hq, hquote]
      · simp [inWord_concat, hc, hin]
    · have hs : step ⟨.word read, line⟩ c = before (wordItem line read) (fresh line c) := if_neg hc
      rw [hs]
      exact causes_fresh line hq (fun hword => absurd hword hc) next
  | text read start =>
    have hq : quoted pre = true := h
    rw [flaw_of_quoted hq]
    by_cases hc : c = '"'
    · subst hc
      refine ⟨rfl, ?_, ?_, ?_⟩
      · rw [quoted_concat, hq]; rfl
      · rw [inWord_concat]; rfl
      · simp
    · have hs : step ⟨.text read start, line⟩ c = ([], ⟨.text (c :: read) start, if c = '\n' then line + 1 else line⟩) :=
        if_neg hc
      rw [hs]
      refine ⟨rfl, ?_⟩
      show quoted (pre ++ [c]) = true
      simp [quoted_concat, hq, hc]
  | less =>
    obtain ⟨hq, hlast⟩ := h
    have hin := inWord_of_getLast? hlast
    by_cases hc : c = '-'
    · subst hc
      have hflaw : flaw pre '-' next = none := by simp [flaw, hq, marks]
      rw [hflaw]
      refine ⟨rfl, ?_, ?_, ?_⟩
      · rw [quoted_concat, hq]; rfl
      · rw [inWord_concat]; rfl
      · simp
    · have hs : step ⟨.less, line⟩ c = before (failed line (.danglingLess c)) (fresh line c) := if_neg hc
      have howed : owed .less (some c) = some (.danglingLess c) := if_neg hc
      obtain ⟨hcauses, hleave⟩ := causes_fresh line hq (fun _ => hin) next
      rw [hs, howed, ← hcauses]
      exact ⟨rfl, hleave⟩

/-! ## A source -/

theorem flawAt_append (pre : List Char) (c : Char) (cs : List Char) :
    flawAt (pre ++ c :: cs) pre.length = flaw pre c cs.head? := by
  have hc : (pre ++ c :: cs)[pre.length]? = some c := by simp
  have hnext : (pre ++ c :: cs)[pre.length + 1]? = cs.head? := by
    rw [List.getElem?_append_right (Nat.le_add_right _ 1), Nat.add_sub_cancel_left, List.getElem?_cons_succ,
      List.head?_eq_getElem?]
  rw [flawAt, hc, hnext, List.take_left]
  rfl

theorem causes_atEnd {pre : List Char} {s : State} (h : Leave pre s.mode) : causes (atEnd s) = (openEnd pre).toList := by
  obtain ⟨mode, line⟩ := s
  cases mode with
  | idle => simp [openEnd, h.1, h.2.2, causes, atEnd, errors, found]
  | word read =>
    have hlast : pre.getLast? ≠ some '<' := fun hlast => by
      have hin := h.2
      rw [inWord_of_getLast? hlast] at hin
      cases hin
    simp [openEnd, h.1, hlast, causes, atEnd, errors, found, wordItem]
  | text read start =>
    have hq : quoted pre = true := h
    simp [openEnd, hq, causes, atEnd, errors, failed]
  | less => simp [openEnd, h.1, h.2, causes, atEnd, errors, failed]

/-- **The rest of a source**: what is owed, what is wrong with the rest character by character, and how it ends. -/
theorem causes_items : ∀ (cs : List Char) {pre : List Char} {s : State}, Leave pre s.mode →
    causes (items s cs) = (owed s.mode cs.head?).toList ++
      ((List.range' pre.length cs.length).filterMap (flawAt (pre ++ cs)) ++ (openEnd (pre ++ cs)).toList)
  | [], pre, s, h => by
    have howed : owed s.mode none = none := by cases s.mode <;> rfl
    rw [List.append_nil, List.head?_nil, howed]
    exact causes_atEnd h
  | c :: cs, pre, s, h => by
    -- a `<` is only owed while the next character is not known, so `owed` takes the head of the rest
    obtain ⟨hcauses, hleave⟩ := causes_step h c cs.head?
    have ih := causes_items cs hleave
    rw [items, causes_append, ih, ← List.append_assoc, hcauses, List.append_assoc pre, List.singleton_append,
      List.length_cons, List.range'_succ, List.length_append, List.length_singleton, List.filterMap_cons, flawAt_append]
    cases flaw pre c cs.head? <;> simp

theorem causes_source (cs : List Char) : causes (items .initial cs) = flaws cs := by
  rw [causes_items cs leave_initial, flaws, List.range_eq_range']
  rfl

/-- **The lexer reports all that is wrong with a source, and nothing else.** -/
theorem lex_reports_flaws (source : String) :
    (flaws source.toList = [] ∧ ∃ ts, lex source = .ok ts) ∨
      (flaws source.toList ≠ [] ∧ ∃ es, lex source = .error es ∧ es.map LexError.cause = flaws source.toList) := by
  rw [← causes_source, causes, lex]
  by_cases h : errors (items .initial source.toList) = []
  · exact .inl ⟨by rw [h]; rfl, _, if_pos h⟩
  · exact .inr ⟨by simpa using h, _, if_neg h, rfl⟩

example : flaws "a.b <._x \"<\" <".toList =
    [.danglingLess '.', .unknownSymbol '.', .unknownSymbol '_', .unexpectedEnd .arrow] := by decide

end Autoscript.Lexer
