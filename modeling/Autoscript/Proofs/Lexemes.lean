import Autoscript.Proofs.Reports
/-!
# Lexemes — the line numbers of a source

A source that can be read is nothing but blanks and lexemes in turn (`exists_print`), so each of its tokens has a first
character.  The line of a token is the one of that character, which is found by counting the ends of lines before it, inside
of texts or not (`lineAt`); those outside of texts are the tokens that end lines.  What is wrong with a source that cannot
be read is reported on lines that are counted in the same way.
-/
namespace Autoscript.Lexer

open Text (isAlphanumeric)

/-- **The line of a place**: one more than the ends of lines before it. -/
def lineAt (cs : List Char) (p : Nat) : Nat := (cs.take p).count '\n' + 1

theorem lineAt_append (pre cs : List Char) : lineAt (pre ++ cs) pre.length = pre.count '\n' + 1 := by
  rw [lineAt, List.take_left]

/-! ## Sources that can be read -/

theorem Spelling.exists_cons {k : Token.Kind} {text : List Char} (h : Spelling k text) :
    ∃ c cs, text = c :: cs ∧ (isWord k = true → isWordChar c = true) := by
  by_cases hk : isWord k = true
  · obtain ⟨c, cs, rfl, hc, -, -⟩ := h.word_of_isWord hk
    exact ⟨c, cs, rfl, fun _ => isWordChar_of_isAlphanumeric hc⟩
  · obtain ⟨c, cs, rfl, -⟩ := h.head_of_not_isWord (by simpa using hk)
    exact ⟨c, cs, rfl, fun hw => absurd hw hk⟩

/-- A text that can be read is closed. -/
theorem exists_quote : ∀ (cs : List Char) {read : List Char} {start line : Nat},
    errors (items ⟨.text read start, line⟩ cs) = [] → ∃ content rest, '"' ∉ content ∧ cs = content ++ '"' :: rest
  | [], _, _, _, h => by cases h
  | c :: cs, read, start, line, h => by
    by_cases hc : c = '"'
    · subst hc
      exact ⟨[], cs, by simp, rfl⟩
    · have hs : step ⟨.text read start, line⟩ c = ([], ⟨.text (c :: read) start, if c = '\n' then line + 1 else line⟩) :=
        if_neg hc
      rw [items, hs] at h
      obtain ⟨content, rest, hq, rfl⟩ := exists_quote cs h
      exact ⟨c :: content, rest, by simp [hq, Ne.symm hc], rfl⟩

/-- **What can be read and is no blank begins with a lexeme.** -/
theorem exists_spelling {c : Char} {cs : List Char} (hc : c ∉ blanks) {line : Nat}
    (h : errors (items ⟨.idle, line⟩ (c :: cs)) = []) : ∃ k text rest, c :: cs = text ++ rest ∧ Spelling k text ∧
      (isWord k = true → ∀ d ∈ rest.head?, isWordChar d = false) := by
  have hsign (op : Operator) (hop : op.symbol.toList = [c]) : ∃ k text rest, c :: cs = text ++ rest ∧ Spelling k text ∧
      (isWord k = true → ∀ d ∈ rest.head?, isWordChar d = false) :=
    ⟨_, _, cs, by rw [hop]; rfl, .operator op, fun hk => by cases hk⟩
  by_cases hm : c ∈ marks
  · simp only [marks, List.mem_cons, List.not_mem_nil, or_false] at hm
    simp only [blanks, List.mem_cons, List.not_mem_nil, or_false, not_or] at hc
    rcases hm with rfl | rfl | rfl | rfl | rfl | rfl | rfl | rfl | rfl | rfl | rfl | rfl
    · exact absurd rfl hc.1
    · exact absurd rfl hc.2.1
    · exact absurd rfl hc.2.2
    · exact ⟨_, _, cs, rfl, .endOfLine, fun hk => by cases hk⟩
    · exact hsign (.arith .add) rfl
    · exact hsign (.arith .sub) rfl
    · exact hsign (.arith .mul) rfl
    · exact hsign (.arith .div) rfl
    · exact hsign .leftParen rfl
    · exact hsign .rightParen rfl
    · -- of what a `<` can begin, only an arrow can be read
      cases cs with
      | nil => cases h
      | cons d cs =>
        by_cases hd : d = '-'
        · subst hd
          exact ⟨_, _, cs, rfl, .operator .assign, fun hk => by cases hk⟩
        · have hs : step ⟨.less, line⟩ d = before (failed line (.danglingLess d)) (fresh line d) := if_neg hd
          have hitems : items ⟨.idle, line⟩ ('<' :: d :: cs) = items ⟨.less, line⟩ (d :: cs) := rfl
          rw [hitems, items, hs] at h
          cases h
    · obtain ⟨content, rest, hq, rfl⟩ := exists_quote cs h
      refine ⟨_, _, rest, ?_, .text (String.ofList content) (by simpa using hq), fun hk => by cases hk⟩
      simp
  · by_cases ha : isAlphanumeric c = true
    · refine ⟨_, c :: cs.takeWhile isWordChar, cs.dropWhile isWordChar, ?_, .word c _ ha ?_, fun _ => ?_⟩
      · rw [List.cons_append, List.takeWhile_append_dropWhile]
      · exact fun d hd => List.mem_takeWhile_imp hd
      · intro d hd
        have hstop := List.head?_dropWhile_not isWordChar cs
        rw [Option.mem_def.1 hd] at hstop
        simpa using hstop
    · rw [items, show step ⟨.idle, line⟩ c = fresh line c from rfl, fresh_of_unknown line hm (by simpa using ha)] at h
      cases h

/-- **A source that can be read is blanks and lexemes in turn.** -/
theorem exists_print (cs : List Char) (line : Nat) (h : errors (items ⟨.idle, line⟩ cs) = []) :
    ∃ gap ls, gap ⊆ blanks ∧ ls.IsChain Lexeme.Apart ∧ cs = gap ++ print ls := by
  match cs with
  | [] => exact ⟨[], [], by simp, .nil, rfl⟩
  | c :: cs =>
    by_cases hc : c ∈ blanks
    · have hblank : [c] ⊆ blanks := by simpa using hc
      have hitems : items ⟨.idle, line⟩ (c :: cs) = items ⟨.idle, line⟩ cs := items_gap [c] hblank
      rw [hitems] at h
      obtain ⟨gap, ls, hgap, hls, rfl⟩ := exists_print cs line h
      exact ⟨c :: gap, ls, List.cons_subset.2 ⟨hc, hgap⟩, hls, rfl⟩
    · obtain ⟨k, text, rest, hcs, hk, hend⟩ := exists_spelling hc h
      obtain ⟨d, ds, rfl, -⟩ := hk.exists_cons
      rw [hcs, hk.items hend] at h
      have hshort : rest.length < (c :: cs).length := by
        rw [hcs, List.length_append, List.length_cons]
        omega
      obtain ⟨gap, ls, hgap, hls, rfl⟩ := exists_print rest _ h
      refine ⟨[], ⟨k, d :: ds, gap, hk, hgap⟩ :: ls, by simp, ?_, by rw [hcs]; simp [print]⟩
      cases ls with
      | nil => exact .singleton _
      | cons l ls =>
        -- a word that the lexer has ended is not followed by a character of another one
        refine List.isChain_cons_cons.2 ⟨fun hw hw' hnone => ?_, hls⟩
        obtain ⟨e, es, he, hword⟩ := l.spelling.exists_cons
        have hnone : gap = [] := hnone
        have hlast := hend hw e (by simp [hnone, print, he])
        rw [hword hw'] at hlast
        cases hlast
termination_by cs.length
decreasing_by
  · exact Nat.lt_succ_self _
  · exact hshort

/-! ## The lines of tokens -/

/-- Lexemes with the places that they begin at, the first of them at `p`. -/
def laidOut : Nat → List Lexeme → List (Nat × Lexeme)
  | _, [] => []
  | p, l :: ls => (p, l) :: laidOut (p + (l.text ++ l.gap).length) ls

/-- The token of a lexeme, on the line of its first character. -/
def tokenAt (cs : List Char) (q : Nat × Lexeme) : Token := ⟨q.2.kind, lineAt cs q.1⟩

theorem count_gap (l : Lexeme) : l.gap.count '\n' = 0 :=
  List.count_eq_zero.2 fun hmem => absurd (l.blank hmem) (by decide)

theorem print_cons (l : Lexeme) (ls : List Lexeme) : print (l :: ls) = (l.text ++ l.gap) ++ print ls := rfl

/-- **Lexemes stand at their places.** -/
theorem text_at_laidOut : ∀ (ls : List Lexeme) (pre : List Char) {q : Nat × Lexeme}, q ∈ laidOut pre.length ls →
    q.2.text <+: (pre ++ print ls).drop q.1
  | [], _, _, h => by cases h
  | l :: ls, pre, q, h => by
    rw [print_cons]
    rcases List.mem_cons.1 h with rfl | h
    · rw [List.drop_left, List.append_assoc]
      exact List.prefix_append ..
    · rw [← List.length_append] at h
      rw [← List.append_assoc]
      exact text_at_laidOut ls _ h

/-- **The tokens of lexemes are on the lines of their first characters.** -/
theorem tokensOf_laidOut : ∀ (ls : List Lexeme) (pre : List Char),
    tokensOf (pre.count '\n' + 1) ls = (laidOut pre.length ls).map (tokenAt (pre ++ print ls)) ++
      [⟨.endOfSource, lineAt (pre ++ print ls) (pre ++ print ls).length⟩]
  | [], pre => by simp [tokensOf, laidOut, print, lineAt]
  | l :: ls, pre => by
    have hcount : pre.count '\n' + 1 + l.text.count '\n' = (pre ++ (l.text ++ l.gap)).count '\n' + 1 := by
      rw [List.count_append, List.count_append, count_gap]
      omega
    have hplace : pre.length + (l.text ++ l.gap).length = (pre ++ (l.text ++ l.gap)).length := List.length_append.symm
    have hfirst : tokenAt (pre ++ print (l :: ls)) (pre.length, l) = ⟨l.kind, pre.count '\n' + 1⟩ := by
      rw [tokenAt, lineAt_append]
    rw [tokensOf, hcount, tokensOf_laidOut ls, laidOut, List.map_cons, hfirst, hplace, print_cons, List.append_assoc pre,
      List.cons_append]

/-! ## The ends of lines -/

/-- Whether a line ends at a place outside of any text. -/
def isBreak (cs : List Char) (p : Nat) : Bool := cs[p]? == some '\n' && !quoted (cs.take p)

/-- **The places at which lines end**, in their order, but for those inside of texts. -/
def breaks (cs : List Char) : List Nat := (List.range cs.length).filter (isBreak cs)

def breaksBehind (pre : List Char) : List Char → List Nat
  | [] => []
  | c :: cs => (if c = '\n' ∧ quoted pre = false then [pre.length] else []) ++ breaksBehind (pre ++ [c]) cs

theorem filter_isBreak : ∀ (cs pre : List Char),
    (List.range' pre.length cs.length).filter (isBreak (pre ++ cs)) = breaksBehind pre cs
  | [], _ => rfl
  | c :: cs, pre => by
    have hfirst : isBreak (pre ++ c :: cs) pre.length = decide (c = '\n' ∧ quoted pre = false) := by
      simp [isBreak, beq_eq_decide]
    have ih := filter_isBreak cs (pre ++ [c])
    rw [List.append_assoc, List.singleton_append, List.length_append, List.length_singleton] at ih
    rw [breaksBehind, List.length_cons, List.range'_succ, List.filter_cons, hfirst, ih]
    by_cases h : c = '\n' ∧ quoted pre = false
    · simp [h]
    · rw [if_neg h, if_neg (by simpa using h), List.nil_append]

theorem breaksBehind_append : ∀ (as bs pre : List Char),
    breaksBehind pre (as ++ bs) = breaksBehind pre as ++ breaksBehind (pre ++ as) bs
  | [], bs, pre => by rw [List.append_nil]; rfl
  | a :: as, bs, pre => by
    rw [List.cons_append, breaksBehind, breaksBehind_append as bs, breaksBehind, List.append_assoc, List.append_assoc]
    rfl

theorem breaksBehind_of_notMem : ∀ {as : List Char} (pre : List Char), '\n' ∉ as → breaksBehind pre as = []
  | [], _, _ => rfl
  | a :: as, pre, h => by
    rw [List.mem_cons, not_or] at h
    rw [breaksBehind, if_neg fun ha => h.1 ha.1.symm, breaksBehind_of_notMem _ h.2]
    rfl

theorem quoted_append_of_notMem {as : List Char} (pre : List Char) (h : '"' ∉ as) : quoted (pre ++ as) = quoted pre := by
  rw [quoted, quoted, List.count_append, List.count_eq_zero.2 h, Nat.add_zero]

theorem breaksBehind_of_quoted : ∀ {as pre : List Char}, quoted pre = true → '"' ∉ as → breaksBehind pre as = []
  | [], _, _, _ => rfl
  | a :: as, pre, hq, h => by
    rw [List.mem_cons, not_or] at h
    have hnext : quoted (pre ++ [a]) = true := by rw [quoted_append_of_notMem pre (by simpa using h.1), hq]
    rw [breaksBehind, if_neg (by simp [hq]), breaksBehind_of_quoted hnext h.2]
    rfl

/-- **A line ends at a lexeme exactly if that is what it stands for**, and no text goes on behind it. -/
theorem breaksBehind_lexeme (l : Lexeme) {pre : List Char} (hq : quoted pre = false) :
    breaksBehind pre (l.text ++ l.gap) = (if l.kind = .endOfLine then [pre.length] else []) ∧
      quoted (pre ++ (l.text ++ l.gap)) = false := by
  obtain ⟨kind, text, gap, spelling, blank⟩ := l
  have hgap : '\n' ∉ gap ∧ '"' ∉ gap := ⟨fun h => absurd (blank h) (by decide), fun h => absurd (blank h) (by decide)⟩
  have hplain (hn : '\n' ∉ text) (ht : '"' ∉ text) (hk : kind ≠ .endOfLine) :
      breaksBehind pre (text ++ gap) = (if kind = .endOfLine then [pre.length] else []) ∧
        quoted (pre ++ (text ++ gap)) = false := by
    refine ⟨?_, by rw [quoted_append_of_notMem pre (by simp [ht, hgap]), hq]⟩
    rw [breaksBehind_of_notMem pre (by simp [hn, hgap]), if_neg hk]
  by_cases hk : isWord kind = true
  · obtain ⟨c, cs, rfl, hc, hcs, -⟩ := spelling.word_of_isWord hk
    have hword : ∀ d ∈ c :: cs, isWordChar d = true :=
      List.forall_mem_cons.2 ⟨isWordChar_of_isAlphanumeric hc, hcs⟩
    refine hplain (fun h => absurd (hword _ h) (by decide)) (fun h => absurd (hword _ h) (by decide)) ?_
    rintro rfl
    cases hk
  · cases spelling with
    | keyword | int => exact absurd rfl hk
    | word => exact absurd (isWord_classify _) hk
    | operator op =>
      cases op with
      | arith op => cases op <;> exact hplain (by decide) (by decide) (by simp)
      | _ => exact hplain (by decide) (by decide) (by simp)
    | endOfLine =>
      refine ⟨?_, by rw [quoted_append_of_notMem pre (by simp [hgap]), hq]⟩
      rw [List.cons_append, List.nil_append, breaksBehind, if_pos ⟨rfl, hq⟩, breaksBehind_of_notMem _ hgap.1, if_pos rfl]
      rfl
    | text content hc =>
      have hopen : quoted (pre ++ ['"']) = true := by rw [quoted_concat, hq]; rfl
      have hin : quoted (pre ++ ['"'] ++ content.toList) = true := by rw [quoted_append_of_notMem _ hc, hopen]
      have hclosed : quoted (pre ++ ['"'] ++ content.toList ++ ['"']) = false := by rw [quoted_concat, hin]; rfl
      have hsplit : '"' :: (content.toList ++ ['"']) ++ gap = ['"'] ++ (content.toList ++ (['"'] ++ gap)) := by simp
      rw [hsplit, breaksBehind_append, breaksBehind_append, breaksBehind_append, breaksBehind_of_notMem _ (by decide),
        breaksBehind_of_quoted hopen hc, breaksBehind_of_notMem _ (by decide), breaksBehind_of_notMem _ hgap.1]
      refine ⟨rfl, ?_⟩
      rw [← List.append_assoc, ← List.append_assoc, ← List.append_assoc, quoted_append_of_notMem _ hgap.2, hclosed]

theorem breaksBehind_print : ∀ (ls : List Lexeme) {pre : List Char}, quoted pre = false →
    breaksBehind pre (print ls) = ((laidOut pre.length ls).filter fun q => q.2.kind = .endOfLine).map Prod.fst
  | [], _, _ => rfl
  | l :: ls, pre, hq => by
    obtain ⟨hbreaks, hquoted⟩ := breaksBehind_lexeme l hq
    rw [print_cons, breaksBehind_append, hbreaks, breaksBehind_print ls hquoted, laidOut, List.filter_cons, List.length_append]
    by_cases hk : l.kind = .endOfLine
    · simp [hk]
    · simp [hk]

/-- **The ends of lines outside of texts are the tokens that end lines.** -/
theorem breaks_print {gap : List Char} (hgap : gap ⊆ blanks) (ls : List Lexeme) :
    breaks (gap ++ print ls) = ((laidOut gap.length ls).filter fun q => q.2.kind = .endOfLine).map Prod.fst := by
  have hn : '\n' ∉ gap := fun h => absurd (hgap h) (by decide)
  have hq : quoted gap = false := by
    rw [← List.nil_append gap, quoted_append_of_notMem [] fun h => absurd (hgap h) (by decide)]
    rfl
  have hall := filter_isBreak (gap ++ print ls) []
  rw [breaks, List.range_eq_range', ← breaksBehind_print ls hq]
  rw [List.length_nil, List.nil_append, breaksBehind_append, breaksBehind_of_notMem _ hn] at hall
  exact hall

/-! ## The lines of errors -/

/-- The place of the character that is wrong, which for the beginning of an arrow is the next one. -/
def culprit (p : Nat) : LexError.Cause → Nat
  | .danglingLess _ => p + 1
  | _ => p

/-- **The error at a place**, on the line of the character that is wrong. -/
def errorAt (cs : List Char) (p : Nat) : Option LexError :=
  (flawAt cs p).map fun cause => ⟨cause, lineAt cs (culprit p cause)⟩

def onLine (line : Nat) (causes : List LexError.Cause) : List LexError := causes.map fun cause => ⟨cause, line⟩

theorem onLine_append (line : Nat) (as bs : List LexError.Cause) : onLine line (as ++ bs) = onLine line as ++ onLine line bs :=
  List.map_append

theorem errors_onLine {is : List Item} {line : Nat} (h : ∀ e ∈ errors is, e.line = line) :
    errors is = onLine line (causes is) := by
  rw [causes, onLine, List.map_map]
  refine (List.map_id _).symm.trans (List.map_congr_left fun e he => ?_)
  rw [Function.comp_apply, ← h e he]
  rfl

theorem mem_of_mem_errors {is : List Item} {e : LexError} (h : e ∈ errors is) : .error e ∈ is := by
  obtain ⟨i, hi, he⟩ := List.mem_filterMap.1 h
  cases i with
  | error e' =>
    cases he
    exact hi
  | ok t => cases he

/-- **The errors of a character are on the line that the lexer is on.** -/
theorem errors_step (s : State) (c : Char) : errors (step s c).1 = onLine s.line (causes (step s c).1) := by
  refine errors_onLine fun e he => ?_
  have hline := line_step s c _ (mem_of_mem_errors he)
  obtain ⟨mode, line⟩ := s
  cases mode with
  | idle | word | less => exact hline
  | text read start =>
    -- inside of a text nothing is wrong
    simp only [step] at he
    split at he <;> cases he

theorem errors_atEnd {pre : List Char} {s : State} (h : Leave pre s.mode) :
    errors (atEnd s) = onLine s.line (openEnd pre).toList := by
  rw [← causes_atEnd h]
  refine errors_onLine fun e he => ?_
  have hmem := mem_of_mem_errors he
  obtain ⟨mode, line⟩ := s
  cases mode with
  | idle | word => simp [atEnd, found, wordItem] at hmem
  | text | less =>
    cases List.mem_singleton.1 hmem
    rfl

theorem eq_of_flaw_dangling {pre : List Char} {c d : Char} {next : Option Char}
    (h : flaw pre c next = some (.danglingLess d)) : c = '<' := by
  unfold flaw at h
  split_ifs at h with hq hless
  · exact hless
  · cases h

theorem errorAt_append (pre : List Char) (c : Char) (cs : List Char) :
    (errorAt (pre ++ c :: cs) pre.length).toList = onLine (pre.count '\n' + 1) (flaw pre c cs.head?).toList := by
  rw [errorAt, flawAt_append]
  cases hf : flaw pre c cs.head? with
  | none => rfl
  | some cause =>
    have hline : lineAt (pre ++ c :: cs) (culprit pre.length cause) = pre.count '\n' + 1 := by
      cases cause with
      | unexpectedEnd | unknownSymbol => exact lineAt_append pre (c :: cs)
      | danglingLess d =>
        cases eq_of_flaw_dangling hf
        have hnext := lineAt_append (pre ++ ['<']) cs
        rw [List.append_assoc, List.length_append, List.count_append] at hnext
        exact hnext
    simp [onLine, hline]

/-- What the lexer owes when it goes on to the next character is on the line that it was on before. -/
theorem onLine_owed {pre : List Char} {s : State} (hlow : s.low ≤ s.line) {c : Char} (h : Leave (pre ++ [c]) (step s c).2.mode)
    (next : Option Char) :
    onLine (step s c).2.line (owed (step s c).2.mode next).toList = onLine s.line (owed (step s c).2.mode next).toList := by
  have hline := (placed_step hlow c).line
  cases hm : (step s c).2.mode with
  | idle | word | text => rfl
  | less =>
    rw [hm] at h
    have hc : c = '<' := by simpa using h.2
    have hsame : (step s c).2.line = s.line := by rw [hline, hc]; rfl
    rw [hsame]

/-- **The errors of the rest of a source**: what is owed, what is wrong with the rest character by character, and how it
ends, each on its line. -/
theorem errors_items : ∀ (cs : List Char) {pre : List Char} {s : State}, Leave pre s.mode → s.low ≤ s.line →
    s.line = pre.count '\n' + 1 →
    errors (items s cs) = onLine s.line (owed s.mode cs.head?).toList ++
      ((List.range' pre.length cs.length).filterMap (errorAt (pre ++ cs)) ++
        onLine (lineAt (pre ++ cs) (pre ++ cs).length) (openEnd (pre ++ cs)).toList)
  | [], pre, s, h, _, hline => by
    have howed : owed s.mode none = none := by cases s.mode <;> rfl
    have hend : lineAt pre pre.length = s.line := by rw [lineAt, List.take_length, hline]
    rw [List.append_nil, List.head?_nil, howed, hend]
    exact errors_atEnd h
  | c :: cs, pre, s, h, hlow, hline => by
    obtain ⟨hcauses, hleave⟩ := causes_step h c cs.head?
    have hplaced := placed_step hlow c
    have hcount : (step s c).2.line = (pre ++ [c]).count '\n' + 1 := by
      rw [hplaced.line, hline, List.count_append, List.count_singleton, below]
      by_cases hc : c = '\n' <;> simp [hc]
    have ih := errors_items cs hleave hplaced.high hcount
    have hfirst : errors (step s c).1 ++ onLine (step s c).2.line (owed (step s c).2.mode cs.head?).toList =
        onLine s.line (owed s.mode (some c)).toList ++ (errorAt (pre ++ c :: cs) pre.length).toList := by
      rw [onLine_owed hlow hleave, errors_step, ← onLine_append, hcauses, onLine_append, errorAt_append, hline]
    rw [items, errors_append, ih, ← List.append_assoc, hfirst, List.append_assoc pre, List.singleton_append, List.length_cons,
      List.range'_succ, List.length_append, List.length_singleton, List.filterMap_cons]
    cases errorAt (pre ++ c :: cs) pre.length <;> simp

theorem errors_source (cs : List Char) : errors (items .initial cs) =
    (List.range cs.length).filterMap (errorAt cs) ++ onLine (lineAt cs cs.length) (openEnd cs).toList := by
  rw [errors_items cs leave_initial (Nat.le_refl _) rfl, List.range_eq_range']
  rfl

/-! ## A source -/

theorem Spelling.ne_endOfSource {k : Token.Kind} {text : List Char} (h : Spelling k text) : k ≠ .endOfSource := by
  cases h with
  | word c cs => exact Script.classify_ne rfl (c :: cs)
  | operator | keyword | int | text | endOfLine => simp

/-- **Line numbers are exact.**  A source that is read is blanks and lexemes in turn.  Its tokens are those of the lexemes,
each on the line of its first character, which stands where it is counted to, and then the end of the source on the last
line; so their lines never go back.  The tokens that end lines are the ends of lines outside of texts, one by one and in
their order.  In a source that is not read, what is wrong with a character is on the line of that character, and what it
ends in the middle of on the last one. -/
theorem lines_counted (source : String) :
    (∀ ts, lex source = .ok ts → ∃ gap ls, gap ⊆ blanks ∧ ls.IsChain Lexeme.Apart ∧ source.toList = gap ++ print ls ∧
      ts = (laidOut gap.length ls).map (tokenAt source.toList) ++
        [⟨.endOfSource, lineAt source.toList source.toList.length⟩] ∧
      (∀ q ∈ laidOut gap.length ls, q.2.text <+: source.toList.drop q.1) ∧
      (∀ l ∈ ls, l.kind ≠ .endOfSource) ∧ ts.Pairwise (fun t u => t.line ≤ u.line) ∧
      breaks source.toList = ((laidOut gap.length ls).filter fun q => q.2.kind = .endOfLine).map Prod.fst) ∧
    ∀ es, lex source = .error es → es = (List.range source.toList.length).filterMap (errorAt source.toList) ++
      onLine (lineAt source.toList source.toList.length) (openEnd source.toList).toList := by
  constructor
  · intro ts hts
    obtain ⟨herrors, htokens⟩ := lex_ok_iff.1 hts
    obtain ⟨gap, ls, hgap, hls, hcs⟩ := exists_print source.toList 1 herrors
    have hone : gap.count '\n' + 1 = 1 := by
      rw [List.count_eq_zero.2 fun h => absurd (hgap h) (by decide)]
    have htokensOf : ts = tokensOf (gap.count '\n' + 1) ls := by
      rw [← htokens, hcs, State.initial, items_gap gap hgap, items_tokensOf 1 hls, tokens_map_ok, hone]
    refine ⟨gap, ls, hgap, hls, hcs, ?_, fun q hq => ?_, fun l _ => l.spelling.ne_endOfSource, (inOrder_of_lex hts).1, ?_⟩
    · rw [htokensOf, tokensOf_laidOut, hcs]
    · rw [hcs]
      exact text_at_laidOut ls gap hq
    · rw [hcs]
      exact breaks_print hgap ls
  · intro es hes
    rw [← errors_source]
    unfold lex at hes
    simp only at hes
    split at hes
    · cases hes
    · cases hes
      rfl

/-- Words on both sides of a text over two lines, and what is wrong behind such a text. -/
theorem lines_counted_behind_text :
    let read := "a \"b\nc\"\nd"
    let unread := "\"\n\" % <\n"
    (lex read = .ok [⟨.name "a", 1⟩, ⟨.text "b\nc", 1⟩, ⟨.endOfLine, 2⟩, ⟨.name "d", 3⟩, ⟨.endOfSource, 3⟩] ∧
      ∃ gap ls, read.toList = gap ++ print ls ∧ ((laidOut gap.length ls).map (tokenAt read.toList)).map Token.line =
        [1, 1, 2, 3] ∧ breaks read.toList = ((laidOut gap.length ls).filter fun q => q.2.kind = .endOfLine).map Prod.fst) ∧
    lex unread = .error [⟨.unknownSymbol '%', 2⟩, ⟨.danglingLess '\n', 2⟩] ∧
      [⟨.unknownSymbol '%', 2⟩, ⟨.danglingLess '\n', 2⟩] = (List.range 8).filterMap (errorAt unread.toList) := by
  intro read unread
  have hread : lex read = .ok [⟨.name "a", 1⟩, ⟨.text "b\nc", 1⟩, ⟨.endOfLine, 2⟩, ⟨.name "d", 3⟩, ⟨.endOfSource, 3⟩] := by
    decide +kernel
  have hunread : lex unread = .error [⟨.unknownSymbol '%', 2⟩, ⟨.danglingLess '\n', 2⟩] := by decide +kernel
  obtain ⟨gap, ls, -, -, hcs, hts, -, -, -, hbreaks⟩ := (lines_counted read).1 _ hread
  have hlines := congrArg (fun ts : List Token => (ts.map Token.line).dropLast) hts
  have herrors := (lines_counted unread).2 _ hunread
  refine ⟨⟨hread, gap, ls, hcs, ?_, hbreaks⟩, hunread, herrors.trans ?_⟩
  · simpa using hlines.symm
  · decide +kernel

end Autoscript.Lexer
