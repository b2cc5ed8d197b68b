import Autoscript.Proofs.Syntax
/-!
# Lines — a source is read line by line

At the end of a line the lexer keeps nothing but the number of the next one, unless it is inside of a text; and what reads
as a script has no text.  So a source reads as a script exactly if each of its lines, taken for a source of its own, reads
as one statement (`spelled_lines`).  And a source that can be read goes before any other without changing how that one is
read, but for the numbers of its lines (`lex_below`).
-/
namespace Autoscript

def Token.down (k : Nat) (t : Token) : Token := ⟨t.kind, t.line + k⟩

def LexError.down (k : Nat) (e : LexError) : LexError := ⟨e.cause, e.line + k⟩

namespace Lexer

/-! ## Further down -/

def Item.down (k : Nat) : Item → Item
  | .ok t => .ok ⟨t.kind, t.line + k⟩
  | .error e => .error ⟨e.cause, e.line + k⟩

def Mode.down (k : Nat) : Mode → Mode
  | .text read start => .text read (start + k)
  | m => m

def State.down (k : Nat) (s : State) : State := ⟨s.mode.down k, s.line + k⟩

theorem ite_down {k : Nat} {p : Prop} [Decidable p] {a b a' b' : List Item × State}
    (ha : a' = (a.1.map (Item.down k), a.2.down k)) (hb : b' = (b.1.map (Item.down k), b.2.down k)) :
    (if p then a' else b') = ((if p then a else b).1.map (Item.down k), (if p then a else b).2.down k) := by
  by_cases hp : p
  · rw [if_pos hp, if_pos hp]; exact ha
  · rw [if_neg hp, if_neg hp]; exact hb

theorem fresh_down (k line : Nat) (c : Char) :
    fresh (line + k) c = ((fresh line c).1.map (Item.down k), (fresh line c).2.down k) := by
  unfold fresh
  repeat' apply ite_down
  all_goals simp [found, failed, Item.down, State.down, Mode.down, Nat.add_right_comm]

theorem step_down (k : Nat) (s : State) (c : Char) :
    step (s.down k) c = ((step s c).1.map (Item.down k), (step s c).2.down k) := by
  obtain ⟨mode, line⟩ := s
  cases mode with
  | idle => exact fresh_down k line c
  | word read =>
    simp only [step, State.down, Mode.down]
    split_ifs
    · rfl
    · rw [fresh_down]
      rfl
  | text read start =>
    simp only [step, State.down, Mode.down]
    split_ifs
    · rfl
    · rw [Nat.add_right_comm]
      rfl
    · rfl
  | less =>
    simp only [step, State.down, Mode.down]
    split_ifs
    · rfl
    · rw [fresh_down]
      rfl

/-- **Further down a source is read as it is at the top.** -/
theorem items_down (k : Nat) : ∀ (cs : List Char) (s : State), items (s.down k) cs = (items s cs).map (Item.down k)
  | [], s => by
    obtain ⟨mode, line⟩ := s
    cases mode <;> rfl
  | c :: cs, s => by
    simp only [items, List.map_append]
    rw [step_down, items_down k cs]

theorem errors_down (k : Nat) (is : List Item) : errors (is.map (Item.down k)) = (errors is).map (LexError.down k) := by
  unfold errors
  rw [List.filterMap_map, List.map_filterMap]
  refine List.filterMap_congr fun i _ => ?_
  cases i <;> rfl

theorem tokens_down (k : Nat) (is : List Item) : tokens (is.map (Item.down k)) = (tokens is).map (Token.down k) := by
  unfold tokens
  rw [List.filterMap_map, List.map_filterMap]
  refine List.filterMap_congr fun i _ => ?_
  cases i <;> rfl

/-- **Behind the end of a line** the next source is read as it is at the top. -/
theorem items_below (line : Nat) (cs : List Char) :
    items ⟨.idle, line + 1⟩ cs = (items .initial cs).map (Item.down line) := by
  rw [← items_down, State.initial, State.down, Nat.add_comm]
  rfl

theorem errors_append (is js : List Item) : errors (is ++ js) = errors is ++ errors js := List.filterMap_append

theorem tokens_append (is js : List Item) : tokens (is ++ js) = tokens is ++ tokens js := List.filterMap_append

/-! ## The end of a line -/

/-- **A source that can be read, and more lines**: what ended the source ends its last line. -/
theorem items_newline : ∀ (cs : List Char) {s : State}, errors (items s cs) = [] →
    ∃ is line, items s cs = is ++ [found line .endOfSource] ∧
      ∀ rest, items s (cs ++ '\n' :: rest) = is ++ found line .endOfLine :: items ⟨.idle, line + 1⟩ rest
  | [], s, h => by
    obtain ⟨mode, line⟩ := s
    cases mode with
    | idle => exact ⟨[], line, rfl, fun rest => rfl⟩
    | word read => exact ⟨[wordItem line read], line, rfl, fun rest => rfl⟩
    | text read start => cases h
    | less => cases h
  | c :: cs, s, h => by
    rw [items, errors_append, List.append_eq_nil_iff] at h
    obtain ⟨is, line, he, hn⟩ := items_newline cs h.2
    refine ⟨(step s c).1 ++ is, line, by rw [items, he, List.append_assoc], fun rest => ?_⟩
    rw [List.cons_append, items, hn, List.append_assoc]

theorem text_of_items : ∀ (cs : List Char) {line start : Nat} {read : List Char},
    errors (items ⟨.text read start, line⟩ cs) = [] →
      ∃ t ∈ tokens (items ⟨.text read start, line⟩ cs), ∃ content, t.kind = .text content
  | [], _, _, _, h => by cases h
  | c :: cs, line, start, read, h => by
    by_cases hc : c = '"'
    · subst hc
      exact ⟨_, List.mem_cons_self, _, rfl⟩
    · have hs : step ⟨.text read start, line⟩ c = ([], ⟨.text (c :: read) start, if c = '\n' then line + 1 else line⟩) := by
        simp [step, hc]
      simp only [items, hs, List.nil_append] at h ⊢
      exact text_of_items cs h

/-- **The first line of a source without texts can be read by itself.** -/
theorem errors_of_line (rest : List Char) : ∀ (cs : List Char) {s : State}, errors (items s (cs ++ '\n' :: rest)) = [] →
    (∀ t ∈ tokens (items s (cs ++ '\n' :: rest)), ∀ content, t.kind ≠ .text content) → errors (items s cs) = []
  | [], s, h, ht => by
    obtain ⟨mode, line⟩ := s
    cases mode with
    | idle | word => rfl
    | text read start =>
      -- the text goes on behind the line, and is found where it is closed
      obtain ⟨t, hm, content, hk⟩ := text_of_items _ h
      exact absurd hk (ht t hm content)
    | less => cases h
  | c :: cs, s, h, ht => by
    rw [List.cons_append, items] at h ht
    rw [errors_append, List.append_eq_nil_iff] at h
    rw [items, errors_append, h.1, List.nil_append]
    refine errors_of_line rest cs h.2 fun t hm => ht t ?_
    rw [tokens_append]
    exact List.mem_append_right _ hm

theorem items_ne_endOfLine : ∀ {cs : List Char} {s : State}, '\n' ∉ cs → ∀ t ∈ tokens (items s cs), t.kind ≠ .endOfLine
  | [], s, _ => by
    obtain ⟨mode, line⟩ := s
    cases mode <;> simp [items, atEnd, tokens, found, failed, wordItem, Script.classify_ne (k := .endOfLine) rfl]
  | c :: cs, s, h => by
    rw [List.mem_cons, not_or] at h
    intro t ht hk
    rw [items, tokens_append, List.mem_append] at ht
    rcases ht with ht | ht
    · have he := Script.endsAt_step s c t ht (by rw [Token.endsStatement, hk]; rfl)
      exact h.1 he.1.symm
    · exact items_ne_endOfLine h.2 t ht hk

theorem lex_ok_iff {source : String} {ts : List Token} :
    lex source = .ok ts ↔ errors (items .initial source.toList) = [] ∧ tokens (items .initial source.toList) = ts := by
  unfold lex
  by_cases he : errors (items .initial source.toList) = [] <;> simp [he]

theorem lex_error_iff {source : String} {es : List LexError} :
    lex source = .error es ↔ errors (items .initial source.toList) = es ∧ es ≠ [] := by
  unfold lex
  by_cases he : errors (items .initial source.toList) = []
  · simp only [he, if_true]
    constructor
    · intro h
      cases h
    · rintro ⟨rfl, hne⟩
      exact absurd rfl hne
  · simp only [he, if_false, Except.error.injEq]
    constructor
    · rintro rfl
      exact ⟨rfl, he⟩
    · exact And.left

/-! ## Two sources in a row -/

/-- **A source that can be read, and another one on the lines below**: only the end of the first is no longer one of the
source, but of a line.  The other one is read, or refused, as it is by itself, so many lines further down. -/
theorem lex_below {above : String} {ts : List Token} (h : lex above = .ok ts) (below : String) :
    ∃ init line, ts = init ++ [⟨.endOfSource, line⟩] ∧ (∀ t ∈ init, t.kind ≠ .endOfSource) ∧
      (∀ us, lex below = .ok us →
        lex (above ++ "\n" ++ below) = .ok (init ++ ⟨.endOfLine, line⟩ :: us.map (Token.down line))) ∧
      ∀ es, lex below = .error es → lex (above ++ "\n" ++ below) = .error (es.map (LexError.down line)) := by
  obtain ⟨init, last, hts, hlast, hinit⟩ := Script.closed_of_lex h
  obtain ⟨he, rfl⟩ := lex_ok_iff.1 h
  obtain ⟨is, line, hend, hnewline⟩ := items_newline above.toList he
  have hchars : (above ++ "\n" ++ below).toList = above.toList ++ '\n' :: below.toList := by simp
  -- what is found in both, by what is found in the first one and in the second
  have hitems := hnewline below.toList
  rw [items_below, ← hchars] at hitems
  rw [hend, errors_append, List.append_eq_nil_iff] at he
  have herrors : errors (items .initial (above ++ "\n" ++ below).toList) =
      (errors (items .initial below.toList)).map (LexError.down line) := by
    rw [hitems, errors_append, he.1, ← errors_down]
    rfl
  have htokens : tokens (items .initial (above ++ "\n" ++ below).toList) =
      tokens is ++ ⟨.endOfLine, line⟩ :: (tokens (items .initial below.toList)).map (Token.down line) := by
    rw [hitems, tokens_append, ← tokens_down]
    rfl
  rw [hend, tokens_append] at hts ⊢
  obtain ⟨rfl, -⟩ := List.append_inj' hts rfl
  refine ⟨tokens is, line, rfl, hinit, fun us hus => ?_, fun es hes => ?_⟩
  · obtain ⟨hnone, rfl⟩ := lex_ok_iff.1 hus
    exact lex_ok_iff.2 ⟨by rw [herrors, hnone]; rfl, htokens⟩
  · obtain ⟨rfl, hne⟩ := lex_error_iff.1 hes
    exact lex_error_iff.2 ⟨herrors, by simpa using hne⟩

/-- The first source ends in a number, behind a text over two lines.  What is below it does not go on with either. -/
theorem lex_below_number_behind_text :
    let read : List Token := [⟨.name "x", 1⟩, ⟨.text "a\nb", 1⟩, ⟨.int 1, 2⟩]
    lex "x \"a\nb\" 1" = .ok (read ++ [⟨.endOfSource, 2⟩]) ∧
    lex ("x \"a\nb\" 1" ++ "\n" ++ "5 +\n") = .ok (read ++ [⟨.endOfLine, 2⟩, ⟨.int 5, 3⟩, ⟨.operator (.arith .add), 3⟩,
      ⟨.endOfLine, 3⟩, ⟨.endOfSource, 4⟩]) ∧
    lex ("x \"a\nb\" 1" ++ "\n" ++ ".5\n\"") = .error [⟨.unknownSymbol '.', 3⟩, ⟨.unexpectedEnd .text, 4⟩] := by
  intro read
  have habove : lex "x \"a\nb\" 1" = .ok (read ++ [⟨.endOfSource, 2⟩]) := by decide +kernel
  have hok : lex "5 +\n" =
      .ok [⟨.int 5, 1⟩, ⟨.operator (.arith .add), 1⟩, ⟨.endOfLine, 1⟩, ⟨.endOfSource, 2⟩] := by decide +kernel
  have herror : lex ".5\n\"" = .error [⟨.unknownSymbol '.', 1⟩, ⟨.unexpectedEnd .text, 2⟩] := by decide +kernel
  refine ⟨habove, ?_, ?_⟩
  · obtain ⟨init, line, hts, -, hread, -⟩ := lex_below habove "5 +\n"
    obtain ⟨rfl, hlast⟩ := List.append_inj' hts rfl
    cases hlast
    exact hread _ hok
  · obtain ⟨init, line, hts, -, -, hunread⟩ := lex_below habove ".5\n\""
    obtain ⟨rfl, hlast⟩ := List.append_inj' hts rfl
    cases hlast
    exact hunread _ herror

end Lexer

namespace Script

open Lexer (items errors tokens)

/-! ## What lines say -/

/-- **What characters say**, taken for a source. -/
def Spelled (cs : List Char) (ss : List Stmt) : Prop :=
  ∃ ts, Lexer.lex (String.ofList cs) = .ok ts ∧ Reads (ts.map Token.kind) ss

theorem spelled_iff {cs : List Char} {ss : List Stmt} : Spelled cs ss ↔
    errors (items .initial cs) = [] ∧ Reads ((tokens (items .initial cs)).map Token.kind) ss := by
  unfold Spelled
  simp only [Lexer.lex_ok_iff, String.toList_ofList]
  constructor
  · rintro ⟨ts, ⟨he, rfl⟩, hr⟩
    exact ⟨he, hr⟩
  · rintro ⟨he, hr⟩
    exact ⟨_, ⟨he, rfl⟩, hr⟩

theorem Spelled.unique {cs : List Char} {ss ss' : List Stmt} (h : Spelled cs ss) (h' : Spelled cs ss') : ss = ss' :=
  (spelled_iff.1 h).2.unique (spelled_iff.1 h').2

theorem Reads.ne_text {ks : List Token.Kind} {ss : List Stmt} (h : Reads ks ss) :
    ∀ k ∈ ks, ∀ content, k ≠ .text content := by
  have hw {ks : List Token.Kind} {s : Stmt} (h : Written ks s) {k : Token.Kind} (hk : k ∈ ks) (content : String) :
      k ≠ .text content := by
    rintro rfl
    cases h.kinds _ hk
  induction h with
  | last h =>
    intro k hk content
    rcases List.mem_append.1 hk with hk | hk
    · exact hw h hk content
    · rw [List.mem_singleton.1 hk]
      simp
  | line h _ ih =>
    intro k hk content
    rcases List.mem_append.1 hk with hk | hk
    · exact hw h hk content
    · rcases List.mem_cons.1 hk with rfl | hk
      · simp
      · exact ih k hk content

theorem Written.ne_endOfLine {ks : List Token.Kind} {s : Stmt} (h : Written ks s) : .endOfLine ∉ ks := fun hk => by
  cases h.kinds _ hk

theorem reads_cons_iff {ks ts : List Token.Kind} (hks : .endOfLine ∉ ks) {ss : List Stmt} :
    Reads (ks ++ .endOfLine :: ts) ss ↔ ∃ s ss', ss = s :: ss' ∧ Written ks s ∧ Reads ts ss' := by
  constructor
  · generalize hk : ks ++ .endOfLine :: ts = all
    intro h
    cases h with
    | last hw =>
      rcases cut_cases hk with ⟨-, he, -⟩ | ⟨mid, rfl, -⟩ | ⟨mid, -, he⟩
      · cases he
      · exact absurd (by simp) hw.ne_endOfLine
      · simp at he
    | line hw hr =>
      rcases cut_cases hk with ⟨rfl, -, rfl⟩ | ⟨mid, rfl, -⟩ | ⟨mid, rfl, -⟩
      · exact ⟨_, _, rfl, hw, hr⟩
      · exact absurd (by simp) hw.ne_endOfLine
      · exact absurd (by simp) hks
  · rintro ⟨s, ss', rfl, hw, hr⟩
    exact .line hw hr

theorem reads_last_iff {ks : List Token.Kind} (hks : .endOfLine ∉ ks) {ss : List Stmt} :
    Reads (ks ++ [.endOfSource]) ss ↔ ∃ s, ss = [s] ∧ Written ks s := by
  constructor
  · generalize hk : ks ++ [.endOfSource] = all
    intro h
    cases h with
    | last hw =>
      obtain rfl := List.append_cancel_right hk
      exact ⟨_, rfl, hw⟩
    | line hw hr =>
      have hm : Token.Kind.endOfLine ∈ ks ++ [.endOfSource] := by rw [hk]; simp
      simp [hks] at hm
  · rintro ⟨s, rfl, hw⟩
    exact .last hw

/-- **The tokens of a line that can be read**, taken for a source or followed by more lines. -/
theorem kinds_of_line {l : List Char} (hl : '\n' ∉ l) (he : errors (items .initial l) = []) :
    ∃ ks, .endOfLine ∉ ks ∧ (tokens (items .initial l)).map Token.kind = ks ++ [.endOfSource] ∧
      ∀ rest, (tokens (items .initial (l ++ '\n' :: rest))).map Token.kind =
          ks ++ .endOfLine :: (tokens (items .initial rest)).map Token.kind ∧
        (errors (items .initial (l ++ '\n' :: rest)) = [] ↔ errors (items .initial rest) = []) := by
  obtain ⟨is, line, hi, hn⟩ := Lexer.items_newline l he
  have hnone := Lexer.items_ne_endOfLine (s := .initial) hl
  rw [hi, Lexer.errors_append, List.append_eq_nil_iff] at he
  rw [hi, Lexer.tokens_append] at hnone
  refine ⟨(tokens is).map Token.kind, fun hm => ?_, ?_, fun rest => ?_⟩
  · obtain ⟨t, ht, hk⟩ := List.mem_map.1 hm
    exact hnone t (List.mem_append_left _ ht) hk
  · rw [hi, Lexer.tokens_append, List.map_append]
    rfl
  · have hkinds : (tokens ((items .initial rest).map (Lexer.Item.down line))).map Token.kind =
        (tokens (items .initial rest)).map Token.kind := by
      rw [Lexer.tokens_down, List.map_map]
      rfl
    rw [hn, Lexer.items_below, Lexer.tokens_append, Lexer.errors_append, he.1, List.nil_append, List.map_append]
    refine ⟨congrArg _ (congrArg _ hkinds), ?_⟩
    show errors ((items .initial rest).map (Lexer.Item.down line)) = [] ↔ _
    rw [Lexer.errors_down, List.map_eq_nil_iff]

theorem spelled_newline {l rest : List Char} (hl : '\n' ∉ l) {ss : List Stmt} :
    Spelled (l ++ '\n' :: rest) ss ↔ ∃ s ss', ss = s :: ss' ∧ Spelled l [s] ∧ Spelled rest ss' := by
  simp only [spelled_iff]
  constructor
  · rintro ⟨he, hr⟩
    have hline := Lexer.errors_of_line rest l he fun t ht content => hr.ne_text _ (List.mem_map_of_mem ht) content
    obtain ⟨ks, hks, hk, hrest⟩ := kinds_of_line hl hline
    obtain ⟨hk', he'⟩ := hrest rest
    rw [hk', reads_cons_iff hks] at hr
    obtain ⟨s, ss', rfl, hw, hr⟩ := hr
    refine ⟨s, ss', rfl, ⟨hline, ?_⟩, he'.1 he, hr⟩
    rw [hk]
    exact .last hw
  · rintro ⟨s, ss', rfl, ⟨hline, hr⟩, he, hr'⟩
    obtain ⟨ks, hks, hk, hrest⟩ := kinds_of_line hl hline
    obtain ⟨hk', he'⟩ := hrest rest
    rw [hk, reads_last_iff hks] at hr
    obtain ⟨s, hs, hw⟩ := hr
    cases hs
    refine ⟨he'.2 he, ?_⟩
    rw [hk']
    exact .line hw hr'

theorem spelled_line {l : List Char} (hl : '\n' ∉ l) {ss : List Stmt} (h : Spelled l ss) : ∃ s, ss = [s] := by
  obtain ⟨he, hr⟩ := spelled_iff.1 h
  obtain ⟨ks, hks, hk, -⟩ := kinds_of_line hl he
  rw [hk, reads_last_iff hks] at hr
  obtain ⟨s, hs, -⟩ := hr
  exact ⟨s, hs⟩

/-- **Lines say a script exactly if each says its statement.** -/
theorem spelled_lines : ∀ {ls : List (List Char)}, ls ≠ [] → (∀ l ∈ ls, '\n' ∉ l) → ∀ {ss : List Stmt},
    Spelled (['\n'].intercalate ls) ss ↔ List.Forall₂ (fun l s => Spelled l [s]) ls ss
  | [l], _, hl, ss => by
    rw [List.intercalate_singleton]
    constructor
    · intro h
      obtain ⟨s, rfl⟩ := spelled_line (hl l List.mem_cons_self) h
      exact .cons h .nil
    · rintro (_ | ⟨h, _ | _⟩)
      exact h
  | l :: l' :: ls, _, hl, ss => by
    have ih {ss : List Stmt} : Spelled (['\n'].intercalate (l' :: ls)) ss ↔ _ :=
      spelled_lines (List.cons_ne_nil _ _) fun k hk => hl k (List.mem_cons_of_mem _ hk)
    rw [List.intercalate_cons_cons, List.append_assoc, List.singleton_append, spelled_newline (hl l List.mem_cons_self),
      List.forall₂_cons_left_iff]
    simp only [ih]
    constructor
    · rintro ⟨s, ss', rfl, h, h'⟩
      exact ⟨s, ss', h, h', rfl⟩
    · rintro ⟨s, ss', h, h', rfl⟩
      exact ⟨s, ss', rfl, h, h'⟩

/-! ## The lines of a source -/

def linesOf (source : String) : List (List Char) := source.toList.splitOn '\n'

def ofLines (ls : List (List Char)) : String := String.ofList (['\n'].intercalate ls)

theorem ofLines_linesOf (source : String) : ofLines (linesOf source) = source := by
  rw [ofLines, linesOf, List.intercalate_splitOn, String.ofList_toList]

theorem linesOf_ne_nil (source : String) : linesOf source ≠ [] := List.splitOn_ne_nil _ _

theorem newline_notMem_of_mem_splitOn : ∀ {cs l : List Char}, l ∈ cs.splitOn '\n' → '\n' ∉ l
  | [], l, h => by
    rw [List.splitOn_nil, List.mem_singleton] at h
    simp [h]
  | c :: cs, l, h => by
    rw [List.splitOn_cons_eq_if_modifyHead] at h
    by_cases hc : c = '\n'
    · rw [if_pos (by simp [hc]), List.mem_cons] at h
      rcases h with rfl | h
      · simp
      · exact newline_notMem_of_mem_splitOn h
    · rw [if_neg (by simp [hc])] at h
      cases hs : cs.splitOn '\n' with
      | nil => exact absurd hs (List.splitOn_ne_nil _ _)
      | cons k ks =>
        rw [hs, List.modifyHead_cons, List.mem_cons] at h
        rcases h with rfl | h
        · have hk : '\n' ∉ k := newline_notMem_of_mem_splitOn (by rw [hs]; exact List.mem_cons_self)
          simp [hk, Ne.symm hc]
        · have hl : l ∈ cs.splitOn '\n' := by rw [hs]; exact List.mem_cons_of_mem _ h
          exact newline_notMem_of_mem_splitOn hl

/-- **The lines of a source say its statements.** -/
theorem spelled_linesOf {source : String} {tokens : List Token} {script : List Stmt} (hl : Lexer.lex source = .ok tokens)
    (hs : Reads (tokens.map Token.kind) script) :
    List.Forall₂ (fun l s => Spelled l [s]) (linesOf source) script := by
  refine (spelled_lines (linesOf_ne_nil source) fun l => newline_notMem_of_mem_splitOn).1 ⟨tokens, ?_, hs⟩
  rw [← hl]
  exact congrArg _ (ofLines_linesOf source)

end Script
end Autoscript
