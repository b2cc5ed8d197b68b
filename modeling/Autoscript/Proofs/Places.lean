import Autoscript.Proofs.Unreadable
/-!
# Places — the lines that tokens are on

The lexer counts the ends of lines, inside of texts as well, and a token is on the line that it begins on.  So the tokens
of a line that has no part of a text over several lines are those with its number, and what is before and behind the line
reads the same whatever the line holds (`lines_around`).
-/
namespace Autoscript.Lexer

/-! ## The beginning of a source -/

/-- The items of characters that more may follow, and the state after them. -/
def steps : State → List Char → List Item × State
  | s, [] => ([], s)
  | s, c :: cs => ((step s c).1 ++ (steps (step s c).2 cs).1, (steps (step s c).2 cs).2)

theorem items_append (ds : List Char) : ∀ (cs : List Char) (s : State),
    items s (cs ++ ds) = (steps s cs).1 ++ items (steps s cs).2 ds
  | [], _ => rfl
  | c :: cs, s => by
    rw [List.cons_append, items, items_append ds cs, steps, List.append_assoc]

theorem steps_concat (c : Char) : ∀ (cs : List Char) (s : State),
    steps s (cs ++ [c]) = ((steps s cs).1 ++ (step (steps s cs).2 c).1, (step (steps s cs).2 c).2)
  | [], s => by simp [steps]
  | d :: cs, s => by rw [List.cons_append, steps, steps_concat c cs, steps, List.append_assoc]

theorem leave_steps : ∀ (cs : List Char) {pre : List Char} {s : State}, Leave pre s.mode →
    Leave (pre ++ cs) (steps s cs).2.mode
  | [], pre, s, h => by rw [List.append_nil]; exact h
  | c :: cs, pre, s, h => by
    have hc := (causes_step h c none).2
    rw [← List.singleton_append, ← List.append_assoc]
    exact leave_steps cs hc

/-! ## Lines -/

/-- The first line that a token can still be on. -/
def State.low (s : State) : Nat :=
  match s.mode with
  | .text _ start => start
  | _ => s.line

/-- One more line if a character ends one. -/
def below (line : Nat) (c : Char) : Nat := if c = '\n' then line + 1 else line

/-- What is found between two states is on the lines from the one to the other. -/
structure Placed (s : State) (c : Char) (r : List Item × State) : Prop where
  tokens : ∀ t ∈ tokens r.1, s.low ≤ t.line ∧ t.line ≤ s.line
  line : r.2.line = below s.line c
  low : s.low ≤ r.2.low
  high : r.2.low ≤ r.2.line

theorem placed_fresh (line : Nat) (c : Char) : Placed ⟨.idle, line⟩ c (fresh line c) := by
  by_cases hc : c = '\n'
  · subst hc
    exact ⟨fun t ht => (by rw [List.mem_singleton.1 ht]; exact ⟨Nat.le_refl _, Nat.le_refl _⟩), rfl, Nat.le_succ _,
      Nat.le_refl _⟩
  · have hbelow : below line c = line := if_neg hc
    have hnone {mode : Mode} (h : State.low ⟨mode, line⟩ = line) : Placed ⟨.idle, line⟩ c ([], ⟨mode, line⟩) :=
      ⟨fun t ht => (by cases ht), hbelow.symm, Nat.le_of_eq h.symm, Nat.le_of_eq h⟩
    have hone (item : Item) (h : ∀ t ∈ tokens [item], t.line = line) : Placed ⟨.idle, line⟩ c ([item], ⟨.idle, line⟩) :=
      ⟨fun t ht => ⟨Nat.le_of_eq (h t ht).symm, Nat.le_of_eq (h t ht)⟩, hbelow.symm, Nat.le_refl _, Nat.le_refl _⟩
    have hfound (kind : Token.Kind) := hone (found line kind) (by simp [tokens, found])
    have hfailed (cause : LexError.Cause) := hone (failed line cause) (by simp [tokens, failed])
    have hif {p : Prop} [Decidable p] {r r' : List Item × State} (h : Placed ⟨.idle, line⟩ c r)
        (h' : Placed ⟨.idle, line⟩ c r') : Placed ⟨.idle, line⟩ c (if p then r else r') := iteInduction (fun _ => h) fun _ => h'
    rw [fresh, if_neg hc]
    refine hif (hnone rfl) (hif (hfound _) (hif (hfound _) (hif (hfound _) (hif (hfound _) (hif (hfound _)
      (hif (hfound _) ?_))))))
    exact hif (hnone rfl) (hif (hnone rfl) (hif (hnone rfl) (hfailed _)))

theorem Placed.before {s : State} {c : Char} {r : List Item × State} (h : Placed ⟨.idle, s.line⟩ c r) (hs : s.low = s.line)
    {item : Item} (hi : ∀ t ∈ Lexer.tokens [item], t.line = s.line) : Placed s c (before item r) := by
  refine ⟨fun t ht => ?_, h.line, by rw [hs]; exact h.low, h.high⟩
  have ht : t ∈ Lexer.tokens ([item] ++ r.1) := ht
  rw [tokens_append, List.mem_append] at ht
  rcases ht with ht | ht
  · rw [hi t ht, hs]
    exact ⟨Nat.le_refl _, Nat.le_refl _⟩
  · rw [hs]
    exact h.tokens t ht

theorem placed_step {s : State} (h : s.low ≤ s.line) (c : Char) : Placed s c (step s c) := by
  obtain ⟨mode, line⟩ := s
  cases mode with
  | idle => exact placed_fresh line c
  | word read =>
    by_cases hc : isWordChar c = true
    · have hs : step ⟨.word read, line⟩ c = ([], ⟨.word (c :: read), line⟩) := if_pos hc
      have hbelow : below line c = line := if_neg (by rintro rfl; cases hc)
      rw [hs]
      exact ⟨fun t ht => (by cases ht), hbelow.symm, Nat.le_refl _, Nat.le_refl _⟩
    · have hs : step ⟨.word read, line⟩ c = before (wordItem line read) (fresh line c) := if_neg hc
      rw [hs]
      exact Placed.before (placed_fresh line c) rfl (by simp [tokens, wordItem, found])
  | text read start =>
    have hlow : start ≤ line := h
    by_cases hc : c = '"'
    · subst hc
      exact ⟨fun t ht => (by rw [List.mem_singleton.1 ht]; exact ⟨Nat.le_refl _, hlow⟩), rfl, hlow, Nat.le_refl _⟩
    · have hs : step ⟨.text read start, line⟩ c = ([], ⟨.text (c :: read) start, below line c⟩) := if_neg hc
      have hbelow : line ≤ below line c := by unfold below; split <;> omega
      rw [hs]
      exact ⟨fun t ht => (by cases ht), rfl, Nat.le_refl _, Nat.le_trans hlow hbelow⟩
  | less =>
    by_cases hc : c = '-'
    · subst hc
      exact ⟨fun t ht => (by rw [List.mem_singleton.1 ht]; exact ⟨Nat.le_refl _, Nat.le_refl _⟩), rfl, Nat.le_refl _,
        Nat.le_refl _⟩
    · have hs : step ⟨.less, line⟩ c = before (failed line (.danglingLess c)) (fresh line c) := if_neg hc
      rw [hs]
      exact Placed.before (placed_fresh line c) rfl (by simp [tokens, failed])

/-- **The tokens of characters are on their lines.** -/
theorem placed_steps : ∀ (cs : List Char) {s : State}, s.low ≤ s.line →
    (∀ t ∈ tokens (steps s cs).1, s.low ≤ t.line ∧ t.line ≤ (steps s cs).2.line) ∧
      (steps s cs).2.line = s.line + cs.count '\n' ∧ s.low ≤ (steps s cs).2.low ∧ (steps s cs).2.low ≤ (steps s cs).2.line
  | [], s, h => ⟨fun t ht => (by cases ht), rfl, Nat.le_refl _, h⟩
  | c :: cs, s, h => by
    have hp := placed_step h c
    obtain ⟨htokens, hline, hlow, hhigh⟩ := placed_steps cs hp.high
    have hcount : below s.line c + cs.count '\n' = s.line + (c :: cs).count '\n' := by
      rw [List.count_cons, below]
      by_cases hc : c = '\n'
      · simp [hc]; omega
      · simp [hc]
    refine ⟨fun t ht => ?_, by rw [steps, hline, hp.line, hcount], Nat.le_trans hp.low hlow, hhigh⟩
    rw [steps, tokens_append, List.mem_append] at ht
    rcases ht with ht | ht
    · obtain ⟨hl, hu⟩ := hp.tokens t ht
      refine ⟨hl, Nat.le_trans hu ?_⟩
      rw [steps, hline, hp.line, hcount]
      exact Nat.le_add_right _ _
    · obtain ⟨hl, hu⟩ := htokens t ht
      exact ⟨Nat.le_trans hp.low hl, hu⟩

theorem low_le_items : ∀ (cs : List Char) {s : State}, s.low ≤ s.line → ∀ t ∈ tokens (items s cs), s.low ≤ t.line
  | [], s, h => by
    obtain ⟨mode, line⟩ := s
    cases mode <;> simp [items, atEnd, tokens, found, failed, wordItem, State.low]
  | c :: cs, s, h => by
    have hp := placed_step h c
    intro t ht
    rw [items, tokens_append, List.mem_append] at ht
    rcases ht with ht | ht
    · exact (hp.tokens t ht).1
    · exact Nat.le_trans hp.low (low_le_items cs hp.high t ht)

theorem within_steps : ∀ {cs : List Char} {s : State}, '\n' ∉ cs → ∀ t ∈ tokens (steps s cs).1, t.endsStatement = false
  | [], _, _, _, ht => by cases ht
  | c :: cs, s, h, t, ht => by
    rw [List.mem_cons, not_or] at h
    rw [steps, tokens_append, List.mem_append] at ht
    rcases ht with ht | ht
    · by_contra he
      exact h.1 (Script.endsAt_step s c t ht (by simpa using he)).1.symm
    · exact within_steps h.2 t ht

/-! ## A line -/

theorem step_newline {s : State} (h : ∀ read start, s.mode ≠ .text read start) :
    ∃ is, step s '\n' = (is ++ [found s.line .endOfLine], ⟨.idle, s.line + 1⟩) := by
  obtain ⟨mode, line⟩ := s
  cases mode with
  | idle => exact ⟨[], rfl⟩
  | word read => exact ⟨[wordItem line read], rfl⟩
  | text read start => exact absurd rfl (h read start)
  | less => exact ⟨[failed line (.danglingLess '\n')], rfl⟩

/-- Characters that end with a line, or none. -/
def EndsLine (cs : List Char) : Prop := cs = [] ∨ ∃ init, cs = init ++ ['\n']

/-- Characters that begin behind a line, or none. -/
def BeginsLine (cs : List Char) : Prop := cs = [] ∨ ∃ tail, cs = '\n' :: tail

theorem ne_text_of_leave {cs : List Char} {m : Mode} (h : Leave cs m) (hq : quoted cs = false) (read : List Char)
    (start : Nat) : m ≠ .text read start := by
  rintro rfl
  cases hq.symm.trans h

/-- **The lines above a place outside of any text.** -/
theorem steps_above {pre : List Char} (h : EndsLine pre) (hq : quoted pre = false) :
    (steps .initial pre).2 = ⟨.idle, pre.count '\n' + 1⟩ ∧
      (∀ t ∈ tokens (steps .initial pre).1, t.line < pre.count '\n' + 1) ∧
      (tokens (steps .initial pre).1 = [] ∨
        ∃ init last, tokens (steps .initial pre).1 = init ++ [last] ∧ last.endsStatement = true) := by
  rcases h with rfl | ⟨init, rfl⟩
  · exact ⟨rfl, fun t ht => (by cases ht), .inl rfl⟩
  · obtain ⟨htokens, hline, -, hhigh⟩ := placed_steps init (s := .initial) (Nat.le_refl _)
    have hline : (steps .initial init).2.line = (init ++ ['\n']).count '\n' := by
      rw [hline, List.count_append, Nat.add_comm]
      rfl
    have hq : quoted init = false := by simpa [quoted_concat] using hq
    obtain ⟨is, hs⟩ := step_newline (ne_text_of_leave (leave_steps init leave_initial) hq)
    have hplaced := (placed_step hhigh '\n').tokens
    rw [hs] at hplaced
    rw [steps_concat, hs, tokens_append, ← hline]
    refine ⟨rfl, fun t ht => Nat.lt_succ_of_le ?_,
      .inr ⟨tokens (steps .initial init).1 ++ tokens is, ⟨.endOfLine, (steps .initial init).2.line⟩, ?_, rfl⟩⟩
    · rcases List.mem_append.1 ht with ht | ht
      · exact (htokens t ht).2
      · exact (hplaced t ht).2
    · rw [tokens_append, List.append_assoc]
      rfl

/-- **The rest of a line and the lines behind it**: the rest is a word at most, then comes the token that ends the line. -/
theorem items_behind {s : State} (hs : ∀ read start, s.mode ≠ .text read start) {post : List Char} (hp : BeginsLine post)
    (he : errors (items s post) = []) :
    ∃ rest stop behind, tokens (items s post) = rest ++ stop :: behind ∧
      errors (items ⟨.idle, s.line⟩ post) = [] ∧ tokens (items ⟨.idle, s.line⟩ post) = stop :: behind ∧
      (∀ t ∈ rest, t.line = s.line ∧ t.endsStatement = false) ∧ stop.line = s.line ∧ stop.endsStatement = true ∧
      ∀ t ∈ behind, s.line < t.line := by
  obtain ⟨mode, line⟩ := s
  -- what is behind the line does not depend on how it ends
  obtain ⟨stop, behind, hidle, hstop, hends, hbehind⟩ : ∃ stop behind, items ⟨.idle, line⟩ post = .ok stop :: behind ∧
      stop.line = line ∧ stop.endsStatement = true ∧ ∀ t ∈ tokens behind, line < t.line := by
    rcases hp with rfl | ⟨tail, rfl⟩
    · exact ⟨⟨.endOfSource, line⟩, [], rfl, rfl, rfl, fun t ht => by cases ht⟩
    · exact ⟨⟨.endOfLine, line⟩, items ⟨.idle, line + 1⟩ tail, rfl, rfl, rfl, low_le_items tail (Nat.le_refl _)⟩
  have htokens : tokens (items ⟨.idle, line⟩ post) = stop :: tokens behind := by rw [hidle]; rfl
  cases mode with
  | idle => exact ⟨[], stop, tokens behind, htokens, he, htokens, fun t ht => (by cases ht), hstop, hends, hbehind⟩
  | word read =>
    have hword : items ⟨.word read, line⟩ post = wordItem line read :: items ⟨.idle, line⟩ post := by
      refine items_word_end ?_ read line
      rcases hp with rfl | ⟨tail, rfl⟩
      · simp
      · simpa using isWordChar_of_mem_marks (c := '\n') (by decide)
    rw [hword] at he ⊢
    refine ⟨[⟨classify read.reverse, line⟩], stop, tokens behind, ?_, he, htokens, fun t ht => ?_, hstop, hends, hbehind⟩
    · rw [← htokens]
      rfl
    · rw [List.mem_singleton.1 ht]
      exact ⟨rfl, Script.classify_within _⟩
  | text read start => exact absurd rfl (hs read start)
  | less =>
    rcases hp with rfl | ⟨tail, rfl⟩ <;> cases he

end Autoscript.Lexer

namespace Autoscript.Script

open Lexer (items errors tokens steps quoted EndsLine BeginsLine)

/-! ## Lines of tokens -/

/-- All tokens of a line. -/
def Line.tokens (l : Line) : List Token := l.body ++ [l.stop]

theorem mem_of_mem_split : ∀ {ts : List Token} {l : Line}, l ∈ Line.split ts → ∀ t ∈ l.tokens, t ∈ ts
  | [], _, h => by cases h
  | u :: ts, l, h => by
    intro t ht
    rw [Line.split] at h
    split at h
    · rcases List.mem_cons.1 h with rfl | h
      · rw [List.mem_singleton.1 ht]
        exact List.mem_cons_self
      · exact List.mem_cons_of_mem _ (mem_of_mem_split h t ht)
    · cases hs : Line.split ts with
      | nil =>
        rw [hs] at h
        cases h
      | cons k ks =>
        have ih {l : Line} (hl : l ∈ k :: ks) : ∀ t ∈ l.tokens, t ∈ ts := mem_of_mem_split (by rw [hs]; exact hl)
        rw [hs] at h
        rcases List.mem_cons.1 h with rfl | h
        · rcases List.mem_cons.1 ht with rfl | ht
          · exact List.mem_cons_self
          · exact List.mem_cons_of_mem _ (ih List.mem_cons_self t ht)
        · exact List.mem_cons_of_mem _ (ih (List.mem_cons_of_mem _ h) t ht)

theorem Line.cons_append (t : Token) {ls : List Line} (h : ls ≠ []) (ms : List Line) :
    Line.cons t (ls ++ ms) = Line.cons t ls ++ ms := by
  cases ls with
  | nil => exact absurd rfl h
  | cons l ls => rfl

/-- The lines of tokens that end with a line, and of those behind them. -/
theorem split_behind {last : Token} (hl : last.endsStatement = true) (ts : List Token) : ∀ init : List Token,
    Line.split (init ++ [last]) ≠ [] ∧ Line.split (init ++ [last] ++ ts) = Line.split (init ++ [last]) ++ Line.split ts
  | [] => by simp [Line.split, hl]
  | t :: init => by
    obtain ⟨hne, happ⟩ := split_behind hl ts init
    simp only [List.cons_append, Line.split]
    split
    · exact ⟨List.cons_ne_nil _ _, by rw [happ]; rfl⟩
    · rw [happ, Line.cons_append t hne]
      refine ⟨?_, rfl⟩
      cases hs : Line.split (init ++ [last]) with
      | nil => exact absurd hs hne
      | cons => exact List.cons_ne_nil _ _

theorem split_above {above : List Token} (h : above = [] ∨ ∃ init last, above = init ++ [last] ∧ last.endsStatement = true)
    (ts : List Token) : Line.split (above ++ ts) = Line.split above ++ Line.split ts := by
  rcases h with rfl | ⟨init, last, rfl, hl⟩
  · rfl
  · exact (split_behind hl ts init).2

/-- **The lines around one**: if it has no part of a text over several lines, then its tokens are those with its number,
and without them the source reads as it does but for this line. -/
theorem lines_around {pre line post : List Char} (hpre : EndsLine pre) (hpost : BeginsLine post) (hline : '\n' ∉ line)
    (hq : quoted pre = false) (hq' : quoted line = false) (he : errors (items .initial (pre ++ (line ++ post))) = []) :
    errors (items .initial (pre ++ post)) = [] ∧ ∃ up l down,
      Line.split (tokens (items .initial (pre ++ (line ++ post)))) = up ++ l :: down ∧
      Line.split (tokens (items .initial (pre ++ post))) = up ++ ⟨[], l.stop⟩ :: down ∧
      (tokens (items .initial (pre ++ (line ++ post)))).find? (fun t => t.line == pre.count '\n' + 1) = l.tokens.head? ∧
      (∀ t ∈ l.tokens, t.line = pre.count '\n' + 1) ∧
      ∀ k ∈ up ++ down, ∀ t ∈ k.tokens, t.line ≠ pre.count '\n' + 1 := by
  obtain ⟨hstate, habove, hlast⟩ := Lexer.steps_above hpre hq
  simp only [Lexer.items_append, hstate, Lexer.errors_append, Lexer.tokens_append, List.append_eq_nil_iff] at he ⊢
  generalize pre.count '\n' + 1 = n at habove he ⊢
  generalize tokens (steps .initial pre).1 = above at habove hlast ⊢
  obtain ⟨heabove, -, hebehind⟩ := he
  obtain ⟨hown, hcount, -, -⟩ := Lexer.placed_steps line (s := ⟨.idle, n⟩) (Nat.le_refl _)
  have hn : (steps ⟨.idle, n⟩ line).2.line = n := by
    rw [hcount, List.count_eq_zero.2 hline]
    rfl
  have hleave : Lexer.Leave [] (⟨.idle, n⟩ : Lexer.State).mode := Lexer.leave_initial
  have htext := Lexer.ne_text_of_leave (Lexer.leave_steps line hleave) hq'
  have hwithin := Lexer.within_steps (s := ⟨.idle, n⟩) hline
  obtain ⟨rest, stop, behind, htokens, hidle, hblank, hrest, hstop, hends, hbehind⟩ := Lexer.items_behind htext hpost hebehind
  rw [hn] at hown hidle hblank hrest hstop hbehind
  rw [htokens, hblank]
  generalize tokens (steps ⟨.idle, n⟩ line).1 = own at hown hwithin ⊢
  have hbody : ∀ t ∈ own ++ rest, t.line = n ∧ t.endsStatement = false := fun t ht => by
    rcases List.mem_append.1 ht with ht | ht
    · exact ⟨Nat.le_antisymm (hown t ht).2 (hown t ht).1, hwithin t ht⟩
    · exact hrest t ht
  have hon : ∀ t ∈ Line.tokens ⟨own ++ rest, stop⟩, t.line = n := fun t ht => by
    rcases List.mem_append.1 ht with ht | ht
    · exact (hbody t ht).1
    · rw [List.mem_singleton.1 ht]
      exact hstop
  refine ⟨⟨heabove, hidle⟩, Line.split above, ⟨own ++ rest, stop⟩, Line.split behind, ?_, ?_, ?_, hon, fun k hk t ht => ?_⟩
  · rw [split_above hlast, ← List.append_assoc own, split_append hends behind _ fun t ht => (hbody t ht).2]
  · rw [split_above hlast, ← List.nil_append (stop :: behind), split_append hends behind [] (by simp)]
  · have hnone : above.find? (fun t => t.line == n) = none :=
      List.find?_eq_none.2 fun t ht => by simpa using Nat.ne_of_lt (habove t ht)
    have hsplit : own ++ (rest ++ stop :: behind) = Line.tokens ⟨own ++ rest, stop⟩ ++ behind := by simp [Line.tokens]
    rw [List.find?_append, hnone, Option.none_or, hsplit]
    cases hl : Line.tokens ⟨own ++ rest, stop⟩ with
    | nil => simp [Line.tokens] at hl
    | cons t ts =>
      rw [hl] at hon
      exact List.find?_cons_of_pos (by simpa using hon t List.mem_cons_self)
  · rcases List.mem_append.1 hk with hk | hk
    · exact Nat.ne_of_lt (habove t (mem_of_mem_split hk t ht))
    · exact Nat.ne_of_gt (hbehind t (mem_of_mem_split hk t ht))

end Autoscript.Script
