import Autoscript.Proofs.Settled
/-!
# Reports — the lines that errors and faults are on

The lexer never goes back, so that its tokens and errors are in the order of their lines (`inOrder_items`).  A statement that
is refused is refused with one fault, on the line of one of its own tokens, and statements are compiled in their order.  So
the faults of the statements are in order as well (`inOrder_faultsOf`).  The exception is a function that is left open: it
is found out at the end, but reported on the line of its `start` (`inOrder_iff`).
-/
namespace Autoscript

namespace Lexer

/-! ## Items -/

def Item.line : Item → Nat
  | .ok t => t.line
  | .error e => e.line

theorem line_fresh (line : Nat) (c : Char) : ∀ i ∈ (fresh line c).1, Item.line i = line := by
  have hif {p : Prop} [Decidable p] {r r' : List Item × State} (h : ∀ i ∈ r.1, Item.line i = line)
      (h' : ∀ i ∈ r'.1, Item.line i = line) : ∀ i ∈ (if p then r else r').1, Item.line i = line :=
    iteInduction (motive := fun r : List Item × State => ∀ i ∈ r.1, Item.line i = line) (fun _ => h) fun _ => h'
  unfold fresh
  repeat' apply hif
  all_goals simp [found, failed, Item.line]

/-- **What a character yields is on the first line that a token can still be on.** -/
theorem line_step (s : State) (c : Char) : ∀ i ∈ (step s c).1, Item.line i = s.low := by
  have hnone : ∀ i ∈ ([] : List Item), Item.line i = s.low := fun i hi => by cases hi
  have hbefore {item : Item} (h : item.line = s.line) : ∀ i ∈ (before item (fresh s.line c)).1, Item.line i = s.line := by
    intro i hi
    rcases List.mem_cons.1 hi with rfl | hi
    · exact h
    · exact line_fresh s.line c i hi
  obtain ⟨mode, line⟩ := s
  cases mode with
  | idle => exact line_fresh line c
  | word read =>
    simp only [step]
    split
    · exact hnone
    · exact hbefore rfl
  | text read start =>
    simp only [step]
    split
    · intro i hi
      rw [List.mem_singleton.1 hi]
      rfl
    · exact hnone
  | less =>
    simp only [step]
    split
    · intro i hi
      rw [List.mem_singleton.1 hi]
      rfl
    · exact hbefore rfl

theorem low_le_atEnd {s : State} (h : s.low ≤ s.line) : ∀ i ∈ atEnd s, s.low ≤ Item.line i := by
  obtain ⟨mode, line⟩ := s
  cases mode with
  | idle | word | less => simp [atEnd, found, wordItem, failed, Item.line, State.low]
  | text read start =>
    intro i hi
    rw [List.mem_singleton.1 hi]
    exact h

theorem inOrder_atEnd (s : State) : (atEnd s).Pairwise fun i j => Item.line i ≤ Item.line j := by
  obtain ⟨mode, line⟩ := s
  cases mode with
  | word read => simp [atEnd, found, wordItem, Item.line]
  | idle | text | less => exact List.pairwise_singleton _ _

/-- **The items of a source are in the order of their lines.** -/
theorem inOrder_items : ∀ (cs : List Char) {s : State}, s.low ≤ s.line →
    (items s cs).Pairwise (fun i j => Item.line i ≤ Item.line j) ∧ ∀ i ∈ items s cs, s.low ≤ Item.line i
  | [], s, h => ⟨inOrder_atEnd s, low_le_atEnd h⟩
  | c :: cs, s, h => by
    have hplaced := placed_step h c
    have hstep := line_step s c
    obtain ⟨horder, hlow⟩ := inOrder_items cs hplaced.high
    have hrest : ∀ i ∈ items (step s c).2 cs, s.low ≤ Item.line i := fun i hi => Nat.le_trans hplaced.low (hlow i hi)
    constructor
    · refine List.pairwise_append.2 ⟨?_, horder, fun i hi j hj => ?_⟩
      · exact List.Pairwise.imp_of_mem (R := fun _ _ => True)
          (fun hi hj _ => Nat.le_of_eq ((hstep _ hi).trans (hstep _ hj).symm)) (List.pairwise_of_forall fun _ _ => trivial)
      · rw [hstep i hi]
        exact hrest j hj
    · intro i hi
      rcases List.mem_append.1 hi with hi | hi
      · exact Nat.le_of_eq (hstep i hi).symm
      · exact hrest i hi

theorem inOrder_of_lex_error {source : String} {es : List LexError} (h : lex source = .error es) :
    (es.map LexError.line).Pairwise (· ≤ ·) := by
  obtain ⟨rfl, -⟩ := lex_error_iff.1 h
  rw [List.pairwise_map]
  refine List.Pairwise.filterMap _ ?_ (inOrder_items source.toList (s := .initial) (Nat.le_refl _)).1
  rintro (e | t) (e' | t') hle a ha b hb <;> cases ha <;> cases hb
  exact hle

/-- **The tokens of a source are in the order of their lines**, which are counted from one. -/
theorem inOrder_of_lex {source : String} {ts : List Token} (h : lex source = .ok ts) :
    ts.Pairwise (fun t u => t.line ≤ u.line) ∧ ∀ t ∈ ts, 1 ≤ t.line := by
  obtain ⟨-, rfl⟩ := lex_ok_iff.1 h
  obtain ⟨horder, -⟩ := inOrder_items source.toList (s := .initial) (Nat.le_refl _)
  refine ⟨List.Pairwise.filterMap _ ?_ horder, low_le_items source.toList (Nat.le_refl _)⟩
  rintro (e | t) (e' | t') hle a ha b hb <;> cases ha <;> cases hb
  exact hle

end Lexer

namespace Script

/-! ## Statements -/

/-- **The lines of a source are all of its tokens.** -/
theorem flatMap_split : ∀ {tokens : List Token}, Closed tokens → (Line.split tokens).flatMap Line.tokens = tokens
  | [], h => by
    obtain ⟨init, last, hs, -⟩ := h
    simp at hs
  | t :: ts, h => by
    rcases closed_cons h with ⟨ht, rfl⟩ | ⟨-, hts⟩
    · have hends : t.endsStatement = true := by rw [Token.endsStatement, ht]; rfl
      simp [Line.split, hends, Line.tokens]
    · have ih := flatMap_split hts
      rw [Line.split]
      split
      · rw [List.flatMap_cons, ih]
        rfl
      · cases hs : Line.split ts with
        | nil =>
          rw [hs] at ih
          obtain ⟨init, last, hlast, -⟩ := hts
          rw [← ih] at hlast
          simp at hlast
        | cons l ls =>
          rw [hs] at ih
          exact congrArg (t :: ·) ih

/-- **The faults of statements are in the order of their lines.** -/
theorem inOrder_faultsOf : ∀ {ls : List Line} (s : State),
    (ls.flatMap Line.tokens).Pairwise (fun t u => t.line ≤ u.line) →
      (faultsOf s ls).Pairwise fun f g => f.line ≤ g.line
  | [], _, _ => .nil
  | l :: ls, s, h => by
    rw [List.flatMap_cons, List.pairwise_append] at h
    obtain ⟨-, hrest, hcross⟩ := h
    have hown := (on_compile (P := fun n => ∃ t ∈ l.tokens, t.line = n) s fun t ht => ⟨t, ht, rfl⟩).fault
    have hothers := (on_compileLines (P := fun n => ∃ t ∈ ls.flatMap Line.tokens, t.line = n)
      (Statement.compile s l).state fun k hk t ht => ⟨t, List.mem_flatMap.2 ⟨k, hk, ht⟩, rfl⟩).1
    rw [faultsOf_cons, List.pairwise_append]
    refine ⟨?_, inOrder_faultsOf _ hrest, fun f hf g hg => ?_⟩
    · cases (Statement.compile s l).fault <;> simp
    · obtain ⟨⟨t, ht, htf⟩, -⟩ := hown f (Option.mem_toList.1 hf)
      obtain ⟨⟨u, hu, hug⟩, -⟩ := hothers g hg
      rw [← htf, ← hug]
      exact hcross t ht u hu

/-- A fault of the end of a script: a function that is left open. -/
def Fault.isOpen (f : Fault) : Bool :=
  match f.cause with
  | .unterminatedFunction _ => true
  | _ => false

theorem Fault.isOpen_iff {f : Fault} : f.isOpen = true ↔ ∃ name, f.cause = .unterminatedFunction name := by
  unfold Fault.isOpen
  split <;> simp_all

theorem Fault.On.not_isOpen {P : Nat → Prop} {f : Fault} (h : f.On P) : f.isOpen = false := by
  rw [← Bool.not_eq_true, Fault.isOpen_iff]
  rintro ⟨name, hname⟩
  exact h.2 name hname

theorem isOpen_unfinished {s : State} : ∀ f ∈ unfinished s, f.isOpen = true := by
  intro f hf
  obtain ⟨g, -, rfl⟩ := Option.map_eq_some_iff.1 hf
  rfl

theorem not_isOpen_of_mem {s : State} {ls : List Line} : ∀ f ∈ faultsOf s ls, f.isOpen = false := fun f hf =>
  ((on_compileLines (P := fun _ => True) s fun _ _ _ _ => trivial).1 f hf).not_isOpen

/-- All faults but that of a function left open are those of the statements. -/
theorem filter_allFaults (ls : List Line) : (allFaults ls).filter (fun f => !f.isOpen) = faultsOf .initial ls := by
  have hopen : (unfinished (compileLines .initial ls).2).toList.filter (fun f => !f.isOpen) = [] :=
    List.filter_eq_nil_iff.2 fun f hf => by simp [isOpen_unfinished f (Option.mem_toList.1 hf)]
  rw [allFaults, List.filter_append, hopen, List.append_nil]
  exact List.filter_eq_self.2 fun f hf => by simp [not_isOpen_of_mem f hf]

/-- **All faults are in order iff no statement is refused behind the start of the function left open.** -/
theorem inOrder_allFaults_iff {ls : List Line} (h : (ls.flatMap Line.tokens).Pairwise fun t u => t.line ≤ u.line) :
    ((allFaults ls).Pairwise fun f g => f.line ≤ g.line) ↔
      ∀ f ∈ allFaults ls, f.isOpen = true → ∀ g ∈ allFaults ls, g.line ≤ f.line := by
  have hown := inOrder_faultsOf .initial h
  unfold allFaults
  generalize hopen : unfinished (compileLines .initial ls).2 = last
  constructor
  · intro horder f hf hisOpen g hg
    have hfopen : f ∈ last.toList := (List.mem_append.1 hf).resolve_left fun hf => by
      rw [not_isOpen_of_mem f hf] at hisOpen
      cases hisOpen
    rcases List.mem_append.1 hg with hg | hg
    · exact (List.pairwise_append.1 horder).2.2 g hg f hfopen
    · rw [Option.mem_unique (Option.mem_toList.1 hg) (Option.mem_toList.1 hfopen)]
  · intro hlast
    refine List.pairwise_append.2 ⟨hown, by cases last <;> simp, fun f hf g hg => ?_⟩
    have hisOpen : g.isOpen = true := isOpen_unfinished g (by rw [hopen]; exact Option.mem_toList.1 hg)
    exact hlast g (List.mem_append_right _ hg) hisOpen f (List.mem_append_left _ hf)

/-! ## One fault for each statement -/

def faultAt (lines : List Line) (n : Nat) : Option Fault :=
  lines[n]?.bind fun l => (Statement.compile (stateAfter lines n) l).fault

theorem faultsOf_take (lines : List Line) : ∀ n, faultsOf .initial (lines.take n) = (List.range n).filterMap (faultAt lines)
  | 0 => rfl
  | n + 1 => by
    have ih := faultsOf_take lines n
    rw [List.range_succ, List.filterMap_append, ← ih]
    cases hl : lines[n]? with
    | none =>
      have hfault : faultAt lines n = none := by rw [faultAt, hl]; rfl
      simp [List.take_add_one, hl, hfault]
    | some l =>
      have hfault : faultAt lines n = (Statement.compile (stateAfter lines n) l).fault := by rw [faultAt, hl]; rfl
      rw [faultsOf_take_succ hl, ← hfault]
      cases hf : faultAt lines n <;> simp [hf]

theorem allFaults_eq (lines : List Line) : allFaults lines =
    (List.range lines.length).filterMap (faultAt lines) ++ (unfinished (stateAfter lines lines.length)).toList := by
  rw [← faultsOf_take, stateAfter, List.take_length]
  rfl

/-- **A statement is refused on the line of one of its own tokens.** -/
theorem line_of_faultAt {lines : List Line} {n : Nat} {f : Fault} (h : faultAt lines n = some f) :
    ∃ l t, lines[n]? = some l ∧ t ∈ l.tokens ∧ f.line = t.line ∧ f.isOpen = false := by
  obtain ⟨l, hl, hf⟩ := Option.bind_eq_some_iff.1 h
  have hon := (on_compile (P := fun k => ∃ t ∈ l.tokens, k = t.line) (stateAfter lines n) fun t ht => ⟨t, ht, rfl⟩).fault f hf
  obtain ⟨t, ht, hline⟩ := hon.1
  exact ⟨l, t, hl, ht, hline, hon.not_isOpen⟩

/-- The function that a script leaves open is reported on the name of its `start`. -/
theorem opensAt_of_unfinished {lines : List Line} {f : Fault} (h : unfinished (stateAfter lines lines.length) = some f) :
    ∃ g k, f = ⟨.unterminatedFunction g.name, g.line⟩ ∧ OpensAt lines k g ∧ ∀ m > k, IdleAt lines m := by
  obtain ⟨g, hg, rfl⟩ := Option.map_eq_some_iff.1 h
  obtain ⟨k, -, hopens, hidle⟩ := (opened_stateAfter lines g lines.length).1 hg
  refine ⟨g, k, rfl, hopens, fun m hm => ?_⟩
  rcases Nat.lt_or_ge m lines.length with hlt | hge
  · exact hidle m hlt hm
  · exact idleAt_of_length_le hge

/-- **What a pass does with a statement**: it adds the fault of the statement, if it has one, and where the statement is
refused the cursor is still on a token of the source. -/
theorem Pass.reports_next {tokens : List Token} (hclosed : Closed tokens) {p : Pass} (h : Visited tokens p)
    (hmore : (current tokens p).kind ≠ .endOfSource) : ∃ n l q, (Line.split tokens)[n]? = some l ∧
      l.tokens.head? = some (current tokens p) ∧ next tokens p = some q ∧
      q.faults = p.faults ++ (faultAt (Line.split tokens) n).toList ∧
      ((current tokens p).endsStatement = false → ∀ f r, statement tokens (current tokens p) p = .error (.fault f) r →
        faultAt (Line.split tokens) n = some f ∧ r.pos < tokens.length) := by
  obtain ⟨n, hn⟩ := between_of_visited hclosed h
  rcases hn.ahead with ⟨hle, -⟩ | ⟨body, stop, rest, hfaces, -, -, hline, -⟩
  · rw [current, List.getElem?_eq_none hle] at hmore
    exact absurd rfl hmore
  · have hcurrent : current tokens p = body.head?.getD stop := hfaces.current
    have hfault : faultAt (Line.split tokens) n = (Statement.compile p.state ⟨body, stop⟩).fault := by
      rw [faultAt, hline, hn.state]
      rfl
    refine ⟨n, ⟨body, stop⟩, _, hline, ?_, next_of_faces hn.flag hfaces hmore, by rw [hfault], fun hends f r hr => ?_⟩
    · rw [hcurrent, Line.tokens]
      cases body <;> rfl
    · cases body with
      | nil =>
        rw [hcurrent] at hends
        cases hfaces.ends.symm.trans hends
      | cons t ts =>
        obtain ⟨pos, hdid, ⟨us, hus⟩, -⟩ := did_statement hn.flag hfaces
        have ht : current tokens p = t := hcurrent
        rw [ht, hdid] at hr
        cases hf : (Statement.compile p.state ⟨t :: ts, stop⟩).fault with
        | none =>
          rw [hf] at hr
          cases hr
        | some g =>
          rw [hf] at hr
          cases hr
          exact ⟨hfault.trans hf, (List.getElem?_eq_some_iff.1 hus.getElem?).1⟩

/-- **One fault for each statement, on a line of its own.**  The lines of a source are its tokens; each is refused with one
fault at most, on the line of one of its tokens, so never on the line zero of what is behind the last token.  The only
other fault comes last: a function that is left open, on the line of the name in its `start`.  A pass adds the same
faults, and is on a token of the source where it finds one. -/
theorem reported_by_statement {source : String} {tokens : List Token} (hlex : Lexer.lex source = .ok tokens) :
    let lines := Line.split tokens
    lines.flatMap Line.tokens = tokens ∧
    reported source =
      (List.range lines.length).filterMap (faultAt lines) ++ (unfinished (stateAfter lines lines.length)).toList ∧
    (∀ n f, faultAt lines n = some f → f.isOpen = false ∧ (∃ l t, lines[n]? = some l ∧ t ∈ l.tokens ∧ f.line = t.line) ∧
      1 ≤ f.line ∧ ∃ last, tokens.getLast? = some last ∧ last.kind = .endOfSource ∧ f.line ≤ last.line) ∧
    (∀ f, unfinished (stateAfter lines lines.length) = some f → ∃ g k, f = ⟨.unterminatedFunction g.name, g.line⟩ ∧
      OpensAt lines k g ∧ ∀ m > k, IdleAt lines m) ∧
    ∀ p, Pass.Visited tokens p → (Pass.current tokens p).kind ≠ .endOfSource → ∃ n l q, lines[n]? = some l ∧
      l.tokens.head? = some (Pass.current tokens p) ∧ Pass.next tokens p = some q ∧
      q.faults = p.faults ++ (faultAt lines n).toList ∧
      ((Pass.current tokens p).endsStatement = false → ∀ f r,
        Pass.statement tokens (Pass.current tokens p) p = .error (.fault f) r →
          faultAt lines n = some f ∧ r.pos < tokens.length) := by
  intro lines
  have hclosed := closed_of_lex hlex
  obtain ⟨horder, hfirst⟩ := Lexer.inOrder_of_lex hlex
  refine ⟨flatMap_split hclosed, (reported_of_lex hlex).trans (allFaults_eq lines), fun n f hf => ?_,
    fun f hf => opensAt_of_unfinished hf, fun p hp hmore => Pass.reports_next hclosed hp hmore⟩
  obtain ⟨l, t, hl, ht, hline, hopen⟩ := line_of_faultAt hf
  have hmem : t ∈ tokens := mem_of_mem_split (List.mem_of_getElem? hl) t ht
  obtain ⟨init, last, rfl, hlast, -⟩ := hclosed
  refine ⟨hopen, ⟨l, t, hl, ht, hline⟩, hline ▸ hfirst t hmem, last, List.getLast?_concat, hlast, ?_⟩
  rw [hline]
  rcases List.mem_append.1 hmem with hmem | hmem
  · exact (List.pairwise_append.1 horder).2.2 t hmem last List.mem_cons_self
  · rw [List.mem_singleton.1 hmem]

/-- A function is opened by a line that is refused, and the last line ends inside of a parenthesis. -/
theorem reported_by_statement_at_end : ∃ tokens, Lexer.lex "start f 1\nx <- 2\ndelay (1" = .ok tokens ∧
    reported "start f 1\nx <- 2\ndelay (1" =
      [⟨.unexpectedToken (.int 1), 1⟩, ⟨.undeclaredName "x", 2⟩, ⟨.unbalancedParentheses, 3⟩, ⟨.unterminatedFunction "f", 1⟩] ∧
    (∃ l t, (Line.split tokens)[2]? = some l ∧ t ∈ l.tokens ∧ 3 = t.line) ∧
    ∃ g k, (⟨.unterminatedFunction "f", 1⟩ : Fault) = ⟨.unterminatedFunction g.name, g.line⟩ ∧
      OpensAt (Line.split tokens) k g ∧ ∀ m > k, IdleAt (Line.split tokens) m := by
  have hlex : Lexer.lex "start f 1\nx <- 2\ndelay (1" = .ok
      [⟨.keyword .start, 1⟩, ⟨.name "f", 1⟩, ⟨.int 1, 1⟩, ⟨.endOfLine, 1⟩, ⟨.name "x", 2⟩, ⟨.operator .assign, 2⟩, ⟨.int 2, 2⟩,
        ⟨.endOfLine, 2⟩, ⟨.keyword .delay, 3⟩, ⟨.operator .leftParen, 3⟩, ⟨.int 1, 3⟩, ⟨.endOfSource, 3⟩] := by decide +kernel
  obtain ⟨-, -, hown, hopen, -⟩ := reported_by_statement hlex
  refine ⟨_, hlex, by decide +kernel, ?_, hopen ⟨.unterminatedFunction "f", 1⟩ (by decide +kernel)⟩
  exact (hown 2 ⟨.unbalancedParentheses, 3⟩ (by decide +kernel)).2.1

end Script

/-! ## Errors of a source -/

namespace CompileError

def lines : CompileError → List Nat
  | .lex errors => errors.map LexError.line
  | .invalid faults => faults.map Script.Fault.line

def faults : CompileError → List Script.Fault
  | .lex _ => []
  | .invalid faults => faults

end CompileError

namespace Script

theorem compile_error {source : String} {e : CompileError} (h : compile source = .error e) :
    (∃ es, Lexer.lex source = .error es ∧ e = .lex es) ∨
      ∃ tokens, Lexer.lex source = .ok tokens ∧ e = .invalid (allFaults (Line.split tokens)) := by
  unfold compile analyse at h
  cases hlex : Lexer.lex source with
  | error es =>
    rw [hlex] at h
    cases h
    exact .inl ⟨es, rfl, rfl⟩
  | ok tokens =>
    rw [hlex] at h
    have hresult : (Compilation.ofTokens source tokens).result = .error e := h
    unfold Compilation.result at hresult
    split at hresult
    · cases hresult
    · cases hresult
      exact .inr ⟨tokens, rfl, rfl⟩

/-- **Where errors are out of order.**  All errors of a source come in the order of their lines, but for that of a function
left open, which comes last and is on the line of its `start`: all are in order exactly if nothing is refused on a line
below. -/
theorem inOrder_iff {source : String} {e : CompileError} (h : compile source = .error e) :
    ((e.faults.filter fun f => !f.isOpen).map Fault.line).Pairwise (· ≤ ·) ∧
      (e.lines.Pairwise (· ≤ ·) ↔ ∀ f ∈ e.faults, f.isOpen = true → ∀ g ∈ e.faults, g.line ≤ f.line) := by
  rcases compile_error h with ⟨es, hlex, rfl⟩ | ⟨tokens, hlex, rfl⟩
  · exact ⟨.nil, fun _ f hf => (by cases hf), fun _ => Lexer.inOrder_of_lex_error hlex⟩
  · have htokens : ((Line.split tokens).flatMap Line.tokens).Pairwise fun t u => t.line ≤ u.line := by
      rw [flatMap_split (closed_of_lex hlex)]
      exact (Lexer.inOrder_of_lex hlex).1
    simp only [CompileError.faults, CompileError.lines, filter_allFaults, List.pairwise_map]
    exact ⟨inOrder_faultsOf .initial htokens, inOrder_allFaults_iff htokens⟩

/-- A name that is not declared, in a function that is left open on the line above. -/
theorem inOrder_iff_of_open_function :
    compile "start f\nx <- 1" = .error (.invalid [⟨.undeclaredName "x", 2⟩, ⟨.unterminatedFunction "f", 1⟩]) ∧
      ¬ ∀ f ∈ [(⟨.undeclaredName "x", 2⟩ : Fault), ⟨.unterminatedFunction "f", 1⟩], f.isOpen = true →
        ∀ g ∈ [(⟨.undeclaredName "x", 2⟩ : Fault), ⟨.unterminatedFunction "f", 1⟩], g.line ≤ f.line := by
  have hcompile : compile "start f\nx <- 1" =
      .error (.invalid [⟨.undeclaredName "x", 2⟩, ⟨.unterminatedFunction "f", 1⟩]) := by decide +kernel
  exact ⟨hcompile, fun hall => absurd ((inOrder_iff hcompile).2.2 hall) (by decide)⟩

/-- **The errors of a source need not be in the order of their lines.** -/
theorem out_of_order_of_open_function : ∃ source e, compile source = .error e ∧ ¬ e.lines.Pairwise (· ≤ ·) := by
  refine ⟨"start f\nx <- 1", .invalid [⟨.undeclaredName "x", 2⟩, ⟨.unterminatedFunction "f", 1⟩], ?_, ?_⟩
  · decide +kernel
  · decide

end Script
end Autoscript
