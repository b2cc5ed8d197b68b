import Autoscript.Proofs.Pass
/-!
# Settled — the compiler between two statements

That a function is open is known in two places, by the scopes and by the function's name, and both are changed in the
midst of statements that can still be refused.  Between statements they agree, whatever was refused (`Settled`).  So the
function that a script leaves open is that of its last `start`, if no `end` behind it took effect
(`opened_stateAfter`).
-/
namespace Autoscript

/-- The byte at the position of an instruction. -/
theorem Program.byte_of_mem_positions : ∀ {code : List Instr} (before : List UInt8) {pos : Nat} {i : Instr},
    (pos, i) ∈ positions before.length code → (before ++ encode code)[pos]? = some i.opcode.byte
  | j :: code, before, pos, i, h => by
    rcases List.mem_cons.1 h with h | h
    · cases h
      rw [List.getElem?_append_right (Nat.le_refl _), Nat.sub_self]
      rfl
    · have hlength : (before ++ j.encode).length = before.length + j.width := by
        rw [List.length_append, Instr.length_encode]
      rw [← hlength] at h
      have hbyte := byte_of_mem_positions _ h
      rwa [List.append_assoc] at hbyte

namespace Script

/-- The bytes written so far.  The size of the frame is not known yet. -/
def State.bytes (s : State) : List UInt8 := Program.assemble (.setupFrame 0 :: s.code)

section
variable {s s' : State}

theorem bytes_emit (code : List Instr) : (s.emit code).bytes = s.bytes ++ Program.encode code :=
  Program.assemble_append (.setupFrame 0 :: s.code) code

theorem byte_of_function (h : Shaped s) {f : String × Nat} (hf : f ∈ s.functions) :
    s.bytes[f.2]? = some Opcode.startFunc.byte := by
  have hstart : f.2 ∈ startsFrom codeStart s.code := by
    rw [← h.starts]
    exact List.mem_reverse.2 (List.mem_map_of_mem hf)
  exact Program.byte_of_mem_positions (Program.assemble [.setupFrame 0]) (mem_startsFrom.1 hstart)

/-! ## The invariant -/

/-- **The compiler's state between two statements.** -/
structure Settled (s : State) : Prop where
  opened : s.opened.isSome = true ↔ s.scopes.inFunction = true
  locals : s.scopes.inFunction = false → s.scopes.locals = .empty
  named : ∀ f ∈ s.opened, f.name ∈ s.functions.map Prod.fst
  marked : ∀ f ∈ s.functions, f.2 < s.bytes.length ∧ s.bytes[f.2]? = some Opcode.startFunc.byte

theorem settled_initial : Settled .initial where
  opened := Iff.rfl
  locals := fun _ => rfl
  named := fun f hf => by cases hf
  marked := fun f hf => by cases hf

theorem Change.locals (hc : Change s s') (h : s.scopes.inFunction = false → s.scopes.locals = .empty) :
    s'.scopes.inFunction = false → s'.scopes.locals = .empty := by
  cases hc with
  | emit => exact h
  | declare hd =>
    obtain ⟨⟨f, sym⟩, -, hs⟩ := Option.map_eq_some_iff.1 hd
    cases hs
    intro hi
    have hout : s.scopes.inFunction = false := (s.scopes.setFrame_current f).1.symm.trans hi
    simpa [Scopes.setFrame, hout] using h hout
  | start => exact fun hi => by cases hi
  | finish => exact fun _ => rfl

theorem Change.named (hc : Change s s') (h : ∀ f ∈ s.opened, f.name ∈ s.functions.map Prod.fst) :
    ∀ f ∈ s'.opened, f.name ∈ s'.functions.map Prod.fst := by
  cases hc with
  | emit => exact h
  | declare => exact h
  | start =>
    rintro f ⟨⟩
    exact List.mem_cons_self
  | finish => exact fun f hf => by cases hf

theorem Change.settled (hc : Change s s') (hs : Shaped s') (h : Settled s) : Settled s' where
  opened := by rw [hs.opened]
  locals := hc.locals h.locals
  named := hc.named h.named
  marked := fun _ hf =>
    have hbyte := byte_of_function hs hf
    ⟨(List.getElem?_eq_some_iff.1 hbyte).1, hbyte⟩

/-- **Code is only added.** -/
theorem Change.bytes (hc : Change s s') : s.bytes <+: s'.bytes := by
  have hemit (code : List Instr) : s.bytes <+: (s.emit code).bytes := by
    rw [bytes_emit]
    exact List.prefix_append _ _
  cases hc with
  | emit => exact hemit _
  | declare => exact List.prefix_rfl
  | start => exact hemit [.startFunc]
  | finish => exact hemit [.endFunc]

end

section
variable {lines : List Line} {n : Nat}

theorem stateAfter_end (h : lines[n]? = none) : stateAfter lines (n + 1) = stateAfter lines n := by
  rw [stateAfter, List.take_add_one, h, Option.toList_none, List.append_nil, stateAfter]

theorem change_stateAfter (lines : List Line) (n : Nat) : Change (stateAfter lines n) (stateAfter lines (n + 1)) := by
  cases hl : lines[n]? with
  | none =>
    rw [stateAfter_end hl]
    exact .same
  | some l =>
    rw [stateAfter_succ hl]
    exact change_of_compile l

/-- **Every line leaves a settled state**, also one that is refused. -/
theorem settled_stateAfter (lines : List Line) : ∀ n, Settled (stateAfter lines n)
  | 0 => settled_initial
  | n + 1 => (change_stateAfter lines n).settled (shaped_compileLines _ shaped_initial) (settled_stateAfter lines n)

/-! ## Starts and ends that take effect -/

/-- A `start` that takes effect on a state: its mark is written, even if the line is refused for what is behind. -/
structure Opens (s : State) (l : Line) (f : OpenFunction) : Prop where
  keyword : l.body.head?.map Token.kind = some (.keyword .start)
  name : l.body[1]? = some ⟨.name f.name, f.line⟩
  mark : (Statement.compile s l).state.code = s.code ++ [.startFunc]

/-- An `end` that takes effect on a state. -/
structure Closes (s : State) (l : Line) : Prop where
  keyword : l.body.head?.map Token.kind = some (.keyword .finish)
  mark : (Statement.compile s l).state.code = s.code ++ [.endFunc]

/-- The line at an index is a `start` that takes effect. -/
def OpensAt (lines : List Line) (k : Nat) (f : OpenFunction) : Prop := ∃ l ∈ lines[k]?, Opens (stateAfter lines k) l f

/-- The line at an index is an `end` that takes effect. -/
def ClosesAt (lines : List Line) (k : Nat) : Prop := ∃ l ∈ lines[k]?, Closes (stateAfter lines k) l

theorem eq_of_nameAfter {k : Keyword} {stop : Token} {ts rest : List Token} {x : String} {line : Nat}
    (h : Statement.nameAfter k stop ts = .ok (x, line, rest)) : ts = ⟨.name x, line⟩ :: rest := by
  obtain ⟨⟨kind, n⟩, rfl, rfl⟩ := nameAfter_ok h
  cases h
  rfl

theorem effect_of_start (s : State) (line : Nat) (stop : Token) (ts : List Token) :
    (∃ (f : OpenFunction) (rest : List Token), ts = ⟨.name f.name, f.line⟩ :: rest ∧
      (Statement.start s line stop ts).state.code = s.code ++ [.startFunc] ∧
      (Statement.start s line stop ts).state.opened = some f) ∨ (Statement.start s line stop ts).state = s := by
  unfold Statement.start
  split
  · exact .inr rfl
  · split
    · exact .inr rfl
    · rename_i name nameLine rest hn
      split
      · exact .inr rfl
      · exact .inl ⟨⟨name, nameLine⟩, rest, eq_of_nameAfter hn, rfl, rfl⟩

/-- A line that is no `start` and no `end`. -/
theorem opened_of_other (s : State) {l : Line}
    (h : ∀ t ∈ l.body.head?, t.kind ≠ .keyword .start ∧ t.kind ≠ .keyword .finish) :
    (Statement.compile s l).state.opened = s.opened := by
  by_cases hnames : ∀ t ∈ l.body.head?, changesNames t.kind = false
  · exact (alike_of_compile hnames).opened.symm
  · -- it can only be a declaration
    obtain ⟨body, stop⟩ := l
    obtain ⟨t, ht⟩ := not_forall.1 hnames
    obtain ⟨hhead, hchanges⟩ := Classical.not_imp.1 ht
    obtain ⟨ts, rfl⟩ := List.head?_eq_some_iff.1 hhead
    obtain ⟨hstart, hfinish⟩ := h t hhead
    cases hk : t.kind with
    | keyword k =>
      cases k with
      | declare ty =>
        simp only [Statement.compile, hk, Statement.builtin, Statement.declaration]
        split
        · rfl
        · split <;> rfl
      | start => exact absurd hk hstart
      | finish => exact absurd hk hfinish
      | _ => rw [hk] at hchanges; exact absurd rfl hchanges
    | _ => rw [hk] at hchanges; exact absurd rfl hchanges

/-- A line that neither opens a function nor closes one. -/
def Idle (s : State) (l : Line) : Prop := (∀ f, ¬ Opens s l f) ∧ ¬ Closes s l

theorem idle_of_same {s : State} {l : Line} (h : (Statement.compile s l).state = s) : Idle s l := by
  have hcode (i : Instr) : (Statement.compile s l).state.code ≠ s.code ++ [i] := by
    rw [h]
    simp
  exact ⟨fun _ ho => hcode _ ho.mark, fun hc => hcode _ hc.mark⟩

/-- **What a line does to the function that is open**: it opens one, closes it, or leaves it alone. -/
theorem effect_of_compile (s : State) (l : Line) :
    (∃ f, Opens s l f ∧ (Statement.compile s l).state.opened = some f) ∨
      (Closes s l ∧ (Statement.compile s l).state.opened = none) ∨
      (Idle s l ∧ (Statement.compile s l).state.opened = s.opened) := by
  have hrest (h : ∀ t ∈ l.body.head?, t.kind ≠ .keyword .start ∧ t.kind ≠ .keyword .finish) :
      Idle s l ∧ (Statement.compile s l).state.opened = s.opened := by
    refine ⟨⟨fun f hf => ?_, fun hf => ?_⟩, opened_of_other s h⟩
    · obtain ⟨t, ht, hk⟩ := Option.map_eq_some_iff.1 hf.keyword
      exact (h t ht).1 hk
    · obtain ⟨t, ht, hk⟩ := Option.map_eq_some_iff.1 hf.keyword
      exact (h t ht).2 hk
  obtain ⟨body, stop⟩ := l
  cases body with
  | nil => exact .inr (.inr (hrest fun t ht => by cases ht))
  | cons t ts =>
    have hcompile {k : Keyword} (hk : t.kind = .keyword k) :
        Statement.compile s ⟨t :: ts, stop⟩ = Statement.builtin s k t.line stop ts := by simp [Statement.compile, hk]
    have hsame (h : (Statement.compile s ⟨t :: ts, stop⟩).state = s) :
        Idle s ⟨t :: ts, stop⟩ ∧ (Statement.compile s ⟨t :: ts, stop⟩).state.opened = s.opened :=
      ⟨idle_of_same h, by rw [h]⟩
    by_cases hs : t.kind = .keyword .start
    · rcases effect_of_start s t.line stop ts with ⟨f, rest, rfl, hmark, hopened⟩ | h
      · refine .inl ⟨f, ⟨congrArg some hs, rfl, ?_⟩, ?_⟩ <;> rw [hcompile hs]
        exacts [hmark, hopened]
      · exact .inr (.inr (hsame (by rw [hcompile hs]; exact h)))
    · by_cases hf : t.kind = .keyword .finish
      · by_cases hi : s.scopes.inFunction = true
        · refine .inr (.inl ⟨⟨congrArg some hf, ?_⟩, ?_⟩) <;>
            rw [hcompile hf, Statement.builtin, Statement.finish, if_pos hi]
        · refine .inr (.inr (hsame ?_))
          rw [hcompile hf, Statement.builtin, Statement.finish, if_neg hi]
          rfl
      · refine .inr (.inr (hrest ?_))
        rintro u ⟨⟩
        exact ⟨hs, hf⟩

/-- No line at an index opens a function or closes one. -/
def IdleAt (lines : List Line) (k : Nat) : Prop := ∀ l ∈ lines[k]?, Idle (stateAfter lines k) l

theorem effect_stateAfter (lines : List Line) (n : Nat) :
    (∃ f, OpensAt lines n f ∧ (stateAfter lines (n + 1)).opened = some f) ∨
      (ClosesAt lines n ∧ (stateAfter lines (n + 1)).opened = none) ∨
      (IdleAt lines n ∧ (stateAfter lines (n + 1)).opened = (stateAfter lines n).opened) := by
  cases hl : lines[n]? with
  | none =>
    refine .inr (.inr ⟨fun l hm => ?_, by rw [stateAfter_end hl]⟩)
    cases hl.symm.trans hm
  | some l =>
    rw [stateAfter_succ hl]
    rcases effect_of_compile (stateAfter lines n) l with ⟨f, ho, h⟩ | ⟨hc, h⟩ | ⟨hi, h⟩
    · exact .inl ⟨f, ⟨l, hl, ho⟩, h⟩
    · exact .inr (.inl ⟨⟨l, hl, hc⟩, h⟩)
    · refine .inr (.inr ⟨fun k hk => ?_, h⟩)
      cases Option.mem_unique hl hk
      exact hi

theorem IdleAt.not_opensAt {f : OpenFunction} (h : IdleAt lines n) : ¬ OpensAt lines n f :=
  fun ⟨l, hl, ho⟩ => (h l hl).1 f ho

theorem IdleAt.not_closesAt (h : IdleAt lines n) : ¬ ClosesAt lines n := fun ⟨l, hl, hc⟩ => (h l hl).2 hc

theorem OpensAt.unique {f g : OpenFunction} (hf : OpensAt lines n f) (hg : OpensAt lines n g) : f = g := by
  obtain ⟨l, hl, hopens⟩ := hf
  obtain ⟨l', hl', hopens'⟩ := hg
  cases Option.mem_unique hl hl'
  have hname := hopens.name.symm.trans hopens'.name
  obtain ⟨x, line⟩ := f
  obtain ⟨y, line'⟩ := g
  cases hname
  rfl

theorem OpensAt.not_closesAt {f : OpenFunction} (hf : OpensAt lines n f) : ¬ ClosesAt lines n := by
  obtain ⟨l, hl, hopens⟩ := hf
  rintro ⟨l', hl', hcloses⟩
  cases Option.mem_unique hl hl'
  cases hopens.keyword.symm.trans hcloses.keyword

/-- **The function that is open is that of the last `start` or `end` to take effect.** -/
theorem opened_stateAfter (lines : List Line) (f : OpenFunction) : ∀ n, (stateAfter lines n).opened = some f ↔
    ∃ k < n, OpensAt lines k f ∧ ∀ m < n, k < m → IdleAt lines m
  | 0 => ⟨fun h => (by cases h), fun ⟨_, hk, _⟩ => absurd hk (Nat.not_lt_zero _)⟩
  | n + 1 => by
    rcases effect_stateAfter lines n with ⟨g, hg, h⟩ | ⟨hc, h⟩ | ⟨hidle, h⟩
    · -- line `n` opens `g`, so that no earlier `start` is the last
      rw [h, Option.some_inj]
      constructor
      · rintro rfl
        exact ⟨n, Nat.lt_succ_self n, hg, fun m hm hn => by omega⟩
      · rintro ⟨k, hk, hf, hlast⟩
        rcases Nat.lt_succ_iff_lt_or_eq.1 hk with hk | rfl
        · exact absurd hg (hlast n (Nat.lt_succ_self n) hk).not_opensAt
        · exact hg.unique hf
    · rw [h]
      refine ⟨fun hn => (by cases hn), ?_⟩
      rintro ⟨k, hk, hf, hlast⟩
      rcases Nat.lt_succ_iff_lt_or_eq.1 hk with hk | rfl
      · exact absurd hc (hlast n (Nat.lt_succ_self n) hk).not_closesAt
      · exact absurd hc hf.not_closesAt
    · rw [h, opened_stateAfter lines f n]
      constructor
      · rintro ⟨k, hk, hf, hlast⟩
        refine ⟨k, Nat.lt_succ_of_lt hk, hf, fun m hm hkm => ?_⟩
        rcases Nat.lt_succ_iff_lt_or_eq.1 hm with hm | rfl
        · exact hlast m hm hkm
        · exact hidle
      · rintro ⟨k, hk, hf, hlast⟩
        rcases Nat.lt_succ_iff_lt_or_eq.1 hk with hk | rfl
        · exact ⟨k, hk, hf, fun m hm => hlast m (Nat.lt_succ_of_lt hm)⟩
        · exact absurd hf hidle.not_opensAt

end

/-! ## Sources -/

/-- Only the end of a script reports that a function is open. -/
theorem mem_allFaults_unterminated (lines : List Line) (f : OpenFunction) :
    ⟨.unterminatedFunction f.name, f.line⟩ ∈ allFaults lines ↔ (stateAfter lines lines.length).opened = some f := by
  have hnever : ⟨.unterminatedFunction f.name, f.line⟩ ∉ faultsOf .initial lines := fun h =>
    ((on_compileLines (P := fun _ => True) .initial fun _ _ _ _ => trivial).1 _ h).2 f.name rfl
  rw [stateAfter, List.take_length, allFaults, List.mem_append, or_iff_right hnever, unfinished, Option.mem_toList,
    Option.map_eq_some_iff]
  constructor
  · rintro ⟨⟨name, line⟩, ho, hf⟩
    cases hf
    exact ho
  · exact fun ho => ⟨f, ho, rfl⟩

theorem lt_length_of_opensAt {lines : List Line} {k : Nat} {f : OpenFunction} (h : OpensAt lines k f) :
    k < lines.length := by
  obtain ⟨l, hl, -⟩ := h
  exact (List.getElem?_eq_some_iff.1 hl).1

theorem idleAt_of_length_le {lines : List Line} {k : Nat} (h : lines.length ≤ k) : IdleAt lines k := fun _ hl =>
  absurd (List.getElem?_eq_some_iff.1 hl).1 (Nat.not_lt.2 h)

/-- **A function is reported as left open iff its `start` is the last mark of the script.** -/
theorem mem_reported_unterminated {source : String} {tokens : List Token} (hlex : Lexer.lex source = .ok tokens)
    (f : OpenFunction) : ⟨.unterminatedFunction f.name, f.line⟩ ∈ reported source ↔
      ∃ k, OpensAt (Line.split tokens) k f ∧ ∀ m > k, IdleAt (Line.split tokens) m := by
  rw [reported_of_lex hlex, mem_allFaults_unterminated, opened_stateAfter]
  constructor
  · rintro ⟨k, -, hf, hlast⟩
    refine ⟨k, hf, fun m hm => ?_⟩
    rcases Nat.lt_or_ge m (Line.split tokens).length with hlt | hge
    · exact hlast m hlt hm
    · exact idleAt_of_length_le hge
  · rintro ⟨k, hf, hlast⟩
    exact ⟨k, lt_length_of_opensAt hf, hf, fun m _ hm => hlast m hm⟩

/-- **The compiler is settled before and after every statement**, refused or not: no list of arguments is open, the
state is that of the lines so far, and code is only added.  The pass ends at the end of the source, and what it reports
there is the function whose `start` is the last mark to take effect. -/
theorem settled_of_visited {source : String} {tokens : List Token} (hlex : Lexer.lex source = .ok tokens) :
    (∀ p, Pass.Visited tokens p → p.inArguments = false ∧ Settled p.state ∧
      (∃ n, p.state = stateAfter (Line.split tokens) n ∧ p.faults = faultsOf .initial ((Line.split tokens).take n)) ∧
      ((Pass.current tokens p).kind ≠ .endOfSource →
        ∃ q, Pass.next tokens p = some q ∧ p.state.bytes <+: q.state.bytes)) ∧
    (∃ p c, Pass.Visited tokens p ∧ (Pass.current tokens p).kind = .endOfSource ∧ analyse source = .ok c ∧
      p.state = c.state ∧ reported source = p.faults ++ (unfinished p.state).toList) ∧
    ∀ f : OpenFunction, ⟨.unterminatedFunction f.name, f.line⟩ ∈ reported source ↔
      ∃ k, OpensAt (Line.split tokens) k f ∧ ∀ m > k, IdleAt (Line.split tokens) m := by
  have hclosed := closed_of_lex hlex
  refine ⟨fun p hp => ?_, ?_, mem_reported_unterminated hlex⟩
  · obtain ⟨n, hn⟩ := Pass.between_of_visited hclosed hp
    refine ⟨hn.flag, ?_, ⟨n, hn.state, hn.faults⟩, fun hmore => ?_⟩
    · rw [hn.state]
      exact settled_stateAfter _ n
    · obtain ⟨q, hq, hnext, -⟩ := hn.next hmore
      refine ⟨q, hq, ?_⟩
      rw [hn.state, hnext.state]
      exact (change_stateAfter _ n).bytes
  · obtain ⟨p, hp, hend, hstate, hfaults⟩ :=
      Pass.visited_end _ (Nat.le_add_left _ 0) .initial (Pass.between_initial hclosed)
    refine ⟨p, _, hp, hend, by rw [analyse, hlex]; rfl, hstate, ?_⟩
    rw [reported_of_lex hlex, allFaults, hstate, hfaults]

/-- The second function is opened by a line that is refused, and the line behind it ends inside of a parenthesis. -/
theorem settled_of_visited_refused_start : ∃ tokens, Lexer.lex "start f\nend\nstart g 1\nmove (1 2" = .ok tokens ∧
    (∀ p, Pass.Visited tokens p → p.inArguments = false ∧ Settled p.state) ∧
    ∃ k, OpensAt (Line.split tokens) k ⟨"g", 3⟩ ∧ ∀ m > k, IdleAt (Line.split tokens) m := by
  have hlex : Lexer.lex "start f\nend\nstart g 1\nmove (1 2" = .ok
      [⟨.keyword .start, 1⟩, ⟨.name "f", 1⟩, ⟨.endOfLine, 1⟩, ⟨.keyword .finish, 2⟩, ⟨.endOfLine, 2⟩, ⟨.keyword .start, 3⟩,
        ⟨.name "g", 3⟩, ⟨.int 1, 3⟩, ⟨.endOfLine, 3⟩, ⟨.keyword .move, 4⟩, ⟨.operator .leftParen, 4⟩, ⟨.int 1, 4⟩,
        ⟨.int 2, 4⟩, ⟨.endOfSource, 4⟩] := by decide +kernel
  obtain ⟨hvisited, -, hopen⟩ := settled_of_visited hlex
  refine ⟨_, hlex, fun p hp => ⟨(hvisited p hp).1, (hvisited p hp).2.1⟩, (hopen ⟨"g", 3⟩).1 ?_⟩
  decide +kernel

end Script
end Autoscript
