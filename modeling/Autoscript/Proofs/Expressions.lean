import Autoscript.Proofs.Settled
/-!
# Expressions — what is compiled is what is written

An expression is compiled exactly if it is one of the grammar and its names have the type of the place, and then to the
code of its only tree (`expression_compiled`).  A list of arguments has no separators: where a value follows a value the
next argument begins, and the cursor goes back by one token to read it again.  Still no token is lost and none is taken
twice, because expressions in a row come apart in one way only (`arguments_compiled`).
-/
namespace Autoscript.Script

/-- **Tokens that are an expression of a type**, with its tree. -/
structure IsExpr (lookup : Lookup) (ty : Ty) (ts : List Token) (e : Expr) : Prop where
  derives : Derives .sum (ts.map Token.kind) e
  typed : e.Typed lookup ty

/-! ## Rows -/

section
variable {ts : List Token} {a b : Expr}

theorem row_one_iff {ks : List Token.Kind} : Row ks [a] ↔ Derives .sum ks a := by
  constructor
  · rintro (_ | ⟨hd, hrow⟩)
    cases hrow
    rw [List.append_nil]
    exact hd
  · intro hd
    have hrow : Row (ks ++ []) [a] := .cons hd .nil
    rwa [List.append_nil] at hrow

theorem row_two_iff : Row (ts.map Token.kind) [a, b] ↔
    ∃ xs ys, ts = xs ++ ys ∧ Derives .sum (xs.map Token.kind) a ∧ Derives .sum (ys.map Token.kind) b := by
  constructor
  · intro h
    generalize hks : ts.map Token.kind = ks at h
    cases h with
    | cons hd hrow =>
      obtain ⟨xs, ys, rfl, rfl, rfl⟩ := List.map_eq_append_iff.1 hks
      exact ⟨xs, ys, rfl, hd, row_one_iff.1 hrow⟩
  · rintro ⟨xs, ys, rfl, ha, hb⟩
    rw [List.map_append]
    exact .cons ha (row_one_iff.2 hb)

/-- **Two expressions come apart in one way only.** -/
theorem split_unique {xs ys xs' ys' : List Token} {a' b' : Expr} (ha : Derives .sum (xs.map Token.kind) a)
    (hb : Derives .sum (ys.map Token.kind) b) (ha' : Derives .sum (xs'.map Token.kind) a')
    (hb' : Derives .sum (ys'.map Token.kind) b') (h : xs' ++ ys' = xs ++ ys) : xs' = xs ∧ ys' = ys ∧ a' = a ∧ b' = b := by
  have hkinds : xs'.map Token.kind ++ ys'.map Token.kind = xs.map Token.kind ++ ys.map Token.kind := by
    rw [← List.map_append, h, List.map_append]
  have hlength : xs'.length = xs.length := by
    simpa using congrArg List.length (Row.append_inj ha' (row_one_iff.2 hb') ha (row_one_iff.2 hb) hkinds).1
  obtain ⟨rfl, rfl⟩ := List.append_inj h hlength
  exact ⟨rfl, rfl, ha'.unique ha, hb'.unique hb⟩

end

/-! ## On a line -/

section
variable {tokens ts : List Token} {t stop : Token} {last : Nat} {p : Pass}

theorem Pass.ended_ok_iff {fault : Option Fault} : (∃ q, ended fault p = .ok () q) ↔ fault = none := by
  cases fault with
  | none => exact ⟨fun _ => rfl, fun _ => ⟨p, rfl⟩⟩
  | some f => exact ⟨fun ⟨q, hq⟩ => (by cases hq), fun h => by cases h⟩

/-- **A pass compiles a statement to the end of its line.** -/
theorem Pass.statement_of_compile (ha : p.inArguments = false) (h : Faces tokens stop last p.pos (t :: ts)) :
    ((∃ q, statement tokens t p = .ok () q) ↔ (Statement.compile p.state ⟨t :: ts, stop⟩).fault = none) ∧
      ((Statement.compile p.state ⟨t :: ts, stop⟩).fault = none → statement tokens t p =
        .ok () { p with state := (Statement.compile p.state ⟨t :: ts, stop⟩).state, pos := last }) := by
  obtain ⟨pos, hr, -, hfaces⟩ := did_statement ha h
  rw [hr]
  refine ⟨ended_ok_iff, fun hf => ?_⟩
  have hplace : pos = last := (hfaces hf).place
  rw [hf, hplace]
  rfl

/-- **The scan of an expression accepts the grammar**, neither more nor less. -/
theorem fault_expression_iff (names : Names) (ty : Ty) (stop : Token) (ts : List Token) :
    (names.expression ty stop ts).fault = none ↔ ∃ e, IsExpr names.frame.resolve? ty ts e := by
  constructor
  · intro hf
    obtain ⟨e, hd, ht⟩ := Names.derives_of_expression hf
    exact ⟨e, hd, ht⟩
  · rintro ⟨e, hd, ht⟩
    rw [Names.expression_of_derives hd ht]

/-! ## Expressions -/

/-- **An expression is compiled exactly if it is one of the grammar whose names have the type of the place.**  Then its
tree is the only one, the code of the tree is appended, operands first, and the pass stops on the token that ends the
line. -/
theorem expression_compiled (ty : Ty) (ha : p.inArguments = false) (h : Faces tokens stop last p.pos (t :: ts)) :
    let lookup := p.state.scopes.resolve? .current
    ((∃ q, Pass.expression tokens ty p = .ok () q) ↔ ∃ e, IsExpr lookup ty ts e) ∧
    ((p.state.names.expression ty stop ts).fault = none ↔ ∃ e, IsExpr lookup ty ts e) ∧
    ∀ e, IsExpr lookup ty ts e →
      (∀ e', Derives .sum (ts.map Token.kind) e' → e' = e) ∧
      p.state.names.expression ty stop ts = ⟨e.code lookup ty, [], none⟩ ∧
      Pass.expression tokens ty p = .ok () { p with state := p.state.emit (e.code lookup ty), pos := last } ∧
      tokens[last]? = some stop ∧
      (p.state.emit (e.code lookup ty)).bytes = p.state.bytes ++ Program.encode (e.code lookup ty) := by
  intro lookup
  have hiff : (p.state.names.expression ty stop ts).fault = none ↔ ∃ e, IsExpr lookup ty ts e :=
    fault_expression_iff p.state.names ty stop ts
  obtain ⟨pos, hr, -, hfaces⟩ := Pass.expression_of_left ty ha (.behind h)
  refine ⟨by rw [hr, Pass.ended_ok_iff, hiff], hiff, fun e he => ?_⟩
  have hscan : p.state.names.expression ty stop ts = ⟨e.code lookup ty, [], none⟩ :=
    Names.expression_of_derives he.derives he.typed
  have hend : Faces tokens stop last pos [] := hfaces (hiff.2 ⟨e, he⟩)
  have hplace : pos = last := hend.place
  rw [hscan, hplace] at hr
  refine ⟨fun e' he' => he'.unique he.derives, hscan, hr, ?_, bytes_emit _⟩
  rw [← hplace]
  exact hend.getElem?

/-- Behind an arrow, a product of a sum and a variable, less a number. -/
theorem expression_compiled_of_product :
    let tokens : List Token := [⟨.name "x", 1⟩, ⟨.operator .assign, 1⟩, ⟨.operator .leftParen, 1⟩, ⟨.int 1, 1⟩, ⟨sign .add, 1⟩,
      ⟨.int 2, 1⟩, ⟨.operator .rightParen, 1⟩, ⟨sign .mul, 1⟩, ⟨.name "x", 1⟩, ⟨sign .sub, 1⟩, ⟨.int 3, 1⟩, ⟨.endOfLine, 1⟩]
    let s : State := ⟨⟨⟨[("x", ⟨.int, 4⟩)], 4⟩, .empty, false⟩, [], none, []⟩
    Pass.expression tokens .int ⟨s, 1, false, []⟩ = .ok () ⟨s.emit [.pushImm (Ty.int.ofInt 1), .pushImm (Ty.int.ofInt 2),
      .arith .add, .pushVar 4, .arith .mul, .pushImm (Ty.int.ofInt 3), .arith .sub], 11, false, []⟩ := by
  intro tokens s
  have hsum : Derives .sum [.int 1, sign .add, .int 2] (.binary .add (.int 1) (.int 2)) :=
    .binary .add (.widen (.widen (.int 1))) (.widen (.int 2))
  have hproduct : Derives .product [.operator .leftParen, .int 1, sign .add, .int 2, .operator .rightParen, sign .mul, .name "x"]
      (.binary .mul (.binary .add (.int 1) (.int 2)) (.name "x")) := .binary .mul (.widen (.paren hsum)) (.name "x")
  have hderives : Derives .sum [.operator .leftParen, .int 1, sign .add, .int 2, .operator .rightParen, sign .mul, .name "x",
      sign .sub, .int 3] (.binary .sub (.binary .mul (.binary .add (.int 1) (.int 2)) (.name "x")) (.int 3)) :=
    .binary .sub (.widen hproduct) (.widen (.int 3))
  have hfaces : Faces tokens ⟨.endOfLine, 1⟩ 11 1 (tokens.tail.take 10) := ⟨⟨[], rfl⟩, rfl, by decide, rfl⟩
  obtain ⟨-, -, hcode⟩ := expression_compiled (p := ⟨s, 1, false, []⟩) .int rfl hfaces
  exact (hcode _ ⟨hderives, ⟨⟨trivial, trivial⟩, rfl⟩, trivial⟩).2.2.1

/-! ## Arguments -/

section
variable {s : State} {ty : Ty} {act : Instr}

theorem action_one {e : Expr} (he : IsExpr s.names.frame.resolve? ty ts e) : Statement.action s ty 1 act stop ts =
    ⟨s.emit (.mode ty :: (e.code s.names.frame.resolve? ty ++ [act])), none, none⟩ := by
  have hrow : Row (ts.map Token.kind) [e] := row_one_iff.2 he.derives
  simpa using action_of_row s act stop hrow (by simpa using he.typed)

theorem action_two {xs ys : List Token} {a b : Expr} (hts : ts = xs ++ ys) (hx : IsExpr s.names.frame.resolve? ty xs a)
    (hy : IsExpr s.names.frame.resolve? ty ys b) : Statement.action s ty 2 act stop ts =
      ⟨s.emit (.mode ty :: (a.code s.names.frame.resolve? ty ++ b.code s.names.frame.resolve? ty ++ [act])), none, none⟩ := by
  have hrow : Row (ts.map Token.kind) [a, b] := row_two_iff.2 ⟨xs, ys, hts, hx.derives, hy.derives⟩
  simpa using action_of_row s act stop hrow (by simpa using ⟨hx.typed, hy.typed⟩)

theorem fault_action_one_iff : (Statement.action s ty 1 act stop ts).fault = none ↔
    ∃ e, IsExpr s.names.frame.resolve? ty ts e := by
  constructor
  · intro hf
    obtain ⟨es, hn, hrow, ht⟩ := row_of_action hf
    obtain ⟨e, rfl⟩ := List.length_eq_one_iff.1 hn
    exact ⟨e, row_one_iff.1 hrow, ht e List.mem_cons_self⟩
  · rintro ⟨e, he⟩
    rw [action_one he]

theorem fault_action_two_iff : (Statement.action s ty 2 act stop ts).fault = none ↔ ∃ xs ys a b, ts = xs ++ ys ∧
    IsExpr s.names.frame.resolve? ty xs a ∧ IsExpr s.names.frame.resolve? ty ys b := by
  constructor
  · intro hf
    obtain ⟨es, hn, hrow, ht⟩ := row_of_action hf
    obtain ⟨a, b, rfl⟩ := List.length_eq_two.1 hn
    obtain ⟨xs, ys, hts, hx, hy⟩ := row_two_iff.1 hrow
    exact ⟨xs, ys, a, b, hts, ⟨hx, ht a List.mem_cons_self⟩, hy, ht b (List.mem_cons_of_mem _ List.mem_cons_self)⟩
  · rintro ⟨xs, ys, a, b, hts, hx, hy⟩
    rw [action_two hts hx hy]

end

/-- **A line is compiled to code**: by itself, and by a pass from its first token to the one that ends it. -/
structure CompiledTo (tokens : List Token) (last : Nat) (p : Pass) (t : Token) (ts : List Token) (stop : Token)
    (code : List Instr) : Prop where
  line : Statement.compile p.state ⟨t :: ts, stop⟩ = ⟨p.state.emit code, none, none⟩
  pass : Pass.statement tokens t p = .ok () { p with state := p.state.emit code, pos := last }
  bytes : (p.state.emit code).bytes = p.state.bytes ++ Program.encode code

theorem compiledTo_of_compile (ha : p.inArguments = false) (h : Faces tokens stop last p.pos (t :: ts)) {code : List Instr}
    (hc : Statement.compile p.state ⟨t :: ts, stop⟩ = ⟨p.state.emit code, none, none⟩) :
    CompiledTo tokens last p t ts stop code := by
  have hpass := (Pass.statement_of_compile ha h).2 (by rw [hc])
  rw [hc] at hpass
  exact ⟨hc, hpass, bytes_emit code⟩

/-- **A list of arguments is taken apart once.**  A `move` is compiled exactly if what follows is two expressions in a row;
they come apart in one way only, and the code of the first goes before that of the second.  A `delay` is compiled exactly
if what follows is one expression. -/
theorem arguments_compiled (ha : p.inArguments = false) (h : Faces tokens stop last p.pos (t :: ts)) :
    let lookup := p.state.scopes.resolve? .current
    let line : Line := ⟨t :: ts, stop⟩
    ((∃ q, Pass.statement tokens t p = .ok () q) ↔ (Statement.compile p.state line).fault = none) ∧
    (t.kind = .keyword .move →
      ((Statement.compile p.state line).fault = none ↔
        ∃ xs ys a b, ts = xs ++ ys ∧ IsExpr lookup .int xs a ∧ IsExpr lookup .int ys b) ∧
      ∀ xs ys a b, ts = xs ++ ys → IsExpr lookup .int xs a → IsExpr lookup .int ys b →
        (∀ xs' ys' a' b', ts = xs' ++ ys' → Derives .sum (xs'.map Token.kind) a' → Derives .sum (ys'.map Token.kind) b' →
          xs' = xs ∧ ys' = ys ∧ a' = a ∧ b' = b) ∧
        CompiledTo tokens last p t ts stop (.mode .int :: (a.code lookup .int ++ b.code lookup .int ++ [.move]))) ∧
    (t.kind = .keyword .delay →
      ((Statement.compile p.state line).fault = none ↔ ∃ e, IsExpr lookup .float ts e) ∧
      ∀ e, IsExpr lookup .float ts e →
        (∀ e', Derives .sum (ts.map Token.kind) e' → e' = e) ∧
        CompiledTo tokens last p t ts stop (.mode .float :: (e.code lookup .float ++ [.delay]))) := by
  intro lookup line
  refine ⟨(Pass.statement_of_compile ha h).1, fun ht => ?_, fun ht => ?_⟩
  · have hcompile : Statement.compile p.state line = Statement.action p.state .int 2 .move stop ts := by
      simp only [line, Statement.compile, ht, Statement.builtin]
    rw [hcompile]
    refine ⟨fault_action_two_iff, fun xs ys a b hts hx hy => ⟨fun xs' ys' a' b' hts' hx' hy' => ?_, ?_⟩⟩
    · exact split_unique hx.derives hy.derives hx' hy' (hts'.symm.trans hts)
    · exact compiledTo_of_compile ha h (hcompile.trans (action_two hts hx hy))
  · have hcompile : Statement.compile p.state line = Statement.action p.state .float 1 .delay stop ts := by
      simp only [line, Statement.compile, ht, Statement.builtin]
    rw [hcompile]
    refine ⟨fault_action_one_iff, fun e he => ⟨fun e' he' => he'.unique he.derives, ?_⟩⟩
    exact compiledTo_of_compile ha h (hcompile.trans (action_one he))

end

/-- A minus behind a parenthesis is an operator, and a parenthesis behind a name is the next argument. -/
theorem arguments_compiled_of_parentheses :
    let ts : List Token := [⟨.operator .leftParen, 1⟩, ⟨.int 1, 1⟩, ⟨.operator .rightParen, 1⟩, ⟨sign .sub, 1⟩, ⟨.name "x", 1⟩,
      ⟨.operator .leftParen, 1⟩, ⟨.int 2, 1⟩, ⟨.operator .rightParen, 1⟩]
    let s : State := ⟨⟨⟨[("x", ⟨.int, 4⟩)], 4⟩, .empty, false⟩, [], none, []⟩
    CompiledTo (⟨.keyword .move, 1⟩ :: ts ++ [⟨.endOfSource, 1⟩]) 9 ⟨s, 0, false, []⟩ ⟨.keyword .move, 1⟩ ts ⟨.endOfSource, 1⟩
      [.mode .int, .pushImm (Ty.int.ofInt 1), .pushVar 4, .arith .sub, .pushImm (Ty.int.ofInt 2), .move] := by
  intro ts s
  have hfirst : Derives .sum ((ts.take 5).map Token.kind) (.binary .sub (.int 1) (.name "x")) :=
    .binary .sub (.widen (.widen (.paren (.widen (.widen (.int 1)))))) (.widen (.name "x"))
  have hsecond : Derives .sum ((ts.drop 5).map Token.kind) (.int 2) := .widen (.widen (.paren (.widen (.widen (.int 2)))))
  have hfaces : Faces (⟨.keyword .move, 1⟩ :: ts ++ [⟨.endOfSource, 1⟩]) ⟨.endOfSource, 1⟩ 9 0 (⟨.keyword .move, 1⟩ :: ts) :=
    ⟨⟨[], rfl⟩, rfl, by decide, rfl⟩
  obtain ⟨-, hmove, -⟩ := arguments_compiled (p := ⟨s, 0, false, []⟩) rfl hfaces
  exact ((hmove rfl).2 _ _ _ _ (List.take_append_drop 5 ts).symm ⟨hfirst, trivial, rfl⟩ ⟨hsecond, trivial⟩).2

end Autoscript.Script
