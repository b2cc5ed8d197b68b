import Autoscript.Proofs.Expressions
/-!
# Earliest — a fault is found where the expression dies

Some tokens can still become an expression and some cannot: `Begins` says that an expression begins with them.  The scan
separates the two at every token.  As long as it takes tokens, what it has read can be completed, behind a value with
closing parentheses alone (`Holding.closes`); and what it has read with the token it refuses cannot, because it would
refuse that token whatever follows (`not_begins_of_refuses`).

So the right side of an assignment is refused at the first token with which no expression begins, the cursor is on that
token, and the fault tells of it; if there is none the fault is at the end of the line (`refused_at_earliest`).
-/
namespace Autoscript.Script

/-! ## Beginnings -/

/-- **Tokens that an expression of a type begins with.** -/
def Begins (lookup : Lookup) (ty : Ty) (ts : List Token) : Prop := ∃ more e, IsExpr lookup ty (ts ++ more) e

/-- The last token ends a value: what is missing, if anything, is not a value. -/
def EndsInValue (ts : List Token) : Prop := ∃ t ∈ ts.getLast?, endsValue t.kind = true

section
variable {lookup : Lookup} {ty : Ty} {ts us : List Token} {pending : List Pending} {read : List Token.Kind}

theorem Begins.shorten (h : Begins lookup ty us) (hp : ts <+: us) : Begins lookup ty ts := by
  obtain ⟨more, e, he⟩ := h
  obtain ⟨us, rfl⟩ := hp
  exact ⟨us ++ more, e, by rwa [← List.append_assoc]⟩

theorem isExpr_append {ks : List Token.Kind} {e : Expr} (hd : Derives .sum (ts.map Token.kind ++ ks) e)
    (ht : e.Typed lookup ty) : IsExpr lookup ty (ts ++ ks.map fun k => ⟨k, 0⟩) e := by
  refine ⟨?_, ht⟩
  have hkinds : (ks.map fun k => (⟨k, 0⟩ : Token)).map Token.kind = ks := List.map_map.trans (List.map_id _)
  rwa [List.map_append, hkinds]

/-- **Behind a value nothing but closing parentheses is missing.** -/
theorem Holding.closes : ∀ {q : Rank} {pending : List Pending} {read : List Token.Kind}, Holding lookup ty q pending read →
    ∃ n e, Derives .sum (read ++ List.replicate n (.operator .rightParen)) e ∧ e.Typed lookup ty
  | q, [], read, h => by
    obtain ⟨e, hd, ht⟩ := h.unwind_none rfl
    exact ⟨0, e, by simpa using hd, ht⟩
  | q, .paren :: pending, read, h => by
    have hclosed : Holding lookup ty .atom pending (read ++ [.operator .rightParen]) := h.unwind_some rfl
    obtain ⟨n, e, hd, ht⟩ := hclosed.closes
    exact ⟨n + 1, e, by simpa [List.replicate_succ] using hd, ht⟩
  | q, .arith top :: pending, read, h => h.reduce.closes

theorem Viable.holding (h : Viable lookup ty pending read) : Holding lookup ty .atom pending (read ++ [.int 0]) :=
  ⟨read, [.int 0], .int 0, h, ready_atom _, .int 0, trivial, rfl⟩

/-- **What a scan has read begins an expression**: where a value is due, any value will do. -/
theorem begins_of_reached : ∀ {afterValue : Bool}, Reached lookup ty pending afterValue (ts.map Token.kind) →
    Begins lookup ty ts
  | true, h => by
    obtain ⟨n, e, hd, ht⟩ := Holding.closes h
    exact ⟨_, e, isExpr_append hd ht⟩
  | false, h => by
    obtain ⟨n, e, hd, ht⟩ := (Viable.holding h).closes
    rw [List.append_assoc] at hd
    exact ⟨_, e, isExpr_append hd ht⟩

theorem Viable.last (h : Viable lookup ty pending read) : ∀ k ∈ read.getLast?, endsValue k = false := by
  cases h with
  | nil => intro k hk; cases hk
  | paren =>
    rw [List.getLast?_concat]
    intro k hk; cases hk; rfl
  | arith =>
    rw [← List.append_assoc, List.getLast?_concat]
    intro k hk; cases hk; rfl

theorem Holding.last {q : Rank} (h : Holding lookup ty q pending read) : ∃ k ∈ read.getLast?, endsValue k = true := by
  obtain ⟨ks, vs, e, -, -, hd, -, rfl⟩ := h
  obtain ⟨k, hk⟩ := Option.ne_none_iff_exists'.1 (fun hn => hd.ne_nil (List.getLast?_eq_none_iff.1 hn))
  refine ⟨k, ?_, hd.ends k hk⟩
  rw [List.getLast?_append_of_ne_nil _ hd.ne_nil]
  exact hk

theorem endsInValue_iff : EndsInValue ts ↔ ∃ k ∈ (ts.map Token.kind).getLast?, endsValue k = true := by
  simp [EndsInValue, List.getLast?_map]

/-- An operator is due exactly behind a token that ends a value. -/
theorem endsInValue_of_reached : ∀ {afterValue : Bool}, Reached lookup ty pending afterValue (ts.map Token.kind) →
    (EndsInValue ts ↔ afterValue = true)
  | true, h => iff_of_true (endsInValue_iff.2 (Holding.last h)) rfl
  | false, h => by
    refine iff_of_false (fun hv => ?_) Bool.false_ne_true
    obtain ⟨k, hk, hv⟩ := endsInValue_iff.1 hv
    rw [Viable.last h k hk] at hv
    cases hv

end

/-! ## What a fault tells of -/

/-- **A fault that tells of a token**: it is on its line, and the token it carries is that one, or the name is its name. -/
def Fault.TellsOf (f : Fault) (t : Token) : Prop :=
  f.line = t.line ∧
    match f.cause with
    | .undeclaredName x | .unsupportedCall x | .typeMismatch x _ _ => t.kind = .name x
    | .expectedOperator k | .expectedValue k | .invalidTerm k => t.kind = k
    | .unbalancedParentheses => t.kind = .operator .rightParen
    | _ => False

theorem tellsOf_of_operand {names : Names} {ty : Ty} {t : Token} {f : Fault} (h : names.operand ty t = .error f) :
    f.TellsOf t := by
  unfold Names.operand at h
  split at h
  · cases h
  · cases h
  · rename_i x hk
    split at h
    · rename_i hs
      cases h
      unfold Names.symbol at hs
      split at hs
      · cases hs
      · split at hs <;> cases hs <;> exact ⟨rfl, hk⟩
    · split at h
      · cases h
      · cases h; exact ⟨rfl, hk⟩
  · cases h; exact ⟨rfl, rfl⟩

/-- **A token is refused with a fault that tells of it.** -/
theorem tellsOf_of_step {names : Names} {ty : Ty} {inArguments afterValue : Bool} {pending : List Pending} {t : Token}
    {code : List Instr} {f : Fault} (h : Scan.step names ty inArguments pending afterValue t = .refuses code f) :
    f.TellsOf t := by
  unfold Scan.step at h
  cases hk : t.kind with
  | operator op =>
    cases op <;> cases afterValue <;> simp only [hk, if_true, Bool.false_eq_true, if_false] at h
    case leftParen.true =>
      split at h <;> cases h
      exact ⟨rfl, hk⟩
    case rightParen.true =>
      split at h <;> cases h
      exact ⟨rfl, hk⟩
    all_goals cases h <;> exact ⟨rfl, hk⟩
  | int | float | name =>
    cases afterValue with
    | true =>
      simp only [hk, if_true] at h
      split at h <;> cases h
      exact ⟨rfl, hk⟩
    | false =>
      simp only [hk, Bool.false_eq_true, if_false] at h
      split at h
      · cases h
      · rename_i ho
        cases h
        exact tellsOf_of_operand ho
  | text | keyword | endOfLine | endOfSource =>
    simp only [hk] at h
    cases h
    exact ⟨rfl, hk⟩

/-! ## A run of the scan -/

namespace Scan

section
variable (names : Names) (ty : Ty)

/-- **A scan takes tokens**, one after the other, outside of an argument list. -/
inductive Takes : List Pending → Bool → List Token → List Pending → Bool → Prop where
  | nil {pending : List Pending} {afterValue : Bool} : Takes pending afterValue [] pending afterValue
  | cons {pending pending' pending'' : List Pending} {afterValue after after' : Bool} {t : Token} {ts : List Token}
      {code : List Instr} : step names ty false pending afterValue t = .takes code pending' after →
      Takes pending' after ts pending'' after' → Takes pending afterValue (t :: ts) pending'' after'

/-- **A scan is refused** before the rest of a line: by its first token, or by the end of the line. -/
inductive Refused (stop : Token) (pending : List Pending) (afterValue : Bool) (f : Fault) : List Token → Prop where
  | token {t : Token} {ts : List Token} {code : List Instr} :
      step names ty false pending afterValue t = .refuses code f → Refused stop pending afterValue f (t :: ts)
  | terminator : (go names ty false stop pending afterValue stop.line []).fault = some f →
      Refused stop pending afterValue f []

end

variable {names : Names} {ty : Ty} {stop : Token} {ts : List Token} {pending pending' : List Pending}
  {afterValue after : Bool} {f : Fault}

theorem Takes.reached {read : List Token.Kind} (h : Takes names ty pending afterValue ts pending' after)
    (hr : Reached names.frame.resolve? ty pending afterValue read) :
    Reached names.frame.resolve? ty pending' after (read ++ ts.map Token.kind) := by
  induction h generalizing read with
  | nil => simpa using hr
  | @cons _ _ _ _ _ _ t _ _ hs _ ih => simpa using ih (reached_of_step hr hs)

theorem Takes.fault_go (h : Takes names ty pending afterValue ts pending' after) (stop : Token) (us : List Token) :
    ∀ last, ∃ last', (go names ty false stop pending afterValue last (ts ++ us)).fault =
      (go names ty false stop pending' after last' us).fault := by
  induction h with
  | nil => exact fun last => ⟨last, rfl⟩
  | @cons _ _ _ _ _ _ t _ _ hs _ ih =>
    intro last
    obtain ⟨last', hgo⟩ := ih t.line
    refine ⟨last', ?_⟩
    rw [List.cons_append, go_cons, hs, ← hgo]
    rfl

/-- **A scan with a fault** has taken all tokens before the one it left first, and was refused there. -/
theorem takes_of_fault : ∀ (ts : List Token) {pending : List Pending} {afterValue : Bool} {last : Nat},
    (go names ty false stop pending afterValue last ts).fault = some f →
    ∃ taken pending' after, Takes names ty pending afterValue taken pending' after ∧
      ts = taken ++ (go names ty false stop pending afterValue last ts).rest ∧
      Refused names ty stop pending' after f (go names ty false stop pending afterValue last ts).rest
  | [], pending, afterValue, last, hf => by
    have hrest : (go names ty false stop pending afterValue last []).rest = [] := by
      cases afterValue with
      | false => rfl
      | true => exact Pass.rest_close _ _ _
    rw [hrest]
    exact ⟨[], pending, afterValue, .nil, rfl, .terminator hf⟩
  | t :: ts, pending, afterValue, last, hf => by
    rw [go_cons] at hf ⊢
    cases hs : step names ty false pending afterValue t with
    | takes code pending' after =>
      simp only [hs, fault_after, rest_after] at hf ⊢
      obtain ⟨taken, pending'', after', htakes, hts, hrefused⟩ := takes_of_fault ts hf
      exact ⟨t :: taken, pending'', after', .cons hs htakes, congrArg (t :: ·) hts, hrefused⟩
    | refuses code f' =>
      simp only [hs] at hf ⊢
      cases hf
      exact ⟨[], pending, afterValue, .nil, rfl, .token hs⟩
    | leaves => cases (of_step_leaves hs).1

/-- **With a refused token no expression begins.** -/
theorem not_begins_of_refuses {t : Token} {code : List Instr} (h : Takes names ty [] false ts pending' after)
    (hs : step names ty false pending' after t = .refuses code f) : ¬ Begins names.frame.resolve? ty (ts ++ [t]) := by
  rintro ⟨more, e, he⟩
  have hnone : (names.expression ty t (ts ++ t :: more)).fault = none :=
    (fault_expression_iff names ty t _).2 ⟨e, by simpa using he⟩
  obtain ⟨last, hgo⟩ := h.fault_go t (t :: more) t.line
  rw [Names.expression, hgo, go_cons, hs] at hnone
  cases hnone

theorem fault_at_end {last : Nat} (hf : (go names ty false stop pending afterValue last []).fault = some f) :
    f = ⟨if afterValue then .unbalancedParentheses else .expectedValue stop.kind, stop.line⟩ := by
  cases afterValue with
  | false => simpa [go, Fault.onToken] using hf.symm
  | true =>
    simp only [go, if_true, close] at hf
    split at hf <;> cases hf
    rfl

end Scan

/-! ## The earliest token -/

/-- **A fault at the earliest place** of the tokens `ts` before the end `stop` of their line: behind the first `i` of them.
Up to there some expression begins with them.  With the next one none does, and the fault tells of it; if none is next, a
value is missing or, where one is last, nothing but closing parentheses. -/
structure EarliestAt (lookup : Lookup) (ty : Ty) (stop : Token) (ts : List Token) (i : Nat) (f : Fault) : Prop where
  within : i ≤ ts.length
  begins : ∀ j ≤ i, Begins lookup ty (ts.take j)
  token : ∀ t, ts[i]? = some t → ¬ Begins lookup ty (ts.take (i + 1)) ∧ f.TellsOf t
  missing : ts[i]? = none → ¬ EndsInValue ts → f = ⟨.expectedValue stop.kind, stop.line⟩
  unclosed : ts[i]? = none → EndsInValue ts → f = ⟨.unbalancedParentheses, stop.line⟩ ∧
    ∃ n e, IsExpr lookup ty (ts ++ List.replicate (n + 1) ⟨.operator .rightParen, 0⟩) e

/-- **The scan of an expression finds a fault at the earliest place.** -/
theorem earliest_of_fault (names : Names) (ty : Ty) (stop : Token) (ts : List Token) {f : Fault}
    (hf : (names.expression ty stop ts).fault = some f) :
    ∃ i, (names.expression ty stop ts).rest = ts.drop i ∧ EarliestAt names.frame.resolve? ty stop ts i f := by
  obtain ⟨taken, pending, after, htakes, hts, hrefused⟩ := Scan.takes_of_fault ts hf
  rw [← Names.expression] at hts hrefused
  have hreached : Reached names.frame.resolve? ty pending after (taken.map Token.kind) := htakes.reached .nil
  generalize hrest : (names.expression ty stop ts).rest = rest at hts hrefused
  subst hts
  refine ⟨taken.length, by simp, ?_⟩
  have hbegins : ∀ j ≤ taken.length, Begins names.frame.resolve? ty ((taken ++ rest).take j) := by
    intro j hj
    have hshort : (taken ++ rest).take j <+: (taken ++ rest).take taken.length := List.take_prefix_take_left hj
    rw [List.take_left] at hshort
    exact (begins_of_reached hreached).shorten hshort
  cases hrefused with
  | @token t us code hs =>
    refine ⟨by simp, hbegins, fun u hu => ?_, fun hu => ?_, fun hu => ?_⟩
    · have htu : t = u := by simpa using hu
      subst htu
      refine ⟨?_, tellsOf_of_step hs⟩
      have htake : (taken ++ t :: us).take (taken.length + 1) = taken ++ [t] := by
        rw [List.append_cons]
        exact List.take_left' (by simp)
      rw [htake]
      exact Scan.not_begins_of_refuses htakes hs
    · simp at hu
    · simp at hu
  | terminator hend =>
    have hfault := Scan.fault_at_end hend
    have hends := endsInValue_of_reached hreached
    rw [List.append_nil] at hf hbegins ⊢
    refine ⟨Nat.le_refl _, hbegins, fun u hu => by simp at hu, fun _ hv => ?_, fun _ hv => ?_⟩
    · have hafter : after = false := by simpa [hv] using hends
      simpa [hafter] using hfault
    · have hafter : after = true := hends.1 hv
      subst hafter
      refine ⟨hfault, ?_⟩
      obtain ⟨n, e, hd, ht⟩ := Holding.closes hreached
      have he := isExpr_append hd ht
      rw [List.map_replicate] at he
      cases n with
      | succ n => exact ⟨n, e, he⟩
      | zero =>
        -- what needs no parenthesis to be an expression has no fault
        have hnone := (fault_expression_iff names ty stop taken).2 ⟨e, by simpa using he⟩
        rw [hf] at hnone
        cases hnone

/-! ## The cursor -/

section
variable {tokens ts : List Token} {t stop : Token} {last : Nat} {p q : Pass} {b : Break}

theorem Pass.ended_error_iff {fault : Option Fault} : (∃ b q, ended fault p = .error b q) ↔ ¬ fault = none := by
  cases fault with
  | none => exact iff_of_false (fun ⟨b, q, hq⟩ => by cases hq) (fun hn => hn rfl)
  | some f => exact iff_of_true ⟨.fault f, p, rfl⟩ (fun hn => by cases hn)

/-- **Where an expression breaks off**: with the fault of its scan, on the first token that the scan has not taken. -/
theorem Pass.expression_error (ty : Ty) (ha : p.inArguments = false) (h : Faces tokens stop last p.pos (t :: ts))
    (hb : expression tokens ty p = .error b q) : ∃ f, b = .fault f ∧
      (p.state.names.expression ty stop ts).fault = some f ∧
      Faces tokens stop last q.pos (p.state.names.expression ty stop ts).rest := by
  obtain ⟨pos, hr, -, -⟩ := expression_of_left ty ha (.behind h)
  have hfaces : Faces tokens stop last q.pos (p.state.names.expression ty stop ts).rest := by
    have hcurrent : current tokens p = t := h.current
    rw [Names.expression, go_false _ _ _ _ _ stop.line t.line]
    refine faces_of_remainder ty ts (b := b) [] false ha h ?_
    simpa [expression, hcurrent, h.not_ends] using hb
  rw [hr] at hb
  cases hf : (p.state.names.expression ty stop ts).fault with
  | none => rw [hf] at hb; cases hb
  | some f =>
    rw [hf] at hb
    cases hb
    exact ⟨f, rfl, rfl, hfaces⟩

variable {x : String} {n m : Nat} {symbol : Symbol}

theorem Pass.statement_of_assignment (hx : p.state.scopes.resolve? .current x = some symbol)
    (h : Faces tokens stop last p.pos (⟨.name x, n⟩ :: ⟨.operator .assign, m⟩ :: ts)) :
    statement tokens ⟨.name x, n⟩ p =
      match expression tokens symbol.ty { p.emit [.mode symbol.ty] with pos := p.pos + 1 } with
      | .ok _ q => .ok () (q.emit [.storeVar symbol.operand])
      | .error b q => .error b q := by
  have hsymbol : p.state.names.symbol x n = .ok symbol := Names.symbol_ok.2 hx
  have harrow : current tokens { p with pos := p.pos + 1 } = ⟨.operator .assign, m⟩ :=
    Faces.current (p := { p with pos := p.pos + 1 }) h.tail
  simp only [statement, assignment, bind_apply, get_apply, hsymbol, modify_apply, h.advance, harrow, if_true, ite_apply]
  have hemit : emit [.mode symbol.ty] { p with pos := p.pos + 1 } = { p.emit [.mode symbol.ty] with pos := p.pos + 1 } := rfl
  rw [hemit]
  cases expression tokens symbol.ty { p.emit [.mode symbol.ty] with pos := p.pos + 1 } <;> rfl

theorem Statement.fault_assignment {s : State} (hx : s.scopes.resolve? .current x = some symbol) :
    (Statement.compile s ⟨⟨.name x, n⟩ :: ⟨.operator .assign, m⟩ :: ts, stop⟩).fault =
      (s.names.expression symbol.ty stop ts).fault := by
  have hsymbol : s.names.symbol x n = .ok symbol := Names.symbol_ok.2 hx
  simp only [Statement.compile, Statement.assignment, hsymbol, List.head?_cons, Option.getD_some, if_true, List.tail_cons]
  split
  · rename_i hf; rw [hf]; rfl
  · rename_i hf; rw [hf]

/-- **The right side of an assignment is refused at the earliest token.**  Compiling it fails exactly if it is no expression
of the variable's type.  Then it stops on the first token with which no expression begins, with a fault that tells of it,
or else at the end of the line; that fault is the one of the statement. -/
theorem refused_at_earliest (ha : p.inArguments = false) (hx : p.state.scopes.resolve? .current x = some symbol)
    (h : Faces tokens stop last p.pos (⟨.name x, n⟩ :: ⟨.operator .assign, m⟩ :: ts)) :
    let lookup := p.state.scopes.resolve? .current
    let onArrow : Pass := { p.emit [.mode symbol.ty] with pos := p.pos + 1 }
    let scan := p.state.names.expression symbol.ty stop ts
    ((∃ b q, Pass.expression tokens symbol.ty onArrow = .error b q) ↔ ¬ ∃ e, IsExpr lookup symbol.ty ts e) ∧
    ∀ b q, Pass.expression tokens symbol.ty onArrow = .error b q →
      ∃ f i, b = .fault f ∧ EarliestAt lookup symbol.ty stop ts i f ∧
        q.pos = p.pos + 2 + i ∧ q.current tokens = ts[i]?.getD stop ∧
        scan.fault = some f ∧ scan.rest = ts.drop i ∧
        Pass.statement tokens ⟨.name x, n⟩ p = .error (.fault f) q ∧
        (Statement.compile p.state ⟨⟨.name x, n⟩ :: ⟨.operator .assign, m⟩ :: ts, stop⟩).fault = some f := by
  intro lookup onArrow scan
  have harrow : Faces tokens stop last onArrow.pos (⟨.operator .assign, m⟩ :: ts) := h.tail
  constructor
  · obtain ⟨pos, hr, -, -⟩ := Pass.expression_of_left symbol.ty (p := onArrow) ha (.behind harrow)
    rw [hr, Pass.ended_error_iff]
    exact not_congr (fault_expression_iff p.state.names symbol.ty stop ts)
  · intro b q hb
    obtain ⟨f, rfl, hf, hfaces⟩ := Pass.expression_error symbol.ty (p := onArrow) ha harrow hb
    obtain ⟨i, hrest, hearliest⟩ := earliest_of_fault p.state.names symbol.ty stop ts hf
    have hleft : Faces tokens stop last q.pos (ts.drop i) := hrest ▸ hfaces
    refine ⟨f, i, rfl, hearliest, ?_, ?_, hf, hrest, ?_, ?_⟩
    · have hbefore : p.pos + (ts.length + 1 + 1) = last := h.place
      have hafter : q.pos + (ts.length - i) = last := by simpa using hleft.place
      have hwithin := hearliest.within
      omega
    · rw [hleft.current, List.head?_drop]
    · rw [Pass.statement_of_assignment hx h, hb]
    · rw [Statement.fault_assignment hx]
      exact hf

end

/-- A sum in parentheses begins a product; behind it a second closing parenthesis is refused, and what follows it is not
looked at. -/
theorem refused_at_earliest_of_second_parenthesis :
    let ts : List Token := [⟨.operator .leftParen, 1⟩, ⟨.int 1, 1⟩, ⟨sign .add, 1⟩, ⟨.name "x", 1⟩, ⟨.operator .rightParen, 1⟩,
      ⟨.operator .rightParen, 1⟩, ⟨sign .mul, 1⟩, ⟨.name "y", 1⟩]
    let tokens : List Token := ⟨.name "x", 1⟩ :: ⟨.operator .assign, 1⟩ :: ts ++ [⟨.endOfLine, 1⟩]
    let s : State := ⟨⟨⟨[("x", ⟨.int, 4⟩)], 4⟩, .empty, false⟩, [], none, []⟩
    Begins (s.scopes.resolve? .current) .int (ts.take 5) ∧ ¬ Begins (s.scopes.resolve? .current) .int (ts.take 6) ∧
      ∃ q, q.pos = 7 ∧
        Pass.statement tokens ⟨.name "x", 1⟩ ⟨s, 0, false, []⟩ = .error (.fault ⟨.unbalancedParentheses, 1⟩) q := by
  intro ts tokens s
  have hfaces : Faces tokens ⟨.endOfLine, 1⟩ 10 0 (⟨.name "x", 1⟩ :: ⟨.operator .assign, 1⟩ :: ts) :=
    ⟨⟨[], rfl⟩, rfl, by decide, rfl⟩
  have hx : s.scopes.resolve? .current "x" = some ⟨.int, 4⟩ := rfl
  have hfault : (s.names.expression .int ⟨.endOfLine, 1⟩ ts).fault = some ⟨.unbalancedParentheses, 1⟩ := rfl
  have hleft : (s.names.expression .int ⟨.endOfLine, 1⟩ ts).rest = ts.drop 5 := rfl
  obtain ⟨hfails, hearliest⟩ := refused_at_earliest (p := ⟨s, 0, false, []⟩) rfl hx hfaces
  obtain ⟨b, q, hb⟩ := hfails.2 fun he => by
    rw [(fault_expression_iff s.names .int ⟨.endOfLine, 1⟩ ts).2 he] at hfault
    cases hfault
  obtain ⟨f, i, rfl, hat, hpos, -, hf, hrest, hstatement, -⟩ := hearliest b q hb
  obtain rfl : f = ⟨.unbalancedParentheses, 1⟩ := by simpa using hf.symm.trans hfault
  have hi : i = 5 := by
    have hlength : ts.length - 5 = ts.length - i := by simpa using congrArg List.length (hleft.symm.trans hrest)
    have hwithin := hat.within
    simp only [ts, List.length_cons, List.length_nil] at hlength hwithin
    omega
  subst hi
  exact ⟨hat.begins 5 (Nat.le_refl 5), (hat.token _ rfl).1, q, hpos, hstatement⟩

end Autoscript.Script
