import Autoscript.Script.Scan
import Autoscript.Proofs.Grammar
/-!
# Scan — the scan of an expression follows the grammar

One scan from left to right, with the operators that wait for their right operand on a stack, accepts exactly the
expressions of the grammar whose names have the type of the place, and emits the code of the tree: both operands, then
the operator.

- *It finds every expression* (`go_of_derives`): reading an expression of a rank leaves, above what was pending before,
  only operators that bind at least as tightly as the rank.
- *It finds nothing else* (`found_of_go`): at each point the tokens read are a `Viable` beginning, one left operand
  for each pending operator, and behind a value also that value (`Holding`).  What the scan does with one token is its
  `Scan.step` (`go_cons`), and a token that is taken keeps this (`reached_of_step`).
-/
namespace Autoscript.Script

/-- What the names in view stand for. -/
abbrev Lookup := String → Option Symbol

namespace Expr

/-- Every name of an expression stands for a variable of the type. -/
def Typed (lookup : Lookup) (ty : Ty) : Expr → Prop
  | .int _ | .float _ => True
  | .name x => (lookup x).map Symbol.ty = some ty
  | .binary _ l r => l.Typed lookup ty ∧ r.Typed lookup ty

/-- **The code of a tree**: a value is pushed, an operator follows its operands.  What a literal becomes is said by
`Ty.ofInt_eq` and `Ty.ofSingle_eq`. -/
def code (lookup : Lookup) (ty : Ty) : Expr → List Instr
  | .int n => [.pushImm (ty.ofInt n)]
  | .float x => [.pushImm (ty.ofSingle x)]
  | .name x => ((lookup x).map fun s => .pushVar s.operand).toList
  | .binary op l r => l.code lookup ty ++ r.code lookup ty ++ [.arith op]

end Expr

namespace Scan

@[simp] theorem after_nil (s : Scan) : s.after [] = s := rfl

@[simp] theorem after_after (c d : List Instr) (s : Scan) : (s.after d).after c = s.after (c ++ d) := by
  simp [after]

@[simp] theorem rest_after (c : List Instr) (s : Scan) : (s.after c).rest = s.rest := rfl

@[simp] theorem fault_after (c : List Instr) (s : Scan) : (s.after c).fault = s.fault := rfl

@[simp] theorem code_after (c : List Instr) (s : Scan) : (s.after c).code = c ++ s.code := rfl

end Scan

/-! ## What is pending -/

/-- An expression of a rank can begin: what is on top of the pending binds less tightly. -/
def Ready (r : Rank) (pending : List Pending) : Prop := ∀ op ∈ pending.head?, ∀ a, op = .arith a → a.precedence < r.strength

theorem ready_nil (r : Rank) : Ready r [] := fun _ h => by cases h

theorem ready_paren (r : Rank) (pending : List Pending) : Ready r (.paren :: pending) := by
  intro op h a ha
  cases h; cases ha

theorem ready_arith {r : Rank} {op : Arith} {pending : List Pending} :
    Ready r (.arith op :: pending) ↔ op.precedence < r.strength := by
  refine ⟨fun h => h _ rfl op rfl, fun h o ho a ha => ?_⟩
  cases ho; cases ha
  exact h

theorem ready_atom (pending : List Pending) : Ready .atom pending := fun _ _ a _ => a.precedence_lt

namespace Pending

theorem giveWay_append {op : Arith} {pending : List Pending} (hp : Ready op.rank pending) :
    ∀ ops : List Arith, (∀ a ∈ ops, op.precedence ≤ a.precedence) →
      giveWay op (ops.map .arith ++ pending) = (ops.map .arith, pending)
  | [], _ => by
    cases pending with
    | nil => rfl
    | cons p rest =>
      cases p with
      | paren => rfl
      | arith top =>
        have := ready_arith.1 hp
        rw [op.strength_rank] at this
        simp [giveWay, this]
  | a :: ops, h => by
    have ha : ¬ a.precedence < op.precedence := Nat.not_lt.2 (h a List.mem_cons_self)
    have ih := giveWay_append hp ops fun b hb => h b (List.mem_cons_of_mem _ hb)
    simp [giveWay, ha, ih]

theorem unwind_append (pending : List Pending) :
    ∀ ops : List Arith, unwind (ops.map .arith ++ .paren :: pending) = (ops.map .arith, some pending)
  | [] => rfl
  | _ :: ops => by simp [unwind, unwind_append pending ops]

theorem unwind_map : ∀ ops : List Arith, unwind (ops.map .arith) = (ops.map .arith, none)
  | [] => rfl
  | _ :: ops => by simp [unwind, unwind_map ops]

end Pending

/-! ## It finds every expression -/

section
variable (names : Names) (ty : Ty) (inArguments : Bool) (stop : Token)

theorem go_operand {pending : List Pending} {last : Nat} {t : Token} {rest : List Token} {i : Instr}
    (hv : (∃ n, t.kind = .int n) ∨ (∃ x, t.kind = .float x) ∨ ∃ x, t.kind = .name x)
    (hi : names.operand ty t = .ok i) :
    Scan.go names ty inArguments stop pending false last (t :: rest) =
      (Scan.go names ty inArguments stop pending true t.line rest).after [i] := by
  rcases hv with ⟨n, hk⟩ | ⟨x, hk⟩ | ⟨x, hk⟩ <;> simp [Scan.go, hk, hi]

theorem operand_name {t : Token} {x : String} (hk : t.kind = .name x)
    (ht : (names.frame.resolve? x).map Symbol.ty = some ty) :
    ∃ s, names.frame.resolve? x = some s ∧ names.operand ty t = .ok (.pushVar s.operand) := by
  obtain ⟨s, hs, rfl⟩ := Option.map_eq_some_iff.1 ht
  exact ⟨s, hs, by simp [Names.operand, hk, Names.symbol, hs]⟩

/-- **Reading an expression**: its code is emitted, up to operators that bind at least as tightly as its rank and wait
on top of what was pending. -/
theorem go_of_derives {r : Rank} {ks : List Token.Kind} {e : Expr} (h : Derives r ks e)
    (ht : e.Typed names.frame.resolve? ty) :
    ∀ (ts rest : List Token) (pending : List Pending) (last : Nat), ts.map Token.kind = ks → Ready r pending →
      ∃ (code : List Instr) (ops : List Arith) (last' : Nat), code ++ ops.map .arith = e.code names.frame.resolve? ty ∧
        (∀ a ∈ ops, r.strength ≤ a.precedence) ∧
        Scan.go names ty inArguments stop pending false last (ts ++ rest) =
          (Scan.go names ty inArguments stop (ops.map .arith ++ pending) true last' rest).after code := by
  induction h with
  | int n =>
    intro ts rest pending last hks _
    obtain ⟨t, rfl, hk⟩ := List.map_eq_singleton_iff.1 hks
    have hi : names.operand ty t = .ok (.pushImm (ty.ofInt n)) := by simp [Names.operand, hk]
    exact ⟨_, [], t.line, by simp [Expr.code], by simp, go_operand names ty inArguments stop (.inl ⟨n, hk⟩) hi⟩
  | float x =>
    intro ts rest pending last hks _
    obtain ⟨t, rfl, hk⟩ := List.map_eq_singleton_iff.1 hks
    have hi : names.operand ty t = .ok (.pushImm (ty.ofSingle x)) := by simp [Names.operand, hk]
    exact ⟨_, [], t.line, by simp [Expr.code], by simp, go_operand names ty inArguments stop (.inr (.inl ⟨x, hk⟩)) hi⟩
  | name x =>
    intro ts rest pending last hks _
    obtain ⟨t, rfl, hk⟩ := List.map_eq_singleton_iff.1 hks
    obtain ⟨s, hs, hi⟩ := operand_name names ty hk ht
    exact ⟨_, [], t.line, by simp [Expr.code, hs], by simp,
      go_operand names ty inArguments stop (.inr (.inr ⟨x, hk⟩)) hi⟩
  | @paren ks e _ ih =>
    intro ts rest pending last hks _
    obtain ⟨t, tus, rfl, hl, htu⟩ := List.map_eq_cons_iff.1 hks
    obtain ⟨ts, us, rfl, hk, hu⟩ := List.map_eq_append_iff.1 htu
    obtain ⟨u, rfl, hr⟩ := List.map_eq_singleton_iff.1 hu
    obtain ⟨code, ops, last', hc, -, hg⟩ := ih ht ts (u :: rest) (.paren :: pending) t.line hk (ready_paren _ _)
    refine ⟨code ++ ops.map .arith, [], u.line, by simpa using hc, by simp, ?_⟩
    have h1 : Scan.go names ty inArguments stop pending false last (t :: (ts ++ [u]) ++ rest) =
        Scan.go names ty inArguments stop (.paren :: pending) false t.line (ts ++ u :: rest) := by
      simp [Scan.go, hl]
    rw [h1, hg]
    simp [Scan.go, hr, Pending.unwind_append]
  | @widen r ks e _ ih =>
    intro ts rest pending last hk hp
    have hp' : Ready r.tighter pending := fun op ho a ha => Nat.lt_of_lt_of_le (hp op ho a ha) r.strength_le_tighter
    obtain ⟨code, ops, last', hc, ho, hg⟩ := ih ht ts rest pending last hk hp'
    exact ⟨code, ops, last', hc, fun a ha => Nat.le_trans r.strength_le_tighter (ho a ha), hg⟩
  | @binary op ls rs l r _ _ ihl ihr =>
    intro ts rest pending last hks hp
    obtain ⟨ts, tus, rfl, hkl, htu⟩ := List.map_eq_append_iff.1 hks
    obtain ⟨t, us, rfl, hop, hkr⟩ := List.map_eq_cons_iff.1 htu
    obtain ⟨c1, o1, n1, hc1, ho1, hg1⟩ := ihl ht.1 ts (t :: (us ++ rest)) pending last hkl hp
    have hready : Ready op.rank.tighter (.arith op :: pending) := by
      rw [ready_arith, op.strength_tighter_rank]; exact Nat.lt_succ_self _
    obtain ⟨c2, o2, n2, hc2, ho2, hg2⟩ := ihr ht.2 us rest (.arith op :: pending) t.line hkr hready
    refine ⟨c1 ++ o1.map .arith ++ c2, o2 ++ [op], n2, ?_, ?_, ?_⟩
    · simp only [Expr.code, ← hc1, ← hc2, List.map_append, List.map_cons, List.map_nil, List.append_assoc]
    · intro a ha
      rcases List.mem_append.1 ha with ha | ha
      · exact Nat.le_trans (Rank.strength_le_tighter _) (ho2 a ha)
      · rw [List.mem_singleton.1 ha, op.strength_rank]
    · -- what waits of the left operand binds at least as tightly as `op` and gives way to it
      rw [op.strength_rank] at ho1
      have h2 : Scan.go names ty inArguments stop (o1.map .arith ++ pending) true n1 (t :: (us ++ rest)) =
          (Scan.go names ty inArguments stop (.arith op :: pending) false t.line (us ++ rest)).after (o1.map .arith) := by
        simp [Scan.go, hop, Pending.giveWay_append hp o1 ho1]
      rw [List.append_assoc, List.cons_append, hg1, h2, hg2]
      simp
end

/-! ## It finds nothing else -/

theorem Derives.loosen {q r : Rank} {ks : List Token.Kind} {e : Expr} (h : Derives q ks e)
    (hr : r.strength ≤ q.strength) : Derives r ks e := by
  cases q <;> cases r
  case sum.sum | product.product | atom.atom => exact h
  case product.sum => exact .widen (r := .sum) h
  case atom.product => exact .widen (r := .product) h
  case atom.sum => exact .widen (r := .sum) (.widen (r := .product) h)
  all_goals exact absurd hr (by decide)

section
variable (lookup : Lookup) (ty : Ty)

/-- **A viable beginning**, up to where a value is due: an opening parenthesis, or a left operand with its operator, for
each pending entry. -/
inductive Viable : List Pending → List Token.Kind → Prop where
  | nil : Viable [] []
  | paren {pending : List Pending} {ks : List Token.Kind} : Viable pending ks →
      Viable (.paren :: pending) (ks ++ [.operator .leftParen])
  | arith (op : Arith) {pending : List Pending} {ks ls : List Token.Kind} {l : Expr} : Viable pending ks →
      Ready op.rank pending → Derives op.rank ls l → l.Typed lookup ty →
      Viable (.arith op :: pending) (ks ++ (ls ++ [sign op]))

/-- **A viable beginning behind a value**, an expression of rank `q` at its end. -/
def Holding (q : Rank) (pending : List Pending) (read : List Token.Kind) : Prop :=
  ∃ ks vs e, Viable lookup ty pending ks ∧ Ready q pending ∧ Derives q vs e ∧ e.Typed lookup ty ∧ read = ks ++ vs

def Reached (pending : List Pending) : (afterValue : Bool) → List Token.Kind → Prop
  | true => Holding lookup ty .atom pending
  | false => Viable lookup ty pending

variable {lookup ty} {q : Rank} {pending : List Pending} {read : List Token.Kind}

theorem Holding.reduce {top : Arith} (h : Holding lookup ty q (.arith top :: pending) read) :
    Holding lookup ty top.rank pending read := by
  obtain ⟨_, vs, e, hv, hq, hd, ht, rfl⟩ := h
  cases hv with
  | @arith _ _ ks ls l hv hp hl hlt =>
    have hq' : top.rank.tighter.strength ≤ q.strength := by
      rw [top.strength_tighter_rank]; exact ready_arith.1 hq
    exact ⟨ks, _, _, hv, hp, .binary top hl (hd.loosen hq'), ⟨hlt, ht⟩, by simp⟩

theorem Holding.giveWay {op : Arith} : ∀ {q : Rank} {pending : List Pending}, Holding lookup ty q pending read →
    op.precedence ≤ q.strength → ∃ q', Holding lookup ty q' (Pending.giveWay op pending).2 read ∧
      op.precedence ≤ q'.strength ∧ Ready op.rank (Pending.giveWay op pending).2
  | q, [], h, hq => ⟨q, h, hq, ready_nil _⟩
  | q, .paren :: pending, h, hq => ⟨q, h, hq, ready_paren _ _⟩
  | q, .arith top :: pending, h, hq => by
    by_cases hlt : top.precedence < op.precedence
    · simp only [Pending.giveWay, hlt, if_true]
      exact ⟨q, h, hq, ready_arith.2 (by rw [op.strength_rank]; exact hlt)⟩
    · simp only [Pending.giveWay, hlt, if_false]
      exact Holding.giveWay h.reduce (by rw [top.strength_rank]; exact Nat.not_lt.1 hlt)

theorem Holding.operator {op : Arith} (h : Holding lookup ty q pending read) (hq : op.precedence ≤ q.strength)
    (hp : Ready op.rank pending) : Viable lookup ty (.arith op :: pending) (read ++ [sign op]) := by
  obtain ⟨ks, vs, e, hv, -, hd, ht, rfl⟩ := h
  rw [List.append_assoc]
  exact .arith op hv hp (hd.loosen (by rw [op.strength_rank]; exact hq)) ht

theorem Holding.unwind_none : ∀ {q : Rank} {pending : List Pending}, Holding lookup ty q pending read →
    (Pending.unwind pending).2 = none → ∃ e, Derives .sum read e ∧ e.Typed lookup ty
  | q, [], ⟨_, _, e, hv, _, hd, ht, hr⟩, _ => by
    cases hv
    rw [hr, List.nil_append]
    exact ⟨e, hd.loosen (by cases q <;> decide), ht⟩
  | q, .paren :: pending, _, hn => by cases hn
  | q, .arith top :: pending, h, hn => Holding.unwind_none h.reduce hn

theorem Holding.unwind_some {rest : List Pending} : ∀ {q : Rank} {pending : List Pending},
    Holding lookup ty q pending read → (Pending.unwind pending).2 = some rest →
      Holding lookup ty .atom rest (read ++ [.operator .rightParen])
  | q, [], _, hs => by cases hs
  | q, .paren :: pending, ⟨_, _, e, hv, _, hd, ht, hr⟩, hs => by
    cases hs
    cases hv with
    | @paren _ ks hv =>
      have hd' := hd.loosen (r := .sum) (by cases q <;> decide)
      exact ⟨ks, _, e, hv, ready_atom _, .paren hd', ht, by simp [hr]⟩
  | q, .arith top :: pending, h, hs => Holding.unwind_some h.reduce hs

end

/-- **What a scan of `ts` without a fault has found**, after what it had read before: an expression, and all that is
left of the tokens; outside of an argument list nothing is left. -/
def Found (lookup : Lookup) (ty : Ty) (inArguments : Bool) (read : List Token.Kind) (ts : List Token) (s : Scan) : Prop :=
  ∃ used e, ts = used ++ s.rest ∧ Derives .sum (read ++ used.map Token.kind) e ∧ e.Typed lookup ty ∧
    (inArguments = false → s.rest = [])

theorem Found.cons {lookup : Lookup} {ty : Ty} {inArguments : Bool} {read : List Token.Kind} {c : List Instr}
    {t : Token} {ts : List Token} {s : Scan} (h : Found lookup ty inArguments (read ++ [t.kind]) ts s) :
    Found lookup ty inArguments read (t :: ts) (s.after c) := by
  obtain ⟨used, e, hts, hd, ht, hr⟩ := h
  refine ⟨t :: used, e, ?_, by simpa using hd, ht, hr⟩
  rw [List.cons_append, Scan.rest_after, ← hts]

theorem found_of_close {lookup : Lookup} {ty : Ty} {q : Rank} {pending : List Pending} {read : List Token.Kind}
    {line : Nat} {rest : List Token} {inArguments : Bool} (h : Holding lookup ty q pending read)
    (hr : inArguments = false → rest = []) (hf : (Scan.close pending line rest).fault = none) :
    Found lookup ty inArguments read rest (Scan.close pending line rest) := by
  unfold Scan.close at hf ⊢
  split at hf
  · rename_i c hu
    obtain ⟨e, hd, ht⟩ := h.unwind_none (by rw [hu])
    exact ⟨[], e, rfl, by simpa using hd, ht, hr⟩
  · cases hf

theorem Names.symbol_ok {names : Names} {x : String} {line : Nat} {s : Symbol} :
    names.symbol x line = .ok s ↔ names.frame.resolve? x = some s := by
  unfold Names.symbol
  constructor
  · intro h
    split at h
    · rename_i hs; cases h; exact hs
    · split at h <;> cases h
  · intro h; rw [h]

theorem derives_of_operand {names : Names} {ty : Ty} {t : Token} {i : Instr} (h : names.operand ty t = .ok i) :
    ∃ e, Derives .atom [t.kind] e ∧ e.Typed names.frame.resolve? ty := by
  unfold Names.operand at h
  split at h
  · rename_i n hk
    rw [hk]; exact ⟨_, .int n, trivial⟩
  · rename_i x hk
    rw [hk]; exact ⟨_, .float x, trivial⟩
  · rename_i x hk
    split at h
    · cases h
    · rename_i s hn
      split at h
      · rename_i hty
        rw [hk]; exact ⟨_, .name x, by simp [Expr.Typed, Names.symbol_ok.1 hn, hty]⟩
      · cases h
  · cases h

/-! ## One token -/

/-- What a scan does with the token it stands before. -/
inductive Scan.Step where
  /-- It emits, and goes on behind the token. -/
  | takes (code : List Instr) (pending : List Pending) (afterValue : Bool)
  | refuses (code : List Instr) (fault : Fault)
  /-- The next argument begins. -/
  | leaves

section
variable (names : Names) (ty : Ty) (inArguments : Bool)

def Scan.step (pending : List Pending) (afterValue : Bool) (t : Token) : Scan.Step :=
  match t.kind with
  | .operator .leftParen =>
    if afterValue then
      if inArguments then .leaves else .refuses [] (.onToken t (.expectedOperator t.kind))
    else .takes [] (.paren :: pending) false
  | .operator .rightParen =>
    if afterValue then
      match Pending.unwind pending with
      | (code, some rest) => .takes code rest true
      | (code, none) => .refuses code (.onToken t .unbalancedParentheses)
    else .refuses [] (.onToken t (.expectedValue t.kind))
  | .operator (.arith op) =>
    if afterValue then .takes (Pending.giveWay op pending).1 (.arith op :: (Pending.giveWay op pending).2) false
    else .refuses [] (.onToken t (.expectedValue t.kind))
  | .int _ | .float _ | .name _ =>
    if afterValue then
      if inArguments then .leaves else .refuses [] (.onToken t (.expectedOperator t.kind))
    else
      match names.operand ty t with
      | .ok push => .takes [push] pending true
      | .error f => .refuses [] f
  | _ => .refuses [] (.onToken t (.invalidTerm t.kind))

variable {names ty inArguments} {stop t : Token} {ts : List Token} {pending pending' : List Pending} {afterValue after : Bool}
  {last : Nat} {code : List Instr}

/-- **A scan goes token by token.** -/
theorem go_cons : Scan.go names ty inArguments stop pending afterValue last (t :: ts) =
    match Scan.step names ty inArguments pending afterValue t with
    | .takes code pending afterValue => (Scan.go names ty inArguments stop pending afterValue t.line ts).after code
    | .refuses code f => ⟨code, t :: ts, some f⟩
    | .leaves => Scan.close pending last (t :: ts) := by
  cases hk : t.kind with
  | operator op =>
    cases op with
    | leftParen => cases afterValue <;> cases inArguments <;> simp [Scan.go, Scan.step, hk, Scan.refuse]
    | rightParen =>
      cases afterValue with
      | false => simp [Scan.go, Scan.step, hk, Scan.refuse]
      | true =>
        simp only [Scan.go, Scan.step, hk, if_true]
        rcases Pending.unwind pending with ⟨code, _ | rest⟩ <;> simp [Scan.refuse, Scan.after]
    | arith op => cases afterValue <;> simp [Scan.go, Scan.step, hk, Scan.refuse]
    | assign => simp [Scan.go, Scan.step, hk, Scan.refuse]
  | int | float | name =>
    cases afterValue with
    | true => cases inArguments <;> simp [Scan.go, Scan.step, hk, Scan.refuse]
    | false =>
      simp only [Scan.go, Scan.step, hk, Bool.false_eq_true, if_false]
      cases names.operand ty t <;> rfl
  | text | keyword | endOfLine | endOfSource => simp [Scan.go, Scan.step, hk, Scan.refuse]

/-- Only in an argument list, and there only behind a value, a token is left. -/
theorem of_step_leaves (h : Scan.step names ty inArguments pending afterValue t = .leaves) :
    inArguments = true ∧ afterValue = true := by
  unfold Scan.step at h
  split at h <;> grind

/-- **What is read stays viable**, with every token that is taken. -/
theorem reached_of_step {read : List Token.Kind} (h : Reached names.frame.resolve? ty pending afterValue read)
    (hs : Scan.step names ty inArguments pending afterValue t = .takes code pending' after) :
    Reached names.frame.resolve? ty pending' after (read ++ [t.kind]) := by
  unfold Scan.step at hs
  cases hk : t.kind with
  | operator op =>
    cases op <;> cases afterValue <;> simp only [hk, if_true, Bool.false_eq_true, if_false] at hs
    case leftParen.false =>
      cases hs
      exact Viable.paren h
    case rightParen.true =>
      split at hs
      · rename_i hu
        cases hs
        exact Holding.unwind_some h (by rw [hu])
      · cases hs
    case arith.true op =>
      cases hs
      obtain ⟨q, h', hq, hp⟩ := Holding.giveWay h (Nat.le_of_lt op.precedence_lt)
      exact h'.operator hq hp
    case leftParen.true => split at hs <;> cases hs
    all_goals cases hs
  | int | float | name =>
    cases afterValue with
    | true =>
      simp only [hk, if_true] at hs
      split at hs <;> cases hs
    | false =>
      simp only [hk, Bool.false_eq_true, if_false] at hs
      split at hs
      · rename_i hi
        cases hs
        obtain ⟨e, hd, ht⟩ := derives_of_operand hi
        rw [hk] at hd
        exact ⟨read, _, e, h, ready_atom _, hd, ht, rfl⟩
      · cases hs
  | text | keyword | endOfLine | endOfSource =>
    simp only [hk] at hs
    cases hs

end

section
variable {names : Names} {ty : Ty} {inArguments : Bool} {stop : Token}

theorem go_beginning {t : Token} {ts : List Token} {pending : List Pending} {last : Nat}
    (hv : startsValue t.kind = true) : Scan.go names ty inArguments stop pending true last (t :: ts) =
      if inArguments then Scan.close pending last (t :: ts) else Scan.refuse t ts (.expectedOperator t.kind) := by
  cases hk : t.kind with
  | name | int | float => simp only [Scan.go, hk, if_true]
  | operator op =>
    cases op with
    | leftParen => simp only [Scan.go, hk, if_true]
    | _ => rw [hk] at hv; cases hv
  | _ => rw [hk] at hv; cases hv

/-- **A scan without a fault has read an expression.** -/
theorem found_of_go : ∀ (ts : List Token) {pending : List Pending} {afterValue : Bool} {last : Nat}
    {read : List Token.Kind}, Reached names.frame.resolve? ty pending afterValue read →
    (Scan.go names ty inArguments stop pending afterValue last ts).fault = none →
    Found names.frame.resolve? ty inArguments read ts (Scan.go names ty inArguments stop pending afterValue last ts)
  | [], pending, true, last, read, h, hf => by
    simp only [Scan.go, if_true] at hf ⊢
    exact found_of_close h (fun _ => rfl) hf
  | [], pending, false, last, read, h, hf => by simp [Scan.go] at hf
  | t :: ts, pending, afterValue, last, read, h, hf => by
    rw [go_cons] at hf ⊢
    cases hs : Scan.step names ty inArguments pending afterValue t with
    | takes code pending' after =>
      simp only [hs, Scan.fault_after] at hf ⊢
      exact (found_of_go ts (reached_of_step h hs) hf).cons
    | refuses code f => simp [hs] at hf
    | leaves =>
      obtain ⟨rfl, rfl⟩ := of_step_leaves hs
      simp only [hs] at hf ⊢
      exact found_of_close h (fun ha => by cases ha) hf

end

/-! ## Expressions and arguments -/

namespace Names

variable {names : Names} {ty : Ty} {stop : Token}

/-- The scan of an expression emits the code of its tree. -/
theorem expression_of_derives {ts : List Token} {e : Expr} (h : Derives .sum (ts.map Token.kind) e)
    (ht : e.Typed names.frame.resolve? ty) :
    names.expression ty stop ts = ⟨e.code names.frame.resolve? ty, [], none⟩ := by
  obtain ⟨code, ops, last, hc, -, hg⟩ := go_of_derives names ty false stop h ht ts [] [] stop.line rfl (ready_nil _)
  rw [List.append_nil, List.append_nil] at hg
  rw [expression, hg, ← hc]
  simp [Scan.go, Scan.close, Pending.unwind_map, Scan.after]

/-- What is scanned as an expression without a fault is one. -/
theorem derives_of_expression {ts : List Token} (hf : (names.expression ty stop ts).fault = none) :
    ∃ e, Derives .sum (ts.map Token.kind) e ∧ e.Typed names.frame.resolve? ty := by
  have h0 : Reached names.frame.resolve? ty [] false [] := .nil
  obtain ⟨used, e, hu, hd, ht, hr⟩ := found_of_go ts h0 hf
  rw [hr rfl, List.append_nil] at hu
  subst hu
  exact ⟨e, hd, ht⟩

theorem argument_of_derives {ts rest : List Token} {e : Expr} (h : Derives .sum (ts.map Token.kind) e)
    (ht : e.Typed names.frame.resolve? ty) (hr : ∀ t ∈ rest.head?, startsValue t.kind = true) :
    names.argument ty stop (ts ++ rest) = ⟨e.code names.frame.resolve? ty, rest, none⟩ := by
  obtain ⟨code, ops, last, hc, -, hg⟩ := go_of_derives names ty true stop h ht ts rest [] stop.line rfl (ready_nil _)
  rw [argument, hg, ← hc, List.append_nil]
  cases rest with
  | nil => simp [Scan.go, Scan.close, Pending.unwind_map, Scan.after]
  | cons t rest =>
    rw [go_beginning (hr t rfl)]
    simp [Scan.close, Pending.unwind_map, Scan.after]

theorem arguments_of_row {ks : List Token.Kind} {es : List Expr} (h : Row ks es) :
    ∀ {ts : List Token}, ts.map Token.kind = ks → (∀ e ∈ es, e.Typed names.frame.resolve? ty) →
      names.arguments ty stop es.length ts = ⟨es.flatMap (Expr.code names.frame.resolve? ty), [], none⟩ := by
  induction h with
  | nil =>
    intro ts hk _
    rw [List.map_eq_nil_iff.1 hk]; rfl
  | @cons ks ls e es hd hrow ih =>
    intro ts hks ht
    obtain ⟨ts, us, rfl, rfl, rfl⟩ := List.map_eq_append_iff.1 hks
    have hr : ∀ u ∈ us.head?, startsValue u.kind = true := fun u hu =>
      hrow.starts u.kind (by simpa using ⟨u, hu, rfl⟩)
    have ha : names.argument ty stop (ts ++ us) = _ := argument_of_derives hd (ht e List.mem_cons_self) hr
    simp [arguments, ha, ih rfl fun e he => ht e (List.mem_cons_of_mem _ he), Scan.after]

theorem row_of_arguments : ∀ (n : Nat) {ts : List Token}, (names.arguments ty stop n ts).fault = none →
    ∃ used es, ts = used ++ (names.arguments ty stop n ts).rest ∧ es.length = n ∧ Row (used.map Token.kind) es ∧
      ∀ e ∈ es, e.Typed names.frame.resolve? ty
  | 0, ts, _ => ⟨[], [], rfl, rfl, .nil, by simp⟩
  | n + 1, ts, hf => by
    unfold arguments at hf ⊢
    cases ha : (names.argument ty stop ts).fault with
    | some f => simp [ha] at hf
    | none =>
      simp only [ha, Scan.fault_after, Scan.rest_after] at hf ⊢
      have h0 : Reached names.frame.resolve? ty [] false [] := .nil
      obtain ⟨used, e, hu, hd, ht, -⟩ := found_of_go ts h0 ha
      obtain ⟨used', es, hu', hn, hrow, hts⟩ := row_of_arguments n hf
      refine ⟨used ++ used', e :: es, ?_, by simp [hn], ?_, ?_⟩
      · rw [List.append_assoc, ← hu']; exact hu
      · rw [List.map_append]; exact .cons hd hrow
      · rintro e' (_ | ⟨_, he⟩)
        · exact ht
        · exact hts e' he

end Names
end Autoscript.Script
