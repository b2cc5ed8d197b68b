import Autoscript.Proofs.Syntax
/-!
# Cursor — one pass over the tokens

Lines can be compiled without cutting the source into lines first: a `Pass` goes along all tokens with a cursor, emits as
it goes, and skips the rest of a line after a fault.  In a list of arguments a flag is up; the value that begins the next
argument is noticed only when the cursor is on it, so the cursor takes one step back.  This module has the pass and its
expressions.

Where the pass does on a line what the definition on lists does, it also stays on the line: `Faces` says which tokens are
ahead of the cursor up to the end of its line, and `scanned_expression` that scanning from the cursor is scanning those.
-/
namespace Autoscript.Script

/-- What breaks a statement off: a fault, or a case that cannot be. -/
inductive Break where
  | fault (fault : Fault)
  | impossible

/-- The compiler on its way along the tokens. -/
structure Pass where
  state : State
  /-- The cursor: how many tokens are behind it. -/
  pos : Nat
  /-- A value behind a value begins the next argument. -/
  inArguments : Bool
  faults : List Fault

namespace Pass

abbrev Action := EStateM Break Pass

def initial : Pass := ⟨.initial, 0, false, []⟩

def refuse {α : Type} (f : Fault) : Action α := throw (.fault f)

def emit (code : List Instr) (p : Pass) : Pass := { p with state := p.state.emit code }

/-! ## Pending operators -/

/-- Emits an operator.  Only the arithmetic ones have an instruction. -/
def emitOperator : Operator → Action Unit
  | .arith op => modify (emit [.arith op])
  | .assign | .leftParen | .rightParen => throw .impossible

/-- Emits the operators on top that bind at least as tightly as `op`, down to an open parenthesis. -/
def giveWay (op : Arith) : List Operator → Action (List Operator)
  | [] => pure []
  | top :: rest =>
    if top = .leftParen ∨ top.precedence < op.precedence then pure (top :: rest)
    else do
      emitOperator top
      giveWay op rest

/-- Emits the operators above the innermost open parenthesis, and takes it out. -/
def closeParen (line : Nat) : List Operator → Action (List Operator)
  | [] => refuse ⟨.unbalancedParentheses, line⟩
  | .leftParen :: rest => pure rest
  | top :: rest => do
    emitOperator top
    closeParen line rest

/-- Emits all operators.  A parenthesis that is still open is a fault. -/
def flush (line : Nat) : List Operator → Action Unit
  | [] => pure ()
  | .leftParen :: _ => refuse ⟨.unbalancedParentheses, line⟩
  | top :: rest => do
    emitOperator top
    flush line rest

/-- Takes an operator in, and emits those that need not wait any longer. -/
def operator (t : Token) (op : Operator) (pending : List Operator) (afterValue : Bool) : Action (List Operator) :=
  match op with
  | .leftParen =>
    if afterValue then refuse (.onToken t (.expectedOperator t.kind)) else pure (.leftParen :: pending)
  | .rightParen =>
    if afterValue then closeParen t.line pending else refuse (.onToken t (.expectedValue t.kind))
  | .assign => refuse (.onToken t (.invalidTerm t.kind))
  | .arith a =>
    if afterValue then do
      let rest ← giveWay a pending
      return .arith a :: rest
    else refuse (.onToken t (.expectedValue t.kind))

/-! ## What actions do -/

section
variable {α β : Type} (p : Pass)

@[simp] theorem pure_apply (a : α) : (pure a : Action α) p = .ok a p := rfl

@[simp] theorem refuse_apply (f : Fault) : (refuse f : Action α) p = .error (.fault f) p := rfl

@[simp] theorem get_apply : (get : Action Pass) p = .ok p p := rfl

@[simp] theorem modify_apply (g : Pass → Pass) : (modify g : Action PUnit) p = .ok ⟨⟩ (g p) := rfl

@[simp] theorem bind_apply (x : Action α) (f : α → Action β) : (x >>= f) p =
    match x p with
    | .ok a q => f a q
    | .error b q => .error b q := by
  show EStateM.bind x f p = _
  unfold EStateM.bind
  cases x p <;> rfl

@[simp] theorem map_apply (g : α → β) (x : Action α) : (g <$> x) p =
    match x p with
    | .ok a q => .ok (g a) q
    | .error b q => .error b q := by
  show EStateM.map g x p = _
  unfold EStateM.map
  cases x p <;> rfl

@[simp] theorem ite_apply {c : Prop} [Decidable c] (x y : Action α) : (if c then x else y) p = if c then x p else y p :=
  apply_ite (· p) c x y

@[simp] theorem emit_nil : p.emit [] = p := by simp [emit, State.emit]

@[simp] theorem emit_emit (code more : List Instr) : (p.emit code).emit more = p.emit (code ++ more) := by
  simp [emit, State.emit]

@[simp] theorem names_emit (code : List Instr) : (p.emit code).state.names = p.state.names := rfl

end

/-- Whatever operators are taken out, the cursor stays. -/
def Keeps {α : Type} (x : Action α) : Prop := ∀ p a q, x p = .ok a q → q.pos = p.pos

theorem keeps_emitOperator : ∀ op : Operator, Keeps (emitOperator op)
  | .arith op, p, a, q, h => by cases h; rfl
  | .assign, p, a, q, h | .leftParen, p, a, q, h | .rightParen, p, a, q, h => by cases h

theorem keeps_bind {α β : Type} {x : Action α} {f : α → Action β} (hx : Keeps x) (hf : ∀ a, Keeps (f a)) :
    Keeps (x >>= f) := by
  intro p b q h
  rw [bind_apply] at h
  split at h
  · rename_i a q' hq
    rw [hf a q' b q h, hx p a q' hq]
  · cases h

theorem keeps_giveWay (op : Arith) : ∀ pending : List Operator, Keeps (giveWay op pending)
  | [], p, a, q, h => by cases h; rfl
  | top :: rest, p, a, q, h => by
    rw [giveWay] at h
    split at h
    · cases h; rfl
    · exact keeps_bind (keeps_emitOperator top) (fun _ => keeps_giveWay op rest) p a q h

theorem keeps_closeParen (line : Nat) : ∀ pending : List Operator, Keeps (closeParen line pending)
  | [], p, a, q, h => by cases h
  | .leftParen :: rest, p, a, q, h => by cases h; rfl
  | .arith op :: rest, p, a, q, h =>
    keeps_bind (keeps_emitOperator (.arith op)) (fun _ => keeps_closeParen line rest) p a q h
  | .assign :: rest, p, a, q, h | .rightParen :: rest, p, a, q, h => by cases h

theorem keeps_operator (t : Token) (op : Operator) (pending : List Operator) (afterValue : Bool) :
    Keeps (operator t op pending afterValue) := by
  intro p a q h
  cases afterValue with
  | false =>
    cases op with
    | leftParen => cases h; rfl
    | arith | assign | rightParen => cases h
  | true =>
    cases op with
    | leftParen | assign => cases h
    | rightParen => exact keeps_closeParen t.line pending p a q h
    | arith op => exact keeps_bind (keeps_giveWay op pending) (fun rest p a q h => by cases h; rfl) p a q h

/-! ## The cursor -/

section
variable (tokens : List Token)

/-- The token at the cursor.  Behind the last token the source is over. -/
def current (p : Pass) : Token := tokens[p.pos]?.getD ⟨.endOfSource, 0⟩

def advance (p : Pass) : Pass := if p.pos < tokens.length then { p with pos := p.pos + 1 } else p

def retreat (p : Pass) : Pass := { p with pos := p.pos - 1 }

theorem pos_lt_of_current {p : Pass} (h : ¬ (current tokens p).endsStatement = true) : p.pos < tokens.length := by
  by_contra hp
  rw [current, List.getElem?_eq_none (Nat.not_lt.1 hp)] at h
  exact h rfl

theorem advance_of_lt {p : Pass} (h : p.pos < tokens.length) : advance tokens p = { p with pos := p.pos + 1 } := if_pos h

theorem left_of_advance {p : Pass} (h : ¬ (current tokens (advance tokens p)).endsStatement = true) :
    tokens.length - (advance tokens p).pos < tokens.length - p.pos := by
  have hlt := pos_lt_of_current tokens h
  by_cases hp : p.pos < tokens.length
  · rw [advance_of_lt tokens hp] at hlt ⊢
    exact Nat.sub_lt_sub_left hp (Nat.lt_succ_self _)
  · rw [advance, if_neg hp] at hlt
    exact absurd hlt hp

/-- Takes in the token at the cursor, unless the expression is over before it.  Returns what is pending then, and whether
an operator is due. -/
def takeIn (ty : Ty) (pending : List Operator) (afterValue : Bool) (t : Token) : Action (Option (List Operator × Bool)) := do
  let p ← get
  match t.kind with
  | .operator op =>
    if op = .leftParen ∧ afterValue ∧ p.inArguments then
      modify retreat
      return none
    else
      let rest ← operator t op pending afterValue
      return some (rest, op = .rightParen)
  | .int _ | .float _ | .name _ =>
    if afterValue then
      if p.inArguments then
        modify retreat
        return none
      else refuse (.onToken t (.expectedOperator t.kind))
    else
      match p.state.names.operand ty t with
      | .ok push =>
        modify (emit [push])
        return some (pending, true)
      | .error f => refuse f
  | _ => refuse (.onToken t (.invalidTerm t.kind))

/-- One turn of the scan, with the token behind the cursor. -/
def turn (ty : Ty) (pending : List Operator) (afterValue : Bool) : Action (Option (List Operator × Bool)) := do
  modify (advance tokens)
  let t := current tokens (← get)
  if t.endsStatement then return none else takeIn ty pending afterValue t

theorem pos_of_takeIn {ty : Ty} {pending : List Operator} {afterValue : Bool} {t : Token} {next : List Operator × Bool}
    {p q : Pass} (h : takeIn ty pending afterValue t p = .ok (some next) q) : q.pos = p.pos := by
  unfold takeIn at h
  cases hk : t.kind with
  | operator op =>
    simp only [hk, bind_apply, get_apply, ite_apply] at h
    split at h
    · cases h
    · split at h
      · rename_i hop
        cases h
        exact keeps_operator t op pending afterValue _ _ _ hop
      · cases h
  | int | float | name =>
    simp only [hk, bind_apply, get_apply, ite_apply] at h
    split at h
    · split at h <;> cases h
    · cases ho : p.state.names.operand ty t with
      | ok push => simp only [ho] at h; cases h; rfl
      | error f => simp only [ho] at h; cases h
  | text | keyword | endOfLine | endOfSource => simp only [hk, bind_apply, get_apply] at h; cases h

theorem turn_moves {ty : Ty} {pending : List Operator} {afterValue : Bool} {next : List Operator × Bool} {p q : Pass}
    (h : turn tokens ty pending afterValue p = .ok (some next) q) : tokens.length - q.pos < tokens.length - p.pos := by
  simp only [turn, bind_apply, modify_apply, get_apply, ite_apply] at h
  split at h
  · cases h
  · rename_i hend
    rw [pos_of_takeIn h]
    exact left_of_advance tokens hend

/-- Takes in an expression behind the cursor, to its end: what is pending there, and whether an operator is due. -/
def scan (ty : Ty) (pending : List Operator) (afterValue : Bool) (p : Pass) :
    EStateM.Result Break Pass (List Operator × Bool) :=
  match _hturn : turn tokens ty pending afterValue p with
  | .ok none q => .ok (pending, afterValue) q
  | .ok (some next) q => scan ty next.1 next.2 q
  | .error b q => .error b q
termination_by tokens.length - p.pos
decreasing_by exact turn_moves tokens _hturn

theorem scan_eq (ty : Ty) (pending : List Operator) (afterValue : Bool) (p : Pass) : scan tokens ty pending afterValue p =
    match turn tokens ty pending afterValue p with
    | .ok none q => .ok (pending, afterValue) q
    | .ok (some next) q => scan tokens ty next.1 next.2 q
    | .error b q => .error b q := by
  rw [scan]
  split <;> rename_i hturn <;> rw [hturn]

/-- Ends an expression at the cursor. -/
def close (pending : List Operator) (afterValue : Bool) : Action Unit := do
  let last := current tokens (← get)
  if afterValue then flush last.line pending else refuse (.onToken last (.expectedValue last.kind))

/-- Compiles the rest of an expression, from behind the cursor on. -/
def remainder (ty : Ty) (pending : List Operator) (afterValue : Bool) : Action Unit := fun p =>
  match scan tokens ty pending afterValue p with
  | .ok (pending, afterValue) q => close tokens pending afterValue q
  | .error b q => .error b q

/-- Compiles the expression behind the cursor. -/
def expression (ty : Ty) : Action Unit := do
  let first := current tokens (← get)
  if first.endsStatement then refuse (.onToken first (.expectedValue first.kind)) else remainder tokens ty [] false

/-- Compiles a number of expressions in a row. -/
def expressions (ty : Ty) : Nat → Action Unit
  | 0 => pure ()
  | n + 1 => do
    expression tokens ty
    expressions ty n

end
end Pass

/-! ## On a line -/

/-- **The tokens from a position to the end of its line**, which is the token `stop` at the position `last`. -/
structure Faces (tokens : List Token) (stop : Token) (last pos : Nat) (ts : List Token) : Prop where
  ahead : ∃ rest, tokens.drop pos = ts ++ stop :: rest
  place : pos + ts.length = last
  within : ∀ t ∈ ts, t.endsStatement = false
  ends : stop.endsStatement = true

namespace Faces

variable {tokens ts : List Token} {stop t : Token} {last pos : Nat} {p : Pass}

theorem tail (h : Faces tokens stop last pos (t :: ts)) : Faces tokens stop last (pos + 1) ts := by
  obtain ⟨⟨rest, hrest⟩, hplace, hwithin, hends⟩ := h
  refine ⟨⟨rest, ?_⟩, ?_, fun u hu => hwithin u (List.mem_cons_of_mem _ hu), hends⟩
  · rw [← List.drop_drop, hrest]
    rfl
  · rw [← hplace, List.length_cons]
    omega

theorem getElem? (h : Faces tokens stop last pos ts) : tokens[pos]? = some (ts.head?.getD stop) := by
  obtain ⟨rest, hrest⟩ := h.ahead
  have hhead : tokens[pos]? = (tokens.drop pos).head? := (List.head?_drop ..).symm
  rw [hhead, hrest]
  cases ts <;> rfl

theorem current (h : Faces tokens stop last p.pos ts) : p.current tokens = ts.head?.getD stop := by
  rw [Pass.current, h.getElem?]
  rfl

theorem advance (h : Faces tokens stop last p.pos ts) : p.advance tokens = { p with pos := p.pos + 1 } := by
  obtain ⟨hlt, -⟩ := List.getElem?_eq_some_iff.1 h.getElem?
  exact Pass.advance_of_lt tokens hlt

theorem not_ends (h : Faces tokens stop last pos (t :: ts)) : ¬ t.endsStatement = true := by
  rw [h.within t List.mem_cons_self]
  exact Bool.false_ne_true

end Faces

section
variable (tokens : List Token) (stop : Token) (last : Nat)

/-- A position on the line. -/
def OnLine (pos : Nat) : Prop := ∃ ts, Faces tokens stop last pos ts

/-- **What is left of the line** behind the token at a position.  At the end of the line nothing is left. -/
inductive Left (pos : Nat) : List Token → Prop where
  | behind {t : Token} {ts : List Token} : Faces tokens stop last pos (t :: ts) → Left pos ts
  | ended : Faces tokens stop last pos [] → Left pos []

/-- **Where a scan rests that leaves some of the line**: at the token taken last, or at the end of the line. -/
inductive Rests (pos : Nat) : List Token → Prop where
  | before {t u : Token} {us : List Token} : Faces tokens stop last pos (t :: u :: us) → Rests pos (u :: us)
  | ended : Faces tokens stop last pos [] → Rests pos []

variable {tokens stop last}

theorem Rests.left {pos : Nat} {ts : List Token} (h : Rests tokens stop last pos ts) : Left tokens stop last pos ts := by
  cases h with
  | before h => exact .behind h
  | ended h => exact .ended h

theorem Rests.onLine {pos : Nat} {ts : List Token} (h : Rests tokens stop last pos ts) : OnLine tokens stop last pos := by
  cases h with
  | before h => exact ⟨_, h⟩
  | ended h => exact ⟨_, h⟩

end

namespace Pass

/-- How an action ends, by its fault. -/
def ended (fault : Option Fault) (p : Pass) : EStateM.Result Break Pass Unit :=
  match fault with
  | none => .ok () p
  | some f => .error (.fault f) p

/-- **A pass that has scanned on its line**: the code is emitted, and a fault breaks it off; without one it rests where the
scan leaves the line. -/
def Scanned (tokens : List Token) (stop : Token) (last : Nat) (p : Pass) (s : Scan)
    (r : EStateM.Result Break Pass Unit) : Prop :=
  ∃ pos, r = ended s.fault { p.emit s.code with pos } ∧ OnLine tokens stop last pos ∧
    (s.fault = none → Rests tokens stop last pos s.rest)

/-! ## What is pending -/

/-- What is pending, as the operator that it came from. -/
def waiting : Pending → Operator
  | .paren => .leftParen
  | .arith op => .arith op

theorem giveWay_waiting (op : Arith) : ∀ (pending : List Pending) (p : Pass), giveWay op (pending.map waiting) p =
    .ok ((Pending.giveWay op pending).2.map waiting) (p.emit (Pending.giveWay op pending).1)
  | [], p => by simp [giveWay, Pending.giveWay]
  | .paren :: rest, p => by simp [giveWay, Pending.giveWay, waiting]
  | .arith top :: rest, p => by
    have ih := giveWay_waiting op rest
    by_cases hlt : top.precedence < op.precedence
    · simp [giveWay, Pending.giveWay, waiting, Operator.precedence, hlt]
    · simp [giveWay, Pending.giveWay, waiting, Operator.precedence, hlt, emitOperator, ih]

theorem closeParen_waiting (line : Nat) : ∀ (pending : List Pending) (p : Pass), closeParen line (pending.map waiting) p =
    match Pending.unwind pending with
    | (code, some rest) => .ok (rest.map waiting) (p.emit code)
    | (code, none) => .error (.fault ⟨.unbalancedParentheses, line⟩) (p.emit code)
  | [], p => by simp [closeParen, Pending.unwind]
  | .paren :: rest, p => by simp [closeParen, Pending.unwind, waiting]
  | .arith top :: rest, p => by
    have ih := closeParen_waiting line rest (p.emit [.arith top])
    simp only [List.map_cons, waiting, closeParen, bind_apply, emitOperator, modify_apply, ih, Pending.unwind]
    rcases Pending.unwind rest with ⟨code, _ | rest⟩ <;> simp

theorem flush_waiting (line : Nat) (left : List Token) : ∀ (pending : List Pending) (p : Pass),
    flush line (pending.map waiting) p =
      ended (Scan.close pending line left).fault (p.emit (Scan.close pending line left).code)
  | [], p => by simp [flush, Scan.close, Pending.unwind, ended]
  | .paren :: rest, p => by simp [flush, Scan.close, Pending.unwind, waiting, ended]
  | .arith top :: rest, p => by
    have ih := flush_waiting line left rest (p.emit [.arith top])
    simp only [List.map_cons, waiting, flush, bind_apply, emitOperator, modify_apply, ih, Scan.close, Pending.unwind]
    rcases Pending.unwind rest with ⟨code, _ | rest⟩ <;> simp

/-! ## Expressions -/

theorem rest_close (pending : List Pending) (line : Nat) (rest : List Token) : (Scan.close pending line rest).rest = rest := by
  unfold Scan.close
  split <;> rfl

section
variable {tokens : List Token} {stop : Token} {last : Nat}

theorem Scanned.after {p : Pass} {code : List Instr} {n : Nat} {s : Scan} {r : EStateM.Result Break Pass Unit}
    (h : Scanned tokens stop last { p.emit code with pos := n } s r) : Scanned tokens stop last p (s.after code) r := by
  obtain ⟨pos, rfl, hline, hleft⟩ := h
  refine ⟨pos, ?_, hline, hleft⟩
  rw [Scan.fault_after, Scan.code_after, ← emit_emit]
  rfl

section
variable {ty : Ty} {pending : List Pending} {afterValue : Bool} {p q : Pass}

theorem remainder_of_some {next : List Operator × Bool}
    (h : turn tokens ty (pending.map waiting) afterValue p = .ok (some next) q) :
    remainder tokens ty (pending.map waiting) afterValue p = remainder tokens ty next.1 next.2 q := by
  rw [remainder, scan_eq, h]
  rfl

theorem turn_of_faces {t u : Token} {us : List Token} (h : Faces tokens stop last p.pos (t :: u :: us)) :
    turn tokens ty (pending.map waiting) afterValue p =
      takeIn ty (pending.map waiting) afterValue u { p with pos := p.pos + 1 } := by
  have hcurrent : current tokens { p with pos := p.pos + 1 } = u := Faces.current (p := { p with pos := p.pos + 1 }) h.tail
  simp [turn, h.advance, hcurrent, h.tail.not_ends]

/-- At the end of the line a turn takes nothing in. -/
theorem turn_at_end {t : Token} (h : Faces tokens stop last p.pos [t]) :
    turn tokens ty (pending.map waiting) afterValue p = .ok none { p with pos := p.pos + 1 } := by
  have hcurrent : current tokens { p with pos := p.pos + 1 } = stop := Faces.current (p := { p with pos := p.pos + 1 }) h.tail
  simp [turn, h.advance, hcurrent, h.ends]

/-- **A token is taken in as the scan does it.**  One that is left is the next one again. -/
theorem takeIn_eq (ty : Ty) (pending : List Pending) (afterValue : Bool) (u : Token) (p : Pass) :
    takeIn ty (pending.map waiting) afterValue u { p with pos := p.pos + 1 } =
      match Scan.step p.state.names ty p.inArguments pending afterValue u with
      | .takes code pending after => .ok (some (pending.map waiting, after)) { p.emit code with pos := p.pos + 1 }
      | .refuses code f => .error (.fault f) { p.emit code with pos := p.pos + 1 }
      | .leaves => .ok none p := by
  have hback : retreat { p with pos := p.pos + 1 } = p := rfl
  cases hk : u.kind with
  | operator op =>
    cases op with
    | leftParen =>
      cases afterValue with
      | false => simp [takeIn, Scan.step, hk, operator, waiting]
      | true =>
        simp only [takeIn, Scan.step, hk, operator, bind_apply, get_apply, ite_apply, modify_apply, hback, if_true, true_and]
        split <;> simp
    | rightParen =>
      cases afterValue with
      | false => simp [takeIn, Scan.step, hk, operator]
      | true =>
        have hclose := closeParen_waiting u.line pending { p with pos := p.pos + 1 }
        simp only [takeIn, Scan.step, hk, operator, if_true, bind_apply, get_apply, ite_apply, hclose]
        rcases Pending.unwind pending with ⟨code, _ | rest⟩ <;> simp [emit, Fault.onToken]
    | arith op =>
      have hgive := giveWay_waiting op pending { p with pos := p.pos + 1 }
      cases afterValue <;> simp [takeIn, Scan.step, hk, operator, hgive, emit, State.emit, waiting]
    | assign => simp [takeIn, Scan.step, hk, operator]
  | int | float | name =>
    cases afterValue with
    | true =>
      simp only [takeIn, Scan.step, hk, bind_apply, get_apply, ite_apply, modify_apply, hback, if_true]
      split <;> simp
    | false => cases ho : p.state.names.operand ty u <;> simp [takeIn, Scan.step, hk, ho, emit, State.emit]
  | text | keyword | endOfLine | endOfSource => simp [takeIn, Scan.step, hk]

/-- **A turn does with a token what the scan does.** -/
theorem turn_eq (ty : Ty) (pending : List Pending) (afterValue : Bool) {t u : Token} {us : List Token}
    (h : Faces tokens stop last p.pos (t :: u :: us)) : turn tokens ty (pending.map waiting) afterValue p =
      match Scan.step p.state.names ty p.inArguments pending afterValue u with
      | .takes code pending after => .ok (some (pending.map waiting, after)) { p.emit code with pos := p.pos + 1 }
      | .refuses code f => .error (.fault f) { p.emit code with pos := p.pos + 1 }
      | .leaves => .ok none p := by
  rw [turn_of_faces h, takeIn_eq]

/-- A turn that is refused. -/
theorem scanned_refused {code : List Instr} {n : Nat} {f : Fault} {rest : List Token} (hline : OnLine tokens stop last n)
    (h : turn tokens ty (pending.map waiting) afterValue p = .error (.fault f) { p.emit code with pos := n }) :
    Scanned tokens stop last p ⟨code, rest, some f⟩ (remainder tokens ty (pending.map waiting) afterValue p) := by
  refine ⟨n, ?_, hline, fun hf => by cases hf⟩
  rw [remainder, scan_eq, h]
  rfl

/-- The last turn, behind a value. -/
theorem scanned_close {n line : Nat} {rest : List Token} (hrests : Rests tokens stop last n rest)
    (hline : (current tokens { p with pos := n }).line = line)
    (h : turn tokens ty (pending.map waiting) true p = .ok none { p with pos := n }) :
    Scanned tokens stop last p (Scan.close pending line rest) (remainder tokens ty (pending.map waiting) true p) := by
  refine ⟨n, ?_, hrests.onLine, fun _ => by rw [rest_close]; exact hrests⟩
  rw [remainder, scan_eq, h]
  simp only [close, bind_apply, get_apply, if_true, hline]
  exact flush_waiting line rest pending _

variable (tokens) in
/-- Ending an expression leaves the cursor alone.  It can only be done behind a value. -/
theorem close_cases (pending : List Pending) (afterValue : Bool) (p : Pass) :
    (∃ code, afterValue = true ∧ close tokens (pending.map waiting) afterValue p = .ok () (p.emit code)) ∨
      ∃ code f, close tokens (pending.map waiting) afterValue p = .error (.fault f) (p.emit code) := by
  cases afterValue with
  | false => exact .inr ⟨[], _, by simp [close]; rfl⟩
  | true =>
    have hclose : close tokens (pending.map waiting) true p = flush (current tokens p).line (pending.map waiting) p := by
      simp [close]
    rw [hclose, flush_waiting _ []]
    cases (Scan.close pending (current tokens p).line []).fault with
    | none => exact .inl ⟨_, rfl, rfl⟩
    | some f => exact .inr ⟨_, f, rfl⟩

theorem pos_of_close {b : Break} (h : close tokens (pending.map waiting) afterValue p = .error b q) : q.pos = p.pos := by
  rcases close_cases tokens pending afterValue p with ⟨code, -, hc⟩ | ⟨code, f, hc⟩
  · rw [hc] at h
    cases h
  · rw [hc] at h
    cases h
    rfl

end

theorem scanned_remainder (ty : Ty) : ∀ (ts : List Token) {t : Token} {p : Pass} (pending : List Pending)
    (afterValue : Bool), Faces tokens stop last p.pos (t :: ts) →
    Scanned tokens stop last p (Scan.go p.state.names ty p.inArguments stop pending afterValue t.line ts)
      (remainder tokens ty (pending.map waiting) afterValue p)
  | [], t, p, pending, afterValue, h => by
    have hcurrent : current tokens { p with pos := p.pos + 1 } = stop := Faces.current (p := { p with pos := p.pos + 1 }) h.tail
    cases afterValue with
    | true =>
      simp only [Scan.go, if_true]
      exact scanned_close (.ended h.tail) (by rw [hcurrent]) (turn_at_end h)
    | false =>
      refine ⟨p.pos + 1, ?_, ⟨_, h.tail⟩, fun hf => by cases hf⟩
      rw [remainder, scan_eq, turn_at_end h]
      simp [close, hcurrent, Scan.go, ended]
  | u :: us, t, p, pending, afterValue, h => by
    have hturn := turn_eq ty pending afterValue h
    rw [go_cons]
    cases hs : Scan.step p.state.names ty p.inArguments pending afterValue u with
    | takes code pending' after =>
      simp only [hs] at hturn
      rw [remainder_of_some hturn]
      exact .after (scanned_remainder ty us (p := { p.emit code with pos := p.pos + 1 }) pending' after h.tail)
    | refuses code f =>
      simp only [hs] at hturn
      exact scanned_refused ⟨_, h.tail⟩ hturn
    | leaves =>
      simp only [hs] at hturn
      obtain ⟨-, rfl⟩ := of_step_leaves hs
      exact scanned_close (.before h) (by rw [h.current]; rfl) hturn

/-- **Outside of an argument list a pass breaks off on the first token that the scan has not taken**, or at the end of the
line. -/
theorem faces_of_remainder (ty : Ty) : ∀ (ts : List Token) {t : Token} {p q : Pass} {b : Break} (pending : List Pending)
    (afterValue : Bool), p.inArguments = false → Faces tokens stop last p.pos (t :: ts) →
    remainder tokens ty (pending.map waiting) afterValue p = .error b q →
    Faces tokens stop last q.pos (Scan.go p.state.names ty false stop pending afterValue t.line ts).rest
  | [], t, p, q, b, pending, afterValue, ha, h, hb => by
    rw [remainder, scan_eq, turn_at_end h] at hb
    rw [pos_of_close hb]
    cases afterValue with
    | false => exact h.tail
    | true => simpa [Scan.go, rest_close] using h.tail
  | u :: us, t, p, q, b, pending, afterValue, ha, h, hb => by
    have hturn := turn_eq ty pending afterValue h
    rw [ha] at hturn
    rw [go_cons]
    cases hs : Scan.step p.state.names ty false pending afterValue u with
    | takes code pending' after =>
      simp only [hs] at hturn
      rw [remainder_of_some hturn] at hb
      exact faces_of_remainder ty us (p := { p.emit code with pos := p.pos + 1 }) pending' after ha h.tail hb
    | refuses code f =>
      simp only [hs] at hturn
      rw [remainder, scan_eq, hturn] at hb
      cases hb
      exact h.tail
    | leaves => cases (of_step_leaves hs).1

/-- Where a value is due, the token taken last does not matter. -/
theorem go_false (names : Names) (ty : Ty) (inArguments : Bool) (stop : Token) (pending : List Pending) (n m : Nat)
    (ts : List Token) : Scan.go names ty inArguments stop pending false n ts =
      Scan.go names ty inArguments stop pending false m ts := by
  cases ts with
  | nil => rfl
  | cons t ts => simp [Scan.go]

/-- Outside of an argument list nothing is left of the line. -/
theorem rest_of_expression {names : Names} {ty : Ty} {ts : List Token} (hf : (names.expression ty stop ts).fault = none) :
    (names.expression ty stop ts).rest = [] := by
  have h0 : Reached names.frame.resolve? ty [] false [] := .nil
  obtain ⟨-, -, -, -, -, hr⟩ := found_of_go ts h0 hf
  exact hr rfl

/-- **The pass scans an expression as the tokens left of its line are scanned.** -/
theorem scanned_expression (ty : Ty) {p : Pass} {ts : List Token} (h : Left tokens stop last p.pos ts) (n : Nat) :
    Scanned tokens stop last p (Scan.go p.state.names ty p.inArguments stop [] false n ts) (expression tokens ty p) := by
  cases h with
  | @behind t ts h =>
    have hcurrent : current tokens p = t := h.current
    rw [go_false _ _ _ _ _ n t.line]
    simpa [expression, hcurrent, h.not_ends] using scanned_remainder ty ts [] false h
  | ended h =>
    have hcurrent : current tokens p = stop := h.current
    refine ⟨p.pos, ?_, ⟨_, h⟩, fun hf => by cases hf⟩
    simp [expression, hcurrent, h.ends, Scan.go, ended]

/-- **Outside of an argument list** the pass ends an expression at the end of the line. -/
theorem expression_of_left (ty : Ty) {p : Pass} {ts : List Token} (ha : p.inArguments = false)
    (h : Left tokens stop last p.pos ts) : ∃ pos,
    expression tokens ty p = ended (p.state.names.expression ty stop ts).fault
      { p.emit (p.state.names.expression ty stop ts).code with pos } ∧ OnLine tokens stop last pos ∧
      ((p.state.names.expression ty stop ts).fault = none → Faces tokens stop last pos []) := by
  obtain ⟨pos, hr, hline, hrests⟩ := scanned_expression ty h stop.line
  rw [ha, ← Names.expression] at hr hrests
  refine ⟨pos, hr, hline, fun hf => ?_⟩
  have hrests := hrests hf
  rw [rest_of_expression hf] at hrests
  cases hrests with
  | ended h => exact h

theorem scanned_expressions (ty : Ty) : ∀ (n : Nat) {p : Pass} {ts : List Token}, p.inArguments = true →
    Left tokens stop last p.pos ts →
    Scanned tokens stop last p (p.state.names.arguments ty stop (n + 1) ts) (expressions tokens ty (n + 1) p) := by
  intro n p ts ha h
  obtain ⟨pos, hr, hline, hrests⟩ := scanned_expression ty h stop.line
  have harg : Scan.go p.state.names ty p.inArguments stop [] false stop.line ts = p.state.names.argument ty stop ts := by
    rw [ha, Names.argument]
  rw [harg] at hr hrests
  unfold expressions Names.arguments
  simp only [bind_apply, hr]
  cases hf : (p.state.names.argument ty stop ts).fault with
  | some f => exact ⟨pos, by simp only [ended, hf], hline, fun hn => by rw [hf] at hn; cases hn⟩
  | none =>
    cases n with
    | zero => exact .after (n := pos) ⟨pos, by simp [ended, expressions, Names.arguments], hline, fun _ => hrests hf⟩
    | succ n => exact .after (scanned_expressions ty n ha (hrests hf).left)

end

end Pass
end Autoscript.Script
