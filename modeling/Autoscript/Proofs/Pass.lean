import Autoscript.Proofs.Cursor
import Autoscript.Proofs.Recovery
/-!
# Pass — the whole source in one pass

Each turn of the pass compiles one statement, reports its fault if it has one, and goes on behind the end of the line.
What a statement does from the cursor on is what it does to the tokens of its line (`did_statement`), so the passes that
are `Visited` stand between lines, with what the lines before them have left (`between_of_visited`), and the last one
stands at the end of the source (`visited_end`).
-/
namespace Autoscript.Script
namespace Pass

/-! ## Statements -/

section
variable (tokens : List Token)

/-- Nothing but the end of the line may follow. -/
def finishStatement : Action Unit := do
  if (current tokens (← get)).endsStatement then return
  else
    modify (advance tokens)
    let t := current tokens (← get)
    if t.endsStatement then return else refuse (.onToken t (.unexpectedToken t.kind))

/-- The name that has to follow a keyword, and its line. -/
def nameAfter (k : Keyword) : Action (String × Nat) := do
  modify (advance tokens)
  let t := current tokens (← get)
  match t.kind with
  | .name name => return (name, t.line)
  | kind => refuse (.onToken t (.expectedName k kind))

def setState (s : State) (p : Pass) : Pass := { p with state := s }

def declaration (ty : Ty) : Action Unit := do
  let (name, line) ← nameAfter tokens (.declare ty)
  let s := (← get).state
  match s.scopes.declare? .current name ty with
  | none => refuse ⟨.frameTooLarge, line⟩
  | some (scopes, _) =>
    modify (setState { s with scopes })
    finishStatement tokens

def start (line : Nat) : Action Unit := do
  if (← get).state.scopes.inFunction then refuse ⟨.nestedFunction, line⟩
  else
    let (name, line) ← nameAfter tokens .start
    let s := (← get).state
    if (s.functions.lookup name).isSome then refuse ⟨.duplicateFunction name, line⟩
    else
      modify (setState
        { scopes := s.scopes.enter
          functions := (name, s.position) :: s.functions
          opened := some ⟨name, line⟩
          code := s.code ++ [.startFunc] })
      finishStatement tokens

def finish (line : Nat) : Action Unit := do
  let s := (← get).state
  if s.scopes.inFunction then
    modify (setState { s with scopes := s.scopes.leave, opened := none, code := s.code ++ [.endFunc] })
    finishStatement tokens
  else refuse ⟨.endOutsideFunction, line⟩

def display : Action Unit := do
  let (name, line) ← nameAfter tokens .display
  match (← get).state.names.symbol name line with
  | .error f => refuse f
  | .ok symbol =>
    modify (emit [.mode symbol.ty, .display symbol.operand])
    finishStatement tokens

/-- Compiles a list of arguments.  The flag is up meanwhile, and is lowered after a fault as well. -/
def arguments (ty : Ty) (count : Nat) : Action Unit := fun p =>
  match expressions tokens ty count { p with inArguments := true } with
  | .ok () q => .ok () { q with inArguments := false }
  | .error b q => .error b { q with inArguments := false }

def action (ty : Ty) (count : Nat) (act : Instr) : Action Unit := do
  modify (emit [.mode ty])
  arguments tokens ty count
  modify (emit [act])
  finishStatement tokens

def assignment (name : String) (line : Nat) : Action Unit := do
  match (← get).state.names.symbol name line with
  | .error f => refuse f
  | .ok symbol =>
    modify (advance tokens)
    let t := current tokens (← get)
    if t.kind = .operator .assign then
      modify (emit [.mode symbol.ty])
      expression tokens symbol.ty
      modify (emit [.storeVar symbol.operand])
    else refuse (.onToken t (.expectedAssignment name t.kind))

def builtin (k : Keyword) (line : Nat) : Action Unit :=
  match k with
  | .declare ty => declaration tokens ty
  | .start => start tokens line
  | .finish => finish tokens line
  | .display => display tokens
  | .move => action tokens .int 2 .move
  | .delay => action tokens .float 1 .delay
  | .drag | .click | .type | .mod => refuse ⟨.reservedKeyword k, line⟩

/-- Compiles the statement that begins with the token at the cursor. -/
def statement (t : Token) : Action Unit :=
  match t.kind with
  | .name name => assignment tokens name t.line
  | .keyword k => builtin tokens k t.line
  | kind => refuse (.onToken t (.unexpectedToken kind))

/-- Skips the rest of a line. -/
def synchronize (p : Pass) : Pass :=
  if _hend : (current tokens p).endsStatement = true then p else synchronize (advance tokens p)
termination_by tokens.length - p.pos
decreasing_by
  have hlt := pos_lt_of_current tokens _hend
  rw [advance_of_lt tokens hlt]
  exact Nat.sub_lt_sub_left hlt (Nat.lt_succ_self _)

/-- One turn of the loop over statements.  There is none after an impossible case. -/
def next (p : Pass) : Option Pass :=
  let t := current tokens p
  let r := if t.kind = .endOfLine then .ok () { p with inArguments := false } else statement tokens t p
  match r with
  | .ok () q => some (advance tokens q)
  | .error (.fault f) q => some (advance tokens (synchronize tokens { q with faults := q.faults ++ [f] }))
  | .error .impossible _ => none

/-- **The passes before and after the statements of a source.** -/
inductive Visited : Pass → Prop where
  | initial : Visited .initial
  | next {p q : Pass} : Visited p → (current tokens p).kind ≠ .endOfSource → next tokens p = some q → Visited q

end

/-! ## One statement -/

/-- **A pass that has done on its line what an outcome says.**  Without a fault it stands at the end of the line. -/
def Did (tokens : List Token) (stop : Token) (last : Nat) (p : Pass) (o : Outcome) (r : EStateM.Result Break Pass Unit) :
    Prop :=
  ∃ pos, r = ended o.fault { p with state := o.state, pos } ∧ OnLine tokens stop last pos ∧
    (o.fault = none → Faces tokens stop last pos [])

section
variable {tokens ts : List Token} {stop t : Token} {last n : Nat} {p : Pass}

theorem did_refused (s : State) (f : Fault) (h : OnLine tokens stop last n) :
    Did tokens stop last p (Statement.refuse s f) (.error (.fault f) { p with state := s, pos := n }) :=
  ⟨n, rfl, h, fun hf => by cases hf⟩

theorem finishStatement_of_left (h : Left tokens stop last p.pos ts) : ∃ pos,
    finishStatement tokens p = ended (Statement.trailing ts) { p with pos } ∧ OnLine tokens stop last pos ∧
      (Statement.trailing ts = none → Faces tokens stop last pos []) := by
  cases h with
  | @behind t ts h =>
    have hcurrent : current tokens p = t := h.current
    have hnext : current tokens { p with pos := p.pos + 1 } = ts.head?.getD stop :=
      Faces.current (p := { p with pos := p.pos + 1 }) h.tail
    refine ⟨p.pos + 1, ?_, ⟨_, h.tail⟩, fun hf => by rw [← trailing_none hf]; exact h.tail⟩
    cases ts with
    | nil => simp [finishStatement, hcurrent, h.not_ends, h.advance, hnext, h.ends, Statement.trailing, ended]
    | cons u us =>
      simp [finishStatement, hcurrent, h.not_ends, h.advance, hnext, h.tail.not_ends, Statement.trailing, ended]
  | ended h =>
    have hcurrent : current tokens p = stop := h.current
    exact ⟨p.pos, by simp [finishStatement, hcurrent, h.ends, Statement.trailing, ended], ⟨_, h⟩, fun _ => h⟩

theorem did_finishStatement (s : State) (note : Option Note) (h : Left tokens stop last n ts) :
    Did tokens stop last p ⟨s, note, Statement.trailing ts⟩ (finishStatement tokens { p with state := s, pos := n }) :=
  finishStatement_of_left (p := { p with state := s, pos := n }) h

theorem nameAfter_of_faces (k : Keyword) (h : Faces tokens stop last p.pos (t :: ts)) : nameAfter tokens k p =
    match Statement.nameAfter k stop ts with
    | .ok (name, line, _) => .ok (name, line) { p with pos := p.pos + 1 }
    | .error f => .error (.fault f) { p with pos := p.pos + 1 } := by
  have hnext : current tokens { p with pos := p.pos + 1 } = ts.head?.getD stop :=
    Faces.current (p := { p with pos := p.pos + 1 }) h.tail
  simp only [nameAfter, bind_apply, modify_apply, get_apply, h.advance, hnext]
  cases ts with
  | nil =>
    have hends := h.ends
    cases hk : stop.kind with
    | endOfLine | endOfSource => simp [hk, Statement.nameAfter, Fault.onToken]
    | _ => rw [Token.endsStatement, hk] at hends; cases hends
  | cons u us =>
    simp only [List.head?_cons, Option.getD_some, Statement.nameAfter]
    cases hk : u.kind <;> rfl

theorem left_of_nameAfter {k : Keyword} {name : String} {line : Nat} {rest : List Token}
    (h : Faces tokens stop last p.pos (t :: ts)) (hn : Statement.nameAfter k stop ts = .ok (name, line, rest)) :
    Left tokens stop last (p.pos + 1) rest := by
  obtain ⟨u, rfl, -⟩ := nameAfter_ok hn
  exact .behind h.tail

theorem did_declaration (ty : Ty) (h : Faces tokens stop last p.pos (t :: ts)) :
    Did tokens stop last p (Statement.declaration p.state ty stop ts) (declaration tokens ty p) := by
  have hline : OnLine tokens stop last (p.pos + 1) := ⟨_, h.tail⟩
  simp only [declaration, Statement.declaration, bind_apply, nameAfter_of_faces _ h]
  cases hn : Statement.nameAfter (.declare ty) stop ts with
  | error f => exact did_refused p.state f hline
  | ok r =>
    obtain ⟨name, line, rest⟩ := r
    simp only [get_apply]
    cases hd : p.state.scopes.declare? .current name ty with
    | none => exact did_refused p.state _ hline
    | some r => exact did_finishStatement _ _ (left_of_nameAfter h hn)

theorem did_start (line : Nat) (h : Faces tokens stop last p.pos (t :: ts)) :
    Did tokens stop last p (Statement.start p.state line stop ts) (start tokens line p) := by
  have hline : OnLine tokens stop last (p.pos + 1) := ⟨_, h.tail⟩
  simp only [start, Statement.start, bind_apply, get_apply, ite_apply]
  cases hi : p.state.scopes.inFunction with
  | true => exact did_refused p.state _ ⟨_, h⟩
  | false =>
    simp only [Bool.false_eq_true, if_false, nameAfter_of_faces _ h]
    cases hn : Statement.nameAfter .start stop ts with
    | error f => exact did_refused p.state f hline
    | ok r =>
      obtain ⟨name, nameLine, rest⟩ := r
      simp only
      split
      · exact did_refused p.state _ hline
      · exact did_finishStatement _ _ (left_of_nameAfter h hn)

theorem did_finish (line : Nat) (h : Faces tokens stop last p.pos (t :: ts)) :
    Did tokens stop last p (Statement.finish p.state line ts) (finish tokens line p) := by
  simp only [finish, Statement.finish, bind_apply, get_apply, ite_apply]
  split
  · exact did_finishStatement _ _ (.behind h)
  · exact did_refused p.state _ ⟨_, h⟩

theorem did_display (h : Faces tokens stop last p.pos (t :: ts)) :
    Did tokens stop last p (Statement.display p.state stop ts) (display tokens p) := by
  have hline : OnLine tokens stop last (p.pos + 1) := ⟨_, h.tail⟩
  simp only [display, Statement.display, bind_apply, nameAfter_of_faces _ h]
  cases hn : Statement.nameAfter .display stop ts with
  | error f => exact did_refused p.state f hline
  | ok r =>
    obtain ⟨name, line, rest⟩ := r
    simp only [get_apply]
    cases hs : p.state.names.symbol name line with
    | error f => exact did_refused p.state f hline
    | ok symbol => exact did_finishStatement _ _ (left_of_nameAfter h hn)

/-- A list of arguments raises the flag and lowers it again. -/
theorem scanned_arguments (ty : Ty) (n : Nat) (ha : p.inArguments = false) (h : Left tokens stop last p.pos ts) :
    Scanned tokens stop last p (p.state.names.arguments ty stop (n + 1) ts) (arguments tokens ty (n + 1) p) := by
  obtain ⟨pos, hr, hline, hrests⟩ := scanned_expressions ty n (p := { p with inArguments := true }) rfl h
  refine ⟨pos, ?_, hline, hrests⟩
  simp only [arguments, hr]
  cases (p.state.names.arguments ty stop (n + 1) ts).fault <;> simp [ended, emit, ha]

theorem did_action (ty : Ty) (n : Nat) (act : Instr) (ha : p.inArguments = false)
    (h : Faces tokens stop last p.pos (t :: ts)) :
    Did tokens stop last p (Statement.action p.state ty (n + 1) act stop ts) (action tokens ty (n + 1) act p) := by
  obtain ⟨pos, hr, hline, hrests⟩ := scanned_arguments ty n (p := p.emit [.mode ty]) ha (.behind h)
  rw [names_emit] at hr hrests
  simp only [action, Statement.action, bind_apply, modify_apply, hr]
  generalize p.state.names.arguments ty stop (n + 1) ts = scan at hrests ⊢
  cases hf : scan.fault with
  | some f =>
    rw [emit_emit]
    exact did_refused (p.state.emit (.mode ty :: scan.code)) f hline
  | none =>
    rw [emit_emit]
    exact did_finishStatement ((p.state.emit (.mode ty :: scan.code)).emit [act]) none (hrests hf).left

theorem did_assignment (name : String) (line : Nat) (ha : p.inArguments = false)
    (h : Faces tokens stop last p.pos (t :: ts)) :
    Did tokens stop last p (Statement.assignment p.state name line stop ts) (assignment tokens name line p) := by
  have hline : OnLine tokens stop last (p.pos + 1) := ⟨_, h.tail⟩
  have hnext : current tokens { p with pos := p.pos + 1 } = ts.head?.getD stop :=
    Faces.current (p := { p with pos := p.pos + 1 }) h.tail
  simp only [assignment, Statement.assignment, bind_apply, get_apply]
  cases hs : p.state.names.symbol name line with
  | error f => exact did_refused p.state f ⟨_, h⟩
  | ok symbol =>
    simp only [bind_apply, modify_apply, get_apply, h.advance, hnext, ite_apply]
    by_cases harrow : (ts.head?.getD stop).kind = .operator .assign
    · rw [if_pos harrow, if_pos harrow]
      cases ts with
      | nil =>
        -- the end of the line is no arrow
        have hends := h.ends
        rw [Token.endsStatement, show stop.kind = .operator .assign from harrow] at hends
        cases hends
      | cons u us =>
        obtain ⟨pos, hr, hon, hfaces⟩ := expression_of_left symbol.ty
          (p := { p.emit [.mode symbol.ty] with pos := p.pos + 1 }) ha (.behind h.tail)
        have hemit : emit [.mode symbol.ty] { p with pos := p.pos + 1 } =
            { p.emit [.mode symbol.ty] with pos := p.pos + 1 } := rfl
        simp only [List.tail_cons, hemit, hr]
        rw [names_emit] at hfaces ⊢
        generalize p.state.names.expression symbol.ty stop us = scan at hfaces ⊢
        cases hf : scan.fault with
        | some f =>
          refine ⟨pos, ?_, hon, fun hn => by cases hn⟩
          simp [ended, emit, Statement.refuse, State.emit]
        | none =>
          refine ⟨pos, ?_, hon, fun _ => hfaces hf⟩
          simp [ended, emit, State.emit]
    · rw [if_neg harrow, if_neg harrow]
      exact did_refused p.state _ hline

/-- **From the cursor on, a statement does what it does to the tokens of its line.** -/
theorem did_statement (ha : p.inArguments = false) (h : Faces tokens stop last p.pos (t :: ts)) :
    Did tokens stop last p (Statement.compile p.state ⟨t :: ts, stop⟩) (statement tokens t p) := by
  cases hk : t.kind with
  | name name =>
    simp only [statement, Statement.compile, hk]
    exact did_assignment name t.line ha h
  | keyword k =>
    simp only [statement, Statement.compile, hk]
    cases k with
    | declare ty => exact did_declaration ty h
    | start => exact did_start t.line h
    | finish => exact did_finish t.line h
    | display => exact did_display h
    | move => exact did_action .int 1 .move ha h
    | delay => exact did_action .float 0 .delay ha h
    | drag | click | type | mod => exact did_refused p.state _ ⟨_, h⟩
  | operator | text | int | float | endOfLine | endOfSource =>
    simp only [statement, Statement.compile, hk]
    exact did_refused p.state _ ⟨_, h⟩

/-! ## One turn -/

theorem faces_last {pos : Nat} (h : Faces tokens stop last pos ts) : Faces tokens stop last last [] := by
  obtain ⟨⟨rest, hrest⟩, hplace, hwithin, hends⟩ := h
  refine ⟨⟨rest, ?_⟩, rfl, fun t ht => (by cases ht), hends⟩
  rw [← hplace, ← List.drop_drop, hrest, List.drop_left]
  rfl

theorem synchronize_of_faces : ∀ (ts : List Token) {p : Pass}, Faces tokens stop last p.pos ts →
    synchronize tokens p = { p with pos := last }
  | [], p, h => by
    have hcurrent : current tokens p = stop := h.current
    have hplace : p.pos = last := h.place
    rw [synchronize, hcurrent, dif_pos h.ends, ← hplace]
  | t :: ts, p, h => by
    have hcurrent : current tokens p = t := h.current
    rw [synchronize, hcurrent, dif_neg h.not_ends, h.advance, synchronize_of_faces ts h.tail]

/-- **One turn compiles one line**: the pass goes on behind its end, with the flag down and the fault reported. -/
theorem next_of_faces (ha : p.inArguments = false) (h : Faces tokens stop last p.pos ts)
    (hmore : (current tokens p).kind ≠ .endOfSource) : next tokens p =
      some ⟨(Statement.compile p.state ⟨ts, stop⟩).state, last + 1, false,
        p.faults ++ (Statement.compile p.state ⟨ts, stop⟩).fault.toList⟩ := by
  have hlast (s : State) (fs : List Fault) : advance tokens ⟨s, last, false, fs⟩ = ⟨s, last + 1, false, fs⟩ :=
    Faces.advance (p := ⟨s, last, false, fs⟩) (faces_last h)
  cases ts with
  | nil =>
    have hcurrent : current tokens p = stop := h.current
    have hplace : p.pos = last := h.place
    rw [hcurrent] at hmore
    have hkind : stop.kind = .endOfLine := by
      have hends := h.ends
      cases hk : stop.kind with
      | endOfLine => rfl
      | endOfSource => exact absurd hk hmore
      | _ => rw [Token.endsStatement, hk] at hends; cases hends
    simp [next, hcurrent, hkind, hplace, hlast, Statement.compile]
  | cons t ts =>
    have hcurrent : current tokens p = t := h.current
    have hkind : t.kind ≠ .endOfLine := fun hk => h.not_ends (by rw [Token.endsStatement, hk]; rfl)
    obtain ⟨pos, hr, ⟨us, hus⟩, hfaces⟩ := did_statement ha h
    simp only [next, hcurrent, if_neg hkind, hr]
    generalize Statement.compile p.state ⟨t :: ts, stop⟩ = o at hfaces ⊢
    cases hf : o.fault with
    | none =>
      have hplace : pos = last := (hfaces hf).place
      simp [ended, hplace, hlast, ha]
    | some f =>
      have hsync := synchronize_of_faces us (p := ⟨o.state, pos, false, p.faults ++ [f]⟩) hus
      simp [ended, ha, hsync, hlast]

end
end Pass

/-! ## All lines -/

/-- The state that the first lines leave. -/
def stateAfter (lines : List Line) (n : Nat) : State := (compileLines .initial (lines.take n)).2

section
variable {lines : List Line} {l : Line} {n : Nat}

theorem stateAfter_succ (h : lines[n]? = some l) :
    stateAfter lines (n + 1) = (Statement.compile (stateAfter lines n) l).state := by
  rw [stateAfter, List.take_add_one, h, (compileLines_append _ _ _).2]
  rfl

theorem faultsOf_take_succ (h : lines[n]? = some l) : faultsOf .initial (lines.take (n + 1)) =
    faultsOf .initial (lines.take n) ++ (Statement.compile (stateAfter lines n) l).fault.toList := by
  rw [List.take_add_one, h, (compileLines_append _ _ _).1, Option.toList_some, faultsOf_cons]
  exact congrArg _ (List.append_nil _)

end

namespace Pass

/-- **A pass between two lines**, with what the first `n` lines have left. -/
structure Between (tokens : List Token) (n : Nat) (p : Pass) : Prop where
  flag : p.inArguments = false
  state : p.state = stateAfter (Line.split tokens) n
  faults : p.faults = faultsOf .initial ((Line.split tokens).take n)
  lines : Line.split (tokens.drop p.pos) = (Line.split tokens).drop n
  closed : tokens.drop p.pos = [] ∨ Closed (tokens.drop p.pos)

section
variable {tokens : List Token} {n : Nat} {p q : Pass}

theorem between_initial (h : Closed tokens) : Between tokens 0 .initial := ⟨rfl, rfl, rfl, rfl, .inr h⟩

/-- **What is ahead of a pass between two lines**: nothing, or a line and what is behind it. -/
theorem Between.ahead (h : Between tokens n p) : (tokens.length ≤ p.pos ∧ (Line.split tokens).drop n = []) ∨
    ∃ body stop rest, Faces tokens stop (p.pos + body.length) p.pos body ∧
      tokens.drop (p.pos + body.length + 1) = rest ∧
      ((stop.kind = .endOfSource ∧ rest = []) ∨ (stop.kind = .endOfLine ∧ Closed rest)) ∧
      (Line.split tokens)[n]? = some ⟨body, stop⟩ ∧ (Line.split tokens).drop (n + 1) = Line.split rest := by
  rcases h.closed with hnil | hclosed
  · exact .inl ⟨List.drop_eq_nil_iff.1 hnil, by rw [← h.lines, hnil]; rfl⟩
  · obtain ⟨body, stop, rest, hdrop, hbody, hstop⟩ := hclosed.first_line
    have hends : stop.endsStatement = true := by
      rcases hstop with ⟨hk, -⟩ | ⟨hk, -⟩ <;> rw [Token.endsStatement, hk] <;> rfl
    have hlines : (Line.split tokens).drop n = ⟨body, stop⟩ :: Line.split rest := by
      rw [← h.lines, hdrop, split_append hends rest body hbody]
    refine .inr ⟨body, stop, rest, ⟨⟨rest, hdrop⟩, rfl, hbody, hends⟩, ?_, hstop, ?_, ?_⟩
    · rw [Nat.add_assoc, ← List.drop_drop, hdrop, ← List.drop_drop, List.drop_left]
      rfl
    · rw [← List.head?_drop, hlines]
      rfl
    · rw [← List.drop_drop, hlines]
      rfl

/-- **One turn goes from one line to the next.** -/
theorem Between.next (h : Between tokens n p) (hmore : (current tokens p).kind ≠ .endOfSource) :
    ∃ q, Pass.next tokens p = some q ∧ Between tokens (n + 1) q ∧ n < (Line.split tokens).length := by
  rcases h.ahead with ⟨hle, -⟩ | ⟨body, stop, rest, hfaces, hrest, hstop, hline, hlines⟩
  · rw [current, List.getElem?_eq_none hle] at hmore
    exact absurd rfl hmore
  · refine ⟨_, next_of_faces h.flag hfaces hmore, ⟨rfl, ?_, ?_, ?_, ?_⟩, List.getElem?_eq_some_iff.1 hline |>.1⟩
    · rw [stateAfter_succ hline, h.state]
    · rw [faultsOf_take_succ hline, h.faults, h.state]
    · simp only [hrest, hlines]
    · simp only [hrest]
      exact hstop.imp And.right And.right

/-- **Every pass that is visited stands between two lines.** -/
theorem between_of_visited (hclosed : Closed tokens) (h : Visited tokens p) : ∃ n, Between tokens n p := by
  induction h with
  | initial => exact ⟨0, between_initial hclosed⟩
  | @next p q _ hmore hnext ih =>
    obtain ⟨n, hn⟩ := ih
    obtain ⟨q', hq', hbetween, -⟩ := hn.next hmore
    rw [hnext] at hq'
    cases hq'
    exact ⟨n + 1, hbetween⟩

/-- **At the end of the source nothing is left** but an empty line, which changes nothing. -/
theorem Between.at_end (h : Between tokens n p) (hend : (current tokens p).kind = .endOfSource) :
    p.state = (compileLines .initial (Line.split tokens)).2 ∧ p.faults = faultsOf .initial (Line.split tokens) := by
  rw [h.state, h.faults]
  rcases h.ahead with ⟨-, hnil⟩ | ⟨body, stop, rest, hfaces, -, hstop, hline, hlines⟩
  · rw [stateAfter, List.take_of_length_le (List.drop_eq_nil_iff.1 hnil)]
    exact ⟨rfl, rfl⟩
  · have hcurrent : current tokens p = body.head?.getD stop := hfaces.current
    rw [hcurrent] at hend
    cases body with
    | cons t body =>
      have hkind : t.kind = .endOfSource := hend
      exact absurd (by rw [Token.endsStatement, hkind]; rfl) hfaces.not_ends
    | nil =>
      have hkind : stop.kind = .endOfSource := hend
      rcases hstop with ⟨-, rfl⟩ | ⟨hnewline, -⟩
      · have hall : (Line.split tokens).take (n + 1) = Line.split tokens :=
          List.take_of_length_le (List.drop_eq_nil_iff.1 hlines)
        have hstate : stateAfter (Line.split tokens) (n + 1) = stateAfter (Line.split tokens) n := stateAfter_succ hline
        have hfaults := faultsOf_take_succ hline
        rw [stateAfter, hall] at hstate
        rw [hall] at hfaults
        exact ⟨hstate.symm, by rw [hfaults]; exact (List.append_nil _).symm⟩
      · rw [hkind] at hnewline
        cases hnewline

/-- **The pass goes through all lines** to the end of the source. -/
theorem visited_end : ∀ (k : Nat) {n : Nat} {p : Pass}, (Line.split tokens).length ≤ n + k → Visited tokens p →
    Between tokens n p → ∃ q, Visited tokens q ∧ (current tokens q).kind = .endOfSource ∧
      q.state = (compileLines .initial (Line.split tokens)).2 ∧ q.faults = faultsOf .initial (Line.split tokens)
  | 0, n, p, hk, hp, h => by
    by_cases hend : (current tokens p).kind = .endOfSource
    · exact ⟨p, hp, hend, h.at_end hend⟩
    · obtain ⟨-, -, -, hlt⟩ := h.next hend
      omega
  | k + 1, n, p, hk, hp, h => by
    by_cases hend : (current tokens p).kind = .endOfSource
    · exact ⟨p, hp, hend, h.at_end hend⟩
    · obtain ⟨q, hq, hbetween, -⟩ := h.next hend
      exact visited_end k (by omega) (.next hp hend hq) hbetween

end
end Pass
end Autoscript.Script
