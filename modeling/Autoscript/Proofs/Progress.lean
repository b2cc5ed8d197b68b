import Autoscript.Proofs.Settled
/-!
# Progress — the pass always comes to its end

The cursor goes back in one place only, where an argument is over because the next one begins; there it undoes a step that
it has just made.  So no turn of a scan leaves the cursor behind where it was (`turned`), and an expression that is compiled
takes at least the token of its value (`expression_cases`), whatever the tokens are.  Every statement then goes on
(`Forward`), the loop over statements is a function that comes to an end (`statements`), and what is pending on the way is
never an operator that has no instruction.
-/
namespace Autoscript

/-- Writes a word over the bytes at a position.  There is no such place if it reaches beyond the last byte. -/
def Program.patch? (program : List UInt8) (pos : Nat) (w : Word) : Option (List UInt8) :=
  if pos + Word.size ≤ program.length then some (program.take pos ++ w.bytes ++ program.drop (pos + Word.size)) else none

namespace Script

/-- The place of the frame's size: behind the header and the opcode of the first instruction. -/
def frameSizePlace : Nat := Program.headerSize + 1

/-- **The place of the frame's size is inside the code**, which is a program once it is filled in. -/
theorem patch_bytes (s : State) : Program.patch? (s.emit [.halt]).bytes frameSizePlace
    (UInt32.ofNat s.scopes.globals.size) = some (Program.assemble s.program) := by
  have hlength : frameSizePlace + Word.size ≤ (s.emit [.halt]).bytes.length := by
    have hwidth : Program.width (.setupFrame 0 :: (s.emit [.halt]).code) = 5 + Program.width (s.emit [.halt]).code := rfl
    rw [State.bytes, Program.length_assemble, hwidth, frameSizePlace, Word.size]
    omega
  rw [Program.patch?, if_pos hlength]
  rfl

namespace Pass

/-! ## Turns of a scan -/

section
variable (tokens : List Token)

/-- **What a turn can do**: the expression is over at the cursor or at the next token, or the next token is taken in or
refused. -/
inductive Turned (p : Pass) : EStateM.Result Break Pass (Option (List Operator × Bool)) → Prop where
  | stays : Turned p (.ok none p)
  | ends : p.pos < tokens.length → Turned p (.ok none { p with pos := p.pos + 1 })
  | takes (code : List Instr) (pending : List Pending) (after : Bool) : p.pos < tokens.length →
      Turned p (.ok (some (pending.map waiting, after)) { p.emit code with pos := p.pos + 1 })
  | refuses (code : List Instr) (f : Fault) : p.pos < tokens.length →
      Turned p (.error (.fault f) { p.emit code with pos := p.pos + 1 })

theorem turned (ty : Ty) (pending : List Pending) (afterValue : Bool) (p : Pass) :
    Turned tokens p (turn tokens ty (pending.map waiting) afterValue p) := by
  by_cases hp : p.pos < tokens.length
  · have hturn : turn tokens ty (pending.map waiting) afterValue p =
        if (current tokens { p with pos := p.pos + 1 }).endsStatement then .ok none { p with pos := p.pos + 1 }
        else takeIn ty (pending.map waiting) afterValue (current tokens { p with pos := p.pos + 1 })
          { p with pos := p.pos + 1 } := by
      simp [turn, advance_of_lt tokens hp]
    rw [hturn, takeIn_eq]
    by_cases hend : (current tokens { p with pos := p.pos + 1 }).endsStatement = true
    · rw [if_pos hend]
      exact .ends hp
    · rw [if_neg hend]
      cases Scan.step p.state.names ty p.inArguments pending afterValue (current tokens { p with pos := p.pos + 1 }) with
      | takes code pending' after => exact .takes code pending' after hp
      | refuses code f => exact .refuses code f hp
      | leaves => exact .stays
  · -- behind the last token the source is over
    have hstay : advance tokens p = p := if_neg hp
    have hover : current tokens p = ⟨.endOfSource, 0⟩ := by
      rw [current, List.getElem?_eq_none (Nat.not_lt.1 hp)]
      rfl
    have hturn : turn tokens ty (pending.map waiting) afterValue p = .ok none p := by
      simp [turn, hstay, hover, Token.endsStatement, Token.Kind.endsStatement]
    rw [hturn]
    exact .stays

/-- **The turns of a scan**, from an expression behind the cursor on: what is pending after some of them, whether an
operator is due, and the pass. -/
inductive Scans (ty : Ty) (p : Pass) : List Operator → Bool → Pass → Prop where
  | start : Scans ty p [] false p
  | turn {pending : List Operator} {afterValue : Bool} {next : List Operator × Bool} {q r : Pass} :
      Scans ty p pending afterValue q → turn tokens ty pending afterValue q = .ok (some next) r → Scans ty p next.1 next.2 r

variable {tokens}

/-- **The invariant of a scan**: what is pending came from what can wait, the cursor is within the tokens and not behind where
it was, and behind a value it is further on. -/
theorem Scans.invariant {ty : Ty} {p q : Pass} {pending : List Operator} {afterValue : Bool} (hp : p.pos ≤ tokens.length)
    (h : Scans tokens ty p pending afterValue q) : (∃ held : List Pending, pending = held.map waiting) ∧
      p.pos ≤ q.pos ∧ q.pos ≤ tokens.length ∧ (afterValue = true → p.pos < q.pos) := by
  induction h with
  | start => exact ⟨⟨[], rfl⟩, Nat.le_refl _, hp, fun h => by cases h⟩
  | @turn pending afterValue next q r _ hturn ih =>
    obtain ⟨⟨held, rfl⟩, hle, -, -⟩ := ih
    have hturned := turned tokens ty held afterValue q
    rw [hturn] at hturned
    cases hturned with
    | takes code held' after hq => exact ⟨⟨held', rfl⟩, Nat.le_succ_of_le hle, hq, fun _ => Nat.lt_succ_of_le hle⟩

/-- **A scan ends**: some turn of it takes in nothing more, or is refused. -/
theorem Scans.ends {ty : Ty} {p q : Pass} {pending : List Operator} {afterValue : Bool}
    (h : Scans tokens ty p pending afterValue q) : ∃ pending' afterValue' q', Scans tokens ty p pending' afterValue' q' ∧
      ((∃ r, Pass.turn tokens ty pending' afterValue' q' = .ok none r ∧
        scan tokens ty pending afterValue q = .ok (pending', afterValue') r) ∨
      ∃ b r, Pass.turn tokens ty pending' afterValue' q' = .error b r ∧ scan tokens ty pending afterValue q = .error b r) := by
  rw [scan_eq]
  cases hturn : Pass.turn tokens ty pending afterValue q with
  | error b r => exact ⟨pending, afterValue, q, h, .inr ⟨b, r, hturn, rfl⟩⟩
  | ok next r =>
    cases next with
    | none => exact ⟨pending, afterValue, q, h, .inl ⟨r, hturn, rfl⟩⟩
    | some next => exact (h.turn hturn).ends
termination_by tokens.length - q.pos
decreasing_by exact turn_moves tokens hturn

end

/-! ## Going on -/

section
variable (tokens : List Token)

/-- **Where an action leaves the cursor**: not behind where it was, and within the tokens.  If it breaks off, it is with a
fault. -/
def Onward {α : Type} (p : Pass) : EStateM.Result Break Pass α → Prop
  | .ok _ q => p.pos ≤ q.pos ∧ q.pos ≤ tokens.length
  | .error b q => p.pos ≤ q.pos ∧ q.pos ≤ tokens.length ∧ b ≠ .impossible

/-- **An action that never takes the cursor back**, nor beyond the tokens. -/
def Forward {α : Type} (x : Action α) : Prop := ∀ p, p.pos ≤ tokens.length → Onward tokens p (x p)

variable {tokens} {α β : Type}

theorem forward_pure (a : α) : Forward tokens (pure a) := fun _ hp => ⟨Nat.le_refl _, hp⟩

theorem forward_refuse (f : Fault) : Forward tokens (refuse f : Action α) := fun _ hp =>
  ⟨Nat.le_refl _, hp, fun h => by cases h⟩

theorem forward_get : Forward tokens (get : Action Pass) := fun _ hp => ⟨Nat.le_refl _, hp⟩

/-- What leaves the cursor alone. -/
theorem forward_modify {g : Pass → Pass} (hg : ∀ p, (g p).pos = p.pos) : Forward tokens (modify g : Action PUnit) := by
  intro p hp
  show p.pos ≤ (g p).pos ∧ (g p).pos ≤ tokens.length
  rw [hg]
  exact ⟨Nat.le_refl _, hp⟩

theorem advance_bounds {p : Pass} (hp : p.pos ≤ tokens.length) :
    p.pos ≤ (advance tokens p).pos ∧ (advance tokens p).pos ≤ tokens.length := by
  unfold advance
  split
  · rename_i hlt
    exact ⟨Nat.le_succ _, hlt⟩
  · exact ⟨Nat.le_refl _, hp⟩

theorem forward_advance : Forward tokens (modify (advance tokens) : Action PUnit) := fun _ hp => advance_bounds hp

theorem Onward.since {p q : Pass} {r : EStateM.Result Break Pass α} (h : Onward tokens q r) (hle : p.pos ≤ q.pos) :
    Onward tokens p r := by
  cases r with
  | ok a q' => exact ⟨Nat.le_trans hle h.1, h.2⟩
  | error b q' => exact ⟨Nat.le_trans hle h.1, h.2⟩

theorem forward_bind {x : Action α} {f : α → Action β} (hx : Forward tokens x) (hf : ∀ a, Forward tokens (f a)) :
    Forward tokens (x >>= f) := by
  intro p hp
  have hfirst := hx p hp
  rw [bind_apply]
  cases h : x p with
  | error b q =>
    rw [h] at hfirst
    exact hfirst
  | ok a q =>
    rw [h] at hfirst
    exact (hf a q hfirst.2).since hfirst.1

theorem forward_ite {c : Prop} [Decidable c] {x y : Action α} (hx : Forward tokens x) (hy : Forward tokens y) :
    Forward tokens (if c then x else y) := by
  by_cases h : c
  · rw [if_pos h]; exact hx
  · rw [if_neg h]; exact hy

end

/-! ## Expressions -/

section
variable {tokens : List Token}

/-- **How an expression ends**: with the cursor further on, or with a fault and the cursor not behind where it was.  It can
only be compiled if a value was taken in, so that every argument of a list takes a token. -/
theorem expression_cases (ty : Ty) {p : Pass} (hp : p.pos ≤ tokens.length) :
    (∃ q, expression tokens ty p = .ok () q ∧ p.pos < q.pos ∧ q.pos ≤ tokens.length) ∨
      ∃ f q, expression tokens ty p = .error (.fault f) q ∧ p.pos ≤ q.pos ∧ q.pos ≤ tokens.length := by
  by_cases hfirst : (current tokens p).endsStatement = true
  · exact .inr ⟨_, p, by simp [expression, hfirst]; rfl, Nat.le_refl _, hp⟩
  · have hexpression : expression tokens ty p = remainder tokens ty [] false p := by simp [expression, hfirst]
    have hstart : Scans tokens ty p [] false p := .start
    obtain ⟨pending, afterValue, q, hscans, hend⟩ := hstart.ends
    obtain ⟨⟨held, rfl⟩, hle, hlength, hvalue⟩ := hscans.invariant hp
    have hturned := turned tokens ty held afterValue q
    rw [hexpression, remainder]
    rcases hend with ⟨r, hturn, hscan⟩ | ⟨b, r, hturn, hscan⟩
    · -- the last turn leaves the cursor at `q` or takes it to the token that ends the line
      have hr : q.pos ≤ r.pos ∧ r.pos ≤ tokens.length := by
        rw [hturn] at hturned
        cases hturned with
        | stays => exact ⟨Nat.le_refl _, hlength⟩
        | ends hq => exact ⟨Nat.le_succ _, hq⟩
      rw [hscan]
      rcases close_cases tokens held afterValue r with ⟨code, rfl, hclose⟩ | ⟨code, f, hclose⟩
      · exact .inl ⟨_, hclose, Nat.lt_of_lt_of_le (hvalue rfl) hr.1, hr.2⟩
      · exact .inr ⟨f, _, hclose, Nat.le_trans hle hr.1, hr.2⟩
    · rw [hturn] at hturned
      rw [hscan]
      cases hturned with
      | refuses code f hq => exact .inr ⟨f, _, rfl, Nat.le_succ_of_le hle, hq⟩

theorem forward_expression (ty : Ty) : Forward tokens (expression tokens ty) := by
  intro p hp
  rcases expression_cases ty hp with ⟨q, h, hlt, hlength⟩ | ⟨f, q, h, hle, hlength⟩
  · rw [h]
    exact ⟨Nat.le_of_lt hlt, hlength⟩
  · rw [h]
    exact ⟨hle, hlength, fun hb => by cases hb⟩

theorem forward_expressions (ty : Ty) : ∀ n, Forward tokens (expressions tokens ty n)
  | 0 => forward_pure ()
  | n + 1 => forward_bind (forward_expression ty) fun _ => forward_expressions ty n

/-! ## Statements -/

theorem forward_finishStatement : Forward tokens (finishStatement tokens) := by
  refine forward_bind forward_get fun p => forward_ite (forward_pure _) ?_
  exact forward_bind forward_advance fun _ => forward_bind forward_get fun q => forward_ite (forward_pure _) (forward_refuse _)

theorem forward_nameAfter (k : Keyword) : Forward tokens (nameAfter tokens k) := by
  refine forward_bind forward_advance fun _ => forward_bind forward_get fun p => ?_
  dsimp only
  split
  · exact forward_pure _
  · exact forward_refuse _

theorem forward_declaration (ty : Ty) : Forward tokens (declaration tokens ty) := by
  refine forward_bind (forward_nameAfter _) fun r => forward_bind forward_get fun p => ?_
  dsimp only
  split
  · exact forward_refuse _
  · exact forward_bind (forward_modify fun _ => rfl) fun _ => forward_finishStatement

theorem forward_start (line : Nat) : Forward tokens (start tokens line) := by
  refine forward_bind forward_get fun p => forward_ite (forward_refuse _) ?_
  refine forward_bind (forward_nameAfter _) fun r => forward_bind forward_get fun q => forward_ite (forward_refuse _) ?_
  exact forward_bind (forward_modify fun _ => rfl) fun _ => forward_finishStatement

theorem forward_finish (line : Nat) : Forward tokens (finish tokens line) := by
  refine forward_bind forward_get fun p => forward_ite ?_ (forward_refuse _)
  exact forward_bind (forward_modify fun _ => rfl) fun _ => forward_finishStatement

theorem forward_display : Forward tokens (display tokens) := by
  refine forward_bind (forward_nameAfter _) fun r => forward_bind forward_get fun p => ?_
  split
  · exact forward_refuse _
  · exact forward_bind (forward_modify fun _ => rfl) fun _ => forward_finishStatement

/-- The flag of a list of arguments does not move the cursor. -/
theorem forward_arguments (ty : Ty) (count : Nat) : Forward tokens (arguments tokens ty count) := by
  intro p hp
  have h := forward_expressions ty count { p with inArguments := true } hp
  unfold arguments
  cases hr : expressions tokens ty count { p with inArguments := true } with
  | ok u q =>
    rw [hr] at h
    exact h
  | error b q =>
    rw [hr] at h
    exact h

theorem forward_action (ty : Ty) (count : Nat) (act : Instr) : Forward tokens (action tokens ty count act) := by
  refine forward_bind (forward_modify fun _ => rfl) fun _ => forward_bind (forward_arguments ty count) fun _ => ?_
  exact forward_bind (forward_modify fun _ => rfl) fun _ => forward_finishStatement

theorem forward_assignment (name : String) (line : Nat) : Forward tokens (assignment tokens name line) := by
  refine forward_bind forward_get fun p => ?_
  cases p.state.names.symbol name line with
  | error f => exact forward_refuse _
  | ok symbol =>
    refine forward_bind forward_advance fun _ => forward_bind forward_get fun q => forward_ite ?_ (forward_refuse _)
    refine forward_bind (forward_modify fun _ => rfl) fun _ => ?_
    exact forward_bind (forward_expression symbol.ty) fun _ => forward_modify fun _ => rfl

theorem forward_builtin (k : Keyword) (line : Nat) : Forward tokens (builtin tokens k line) := by
  cases k with
  | declare ty => exact forward_declaration ty
  | start => exact forward_start line
  | finish => exact forward_finish line
  | display => exact forward_display
  | move => exact forward_action .int 2 .move
  | delay => exact forward_action .float 1 .delay
  | drag | click | type | mod => exact forward_refuse _

/-- **A statement never takes the cursor back**, and what breaks it off is a fault. -/
theorem forward_statement (t : Token) : Forward tokens (statement tokens t) := by
  unfold statement
  cases t.kind with
  | name name => exact forward_assignment name t.line
  | keyword k => exact forward_builtin k t.line
  | operator | text | int | float | endOfLine | endOfSource => exact forward_refuse _

/-! ## The rest of a line -/

variable (tokens) in
/-- **Skipping stops where a line ends.** -/
theorem synchronize_ends (p : Pass) : (current tokens (synchronize tokens p)).endsStatement = true ∧
    p.pos ≤ (synchronize tokens p).pos ∧ (p.pos ≤ tokens.length → (synchronize tokens p).pos ≤ tokens.length) := by
  rw [synchronize]
  by_cases hend : (current tokens p).endsStatement = true
  · rw [dif_pos hend]
    exact ⟨hend, Nat.le_refl _, id⟩
  · rw [dif_neg hend]
    have hlt := pos_lt_of_current tokens hend
    obtain ⟨hstop, hle, hlength⟩ := synchronize_ends (advance tokens p)
    have hbounds := advance_bounds (Nat.le_of_lt hlt)
    exact ⟨hstop, Nat.le_trans hbounds.1 hle, fun _ => hlength hbounds.2⟩
termination_by tokens.length - p.pos
decreasing_by
  rw [advance_of_lt tokens hlt]
  exact Nat.sub_lt_sub_left hlt (Nat.lt_succ_self _)

/-- In a source that was read there is a token where it stops. -/
theorem synchronize_within (hclosed : Closed tokens) {p : Pass} (hp : p.pos < tokens.length) :
    (synchronize tokens p).pos < tokens.length := by
  rw [synchronize]
  by_cases hend : (current tokens p).endsStatement = true
  · rw [dif_pos hend]
    exact hp
  · rw [dif_neg hend, advance_of_lt tokens hp]
    -- the last token ends the source, so this one is not the last
    have hnext : p.pos + 1 < tokens.length := by
      obtain ⟨init, last, rfl, hlast, -⟩ := hclosed
      rw [List.length_append, List.length_singleton] at hp ⊢
      by_contra hge
      have hpos : p.pos = init.length := by omega
      rw [current, hpos, List.getElem?_concat_length, Option.getD_some, Token.endsStatement, hlast] at hend
      exact hend rfl
    exact synchronize_within hclosed hnext
termination_by tokens.length - p.pos

/-! ## The loop over statements -/

/-- **Each turn of the loop goes on**, whatever the statement does, and is never stopped by an impossible case. -/
theorem next_moves {p : Pass} (h : (current tokens p).kind ≠ .endOfSource) :
    ∃ q, next tokens p = some q ∧ p.pos < q.pos ∧ q.pos ≤ tokens.length := by
  have hlt : p.pos < tokens.length := by
    by_contra hp
    rw [current, List.getElem?_eq_none (Nat.not_lt.1 hp)] at h
    exact h rfl
  -- the step behind the statement is the one that counts, unless the tokens are over already
  have hstep {q : Pass} (hle : p.pos ≤ q.pos) (hlength : q.pos ≤ tokens.length) :
      p.pos < (advance tokens q).pos ∧ (advance tokens q).pos ≤ tokens.length := by
    refine ⟨?_, (advance_bounds hlength).2⟩
    by_cases hq : q.pos < tokens.length
    · rw [advance_of_lt tokens hq]
      exact Nat.lt_succ_of_le hle
    · rw [advance, if_neg hq]
      omega
  by_cases hline : (current tokens p).kind = .endOfLine
  · refine ⟨advance tokens { p with inArguments := false }, by simp only [next, if_pos hline], ?_⟩
    exact hstep (q := { p with inArguments := false }) (Nat.le_refl _) (Nat.le_of_lt hlt)
  · have honward := forward_statement (current tokens p) p (Nat.le_of_lt hlt)
    simp only [next, if_neg hline]
    cases hr : statement tokens (current tokens p) p with
    | ok u q =>
      rw [hr] at honward
      exact ⟨_, rfl, hstep honward.1 honward.2⟩
    | error b q =>
      rw [hr] at honward
      obtain ⟨hle, hlength, hb⟩ := honward
      cases b with
      | impossible => exact absurd rfl hb
      | fault f =>
        obtain ⟨-, hskip, hbound⟩ := synchronize_ends tokens { q with faults := q.faults ++ [f] }
        exact ⟨_, rfl, hstep (Nat.le_trans hle hskip) (hbound hlength)⟩

variable (tokens) in
/-- **The loop over statements**, to the end of the source.  It would have no answer after an impossible case. -/
def statements (p : Pass) : Option Pass :=
  if _hend : (current tokens p).kind = .endOfSource then some p
  else
    match _hnext : next tokens p with
    | none => none
    | some q => statements q
termination_by tokens.length - p.pos
decreasing_by
  obtain ⟨r, hr, hlt, hlength⟩ := next_moves _hend
  cases _hnext.symm.trans hr
  omega

/-- **The loop comes to the end of the source** from every pass that is visited. -/
theorem statements_end {p : Pass} (h : Visited tokens p) : ∃ q, statements tokens p = some q ∧ Visited tokens q ∧
    (current tokens q).kind = .endOfSource := by
  rw [statements]
  by_cases hend : (current tokens p).kind = .endOfSource
  · rw [dif_pos hend]
    exact ⟨p, rfl, h, hend⟩
  · rw [dif_neg hend]
    obtain ⟨q, hnext, hlt, hlength⟩ := next_moves hend
    split
    · rename_i hnone
      cases hnext.symm.trans hnone
    · rename_i r hr
      cases hnext.symm.trans hr
      exact statements_end (.next h hend hnext)
termination_by tokens.length - p.pos
decreasing_by omega

end
end Pass

open Pass in
/-- **The compiler comes to its end, and never into an impossible case.**  Whatever pass it starts from, a turn of the loop
leaves the cursor further on, a statement never takes it back or beyond the tokens, and breaks off with a fault only;
skipping stops where a line ends.  In the scan of an expression only parentheses and the operators with an instruction are
pending, and one that is compiled takes a token at least.  So the loop has an answer, at the end of the source: there the
place of the frame's size is inside the code, and what has been emitted and reported is what the source is compiled to. -/
theorem pass_comes_to_end {source : String} {tokens : List Token} (hlex : Lexer.lex source = .ok tokens) :
    (∀ p, (current tokens p).kind ≠ .endOfSource →
      ∃ q, next tokens p = some q ∧ p.pos < q.pos ∧ q.pos ≤ tokens.length) ∧
    (∀ t, Forward tokens (statement tokens t)) ∧
    (∀ p, (current tokens (synchronize tokens p)).endsStatement = true ∧ p.pos ≤ (synchronize tokens p).pos ∧
      (p.pos < tokens.length → (synchronize tokens p).pos < tokens.length)) ∧
    (∀ ty p, p.pos ≤ tokens.length →
      (∀ pending afterValue q, Scans tokens ty p pending afterValue q →
        (∀ op ∈ pending, op = .leftParen ∨ ∃ a, op = .arith a) ∧ p.pos ≤ q.pos ∧ q.pos ≤ tokens.length) ∧
      ∀ q, expression tokens ty p = .ok () q → p.pos < q.pos) ∧
    ∃ q, statements tokens .initial = some q ∧ (current tokens q).kind = .endOfSource ∧
      Program.patch? (q.state.emit [.halt]).bytes frameSizePlace (UInt32.ofNat q.state.scopes.globals.size) =
        some (Program.assemble q.state.program) ∧
      compile source = if q.faults ++ (unfinished q.state).toList = [] then .ok (Program.assemble q.state.program)
        else .error (.invalid (q.faults ++ (unfinished q.state).toList)) := by
  have hclosed := closed_of_lex hlex
  refine ⟨fun p => next_moves, forward_statement, fun p => ?_, fun ty p hp => ⟨fun pending afterValue q hscans => ?_, ?_⟩, ?_⟩
  · obtain ⟨hstop, hle, -⟩ := synchronize_ends tokens p
    exact ⟨hstop, hle, synchronize_within hclosed⟩
  · obtain ⟨⟨held, rfl⟩, hle, hlength, -⟩ := hscans.invariant hp
    refine ⟨fun op hop => ?_, hle, hlength⟩
    obtain ⟨i, -, rfl⟩ := List.mem_map.1 hop
    cases i with
    | paren => exact .inl rfl
    | arith a => exact .inr ⟨a, rfl⟩
  · intro q hq
    rcases expression_cases ty hp with ⟨q', h, hlt, -⟩ | ⟨f, q', h, -, -⟩
    · cases hq.symm.trans h
      exact hlt
    · cases hq.symm.trans h
  · have hinitial : Visited tokens .initial := .initial
    obtain ⟨q, hq, hvisited, hend⟩ := statements_end hinitial
    obtain ⟨n, hn⟩ := between_of_visited hclosed hvisited
    obtain ⟨hstate, hfaults⟩ := hn.at_end hend
    refine ⟨q, hq, hend, patch_bytes q.state, ?_⟩
    rw [compile, analyse, hlex, hstate, hfaults]
    rfl

open Pass in
/-- The second argument goes back to where it begins, the third is refused there; on the next line a parenthesis is still
open at its end, and the last one has no value. -/
theorem pass_comes_to_end_in_arguments : ∃ tokens, Lexer.lex "move 1 2 3\nmove (1\ndelay" = .ok tokens ∧
    (∃ q, next tokens .initial = some q ∧ 0 < q.pos) ∧
    ∃ q, statements tokens .initial = some q ∧ (current tokens q).kind = .endOfSource ∧
      compile "move 1 2 3\nmove (1\ndelay" = if q.faults ++ (unfinished q.state).toList = []
        then .ok (Program.assemble q.state.program) else .error (.invalid (q.faults ++ (unfinished q.state).toList)) := by
  have hlex : Lexer.lex "move 1 2 3\nmove (1\ndelay" = .ok [⟨.keyword .move, 1⟩, ⟨.int 1, 1⟩, ⟨.int 2, 1⟩, ⟨.int 3, 1⟩,
      ⟨.endOfLine, 1⟩, ⟨.keyword .move, 2⟩, ⟨.operator .leftParen, 2⟩, ⟨.int 1, 2⟩, ⟨.endOfLine, 2⟩, ⟨.keyword .delay, 3⟩,
      ⟨.endOfSource, 3⟩] := by decide +kernel
  obtain ⟨hmoves, -, -, -, q, hq, hend, -, hcompile⟩ := pass_comes_to_end hlex
  obtain ⟨r, hr, hlt, -⟩ := hmoves .initial (by decide)
  exact ⟨_, hlex, ⟨r, hr, hlt⟩, q, hq, hend, hcompile⟩

end Script
end Autoscript
