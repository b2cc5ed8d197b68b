import Autoscript.Script.Compile
import Autoscript.Proofs.Scan
/-!
# Syntax — what the lines of a script say

Each line of an accepted script is one statement (`Written`), and a line says one statement at most (`Written.unique`).
What a statement may use is a matter of the lines before it: a `View` keeps the declarations of the script and of the
function being defined, the newest first, and the function names taken.  A variable is the most recent declaration of
its name in the scope in view, and the `k`-th declaration of a scope has the offset `4 * k`.
-/
namespace Autoscript.Script

inductive Stmt where
  | blank
  | declare (ty : Ty) (name : String)
  | assign (name : String) (value : Expr)
  | display (name : String)
  | move (x y : Expr)
  | delay (seconds : Expr)
  | start (name : String)
  | finish
deriving DecidableEq

/-- **What the tokens of a line say.** -/
inductive Written : List Token.Kind → Stmt → Prop where
  | blank : Written [] .blank
  | declare (ty : Ty) (x : String) : Written [.keyword (.declare ty), .name x] (.declare ty x)
  | assign (x : String) {ks : List Token.Kind} {e : Expr} : Derives .sum ks e →
      Written (.name x :: .operator .assign :: ks) (.assign x e)
  | display (x : String) : Written [.keyword .display, .name x] (.display x)
  | move {ks : List Token.Kind} {a b : Expr} : Row ks [a, b] → Written (.keyword .move :: ks) (.move a b)
  | delay {ks : List Token.Kind} {a : Expr} : Row ks [a] → Written (.keyword .delay :: ks) (.delay a)
  | start (f : String) : Written [.keyword .start, .name f] (.start f)
  | finish : Written [.keyword .finish] .finish

/-- **A line says one statement at most.** -/
theorem Written.unique {ks : List Token.Kind} {s s' : Stmt} (h : Written ks s) (h' : Written ks s') : s = s' := by
  cases h with
  | blank | declare | display | start | finish => cases h'; rfl
  | assign x h =>
    cases h' with
    | assign _ h' => rw [h.unique h']
  | move h =>
    cases h' with
    | move h' => cases h.unique h'; rfl
  | delay h =>
    cases h' with
    | delay h' => cases h.unique h'; rfl

/-- **What the tokens of a source say**: a statement on each line, the last line ended by the end of the source. -/
inductive Reads : List Token.Kind → List Stmt → Prop where
  | last {ks : List Token.Kind} {s : Stmt} : Written ks s → Reads (ks ++ [.endOfSource]) [s]
  | line {ks ts : List Token.Kind} {s : Stmt} {ss : List Stmt} : Written ks s → Reads ts ss →
      Reads (ks ++ .endOfLine :: ts) (s :: ss)

/-! ## Lines -/

/-- The tokens that statements are written with. -/
def inStatement : Token.Kind → Bool
  | .text _ | .endOfLine | .endOfSource => false
  | _ => true

theorem Derives.kinds {r : Rank} {ks : List Token.Kind} {e : Expr} (h : Derives r ks e) :
    ∀ k ∈ ks, inStatement k = true := by
  induction h with
  | int | float | name => simp [inStatement]
  | paren _ ih =>
    intro k hk
    rcases List.mem_cons.1 hk with rfl | hk
    · rfl
    · rcases List.mem_append.1 hk with hk | hk
      · exact ih k hk
      · rw [List.mem_singleton.1 hk]; rfl
  | widen _ ih => exact ih
  | binary op _ _ ihl ihr =>
    intro k hk
    rcases List.mem_append.1 hk with hk | hk
    · exact ihl k hk
    · rcases List.mem_cons.1 hk with rfl | hk
      · rfl
      · exact ihr k hk

theorem Row.kinds {ks : List Token.Kind} {es : List Expr} (h : Row ks es) : ∀ k ∈ ks, inStatement k = true := by
  induction h with
  | nil => simp
  | cons hd _ ih =>
    intro k hk
    rcases List.mem_append.1 hk with hk | hk
    · exact hd.kinds k hk
    · exact ih k hk

theorem Written.kinds {ks : List Token.Kind} {s : Stmt} (h : Written ks s) : ∀ k ∈ ks, inStatement k = true := by
  cases h with
  | blank | declare | display | start | finish => simp [inStatement]
  | assign x h => simpa [inStatement] using h.kinds
  | move h => simpa [inStatement] using h.kinds
  | delay h => simpa [inStatement] using h.kinds

theorem Written.within {ks : List Token.Kind} {s : Stmt} (h : Written ks s) : ∀ k ∈ ks, k.endsStatement = false := by
  intro k hk
  have hin := h.kinds k hk
  cases k with
  | endOfLine | endOfSource => cases hin
  | _ => rfl

def Line.kinds (l : Line) : List Token.Kind := l.body.map Token.kind

theorem split_append {stop : Token} (hs : stop.endsStatement = true) (ts : List Token) :
    ∀ body : List Token, (∀ t ∈ body, t.endsStatement = false) →
      Line.split (body ++ stop :: ts) = ⟨body, stop⟩ :: Line.split ts
  | [], _ => by simp [Line.split, hs]
  | t :: body, h => by
    have ht : t.endsStatement = false := h t List.mem_cons_self
    have ih := split_append hs ts body fun u hu => h u (List.mem_cons_of_mem _ hu)
    simp [Line.split, ht, ih, Line.cons]

/-- **The lines of a source that reads as a script say its statements.** -/
theorem Reads.lines {ks : List Token.Kind} {script : List Stmt} (h : Reads ks script) : ∀ {tokens : List Token},
    tokens.map Token.kind = ks → List.Forall₂ (fun l s => Written (Line.kinds l) s) (Line.split tokens) script := by
  have within {ks : List Token.Kind} {s : Stmt} {body : List Token} (hw : Written ks s)
      (hb : body.map Token.kind = ks) : ∀ t ∈ body, t.endsStatement = false := fun t ht =>
    hw.within t.kind (by rw [← hb]; exact List.mem_map_of_mem ht)
  induction h with
  | last hw =>
    intro tokens hk
    obtain ⟨body, us, rfl, hb, hu⟩ := List.map_eq_append_iff.1 hk
    obtain ⟨stop, rfl, hs⟩ := List.map_eq_singleton_iff.1 hu
    rw [split_append (by rw [Token.endsStatement, hs]; rfl) [] body (within hw hb)]
    exact .cons (by rw [Line.kinds, hb]; exact hw) .nil
  | line hw _ ih =>
    intro tokens hk
    obtain ⟨body, us, rfl, hb, hu⟩ := List.map_eq_append_iff.1 hk
    obtain ⟨stop, ts, rfl, hs, hts⟩ := List.map_eq_cons_iff.1 hu
    rw [split_append (by rw [Token.endsStatement, hs]; rfl) ts body (within hw hb)]
    exact .cons (by rw [Line.kinds, hb]; exact hw) (ih hts)

/-- **A source reads as one script at most.** -/
theorem Reads.unique {tokens : List Token} {script script' : List Stmt} (h : Reads (tokens.map Token.kind) script)
    (h' : Reads (tokens.map Token.kind) script') : script = script' := by
  have hl := h.lines rfl
  have hl' := h'.lines rfl
  clear h h'
  generalize Line.split tokens = ls at hl hl'
  induction hl generalizing script' with
  | nil => cases hl'; rfl
  | cons hw _ ih =>
    cases hl' with
    | cons hw' hl' => rw [hw.unique hw', ih hl']

/-! ## The tokens of a source -/

/-- A list of tokens that ends with the end of the source, and nowhere else. -/
def Closed (tokens : List Token) : Prop :=
  ∃ init last, tokens = init ++ [last] ∧ last.kind = .endOfSource ∧ ∀ t ∈ init, t.kind ≠ .endOfSource

theorem Closed.append {ts us : List Token} (h : ∀ t ∈ ts, t.kind ≠ .endOfSource) (hu : Closed us) : Closed (ts ++ us) := by
  obtain ⟨init, last, rfl, hl, hi⟩ := hu
  refine ⟨ts ++ init, last, by simp, hl, fun t ht => ?_⟩
  rcases List.mem_append.1 ht with ht | ht
  · exact h t ht
  · exact hi t ht

theorem classify_within (w : List Char) : (Lexer.classify w).endsStatement = false := by
  unfold Lexer.classify
  split
  · rfl
  · split
    · rfl
    · split <;> rfl

theorem classify_ne {k : Token.Kind} (hk : k.endsStatement = true) (w : List Char) : Lexer.classify w ≠ k := by
  intro h
  have hw := classify_within w
  rw [h, hk] at hw
  cases hw

/-- The items of a character: the end of a line is the only one that ends a statement. -/
def EndsAt (c : Char) (is : List Lexer.Item) : Prop :=
  ∀ t ∈ Lexer.tokens is, t.endsStatement = true → c = '\n' ∧ t.kind = .endOfLine

theorem endsAt_ite {c : Char} {p : Prop} [Decidable p] {a b : List Lexer.Item × Lexer.State} (ha : p → EndsAt c a.1)
    (hb : EndsAt c b.1) : EndsAt c (if p then a else b).1 := by
  by_cases hp : p
  · rw [if_pos hp]; exact ha hp
  · rw [if_neg hp]; exact hb

theorem endsAt_fresh (line : Nat) (c : Char) : EndsAt c (Lexer.fresh line c).1 := by
  unfold Lexer.fresh
  repeat' apply endsAt_ite
  all_goals simp [EndsAt, Lexer.tokens, Lexer.found, Lexer.failed, Token.endsStatement, Token.Kind.endsStatement]

theorem endsAt_step (s : Lexer.State) (c : Char) : EndsAt c (Lexer.step s c).1 := by
  have hf := endsAt_fresh s.line c
  have hnone : EndsAt c [] := fun t ht => by cases ht
  have hfound {line : Nat} {k : Token.Kind} (hk : k.endsStatement = false) {is : List Lexer.Item} (h : EndsAt c is) :
      EndsAt c (Lexer.found line k :: is) := by
    simpa [EndsAt, Lexer.tokens, Lexer.found, Token.endsStatement, hk] using h
  unfold Lexer.step
  split
  · exact hf
  · split
    · exact hnone
    · exact hfound (classify_within _) hf
  · split
    · exact hfound rfl hnone
    · exact hnone
  · split
    · exact hfound rfl hnone
    · exact hf

theorem step_ne_end (s : Lexer.State) (c : Char) : ∀ t ∈ Lexer.tokens (Lexer.step s c).1, t.kind ≠ .endOfSource := by
  intro t ht hk
  have he := endsAt_step s c t ht (by rw [Token.endsStatement, hk]; rfl)
  rw [hk] at he
  cases he.2

theorem closed_items : ∀ (cs : List Char) (s : Lexer.State), Lexer.errors (Lexer.items s cs) = [] →
    Closed (Lexer.tokens (Lexer.items s cs))
  | [], s, h => by
    unfold Lexer.items Lexer.atEnd at h ⊢
    split at h
    · exact ⟨[], _, rfl, rfl, by simp⟩
    · refine ⟨[_], _, rfl, rfl, ?_⟩
      simp [classify_ne (k := .endOfSource) rfl]
    · cases h
    · cases h
  | c :: cs, s, h => by
    simp only [Lexer.items, Lexer.errors, List.filterMap_append, List.append_eq_nil_iff] at h
    have ht : Lexer.tokens (Lexer.items s (c :: cs)) =
        Lexer.tokens (Lexer.step s c).1 ++ Lexer.tokens (Lexer.items (Lexer.step s c).2 cs) := by
      simp [Lexer.items, Lexer.tokens]
    rw [ht]
    exact .append (step_ne_end s c) (closed_items cs _ h.2)

theorem closed_of_lex {source : String} {tokens : List Token} (h : Lexer.lex source = .ok tokens) : Closed tokens := by
  unfold Lexer.lex at h
  simp only at h
  split at h
  · rename_i he
    cases h
    exact closed_items _ _ he
  · cases h

theorem closed_cons {t : Token} {ts : List Token} (h : Closed (t :: ts)) :
    (t.kind = .endOfSource ∧ ts = []) ∨ (t.kind ≠ .endOfSource ∧ Closed ts) := by
  obtain ⟨init, last, hs, hl, hi⟩ := h
  rcases List.cons_eq_append_iff.1 hs with ⟨rfl, hs⟩ | ⟨init, rfl, rfl⟩
  · injection hs with h1 h2
    subst h1
    exact .inl ⟨hl, h2⟩
  · exact .inr ⟨hi t List.mem_cons_self, init, last, rfl, hl, fun u hu => hi u (List.mem_cons_of_mem _ hu)⟩

theorem Closed.first_line : ∀ {tokens : List Token}, Closed tokens → ∃ body stop rest, tokens = body ++ stop :: rest ∧
    (∀ t ∈ body, t.endsStatement = false) ∧
      ((stop.kind = .endOfSource ∧ rest = []) ∨ (stop.kind = .endOfLine ∧ Closed rest))
  | [], h => by
    obtain ⟨init, last, hs, -⟩ := h
    simp at hs
  | t :: ts, h => by
    rcases closed_cons h with ⟨ht, rfl⟩ | ⟨ht, hts⟩
    · exact ⟨[], t, [], rfl, by simp, .inl ⟨ht, rfl⟩⟩
    · by_cases hl : t.kind = .endOfLine
      · exact ⟨[], t, ts, rfl, by simp, .inr ⟨hl, hts⟩⟩
      · obtain ⟨body, stop, rest, rfl, hb, hr⟩ := hts.first_line
        have hte : t.endsStatement = false := by
          unfold Token.endsStatement Token.Kind.endsStatement
          split <;> simp_all
        refine ⟨t :: body, stop, rest, rfl, fun u hu => ?_, hr⟩
        rcases List.mem_cons.1 hu with rfl | hu
        · exact hte
        · exact hb u hu

/-- **A source whose lines say statements reads as their script.** -/
theorem reads_of_lines {tokens : List Token} {script : List Stmt} (h : Closed tokens)
    (hl : List.Forall₂ (fun l s => Written (Line.kinds l) s) (Line.split tokens) script) :
    Reads (tokens.map Token.kind) script := by
  obtain ⟨body, stop, rest, he, hb, hr⟩ := h.first_line
  have hlt : rest.length < tokens.length := by simp [he]; omega
  have hs : stop.endsStatement = true := by
    rcases hr with ⟨hk, -⟩ | ⟨hk, -⟩ <;> simp [Token.endsStatement, hk, Token.Kind.endsStatement]
  rw [he, split_append hs rest body hb] at hl
  rw [he]
  cases hl with
  | cons hw hl =>
    rcases hr with ⟨hk, rfl⟩ | ⟨hk, hc⟩
    · cases hl
      simpa [hk, Line.kinds] using Reads.last hw
    · simpa [hk, Line.kinds] using Reads.line hw (reads_of_lines hc hl)
termination_by tokens.length
decreasing_by exact hlt

/-! ## Scopes -/

/-- The declarations of one scope, the newest first. -/
abbrev Declared := List (String × Ty)

/-- **The variable of a name**: its most recent declaration, the `k`-th of the scope at the offset `4 * k`. -/
def Declared.symbol? : Declared → Lookup
  | [], _ => none
  | (y, ty) :: rest, x => if y = x then some ⟨ty, 4 * (rest.length + 1)⟩ else symbol? rest x

/-- What the lines before a statement have declared: the script's variables, those of the function being defined, and
the names of functions. -/
structure View where
  globals : Declared
  locals : Option Declared
  functions : List String

namespace View

def initial : View := ⟨[], none, []⟩

/-- The scope in view: inside a function only its own. -/
def scope (v : View) : Declared := v.locals.getD v.globals

/-- **What a statement may use.** -/
def Allows (v : View) : Stmt → Prop
  | .blank | .declare _ _ => True
  | .assign x e => ∃ s, v.scope.symbol? x = some s ∧ e.Typed v.scope.symbol? s.ty
  | .display x => ∃ s, v.scope.symbol? x = some s
  | .move a b => a.Typed v.scope.symbol? .int ∧ b.Typed v.scope.symbol? .int
  | .delay a => a.Typed v.scope.symbol? .float
  | .start f => v.locals = none ∧ f ∉ v.functions
  | .finish => v.locals ≠ none

/-- What a statement declares. -/
def after (v : View) : Stmt → View
  | .declare ty x =>
    match v.locals with
    | none => { v with globals := (x, ty) :: v.globals }
    | some ls => { v with locals := some ((x, ty) :: ls) }
  | .start f => { v with locals := some [], functions := f :: v.functions }
  | .finish => { v with locals := none }
  | _ => v

/-- A declaration leaves its scope with fewer than `2 ^ 29`. -/
def HasRoom (v : View) : Stmt → Prop
  | .declare _ _ => v.scope.length + 1 < 0x20000000
  | _ => True

end View

/-- **A valid script**: each statement uses only what the lines before it declare, and no function is left open. -/
def Valid : View → List Stmt → Prop
  | v, [] => v.locals = none
  | v, s :: ss => v.Allows s ∧ Valid (v.after s) ss

/-- **Every scope has fewer than `2 ^ 29` declarations.** -/
def Roomy : View → List Stmt → Prop
  | _, [] => True
  | v, s :: ss => v.HasRoom s ∧ Roomy (v.after s) ss

/-! ## Code -/

/-- **The code of a statement.** -/
def Stmt.code (v : View) : Stmt → List Instr
  | .blank | .declare _ _ => []
  | .assign x e =>
    match v.scope.symbol? x with
    | some s => .mode s.ty :: (e.code v.scope.symbol? s.ty ++ [.storeVar s.operand])
    | none => []
  | .display x =>
    match v.scope.symbol? x with
    | some s => [.mode s.ty, .display s.operand]
    | none => []
  | .move a b => .mode .int :: (a.code v.scope.symbol? .int ++ b.code v.scope.symbol? .int ++ [.move])
  | .delay a => .mode .float :: (a.code v.scope.symbol? .float ++ [.delay])
  | .start _ => [.startFunc]
  | .finish => [.endFunc]

def codeOf : View → List Stmt → List Instr
  | _, [] => []
  | v, s :: ss => s.code v ++ codeOf (v.after s) ss

end Autoscript.Script
