import Autoscript.Proofs.Syntax
/-!
# Accepted — which scripts have a program

A line is compiled without a fault exactly if it says a statement that the lines before it allow
(`carried_of_written`, `says_of_fault_none`); then the state after it matches the view after the statement, and the
statement's code has been appended.  Over all lines: a source has a program exactly if it reads as a valid script.
-/
namespace Autoscript.Script

/-! ## A frame and its declarations -/

/-- A frame that has handed out a slot for each declaration. -/
def FrameHolds (f : Frame) (d : Declared) : Prop := f.size = 4 * d.length ∧ f.resolve? = d.symbol?

theorem frameHolds_empty : FrameHolds .empty [] := ⟨rfl, rfl⟩

theorem isSome_lookup {β : Type} (x : String) : ∀ l : List (String × β),
    (l.lookup x).isSome = true ↔ x ∈ l.map Prod.fst
  | [] => by simp
  | p :: l => by
    have ih := isSome_lookup x l
    rw [List.lookup_cons]
    by_cases hp : x = p.1
    · simp [hp]
    · have hx : (x == p.1) = false := by simpa using hp
      simp [hx, hp, ih]

theorem frameHolds_declare {f : Frame} {d : Declared} (h : FrameHolds f d) (x : String) (ty : Ty) :
    (d.length + 1 < 0x20000000 → ∃ f' s, f.declare? x ty = some (f', s) ∧ FrameHolds f' ((x, ty) :: d)) ∧
      (¬ d.length + 1 < 0x20000000 → f.declare? x ty = none) := by
  obtain ⟨hs, hr⟩ := h
  have hm : f.size + Word.size ≤ Frame.maxOffset ↔ d.length + 1 < 0x20000000 := by
    simp only [hs, Word.size, Frame.maxOffset]; omega
  have hnext : f.size + Word.size = 4 * (d.length + 1) := by
    simp only [hs, Word.size]; omega
  rcases f.declare?_cases x ty with ⟨hroom, f', hd, hsize, hresolve⟩ | ⟨hfull, hd⟩
  · refine ⟨fun _ => ⟨f', _, hd, hsize.trans hnext, ?_⟩, fun hn => absurd (hm.1 hroom) hn⟩
    funext y
    rw [hresolve, Declared.symbol?, hnext, hr]
  · exact ⟨fun hn => absurd (hm.2 hn) (Nat.not_le.2 hfull), fun _ => hd⟩

/-! ## A state and its view -/

/-- **The state of the compiler matches what the statements so far declare.** -/
structure Matches (s : State) (v : View) : Prop where
  globals : FrameHolds s.scopes.globals v.globals
  locals : ∀ ls, v.locals = some ls → FrameHolds s.scopes.locals ls
  inside : s.scopes.inFunction = v.locals.isSome
  opened : s.opened.isSome = v.locals.isSome
  functions : s.functions.map Prod.fst = v.functions

theorem matches_initial : Matches .initial .initial :=
  ⟨frameHolds_empty, fun _ h => (by cases h), rfl, rfl, rfl⟩

namespace Matches

variable {s : State} {v : View} (h : Matches s v)
include h

theorem frame : FrameHolds s.names.frame v.scope := by
  unfold State.names Scopes.frame View.scope
  cases hl : v.locals with
  | none =>
    have hi := h.inside
    rw [hl] at hi
    simpa [hi] using h.globals
  | some ls =>
    have hi := h.inside
    rw [hl] at hi
    simpa [hi] using h.locals ls hl

theorem resolve : s.names.frame.resolve? = v.scope.symbol? := h.frame.2

theorem emit (code : List Instr) : Matches (s.emit code) v := ⟨h.globals, h.locals, h.inside, h.opened, h.functions⟩

theorem isSome_function (f : String) : (s.functions.lookup f).isSome = true ↔ f ∈ v.functions := by
  rw [← h.functions]
  exact isSome_lookup f s.functions

theorem declare (x : String) (ty : Ty) (hr : v.scope.length + 1 < 0x20000000) :
    ∃ scopes sym, s.scopes.declare? .current x ty = some (scopes, sym) ∧
      Matches { s with scopes } (v.after (.declare ty x)) := by
  obtain ⟨f', sym, hd, hf⟩ := (frameHolds_declare h.frame x ty).1 hr
  refine ⟨s.scopes.setFrame f' .current, sym, ?_, ?_⟩
  · have hd' : (s.scopes.frame .current).declare? x ty = some (f', sym) := hd
    simp [Scopes.declare?, hd']
  · have hi := h.inside
    cases hl : v.locals with
    | none =>
      rw [hl] at hi
      simp only [Scopes.setFrame, hi, View.after, hl]
      refine ⟨by simpa [View.scope, hl] using hf, fun ls hls => ?_, ?_, ?_, h.functions⟩
      · cases hls
      · rfl
      · simpa [hl] using h.opened
    | some ls =>
      rw [hl] at hi
      simp only [Scopes.setFrame, hi, View.after, hl]
      refine ⟨h.globals, fun ls' hls => ?_, ?_, ?_, h.functions⟩
      · cases hls
        simpa [View.scope, hl] using hf
      · rfl
      · simpa [hl] using h.opened

end Matches

/-! ## One line -/

/-- An action on expressions in a row emits their codes. -/
theorem action_of_row (s : State) {ty : Ty} (act : Instr) (stop : Token) {ts : List Token} {es : List Expr}
    (hrow : Row (ts.map Token.kind) es) (ht : ∀ e ∈ es, e.Typed s.names.frame.resolve? ty) :
    Statement.action s ty es.length act stop ts =
      ⟨s.emit (.mode ty :: (es.flatMap (Expr.code s.names.frame.resolve? ty) ++ [act])), none, none⟩ := by
  have hs : s.names.arguments ty stop es.length ts = _ := Names.arguments_of_row hrow rfl ht
  simp [Statement.action, hs, Statement.trailing, State.emit]

/-- **A statement carried out by the compiler**: no fault, the state matches what it declares, its code is appended. -/
structure Carried (s : State) (v : View) (st : Stmt) (o : Outcome) : Prop where
  fault : o.fault = none
  state : Matches o.state (v.after st)
  code : o.state.code = s.code ++ st.code v

section
variable {s : State} {v : View} (h : Matches s v)
include h

theorem Matches.start (f : String) (line : Nat) :
    Matches ⟨s.scopes.enter, (f, s.position) :: s.functions, some ⟨f, line⟩, s.code ++ [.startFunc]⟩
      (v.after (.start f)) :=
  ⟨h.globals, fun ls hls => (by cases hls; exact frameHolds_empty), rfl, rfl, by simp [View.after, h.functions]⟩

theorem Matches.finish : Matches ⟨s.scopes.leave, s.functions, none, s.code ++ [.endFunc]⟩ (v.after .finish) :=
  ⟨h.globals, fun ls hls => (by cases hls), rfl, rfl, h.functions⟩

theorem Carried.of_emit {st : Stmt} {o : Outcome} (ho : o = ⟨s.emit (st.code v), none, none⟩) (hv : v.after st = v) :
    Carried s v st o := by
  subst ho
  exact ⟨rfl, by rw [hv]; exact h.emit _, rfl⟩

theorem carried_declare {ty : Ty} {x : String} {stop u : Token} (hx : u.kind = .name x)
    (hr : v.scope.length + 1 < 0x20000000) : Carried s v (.declare ty x) (Statement.declaration s ty stop [u]) := by
  obtain ⟨scopes, sym, hdec, hm⟩ := h.declare x ty hr
  have ho : Statement.declaration s ty stop [u] = ⟨{ s with scopes }, some (.declared ty x sym.offset), none⟩ := by
    simp [Statement.declaration, Statement.nameAfter, hx, hdec, Statement.trailing]
  rw [ho]
  exact ⟨rfl, hm, by simp [Stmt.code]⟩

theorem carried_assign {x : String} {e : Expr} {line : Nat} {stop u : Token} {ts : List Token}
    (hop : u.kind = .operator .assign) (hd : Derives .sum (ts.map Token.kind) e) (ha : v.Allows (.assign x e)) :
    Carried s v (.assign x e) (Statement.assignment s x line stop (u :: ts)) := by
  obtain ⟨sym, hs, ht⟩ := ha
  have hn : s.names.symbol x line = .ok sym := Names.symbol_ok.2 (by rw [h.resolve]; exact hs)
  rw [← h.resolve] at ht
  have he : s.names.expression sym.ty stop ts = _ := Names.expression_of_derives hd ht
  refine Carried.of_emit h ?_ rfl
  simp [Statement.assignment, hn, hop, he, State.emit, Stmt.code, hs, h.resolve]

theorem carried_display {x : String} {stop u : Token} (hx : u.kind = .name x) (ha : v.Allows (.display x)) :
    Carried s v (.display x) (Statement.display s stop [u]) := by
  obtain ⟨sym, hs⟩ := ha
  have hn : s.names.symbol x u.line = .ok sym := Names.symbol_ok.2 (by rw [h.resolve]; exact hs)
  refine Carried.of_emit h ?_ rfl
  simp [Statement.display, Statement.nameAfter, hx, hn, Statement.trailing, Stmt.code, hs]

theorem carried_start {f : String} {line : Nat} {stop u : Token} (hx : u.kind = .name f) (ha : v.Allows (.start f)) :
    Carried s v (.start f) (Statement.start s line stop [u]) := by
  have hi : s.scopes.inFunction = false := by rw [h.inside, ha.1]; rfl
  have hf : (s.functions.lookup f).isSome = false := by
    rw [← Bool.not_eq_true, h.isSome_function]; exact ha.2
  have ho : Statement.start s line stop [u] = ⟨⟨s.scopes.enter, (f, s.position) :: s.functions, some ⟨f, u.line⟩,
      s.code ++ [.startFunc]⟩, some (.started f s.position), none⟩ := by
    simp [Statement.start, hi, Statement.nameAfter, hx, hf, Statement.trailing]
  rw [ho]
  exact ⟨rfl, h.start f u.line, rfl⟩

theorem carried_finish {line : Nat} (ha : v.Allows .finish) : Carried s v .finish (Statement.finish s line []) := by
  have hi : s.scopes.inFunction = true := by rw [h.inside]; exact Option.isSome_iff_ne_none.2 ha
  have ho : Statement.finish s line [] = ⟨⟨s.scopes.leave, s.functions, none, s.code ++ [.endFunc]⟩, none, none⟩ := by
    simp [Statement.finish, hi, Statement.trailing]
  rw [ho]
  exact ⟨rfl, h.finish, rfl⟩

/-- **A line that says an allowed statement is compiled without a fault.** -/
theorem carried_of_written {l : Line} {st : Stmt} (hw : Written l.kinds st) (ha : v.Allows st) (hr : v.HasRoom st) :
    Carried s v st (Statement.compile s l) := by
  obtain ⟨body, stop⟩ := l
  generalize hk : Line.kinds ⟨body, stop⟩ = ks at hw
  unfold Line.kinds at hk
  cases hw with
  | blank =>
    obtain rfl := List.map_eq_nil_iff.1 hk
    exact ⟨rfl, h, by simp [Statement.compile, Stmt.code]⟩
  | declare ty x =>
    obtain ⟨t, us, rfl, ht, hu⟩ := List.map_eq_cons_iff.1 hk
    obtain ⟨u, rfl, hx⟩ := List.map_eq_singleton_iff.1 hu
    simp only [Statement.compile, ht, Statement.builtin]
    exact carried_declare h hx hr
  | assign x hd =>
    obtain ⟨t, us, rfl, hx, hu⟩ := List.map_eq_cons_iff.1 hk
    obtain ⟨u, ts, rfl, hop, rfl⟩ := List.map_eq_cons_iff.1 hu
    simp only [Statement.compile, hx]
    exact carried_assign h hop hd ha
  | display x =>
    obtain ⟨t, us, rfl, ht, hu⟩ := List.map_eq_cons_iff.1 hk
    obtain ⟨u, rfl, hx⟩ := List.map_eq_singleton_iff.1 hu
    simp only [Statement.compile, ht, Statement.builtin]
    exact carried_display h hx ha
  | @move ks a b hrow =>
    obtain ⟨t, ts, rfl, ht, rfl⟩ := List.map_eq_cons_iff.1 hk
    simp only [Statement.compile, ht, Statement.builtin]
    have hts : ∀ e ∈ [a, b], e.Typed v.scope.symbol? .int := by simpa using show _ ∧ _ from ha
    rw [← h.resolve] at hts
    refine Carried.of_emit h ((action_of_row s .move stop hrow hts).trans ?_) rfl
    simp [Stmt.code, h.resolve]
  | @delay ks a hrow =>
    obtain ⟨t, ts, rfl, ht, rfl⟩ := List.map_eq_cons_iff.1 hk
    simp only [Statement.compile, ht, Statement.builtin]
    have hts : ∀ e ∈ [a], e.Typed v.scope.symbol? .float := by simpa using show Expr.Typed _ _ _ from ha
    rw [← h.resolve] at hts
    refine Carried.of_emit h ((action_of_row s .delay stop hrow hts).trans ?_) rfl
    simp [Stmt.code, h.resolve]
  | start f =>
    obtain ⟨t, us, rfl, ht, hu⟩ := List.map_eq_cons_iff.1 hk
    obtain ⟨u, rfl, hx⟩ := List.map_eq_singleton_iff.1 hu
    simp only [Statement.compile, ht, Statement.builtin]
    exact carried_start h hx ha
  | finish =>
    obtain ⟨t, rfl, ht⟩ := List.map_eq_singleton_iff.1 hk
    simp only [Statement.compile, ht, Statement.builtin]
    exact carried_finish h ha

end

theorem trailing_none {ts : List Token} (h : Statement.trailing ts = none) : ts = [] := by
  cases ts with
  | nil => rfl
  | cons t ts => cases h

theorem nameAfter_ok {k : Keyword} {stop : Token} {ts rest : List Token} {x : String} {line : Nat}
    (h : Statement.nameAfter k stop ts = .ok (x, line, rest)) : ∃ t, ts = t :: rest ∧ t.kind = .name x := by
  cases ts with
  | nil => cases h
  | cons t ts =>
    simp only [Statement.nameAfter] at h
    split at h
    · rename_i hk; cases h; exact ⟨t, rfl, hk⟩
    · cases h

/-- What an action takes without a fault is as many expressions in a row. -/
theorem row_of_action {s : State} {ty : Ty} {count : Nat} {act : Instr} {stop : Token} {ts : List Token}
    (hf : (Statement.action s ty count act stop ts).fault = none) :
    ∃ es, es.length = count ∧ Row (ts.map Token.kind) es ∧ ∀ e ∈ es, e.Typed s.names.frame.resolve? ty := by
  unfold Statement.action at hf
  cases hs : (s.names.arguments ty stop count ts).fault with
  | some f => simp [hs, Statement.refuse] at hf
  | none =>
    simp only [hs] at hf
    obtain ⟨used, es, hts, hn, hrow, ht⟩ := Names.row_of_arguments count hs
    rw [trailing_none hf, List.append_nil] at hts
    subst hts
    exact ⟨es, hn, hrow, ht⟩

section
variable {s : State} {v : View} (h : Matches s v)
include h

def Says (v : View) (ks : List Token.Kind) : Prop := ∃ st, Written ks st ∧ v.Allows st ∧ v.HasRoom st

theorem says_of_declaration {ty : Ty} {stop : Token} {ts : List Token}
    (hf : (Statement.declaration s ty stop ts).fault = none) :
    Says v (.keyword (.declare ty) :: ts.map Token.kind) := by
  unfold Statement.declaration at hf
  split at hf
  · cases hf
  · rename_i x line rest hn
    obtain ⟨t, rfl, hx⟩ := nameAfter_ok hn
    split at hf
    · cases hf
    · rename_i scopes sym hd
      obtain rfl := trailing_none hf
      refine ⟨.declare ty x, by simpa [hx] using Written.declare ty x, trivial, ?_⟩
      show v.scope.length + 1 < 0x20000000
      by_cases hr : v.scope.length + 1 < 0x20000000
      · exact hr
      · have hnone : (s.scopes.frame .current).declare? x ty = none := (frameHolds_declare h.frame x ty).2 hr
        simp [Scopes.declare?, hnone] at hd

theorem says_of_start {line : Nat} {stop : Token} {ts : List Token} (hf : (Statement.start s line stop ts).fault = none) :
    Says v (.keyword .start :: ts.map Token.kind) := by
  unfold Statement.start at hf
  split at hf
  · cases hf
  · rename_i hi
    split at hf
    · cases hf
    · rename_i f line rest hn
      obtain ⟨t, rfl, hx⟩ := nameAfter_ok hn
      split at hf
      · cases hf
      · rename_i hdup
        obtain rfl := trailing_none hf
        refine ⟨.start f, by simpa [hx] using Written.start f, ⟨?_, ?_⟩, trivial⟩
        · rw [h.inside] at hi; simpa using hi
        · rw [← h.isSome_function]; exact hdup

theorem says_of_finish {line : Nat} {ts : List Token} (hf : (Statement.finish s line ts).fault = none) :
    Says v (.keyword .finish :: ts.map Token.kind) := by
  unfold Statement.finish at hf
  split at hf
  · rename_i hi
    obtain rfl := trailing_none hf
    refine ⟨.finish, .finish, ?_, trivial⟩
    rw [h.inside] at hi
    exact Option.isSome_iff_ne_none.1 hi
  · cases hf

theorem says_of_display {stop : Token} {ts : List Token} (hf : (Statement.display s stop ts).fault = none) :
    Says v (.keyword .display :: ts.map Token.kind) := by
  unfold Statement.display at hf
  split at hf
  · cases hf
  · rename_i x line rest hn
    obtain ⟨t, rfl, hx⟩ := nameAfter_ok hn
    split at hf
    · cases hf
    · rename_i sym hs
      obtain rfl := trailing_none hf
      have hsym := Names.symbol_ok.1 hs
      rw [h.resolve] at hsym
      exact ⟨.display x, by simpa [hx] using Written.display x, ⟨sym, hsym⟩, trivial⟩

theorem says_of_assignment {x : String} {line : Nat} {stop : Token} {ts : List Token}
    (hf : (Statement.assignment s x line stop ts).fault = none) : Says v (.name x :: ts.map Token.kind) := by
  unfold Statement.assignment at hf
  split at hf
  · cases hf
  · rename_i sym hs
    have hsym := Names.symbol_ok.1 hs
    rw [h.resolve] at hsym
    simp only at hf
    split at hf
    · rename_i harrow
      cases he : (s.names.expression sym.ty stop ts.tail).fault with
      | some f => simp [he, Statement.refuse] at hf
      | none =>
        obtain ⟨e, hd, ht⟩ := Names.derives_of_expression he
        rw [h.resolve] at ht
        cases ts with
        | nil => exact absurd rfl hd.ne_nil
        | cons t ts =>
          have hk : t.kind = .operator .assign := harrow
          exact ⟨.assign x e, by simpa [hk] using Written.assign x hd, ⟨sym, hsym, ht⟩, trivial⟩
    · cases hf

/-- **A line compiled without a fault says an allowed statement.** -/
theorem says_of_fault_none {l : Line} (hf : (Statement.compile s l).fault = none) : Says v l.kinds := by
  obtain ⟨body, stop⟩ := l
  cases body with
  | nil => exact ⟨.blank, .blank, trivial, trivial⟩
  | cons t ts =>
    unfold Statement.compile at hf
    cases hk : t.kind with
    | name x =>
      simp only [hk] at hf
      simpa [Line.kinds, hk] using says_of_assignment h hf
    | keyword k =>
      simp only [hk, Statement.builtin] at hf
      have hl : Line.kinds ⟨t :: ts, stop⟩ = .keyword k :: ts.map Token.kind := by simp [Line.kinds, hk]
      rw [hl]
      cases k with
      | declare ty => exact says_of_declaration h hf
      | start => exact says_of_start h hf
      | finish => exact says_of_finish h hf
      | display => exact says_of_display h hf
      | move =>
        obtain ⟨es, hn, hrow, ht⟩ := row_of_action hf
        rw [h.resolve] at ht
        obtain ⟨a, b, rfl⟩ := List.length_eq_two.1 hn
        exact ⟨.move a b, .move hrow, by simpa [View.Allows] using ht, trivial⟩
      | delay =>
        obtain ⟨es, hn, hrow, ht⟩ := row_of_action hf
        rw [h.resolve] at ht
        obtain ⟨a, rfl⟩ := List.length_eq_one_iff.1 hn
        exact ⟨.delay a, .delay hrow, by simpa [View.Allows] using ht, trivial⟩
      | drag | click | type | mod => cases hf
    | operator | text | int | float | endOfLine | endOfSource => simp [hk, Statement.refuse] at hf

end

/-! ## All lines -/

def View.afterAll (v : View) (ss : List Stmt) : View := ss.foldl View.after v

/-- The statements in a row may each use what they use. -/
def Allowed : View → List Stmt → Prop
  | _, [] => True
  | v, s :: ss => v.Allows s ∧ Allowed (v.after s) ss

/-- **Every scope in view has fewer than `2 ^ 29` declarations.** -/
structure View.Small (v : View) : Prop where
  globals : v.globals.length < 0x20000000
  locals : ∀ ls, v.locals = some ls → ls.length < 0x20000000

namespace View.Small

variable {v : View} (h : v.Small)
include h

theorem scope : v.scope.length < 0x20000000 := by
  unfold View.scope
  cases hl : v.locals with
  | none => exact h.globals
  | some ls => exact h.locals ls hl

theorem after {s : Stmt} (hr : v.HasRoom s) : (v.after s).Small := by
  cases s with
  | declare ty x =>
    cases hl : v.locals with
    | none =>
      have hr' : v.globals.length + 1 < 0x20000000 := by simpa [View.HasRoom, View.scope, hl] using hr
      simp only [View.after, hl]
      exact ⟨hr', fun ls hls => by cases hls⟩
    | some ls =>
      have hr' : ls.length + 1 < 0x20000000 := by simpa [View.HasRoom, View.scope, hl] using hr
      simp only [View.after, hl]
      exact ⟨h.globals, fun ls' hls => by cases hls; exact hr'⟩
  | start f => exact ⟨h.globals, fun ls hls => by cases hls; decide⟩
  | finish => exact ⟨h.globals, fun ls hls => by cases hls⟩
  | _ => exact h

theorem afterAll {ss : List Stmt} (hr : Roomy v ss) : (v.afterAll ss).Small := by
  induction ss generalizing v with
  | nil => exact h
  | cons s ss ih => exact ih (h.after hr.1) hr.2

end View.Small

theorem small_initial : View.initial.Small := ⟨by decide, fun ls hls => by cases hls⟩

theorem valid_iff : ∀ {v : View} {ss : List Stmt}, Valid v ss ↔ Allowed v ss ∧ (v.afterAll ss).locals = none
  | v, [] => by simp [Valid, Allowed, View.afterAll]
  | v, s :: ss => by
    have ih : Valid (v.after s) ss ↔ _ := valid_iff
    simp [Valid, Allowed, View.afterAll, ih, and_assoc]

def faultsOf (s : State) (ls : List Line) : List Fault := (compileLines s ls).1.filterMap Outcome.fault

/-- **Lines that say allowed statements are compiled without a fault**, to the code of the statements. -/
theorem compileLines_of_written : ∀ {ls : List Line} {ss : List Stmt} {s : State} {v : View}, Matches s v →
    List.Forall₂ (fun l st => Written (Line.kinds l) st) ls ss → Allowed v ss → Roomy v ss →
      faultsOf s ls = [] ∧ Matches (compileLines s ls).2 (v.afterAll ss) ∧
        (compileLines s ls).2.code = s.code ++ codeOf v ss
  | [], _, s, v, h, .nil, _, _ => ⟨rfl, h, by simp [compileLines, codeOf]⟩
  | l :: ls, _, s, v, h, .cons hw hws, ⟨ha, has⟩, ⟨hr, hrs⟩ => by
    have hc := carried_of_written h hw ha hr
    obtain ⟨h1, h2, h3⟩ := compileLines_of_written hc.state hws has hrs
    refine ⟨?_, h2, ?_⟩
    · simpa [faultsOf, compileLines, hc.fault] using h1
    · simpa [compileLines, codeOf, hc.code] using h3

/-- **Lines compiled without a fault say allowed statements.** -/
theorem written_of_compileLines : ∀ {ls : List Line} {s : State} {v : View}, Matches s v → faultsOf s ls = [] →
    ∃ ss, List.Forall₂ (fun l st => Written (Line.kinds l) st) ls ss ∧ Allowed v ss ∧ Roomy v ss
  | [], s, v, _, _ => ⟨[], .nil, trivial, trivial⟩
  | l :: ls, s, v, h, hf => by
    have hl : (Statement.compile s l).fault = none := by
      cases hc : (Statement.compile s l).fault with
      | none => rfl
      | some f => simp [faultsOf, compileLines, hc] at hf
    have hls : faultsOf (Statement.compile s l).state ls = [] := by simpa [faultsOf, compileLines, hl] using hf
    obtain ⟨st, hw, ha, hr⟩ := says_of_fault_none h hl
    obtain ⟨ss, hws, has, hrs⟩ := written_of_compileLines (carried_of_written h hw ha hr).state hls
    exact ⟨st :: ss, .cons hw hws, ⟨ha, has⟩, ⟨hr, hrs⟩⟩

/-! ## A source -/

/-- The bytes of the script's variables. -/
def frameSize (script : List Stmt) : Nat := 4 * (View.initial.afterAll script).globals.length

/-- **The program of a script.** -/
def programOf (script : List Stmt) : List Instr :=
  .setupFrame (Int32.ofNat (frameSize script)) :: (codeOf .initial script ++ [.halt])

theorem unfinished_none {s : State} {v : View} (h : Matches s v) : unfinished s = none ↔ v.locals = none := by
  have ho := h.opened
  unfold unfinished
  cases hv : v.locals <;> cases hs : s.opened <;> simp_all

theorem faults_nil_iff (source : String) {tokens : List Token} (h : Closed tokens) :
    (Compilation.ofTokens source tokens).faults = [] ↔
      ∃ script, Reads (tokens.map Token.kind) script ∧ Valid .initial script ∧ Roomy .initial script := by
  have hfaults : (Compilation.ofTokens source tokens).faults =
      faultsOf .initial (Line.split tokens) ++ (unfinished (compileLines .initial (Line.split tokens)).2).toList := rfl
  rw [hfaults, List.append_eq_nil_iff, Option.toList_eq_nil_iff]
  constructor
  · rintro ⟨hf, hu⟩
    obtain ⟨script, hw, ha, hr⟩ := written_of_compileLines matches_initial hf
    have hm := (compileLines_of_written matches_initial hw ha hr).2.1
    exact ⟨script, reads_of_lines h hw, valid_iff.2 ⟨ha, (unfinished_none hm).1 hu⟩, hr⟩
  · rintro ⟨script, hs, hv, hr⟩
    obtain ⟨ha, hl⟩ := valid_iff.1 hv
    obtain ⟨hf, hm, -⟩ := compileLines_of_written matches_initial (hs.lines rfl) ha hr
    exact ⟨hf, (unfinished_none hm).2 hl⟩

/-- **What is compiled for a source that reads as a valid script**: the program of the script. -/
theorem ofTokens_of_reads (source : String) {tokens : List Token} {script : List Stmt}
    (hs : Reads (tokens.map Token.kind) script) (hv : Valid .initial script) (hr : Roomy .initial script) :
    (Compilation.ofTokens source tokens).state.program = programOf script ∧
      (Compilation.ofTokens source tokens).state.scopes.globals.size = frameSize script := by
  obtain ⟨-, hm, hc⟩ := compileLines_of_written matches_initial (hs.lines rfl) (valid_iff.1 hv).1 hr
  have hsize : (Compilation.ofTokens source tokens).state.scopes.globals.size = frameSize script := hm.globals.1
  refine ⟨?_, hsize⟩
  have hcode : (Compilation.ofTokens source tokens).state.code = codeOf .initial script := hc
  rw [State.program, hsize, hcode]
  rfl

theorem result_ok_iff {c : Compilation} {program : List UInt8} :
    c.result = .ok program ↔ c.faults = [] ∧ program = Program.assemble c.state.program := by
  unfold Compilation.result
  split
  · rename_i h
    simp only [h, true_and, Except.ok.injEq]
    exact eq_comm
  · rename_i h
    simp [h]

theorem compile_ok {source : String} {program : List UInt8} (h : compile source = .ok program) :
    ∃ c, analyse source = .ok c ∧ c.result = .ok program := by
  unfold compile at h
  split at h
  · cases h
  · rename_i c hc
    exact ⟨c, hc, h⟩

theorem tokens_of_analyse {source : String} {c : Compilation} (h : analyse source = .ok c) :
    ∃ tokens, Lexer.lex source = .ok tokens ∧ c = Compilation.ofTokens source tokens := by
  unfold analyse at h
  cases hl : Lexer.lex source with
  | error es => rw [hl] at h; cases h
  | ok tokens =>
    rw [hl] at h
    cases h
    exact ⟨tokens, rfl, rfl⟩

/-- **An accepted source, unpacked.** -/
theorem analyse_ok {source : String} {c : Compilation} {program : List UInt8} (hc : analyse source = .ok c)
    (hp : c.result = .ok program) :
    ∃ tokens script, Lexer.lex source = .ok tokens ∧ Reads (tokens.map Token.kind) script ∧ Valid .initial script ∧
      Roomy .initial script ∧ c.state.scopes.globals.size = frameSize script ∧
      program = Program.assemble (programOf script) := by
  obtain ⟨tokens, hl, rfl⟩ := tokens_of_analyse hc
  obtain ⟨hf, rfl⟩ := result_ok_iff.1 hp
  obtain ⟨script, hs, hv, hr⟩ := (faults_nil_iff source (closed_of_lex hl)).1 hf
  obtain ⟨hprog, hsize⟩ := ofTokens_of_reads source hs hv hr
  exact ⟨tokens, script, hl, hs, hv, hr, hsize, by rw [hprog]⟩

theorem compile_of_reads {source : String} {tokens : List Token} {script : List Stmt}
    (hl : Lexer.lex source = .ok tokens) (hs : Reads (tokens.map Token.kind) script) (hv : Valid .initial script)
    (hr : Roomy .initial script) : compile source = .ok (Program.assemble (programOf script)) := by
  have hc : analyse source = .ok (Compilation.ofTokens source tokens) := by rw [analyse, hl]; rfl
  unfold compile
  rw [hc]
  refine result_ok_iff.2 ⟨(faults_nil_iff source (closed_of_lex hl)).2 ⟨script, hs, hv, hr⟩, ?_⟩
  rw [(ofTokens_of_reads source hs hv hr).1]

/-- **The accepted language**: a source that can be read, with fewer than `2 ^ 29` declarations in any one scope, has a
program exactly if its lines are the statements of a valid script. -/
theorem compile_ok_iff_reads_valid {source : String} {tokens : List Token} (hl : Lexer.lex source = .ok tokens)
    (hr : ∀ script, Reads (tokens.map Token.kind) script → Roomy .initial script) :
    (∃ program, compile source = .ok program) ↔ ∃ script, Reads (tokens.map Token.kind) script ∧ Valid .initial script := by
  have hc : compile source = (Compilation.ofTokens source tokens).result := by simp [compile, analyse, hl, Except.map]
  have hf := faults_nil_iff source (closed_of_lex hl)
  rw [hc]
  constructor
  · rintro ⟨program, hp⟩
    obtain ⟨script, hs, hv, -⟩ := hf.1 (result_ok_iff.1 hp).1
    exact ⟨script, hs, hv⟩
  · rintro ⟨script, hs, hv⟩
    exact ⟨_, result_ok_iff.2 ⟨hf.2 ⟨script, hs, hv, hr script hs⟩, rfl⟩⟩

/-- The name of a script's variable may be declared again, with another type, inside a function. -/
theorem compile_ok_of_shadowing_local :
    ∃ program, compile "int x\nstart f\nfloat x\ndelay x\nend\nmove x (x + 1) * 2" = .ok program := by
  have hl : Lexer.lex "int x\nstart f\nfloat x\ndelay x\nend\nmove x (x + 1) * 2" = .ok
      [⟨.keyword (.declare .int), 1⟩, ⟨.name "x", 1⟩, ⟨.endOfLine, 1⟩,
        ⟨.keyword .start, 2⟩, ⟨.name "f", 2⟩, ⟨.endOfLine, 2⟩,
        ⟨.keyword (.declare .float), 3⟩, ⟨.name "x", 3⟩, ⟨.endOfLine, 3⟩,
        ⟨.keyword .delay, 4⟩, ⟨.name "x", 4⟩, ⟨.endOfLine, 4⟩, ⟨.keyword .finish, 5⟩, ⟨.endOfLine, 5⟩,
        ⟨.keyword .move, 6⟩, ⟨.name "x", 6⟩, ⟨.operator .leftParen, 6⟩, ⟨.name "x", 6⟩, ⟨.operator (.arith .add), 6⟩,
        ⟨.int 1, 6⟩, ⟨.operator .rightParen, 6⟩, ⟨.operator (.arith .mul), 6⟩, ⟨.int 2, 6⟩, ⟨.endOfSource, 6⟩] := by
    decide +kernel
  have hsum : Derives .sum [.name "x", .operator (.arith .add), .int 1] (.binary .add (.name "x") (.int 1)) :=
    .binary .add (.widen (.widen (.name "x"))) (.widen (.int 1))
  have hproduct : Derives .sum
      [.operator .leftParen, .name "x", .operator (.arith .add), .int 1, .operator .rightParen, .operator (.arith .mul),
        .int 2] (.binary .mul (.binary .add (.name "x") (.int 1)) (.int 2)) :=
    .widen (.binary .mul (.widen (.paren hsum)) (.int 2))
  have hx : Derives .sum [.name "x"] (.name "x") := .widen (.widen (.name "x"))
  have hs := Reads.line (.declare .int "x") (.line (.start "f") (.line (.declare .float "x")
    (.line (.delay (.cons hx .nil)) (.line .finish (.last (.move (.cons hx (.cons hproduct .nil))))))))
  refine (compile_ok_iff_reads_valid hl fun script hs' => ?_).2 ⟨_, hs, ?_⟩
  · rw [hs'.unique hs]
    simp [Roomy, View.HasRoom, View.after, View.initial, View.scope]
  · simp [Valid, View.Allows, View.after, View.initial, View.scope, Expr.Typed, Declared.symbol?]

end Autoscript.Script
