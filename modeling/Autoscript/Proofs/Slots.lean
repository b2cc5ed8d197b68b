import Autoscript.Proofs.Accepted
import Mathlib.Data.List.Forall2
import Mathlib.Data.List.Induction
/-!
# Slots — the variable that a name stands for

A scope is the top level of a script or the body of one function, and its declarations are numbered in the order of
their lines.  In view of a line are the declarations of its scope on the lines before it (`views_afterAll`), so each name
is compiled to the slot of its most recent declaration there: `4 * k` bytes below the base for the `k`-th of the scope.
-/
namespace Autoscript

def Instr.usesVariable : Instr → Bool
  | .pushVar _ | .storeVar _ | .display _ => true
  | _ => false

def Instr.isMode : Instr → Bool
  | .mode _ => true
  | _ => false

namespace Script

/-! ## Scopes by lines -/

/-- The function body in which a line stands, by the line of its start; none at the top level. -/
def bodyAt (script : List Stmt) : Nat → Option Nat
  | 0 => none
  | j + 1 =>
    match script[j]? with
    | some (.start _) => some j
    | some .finish => none
    | _ => bodyAt script j

/-- What a line declares in a scope. -/
def declaredOn (script : List Stmt) (body : Option Nat) (d : Nat) : Option (Nat × String × Ty) :=
  match script[d]? with
  | some (.declare ty x) => if bodyAt script d = body then some (d, x, ty) else none
  | _ => none

def declaredBefore (script : List Stmt) (body : Option Nat) (j : Nat) : List (Nat × String × Ty) :=
  (List.range j).filterMap (declaredOn script body)

/-- **The declarations of a scope** in the order of their lines: the line, the name and the type. -/
def declarations (script : List Stmt) (body : Option Nat) : List (Nat × String × Ty) :=
  declaredBefore script body script.length

/-- **What a name stands for on a line**: the `k`-th declaration of the scope of the line, if that declares the name on an
earlier line, and no later declaration of the scope does. -/
def Refers (script : List Stmt) (j : Nat) (x : String) (k : Nat) (ty : Ty) : Prop :=
  ∃ n d, k = n + 1 ∧ (declarations script (bodyAt script j))[n]? = some (d, x, ty) ∧ d < j ∧
    ∀ n' d' ty', n < n' → (declarations script (bodyAt script j))[n']? = some (d', x, ty') → j ≤ d'

section
variable {script : List Stmt} {body : Option Nat} {j d : Nat}

theorem lt_of_bodyAt {b : Nat} : ∀ {j : Nat}, bodyAt script j = some b → b < j
  | j + 1, h => by
    unfold bodyAt at h
    split at h
    · cases h; exact Nat.lt_succ_self _
    · cases h
    · exact Nat.lt_succ_of_lt (lt_of_bodyAt h)

theorem declaredOn_some {e : Nat × String × Ty} (h : declaredOn script body d = some e) :
    e.1 = d ∧ bodyAt script d = body := by
  unfold declaredOn at h
  split at h
  · split at h
    · rename_i hb
      cases h
      exact ⟨rfl, hb⟩
    · cases h
  · cases h

theorem declaredBefore_succ (script : List Stmt) (body : Option Nat) (j : Nat) :
    declaredBefore script body (j + 1) = declaredBefore script body j ++ (declaredOn script body j).toList := by
  rw [declaredBefore, List.range_succ, List.filterMap_append]
  cases h : declaredOn script body j <;> simp [declaredBefore, h]

theorem declaredBefore_succ_of_none (h : declaredOn script body j = none) :
    declaredBefore script body (j + 1) = declaredBefore script body j := by
  rw [declaredBefore_succ, h, Option.toList_none, List.append_nil]

theorem lt_of_mem_declaredBefore {e : Nat × String × Ty} (h : e ∈ declaredBefore script body j) : e.1 < j := by
  obtain ⟨d, hd, he⟩ := List.mem_filterMap.1 h
  rw [(declaredOn_some he).1]
  exact List.mem_range.1 hd

/-- A function body begins without declarations. -/
theorem declaredBefore_start (script : List Stmt) (j : Nat) : declaredBefore script (some j) (j + 1) = [] := by
  refine List.filterMap_eq_nil_iff.2 fun d hd => ?_
  cases h : declaredOn script (some j) d with
  | none => rfl
  | some e =>
    have hlt := lt_of_bodyAt (declaredOn_some h).2
    have hd := List.mem_range.1 hd
    omega

theorem declarations_eq_append (body : Option Nat) (hj : j ≤ script.length) :
    ∃ rest, declarations script body = declaredBefore script body j ++ rest ∧ ∀ e ∈ rest, j ≤ e.1 := by
  obtain ⟨t, ht⟩ := Nat.exists_eq_add_of_le hj
  refine ⟨((List.range t).map (j + ·)).filterMap (declaredOn script body), ?_, fun e he => ?_⟩
  · rw [declarations, declaredBefore, ht, List.range_add, List.filterMap_append]
    rfl
  · obtain ⟨d, hd, he⟩ := List.mem_filterMap.1 he
    obtain ⟨m, -, rfl⟩ := List.mem_map.1 hd
    rw [(declaredOn_some he).1]
    exact Nat.le_add_right j m

end

/-! ## The view of a line -/

def Declared.ofLines (ds : List (Nat × String × Ty)) : Declared := (ds.map Prod.snd).reverse

theorem Declared.ofLines_concat (ds : List (Nat × String × Ty)) (e : Nat × String × Ty) :
    Declared.ofLines (ds ++ [e]) = e.2 :: Declared.ofLines ds := by
  rw [ofLines, List.map_append, List.reverse_append]
  rfl

/-- **A name is looked up among the declarations from the last on.** -/
theorem Declared.symbol?_ofLines {x : String} {sym : Symbol} {ds : List (Nat × String × Ty)} :
    (Declared.ofLines ds).symbol? x = some sym → ∃ n d, ds[n]? = some (d, x, sym.ty) ∧ sym.offset = 4 * (n + 1) ∧
      ∀ n' d' ty', n < n' → ds[n']? ≠ some (d', x, ty') := by
  induction ds using List.reverseRecOn with
  | nil => intro h; cases h
  | append_singleton ds e ih =>
    obtain ⟨d, y, ty⟩ := e
    rw [ofLines_concat]
    intro h
    by_cases hy : y = x
    · subst hy
      rw [symbol?, if_pos rfl] at h
      cases h
      refine ⟨ds.length, d, List.getElem?_concat_length, ?_, fun n' d' ty' hn h' => ?_⟩
      · simp [ofLines]
      · have hlen : (ds ++ [(d, y, ty)]).length ≤ n' := by rw [List.length_append]; exact hn
        rw [List.getElem?_eq_none hlen] at h'
        cases h'
    · rw [symbol?, if_neg hy] at h
      obtain ⟨n, d, hn, ho, hlast⟩ := ih h
      have hlt : n < ds.length := (List.getElem?_eq_some_iff.1 hn).1
      refine ⟨n, d, by rw [List.getElem?_append_left hlt, hn], ho, fun n' d' ty' hn' h' => ?_⟩
      rw [List.getElem?_append] at h'
      split at h'
      · exact hlast n' d' ty' hn' h'
      · cases List.mem_singleton.1 (List.mem_of_getElem? h')
        exact hy rfl

/-- A view of the declarations before a line: those of the top level, and in a function body those of the body. -/
structure Views (script : List Stmt) (j : Nat) (v : View) : Prop where
  globals : v.globals = Declared.ofLines (declaredBefore script none j)
  locals : v.locals = (bodyAt script j).map fun b => Declared.ofLines (declaredBefore script (some b) j)

theorem views_initial (script : List Stmt) : Views script 0 .initial := ⟨rfl, rfl⟩

theorem Views.scope {script : List Stmt} {j : Nat} {v : View} (h : Views script j v) :
    v.scope = Declared.ofLines (declaredBefore script (bodyAt script j) j) := by
  rw [View.scope, h.locals, h.globals]
  cases bodyAt script j <;> rfl

theorem Views.declare {script : List Stmt} {j : Nat} {v : View} {ty : Ty} {x : String} (h : Views script j v)
    (hs : script[j]? = some (.declare ty x)) : Views script (j + 1) (v.after (.declare ty x)) := by
  have hb : bodyAt script (j + 1) = bodyAt script j := by simp only [bodyAt, hs]
  have hd (body : Option Nat) : declaredOn script body j = if bodyAt script j = body then some (j, x, ty) else none := by
    simp only [declaredOn, hs]
  cases hbody : bodyAt script j with
  | none =>
    have hl : v.locals = none := by rw [h.locals, hbody]; rfl
    refine ⟨?_, ?_⟩
    · rw [declaredBefore_succ, hd, if_pos hbody, Option.toList_some, Declared.ofLines_concat, ← h.globals]
      simp only [View.after, hl]
    · rw [hb, hbody]
      simp only [View.after, hl, Option.map_none]
  | some b =>
    have hl : v.locals = some (Declared.ofLines (declaredBefore script (some b) j)) := by rw [h.locals, hbody]; rfl
    refine ⟨?_, ?_⟩
    · rw [declaredBefore_succ, hd, hbody, if_neg (by simp), Option.toList_none, List.append_nil, ← h.globals]
      simp only [View.after, hl]
    · rw [hb, hbody, Option.map_some, declaredBefore_succ, hd, if_pos hbody, Option.toList_some, Declared.ofLines_concat]
      simp only [View.after, hl]

/-- **One line of a script keeps the view right.** -/
theorem Views.after {script : List Stmt} {j : Nat} {v : View} {s : Stmt} (h : Views script j v)
    (hs : script[j]? = some s) : Views script (j + 1) (v.after s) := by
  cases s with
  | declare ty x => exact h.declare hs
  | start f =>
    have hb : bodyAt script (j + 1) = some j := by simp only [bodyAt, hs]
    refine ⟨?_, ?_⟩
    · rw [declaredBefore_succ_of_none (by simp only [declaredOn, hs])]
      exact h.globals
    · -- the line of the start names the body, so no line up to it declares anything there
      rw [hb, Option.map_some, declaredBefore_start]
      rfl
  | finish =>
    have hb : bodyAt script (j + 1) = none := by simp only [bodyAt, hs]
    refine ⟨?_, ?_⟩
    · rw [declaredBefore_succ_of_none (by simp only [declaredOn, hs])]
      exact h.globals
    · rw [hb]
      rfl
  | blank | assign | display | move | delay =>
    have hb : bodyAt script (j + 1) = bodyAt script j := by simp only [bodyAt, hs]
    have hd (body : Option Nat) : declaredBefore script body (j + 1) = declaredBefore script body j :=
      declaredBefore_succ_of_none (by simp only [declaredOn, hs])
    refine ⟨?_, ?_⟩
    · rw [hd]
      exact h.globals
    · simp only [hb, hd]
      exact h.locals

/-- **The statements before a line leave its view.** -/
theorem views_afterAll (script : List Stmt) : ∀ {j : Nat}, j ≤ script.length →
    Views script j (View.initial.afterAll (script.take j))
  | 0, _ => views_initial script
  | j + 1, hj => by
    have hs : script[j]? = some script[j] := List.getElem?_eq_getElem hj
    rw [List.take_add_one, hs, View.afterAll, List.foldl_append]
    exact (views_afterAll script (Nat.le_of_succ_le hj)).after hs

/-- **A name that has a variable stands for its most recent declaration.** -/
theorem Views.refers {script : List Stmt} {j : Nat} {v : View} (h : Views script j v) (hj : j ≤ script.length)
    {x : String} {sym : Symbol} (hs : v.scope.symbol? x = some sym) :
    ∃ k, Refers script j x k sym.ty ∧ sym.offset = 4 * k ∧ k ≤ v.scope.length := by
  rw [h.scope] at hs ⊢
  obtain ⟨n, d, hn, ho, hlast⟩ := Declared.symbol?_ofLines hs
  obtain ⟨rest, hrest, hge⟩ := declarations_eq_append (bodyAt script j) hj
  have hlt : n < (declaredBefore script (bodyAt script j) j).length := (List.getElem?_eq_some_iff.1 hn).1
  refine ⟨n + 1, ⟨n, d, rfl, ?_, lt_of_mem_declaredBefore (List.mem_of_getElem? hn), ?_⟩, ho, ?_⟩
  · rw [hrest, List.getElem?_append_left hlt, hn]
  · -- a later declaration of the scope is in view and of another name, or it is not before the line
    intro n' d' ty' hn' h'
    rw [hrest, List.getElem?_append] at h'
    split at h'
    · exact absurd h' (hlast n' d' ty' hn')
    · exact hge _ (List.mem_of_getElem? h')
  · rw [Declared.ofLines, List.length_reverse, List.length_map]
    exact hlt

/-! ## The uses of names in code -/

/-- The names of an expression in the order in which they are written. -/
def Expr.names : Expr → List String
  | .int _ | .float _ => []
  | .name x => [x]
  | .binary _ l r => l.names ++ r.names

/-- **The uses of names in a statement**, each with the instruction that it is compiled to at an offset. -/
def Stmt.uses : Stmt → List (String × (Int32 → Instr))
  | .assign x e => e.names.map (·, .pushVar) ++ [(x, .storeVar)]
  | .display x => [(x, .display)]
  | .move a b => (a.names ++ b.names).map (·, .pushVar)
  | .delay a => a.names.map (·, .pushVar)
  | .blank | .declare _ _ | .start _ | .finish => []

/-- The variable whose type an assignment or a display works in. -/
def Stmt.target? : Stmt → Option String
  | .assign x _ | .display x => some x
  | _ => none

/-- An instruction that uses a name at the slot of its symbol. -/
def UsesSymbol (lookup : Lookup) (u : String × (Int32 → Instr)) (i : Instr) : Prop :=
  ∃ sym, lookup u.1 = some sym ∧ i = u.2 sym.operand

theorem Expr.uses_code {lookup : Lookup} {ty : Ty} : ∀ {e : Expr}, e.Typed lookup ty →
    List.Forall₂ (UsesSymbol lookup) (e.names.map (·, .pushVar)) ((e.code lookup ty).filter Instr.usesVariable)
  | .int _, _ => .nil
  | .float _, _ => .nil
  | .name x, h => by
    obtain ⟨sym, hs, -⟩ := Option.map_eq_some_iff.1 h
    have hc : (Expr.name x).code lookup ty = [.pushVar sym.operand] := by simp [Expr.code, hs]
    rw [hc]
    exact .cons ⟨sym, hs, rfl⟩ .nil
  | .binary op l r, h => by
    have hc : ((Expr.binary op l r).code lookup ty).filter Instr.usesVariable =
        (l.code lookup ty).filter Instr.usesVariable ++ (r.code lookup ty).filter Instr.usesVariable := by
      rw [Expr.code, List.filter_append, List.filter_append]
      exact List.append_nil _
    rw [hc, Expr.names, List.map_append]
    exact List.rel_append (Expr.uses_code h.1) (Expr.uses_code h.2)

theorem Expr.modes_code (lookup : Lookup) (ty : Ty) : ∀ e : Expr, (e.code lookup ty).filter Instr.isMode = []
  | .int _ => rfl
  | .float _ => rfl
  | .name x => by cases h : lookup x <;> simp [Expr.code, h, Instr.isMode]
  | .binary op l r => by
    rw [Expr.code, List.filter_append, List.filter_append, Expr.modes_code lookup ty l, Expr.modes_code lookup ty r]
    rfl

/-- **Each use of a name in an allowed statement is compiled to the slot of its symbol**, and nothing else uses a
variable. -/
theorem Stmt.uses_code {v : View} {s : Stmt} (ha : v.Allows s) :
    List.Forall₂ (UsesSymbol v.scope.symbol?) s.uses ((s.code v).filter Instr.usesVariable) := by
  cases s with
  | blank | declare | start | finish => exact .nil
  | assign x e =>
    obtain ⟨sym, hs, ht⟩ := ha
    simp only [Stmt.code, hs]
    rw [List.filter_cons_of_neg Bool.false_ne_true, List.filter_append]
    exact List.rel_append (Expr.uses_code ht) (.cons ⟨sym, hs, rfl⟩ .nil)
  | display x =>
    obtain ⟨sym, hs⟩ := ha
    simp only [Stmt.code, hs]
    exact .cons ⟨sym, hs, rfl⟩ .nil
  | move a b =>
    have hc : ((Stmt.move a b).code v).filter Instr.usesVariable = (a.code v.scope.symbol? .int).filter Instr.usesVariable ++
        (b.code v.scope.symbol? .int).filter Instr.usesVariable := by simp [Stmt.code, Instr.usesVariable]
    rw [hc, Stmt.uses, List.map_append]
    exact List.rel_append (Expr.uses_code ha.1) (Expr.uses_code ha.2)
  | delay a =>
    have hc : ((Stmt.delay a).code v).filter Instr.usesVariable = (a.code v.scope.symbol? .float).filter Instr.usesVariable := by
      simp [Stmt.code, Instr.usesVariable]
    rw [hc]
    exact Expr.uses_code ha

theorem Stmt.modes_code {v : View} {s : Stmt} (ha : v.Allows s) {x : String} (hx : s.target? = some x) :
    ∃ sym, v.scope.symbol? x = some sym ∧ (s.code v).filter Instr.isMode = [.mode sym.ty] := by
  cases s with
  | assign y e =>
    cases hx
    obtain ⟨sym, hs, -⟩ := ha
    refine ⟨sym, hs, ?_⟩
    simp only [Stmt.code, hs]
    rw [List.filter_cons_of_pos rfl, List.filter_append, Expr.modes_code]
    rfl
  | display y =>
    cases hx
    obtain ⟨sym, hs⟩ := ha
    refine ⟨sym, hs, ?_⟩
    simp only [Stmt.code, hs]
    rfl
  | _ => cases hx

/-! ## Lines and their code -/

/-- The code of each line. -/
def blocksOf : View → List Stmt → List (List Instr)
  | _, [] => []
  | v, s :: ss => s.code v :: blocksOf (v.after s) ss

theorem flatten_blocksOf : ∀ (v : View) (ss : List Stmt), (blocksOf v ss).flatten = codeOf v ss
  | _, [] => rfl
  | v, s :: ss => by rw [blocksOf, List.flatten_cons, flatten_blocksOf, codeOf]

theorem getElem?_blocksOf : ∀ (v : View) (ss : List Stmt) (j : Nat),
    (blocksOf v ss)[j]? = ss[j]?.map (Stmt.code (v.afterAll (ss.take j)))
  | _, [], _ => rfl
  | _, _ :: _, 0 => rfl
  | v, s :: ss, j + 1 => getElem?_blocksOf (v.after s) ss j

theorem length_blocksOf : ∀ (v : View) (ss : List Stmt), (blocksOf v ss).length = ss.length
  | _, [] => rfl
  | v, s :: ss => by rw [blocksOf, List.length_cons, List.length_cons, length_blocksOf]

theorem Allowed.allows : ∀ {ss : List Stmt} {v : View} {j : Nat} {s : Stmt}, Allowed v ss → ss[j]? = some s →
    (v.afterAll (ss.take j)).Allows s
  | _ :: _, _, 0, _, h, hs => by cases hs; exact h.1
  | _ :: _, _, _ + 1, _, h, hs => h.2.allows hs

theorem Roomy.take : ∀ {ss : List Stmt} {v : View} (j : Nat), Roomy v ss → Roomy v (ss.take j)
  | [], _, _, _ => by rw [List.take_nil]; trivial
  | _ :: _, _, 0, _ => trivial
  | _ :: _, _, j + 1, h => ⟨h.1, h.2.take j⟩

/-- **After each line its code and that of the lines before it has been emitted.** -/
theorem code_of_outcome {ls : List Line} {ss : List Stmt} (hws : List.Forall₂ (fun l st => Written (Line.kinds l) st) ls ss) :
    ∀ {s : State} {v : View} {j : Nat} {o : Outcome}, Matches s v → Allowed v ss → Roomy v ss →
      (compileLines s ls).1[j]? = some o → o.state.code = s.code ++ ((blocksOf v ss).take (j + 1)).flatten := by
  induction hws with
  | nil => intro s v j o _ _ _ ho; cases ho
  | @cons l st ls ss hw _ ih =>
    intro s v j o h ha hr ho
    have hc := carried_of_written h hw ha.1 hr.1
    cases j with
    | zero =>
      cases ho
      rw [hc.code, blocksOf, List.take_succ_cons, List.take_zero, List.flatten_singleton]
    | succ j =>
      rw [ih hc.state ha.2 hr.2 ho, hc.code, blocksOf, List.take_succ_cons, List.flatten_cons, List.append_assoc]

theorem length_compileLines : ∀ (s : State) (ls : List Line), (compileLines s ls).1.length = ls.length
  | _, [] => rfl
  | _, _ :: ls => congrArg (· + 1) (length_compileLines _ ls)

/-- **The variables of a line are resolved**: each use of a name has, in order, one instruction with the offset of what
the name stands for, no other instruction uses a variable, and an assignment or a display works in the type of its
variable. -/
structure Resolved (script : List Stmt) (j : Nat) (s : Stmt) (block : List Instr) : Prop where
  uses : List.Forall₂ (fun (u : String × (Int32 → Instr)) i => ∃ (k : Nat) (ty : Ty) (o : Int32),
    Refers script j u.1 k ty ∧ o.toInt = 4 * k ∧ i = u.2 o) s.uses (block.filter Instr.usesVariable)
  mode : ∀ x, s.target? = some x → ∃ k ty, Refers script j x k ty ∧ block.filter Instr.isMode = [.mode ty]

theorem Views.resolved {script : List Stmt} {j : Nat} {v : View} {s : Stmt} (h : Views script j v)
    (hj : j ≤ script.length) (hv : v.Small) (ha : v.Allows s) : Resolved script j s (s.code v) where
  uses := by
    refine (Stmt.uses_code ha).imp fun u i hu => ?_
    obtain ⟨sym, hs, rfl⟩ := hu
    obtain ⟨k, hr, ho, hk⟩ := h.refers hj hs
    have hlt := hv.scope
    have ho' : sym.operand.toInt = sym.offset := Int32.toInt_ofNat_of_lt (by omega)
    exact ⟨k, sym.ty, sym.operand, hr, by rw [ho', ho]; omega, rfl⟩
  mode := fun x hx => by
    obtain ⟨sym, hs, hm⟩ := Stmt.modes_code ha hx
    obtain ⟨k, hr, -⟩ := h.refers hj hs
    exact ⟨k, sym.ty, hr, hm⟩

theorem frameSize_eq (script : List Stmt) : frameSize script = 4 * (declarations script none).length := by
  have h := (views_afterAll script (Nat.le_refl _)).globals
  rw [List.take_length] at h
  rw [frameSize, h, Declared.ofLines, List.length_reverse, List.length_map]
  rfl

/-- **A program whose names are resolved**: the code of the lines of a script in a row, each emitted by its line, and a
frame with a slot for each declaration of the top level. -/
structure ResolvedProgram (script : List Stmt) (c : Compilation) (blocks : List (List Instr)) (program : List UInt8) :
    Prop where
  frame : ∃ size : Int32, program = Program.assemble (.setupFrame size :: (blocks.flatten ++ [.halt])) ∧
    size.toInt = 4 * (declarations script none).length
  length : c.outcomes.length = script.length ∧ blocks.length = script.length
  emitted : ∀ j o, c.outcomes[j]? = some o → o.state.code = (blocks.take (j + 1)).flatten
  lines : ∀ j s block, script[j]? = some s → blocks[j]? = some block → Resolved script j s block

theorem resolved_ofTokens (source : String) {tokens : List Token} {script : List Stmt}
    (hs : Reads (tokens.map Token.kind) script) (ha : Allowed .initial script) (hr : Roomy .initial script) :
    ResolvedProgram script (Compilation.ofTokens source tokens) (blocksOf .initial script)
      (Program.assemble (programOf script)) where
  frame := by
    have hlt := (small_initial.afterAll hr).globals
    have hsize : (Int32.ofNat (frameSize script)).toInt = frameSize script :=
      Int32.toInt_ofNat_of_lt (by unfold frameSize; omega)
    refine ⟨Int32.ofNat (frameSize script), by rw [flatten_blocksOf, programOf], ?_⟩
    rw [hsize, frameSize_eq, Int.natCast_mul]
    rfl
  length := by
    refine ⟨?_, length_blocksOf _ _⟩
    rw [← (hs.lines rfl).length_eq]
    exact length_compileLines _ _
  emitted := fun j o ho => code_of_outcome (hs.lines rfl) matches_initial ha hr ho
  lines := fun j s block hj hb => by
    have hle : j ≤ script.length := Nat.le_of_lt (List.getElem?_eq_some_iff.1 hj).1
    rw [getElem?_blocksOf, hj] at hb
    cases hb
    exact (views_afterAll script hle).resolved hle (small_initial.afterAll (hr.take j)) (ha.allows hj)

/-- **Names are compiled to their slots**: on each line of an accepted source every name has the slot of its most recent
declaration in the scope of the line. -/
theorem resolved_of_compile {source : String} {program : List UInt8} (hp : compile source = .ok program) :
    ∃ tokens script c blocks, Lexer.lex source = .ok tokens ∧
      (∀ other, Reads (tokens.map Token.kind) other ↔ other = script) ∧ analyse source = .ok c ∧
      ResolvedProgram script c blocks program := by
  obtain ⟨c, hc, hres⟩ := compile_ok hp
  obtain ⟨tokens, script, hlex, hreads, hvalid, hroomy, -, rfl⟩ := analyse_ok hc hres
  refine ⟨tokens, script, c, blocksOf .initial script, hlex,
    fun other => ⟨fun h => h.unique hreads, fun h => h ▸ hreads⟩, hc, ?_⟩
  rw [analyse, hlex] at hc
  cases hc
  exact resolved_ofTokens source hreads (valid_iff.1 hvalid).1 hroomy

/-- A name declared twice at the top level, with two types, and once more in a function in between. -/
theorem resolved_of_redeclared_name : ∃ tokens script c blocks,
    Lexer.lex "int x\nstart f\nfloat y\nfloat x\nx <- y\nend\nfloat x\nx <- x + 1\ndisplay x" = .ok tokens ∧
      (∀ other, Reads (tokens.map Token.kind) other ↔ other = script) ∧
      analyse "int x\nstart f\nfloat y\nfloat x\nx <- y\nend\nfloat x\nx <- x + 1\ndisplay x" = .ok c ∧
      ResolvedProgram script c blocks [1, 0, 0, 0, 64, 8, 0, 0, 0, 8, 5, 2, 4, 0, 0, 0, 4, 8, 0, 0, 0, 9, 5, 2, 8, 0, 0, 0, 3,
        0, 0, 128, 63, 32, 4, 8, 0, 0, 0, 5, 11, 8, 0, 0, 0, 10] :=
  resolved_of_compile (by decide +kernel)

end Script
end Autoscript
