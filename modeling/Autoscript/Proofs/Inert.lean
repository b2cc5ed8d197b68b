import Autoscript.Proofs.Lines
import Autoscript.Proofs.Preservation
import Autoscript.Proofs.Shape
/-!
# Inert — a function can be taken out of a script

A function leaves behind its name and nothing else: its variables are gone with its `end`, and what is outside of it never
reads them.  The name matters only to a later function that would take it again, so the statements behind a function have
the same code without it (`Fewer.codeOf`).  Since each line of a source says one statement, whatever the lines around it,
this holds for the lines of a source as well.
-/
namespace Autoscript

namespace Program

/-- **The bytes of a function in a program**, which the machine passes over as a whole. -/
theorem assemble_function {body : List Instr} (hb : .endFunc ∉ body) (front rest : List Instr) :
    assemble (front ++ .startFunc :: (body ++ .endFunc :: rest)) =
        assemble front ++ encode (.startFunc :: (body ++ [.endFunc])) ++ encode rest ∧
      Machine.functionEnd (image (assemble (front ++ .startFunc :: (body ++ .endFunc :: rest)))) (assemble front).length =
        .ok (assemble front ++ encode (.startFunc :: (body ++ [.endFunc]))).length := by
  have hsplit : Instr.startFunc :: (body ++ .endFunc :: rest) = (.startFunc :: (body ++ [.endFunc])) ++ rest := by simp
  constructor
  · rw [hsplit, assemble_append, encode_append, ← List.append_assoc]
  · have ha : Ahead (assemble (front ++ .startFunc :: (body ++ .endFunc :: rest))) (assemble front).length
        (.startFunc :: (body ++ .endFunc :: rest)) := by
      rw [Ahead, assemble_append]
      exact List.drop_left' rfl
    rw [ha.upTo.functionEnd_eq (spells_image _) hb, List.length_append, length_encode]

end Program

namespace Script

/-! ## Scripts in two parts -/

theorem View.afterAll_append (v : View) (ss ts : List Stmt) : v.afterAll (ss ++ ts) = (v.afterAll ss).afterAll ts :=
  List.foldl_append

theorem codeOf_append (ts : List Stmt) : ∀ (ss : List Stmt) (v : View),
    codeOf v (ss ++ ts) = codeOf v ss ++ codeOf (v.afterAll ss) ts
  | [], _ => rfl
  | s :: ss, v => by
    rw [List.cons_append, codeOf, codeOf_append ts ss, codeOf, List.append_assoc]
    rfl

theorem allowed_append {ts : List Stmt} : ∀ {ss : List Stmt} {v : View},
    Allowed v (ss ++ ts) ↔ Allowed v ss ∧ Allowed (v.afterAll ss) ts
  | [], _ => by simp [Allowed, View.afterAll]
  | s :: ss, v => by
    have ih : Allowed (v.after s) (ss ++ ts) ↔ _ := allowed_append
    simp [Allowed, View.afterAll, ih, and_assoc]

theorem roomy_append {ts : List Stmt} : ∀ {ss : List Stmt} {v : View},
    Roomy v (ss ++ ts) ↔ Roomy v ss ∧ Roomy (v.afterAll ss) ts
  | [], _ => by simp [Roomy, View.afterAll]
  | s :: ss, v => by
    have ih : Roomy (v.after s) (ss ++ ts) ↔ _ := roomy_append
    simp [Roomy, View.afterAll, ih, and_assoc]

/-! ## Fewer names -/

/-- **The same variables, but fewer names of functions.** -/
structure View.Fewer (v w : View) : Prop where
  globals : v.globals = w.globals
  locals : v.locals = w.locals
  functions : v.functions ⊆ w.functions

theorem View.fewer_cons (v : View) (f : String) : v.Fewer { v with functions := f :: v.functions } :=
  ⟨rfl, rfl, List.subset_cons_self f _⟩

namespace View.Fewer

section
variable {v w : View} (h : v.Fewer w)
include h

theorem scope : v.scope = w.scope := by rw [View.scope, View.scope, h.locals, h.globals]

theorem after (s : Stmt) : (v.after s).Fewer (w.after s) := by
  obtain ⟨hg, hl, hf⟩ := h
  cases s with
  | declare ty x =>
    cases hw : w.locals with
    | none => simp only [View.after, hl, hw]; exact ⟨by rw [hg], rfl, hf⟩
    | some ls => simp only [View.after, hl, hw]; exact ⟨hg, rfl, hf⟩
  | start f => exact ⟨hg, rfl, List.cons_subset_cons f hf⟩
  | finish => exact ⟨hg, rfl, hf⟩
  | _ => exact ⟨hg, hl, hf⟩

theorem allows {s : Stmt} (ha : w.Allows s) : v.Allows s := by
  cases s with
  | start f => exact ⟨h.locals.trans ha.1, fun hf => ha.2 (h.functions hf)⟩
  | finish => exact fun hl => ha (h.locals.symm.trans hl)
  | blank | declare => trivial
  | _ =>
    simp only [View.Allows, h.scope]
    exact ha

theorem hasRoom {s : Stmt} (hr : w.HasRoom s) : v.HasRoom s := by
  cases s with
  | declare ty x =>
    simp only [View.HasRoom, h.scope]
    exact hr
  | _ => trivial

theorem code (s : Stmt) : s.code v = s.code w := by cases s <;> simp only [Stmt.code, h.scope]

end

variable {v w : View} {ss : List Stmt}

theorem afterAll (h : v.Fewer w) : (v.afterAll ss).Fewer (w.afterAll ss) := by
  induction ss generalizing v w with
  | nil => exact h
  | cons s ss ih => exact ih (h.after s)

theorem allowed (h : v.Fewer w) (ha : Allowed w ss) : Allowed v ss := by
  induction ss generalizing v w with
  | nil => trivial
  | cons s ss ih => exact ⟨h.allows ha.1, ih (h.after s) ha.2⟩

theorem roomy (h : v.Fewer w) (hr : Roomy w ss) : Roomy v ss := by
  induction ss generalizing v w with
  | nil => trivial
  | cons s ss ih => exact ⟨h.hasRoom hr.1, ih (h.after s) hr.2⟩

theorem codeOf (h : v.Fewer w) (ss : List Stmt) : codeOf v ss = Script.codeOf w ss := by
  induction ss generalizing v w with
  | nil => rfl
  | cons s ss ih => rw [Script.codeOf, Script.codeOf, h.code s, ih (h.after s)]

end View.Fewer

/-! ## A function -/

theorem afterAll_inside {ss : List Stmt} {v : View} (hl : v.locals ≠ none) (hf : .finish ∉ ss) (ha : Allowed v ss) :
    ∃ ls, v.afterAll ss = { v with locals := some ls } := by
  induction ss generalizing v with
  | nil =>
    obtain ⟨ls, hls⟩ := Option.ne_none_iff_exists'.1 hl
    exact ⟨ls, by rw [← hls]; rfl⟩
  | cons s ss ih =>
    rw [List.mem_cons, not_or] at hf
    cases s with
    | start f => exact absurd ha.1.1 hl
    | finish => exact absurd rfl hf.1
    | declare ty x =>
      obtain ⟨ls, hls⟩ := Option.ne_none_iff_exists'.1 hl
      have hafter : v.after (.declare ty x) = { v with locals := some ((x, ty) :: ls) } := by simp only [View.after, hls]
      obtain ⟨ls', hls'⟩ := ih (by rw [hafter]; simp) hf.2 ha.2
      rw [hafter] at hls'
      exact ⟨ls', by rw [View.afterAll, List.foldl_cons, hafter]; exact hls'⟩
    | blank | assign | display | move | delay => exact ih hl hf.2 ha.2

theorem endFunc_notMem_codeOf : ∀ {ss : List Stmt} (v : View), .finish ∉ ss → .endFunc ∉ codeOf v ss
  | [], _, _ => by simp [codeOf]
  | s :: ss, v, h => by
    rw [List.mem_cons, not_or] at h
    rw [codeOf, List.mem_append, not_or]
    exact ⟨endFunc_notMem_code v (Ne.symm h.1), endFunc_notMem_codeOf _ h.2⟩

section
variable {before inner after : List Stmt} {f : String} (hfin : .finish ∉ inner)
include hfin

/-- **Behind a function there is one more name, and nothing else.** -/
theorem afterAll_function {v : View} (ha : Allowed v (.start f :: inner)) :
    v.afterAll (.start f :: (inner ++ [.finish])) = { v with functions := f :: v.functions } := by
  obtain ⟨⟨hl, -⟩, hin⟩ := ha
  obtain ⟨ls, hls⟩ := afterAll_inside (v := v.after (.start f)) (by simp [View.after]) hfin hin
  have hcons : v.afterAll (.start f :: (inner ++ [.finish])) = (v.after (.start f)).afterAll (inner ++ [.finish]) := rfl
  rw [hcons, View.afterAll_append, hls]
  show View.after _ .finish = _
  simp [View.after, hl]

/-- **A script without one of its functions**: it is valid, and has the same program less the code of the function. -/
theorem without_function (hv : Valid .initial (before ++ .start f :: (inner ++ .finish :: after)))
    (hr : Roomy .initial (before ++ .start f :: (inner ++ .finish :: after))) :
    Valid .initial (before ++ after) ∧ Roomy .initial (before ++ after) ∧ ∃ size body rest, .endFunc ∉ body ∧
      programOf (before ++ .start f :: (inner ++ .finish :: after)) =
        .setupFrame size :: codeOf .initial before ++ .startFunc :: (body ++ .endFunc :: rest) ∧
      programOf (before ++ after) = .setupFrame size :: codeOf .initial before ++ rest := by
  have hsplit : Stmt.start f :: (inner ++ .finish :: after) = (.start f :: (inner ++ [.finish])) ++ after := by simp
  rw [hsplit] at hv hr ⊢
  rw [valid_iff, allowed_append, allowed_append, View.afterAll_append, View.afterAll_append] at hv
  rw [roomy_append, roomy_append] at hr
  obtain ⟨⟨hbefore, hblock, hafter⟩, hnone⟩ := hv
  have hin : Allowed (View.initial.afterAll before) (.start f :: inner ++ [.finish]) := hblock
  -- what comes behind the function sees one name more than it would without it
  have hview := afterAll_function hfin (allowed_append.1 hin).1
  rw [hview] at hafter hnone hr
  have hfewer := (View.initial.afterAll before).fewer_cons f
  have hframe : frameSize (before ++ (.start f :: (inner ++ [.finish]) ++ after)) = frameSize (before ++ after) := by
    rw [frameSize, frameSize, View.afterAll_append, View.afterAll_append, hview, View.afterAll_append,
      hfewer.afterAll.globals]
  refine ⟨valid_iff.2 ⟨allowed_append.2 ⟨hbefore, hfewer.allowed hafter⟩, ?_⟩,
    roomy_append.2 ⟨hr.1, hfewer.roomy hr.2.2⟩, Int32.ofNat (frameSize (before ++ after)),
    codeOf ((View.initial.afterAll before).after (.start f)) inner,
    codeOf (View.initial.afterAll before) after ++ [.halt], endFunc_notMem_codeOf _ hfin, ?_, ?_⟩
  · rw [View.afterAll_append, hfewer.afterAll.locals]
    exact hnone
  · rw [programOf, hframe, codeOf_append, codeOf_append, hview, ← hfewer.codeOf]
    simp [codeOf, codeOf_append, Stmt.code]
  · rw [programOf, codeOf_append]
    simp

end

/-! ## The table of functions -/

theorem Change.functions {s s' : State} (h : Change s s') : s.functions ⊆ s'.functions := by
  cases h with
  | start => exact List.subset_cons_self _ _
  | emit | declare | finish => exact List.Subset.refl _

theorem functions_compileLines : ∀ (ls : List Line) (s : State), s.functions ⊆ (compileLines s ls).2.functions
  | [], _ => List.Subset.refl _
  | l :: ls, _ => List.Subset.trans (change_of_compile l).functions (functions_compileLines ls _)

theorem functions_of_start {s : State} {v : View} (h : Matches s v) {l : Line} {f : String}
    (hw : Written l.kinds (.start f)) (ha : v.Allows (.start f)) :
    (f, s.position) ∈ (Statement.compile s l).state.functions := by
  have hm := (carried_of_written h hw ha trivial).state.functions
  have hc := change_of_compile (s := s) l
  generalize (Statement.compile s l).state = s' at hm hc ⊢
  have hs : s.functions.map Prod.fst ≠ f :: v.functions := by
    rw [h.functions]
    exact fun he => absurd (congrArg List.length he) (by simp)
  cases hc with
  | emit | declare | finish => exact absurd hm hs
  | start =>
    injection hm with hf
    rw [← hf]
    exact List.mem_cons_self

/-- **The table has each function at the position of its code.** -/
theorem mem_functions {f : String} {rest : List Stmt} : ∀ {before : List Stmt} {ls : List Line} {s : State} {v : View},
    Matches s v → List.Forall₂ (fun l st => Written (Line.kinds l) st) ls (before ++ .start f :: rest) →
      Allowed v (before ++ .start f :: rest) → Roomy v (before ++ .start f :: rest) →
        (f, s.position + Program.width (codeOf v before)) ∈ (compileLines s ls).2.functions
  | [], l :: ls, s, v, h, .cons hw _, ⟨ha, _⟩, _ =>
    functions_compileLines ls (Statement.compile s l).state (functions_of_start h hw ha)
  | st :: before, l :: ls, s, v, h, .cons hw hws, ⟨ha, has⟩, ⟨hr, hrs⟩ => by
    have hc := carried_of_written h hw ha hr
    have hpos : (Statement.compile s l).state.position = s.position + Program.width (st.code v) := by
      rw [State.position, State.position, hc.code, Program.width_append, Nat.add_assoc _ (Program.width s.code)]
    have ih := mem_functions hc.state hws has hrs
    rw [hpos, Nat.add_assoc, ← Program.width_append] at ih
    exact ih

/-! ## Sources -/

theorem compile_ofLines {ls : List (List Char)} {script : List Stmt} (hn : ∀ l ∈ ls, '\n' ∉ l)
    (h : List.Forall₂ (fun l s => Spelled l [s]) ls script) (hv : Valid .initial script) (hr : Roomy .initial script) :
    compile (ofLines ls) = .ok (Program.assemble (programOf script)) := by
  cases h with
  | nil => decide +kernel
  | cons hw hws =>
    obtain ⟨ts, hl, hs⟩ := (spelled_lines (List.cons_ne_nil _ _) hn).2 (.cons hw hws)
    exact compile_of_reads hl hs hv hr

theorem forall₂_append_left {α β : Type} {R : α → β → Prop} {xs ys : List α} {zs : List β}
    (h : List.Forall₂ R (xs ++ ys) zs) :
    ∃ us vs, zs = us ++ vs ∧ List.Forall₂ R xs us ∧ List.Forall₂ R ys vs :=
  ⟨zs.take xs.length, zs.drop xs.length, (List.take_append_drop _ _).symm,
    (List.forall₂_take_append zs xs ys h.flip).flip, (List.forall₂_drop_append zs xs ys h.flip).flip⟩

theorem script_of_lines {before inner after : List (List Char)} {first last : List Char} {f : String} {script : List Stmt}
    (h : List.Forall₂ (fun l s => Spelled l [s]) (before ++ first :: (inner ++ last :: after)) script)
    (hs : Spelled first [.start f]) (he : Spelled last [.finish]) (hi : ∀ l ∈ inner, ¬ Spelled l [.finish]) :
    ∃ sb si sa, script = sb ++ .start f :: (si ++ .finish :: sa) ∧ .finish ∉ si ∧
      List.Forall₂ (fun l s => Spelled l [s]) (before ++ after) (sb ++ sa) := by
  obtain ⟨sb, rest, rfl, hb, hrest⟩ := forall₂_append_left h
  cases hrest with
  | cons hfirst hrest =>
    cases hfirst.unique hs
    obtain ⟨si, rest, rfl, hin, hrest⟩ := forall₂_append_left hrest
    cases hrest with
    | cons hlast ha =>
      cases hlast.unique he
      refine ⟨sb, si, _, rfl, fun hm => ?_, List.rel_append hb ha⟩
      obtain ⟨us, vs, rfl⟩ := List.append_of_mem hm
      obtain ⟨ks, rest, rfl, -, hrest⟩ := forall₂_append_left hin.flip
      cases hrest with
      | cons hfin _ => exact hi _ (List.mem_append_right _ List.mem_cons_self) hfin

/-- **A function can be taken out of a source.**  If the lines from the one that starts a function to the one that ends it
are left out, the source still has a program, and that is the old one without the bytes from the start of the function to
its end. -/
theorem compile_without_function {source : String} {program : List UInt8} (hp : compile source = .ok program)
    {before inner after : List (List Char)} {first last : List Char} {f : String}
    (hl : linesOf source = before ++ first :: (inner ++ last :: after)) (hs : Spelled first [.start f])
    (he : Spelled last [.finish]) (hi : ∀ l ∈ inner, ¬ Spelled l [.finish]) :
    ∃ c pre body post, analyse source = .ok c ∧ (f, pre.length) ∈ c.state.functions ∧ .endFunc ∉ body ∧
      program = pre ++ Program.encode (.startFunc :: (body ++ [.endFunc])) ++ post ∧
      Machine.functionEnd (Program.image program) pre.length =
        .ok (pre ++ Program.encode (.startFunc :: (body ++ [.endFunc]))).length ∧
      compile (ofLines (before ++ after)) = .ok (pre ++ post) := by
  obtain ⟨c, hc, hres⟩ := compile_ok hp
  obtain ⟨tokens, script, hlex, hreads, hvalid, hroomy, -, rfl⟩ := analyse_ok hc hres
  have hlines := spelled_linesOf hlex hreads
  rw [hl] at hlines
  obtain ⟨sb, si, sa, rfl, hfin, hrest⟩ := script_of_lines hlines hs he hi
  obtain ⟨hvalid', hroomy', size, body, rest, hbody, hprogram, hprogram'⟩ := without_function hfin hvalid hroomy
  have hnewline : ∀ l ∈ before ++ after, '\n' ∉ l := fun l hm => by
    refine newline_notMem_of_mem_splitOn (show l ∈ linesOf source from ?_)
    rw [hl]
    simp only [List.mem_append, List.mem_cons] at hm ⊢
    tauto
  have hcompile := compile_ofLines hnewline hrest hvalid' hroomy'
  rw [hprogram', Program.assemble_append] at hcompile
  -- the table of the compiler, read off the statements
  obtain ⟨tokens', hlex', rfl⟩ := tokens_of_analyse hc
  cases hlex.symm.trans hlex'
  have htable := mem_functions matches_initial (hreads.lines rfl) (valid_iff.1 hvalid).1 hroomy
  have hpos : State.initial.position + Program.width (codeOf .initial sb) =
      (Program.assemble (.setupFrame size :: codeOf .initial sb)).length := by
    rw [Program.length_assemble]
    exact Nat.add_assoc Program.headerSize (Instr.setupFrame size).width _
  rw [hpos] at htable
  obtain ⟨hbytes, hend⟩ := Program.assemble_function hbody (.setupFrame size :: codeOf .initial sb) rest
  rw [hprogram]
  exact ⟨_, _, body, _, hc, htable, hbody, hbytes, hend, hcompile⟩

/-- A function with a variable of its own that has the name of another. -/
theorem compile_without_shadowing_function :
    ∃ pre body post, compile "int x\nstart f\nfloat x\nx <- 1\nend\ndisplay x" =
        .ok (pre ++ Program.encode (.startFunc :: (body ++ [.endFunc])) ++ post) ∧
      .endFunc ∉ body ∧ compile "int x\ndisplay x" = .ok (pre ++ post) := by
  have hcompile : compile "int x\nstart f\nfloat x\nx <- 1\nend\ndisplay x" = .ok
      [1, 0, 0, 0, 64, 4, 0, 0, 0, 8, 5, 3, 0, 0, 128, 63, 4, 4, 0, 0, 0, 9, 6, 11, 4, 0, 0, 0, 10] := by decide +kernel
  have hl : linesOf "int x\nstart f\nfloat x\nx <- 1\nend\ndisplay x" =
      ["int x".toList] ++ "start f".toList ::
        (["float x".toList, "x <- 1".toList] ++ "end".toList :: ["display x".toList]) := by decide +kernel
  have hs : Spelled "start f".toList [.start "f"] := ⟨[⟨.keyword .start, 1⟩, ⟨.name "f", 1⟩, ⟨.endOfSource, 1⟩],
    by decide +kernel, .last (.start "f")⟩
  have he : Spelled "end".toList [.finish] := ⟨[⟨.keyword .finish, 1⟩, ⟨.endOfSource, 1⟩], by decide +kernel, .last .finish⟩
  have hdeclare : Spelled "float x".toList [.declare .float "x"] :=
    ⟨[⟨.keyword (.declare .float), 1⟩, ⟨.name "x", 1⟩, ⟨.endOfSource, 1⟩], by decide +kernel, .last (.declare .float "x")⟩
  have hassign : Spelled "x <- 1".toList [.assign "x" (.int 1)] :=
    ⟨[⟨.name "x", 1⟩, ⟨.operator .assign, 1⟩, ⟨.int 1, 1⟩, ⟨.endOfSource, 1⟩], by decide +kernel,
      .last (.assign "x" (.widen (.widen (.int 1))))⟩
  have hi : ∀ l ∈ ["float x".toList, "x <- 1".toList], ¬ Spelled l [.finish] := by
    intro l hm hfin
    rcases List.mem_cons.1 hm with rfl | hm
    · cases hdeclare.unique hfin
    · rw [List.mem_singleton] at hm
      subst hm
      cases hassign.unique hfin
  obtain ⟨c, pre, body, post, -, -, hbody, hbytes, -, hrest⟩ := compile_without_function hcompile hl hs he hi
  exact ⟨pre, body, post, hcompile.trans (congrArg _ hbytes), hbody, hrest⟩

end Script
end Autoscript
