import Autoscript.Proofs.Preservation
/-!
# Ideal — the machine without a memory

The code of a script never looks at an address: it works on a mode, on variables by their number and on a list of operands.
The ideal machine does just that, on code instead of bytes and with room for a number of operands.  What it does with less
room, or with the first part of some code, stops earlier but is otherwise the same (`run_room`, `run_append`).

Code is *orderly* if each instruction finds its operands and its variable.  The code of a valid script is orderly, and so is
each first part of orderly code.
-/
namespace Autoscript

open Machine (Fault)

structure IdealMachine where
  mode : Ty
  vars : Nat → Word
  /-- The operands, the one on top first. -/
  operands : List Word

namespace IdealMachine

inductive Ending where
  | halted
  | fault (f : Fault)
  /-- There is no room for another operand. -/
  | full
  /-- The code is over before it halts. -/
  | cut

/-- The effects of some code in order, and how it ended. -/
structure Course where
  effects : List Effect
  ending : Ending

def Course.after (e : Option Effect) (c : Course) : Course := { c with effects := e.toList ++ c.effects }

def initial : IdealMachine := ⟨.int, fun _ => 0, []⟩

/-- The number of the variable at an offset. -/
def slot (offset : Int32) : Nat := offset.toInt.toNat / 4

/-- Carries out an instruction that stands for an expression or a statement. -/
def execute (s : IdealMachine) (i : Instr) : Except Fault (IdealMachine × Option Effect) :=
  match i, s.operands with
  | .mode ty, _ => .ok ({ s with mode := ty }, none)
  | .pushImm w, ws => .ok ({ s with operands := w :: ws }, none)
  | .pushVar o, ws => .ok ({ s with operands := s.vars (slot o) :: ws }, none)
  | .storeVar o, w :: ws => .ok ({ s with vars := fun k => if k = slot o then w else s.vars k, operands := ws }, none)
  | .arith op, r :: l :: ws =>
    match op.eval s.mode l r with
    | some w => .ok ({ s with operands := w :: ws }, none)
    | none => .error .divisionByZero
  | .display o, _ => .ok (s, some (.display o (s.mode.read (s.vars (slot o)))))
  | .move, y :: x :: ws => .ok ({ s with operands := ws }, some (.move (Word.toInt x) (Word.toInt y)))
  | .delay, w :: ws =>
    match Single.nanoseconds? ⟨w⟩ with
    | some ns => .ok ({ s with operands := ws }, some (.delay ns))
    | none => .error (.invalidDelay ⟨w⟩)
  | _, ws => .error (.stackUnderflow ws.length)

theorem execute_arith (ty : Ty) (vars : Nat → Word) (op : Arith) (r l : Word) (ws : List Word) :
    execute ⟨ty, vars, r :: l :: ws⟩ (.arith op) = match op.eval ty l r with
      | some w => .ok (⟨ty, vars, w :: ws⟩, none)
      | none => .error .divisionByZero := rfl

theorem execute_delay (ty : Ty) (vars : Nat → Word) (w : Word) (ws : List Word) :
    execute ⟨ty, vars, w :: ws⟩ .delay = match Single.nanoseconds? ⟨w⟩ with
      | some ns => .ok (⟨ty, vars, ws⟩, some (.delay ns))
      | none => .error (.invalidDelay ⟨w⟩) := rfl

/-- The code behind the first `endFunc`. -/
def behindEnd : List Instr → Option (List Instr)
  | [] => none
  | i :: code => if i = .endFunc then some code else behindEnd code

theorem behindEnd_eq_some {code rest : List Instr} :
    behindEnd code = some rest ↔ ∃ body, .endFunc ∉ body ∧ code = body ++ .endFunc :: rest := by
  induction code with
  | nil => simp [behindEnd]
  | cons i code ih =>
    unfold behindEnd
    by_cases hi : i = .endFunc
    · rw [if_pos hi]
      constructor
      · rintro ⟨⟩
        exact ⟨[], by simp, by rw [hi]; rfl⟩
      · rintro ⟨body, hb, hc⟩
        cases body with
        | nil => cases hc; rfl
        | cons j body =>
          cases hc
          exact absurd (hi ▸ List.mem_cons_self) hb
    · rw [if_neg hi, ih]
      constructor
      · rintro ⟨body, hb, rfl⟩
        exact ⟨i :: body, by simp [Ne.symm hi, hb], rfl⟩
      · rintro ⟨body, hb, hc⟩
        cases body with
        | nil => cases hc; exact absurd rfl hi
        | cons j body =>
          cases hc
          exact ⟨body, fun h => hb (List.mem_cons_of_mem _ h), rfl⟩

theorem notMem_of_behindEnd {code : List Instr} (h : behindEnd code = none) : .endFunc ∉ code := by
  intro hm
  obtain ⟨body, rest, hc, hb⟩ := List.eq_append_cons_of_mem hm
  rw [behindEnd_eq_some.2 ⟨body, hb, hc⟩] at h
  cases h

theorem behindEnd_append {code rest : List Instr} (h : behindEnd code = some rest) (more : List Instr) :
    behindEnd (code ++ more) = some (rest ++ more) := by
  obtain ⟨body, hb, rfl⟩ := behindEnd_eq_some.1 h
  exact behindEnd_eq_some.2 ⟨body, hb, by simp⟩

theorem length_behindEnd {code rest : List Instr} (h : behindEnd code = some rest) : rest.length < code.length := by
  obtain ⟨body, -, rfl⟩ := behindEnd_eq_some.1 h
  simp
  omega

/-- **What code does with room for a number of operands.** -/
def run (room : Nat) (s : IdealMachine) : List Instr → Course
  | [] => ⟨[], .cut⟩
  | .halt :: _ => ⟨[], .halted⟩
  | .startFunc :: code =>
    match _h : behindEnd code with
    | some rest => run room s rest
    | none => ⟨[], .cut⟩
  | i :: code =>
    match s.execute i with
    | .error f => ⟨[], .fault f⟩
    | .ok (s', e) => if s'.operands.length ≤ room then (run room s' code).after e else ⟨[], .full⟩
termination_by code => code.length
decreasing_by
  · have := length_behindEnd _h
    simp only [List.length_cons]
    omega
  · simp

/-! ## Less room, less code -/

/-- **One course is as far as it goes the same as another**: it stops in a certain way, or they are equal. -/
def Course.Within (e : Ending) (c c' : Course) : Prop := (c.ending = e ∧ c.effects <+: c'.effects) ∨ c = c'

theorem Course.Within.after {e : Ending} {c c' : Course} (h : c.Within e c') (x : Option Effect) :
    (c.after x).Within e (c'.after x) := by
  rcases h with ⟨he, hp⟩ | rfl
  · exact .inl ⟨he, (List.prefix_append_right_inj _).2 hp⟩
  · exact .inr rfl

theorem Course.within_of_stop {e : Ending} (c : Course) : Course.Within e ⟨[], e⟩ c := .inl ⟨rfl, List.nil_prefix⟩

theorem Course.Within.effects {e : Ending} {c c' : Course} (h : c.Within e c') : c.effects <+: c'.effects := by
  rcases h with ⟨-, hp⟩ | rfl
  · exact hp
  · exact List.prefix_refl _

theorem run_startFunc (room : Nat) (s : IdealMachine) (code : List Instr) : run room s (.startFunc :: code) =
    match behindEnd code with
    | some rest => run room s rest
    | none => ⟨[], .cut⟩ := by
  rw [run]
  split <;> rename_i h <;> simp only [h]

theorem run_plain {i : Instr} (h1 : i ≠ .halt) (h2 : i ≠ .startFunc) (room : Nat) (s : IdealMachine) (code : List Instr) :
    run room s (i :: code) =
      match s.execute i with
      | .error f => ⟨[], .fault f⟩
      | .ok (s', e) => if s'.operands.length ≤ room then (run room s' code).after e else ⟨[], .full⟩ := by
  rw [run]
  · exact h1
  · exact h2

/-- **Less room stops a course earlier, if it changes it.** -/
theorem run_room {room room' : Nat} (hr : room ≤ room') (s : IdealMachine) (code : List Instr) :
    (run room s code).Within .full (run room' s code) := by
  fun_induction run room s code with
  | case1 s => rw [run]; exact .inr rfl
  | case2 s code => rw [run]; exact .inr rfl
  | case3 s code rest hb ih =>
    rw [run_startFunc, hb]
    exact ih
  | case4 s code hb =>
    rw [run_startFunc, hb]
    exact .inr rfl
  | case5 s i code h1 h2 f he =>
    rw [run_plain h1 h2, he]
    exact .inr rfl
  | case6 s i code h1 h2 s' e he hle ih =>
    rw [run_plain h1 h2, he]
    simp only [if_pos (Nat.le_trans hle hr)]
    exact ih.after e
  | case7 s i code h1 h2 s' e he hle => exact Course.within_of_stop _

/-- **The first part of some code does the same as far as it goes.** -/
theorem run_append (room : Nat) (s : IdealMachine) (code more : List Instr) :
    (run room s code).Within .cut (run room s (code ++ more)) := by
  fun_induction run room s code with
  | case1 s => exact Course.within_of_stop _
  | case2 s code => rw [List.cons_append, run]; exact .inr rfl
  | case3 s code rest hb ih =>
    rw [List.cons_append, run_startFunc, behindEnd_append hb]
    exact ih
  | case4 s code hb => exact Course.within_of_stop _
  | case5 s i code h1 h2 f he =>
    rw [List.cons_append, run_plain h1 h2, he]
    exact .inr rfl
  | case6 s i code h1 h2 s' e he hle ih =>
    rw [List.cons_append, run_plain h1 h2, he]
    simp only [if_pos hle]
    exact ih.after e
  | case7 s i code h1 h2 s' e he hle =>
    rw [List.cons_append, run_plain h1 h2, he]
    simp only [if_neg hle]
    exact .inr rfl

theorem halt_mem_of_run {room : Nat} {s : IdealMachine} {code : List Instr} :
    (run room s code).ending = .halted → .halt ∈ code := by
  fun_induction run room s code with
  | case2 => intro _; exact List.mem_cons_self
  | case3 s code rest hb ih =>
    intro h
    obtain ⟨body, -, rfl⟩ := behindEnd_eq_some.1 hb
    simp [ih h]
  | case6 s i code h1 h2 s' e he hle ih => exact fun h => List.mem_cons_of_mem _ (ih h)
  | case1 | case4 | case5 | case7 => intro h; cases h

/-! ## Orderly code -/

/-- **An instruction that finds what it needs**: the operands before it and the variable, among so many; and the number of
operands that it leaves. -/
inductive Takes (slots : Nat) : Instr → Nat → Nat → Prop where
  | mode (ty : Ty) (n : Nat) : Takes slots (.mode ty) n n
  | pushImm (w : Word) (n : Nat) : Takes slots (.pushImm w) n (n + 1)
  | pushVar {k : Nat} (n : Nat) : 1 ≤ k → k ≤ slots → Takes slots (.pushVar (Int32.ofNat (4 * k))) n (n + 1)
  | storeVar {k : Nat} (n : Nat) : 1 ≤ k → k ≤ slots → Takes slots (.storeVar (Int32.ofNat (4 * k))) (n + 1) n
  | arith (op : Arith) (n : Nat) : Takes slots (.arith op) (n + 2) (n + 1)
  | display {k : Nat} (n : Nat) : 1 ≤ k → k ≤ slots → Takes slots (.display (Int32.ofNat (4 * k))) n n
  | move (n : Nat) : Takes slots .move (n + 2) n
  | delay (n : Nat) : Takes slots .delay (n + 1) n

/-- **Orderly code**, from a number of operands on. -/
inductive Orderly (slots : Nat) : Nat → List Instr → Prop where
  | nil (n : Nat) : Orderly slots n []
  | halt (n : Nat) (code : List Instr) : Orderly slots n (.halt :: code)
  | plain {i : Instr} {n k : Nat} {code : List Instr} : Takes slots i n k → Orderly slots k code →
      Orderly slots n (i :: code)
  | function {n : Nat} {code rest : List Instr} : behindEnd code = some rest → Orderly slots n rest →
      Orderly slots n (.startFunc :: code)
  | openFunction {n : Nat} {code : List Instr} : behindEnd code = none → Orderly slots n (.startFunc :: code)

theorem Orderly.of_append {slots n : Nat} {code more : List Instr} (h : Orderly slots n (code ++ more)) :
    Orderly slots n code := by
  generalize hc : code ++ more = whole at h
  induction h generalizing code with
  | nil n =>
    obtain ⟨rfl, -⟩ := List.append_eq_nil_iff.1 hc
    exact .nil n
  | halt n rest =>
    rcases List.append_eq_cons_iff.1 hc with ⟨rfl, -⟩ | ⟨code, rfl, -⟩
    · exact .nil n
    · exact .halt n code
  | plain ht _ ih =>
    rcases List.append_eq_cons_iff.1 hc with ⟨rfl, -⟩ | ⟨code, rfl, he⟩
    · exact .nil _
    · exact .plain ht (ih he.symm)
  | @function n _ rest hb _ ih =>
    rcases List.append_eq_cons_iff.1 hc with ⟨rfl, -⟩ | ⟨code, rfl, rfl⟩
    · exact .nil _
    · -- the cut lies in the function, which then has no end, or behind it
      cases hcode : behindEnd code with
      | none => exact .openFunction hcode
      | some behind =>
        rw [behindEnd_append hcode] at hb
        cases hb
        exact .function hcode (ih rfl)
  | openFunction hb =>
    rcases List.append_eq_cons_iff.1 hc with ⟨rfl, -⟩ | ⟨code, rfl, rfl⟩
    · exact .nil _
    · cases hcode : behindEnd code with
      | none => exact .openFunction hcode
      | some behind =>
        rw [behindEnd_append hcode] at hb
        cases hb

end IdealMachine

/-! ## The code of a script -/

namespace Script

open IdealMachine (Takes Orderly)

theorem Declared.offset_of_symbol {x : String} {sym : Symbol} : ∀ {d : Declared}, d.symbol? x = some sym →
    ∃ k, 1 ≤ k ∧ k ≤ d.length ∧ sym.offset = 4 * k
  | (y, ty) :: d, h => by
    unfold Declared.symbol? at h
    split at h
    · cases h
      exact ⟨d.length + 1, by omega, Nat.le_refl _, rfl⟩
    · obtain ⟨k, h1, h2, hk⟩ := Declared.offset_of_symbol h
      exact ⟨k, h1, Nat.le_succ_of_le h2, hk⟩

section
variable {slots n : Nat} {d : Declared} (hd : d.length ≤ slots)
include hd

theorem operand_of_symbol {x : String} {sym : Symbol} (h : d.symbol? x = some sym) :
    ∃ k, 1 ≤ k ∧ k ≤ slots ∧ sym.operand = Int32.ofNat (4 * k) := by
  obtain ⟨k, h1, h2, hk⟩ := Declared.offset_of_symbol h
  exact ⟨k, h1, h2.trans hd, by rw [Symbol.operand, hk]⟩

theorem orderly_expression {ty : Ty} : ∀ {e : Expr} {n : Nat} {code : List Instr}, e.Typed d.symbol? ty →
    Orderly slots (n + 1) code → Orderly slots n (e.code d.symbol? ty ++ code)
  | .int _, _, _, _, h => .plain (.pushImm _ _) h
  | .float _, _, _, _, h => .plain (.pushImm _ _) h
  | .name x, n, code, ht, h => by
    obtain ⟨sym, hx, -⟩ := Option.map_eq_some_iff.1 ht
    obtain ⟨k, h1, h2, hk⟩ := operand_of_symbol hd hx
    have hcode : Expr.code d.symbol? ty (.name x) = [.pushVar (Int32.ofNat (4 * k))] := by simp [Expr.code, hx, hk]
    rw [hcode]
    exact .plain (.pushVar n h1 h2) h
  | .binary op l r, n, code, ⟨hl, hr⟩, h => by
    have hcode : Expr.code d.symbol? ty (.binary op l r) ++ code =
        l.code d.symbol? ty ++ (r.code d.symbol? ty ++ .arith op :: code) := by simp [Expr.code]
    rw [hcode]
    exact orderly_expression hl (orderly_expression hr (.plain (.arith op n) h))

end

theorem orderly_statement {slots : Nat} {v : View} {s : Stmt} {code : List Instr} (hd : v.scope.length ≤ slots)
    (ha : v.Allows s) (h1 : ∀ f, s ≠ .start f) (h2 : s ≠ .finish) (h : Orderly slots 0 code) :
    Orderly slots 0 (s.code v ++ code) := by
  cases s with
  | blank | declare => exact h
  | assign x e =>
    obtain ⟨sym, hx, ht⟩ := ha
    obtain ⟨k, hk1, hk2, hk⟩ := operand_of_symbol hd hx
    simp only [Stmt.code, hx, hk, List.cons_append, List.append_assoc, List.nil_append]
    exact .plain (.mode _ _) (orderly_expression hd ht (.plain (.storeVar 0 hk1 hk2) h))
  | display x =>
    obtain ⟨sym, hx⟩ := ha
    obtain ⟨k, hk1, hk2, hk⟩ := operand_of_symbol hd hx
    simp only [Stmt.code, hx, hk, List.cons_append, List.nil_append]
    exact .plain (.mode _ _) (.plain (.display 0 hk1 hk2) h)
  | move a b =>
    simp only [Stmt.code, List.cons_append, List.append_assoc, List.nil_append]
    exact .plain (.mode _ _) (orderly_expression hd ha.1 (orderly_expression hd ha.2 (.plain (.move 0) h)))
  | delay a =>
    simp only [Stmt.code, List.cons_append, List.append_assoc, List.nil_append]
    exact .plain (.mode _ _) (orderly_expression hd ha (.plain (.delay 0) h))
  | start f => exact absurd rfl (h1 f)
  | finish => exact absurd rfl h2

/-- **The code of a valid script is orderly.** -/
theorem orderly_script {slots : Nat} : ∀ (ss : List Stmt) {v : View}, v.locals = none → Valid v ss →
    (v.afterAll ss).globals.length ≤ slots → Orderly slots 0 (codeOf v ss ++ [.halt])
  | [], _, _, _, _ => .halt 0 []
  | s :: ss, v, hl, ⟨ha, hv⟩, hn => by
    by_cases hs : ∃ f, s = .start f
    · obtain ⟨f, rfl⟩ := hs
      obtain ⟨body, v', rest, hleave⟩ := Valid.leave (by simp [View.after]) hv
      have hlen := hleave.length
      have hcode : codeOf v (.start f :: ss) ++ [.halt] =
          .startFunc :: (body ++ .endFunc :: (codeOf v' rest ++ [.halt])) := by simp [codeOf, Stmt.code, hleave.code]
      have hn' : (v'.afterAll rest).globals.length ≤ slots := by rw [hleave.afterAll]; exact hn
      rw [hcode]
      refine .function (IdealMachine.behindEnd_eq_some.2 ⟨body, hleave.inside, rfl⟩) ?_
      exact orderly_script rest hleave.locals hleave.valid hn'
    · have hs' : ∀ f, s ≠ .start f := fun f hf => hs ⟨f, hf⟩
      have hfin : s ≠ .finish := fun hf => by subst hf; exact ha hl
      have hl' : (v.after s).locals = none := by
        cases s with
        | start f => exact absurd rfl (hs' f)
        | finish => exact absurd rfl hfin
        | declare t x => simp [View.after, hl]
        | _ => exact hl
      have hd : v.scope.length ≤ slots := by
        rw [View.scope, hl]
        exact (globals_le_afterAll (s :: ss) v).trans hn
      rw [codeOf, List.append_assoc]
      exact orderly_statement hd ha hs' hfin (orderly_script ss hl' hv hn)
termination_by ss => ss.length

end Script
end Autoscript
