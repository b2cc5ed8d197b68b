import Autoscript.Proofs.Accepted
import Autoscript.Proofs.Simulation
/-!
# Preservation — an accepted script runs as it is evaluated

The program of a script sets up one frame, runs the code of the statements in order and halts.  Statements outside of
functions do what the evaluator does; a function is passed over, because the code up to its end has no `endFunc`.  So
the run has the effects and the ending of the evaluation wherever there is room for the frame and the operands, and
fails for want of room elsewhere.
-/
namespace Autoscript.Script

open Machine (Leads Fails bind_of_ok bind_of_error bind_get onStack_of_ok onStack_of_error)

/-! ## Functions -/

theorem endFunc_notMem_expression (lookup : Lookup) (ty : Ty) : ∀ e : Expr, .endFunc ∉ e.code lookup ty
  | .int _ => by simp [Expr.code]
  | .float _ => by simp [Expr.code]
  | .name x => by simp [Expr.code]
  | .binary op l r => by
    have hl := endFunc_notMem_expression lookup ty l
    have hr := endFunc_notMem_expression lookup ty r
    simp [Expr.code, hl, hr]

theorem endFunc_notMem_code (v : View) {s : Stmt} (hs : s ≠ .finish) : .endFunc ∉ s.code v := by
  cases s with
  | blank | declare | start => simp [Stmt.code]
  | assign x e => cases hx : v.scope.symbol? x <;> simp [Stmt.code, hx, endFunc_notMem_expression]
  | display x => cases hx : v.scope.symbol? x <;> simp [Stmt.code, hx]
  | move a b => simp [Stmt.code, endFunc_notMem_expression]
  | delay a => simp [Stmt.code, endFunc_notMem_expression]
  | finish => exact absurd rfl hs

/-- **The end of the function that is open**: its code up to the `endFunc`, and the statements behind it. -/
structure Leaves (v : View) (ss : List Stmt) (body : List Instr) (v' : View) (rest : List Stmt) : Prop where
  code : codeOf v ss = body ++ .endFunc :: codeOf v' rest
  inside : .endFunc ∉ body
  locals : v'.locals = none
  globals : v'.globals = v.globals
  valid : Valid v' rest
  afterAll : v'.afterAll rest = v.afterAll ss
  topLevel : topLevel true ss = topLevel false rest
  length : rest.length ≤ ss.length

theorem Leaves.cons {v v' : View} {s : Stmt} {ss rest : List Stmt} {body : List Instr}
    (h : Leaves (v.after s) ss body v' rest) (hs : s ≠ .finish) (hg : (v.after s).globals = v.globals)
    (ht : Script.topLevel true (s :: ss) = Script.topLevel true ss) : Leaves v (s :: ss) (s.code v ++ body) v' rest where
  code := by rw [codeOf, h.code, List.append_assoc]
  inside := by
    rw [List.mem_append]
    rintro (hb | hb)
    · exact endFunc_notMem_code v hs hb
    · exact h.inside hb
  locals := h.locals
  globals := h.globals.trans hg
  valid := h.valid
  afterAll := h.afterAll
  topLevel := ht.trans h.topLevel
  length := Nat.le_succ_of_le h.length

/-- **A function that is entered is left again.** -/
theorem Valid.leave : ∀ {ss : List Stmt} {v : View}, v.locals ≠ none → Valid v ss →
    ∃ body v' rest, Leaves v ss body v' rest
  | [], v, hl, hv => absurd hv hl
  | s :: ss, v, hl, ⟨ha, hv⟩ => by
    have hgo (hs : s ≠ .finish) (hl' : (v.after s).locals ≠ none) (hg : (v.after s).globals = v.globals)
        (ht : topLevel true (s :: ss) = topLevel true ss) : ∃ body v' rest, Leaves v (s :: ss) body v' rest := by
      obtain ⟨body, v', rest, h⟩ := Valid.leave hl' hv
      exact ⟨_, v', rest, h.cons hs hg ht⟩
    obtain ⟨ls, hls⟩ := Option.ne_none_iff_exists'.1 hl
    cases s with
    | finish => exact ⟨[], v.after .finish, ss, rfl, by simp, rfl, rfl, hv, rfl, rfl, by simp⟩
    | start f => exact absurd ha.1 hl
    | declare ty x => exact hgo (by simp) (by simp [View.after, hls]) (by simp [View.after, hls]) rfl
    | blank | assign | display | move | delay => exact hgo (by simp) hl rfl rfl

/-! ## The script -/

theorem globals_le_afterAll : ∀ (ss : List Stmt) (v : View), v.globals.length ≤ (v.afterAll ss).globals.length
  | [], _ => Nat.le_refl _
  | s :: ss, v => by
    have hone : v.globals.length ≤ (v.after s).globals.length := by
      cases s with
      | declare ty x => cases hl : v.locals <;> simp [View.after, hl]
      | _ => exact Nat.le_refl _
    exact hone.trans (globals_le_afterAll ss (v.after s))

/-- **A run agrees with an evaluation**: the same effects, the same fault, and without one the machine has halted. -/
def Agrees (m : Machine) (r : Evaluation) : Prop :=
  m.run.effects = r.effects ∧ m.run.fault = r.fault ∧ (r.fault = none → m.run.machine.halted = true)

theorem Agrees.of_leads {m m' : Machine} {es : List Effect} {r : Evaluation} (hl : Leads m es m') (h : Agrees m' r) :
    Agrees m { r with effects := es ++ r.effects } := by
  unfold Agrees
  rw [hl]
  exact ⟨congrArg (es ++ ·) h.1, h.2.1, h.2.2⟩

variable {L : Layout}

theorem Follows.evaluation {n k : Nat} {σ : Store} {s : Stmt} {ss : List Stmt} {P : Store × Option Effect → Machine → Prop}
    {m : Machine} (hn : n ≤ k) (h : Follows L n (fun r => r.2.toList) P m (s.perform σ))
    (hgo : ∀ r m', P r m' → Agrees m' (performAll r.1 ss) ∨ Full L k m') :
    Agrees m (performAll σ (s :: ss)) ∨ Full L k m := by
  unfold performAll
  cases hp : s.perform σ with
  | error f =>
    rw [hp] at h
    rcases h with h | h
    · exact .inl ⟨h.1, h.2, fun hf => (by cases hf)⟩
    · exact .inr (h.mono hn)
  | ok r =>
    rw [hp] at h
    rcases h with ⟨m', hm, hP⟩ | h
    · rcases hgo r m' hP with hA | hF
      · exact .inl (hA.of_leads hm)
      · exact .inr (hF.of_leads hm)
    · exact .inr (h.mono hn)

/-- **The code of a script does what the evaluation does**, or there is no room for its operands. -/
theorem At.script : ∀ (ss : List Stmt) {v : View} {σ : Store} {ty : Ty} {m : Machine}, v.locals = none →
    v.globals = σ.declared → Valid v ss → (v.afterAll ss).globals.length ≤ L.slots →
    At L ty (codeOf v ss ++ [.halt]) σ [] m →
      Agrees m (performAll σ (topLevel false ss)) ∨ Full L (depthOf (topLevel false ss)) m
  | [], _, _, _, _, _, _, _, _, h => by
    obtain ⟨h1, h2, h3⟩ := At.halt h
    exact .inl ⟨h1, h2, fun _ => h3⟩
  | s :: ss, v, σ, ty, m, hl, hg, ⟨ha, hv⟩, hn, h => by
    by_cases hs : ∃ f, s = .start f
    · obtain ⟨f, rfl⟩ := hs
      obtain ⟨body, v', rest, hleave⟩ := Valid.leave (by simp [View.after]) hv
      have hlen := hleave.length
      have hcode : codeOf v (.start f :: ss) ++ [.halt] =
          .startFunc :: (body ++ .endFunc :: (codeOf v' rest ++ [.halt])) := by simp [codeOf, Stmt.code, hleave.code]
      have htop : topLevel false (.start f :: ss) = topLevel false rest := hleave.topLevel
      have hn' : (v'.afterAll rest).globals.length ≤ L.slots := by rw [hleave.afterAll]; exact hn
      rw [hcode] at h
      rw [htop]
      -- both the machine and the evaluation go on behind the function, with the variables as they were
      obtain ⟨m1, hm1, h1⟩ := h.startFunc hleave.inside
      rcases At.script rest hleave.locals (hleave.globals.trans hg) hleave.valid hn' h1 with hA | hF
      · exact .inl (hA.of_leads hm1)
      · exact .inr (hF.of_leads hm1)
    · have hs' : ∀ f, s ≠ .start f := fun f hf => hs ⟨f, hf⟩
      have htop : topLevel false (s :: ss) = s :: topLevel false ss := by
        cases s with
        | start f => exact absurd rfl (hs' f)
        | finish => exact absurd hl ha
        | _ => rfl
      have hl' : (v.after s).locals = none := by
        cases s with
        | start f => exact absurd rfl (hs' f)
        | finish => rfl
        | declare t x => simp [View.after, hl]
        | _ => exact hl
      have hσ : σ.length ≤ L.slots := by
        rw [← Store.length_declared, ← hg]
        exact (globals_le_afterAll (s :: ss) v).trans hn
      rw [codeOf, List.append_assoc] at h
      rw [htop]
      refine Follows.evaluation (Nat.le_max_left _ _) (h.statement hl hg ha hs' hσ) fun r m' hP => ?_
      obtain ⟨hd, ty', h'⟩ := hP
      rcases At.script ss hl' hd.symm hv hn h' with hA | hF
      · exact .inl hA
      · exact .inr (hF.mono (Nat.le_max_right _ _))
termination_by ss => ss.length

/-! ## The start of a program -/

theorem word_above_program {program : List UInt8} {budget pos : Nat} (h : program.length ≤ pos) :
    (Memory.ofBytes budget program).word pos = 0 := by
  have hbyte (k : Nat) : (Memory.ofBytes budget program).byte (pos + k) = 0 := by
    simp [Memory.ofBytes, List.getElem?_eq_none (show program.length ≤ pos + k by omega)]
  have h0 : (Memory.ofBytes budget program).byte pos = 0 := hbyte 0
  rw [Memory.word, h0, hbyte 1, hbyte 2, hbyte 3]
  rfl

theorem load_assemble {code : List Instr} {budget : Nat} (hb : budget < 0x100000000)
    (hle : (Program.assemble code).length ≤ budget) : Machine.load (Program.assemble code) budget =
      .ok ⟨.ofMemory (.ofBytes budget (Program.assemble code)) (Program.assemble code).length, .int,
        Program.headerSize, false⟩ := by
  have hver : Program.version? (Program.assemble code) = some Program.version := rfl
  unfold Machine.load
  simp only [hver]
  rw [if_neg (by simp), if_neg (by omega), if_neg (by omega)]

section
variable {n : Nat} {s : Stack} (hn : n < 0x80000000)
include hn

theorem setupFrame_ofNat : Stack.setupFrame (Int32.ofNat n) s =
    (Stack.push (UInt32.ofNat s.bp) >>= fun _ => modify (fun t => { t with bp := t.sp }) >>= fun _ => Stack.reserve n) s := by
  have hsize : (Int32.ofNat n).toInt = (n : Int) := Int32.toInt_ofNat_of_lt hn
  have hnat : (Int32.ofNat n).toInt.toNat = n := by omega
  rw [Stack.setupFrame, if_neg (by omega), hnat]
  exact bind_get _ _

theorem setupFrame_of_room (h : s.floor + 4 + n ≤ s.sp) : Stack.setupFrame (Int32.ofNat n) s =
    .ok () ⟨s.memory.setWord (s.sp - 4) (UInt32.ofNat s.bp), s.sp - 4 - n, s.sp - 4, s.floor⟩ := by
  have hpush : Stack.push (UInt32.ofNat s.bp) s =
      .ok () { s with sp := s.sp - 4, memory := s.memory.setWord (s.sp - 4) (UInt32.ofNat s.bp) } :=
    if_neg (by rw [Word.size]; omega)
  have hroom : s.floor + n ≤ s.sp - 4 := by omega
  rw [setupFrame_ofNat hn]
  exact (bind_of_ok hpush).trans ((bind_of_ok rfl).trans (if_pos hroom))

theorem setupFrame_of_full (h : s.sp < s.floor + 4 + n) :
    ∃ sp s', Stack.setupFrame (Int32.ofNat n) s = .error (.stackOverflow sp s.floor) s' := by
  rw [setupFrame_ofNat hn]
  by_cases hp : s.sp < s.floor + 4
  · have hpush : Stack.push (UInt32.ofNat s.bp) s = .error (.stackOverflow s.sp s.floor) s := if_pos hp
    exact ⟨_, _, bind_of_error hpush⟩
  · have hpush : Stack.push (UInt32.ofNat s.bp) s =
        .ok () { s with sp := s.sp - 4, memory := s.memory.setWord (s.sp - 4) (UInt32.ofNat s.bp) } := if_neg hp
    have hfull : ¬ s.floor + n ≤ s.sp - 4 := by omega
    exact ⟨_, _, (bind_of_ok hpush).trans ((bind_of_ok rfl).trans (if_neg hfull))⟩

end

theorem stackAt_first (hr : L.Room 0) {s : Stack} (hs : s.Intact L.program L.budget) {w : Word}
    (h : s = ⟨(Memory.ofBytes L.budget L.program).setWord (L.budget - 4) w, L.budget - 4 - 4 * L.slots, L.budget - 4,
      L.program.length⟩) : StackAt L [] [] s := by
  unfold Layout.Room at hr
  subst h
  refine ⟨hs, ?_, ?_, fun k v hk => (by cases hk), fun k h1 h2 => ?_⟩
  · show L.budget - 4 + 4 = L.budget
    omega
  · show L.budget - 4 - 4 * L.slots + 4 * 0 + 4 * L.slots = L.budget - 4
    omega
  · have hout : L.budget - 4 - 4 * k + Word.size ≤ L.budget - 4 := by rw [Word.size]; omega
    show ((Memory.ofBytes L.budget L.program).setWord (L.budget - 4) w).word (L.budget - 4 - 4 * k) = 0
    rw [Memory.word_setWord_of_outside (.inl hout)]
    exact word_above_program (by omega)

/-- **A program that sets up its frame** goes on with every variable zero, or has no room for them. -/
theorem stack_at_start {m : Machine} (hm : Machine.load L.program L.budget = .ok m)
    (hd : Instr.decode m.program Program.headerSize = .ok (.setupFrame (Int32.ofNat (4 * L.slots)))) :
    (L.Room 0 ∧ ∃ s, Leads m [] ⟨s, .int, Program.headerSize + (Instr.setupFrame (Int32.ofNat (4 * L.slots))).width, false⟩ ∧
        StackAt L [] [] s) ∨
      (¬ L.Room 0 ∧ ∃ sp floor, Fails m (.stackOverflow sp floor)) := by
  have hslots := L.slots_lt
  have hn : 4 * L.slots < 0x80000000 := by omega
  have hi := Machine.intact_of_load hm
  obtain ⟨-, -, rfl⟩ := Machine.load_ok hm
  have hstep : Machine.step ⟨.ofMemory (.ofBytes L.budget L.program) L.program.length, .int, Program.headerSize, false⟩ =
      Machine.execute (.setupFrame (Int32.ofNat (4 * L.slots))) Program.headerSize
        ⟨.ofMemory (.ofBytes L.budget L.program) L.program.length, .int, _, false⟩ := Machine.step_of_decode hd
  have hkeep := Stack.keeps_setupFrame (Int32.ofNat (4 * L.slots)) _ hi
  by_cases hr : L.Room 0
  · have he : Stack.setupFrame (Int32.ofNat (4 * L.slots)) (.ofMemory (.ofBytes L.budget L.program) L.program.length) = _ :=
      setupFrame_of_room hn (show L.program.length + 4 + 4 * L.slots ≤ L.budget from hr)
    rw [he] at hkeep
    have hx := hstep.trans (bind_of_ok (onStack_of_ok he))
    exact .inl ⟨hr, _, Machine.leads_of_step (e := none) rfl hx, stackAt_first hr hkeep rfl⟩
  · have hlt : L.budget < L.program.length + 4 + 4 * L.slots := Nat.lt_of_not_le hr
    obtain ⟨sp, s', he⟩ : ∃ sp s', Stack.setupFrame (Int32.ofNat (4 * L.slots))
      (.ofMemory (.ofBytes L.budget L.program) L.program.length) = .error (.stackOverflow sp L.program.length) s' :=
        setupFrame_of_full hn hlt
    have hx := hstep.trans (bind_of_error (onStack_of_error he))
    exact .inr ⟨hr, _, _, Machine.fails_of_step rfl hx⟩

theorem at_start {code : List Instr} {m : Machine} (hm : Machine.load L.program L.budget = .ok m)
    (ha : Program.Ahead L.program Program.headerSize (.setupFrame (Int32.ofNat (4 * L.slots)) :: code)) :
    (∃ m', Leads m [] m' ∧ At L .int code [] [] m') ∨ Full L 0 m := by
  have hd := ha.decode (Stack.Intact.spells (Machine.intact_of_load hm))
  rcases stack_at_start hm hd with ⟨-, s, hl, hS⟩ | ⟨hr, sp, floor, hf⟩
  · exact .inl ⟨_, hl, rfl, rfl, ha.next, hS⟩
  · exact .inr ⟨hr, sp, floor, hf.2⟩

/-! ## Accepted sources -/

theorem run_of_valid {script : List Stmt} (hv : Valid .initial script) (hr : Roomy .initial script) {budget : Nat}
    (hb : budget < 0x100000000) (hle : (Program.assemble (programOf script)).length ≤ budget) :
    ∃ m, Machine.load (Program.assemble (programOf script)) budget = .ok m ∧
      (Agrees m (evaluate script) ∨
        (budget < (Program.assemble (programOf script)).length + 4 + frameSize script + 4 * operandDepth script ∧
          ∃ sp floor, m.run.fault = some (.stackOverflow sp floor))) := by
  let L : Layout := ⟨Program.assemble (programOf script), budget, (View.initial.afterAll script).globals.length, hb,
    (small_initial.afterAll hr).globals⟩
  have hload := load_assemble hb hle
  have hahead : Program.Ahead L.program Program.headerSize (.setupFrame (Int32.ofNat (4 * L.slots)) ::
      (codeOf .initial script ++ [.halt])) := Program.ahead_assemble (programOf script)
  have hfull {n : Nat} {m : Machine} (h : Full L n m) (hn : n ≤ operandDepth script) :
      budget < (Program.assemble (programOf script)).length + 4 + frameSize script + 4 * operandDepth script ∧
        ∃ sp floor, m.run.fault = some (.stackOverflow sp floor) :=
    ⟨Nat.lt_of_not_le (h.mono hn).1, h.2⟩
  refine ⟨_, hload, ?_⟩
  rcases at_start (L := L) hload hahead with ⟨m', hm', h⟩ | h
  · rcases h.script script rfl rfl hv (Nat.le_refl _) with hA | hF
    · exact .inl (hA.of_leads hm')
    · exact .inr (hfull (hF.of_leads hm') (Nat.le_refl _))
  · exact .inr (hfull h (Nat.zero_le _))

/-- **A compiled program goes wrong in three ways only**, in any memory that it fits into. -/
theorem faults_of_compiled {source : String} {program : List UInt8} (hp : compile source = .ok program) {budget : Nat}
    (hle : program.length ≤ budget) (hb : budget < 0x100000000) :
    ∃ m, Machine.load program budget = .ok m ∧
      ((m.run.fault = none ∧ m.run.machine.halted = true) ∨ (∃ sp floor, m.run.fault = some (.stackOverflow sp floor)) ∨
        m.run.fault = some .divisionByZero ∨ ∃ x, m.run.fault = some (.invalidDelay x)) := by
  obtain ⟨c, hc, hres⟩ := compile_ok hp
  obtain ⟨tokens, script, -, -, hvalid, hroomy, -, rfl⟩ := analyse_ok hc hres
  obtain ⟨m, hm, ⟨-, hf, hh⟩ | ⟨-, hover⟩⟩ := run_of_valid hvalid hroomy hb hle
  · refine ⟨m, hm, ?_⟩
    rw [hf]
    cases hfault : (evaluate script).fault with
    | none => exact .inl ⟨rfl, hh hfault⟩
    | some f =>
      rcases fault_of_performAll hfault with rfl | ⟨x, rfl⟩
      · exact .inr (.inr (.inl rfl))
      · exact .inr (.inr (.inr ⟨x, rfl⟩))
  · exact ⟨m, hm, .inr (.inl hover)⟩

/-- A program that divides by zero, in a memory that it fills to the last byte. -/
theorem faults_of_compiled_without_room :
    ∃ program m, compile "int x\nx <- 1 / x" = .ok program ∧ program.length = 27 ∧ Machine.load program 27 = .ok m ∧
      ((m.run.fault = none ∧ m.run.machine.halted = true) ∨ (∃ sp floor, m.run.fault = some (.stackOverflow sp floor)) ∨
        m.run.fault = some .divisionByZero ∨ ∃ x, m.run.fault = some (.invalidDelay x)) := by
  have hcompile : compile "int x\nx <- 1 / x" = .ok
      [1, 0, 0, 0, 64, 4, 0, 0, 0, 6, 3, 1, 0, 0, 0, 2, 4, 0, 0, 0, 35, 4, 4, 0, 0, 0, 10] := by decide +kernel
  obtain ⟨m, hm, hfault⟩ := faults_of_compiled hcompile (show _ ≤ 27 by decide) (by decide)
  exact ⟨_, m, hcompile, rfl, hm, hfault⟩

end Autoscript.Script
