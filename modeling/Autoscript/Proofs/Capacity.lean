import Autoscript.Proofs.Ideal
import Autoscript.Proofs.Trace
/-!
# Capacity — a memory decides whether a script fits, and nothing else

A machine *holds* the state of the ideal one if its frame has the variables and its stack the operands, wherever they lie.
On orderly code both do the same, instruction by instruction (`Holds.execute`), so the run of a program refines the course
of its code (`refines_of_load`).  The memory comes in only through the room that it leaves for operands, and the bytes of
the program only through the whole instructions at their start.
-/
namespace Autoscript

open Machine (Run)

/-! ## Programs that end inside of an instruction -/

namespace Program

/-- Less than one instruction. -/
def Partial (tail : List UInt8) : Prop := ∃ (i : Instr) (n : Nat), n < i.width ∧ tail = i.encode.take n

theorem partial_nil : Partial [] := ⟨.halt, 0, by decide, rfl⟩

section
variable {p : Memory} {bytes tail : List UInt8} {pos : Nat} (hp : p.Spells bytes) (ht : Partial tail)
include hp ht

theorem decode_of_partial (h : bytes.drop pos = tail) : ∃ e, Instr.decode p pos = .error e := by
  obtain ⟨i, n, hn, rfl⟩ := ht
  by_cases h0 : n = 0
  · subst h0
    have hle : bytes.length ≤ pos := List.drop_eq_nil_iff.1 h
    have hnone : p.get? pos = none := by rw [hp pos, List.getElem?_eq_none hle]
    exact ⟨.endOfProgram pos, by unfold Instr.decode; simp only [hnone]⟩
  · exact ⟨_, Instr.decode_of_cut hp h (Nat.pos_of_ne_zero h0) hn⟩

theorem functionEnd_of_open {code : List Instr} (h : AheadUpTo bytes pos (.startFunc :: code) tail)
    (hc : .endFunc ∉ code) :
    (∃ e, Machine.functionEnd p pos = .error (.decode e)) ∨
      Machine.functionEnd p pos = .error (.unterminatedFunction pos) := by
  have hcode : AheadUpTo bytes (pos + Opcode.startFunc.width) (code ++ []) tail := by
    rw [List.append_nil]
    exact h.next
  -- the search passes over the whole code without a hit and stops at what cannot be decoded
  rw [Machine.functionEnd, hcode.searchEnd_skip hp hc, Machine.searchEnd]
  obtain ⟨e, he⟩ := decode_of_partial hp ht hcode.skip
  split
  · rw [he]
    exact .inl ⟨e, rfl⟩
  · exact .inr rfl

end
end Program

theorem Machine.fails_of_decode {m : Machine} {e : DecodeError} (hm : m.halted = false)
    (hd : Instr.decode m.program m.ip = .error e) : Fails m (.decode e) := by
  have hs : m.step = .error (.decode e) m := by
    unfold step
    rw [hd]
  exact fails_of_step hm hs

theorem Machine.step_startFunc {m : Machine} (hd : Instr.decode m.program m.ip = .ok .startFunc) : m.step =
    match functionEnd m.program m.ip with
    | .ok next => .ok none { m with ip := next }
    | .error f => .error f { m with ip := m.ip + Instr.startFunc.width } :=
  (step_of_decode hd).trans (execute_startFunc m.ip _)

namespace Script

open Machine (Leads Fails)
open IdealMachine (Takes Orderly Course Ending)
open Program (AheadUpTo Partial)

/-! ## Holding a state -/

/-- The variables with some words, without names. -/
def Store.ofWords (vars : Nat → Word) : Nat → Store
  | 0 => []
  | n + 1 => ⟨"", .int, vars (n + 1)⟩ :: ofWords vars n

theorem Store.length_ofWords (vars : Nat → Word) : ∀ n, (ofWords vars n).length = n
  | 0 => rfl
  | n + 1 => congrArg (· + 1) (length_ofWords vars n)

theorem Store.wordAt_ofWords (vars : Nat → Word) (k : Nat) : ∀ n,
    (ofWords vars n).wordAt k = if 1 ≤ k ∧ k ≤ n then vars k else 0
  | 0 => by simp [ofWords, wordAt]; omega
  | n + 1 => by
    rw [ofWords, wordAt, length_ofWords, wordAt_ofWords vars k n]
    by_cases hk : k = n + 1
    · simp [hk]
    · have hiff : (1 ≤ k ∧ k ≤ n) ↔ (1 ≤ k ∧ k ≤ n + 1) := by omega
      simp [hk, hiff]

theorem slot_ofNat {k : Nat} (h : k < 0x20000000) : IdealMachine.slot (Int32.ofNat (4 * k)) = k := by
  have hk : (Int32.ofNat (4 * k)).toInt = ((4 * k : Nat) : Int) := Int32.toInt_ofNat_of_lt (by omega)
  rw [IdealMachine.slot, hk]
  omega

/-- **A machine that holds a state of the ideal one.** -/
structure Holds (L : Layout) (s : IdealMachine) (m : Machine) : Prop where
  running : m.halted = false
  mode : m.mode = s.mode
  stack : StackAt L (.ofWords s.vars L.slots) s.operands m.stack

instance (L : Layout) (n : Nat) : Decidable (L.Room n) := inferInstanceAs (Decidable (_ ≤ _))

def Layout.room (L : Layout) : Nat := (L.budget - (L.program.length + 4 + 4 * L.slots)) / 4

theorem Layout.room_iff {L : Layout} (h : L.Room 0) {n : Nat} : L.Room n ↔ n ≤ L.room := by
  unfold Layout.Room Layout.room at *
  omega

namespace Holds

variable {L : Layout} {s : IdealMachine} {m : Machine}

theorem room (h : Holds L s m) {n : Nat} : L.Room n ↔ n ≤ L.room := Layout.room_iff (h.stack.room.mono (Nat.zero_le _))

theorem wordAt (L : Layout) {vars : Nat → Word} {k : Nat} (h1 : 1 ≤ k) (h2 : k ≤ L.slots) :
    (Store.ofWords vars L.slots).wordAt k = vars (IdealMachine.slot (Int32.ofNat (4 * k))) := by
  have hs := L.slots_lt
  rw [Store.wordAt_ofWords, if_pos ⟨h1, h2⟩, slot_ofNat (by omega)]

theorem wordAt_assign (L : Layout) {vars : Nat → Word} {k : Nat} {w : Word} (h1 : 1 ≤ k) (h2 : k ≤ L.slots) (j : Nat) :
    (Store.ofWords (fun j => if j = IdealMachine.slot (Int32.ofNat (4 * k)) then w else vars j) L.slots).wordAt j =
      if j = k then w else (Store.ofWords vars L.slots).wordAt j := by
  have hs := L.slots_lt
  rw [Store.wordAt_ofWords, Store.wordAt_ofWords, slot_ofNat (by omega)]
  by_cases hj : j = k
  · simp [hj, h1, h2]
  · simp [hj]

/-- What both machines do with an instruction, if there is room for the operands that it leaves. -/
def Does (L : Layout) (s' : IdealMachine) (e : Option Effect) (i : Instr) (pos : Nat) (m : Machine) : Prop :=
  (L.Room s'.operands.length → ∃ m', Machine.execute i pos m = .ok e m' ∧ m'.ip = m.ip ∧ Holds L s' m') ∧
    (¬ L.Room s'.operands.length → ∃ sp floor m', Machine.execute i pos m = .error (.stackOverflow sp floor) m')

theorem does_of_room {s' : IdealMachine} {e : Option Effect} {i : Instr} {pos : Nat} (hr : L.Room s'.operands.length)
    (h : ∃ m', Machine.execute i pos m = .ok e m' ∧ m'.ip = m.ip ∧ Holds L s' m') : Does L s' e i pos m :=
  ⟨fun _ => h, fun hn => absurd hr hn⟩

theorem push (h : Holds L s m) {i : Instr} {pos : Nat} {w : Word}
    (hi : Machine.execute i pos m = (Machine.push w >>= fun _ => pure none) m) :
    Does L { s with operands := w :: s.operands } none i pos m := by
  refine ⟨fun hr => ?_, fun hr => StackAt.execute_push_full hi h.stack hr⟩
  obtain ⟨t, he, hS⟩ := StackAt.execute_push hi h.stack hr
  exact ⟨_, he, rfl, h.running, h.mode, hS⟩

/-- **Both machines do the same with an instruction that finds what it needs.** -/
theorem execute (h : Holds L s m) {i : Instr} {n : Nat} (ht : Takes L.slots i s.operands.length n) (pos : Nat) :
    match s.execute i with
    | .error f => ∃ m', Machine.execute i pos m = .error f m'
    | .ok (s', e) => s'.operands.length = n ∧ Does L s' e i pos m := by
  have hroom := h.stack.room
  have hS := h.stack
  obtain ⟨ty, vars, ws⟩ := s
  obtain rfl := h.mode
  generalize hn : ws.length = k at ht
  cases ht with
  | mode ty' => exact ⟨hn, does_of_room hroom ⟨_, rfl, rfl, h.running, rfl, hS⟩⟩
  | pushImm w => exact ⟨congrArg (· + 1) hn, h.push rfl⟩
  | pushVar _ h1 h2 =>
    have hp := StackAt.execute_pushVar hS h1 h2 pos
    rw [wordAt L h1 h2] at hp
    exact ⟨congrArg (· + 1) hn, h.push hp⟩
  | storeVar _ h1 h2 =>
    obtain ⟨w, ws, rfl⟩ := List.exists_cons_of_length_eq_add_one hn
    obtain ⟨t, he, hT⟩ := StackAt.execute_storeVar hS h1 h2 (wordAt_assign L h1 h2) pos
    exact ⟨Nat.succ.inj hn, does_of_room (hroom.mono (Nat.le_succ _)) ⟨_, he, rfl, h.running, rfl, hT⟩⟩
  | arith op =>
    obtain ⟨r, l, ws, rfl⟩ : ∃ r l rest, ws = r :: l :: rest := by
      match ws, hn with
      | r :: l :: rest, _ => exact ⟨r, l, rest, rfl⟩
    have he := StackAt.execute_arith hS op pos
    rw [IdealMachine.execute_arith]
    cases hv : op.eval m.mode l r with
    | none =>
      simp only [hv] at he
      exact he
    | some w =>
      simp only [hv] at he
      obtain ⟨t, he, hT⟩ := he
      refine ⟨Nat.succ.inj hn, does_of_room (hroom.mono ?_) ⟨_, he, rfl, h.running, rfl, hT⟩⟩
      exact Nat.le_succ _
  | display _ h1 h2 =>
    have he := StackAt.execute_display hS h1 h2 pos
    rw [wordAt L h1 h2] at he
    exact ⟨hn, does_of_room hroom ⟨_, he, rfl, h⟩⟩
  | move =>
    obtain ⟨y, x, ws, rfl⟩ : ∃ y x rest, ws = y :: x :: rest := by
      match ws, hn with
      | y :: x :: rest, _ => exact ⟨y, x, rest, rfl⟩
    obtain ⟨t, he, hT⟩ := StackAt.execute_move hS pos
    refine ⟨Nat.succ.inj (Nat.succ.inj hn), does_of_room (hroom.mono ?_) ⟨_, he, rfl, h.running, rfl, hT⟩⟩
    exact Nat.le_add_right _ 2
  | delay =>
    obtain ⟨w, ws, rfl⟩ := List.exists_cons_of_length_eq_add_one hn
    have he := StackAt.execute_delay hS pos
    rw [IdealMachine.execute_delay]
    cases hv : Single.nanoseconds? ⟨w⟩ with
    | none =>
      simp only [hv] at he
      exact he
    | some ns =>
      simp only [hv] at he
      obtain ⟨t, he, hT⟩ := he
      exact ⟨Nat.succ.inj hn, does_of_room (hroom.mono (Nat.le_succ _)) ⟨_, he, rfl, h.running, rfl, hT⟩⟩

end Holds

/-! ## Runs -/

def EndsAs (r : Run) : Ending → Prop
  | .halted => r.fault = none ∧ r.machine.halted = true
  | .fault f => r.fault = some f
  | .full => ∃ sp floor, r.fault = some (.stackOverflow sp floor)
  | .cut => (∃ e, r.fault = some (.decode e)) ∨ ∃ pos, r.fault = some (.unterminatedFunction pos)

/-- **A run that does what a course says.** -/
def Refines (r : Run) (c : Course) : Prop := r.effects = c.effects ∧ EndsAs r c.ending

theorem Refines.of_leads {m m' : Machine} {e : Option Effect} {c : Course} (hl : Leads m e.toList m')
    (h : Refines m'.run c) : Refines m.run (c.after e) := by
  obtain ⟨hf, he⟩ := h
  rw [hl]
  refine ⟨congrArg (e.toList ++ ·) hf, ?_⟩
  show EndsAs _ c.ending
  cases hc : c.ending <;> rw [hc] at he <;> exact he

variable {L : Layout}

/-- **The machine does with orderly code what the ideal one does.** -/
theorem Holds.run {n : Nat} {code : List Instr} (ho : Orderly L.slots n code) : ∀ {s : IdealMachine} {m : Machine}
    {tail : List UInt8}, Holds L s m → s.operands.length = n → AheadUpTo L.program m.ip code tail → Partial tail →
      Refines m.run (s.run L.room code) := by
  induction ho with
  | nil =>
    intro s m tail h _ ha ht
    obtain ⟨e, he⟩ := Program.decode_of_partial h.stack.intact.spells ht ha
    obtain ⟨hf, hr⟩ := Machine.fails_of_decode h.running he
    rw [IdealMachine.run]
    exact ⟨hf, .inl ⟨e, hr⟩⟩
  | halt =>
    intro s m tail h _ ha ht
    have hs : m.step = .ok none { m with ip := m.ip + Instr.width .halt, halted := true } :=
      Machine.step_of_decode (ha.decode h.stack.intact.spells)
    have hl : Leads m [] _ := Machine.leads_of_step h.running hs
    rw [hl, Machine.run, if_pos rfl, IdealMachine.run]
    exact ⟨rfl, rfl, rfl⟩
  | @plain i n k code hi _ ih =>
    intro s m tail h hn ha ht
    have hs := Machine.step_of_decode (ha.decode h.stack.intact.spells)
    have h1 : i ≠ .halt := fun he => by subst he; cases hi
    have h2 : i ≠ .startFunc := fun he => by subst he; cases hi
    have hmoved : Holds L s { m with ip := m.ip + i.width } := ⟨h.running, h.mode, h.stack⟩
    have he := hmoved.execute (hn ▸ hi) m.ip
    rw [IdealMachine.run_plain h1 h2]
    cases hx : s.execute i with
    | error f =>
      simp only [hx] at he ⊢
      obtain ⟨m', he⟩ := he
      exact Machine.fails_of_step h.running (hs.trans he)
    | ok r =>
      obtain ⟨s', e⟩ := r
      simp only [hx] at he ⊢
      obtain ⟨hk, hdo, hfull⟩ := he
      by_cases hr : L.Room s'.operands.length
      · obtain ⟨m', he, hip, h'⟩ := hdo hr
        rw [if_pos (h.room.1 hr)]
        refine (ih h' hk ?_ ht).of_leads (Machine.leads_of_step h.running (hs.trans he))
        rw [hip]
        exact ha.next
      · obtain ⟨sp, floor, m', he⟩ := hfull hr
        obtain ⟨hf, hr'⟩ := Machine.fails_of_step h.running (hs.trans he)
        rw [if_neg fun hle => hr (h.room.2 hle)]
        exact ⟨hf, sp, floor, hr'⟩
  | @function n code rest hb _ ih =>
    intro s m tail h hn ha ht
    have hp := h.stack.intact.spells
    obtain ⟨body, hbody, rfl⟩ := IdealMachine.behindEnd_eq_some.1 hb
    obtain ⟨next, hnext, hrest⟩ := ha.functionEnd hp hbody
    have hs := Machine.step_startFunc (ha.decode hp)
    simp only [show Machine.functionEnd m.program m.ip = _ from hnext] at hs
    rw [IdealMachine.run_startFunc, hb]
    have h' : Holds L s { m with ip := next } := ⟨h.running, h.mode, h.stack⟩
    exact (ih h' hn hrest ht).of_leads (Machine.leads_of_step h.running hs)
  | @openFunction n code hb =>
    intro s m tail h hn ha ht
    have hp := h.stack.intact.spells
    have hs := Machine.step_startFunc (ha.decode hp)
    rw [IdealMachine.run_startFunc, hb]
    rcases Program.functionEnd_of_open hp ht ha (IdealMachine.notMem_of_behindEnd hb) with ⟨e, he⟩ | he
    · simp only [show Machine.functionEnd m.program m.ip = _ from he] at hs
      obtain ⟨hf, hr⟩ := Machine.fails_of_step h.running hs
      exact ⟨hf, .inl ⟨e, hr⟩⟩
    · simp only [show Machine.functionEnd m.program m.ip = _ from he] at hs
      obtain ⟨hf, hr⟩ := Machine.fails_of_step h.running hs
      exact ⟨hf, .inr ⟨_, hr⟩⟩

/-- What the code behind the frame does in a memory: nothing if there is no room for the frame. -/
def Layout.course (L : Layout) (code : List Instr) : Course :=
  if L.Room 0 then IdealMachine.initial.run L.room code else ⟨[], .full⟩

/-- **The run of a loaded program refines the course of its code.** -/
theorem refines_of_load {m : Machine} (hm : Machine.load L.program L.budget = .ok m) {code : List Instr}
    {tail : List UInt8} (ht : Partial tail) (ho : Orderly L.slots 0 code)
    (ha : AheadUpTo L.program Program.headerSize (.setupFrame (Int32.ofNat (4 * L.slots)) :: code) tail) :
    Refines m.run (L.course code) := by
  have hd := ha.decode (Stack.Intact.spells (Machine.intact_of_load hm))
  unfold Layout.course
  rcases stack_at_start hm hd with ⟨hr, t, hl, hS⟩ | ⟨hr, sp, floor, hf, hr'⟩
  · rw [if_pos hr]
    have hzero (k : Nat) : (Store.ofWords IdealMachine.initial.vars L.slots).wordAt k = Store.wordAt [] k := by
      simp [Store.wordAt_ofWords, IdealMachine.initial, Store.wordAt]
    have hT : StackAt L (.ofWords IdealMachine.initial.vars L.slots) [] t :=
      { hS with vars := fun k h1 h2 => (hS.vars k h1 h2).trans (hzero k).symm }
    exact (Holds.run ho ⟨rfl, rfl, hT⟩ rfl ha.next ht).of_leads (e := none) hl
  · rw [if_neg hr]
    exact ⟨hf, sp, floor, hr'⟩

theorem course_within {L L' : Layout} (h : ∀ n, L.Room n → L'.Room n) (code : List Instr) :
    (L.course code).Within .full (L'.course code) := by
  unfold Layout.course
  by_cases h0 : L.Room 0
  · have h0' := h 0 h0
    rw [if_pos h0, if_pos h0']
    exact IdealMachine.run_room ((Layout.room_iff h0').1 (h _ ((Layout.room_iff h0).2 (Nat.le_refl _)))) _ _
  · rw [if_neg h0]
    exact Course.within_of_stop _

theorem Agrees.fault_cases {m : Machine} {script : List Stmt} (h : Agrees m (evaluate script)) :
    (m.run.fault = none ∧ m.run.machine.halted = true) ∨ m.run.fault = some .divisionByZero ∨
      ∃ x, m.run.fault = some (.invalidDelay x) := by
  obtain ⟨-, hf, hh⟩ := h
  rw [hf]
  cases hfault : (evaluate script).fault with
  | none => exact .inl ⟨rfl, hh hfault⟩
  | some f =>
    rcases fault_of_performAll hfault with rfl | ⟨x, rfl⟩
    · exact .inr (.inl rfl)
    · exact .inr (.inr ⟨x, rfl⟩)

theorem EndsAs.same {r r' : Run} {e : Ending} (h : EndsAs r e) (h' : EndsAs r' e)
    (hf : (r.fault = none ∧ r.machine.halted = true) ∨ r.fault = some .divisionByZero ∨
      ∃ x, r.fault = some (.invalidDelay x)) :
    r.fault = r'.fault ∧ (r.fault = none → r'.machine.halted = true) := by
  cases e with
  | halted => exact ⟨h.1.trans h'.1.symm, fun _ => h'.2⟩
  | fault f => exact ⟨h.trans h'.symm, fun hn => by rw [show r.fault = _ from h] at hn; cases hn⟩
  | full =>
    obtain ⟨sp, floor, h⟩ := h
    simp [h] at hf
  | cut =>
    rcases h with ⟨e, h⟩ | ⟨pos, h⟩
    · simp [h] at hf
    · simp [h] at hf

/-! ## Accepted sources -/

def layoutOf {script : List Stmt} (hr : Roomy .initial script) (program : List UInt8) {budget : Nat}
    (hb : budget < 0x100000000) : Layout :=
  ⟨program, budget, (View.initial.afterAll script).globals.length, hb, (small_initial.afterAll hr).globals⟩

theorem orderly_programOf {script : List Stmt} (hv : Valid .initial script) :
    Orderly (View.initial.afterAll script).globals.length 0 (codeOf .initial script ++ [.halt]) :=
  orderly_script script rfl hv (Nat.le_refl _)

theorem refines_of_valid {script : List Stmt} (hv : Valid .initial script) (hr : Roomy .initial script) {budget : Nat}
    (hb : budget < 0x100000000) {m : Machine} (hm : Machine.load (Program.assemble (programOf script)) budget = .ok m) :
    Refines m.run
      ((layoutOf hr (Program.assemble (programOf script)) hb).course (codeOf .initial script ++ [.halt])) :=
  refines_of_load (L := layoutOf hr (Program.assemble (programOf script)) hb) hm Program.partial_nil (orderly_programOf hv)
    (Program.ahead_assemble (programOf script)).upTo

/-- **The memory decides only whether a script fits.**  In less memory an accepted script has no room at some point, with
the first part of the effects that it has in more; or it ends in the same way, with the same effects. -/
theorem run_within_larger_memory {source : String} {program : List UInt8} (hp : compile source = .ok program)
    {budget budget' : Nat} (hle : program.length ≤ budget) (hbb : budget ≤ budget') (hb' : budget' < 0x100000000) :
    ∃ m m', Machine.load program budget = .ok m ∧ Machine.load program budget' = .ok m' ∧
      (((∃ sp floor, m.run.fault = some (.stackOverflow sp floor)) ∧ m.run.effects <+: m'.run.effects) ∨
        (m.run.effects = m'.run.effects ∧ m.run.fault = m'.run.fault ∧
          ((m.run.fault = none ∧ m.run.machine.halted = true ∧ m'.run.machine.halted = true) ∨
            m.run.fault = some .divisionByZero ∨ ∃ x, m.run.fault = some (.invalidDelay x)))) := by
  obtain ⟨c, hc, hres⟩ := compile_ok hp
  obtain ⟨tokens, script, -, -, hvalid, hroomy, -, rfl⟩ := analyse_ok hc hres
  have hb : budget < 0x100000000 := by omega
  obtain ⟨m, hm, hends⟩ := run_of_valid hvalid hroomy hb hle
  have hm' := load_assemble hb' (hle.trans hbb)
  obtain ⟨he, hr⟩ := refines_of_valid hvalid hroomy hb hm
  obtain ⟨he', hr'⟩ := refines_of_valid hvalid hroomy hb' hm'
  refine ⟨m, _, hm, hm', ?_⟩
  have hroom (n : Nat) : (layoutOf hroomy (Program.assemble (programOf script)) hb).Room n →
      (layoutOf hroomy (Program.assemble (programOf script)) hb').Room n := fun h => Nat.le_trans h hbb
  rcases course_within hroom (codeOf .initial script ++ [.halt]) with ⟨hfull, hpre⟩ | hsame
  · rw [hfull] at hr
    rw [he, he']
    exact .inl ⟨hr, hpre⟩
  · rw [← hsame] at he' hr'
    rcases hends with hagrees | ⟨-, hover⟩
    · obtain ⟨hfault, hhalted⟩ := EndsAs.same hr hr' hagrees.fault_cases
      exact .inr ⟨he.trans he'.symm, hfault, hagrees.fault_cases.imp_left fun hf => ⟨hf.1, hf.2, hhalted hf.1⟩⟩
    · exact .inl ⟨hover, [], (List.append_nil _).trans (he.trans he'.symm)⟩

/-- There is room for one operand, so the sum is not reached that comes behind a shown variable. -/
theorem run_within_larger_memory_of_sum :
    ∃ program m m', compile "int x\ndisplay x\nx <- 1 + 2" = .ok program ∧ Machine.load program 45 = .ok m ∧
      Machine.load program 70 = .ok m' ∧ (∃ sp floor, m.run.fault = some (.stackOverflow sp floor)) ∧
      m.run.effects = [.display 4 (.int 0)] ∧ m.run.effects <+: m'.run.effects := by
  have hcompile : compile "int x\ndisplay x\nx <- 1 + 2" = .ok
      [1, 0, 0, 0, 64, 4, 0, 0, 0, 6, 11, 4, 0, 0, 0, 6, 3, 1, 0, 0, 0, 3, 2, 0, 0, 0, 32, 4, 4, 0, 0, 0, 10] := by
    decide +kernel
  obtain ⟨m, m', hm, hm', h⟩ := run_within_larger_memory hcompile (show _ ≤ 45 by decide) (show _ ≤ 70 by decide)
    (by decide)
  refine ⟨_, m, m', hcompile, hm, hm', ?_⟩
  cases hm
  refine ⟨⟨33, 33, by decide +kernel⟩, by decide +kernel, ?_⟩
  rcases h with ⟨-, hpre⟩ | ⟨he, -⟩
  · exact hpre
  · exact ⟨[], (List.append_nil _).trans he⟩

end Script
end Autoscript
