import Autoscript.Proofs.Accepted
import Autoscript.Proofs.Codec
/-!
# Shape — what every compiled program looks like

A line of a script can do four things to the compiler's state, whether or not it is refused in the end: emit plain
instructions, declare a variable, and start or finish a function (`change_of_compile`).  None of them emits a frame or a
halt, and the marks of functions come in turns, because a function can be started only outside of one and finished only
inside.  So what is emitted is always `Shaped`, and the program around it has one frame at its start, one halt at its
end, and a function of the table at each start of a function.
-/
namespace Autoscript

/-- The instructions that stand for expressions and statements. -/
def Instr.isPlain : Instr → Bool
  | .pushVar _ | .pushImm _ | .storeVar _ | .mode _ | .display _ | .move | .delay | .arith _ => true
  | .call | .startFunc | .endFunc | .halt | .setupFrame _ | .freeFrame => false

/-- The marks of functions. -/
def Instr.isMark : Instr → Bool
  | .startFunc | .endFunc => true
  | _ => false

theorem Instr.not_isMark_of_isPlain {i : Instr} (h : i.isPlain = true) : i.isMark = false := by
  cases i with
  | call | startFunc | endFunc | halt | setupFrame | freeFrame => cases h
  | _ => rfl

theorem Scopes.setFrame_current (scopes : Scopes) (f : Frame) :
    (scopes.setFrame f .current).inFunction = scopes.inFunction ∧
      ((scopes.setFrame f .current).globals = scopes.globals ∨ (scopes.setFrame f .current).globals = f) := by
  cases hi : scopes.inFunction <;> simp [Scopes.setFrame, hi]

namespace Script

/-! ## Plain code -/

def Plain (code : List Instr) : Prop := ∀ i ∈ code, i.isPlain = true

theorem plain_nil : Plain [] := fun _ h => by cases h

theorem Plain.append {code more : List Instr} (h : Plain code) (k : Plain more) : Plain (code ++ more) := fun i hi =>
  (List.mem_append.1 hi).elim (h i) (k i)

theorem Plain.cons {i : Instr} {code : List Instr} (hi : i.isPlain = true) (h : Plain code) : Plain (i :: code) := by
  intro j hj
  rcases List.mem_cons.1 hj with rfl | hj
  · exact hi
  · exact h j hj

theorem plain_giveWay (op : Arith) : ∀ pending : List Pending, Plain (Pending.giveWay op pending).1
  | [] => plain_nil
  | .paren :: _ => plain_nil
  | .arith top :: rest => by
    unfold Pending.giveWay
    split
    · exact plain_nil
    · exact (plain_giveWay op rest).cons rfl

theorem plain_unwind : ∀ pending : List Pending, Plain (Pending.unwind pending).1
  | [] => plain_nil
  | .paren :: _ => plain_nil
  | .arith _ :: rest => (plain_unwind rest).cons rfl

theorem plain_close (pending : List Pending) (line : Nat) (rest : List Token) :
    Plain (Scan.close pending line rest).code := by
  have h := plain_unwind pending
  unfold Scan.close
  split <;> rename_i hu <;> rw [hu] at h <;> exact h

theorem plain_operand {names : Names} {ty : Ty} {t : Token} {i : Instr} (h : names.operand ty t = .ok i) :
    i.isPlain = true := by
  unfold Names.operand at h
  split at h
  · cases h; rfl
  · cases h; rfl
  · split at h
    · cases h
    · split at h
      · cases h; rfl
      · cases h
  · cases h

section
variable (names : Names) (ty : Ty) (stop : Token)

/-- **A scan emits plain code**, also before a fault. -/
theorem plain_go (inArguments : Bool) (pending : List Pending) (afterValue : Bool) (last : Nat) (ts : List Token) :
    Plain (Scan.go names ty inArguments stop pending afterValue last ts).code := by
  fun_induction Scan.go names ty inArguments stop pending afterValue last ts with
  | case1 | case3 | case11 | case15 | case19 => exact plain_close _ _ _
  | case5 => assumption
  | case6 pending _ _ _ _ code rest hu ih =>
    have h := plain_unwind pending
    rw [hu] at h
    exact h.append ih
  | case7 pending _ _ _ _ code hu =>
    have h := plain_unwind pending
    rw [hu] at h
    exact h.append plain_nil
  | case9 pending _ _ _ op _ code rest hg ih =>
    have h := plain_giveWay op pending
    rw [hg] at h
    exact h.append ih
  | case13 _ _ _ _ _ _ _ _ push hp ih | case17 _ _ _ _ _ _ _ _ push hp ih | case21 _ _ _ _ _ _ _ _ push hp ih =>
    exact ih.cons (plain_operand hp)
  | _ => exact plain_nil

theorem plain_arguments : ∀ (n : Nat) (ts : List Token), Plain (names.arguments ty stop n ts).code
  | 0, _ => plain_nil
  | n + 1, ts => by
    have h : Plain (names.argument ty stop ts).code := plain_go names ty stop true _ _ _ ts
    unfold Names.arguments
    simp only
    split
    · exact h
    · exact h.append (plain_arguments n _)

end

/-! ## What a line can do -/

/-- **What a line does to the state**, whether or not it is refused in the end. -/
inductive Change (s : State) : State → Prop where
  | emit {code : List Instr} : Plain code → Change s (s.emit code)
  | declare {x : String} {ty : Ty} {scopes : Scopes} {sym : Symbol} :
      s.scopes.declare? .current x ty = some (scopes, sym) → Change s { s with scopes }
  | start {f : String} {line : Nat} : s.scopes.inFunction = false → (s.functions.lookup f).isSome = false →
      Change s ⟨s.scopes.enter, (f, s.position) :: s.functions, some ⟨f, line⟩, s.code ++ [.startFunc]⟩
  | finish : s.scopes.inFunction = true →
      Change s { s with scopes := s.scopes.leave, opened := none, code := s.code ++ [.endFunc] }

variable {s s' : State}

theorem State.emit_emit (code more : List Instr) : (s.emit code).emit more = s.emit (code ++ more) := by
  rw [State.emit, State.emit, State.emit, List.append_assoc]

theorem Change.same : Change s s := by
  have h : Change s (s.emit []) := .emit plain_nil
  rw [State.emit, List.append_nil] at h
  exact h

theorem change_of_declaration (ty : Ty) (stop : Token) (ts : List Token) :
    Change s (Statement.declaration s ty stop ts).state := by
  unfold Statement.declaration
  split
  · exact .same
  · split
    · exact .same
    · rename_i hd
      exact .declare hd

theorem change_of_start (line : Nat) (stop : Token) (ts : List Token) :
    Change s (Statement.start s line stop ts).state := by
  unfold Statement.start
  split
  · exact .same
  · rename_i hi
    split
    · exact .same
    · split
      · exact .same
      · rename_i hf
        exact .start (Bool.eq_false_iff.2 hi) (Bool.eq_false_iff.2 hf)

theorem change_of_finish (line : Nat) (ts : List Token) : Change s (Statement.finish s line ts).state := by
  unfold Statement.finish
  split
  · rename_i hi
    exact .finish hi
  · exact .same

theorem change_of_display (stop : Token) (ts : List Token) : Change s (Statement.display s stop ts).state := by
  unfold Statement.display
  split
  · exact .same
  · split
    · exact .same
    · exact .emit ((plain_nil.cons rfl).cons rfl)

theorem change_of_action (ty : Ty) (count : Nat) {act : Instr} (ha : act.isPlain = true) (stop : Token)
    (ts : List Token) : Change s (Statement.action s ty count act stop ts).state := by
  have hcode : Plain (.mode ty :: (s.names.arguments ty stop count ts).code) := (plain_arguments _ _ _ _ _).cons rfl
  unfold Statement.action
  simp only
  split
  · exact .emit hcode
  · rw [State.emit_emit]
    exact .emit (hcode.append (plain_nil.cons ha))

theorem change_of_assignment (x : String) (line : Nat) (stop : Token) (ts : List Token) :
    Change s (Statement.assignment s x line stop ts).state := by
  unfold Statement.assignment
  split
  · exact .same
  · rename_i sym _
    have hcode : Plain (.mode sym.ty :: (s.names.expression sym.ty stop ts.tail).code) :=
      (plain_go _ _ _ _ _ _ _ _).cons rfl
    simp only
    split
    · split
      · exact .emit hcode
      · rw [State.emit_emit]
        exact .emit (hcode.append (plain_nil.cons rfl))
    · exact .same

theorem change_of_compile (l : Line) : Change s (Statement.compile s l).state := by
  unfold Statement.compile
  split
  · exact .same
  · split
    · exact change_of_assignment _ _ _ _
    · rename_i k _
      cases k with
      | declare ty => exact change_of_declaration _ _ _
      | start => exact change_of_start _ _ _
      | finish => exact change_of_finish _ _
      | display => exact change_of_display _ _
      | move => exact change_of_action _ _ rfl _ _
      | delay => exact change_of_action _ _ rfl _ _
      | drag | click | type | mod => exact .same
    · exact .same

/-! ## What is always so -/

/-- A number of functions, by their marks. -/
def markPairs (n : Nat) : List Instr := (List.replicate n [.startFunc, .endFunc]).flatten

theorem markPairs_succ (n : Nat) : markPairs (n + 1) = markPairs n ++ [.startFunc, .endFunc] := by
  rw [markPairs, List.replicate_succ', List.flatten_append]
  rfl

/-- The position of the code behind the instruction that sets up the frame. -/
def codeStart : Nat := Program.headerSize + (Instr.setupFrame 0).width

/-- The positions in code at which functions start. -/
def startsFrom (pos : Nat) (code : List Instr) : List Nat :=
  ((Program.positions pos code).filter fun q => q.2 == .startFunc).map Prod.fst

theorem startsFrom_append (pos : Nat) (code more : List Instr) :
    startsFrom pos (code ++ more) = startsFrom pos code ++ startsFrom (pos + Program.width code) more := by
  rw [startsFrom, Program.positions_append, List.filter_append, List.map_append]
  rfl

theorem mem_startsFrom {pos n : Nat} {code : List Instr} :
    n ∈ startsFrom pos code ↔ (n, .startFunc) ∈ Program.positions pos code := by
  unfold startsFrom
  constructor
  · intro h
    obtain ⟨⟨m, i⟩, hm, rfl⟩ := List.mem_map.1 h
    obtain ⟨hq, hi⟩ := List.mem_filter.1 hm
    have hi' : i = .startFunc := by simpa using hi
    rw [← hi']
    exact hq
  · intro h
    exact List.mem_map.2 ⟨_, List.mem_filter.2 ⟨h, rfl⟩, rfl⟩

theorem startsFrom_of_notMem {pos : Nat} {code : List Instr} (h : .startFunc ∉ code) : startsFrom pos code = [] := by
  refine List.eq_nil_iff_forall_not_mem.2 fun n hn => h ?_
  exact Program.mem_of_mem_positions (mem_startsFrom.1 hn)

theorem pairwise_startsFrom (pos : Nat) (code : List Instr) : (startsFrom pos code).Pairwise (· < ·) :=
  List.pairwise_map.2 ((Program.pairwise_positions code pos).filter _)

/-- **The shape of what has been emitted**: plain instructions between marks that come in turns, and a function of the
table at each start. -/
structure Shaped (s : State) : Prop where
  size : s.scopes.globals.size ≤ Frame.maxOffset
  opened : s.opened.isSome = s.scopes.inFunction
  inner : ∀ i ∈ s.code, i.isPlain = true ∨ i.isMark = true
  marks : ∃ n, s.code.filter Instr.isMark = markPairs n ++ if s.scopes.inFunction then [.startFunc] else []
  starts : (s.functions.map Prod.snd).reverse = startsFrom codeStart s.code
  names : (s.functions.map Prod.fst).Nodup

theorem shaped_initial : Shaped .initial where
  size := by decide
  opened := rfl
  inner := fun i hi => by cases hi
  marks := ⟨0, rfl⟩
  starts := rfl
  names := List.nodup_nil

namespace Shaped

theorem marks_outside (h : Shaped s) (hi : s.scopes.inFunction = false) :
    ∃ n, s.code.filter Instr.isMark = markPairs n := by
  obtain ⟨n, hn⟩ := h.marks
  rw [hi, if_neg Bool.false_ne_true, List.append_nil] at hn
  exact ⟨n, hn⟩

theorem inner_mark (h : Shaped s) {mark i : Instr} (hm : mark.isMark = true) (hi : i ∈ s.code ++ [mark]) :
    i.isPlain = true ∨ i.isMark = true := by
  rcases List.mem_append.1 hi with hi | hi
  · exact h.inner i hi
  · rw [List.mem_singleton.1 hi]
    exact .inr hm

theorem emit (h : Shaped s) {code : List Instr} (hc : Plain code) : Shaped (s.emit code) where
  size := h.size
  opened := h.opened
  inner := fun i hi => (List.mem_append.1 hi).elim (h.inner i) fun hi => .inl (hc i hi)
  marks := by
    obtain ⟨n, hn⟩ := h.marks
    have hnone : code.filter Instr.isMark = [] := List.filter_eq_nil_iff.2 fun i hi => by
      rw [Instr.not_isMark_of_isPlain (hc i hi)]
      exact Bool.false_ne_true
    refine ⟨n, ?_⟩
    rw [State.emit, List.filter_append, hnone, List.append_nil]
    exact hn
  starts := by
    have hnone : .startFunc ∉ code := fun hi => by cases hc _ hi
    rw [State.emit, startsFrom_append, startsFrom_of_notMem hnone, List.append_nil]
    exact h.starts
  names := h.names

theorem declare (h : Shaped s) {x : String} {ty : Ty} {scopes : Scopes} {sym : Symbol}
    (hd : s.scopes.declare? .current x ty = some (scopes, sym)) : Shaped { s with scopes } := by
  obtain ⟨⟨f, sym'⟩, hf, hs⟩ := Option.map_eq_some_iff.1 hd
  cases hs
  have hsize : f.size ≤ Frame.maxOffset := by
    unfold Frame.declare? at hf
    simp only at hf
    split at hf
    · cases hf; assumption
    · cases hf
  obtain ⟨hi, hg⟩ := s.scopes.setFrame_current f
  refine ⟨?_, h.opened.trans hi.symm, h.inner, ?_, h.starts, h.names⟩
  · show (s.scopes.setFrame f .current).globals.size ≤ Frame.maxOffset
    rcases hg with hg | hg <;> rw [hg]
    · exact h.size
    · exact hsize
  · simp only [hi]
    exact h.marks

theorem start (h : Shaped s) {f : String} {line : Nat} (hi : s.scopes.inFunction = false)
    (hf : (s.functions.lookup f).isSome = false) :
    Shaped ⟨s.scopes.enter, (f, s.position) :: s.functions, some ⟨f, line⟩, s.code ++ [.startFunc]⟩ where
  size := h.size
  opened := rfl
  inner := fun _ => h.inner_mark rfl
  marks := by
    obtain ⟨n, hn⟩ := h.marks_outside hi
    refine ⟨n, ?_⟩
    rw [List.filter_append, hn]
    rfl
  starts := by
    rw [List.map_cons, List.reverse_cons, h.starts, startsFrom_append]
    rfl
  names := by
    rw [List.map_cons, List.nodup_cons]
    refine ⟨fun hm => ?_, h.names⟩
    rw [(isSome_lookup f s.functions).2 hm] at hf
    cases hf

theorem finish (h : Shaped s) (hi : s.scopes.inFunction = true) :
    Shaped { s with scopes := s.scopes.leave, opened := none, code := s.code ++ [.endFunc] } where
  size := h.size
  opened := rfl
  inner := fun _ => h.inner_mark rfl
  marks := by
    obtain ⟨n, hn⟩ := h.marks
    rw [hi, if_pos rfl] at hn
    refine ⟨n + 1, ?_⟩
    rw [List.filter_append, hn, markPairs_succ, List.append_assoc]
    exact (List.append_nil _).symm
  starts := by
    rw [startsFrom_append]
    exact h.starts.trans (List.append_nil _).symm
  names := h.names

end Shaped

theorem Change.shaped (hc : Change s s') (h : Shaped s) : Shaped s' := by
  cases hc with
  | emit hp => exact h.emit hp
  | declare hd => exact h.declare hd
  | start hi hf => exact h.start hi hf
  | finish hi => exact h.finish hi

/-- **What any lines emit is shaped.** -/
theorem shaped_compileLines : ∀ (ls : List Line) {s : State}, Shaped s → Shaped (compileLines s ls).2
  | [], _, h => h
  | l :: ls, _, h => shaped_compileLines ls ((change_of_compile l).shaped h)

/-! ## Programs -/

/-- **The shape of a program**: the version, one instruction that sets up the frame, a body without another and without
an end, and a halt in the last byte; starts and ends of functions in turns; and a table of functions that gives each
start of a function to one name. -/
structure WellShaped (program : List UInt8) (listing : List (Nat × Instr)) (frameSize : Nat)
    (functions : List (String × Nat)) : Prop where
  version : program.take Program.headerSize = [1, 0, 0, 0]
  parts : ∃ (size : Int32) (body : List (Nat × Instr)) (last : Nat),
    listing = (Program.headerSize, .setupFrame size) :: (body ++ [(last, .halt)]) ∧
      size.toInt = frameSize ∧ last + 1 = program.length ∧
      ∀ q ∈ body, (∀ n, q.2 ≠ .setupFrame n) ∧ q.2 ≠ .freeFrame ∧ q.2 ≠ .call ∧ q.2 ≠ .halt
  lastByte : program.getLast? = some Opcode.halt.byte
  marks : ∃ n, (listing.map Prod.snd).filter Instr.isMark = markPairs n
  names : (functions.map Prod.fst).Nodup
  positions : (functions.map Prod.snd).Nodup
  starts : ∀ pos, pos ∈ functions.map Prod.snd ↔ (pos, .startFunc) ∈ listing

theorem positions_program (s : State) : Program.positions Program.headerSize s.program =
    (Program.headerSize, .setupFrame (Int32.ofNat s.scopes.globals.size)) ::
      (Program.positions codeStart s.code ++ [(s.position, .halt)]) :=
  congrArg (List.cons _) (Program.positions_append s.code [.halt] codeStart)

theorem length_assemble_program (s : State) : (Program.assemble s.program).length = s.position + 1 := by
  rw [Program.length_assemble]
  show 4 + (5 + Program.width (s.code ++ [.halt])) = 4 + 5 + Program.width s.code + 1
  rw [Program.width_append, ← Nat.add_assoc, ← Nat.add_assoc]
  rfl

namespace Shaped

variable (h : Shaped s)
include h

theorem toInt_size : (Int32.ofNat s.scopes.globals.size).toInt = s.scopes.globals.size :=
  Int32.toInt_ofNat_of_lt (Nat.lt_succ_of_le h.size)

theorem body {q : Nat × Instr} (hq : q ∈ Program.positions codeStart s.code) :
    (∀ n, q.2 ≠ .setupFrame n) ∧ q.2 ≠ .freeFrame ∧ q.2 ≠ .call ∧ q.2 ≠ .halt := by
  have hi := h.inner _ (Program.mem_of_mem_positions hq)
  refine ⟨fun n he => ?_, fun he => ?_, fun he => ?_, fun he => ?_⟩ <;> rw [he] at hi <;> rcases hi with hi | hi <;>
    cases hi

/-- **The program around shaped code**, outside of functions. -/
theorem wellShaped (hi : s.scopes.inFunction = false) : WellShaped (Program.assemble s.program)
    (Program.positions Program.headerSize s.program) s.scopes.globals.size s.functions where
  version := rfl
  parts := ⟨_, _, _, positions_program s, h.toInt_size, (length_assemble_program s).symm, fun _ => h.body⟩
  lastByte := by
    rw [Program.assemble, State.program, Program.encode_append, ← List.append_assoc]
    exact List.getLast?_concat
  marks := by
    obtain ⟨n, hn⟩ := h.marks_outside hi
    refine ⟨n, ?_⟩
    rw [Program.map_snd_positions, State.program, List.filter_append, List.filter_cons_of_neg Bool.false_ne_true, hn]
    exact List.append_nil _
  names := h.names
  positions := by
    have hs := pairwise_startsFrom codeStart s.code
    rw [← h.starts, List.pairwise_reverse] at hs
    exact hs.imp Nat.ne_of_gt
  starts := fun pos => by
    rw [← List.mem_reverse, h.starts, mem_startsFrom, positions_program]
    simp

end Shaped

theorem shaped_of_analyse {source : String} {c : Compilation} (hc : analyse source = .ok c) : Shaped c.state := by
  obtain ⟨tokens, -, rfl⟩ := tokens_of_analyse hc
  exact shaped_compileLines _ shaped_initial

/-- **Every compiled program is well-shaped**, with the frame and the functions that the compiler ends with. -/
theorem wellShaped_of_compile {source : String} {program : List UInt8} (hp : compile source = .ok program) :
    ∃ c listing, analyse source = .ok c ∧ Program.instructions program = .ok listing ∧
      WellShaped program listing c.state.scopes.globals.size c.state.functions := by
  obtain ⟨c, hc, hr⟩ := compile_ok hp
  obtain ⟨hf, rfl⟩ := result_ok_iff.1 hr
  refine ⟨c, _, hc, Program.instructions_encode rfl _, ?_⟩
  have hs := shaped_of_analyse hc
  have ho : c.state.opened = none := Option.map_eq_none_iff.1 (Option.toList_eq_nil_iff.1 (List.append_eq_nil_iff.1 hf).2)
  refine hs.wellShaped ?_
  rw [← hs.opened, ho]
  rfl

/-- Two functions between the variables of a script. -/
theorem wellShaped_of_two_functions : ∃ c listing,
    analyse "int x\nstart f\nfloat y\ny <- 2\nend\nint z\nstart g\nend\ndisplay z" = .ok c ∧
      Program.instructions [1, 0, 0, 0, 64, 8, 0, 0, 0, 8, 5, 3, 0, 0, 0, 64, 4, 4, 0, 0, 0, 9, 8, 9, 6, 11, 8, 0, 0, 0,
        10] = .ok listing ∧
      WellShaped [1, 0, 0, 0, 64, 8, 0, 0, 0, 8, 5, 3, 0, 0, 0, 64, 4, 4, 0, 0, 0, 9, 8, 9, 6, 11, 8, 0, 0, 0, 10] listing
        c.state.scopes.globals.size c.state.functions :=
  wellShaped_of_compile (by decide +kernel)

end Script
end Autoscript
