import Autoscript.Proofs.Capacity
import Autoscript.Proofs.Shape
/-!
# Truncated — a program that is cut off does not pass for a whole one

A cut leaves whole instructions and less than one more.  The instructions are orderly like those that they come from, but
the only `halt` of a compiled program is its last one, so there is none among them; and the machine never reads a `halt` out
of an operand, since it does with the bytes what the ideal machine does with the instructions.
-/
namespace Autoscript

namespace Program

theorem aheadUpTo_of_cut {code : List Instr} {cut : List UInt8} (hpre : cut <+: assemble code) (hne : cut ≠ assemble code)
    (hl : headerSize ≤ cut.length) :
    ∃ pre i post tail, code = pre ++ i :: post ∧ Partial tail ∧ AheadUpTo cut headerSize pre tail := by
  have hh : (Word.bytes (Word.ofInt version)).length = headerSize := rfl
  have hlen := length_assemble code
  have hlt : cut.length < (assemble code).length := by
    refine Nat.lt_of_le_of_ne hpre.length_le fun he => hne ?_
    exact hpre.eq_of_length he
  have htake : cut = (assemble code).take cut.length := List.prefix_iff_eq_take.1 hpre
  rcases cut_code code (cut.length - headerSize) (by omega) with ⟨pre, post, rfl, hw⟩ | ⟨pre, i, post, rfl, h1, h2⟩
  · cases post with
    | nil =>
      rw [List.append_nil] at hlen hlt
      omega
    | cons i post =>
      refine ⟨pre, i, post, [], rfl, partial_nil, ?_⟩
      rw [htake, assemble, take_encode hh (n := 0) (by omega), List.take_zero]
      exact List.drop_left' hh
  · obtain ⟨n, hn⟩ : ∃ n, cut.length = headerSize + (width pre + n) := ⟨cut.length - headerSize - width pre, by omega⟩
    refine ⟨pre, i, post, i.encode.take n, rfl, ⟨i, n, by omega, rfl⟩, ?_⟩
    rw [htake, assemble, take_encode hh hn, take_encode_cons (by omega)]
    exact List.drop_left' hh

end Program

namespace Script

open IdealMachine (Course Ending)

theorem halt_notMem_codeOf {tokens : List Token} {script : List Stmt} (hs : Reads (tokens.map Token.kind) script)
    (hv : Valid .initial script) (hr : Roomy .initial script) : .halt ∉ codeOf .initial script := by
  have hp := (ofTokens_of_reads "" hs hv hr).1
  have hcode : (Compilation.ofTokens "" tokens).state.code = codeOf .initial script :=
    List.append_cancel_right (List.tail_eq_of_cons_eq hp)
  have hshaped : Shaped (Compilation.ofTokens "" tokens).state := shaped_compileLines _ shaped_initial
  rw [← hcode]
  intro h
  rcases hshaped.inner _ h with hi | hi <;> cases hi

theorem EndsAs.failed {r : Machine.Run} {e : Ending} (h : EndsAs r e) (he : e ≠ .halted) : ∃ f, r.fault = some f := by
  cases e with
  | halted => exact absurd rfl he
  | fault f => exact ⟨f, h⟩
  | full =>
    obtain ⟨sp, floor, h⟩ := h
    exact ⟨_, h⟩
  | cut =>
    rcases h with ⟨e, h⟩ | ⟨pos, h⟩
    · exact ⟨_, h⟩
    · exact ⟨_, h⟩

theorem EndsAs.not_full {r : Machine.Run} {e : Ending} (h : EndsAs r e)
    (hr : ∀ sp floor, r.fault ≠ some (.stackOverflow sp floor)) : e ≠ .full := by
  rintro rfl
  obtain ⟨sp, floor, hf⟩ := h
  exact hr sp floor hf

theorem course_of_not_full {L : Layout} {code : List Instr} (h : (L.course code).ending ≠ .full) :
    L.course code = IdealMachine.initial.run L.room code := by
  unfold Layout.course at h ⊢
  by_cases h0 : L.Room 0
  · rw [if_pos h0]
  · rw [if_neg h0] at h
    exact absurd rfl h

theorem halt_mem_of_course {L : Layout} {code : List Instr} (h : (L.course code).ending = .halted) : .halt ∈ code := by
  have hfull : (L.course code).ending ≠ .full := by rw [h]; simp
  rw [course_of_not_full hfull] at h
  exact IdealMachine.halt_mem_of_run h

/-- **The first part of some code has the first part of its effects**, in any two memories with enough room for what they
do. -/
theorem effects_of_first_part {L L' : Layout} {code more : List Instr} (h : (L.course code).ending ≠ .full)
    (h' : (L'.course (code ++ more)).ending ≠ .full) :
    (L.course code).effects <+: (L'.course (code ++ more)).effects := by
  have hc := course_of_not_full h
  have hc' := course_of_not_full h'
  rw [hc] at h ⊢
  rw [hc'] at h' ⊢
  -- both courses are the same with the larger room of the two
  have hsame := (IdealMachine.run_room (Nat.le_max_left L.room L'.room) .initial code).resolve_left fun hf => h hf.1
  have hsame' := (IdealMachine.run_room (Nat.le_max_right L.room L'.room) .initial _).resolve_left fun hf => h' hf.1
  rw [hsame, hsame']
  exact (IdealMachine.run_append _ _ code more).effects

/-- **What is left of the program of a script** has no frame that can be read, or does what a first part of the code does. -/
theorem refines_of_cut {script : List Stmt} (hv : Valid .initial script) (hr : Roomy .initial script) {cut : List UInt8}
    (hpre : cut <+: Program.assemble (programOf script)) (hne : cut ≠ Program.assemble (programOf script)) {budget : Nat}
    (hb : budget < 0x100000000) {m : Machine} (hm : Machine.load cut budget = .ok m) :
    (∃ e, Machine.Fails m (.decode e)) ∨
      ∃ pre i post, codeOf .initial script ++ [.halt] = pre ++ i :: post ∧
        Refines m.run ((layoutOf hr cut hb).course pre) := by
  obtain ⟨pre, i, post, tail, hcode, htail, hahead⟩ := Program.aheadUpTo_of_cut hpre hne (Machine.header_of_load hm)
  rcases List.append_eq_cons_iff.1 hcode.symm with ⟨rfl, -⟩ | ⟨pre, rfl, hrest⟩
  · obtain ⟨e, he⟩ := Program.decode_of_partial (Stack.Intact.spells (Machine.intact_of_load hm)) htail hahead
    obtain ⟨-, -, rfl⟩ := Machine.load_ok hm
    exact .inl ⟨e, Machine.fails_of_decode rfl he⟩
  · have horderly := orderly_programOf hv
    rw [hrest] at horderly
    refine .inr ⟨pre, i, post, hrest, ?_⟩
    exact refines_of_load (L := layoutOf hr cut hb) hm htail horderly.of_append hahead

/-- **A program that is cut off fails.**  What is left of it, in any memory, ends with a fault; and where neither it nor
the whole program is stopped for want of room, its effects are the first of those of the whole one. -/
theorem fails_of_truncated {source : String} {program : List UInt8} (hp : compile source = .ok program) {cut : List UInt8}
    (hpre : cut <+: program) (hne : cut ≠ program) {budget : Nat} {m : Machine} (hm : Machine.load cut budget = .ok m) :
    (∃ f, m.run.fault = some f) ∧
      ∀ budget' m', Machine.load program budget' = .ok m' → (∀ sp floor, m.run.fault ≠ some (.stackOverflow sp floor)) →
        (∀ sp floor, m'.run.fault ≠ some (.stackOverflow sp floor)) → m.run.effects <+: m'.run.effects := by
  obtain ⟨c, hc, hres⟩ := compile_ok hp
  obtain ⟨tokens, script, -, hreads, hvalid, hroomy, -, rfl⟩ := analyse_ok hc hres
  have hb := (Machine.load_ok hm).2.1
  rcases refines_of_cut hvalid hroomy hpre hne hb hm with ⟨e, he, hf⟩ | ⟨pre, i, post, hrest, he, hends⟩
  · refine ⟨⟨_, hf⟩, fun budget' m' hm' _ _ => ?_⟩
    rw [he]
    exact List.nil_prefix
  · refine ⟨hends.failed fun hh => ?_, fun budget' m' hm' hroom hroom' => ?_⟩
    · -- a halt in what is left would be one in the code of the statements
      have hin : pre <+: codeOf .initial script := by
        rcases List.prefix_concat_iff.1 ⟨i :: post, hrest.symm⟩ with h | h
        · rw [h] at hrest
          simp at hrest
        · exact h
      exact halt_notMem_codeOf hreads hvalid hroomy (hin.subset (halt_mem_of_course hh))
    · obtain ⟨he', hends'⟩ := refines_of_valid hvalid hroomy (Machine.load_ok hm').2.1 hm'
      rw [he, he']
      rw [hrest] at hends' ⊢
      exact effects_of_first_part (hends.not_full hroom) (hends'.not_full hroom')

/-- The last byte that is left looks like a halt, but belongs to an operand. -/
theorem fails_of_truncated_operand :
    ∃ program m m', compile "int x\ndisplay x\nx <- 10" = .ok program ∧ (program.take 18).getLast? = some Opcode.halt.byte ∧
      Machine.load (program.take 18) 40 = .ok m ∧ Machine.load program 40 = .ok m' ∧ (∃ f, m.run.fault = some f) ∧
      m.run.effects = [.display 4 (.int 0)] ∧ m.run.effects <+: m'.run.effects := by
  have hcompile : compile "int x\ndisplay x\nx <- 10" = .ok
      [1, 0, 0, 0, 64, 4, 0, 0, 0, 6, 11, 4, 0, 0, 0, 6, 3, 10, 0, 0, 0, 4, 4, 0, 0, 0, 10] := by decide +kernel
  have hm : Machine.load [1, 0, 0, 0, 64, 4, 0, 0, 0, 6, 11, 4, 0, 0, 0, 6, 3, 10] 40 = .ok _ := rfl
  obtain ⟨hf, hpre⟩ := fails_of_truncated hcompile ⟨[0, 0, 0, 4, 4, 0, 0, 0, 10], rfl⟩ (by decide) hm
  refine ⟨_, _, _, hcompile, rfl, rfl, rfl, hf, by decide +kernel, hpre 40 _ rfl ?_ ?_⟩
  · have h : Machine.Run.fault (Machine.run ⟨.ofMemory (.ofBytes 40
        [1, 0, 0, 0, 64, 4, 0, 0, 0, 6, 11, 4, 0, 0, 0, 6, 3, 10]) 18, .int, 4, false⟩) =
          some (.decode (.truncatedOperand .pushImm 16)) := by decide +kernel
    intro sp floor he
    cases h.symm.trans he
  · have h : Machine.Run.fault (Machine.run ⟨.ofMemory (.ofBytes 40
        [1, 0, 0, 0, 64, 4, 0, 0, 0, 6, 11, 4, 0, 0, 0, 6, 3, 10, 0, 0, 0, 4, 4, 0, 0, 0, 10]) 27, .int, 4, false⟩) =
          none := by decide +kernel
    intro sp floor he
    cases h.symm.trans he

end Script
end Autoscript
