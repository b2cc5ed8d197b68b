import Autoscript.Proofs.Naming
import Autoscript.Proofs.Output
/-!
# Missing — files that are not there

The status of a failed command is found by walking the chain of its errors (`Failure.status_eq_statusOf`), and that of a
missing input is given to any file that is not there.  Of the files that a command reads there is only one, its input; but
writing one fails in the same way if no directory is where it leads.  So the status is exact for commands that write
nothing and for programs that go where they go by default, which is the working directory and always there in a `Files`,
and tells of an input that was read if it was the output that leads nowhere (`missing_iff`).
-/
namespace Autoscript

/-! ## Chains of errors -/

/-- An error in the chain of a failure, by its type. -/
inductive Failure.Cause where
  /-- What was tried. -/
  | context (text : String)
  | file (error : FileError)
  | compile (error : CompileError)
  /-- The loader could not read the program. -/
  | loadFile (error : FileError)
  | load (error : LoadError)
  | runtime (fault : Machine.Fault)
  | decode (error : DecodeError)

namespace Failure

def Cause.message : Cause → String
  | .context text => text
  | .file e => e.message
  | .compile e => e.message
  | .loadFile e => "failed to read program: " ++ e.message
  | .load e => e.message
  | .runtime f => f.message
  | .decode e => e.message

/-- The errors that a failure consists of, from the outside in. -/
def chain : Failure → List Cause
  | .read path e => [.context ("failed to read " ++ path), .file e]
  | .write path e => [.context ("failed to write " ++ path), .file e]
  | .budget kb => [.context ("memory budget of " ++ toString kb ++ " KiB is too large")]
  | .compile e => [.compile e]
  | .unreadable e => [.loadFile e, .file e]
  | .load e => [.load e]
  | .runtime (.decode e) => [.runtime (.decode e), .decode e]
  | .runtime f => [.runtime f]
  | .decode e => [.decode e]

/-- The status that an error decides.  Of the files it decides for those that are not there. -/
def Cause.status? : Cause → Option Status
  | .compile (.lex _) => some .lexerError
  | .compile (.invalid _) => some .compilerError
  | .loadFile _ | .load _ | .runtime _ | .decode _ => some .runtimeError
  | .file .notFound => some .noInputFile
  | .file _ | .context _ => none

/-- The status of the first error that decides one. -/
def statusOf (chain : List Cause) : Status := (chain.findSome? Cause.status?).getD .badArguments

/-- **What is told of a failure is its chain.** -/
theorem causes_eq_chain (f : Failure) : f.causes = f.chain.map Cause.message := by
  cases f with
  | runtime fault => cases fault <;> rfl
  | _ => rfl

theorem statusOf_file (text : String) (e : FileError) : statusOf [.context text, .file e] = ofFile e := by
  cases e <;> rfl

/-- **The status of a failure is found along its chain.** -/
theorem status_eq_statusOf (f : Failure) : f.status = statusOf f.chain := by
  cases f with
  | read path e => exact (statusOf_file _ e).symm
  | write path e => exact (statusOf_file _ e).symm
  | compile e => cases e <;> rfl
  | runtime fault => cases fault <;> rfl
  | _ => rfl

/-! ## Failures of missing files -/

@[simp] theorem ofFile_eq_noInputFile_iff {e : FileError} : ofFile e = .noInputFile ↔ e = .notFound := by
  cases e <;> simp [ofFile]

/-- A result that has the status of a missing input. -/
def Missing {α : Type} (result : Except Failure α) : Prop := ∃ f, result = .error f ∧ f.status = .noInputFile

@[simp] theorem not_missing_ok {α : Type} {a : α} : ¬ Missing (.ok a) := by
  rintro ⟨f, h, -⟩
  cases h

@[simp] theorem missing_error_iff {α : Type} {f : Failure} :
    Missing (.error f : Except Failure α) ↔ f.status = .noInputFile := by
  constructor
  · rintro ⟨g, h, hstatus⟩
    cases h
    exact hstatus
  · exact fun h => ⟨f, rfl, h⟩

theorem missing_mapError_iff {α ε : Type} {result : Except ε α} {wrap : ε → Failure} :
    Missing (result.mapError wrap) ↔ ∃ e, result = .error e ∧ (wrap e).status = .noInputFile := by
  cases result with
  | ok a => simp [Except.mapError]
  | error e => simp [Except.mapError]

end Failure

open Failure (Missing)

theorem Report.status_eq_noInputFile_iff {r : Report Unit} : r.status = .noInputFile ↔ Missing r.result := by
  rw [Report.status]
  cases r.result with
  | ok a => simp [Command.conclude]
  | error f => exact Failure.missing_error_iff.symm

/-- **A missing file stays one**: what follows adds only what it misses itself. -/
theorem Report.missing_andThen_iff {α β : Type} {r : Report α} {f : α → Report β} :
    Missing (r.andThen f).result ↔ Missing r.result ∨ ∃ a, r.result = .ok a ∧ Missing (f a).result := by
  cases h : r.result with
  | error e => simp [andThen_of_error h]
  | ok a => simp [andThen_of_ok h, Report.after]

/-! ## Files that are written -/

namespace Files

variable {fs : Files} {path : String}

/-- **Writing a file misses one exactly if its path leads nowhere**; the name itself need not be there. -/
theorem write_notFound_iff {bytes : List UInt8} :
    fs.write path bytes = .error .notFound ↔ fs.locate path = .error .notFound := by
  unfold write
  cases hlocate : fs.locate path with
  | error e => simp
  | ok target =>
    cases target with
    | directory => simp
    | named place name slash =>
      have hentry : fs.entry place name ≠ .error .notFound := by
        unfold entry
        split <;> simp
      cases slash with
      | true => simp
      | false =>
        cases he : fs.entry place name with
        | error e =>
          have hne : e ≠ .notFound := fun h => hentry (he.trans (congrArg _ h))
          simp [he, hne]
        | ok node => rcases node with _ | (_ | _) <;> simp [he]

/-- A lone name leads to the working directory. -/
theorem locate_ne_notFound_of_lone (hslash : '/' ∉ path.toList) (hne : path ≠ "") : fs.locate path ≠ .error .notFound := by
  have hparts : Path.parts path = ⟨[], path, decide (path = "")⟩ := by
    rw [Path.parts, Path.components, Path.pieces_of_notMem hslash]
    simp [hne]
  unfold locate
  rw [if_neg hne, hparts]
  simp only [follow]
  split
  · simp
  · split
    · simp
    · split <;> simp

end Files

/-! ## Commands -/

namespace Command

section
variable {path source : String} {content : Content} {program : List UInt8}

theorem missing_readSource_iff : Missing (readSource path content) ↔ content = .error .notFound := by
  cases content with
  | error e => simp [readSource, Failure.status]
  | ok bytes =>
    have htext : ¬ Missing (readSource path (.ok bytes)) := by
      unfold readSource
      simp only
      split
      · simp [Failure.status]
      · split <;> simp
    simp [htext]

theorem not_missing_compileSource : ¬ Missing (compileSource source).result := by
  rw [compileSource, Failure.missing_mapError_iff]
  rintro ⟨_ | _, -, h⟩ <;> cases h

theorem not_missing_budget {kilobytes : Nat} : ¬ Missing (budget kilobytes) := by
  unfold budget
  split <;> simp [Failure.status]

theorem not_missing_load {bytes : Nat} : ¬ Missing (load program bytes).result := by
  unfold load
  split <;> simp [Report.done, Failure.status]

theorem not_missing_interpret {m : Machine} : ¬ Missing (interpret m).result := by
  unfold interpret
  simp only
  split <;> simp [Failure.status]

/-- **A program that is there misses nothing**, however it ends. -/
theorem not_missing_started {kilobytes : Nat} {start : Machine → Report Unit}
    (hstart : ∀ m, (start m).result = (interpret m).result) :
    ¬ Missing ((Report.done (budget kilobytes)).andThen fun bytes => (load program bytes).andThen start).result := by
  rw [Report.missing_andThen_iff]
  rintro (h | ⟨bytes, -, h⟩)
  · exact not_missing_budget h
  · rcases Report.missing_andThen_iff.1 h with h | ⟨m, -, h⟩
    · exact not_missing_load h
    · rw [hstart] at h
      exact not_missing_interpret h

theorem missing_runFile_iff {kilobytes : Nat} :
    Missing (runFile path kilobytes content).result ↔ content = .error .notFound := by
  unfold runFile
  split
  · have hread : Missing (readSource path content) ↔ content = .error .notFound := missing_readSource_iff
    rw [← hread]
    cases readSource path content with
    | error f => simp [Report.done]
    | ok source =>
      refine iff_of_false (fun h => ?_) Failure.not_missing_ok
      rcases Report.missing_andThen_iff.1 h with h | ⟨program, -, h⟩
      · exact not_missing_compileSource h
      · exact not_missing_started (fun _ => rfl) h
  · split
    · refine iff_of_false (fun h => ?_) (by decide)
      rcases Report.missing_andThen_iff.1 h with h | ⟨_, -, h⟩
      · exact not_missing_budget h
      · simp [Report.done, Failure.status] at h
    · simp [Report.done, Failure.status]
    · exact iff_of_false (not_missing_started fun _ => rfl) (by simp)

theorem missing_loadProgram_iff : Missing (loadProgram path content).result ↔ content = .error .notFound := by
  unfold loadProgram
  split
  · have hread : Missing (readSource path content) ↔ content = .error .notFound := missing_readSource_iff
    rw [← hread]
    cases readSource path content with
    | error f => simp [Report.done]
    | ok source => exact iff_of_false not_missing_compileSource Failure.not_missing_ok
  · rw [Report.done, Failure.missing_mapError_iff]
    simp [Failure.status]

theorem missing_disassembleFile_iff : Missing (disassembleFile path content).result ↔ content = .error .notFound := by
  rw [disassembleFile, Report.missing_andThen_iff, missing_loadProgram_iff]
  refine or_iff_left ?_
  rintro ⟨program, -, h⟩
  simp only [Report.after] at h
  split at h <;> simp [Report.done, Failure.status] at h

theorem missing_compileTo_iff {out : String} {fs : Files} :
    Missing (compileTo path out fs) ↔ fs.read path = .error .notFound ∨
      ∃ source program, readSource path (fs.read path) = .ok source ∧ Script.compile source = .ok program ∧
        fs.locate out = .error .notFound := by
  have hread : Missing (readSource path (fs.read path)) ↔ fs.read path = .error .notFound := missing_readSource_iff
  have hthere {source : String} (hs : readSource path (fs.read path) = .ok source) : fs.read path ≠ .error .notFound :=
    fun h => Failure.not_missing_ok (hs ▸ hread.2 h)
  rcases compileTo_cases path out fs with ⟨f, hs, hdone⟩ | ⟨source, e, hs, hc, hdone⟩ | ⟨source, program, hs, hc, hdone⟩
  · rw [hs, Failure.missing_error_iff] at hread
    rw [hdone, Failure.missing_error_iff, hread]
    simp [hs]
  · have hrefused : (Failure.compile e).status ≠ .noInputFile := by cases e <;> simp [Failure.status]
    rw [hdone]
    simp [hrefused, hthere hs, hs, hc]
  · rw [hdone, Failure.missing_mapError_iff]
    simp [hthere hs, hs, hc, Failure.status, Files.write_notFound_iff]

end

/-- **A script that has a program, and an output for it that leads nowhere.** -/
inductive Misplaced (fs : Files) : Command → Prop where
  | output {path out source : String} {debug : Bool} {program : List UInt8} : readSource path (fs.read path) = .ok source →
      Script.compile source = .ok program → fs.locate out = .error .notFound → Misplaced fs (.compile path (some out) debug)

section
variable {fs : Files} {path out : String} {debug : Bool}

theorem misplaced_compile_iff : Misplaced fs (.compile path (some out) debug) ↔
    ∃ source program, readSource path (fs.read path) = .ok source ∧ Script.compile source = .ok program ∧
      fs.locate out = .error .notFound :=
  ⟨fun | .output hs hc hout => ⟨_, _, hs, hc, hout⟩, fun ⟨_, _, hs, hc, hout⟩ => .output hs hc hout⟩

theorem missing_execute_iff (c : Command) :
    Missing (execute c fs).2.result ↔ fs.read c.input = .error .notFound ∨ Misplaced fs c := by
  cases c with
  | compile path output debug =>
    have hresult : Missing (execute (.compile path output debug) fs).2.result ↔
        Missing (compileTo path (output.getD (Path.defaultOutput path)) fs) := by
      rw [(execute_compile_eq path output debug fs).2]
      cases compileTo path (output.getD (Path.defaultOutput path)) fs with
      | error f => simp [Except.map]
      | ok fs' => simp [Except.map]
    rw [hresult, missing_compileTo_iff, input]
    cases output with
    | some out => rw [misplaced_compile_iff, Option.getD_some]
    | none =>
      obtain ⟨hslash, hne⟩ := Path.lone_defaultOutput path
      rw [Option.getD_none]
      refine or_congr_right (iff_of_false ?_ fun h => by cases h)
      rintro ⟨_, _, -, -, hout⟩
      exact Files.locate_ne_notFound_of_lone hslash hne hout
  | run path kilobytes =>
    rw [execute_run, missing_runFile_iff]
    exact (or_iff_left fun h => by cases h).symm
  | disassemble path =>
    rw [execute_disassemble, missing_disassembleFile_iff]
    exact (or_iff_left fun h => by cases h).symm

/-- A missing input is all there is to a failure. -/
theorem result_of_missing_input {c : Command} (h : fs.read c.input = .error .notFound) :
    (execute c fs).2.result = .error (.read c.input .notFound) := by
  cases c with
  | compile path output debug =>
    have hs : readSource path (fs.read path) = .error (.read path .notFound) := congrArg (readSource path) h
    rw [(execute_compile_eq path output debug fs).2, compileTo_of_unread hs]
    rfl
  | run path kilobytes =>
    have hread : fs.read path = .error .notFound := h
    rw [execute_run, hread]
    unfold runFile
    split <;> rfl
  | disassemble path =>
    have hread : fs.read path = .error .notFound := h
    rw [execute_disassemble, hread, disassembleFile, loadProgram]
    split <;> rfl

theorem Misplaced.result {c : Command} (h : Misplaced fs c) :
    ∃ out, c.output? = some out ∧ (execute c fs).2.result = .error (.write out .notFound) := by
  cases h with
  | @output path out source debug program hs hc hout =>
    refine ⟨out, rfl, ?_⟩
    rw [(execute_compile_eq path (some out) debug fs).2, Option.getD_some, compileTo_of_program hs hc,
      Files.write_notFound_iff.2 hout]
    rfl

theorem Misplaced.input_there {c : Command} (h : Misplaced fs c) : ∃ bytes, fs.read c.input = .ok bytes := by
  cases h with
  | output hs => exact readSource_ok hs

end

/-- **The status of a missing input tells of two failures**: that the input is not there, and that an output which was asked
for leads nowhere.  An output by default leads somewhere, since the working directory of a tree is always there.  Every
other failure has another status, the one found along the chain of errors that is told, and the two are told apart by the
failure itself: in the second the input was read, and had a program. -/
theorem missing_iff (c : Command) (fs : Files) :
    let ended := (execute c fs).2
    (∀ f, ended.result = .error f → f.causes = f.chain.map Failure.Cause.message ∧
      ended.status = Failure.statusOf f.chain) ∧
    (ended.status = .noInputFile ↔ fs.read c.input = .error .notFound ∨ Misplaced fs c) ∧
    (fs.read c.input = .error .notFound → ended.result = .error (.read c.input .notFound)) ∧
    (Misplaced fs c → (∃ bytes, fs.read c.input = .ok bytes) ∧
      ∃ out, c.output? = some out ∧ ended.result = .error (.write out .notFound)) := by
  intro ended
  refine ⟨fun f hf => ?_, ?_, result_of_missing_input, fun h => ⟨h.input_there, h.result⟩⟩
  · refine ⟨f.causes_eq_chain, ?_⟩
    rw [Report.status, hf, conclude, Failure.status_eq_statusOf]
  · rw [Report.status_eq_noInputFile_iff, missing_execute_iff]

/-- A program that is not there, and an empty script whose program goes nowhere. -/
theorem missing_program_and_output :
    let fs := (Files.empty ["home"]).put ["home", "a.mcs"] (.file [])
    let run := (execute (.run "b.mcc" 16) fs).2
    let compiled := (execute (.compile "a.mcs" (some "no/b.mcc") false) fs).2
    (fs.read "b.mcc" = .error .notFound ∧ run.status = .noInputFile ∧ run.result = .error (.read "b.mcc" .notFound)) ∧
    Misplaced fs (.compile "a.mcs" (some "no/b.mcc") false) ∧ compiled.status = .noInputFile ∧
      ∃ out, compiled.result = .error (.write out .notFound) := by
  intro fs run compiled
  have hmissing : fs.read "b.mcc" = .error .notFound := by decide +kernel
  have hmisplaced : Misplaced fs (.compile "a.mcs" (some "no/b.mcc") false) := by
    have hs : readSource "a.mcs" (fs.read "a.mcs") = .ok "" := by decide +kernel
    have hc : Script.compile "" = .ok [1, 0, 0, 0, 64, 0, 0, 0, 0, 10] := by decide +kernel
    exact .output hs hc (by decide +kernel)
  obtain ⟨-, hrun, hread, -⟩ := missing_iff (.run "b.mcc" 16) fs
  obtain ⟨-, hcompiled, -, hwrite⟩ := missing_iff (.compile "a.mcs" (some "no/b.mcc") false) fs
  obtain ⟨-, out, -, hout⟩ := hwrite hmisplaced
  exact ⟨⟨hmissing, hrun.2 (.inl hmissing), hread hmissing⟩, hmisplaced, hcompiled.2 (.inr hmisplaced), out, hout⟩

/-- **A script that is there can have the status of a missing input**: its program was to go to a directory that is not
there. -/
theorem missing_output_directory :
    let fs := (Files.empty ["home"]).put ["home", "a.mcs"] (.file [])
    let ended := (execute (.compile "a.mcs" (some "no/b.mcc") false) fs).2
    fs.read "a.mcs" = .ok [] ∧ ended.result = .error (.write "no/b.mcc" .notFound) ∧ ended.status = .noInputFile := by
  decide +kernel

end Command
end Autoscript
