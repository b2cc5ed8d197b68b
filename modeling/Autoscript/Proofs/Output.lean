import Autoscript.Proofs.Routes
/-!
# Output — one file or none

Compiling a script to a file reads one file and writes one, in this order, and what it tells in between has no say in
either (`execute_compile_eq`).  So a script that cannot be read or has no program leaves all files as they are, and any
other ends with its program in the output and every other file as it was, also where the output is the script itself.  Two
paths lead to one file only if they lead to the same name, since the trees have no links.
-/
namespace Autoscript

namespace Files

/-- **A tree with one file replaced**: the path leads to these bytes, and what stands elsewhere is the same. -/
structure Replaced (fs : Files) (path : String) (bytes : List UInt8) (fs' : Files) : Prop where
  home : fs'.home = fs.home
  read : fs'.read path = .ok bytes
  others : ∃ place name, fs.locate path = .ok (.named place name false) ∧
    fs'.get? (place ++ [name]) = some (.file bytes) ∧ ∀ other, other ≠ place ++ [name] → fs'.get? other = fs.get? other

theorem replaced_of_write {fs fs' : Files} {path : String} {bytes : List UInt8} (h : fs.write path bytes = .ok fs') :
    Replaced fs path bytes fs' := by
  have hread := read_write h
  obtain ⟨place, name, hlocate, -, hget, rfl⟩ := write_ok h
  exact ⟨rfl, hread, place, name, hlocate, get?_put_self _ hget, fun other hne => get?_put_of_ne _ hne⟩

end Files

namespace Command

/-! ## Sources -/

/-- **The source in the bytes of a file**: their text, without a byte order mark at its start. -/
def SourceIn (bytes : List UInt8) (source : String) : Prop :=
  ∃ text, String.fromUTF8? ⟨bytes.toArray⟩ = some text ∧
    (text.toList = '\ufeff' :: source.toList ∨ text.toList.head? ≠ some '\ufeff' ∧ source = text)

theorem sourceIn_of_readSource {path source : String} {content : Content} (h : readSource path content = .ok source) :
    ∃ bytes, content = .ok bytes ∧ SourceIn bytes source := by
  obtain ⟨bytes, rfl⟩ := readSource_ok h
  unfold readSource at h
  simp only at h
  split at h
  · cases h
  · rename_i text htext
    refine ⟨bytes, rfl, text, htext, ?_⟩
    split at h
    · rename_i rest hrest
      cases h
      exact .inl (by rw [hrest, String.toList_ofList])
    · rename_i hmark
      cases h
      refine .inr ⟨fun hhead => ?_, rfl⟩
      obtain ⟨rest, hrest⟩ := List.head?_eq_some_iff.1 hhead
      exact hmark rest hrest

/-! ## Compiling to a file -/

/-- What compiling a script to a file comes to, apart from what is told of it. -/
def compileTo (path out : String) (fs : Files) : Except Failure Files := do
  let source ← readSource path (fs.read path)
  let program ← (Script.compile source).mapError .compile
  (fs.write out program).mapError (.write out)

section
variable {path out source : String} {fs : Files} {program : List UInt8}

theorem compileTo_of_unread {f : Failure} (h : readSource path (fs.read path) = .error f) :
    compileTo path out fs = .error f := by
  rw [compileTo, h]
  rfl

theorem compileTo_of_refused {e : CompileError} (hs : readSource path (fs.read path) = .ok source)
    (hc : Script.compile source = .error e) : compileTo path out fs = .error (.compile e) := by
  simp only [compileTo, hs, hc, bind, Except.bind, Except.mapError]

theorem compileTo_of_program (hs : readSource path (fs.read path) = .ok source) (hc : Script.compile source = .ok program) :
    compileTo path out fs = (fs.write out program).mapError (.write out) := by
  simp only [compileTo, hs, hc, bind, Except.bind, Except.mapError]

/-- **How far compiling to a file gets**: to the failure to read, to that of the source, or to the writing. -/
theorem compileTo_cases (path out : String) (fs : Files) :
    (∃ f, readSource path (fs.read path) = .error f ∧ compileTo path out fs = .error f) ∨
    (∃ source e, readSource path (fs.read path) = .ok source ∧ Script.compile source = .error e ∧
      compileTo path out fs = .error (.compile e)) ∨
    ∃ source program, readSource path (fs.read path) = .ok source ∧ Script.compile source = .ok program ∧
      compileTo path out fs = (fs.write out program).mapError (.write out) := by
  cases hs : readSource path (fs.read path) with
  | error f => exact .inl ⟨f, rfl, compileTo_of_unread hs⟩
  | ok source =>
    cases hc : Script.compile source with
    | error e => exact .inr (.inl ⟨source, e, rfl, hc, compileTo_of_refused hs hc⟩)
    | ok program => exact .inr (.inr ⟨source, program, rfl, hc, compileTo_of_program hs hc⟩)

/-- **The files and the result of a command that compiles to a file**, which do not depend on what it tells. -/
theorem execute_compile_eq (path : String) (output : Option String) (debug : Bool) (fs : Files) :
    let done := compileTo path (output.getD (Path.defaultOutput path)) fs
    (execute (.compile path output debug) fs).1 = done.toOption.getD fs ∧
      (execute (.compile path output debug) fs).2.result = done.map fun _ => () := by
  intro done
  rcases compileTo_cases path (output.getD (Path.defaultOutput path)) fs with
    ⟨f, hs, hdone⟩ | ⟨source, e, hs, hc, hdone⟩ | ⟨source, program, hs, hc, hdone⟩
  · simp only [execute, plan, input, compileScript, hs, Report.done, Report.andThen, done, hdone]
    exact ⟨rfl, rfl⟩
  · simp only [execute, plan, input, compileScript, hs, Report.andThen, compileSource_of_error hc, done, hdone]
    exact ⟨rfl, rfl⟩
  · simp only [execute, plan, input, compileScript, hs, Report.andThen, compileSource_of_ok hc, Report.after, Report.done,
      done, hdone]
    cases fs.write (output.getD (Path.defaultOutput path)) program <;> exact ⟨rfl, rfl⟩

theorem plan_compile_of_ok {output : Option String} {debug : Bool} {content : Content}
    (hs : readSource path content = .ok source) (hc : Script.compile source = .ok program) :
    (plan (.compile path output debug) content).result = .ok (some (output.getD (Path.defaultOutput path), program)) := by
  simp only [plan, compileScript, hs, Report.andThen, compileSource_of_ok hc]
  rfl

end

/-- **A script is compiled to a file whole or not at all.**  If it cannot be read or has no program, that is the failure,
and no file changes; the only other failure is one of the output.  If it succeeds, the output that was asked for, or else
the default one, holds the program of the source in the file, and every other file is as it was.  Telling of sizes changes
neither the files nor the result. -/
theorem compile_all_or_nothing (path : String) (output : Option String) (debug : Bool) (fs : Files) :
    let out := output.getD (Path.defaultOutput path)
    let done := execute (.compile path output debug) fs
    (∀ f, readSource path (fs.read path) = .error f → done.1 = fs ∧ done.2.result = .error f) ∧
    (∀ source e, readSource path (fs.read path) = .ok source → Script.compile source = .error e →
      done.1 = fs ∧ done.2.result = .error (.compile e)) ∧
    (∀ f, done.2.result = .error f → (readSource path (fs.read path) = .error f ∧ done.1 = fs) ∨
      (∃ source e, readSource path (fs.read path) = .ok source ∧ Script.compile source = .error e ∧ f = .compile e ∧
        done.1 = fs) ∨ ∃ e, f = .write out e) ∧
    (done.2.result = .ok () → ∃ bytes source program, fs.read path = .ok bytes ∧ SourceIn bytes source ∧
      Script.compile source = .ok program ∧
      (plan (.compile path output debug) (fs.read path)).result = .ok (some (out, program)) ∧
      Files.Replaced fs out program done.1) ∧
    ∀ debug', (execute (.compile path output debug') fs).1 = done.1 ∧
      (execute (.compile path output debug') fs).2.result = done.2.result := by
  intro out done
  obtain ⟨hfiles, hresult⟩ : done.1 = (compileTo path out fs).toOption.getD fs ∧
      done.2.result = (compileTo path out fs).map fun _ => () := execute_compile_eq path output debug fs
  have herror {f : Failure} (h : compileTo path out fs = .error f) : done.1 = fs ∧ done.2.result = .error f :=
    ⟨by rw [hfiles, h]; rfl, by rw [hresult, h]; rfl⟩
  refine ⟨fun f hs => herror (compileTo_of_unread hs), fun source e hs hc => herror (compileTo_of_refused hs hc),
    fun f hf => ?_, fun hok => ?_, fun debug' => ?_⟩
  · rcases compileTo_cases path out fs with ⟨g, hs, h⟩ | ⟨source, e, hs, hc, h⟩ | ⟨source, program, hs, hc, h⟩
    · cases (herror h).2.symm.trans hf
      exact .inl ⟨hs, (herror h).1⟩
    · cases (herror h).2.symm.trans hf
      exact .inr (.inl ⟨source, e, hs, hc, rfl, (herror h).1⟩)
    · rw [hresult, h] at hf
      cases hw : fs.write out program with
      | error e =>
        rw [hw] at hf
        cases hf
        exact .inr (.inr ⟨e, rfl⟩)
      | ok fs' =>
        rw [hw] at hf
        cases hf
  · rcases compileTo_cases path out fs with ⟨g, hs, h⟩ | ⟨source, e, hs, hc, h⟩ | ⟨source, program, hs, hc, h⟩
    · cases (herror h).2.symm.trans hok
    · cases (herror h).2.symm.trans hok
    · obtain ⟨bytes, hbytes, hsource⟩ := sourceIn_of_readSource hs
      refine ⟨bytes, source, program, hbytes, hsource, hc, plan_compile_of_ok hs hc, ?_⟩
      cases hw : fs.write out program with
      | error e =>
        rw [hresult, h, hw] at hok
        cases hok
      | ok fs' =>
        rw [hfiles, h, hw]
        exact Files.replaced_of_write hw
  · obtain ⟨hfiles', hresult'⟩ := execute_compile_eq path output debug' fs
    exact ⟨hfiles'.trans hfiles.symm, hresult'.trans hresult.symm⟩

/-- A program that takes the place of its own script, which has a byte order mark, and a script that cannot be read. -/
theorem compile_in_place :
    let fs := ((Files.empty ["home"]).put ["home", "a.mcs"]
      (.file [0xEF, 0xBB, 0xBF, 0x6D, 0x6F, 0x76, 0x65, 0x20, 0x31, 0x20, 0x32])).put ["home", "b.mcs"] (.file [0x3F])
    let done := execute (.compile "a.mcs" (some "a.mcs") true) fs
    let refused := execute (.compile "b.mcs" (some "a.mcs") true) fs
    (done.2.result = .ok () ∧ ∃ program, Files.Replaced fs "a.mcs" program done.1) ∧
    refused.2.result = .error (.compile (.lex [⟨.unknownSymbol '?', 1⟩])) ∧ refused.1 = fs := by
  intro fs done refused
  have hok : done.2.result = .ok () := by decide +kernel
  have herror : refused.2.result = .error (.compile (.lex [⟨.unknownSymbol '?', 1⟩])) := by decide +kernel
  obtain ⟨-, -, -, hprogram, -⟩ := compile_all_or_nothing "a.mcs" (some "a.mcs") true fs
  obtain ⟨-, -, hfailure, -, -⟩ := compile_all_or_nothing "b.mcs" (some "a.mcs") true fs
  obtain ⟨bytes, source, program, -, -, -, -, hreplaced⟩ := hprogram hok
  refine ⟨⟨hok, program, hreplaced⟩, herror, ?_⟩
  rcases hfailure _ herror with ⟨-, hfs⟩ | ⟨_, _, -, -, -, hfs⟩ | ⟨_, hwrite⟩
  · exact hfs
  · exact hfs
  · cases hwrite

end Command
end Autoscript
