import Autoscript.Command.Plan
import Autoscript.Proofs.Accepted
import Autoscript.Proofs.Codec
import Autoscript.Proofs.Termination
import Autoscript.Proofs.Tree
/-!
# Routes — a script runs like its program

A script can be run as it is, or compiled to a file first and run from there.  The two routes log different things at
different times.  What the host is driven to do, how the command ends and what is listed depend on the program alone
(`Ran`, `Listed`), and both routes have the same one.  The program does not take the place of the script, which has
another extension, since a file has one name only in a tree without links.
-/
namespace Autoscript

/-! ## What shows of a command -/

/-- What the host does itself.  Moving the cursor is the only thing that the machine tells of at this level. -/
def Act.ofHost : Act → Bool
  | .log e => e.level = .info ∧ e.component = .machine
  | .print _ => true
  | .wait _ => true

namespace Report

/-- What the host is driven to do, in order. -/
def driven {α : Type} (r : Report α) : List Act := r.acts.filter Act.ofHost

/-- The status of a command that ends like this. -/
def status (r : Report Unit) : Status := (Command.conclude r.result).2

theorem driven_after {α : Type} (acts : List Act) (r : Report α) :
    (r.after acts).driven = acts.filter Act.ofHost ++ r.driven := List.filter_append ..

theorem andThen_of_error {α β : Type} {r : Report α} {e : Failure} (h : r.result = .error e) (f : α → Report β) :
    r.andThen f = ⟨r.acts, .error e⟩ := by
  rw [andThen, h]

theorem andThen_of_ok {α β : Type} {r : Report α} {a : α} (h : r.result = .ok a) (f : α → Report β) :
    r.andThen f = (f a).after r.acts := by
  rw [andThen, h]

end Report

/-! ## Entries that are not the host's -/

theorem Machine.level_of_mem_doneEntries (i : Instr) (old new : Machine) : ∀ e ∈ doneEntries i old new, e.level ≠ .info := by
  have hone {level : Log.Level} {content : String} {fields : List (String × String)} (h : level ≠ .info) :
      ∀ e ∈ [Log.Entry.plain level .machine content fields], e.level ≠ .info := fun e he => by
    rw [List.mem_singleton.1 he]
    exact h
  cases i with
  | pushImm | pushVar | storeVar | arith | move | delay => exact hone (by decide)
  | setupFrame | freeFrame => exact hone (by decide)
  | halt | mode | display | startFunc | endFunc | call => intro e he; cases he

theorem Machine.level_of_mem_stepEntries (m : Machine) : ∀ e ∈ m.stepEntries, e.level ≠ .info := by
  intro e he
  unfold stepEntries at he
  split at he
  · cases he
  · rcases List.mem_cons.1 he with rfl | he
    · simp [Log.Entry.plain]
    · split at he
      · exact level_of_mem_doneEntries _ _ _ e he
      · cases he

theorem Script.component_of_mem_entries (c : Compilation) : ∀ e ∈ c.entries, e.component = .compiler := by
  have hnote (o : Option Note) : ∀ e ∈ (o.map Note.entry).toList, e.component = .compiler := by
    rcases o with _ | (_ | _) <;> simp [Note.entry, Log.Entry.plain]
  have hfault (o : Option Fault) : ∀ e ∈ (o.map Fault.entry).toList, e.component = .compiler := by
    cases o <;> simp [Fault.entry, Log.Entry.plain]
  rw [Compilation.entries, List.forall_mem_append, List.forall_mem_append]
  refine ⟨⟨fun e he => ?_, hfault _⟩, ?_⟩
  · obtain ⟨o, -, he⟩ := List.mem_flatMap.1 he
    rcases List.mem_append.1 he with he | he
    · exact hnote _ e he
    · exact hfault _ e he
  · split <;> simp [Log.Entry.plain]

theorem Script.component_of_mem_journal (source : String) : ∀ e ∈ journal source, e.component ≠ .machine := by
  intro e he
  rcases List.mem_cons.1 he with rfl | he
  · simp [Log.Entry.plain]
  · split at he
    · obtain ⟨_, -, rfl⟩ := List.mem_map.1 he
      simp [Log.Entry.plain]
    · rename_i c _
      rcases List.mem_cons.1 he with rfl | he
      · simp [Log.Entry.plain]
      · simp [component_of_mem_entries c e he]

namespace Command

theorem filter_stepActs (m : Machine) : (stepActs m).filter Act.ofHost = (m.stepEffect.map perform).toList := by
  have hentries : (m.stepEntries.map Act.log).filter Act.ofHost = [] := by
    rw [List.filter_eq_nil_iff]
    intro a ha
    obtain ⟨e, he, rfl⟩ := List.mem_map.1 ha
    simp [Act.ofHost, m.level_of_mem_stepEntries e he]
  rw [stepActs, List.filter_append, hentries, List.nil_append]
  cases m.stepEffect with
  | none => rfl
  | some e => cases e <;> rfl

/-- **A run drives the host with its effects**, up to a fault. -/
theorem driven_interpret (m : Machine) : (interpret m).driven = m.run.effects.map perform := by
  show (m.history.flatMap stepActs).filter Act.ofHost = _
  rw [(Machine.runs_history m).effects, List.map_filterMap, List.filterMap_eq_flatMap_toList, List.filter_flatMap]
  simp only [filter_stepActs]

theorem driven_compileSource (source : String) : (compileSource source).driven = [] := by
  refine List.filter_eq_nil_iff.2 fun a ha => ?_
  obtain ⟨e, he, rfl⟩ := List.mem_map.1 ha
  simp [Act.ofHost, Script.component_of_mem_journal source e he]

theorem compileSource_of_ok {source : String} {program : List UInt8} (h : Script.compile source = .ok program) :
    (compileSource source).result = .ok program := by
  rw [compileSource, h]
  rfl

theorem compileSource_of_error {source : String} {e : CompileError} (h : Script.compile source = .error e) :
    (compileSource source).result = .error (.compile e) := by
  rw [compileSource, h]
  rfl

/-! ## Running -/

/-- The effects of a program in a memory of so many kilobytes, up to a fault.  One that is not loaded has none. -/
def effects (program : List UInt8) (kilobytes : Nat) : List Effect :=
  match budget kilobytes with
  | .error _ => []
  | .ok bytes =>
    match Machine.load program bytes with
    | .error _ => []
    | .ok m => m.run.effects

/-- **A report of running a program.** -/
structure Ran (program : List UInt8) (kilobytes : Nat) (r : Report Unit) : Prop where
  driven : r.driven = (effects program kilobytes).map perform
  result : r.result = (runProgram program kilobytes).map fun _ => ()

section
variable {path source : String} {content : Content} {program : List UInt8} {kilobytes : Nat} {r : Report Unit}

theorem Ran.after (h : Ran program kilobytes r) {acts : List Act} (ha : acts.filter Act.ofHost = []) :
    Ran program kilobytes (r.after acts) :=
  ⟨by rw [Report.driven_after, ha, h.driven, List.nil_append], h.result⟩

/-- A program is run once it is loaded, whatever is told of it before. -/
theorem ran_of_interpret {start : Machine → Report Unit} (hdriven : ∀ m, (start m).driven = m.run.effects.map perform)
    (hresult : ∀ m, (start m).result = (interpret m).result) :
    Ran program kilobytes ((Report.done (budget kilobytes)).andThen fun bytes => (load program bytes).andThen start) := by
  cases hb : budget kilobytes with
  | error e => exact ⟨by rw [effects, hb]; rfl, by rw [runProgram, hb]; rfl⟩
  | ok bytes =>
    rw [Report.andThen_of_ok rfl]
    refine Ran.after ?_ rfl
    cases hl : Machine.load program bytes with
    | error e =>
      have hload : load program bytes = .done (.error (.load e)) := by rw [load, hl]
      rw [hload]
      exact ⟨by simp only [effects, hb, hl]; rfl, by simp only [runProgram, hb, bind, Except.bind, hl]; rfl⟩
    | ok m =>
      have hload : load program bytes = ⟨[.log (Machine.loadedEntry program.length bytes)], .ok m⟩ := by rw [load, hl]
      rw [hload, Report.andThen_of_ok rfl]
      refine Ran.after ⟨?_, ?_⟩ rfl
      · simp only [effects, hb, hl, hdriven]
      · rw [hresult]
        simp only [runProgram, hb, bind, Except.bind, hl, interpret, Except.mapError]
        cases m.run.fault with
        | none => rfl
        | some f => rfl

theorem ran_script (hpath : Path.isScript path = true) (hs : readSource path content = .ok source)
    (hc : Script.compile source = .ok program) : Ran program kilobytes (runFile path kilobytes content) := by
  simp only [runFile, hpath, if_true, hs]
  rw [Report.andThen_of_ok (compileSource_of_ok hc)]
  exact ((ran_of_interpret driven_interpret fun _ => rfl).after rfl).after (driven_compileSource source)

theorem runFile_of_refused {e : CompileError} (hpath : Path.isScript path = true)
    (hs : readSource path content = .ok source) (hc : Script.compile source = .error e) :
    (runFile path kilobytes content).result = .error (.compile e) := by
  simp only [runFile, hpath, if_true, hs]
  rw [Report.andThen_of_error (compileSource_of_error hc)]

theorem ran_program (hpath : Path.isScript path = false) : Ran program kilobytes (runFile path kilobytes (.ok program)) := by
  rw [runFile, hpath]
  exact ran_of_interpret (fun m => by rw [Report.driven_after, driven_interpret]; rfl) fun _ => rfl

end

/-! ## Listing -/

def title (path : String) : String := "== Disassembly of " ++ path ++ " ==\n"

/-- **A program that was compiled can be listed.** -/
theorem listing_of_compile {source : String} {program : List UInt8} (h : Script.compile source = .ok program) :
    ∃ text, Program.listing program = .ok text := by
  obtain ⟨c, -, hc⟩ := Script.compile_ok h
  obtain ⟨-, rfl⟩ := Script.result_ok_iff.1 hc
  have hheader : (Word.bytes (Word.ofInt Program.version)).length = Program.headerSize := rfl
  have hcode := Program.instructions_encode hheader c.state.program
  exact ⟨_, by rw [Program.listing, Program.assemble, hcode]; rfl⟩

/-- **A report of listing a program.** -/
structure Listed (path text : String) (r : Report Unit) : Prop where
  driven : r.driven = [.print (title path), .print text]
  result : r.result = .ok ()

section
variable {path source text : String} {content : Content} {program : List UInt8}

theorem loadProgram_script (hpath : Path.isScript path = true) (hs : readSource path content = .ok source) :
    loadProgram path content = compileSource source := by
  rw [loadProgram, if_pos hpath, hs]

theorem listed_of_loadProgram (ht : Program.listing program = .ok text) (hdriven : (loadProgram path content).driven = [])
    (hp : (loadProgram path content).result = .ok program) : Listed path text (disassembleFile path content) := by
  rw [disassembleFile, Report.andThen_of_ok hp, ht]
  exact ⟨by rw [Report.driven_after, ← Report.driven, hdriven]; rfl, rfl⟩

theorem listed_script (hpath : Path.isScript path = true) (hs : readSource path content = .ok source)
    (hc : Script.compile source = .ok program) (ht : Program.listing program = .ok text) :
    Listed path text (disassembleFile path content) := by
  have hload := loadProgram_script hpath hs
  exact listed_of_loadProgram ht (by rw [hload, driven_compileSource]) (by rw [hload, compileSource_of_ok hc])

theorem listed_program (hpath : Path.isScript path = false) (ht : Program.listing program = .ok text) :
    Listed path text (disassembleFile path (.ok program)) := by
  have hload : loadProgram path (.ok program) = .done (.ok program) := by
    rw [loadProgram, hpath]
    rfl
  exact listed_of_loadProgram ht (by rw [hload]; rfl) (by rw [hload]; rfl)

theorem disassembleFile_of_refused {e : CompileError} (hpath : Path.isScript path = true)
    (hs : readSource path content = .ok source) (hc : Script.compile source = .error e) :
    (disassembleFile path content).result = .error (.compile e) := by
  rw [disassembleFile, loadProgram_script hpath hs, Report.andThen_of_error (compileSource_of_error hc)]

end

/-! ## Whole commands -/

/-- A command that writes nothing only reports. -/
theorem execute_of_plan {c : Command} {fs : Files} {r : Report Unit}
    (h : c.plan (fs.read c.input) = r.andThen fun _ => .done (.ok none)) : execute c fs = (fs, r) := by
  obtain ⟨acts, result⟩ := r
  cases result with
  | error e => simp only [execute, h, Report.andThen]
  | ok u => simp only [execute, h, Report.andThen, Report.after, Report.done, List.append_nil]

theorem execute_run (path : String) (kilobytes : Nat) (fs : Files) :
    execute (.run path kilobytes) fs = (fs, runFile path kilobytes (fs.read path)) := execute_of_plan rfl

theorem execute_disassemble (path : String) (fs : Files) :
    execute (.disassemble path) fs = (fs, disassembleFile path (fs.read path)) := execute_of_plan rfl

theorem readSource_ok {path source : String} {content : Content} (h : readSource path content = .ok source) :
    ∃ bytes, content = .ok bytes := by
  cases content with
  | error e => cases h
  | ok bytes => exact ⟨bytes, rfl⟩

theorem readSource_error {path : String} {content : Content} {f : Failure} (h : readSource path content = .error f) :
    ∃ e, f = .read path e := by
  unfold readSource at h
  split at h
  · injection h with h
    exact ⟨_, h.symm⟩
  · split at h
    · injection h with h
      exact ⟨_, h.symm⟩
    · split at h <;> cases h

/-- **How compiling a script to a file can end.**  Only a program that is complete gets written. -/
inductive Compiled (path out : String) (fs : Files) : Files × Report Unit → Prop where
  | unread {acts : List Act} {e : FileError} : Compiled path out fs (fs, ⟨acts, .error (.read path e)⟩)
  | refused {acts : List Act} {source : String} {e : CompileError} : readSource path (fs.read path) = .ok source →
      Script.compile source = .error e → Compiled path out fs (fs, ⟨acts, .error (.compile e)⟩)
  | unwritten {acts : List Act} {e : FileError} : Compiled path out fs (fs, ⟨acts, .error (.write out e)⟩)
  | written {acts : List Act} {source : String} {program : List UInt8} {fs' : Files} :
      readSource path (fs.read path) = .ok source → Script.compile source = .ok program →
      fs.write out program = .ok fs' → Compiled path out fs (fs', ⟨acts, .ok ()⟩)

theorem execute_compile (path : String) (output : Option String) (debug : Bool) (fs : Files) :
    Compiled path (output.getD (Path.defaultOutput path)) fs (execute (.compile path output debug) fs) := by
  generalize hout : output.getD (Path.defaultOutput path) = out
  cases hs : readSource path (fs.read path) with
  | error f =>
    obtain ⟨e, rfl⟩ := readSource_error hs
    simp only [execute, plan, input, compileScript, hs, Report.done, Report.andThen]
    exact .unread
  | ok source =>
    cases hc : Script.compile source with
    | error e =>
      simp only [execute, plan, input, compileScript, hs, Report.andThen, compileSource_of_error hc]
      exact .refused hs hc
    | ok program =>
      simp only [execute, plan, input, compileScript, hs, Report.andThen, compileSource_of_ok hc, Report.after, Report.done,
        hout]
      cases hw : fs.write out program with
      | error e => exact .unwritten
      | ok fs' => exact .written hs hc hw

/-- **A program never takes the place of the script** in a tree without links: a path with another extension leads to
another file. -/
theorem read_script_of_write {fs fs' : Files} {path out source : String} {program : List UInt8}
    (hpath : Path.isScript path = true) (hout : Path.isScript out = false) (hs : readSource path (fs.read path) = .ok source)
    (hw : fs.write out program = .ok fs') : fs'.read path = fs.read path := by
  obtain ⟨bytes, hbytes⟩ := readSource_ok hs
  have hname : Path.fileName? path ≠ Path.fileName? out := fun h => by
    rw [Path.isScript, Path.extension?, h] at hpath
    exact Bool.eq_false_iff.1 hout hpath
  rw [hbytes, Files.read_of_write hw hname hbytes]

/-- **Compiling a script to a file changes nothing of how it runs.**  If it succeeds, the file and the script drive the host
with the same effects, whatever the memory, end alike and are listed alike; the script itself is as it was.  If the script
is refused, so it is when it is run or listed. -/
theorem run_compiled (path : String) (output : Option String) (debug : Bool) (kilobytes : Nat) (fs : Files)
    (hpath : Path.isScript path = true) (hout : Path.isScript (output.getD (Path.defaultOutput path)) = false) :
    let out := output.getD (Path.defaultOutput path)
    let compiled := execute (.compile path output debug) fs
    let run (path : String) := (execute (.run path kilobytes) compiled.1).2
    let listed (path : String) := (execute (.disassemble path) compiled.1).2
    (compiled.2.result = .ok () →
      (∃ program, compiled.1.read out = .ok program ∧ (run out).driven = (effects program kilobytes).map perform ∧
        (run path).driven = (effects program kilobytes).map perform) ∧
      (run out).result = (run path).result ∧ (run out).status = (run path).status ∧
      run path = (execute (.run path kilobytes) fs).2 ∧
      ∃ text, (listed out).driven = [.print (title out), .print text] ∧
        (listed path).driven = [.print (title path), .print text] ∧
        (listed out).result = .ok () ∧ (listed path).result = .ok ()) ∧
    ∀ e, compiled.2.result = .error (.compile e) →
      compiled.1 = fs ∧ (run path).result = .error (.compile e) ∧ (run path).status = compiled.2.status ∧
      (listed path).result = .error (.compile e) ∧ (listed path).status = compiled.2.status := by
  intro out compiled run listed
  have hcompiled : Compiled path out fs compiled := execute_compile path output debug fs
  have hrun (p : String) : run p = runFile p kilobytes (compiled.1.read p) := congrArg Prod.snd (execute_run ..)
  have hlisted (p : String) : listed p = disassembleFile p (compiled.1.read p) := congrArg Prod.snd (execute_disassemble ..)
  clear_value listed run compiled
  constructor
  · intro hok
    cases hcompiled with
    | unread | refused | unwritten => cases hok
    | written hs hc hw =>
      rename_i program fs'
      have hprogram : fs'.read out = .ok program := Files.read_write hw
      have hscript : fs'.read path = fs.read path := read_script_of_write hpath hout hs hw
      obtain ⟨text, ht⟩ := listing_of_compile hc
      have hranOut : Ran program kilobytes (run out) := by
        rw [hrun, hprogram]
        exact ran_program hout
      have hran : Ran program kilobytes (run path) := by
        rw [hrun, hscript]
        exact ran_script hpath hs hc
      have hlistedOut : Listed out text (listed out) := by
        rw [hlisted, hprogram]
        exact listed_program hout ht
      have hlistedPath : Listed path text (listed path) := by
        rw [hlisted, hscript]
        exact listed_script hpath hs hc ht
      have hresult : (run out).result = (run path).result := hranOut.result.trans hran.result.symm
      refine ⟨⟨program, hprogram, hranOut.driven, hran.driven⟩, hresult, ?_, ?_, text, hlistedOut.driven, hlistedPath.driven,
        hlistedOut.result, hlistedPath.result⟩
      · rw [Report.status, Report.status, hresult]
      · rw [hrun, hscript, execute_run]
  · intro e he
    cases hcompiled with
    | unread | unwritten | written => cases he
    | refused hs hc =>
      cases he
      have hrefused : (run path).result = .error (.compile e) := by
        rw [hrun]
        exact runFile_of_refused hpath hs hc
      have hunlisted : (listed path).result = .error (.compile e) := by
        rw [hlisted]
        exact disassembleFile_of_refused hpath hs hc
      exact ⟨rfl, hrefused, by rw [Report.status, Report.status, hrefused], hunlisted,
        by rw [Report.status, Report.status, hunlisted]⟩

/-- A script behind a byte order mark that moves the cursor, and one that cannot be read. -/
theorem run_compiled_of_move :
    let fs := ((Files.empty ["home"]).put ["home", "a.mcs"]
      (.file [0xEF, 0xBB, 0xBF, 0x6D, 0x6F, 0x76, 0x65, 0x20, 0x31, 0x20, 0x32])).put ["home", "b.mcs"] (.file [0x3F])
    let compiled := execute (.compile "a.mcs" (some "a.mcc") true) fs
    let refused := execute (.compile "b.mcs" none false) fs
    (compiled.2.result = .ok () ∧ ∃ program, compiled.1.read "a.mcc" = .ok program ∧
      (execute (.run "a.mcc" 1) compiled.1).2.driven = (effects program 1).map perform ∧
      (execute (.run "a.mcs" 1) compiled.1).2.driven = (effects program 1).map perform) ∧
    refused.2.result = .error (.compile (.lex [⟨.unknownSymbol '?', 1⟩])) ∧
      (execute (.run "b.mcs" 1) refused.1).2.result = .error (.compile (.lex [⟨.unknownSymbol '?', 1⟩])) := by
  intro fs compiled refused
  have hok : compiled.2.result = .ok () := by decide +kernel
  have herror : refused.2.result = .error (.compile (.lex [⟨.unknownSymbol '?', 1⟩])) := by decide +kernel
  have hdriven := ((run_compiled "a.mcs" (some "a.mcc") true 1 fs (by decide) (by decide)).1 hok).1
  obtain ⟨-, hrefused, -⟩ := (run_compiled "b.mcs" none false 1 fs (by decide) (by decide)).2 _ herror
  exact ⟨⟨hok, hdriven⟩, herror, hrefused⟩

end Command
end Autoscript
