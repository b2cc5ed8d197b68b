import Autoscript.Command.Args
import Autoscript.Command.Failure
import Autoscript.Log.Filter
import Autoscript.Machine.Journal
import Autoscript.Script.Journal
/-!
# What commands do

A command reads its input and then knows everything it is going to do: what to log,
print and wait for, in order, and either the failure it ends with, or the file it
has still to write, or nothing.  `Command.plan` is that, as a function of what
reading the input gave; `Command.execute` carries it out on a tree of files.
-/
namespace Autoscript

inductive Act where
  | log (entry : Log.Entry)
  | print (text : String)
  | wait (nanoseconds : Nat)
deriving DecidableEq

structure Report (α : Type) where
  acts : List Act
  result : Except Failure α

namespace Report

def done {α : Type} (result : Except Failure α) : Report α := ⟨[], result⟩

def after {α : Type} (acts : List Act) (o : Report α) : Report α := { o with acts := acts ++ o.acts }

def andThen {α β : Type} (o : Report α) (f : α → Report β) : Report β :=
  match o.result with
  | .error e => ⟨o.acts, .error e⟩
  | .ok a => (f a).after o.acts

end Report

abbrev Content := Except FileError (List UInt8)

namespace Command

def note (content : String) : Act := .log (.plain .info .command content [])

/-- The text of a script, without a byte order mark at its start. -/
def readSource (path : String) (content : Content) : Except Failure String :=
  match content with
  | .error e => .error (.read path e)
  | .ok bytes =>
    match String.fromUTF8? ⟨bytes.toArray⟩ with
    | none => .error (.read path .notText)
    | some source =>
      match source.toList with
      | '\ufeff' :: rest => .ok (String.ofList rest)
      | _ => .ok source

def compileSource (source : String) : Report (List UInt8) :=
  ⟨(Script.journal source).map .log, (Script.compile source).mapError .compile⟩

def sizes (source : String) : List Act :=
  match Script.analyse source with
  | .error _ => []
  | .ok c => c.stats.entries.map .log

def compileScript (path : String) (debug : Bool) (content : Content) : Report (List UInt8) :=
  match readSource path content with
  | .error f => .done (.error f)
  | .ok source =>
    let o := compileSource source
    { o with acts := o.acts ++ if debug then sizes source else [] }

def loadProgram (path : String) (content : Content) : Report (List UInt8) :=
  if Path.isScript path then
    match readSource path content with
    | .error f => .done (.error f)
    | .ok source => compileSource source
  else .done (content.mapError (.read path))

/-- A memory size in bytes, if it can be addressed with 64 bits. -/
def budget (kilobytes : Nat) : Except Failure Nat :=
  if kilobytes * 1024 < 0x10000000000000000 then .ok (kilobytes * 1024) else .error (.budget kilobytes)

/-- What an effect comes to on this computer: the cursor is only reported. -/
def perform : Effect → Act
  | .move x y =>
    .log (.plain .info .machine "move" [("x", toString x.toInt), ("y", toString y.toInt)])
  | .delay ns => .wait ns
  | .display offset value =>
    .print ("Offset: " ++ toString offset.toInt ++ " | Value: " ++ value.text ++ "\n")

def stepActs (m : Machine) : List Act :=
  m.stepEntries.map .log ++ (m.stepEffect.map perform).toList

def interpret (m : Machine) : Report Unit :=
  ⟨m.history.flatMap stepActs,
    match m.run.fault with
    | none => .ok ()
    | some f => .error (.runtime f)⟩

def load (program : List UInt8) (bytes : Nat) : Report Machine :=
  match Machine.load program bytes with
  | .error e => .done (.error (.load e))
  | .ok m => ⟨[.log (Machine.loadedEntry program.length bytes)], .ok m⟩

def runProgram (program : List UInt8) (kilobytes : Nat) : Except Failure (List Effect) := do
  let m ← (Machine.load program (← budget kilobytes)).mapError .load
  match m.run.fault with
  | none => return m.run.effects
  | some f => .error (.runtime f)

/-- Runs the program in a file.  A script is compiled first. -/
def runFile (path : String) (kilobytes : Nat) (content : Content) : Report Unit :=
  if Path.isScript path then
    match readSource path content with
    | .error f => .done (.error f)
    | .ok source =>
      (compileSource source).andThen fun program =>
        Report.after [note ("running " ++ path)] <|
          (Report.done (budget kilobytes)).andThen fun bytes =>
            (load program bytes).andThen interpret
  else
    -- A directory can be opened like a file; it is reading it that fails.
    match content with
    | .error .isDirectory =>
      (Report.done (budget kilobytes)).andThen fun _ => .done (.error (.unreadable .isDirectory))
    | .error e => .done (.error (.read path e))
    | .ok program =>
      (Report.done (budget kilobytes)).andThen fun bytes =>
        (load program bytes).andThen fun m =>
          Report.after [note ("running " ++ path)] (interpret m)

def disassembleFile (path : String) (content : Content) : Report Unit :=
  (loadProgram path content).andThen fun program =>
    Report.after [.print ("== Disassembly of " ++ path ++ " ==\n")] <|
      match Program.listing program with
      | .error e => .done (.error (.decode e))
      | .ok text => ⟨[.print text], .ok ()⟩

def input : Command → String
  | .compile path _ _ | .run path _ | .disassemble path => path

def output? : Command → Option String
  | .compile path output _ => some (output.getD (Path.defaultOutput path))
  | _ => none

/-- What a command does with its input: the bytes to write, if any. -/
def plan (c : Command) (content : Content) : Report (Option (String × List UInt8)) :=
  match c with
  | .compile path output debug =>
    (compileScript path debug content).andThen fun program =>
      .done (.ok (some (output.getD (Path.defaultOutput path), program)))
  | .run path kilobytes => (runFile path kilobytes content).andThen fun _ => .done (.ok none)
  | .disassemble path => (disassembleFile path content).andThen fun _ => .done (.ok none)

def written (path : String) (program : List UInt8) (result : Except FileError Unit) : Report Unit :=
  match result with
  | .error e => .done (.error (.write path e))
  | .ok () =>
    ⟨[note ("wrote " ++ toString program.length ++ " bytes to " ++ path)], .ok ()⟩

def execute (c : Command) (fs : Files) : Files × Report Unit :=
  let p := c.plan (fs.read c.input)
  match p.result with
  | .error f => (fs, ⟨p.acts, .error f⟩)
  | .ok none => (fs, ⟨p.acts, .ok ()⟩)
  | .ok (some (path, program)) =>
    match fs.write path program with
    | .error e => (fs, (written path program (.error e)).after p.acts)
    | .ok fs' => (fs', (written path program (.ok ())).after p.acts)

/-- The filter of the log: the one that is set, if it can be read, or else the one that
the flags ask for. -/
def filter (args : Args) (setting : Option String) : Log.Filter :=
  let byFlags := Log.Filter.upTo
    (if args.verbose then .trace else if args.quiet then .error else .info)
  (setting.bind Log.Filter.parse?).getD byFlags

/-- How the program ends: a failure is logged and decides the status. -/
def conclude : Except Failure Unit → List Act × Status
  | .ok () => ([], .success)
  | .error f => ([.log (.plain .error .main f.message [])], f.status)

end Command
end Autoscript
