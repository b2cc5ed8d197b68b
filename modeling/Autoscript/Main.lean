import Autoscript.Command.Plan
import Autoscript.Command.Usage
/-!
# The command line program

Reads the input of a command, does what its plan says, writes its output, and exits
with the status of how it ended.
-/
namespace Autoscript.Main

def fileError : IO.Error → FileError
  | .noFileOrDirectory _ _ _ => .notFound
  | .inappropriateType _ code _ => if code = 21 ∨ code = -21 then .isDirectory else .notDirectory
  | .invalidArgument _ 36 _ => .nameTooLong
  | e => .other (toString e)

def readFile (path : String) : IO Content := do
  try
    let bytes ← IO.FS.readBinFile path
    return .ok bytes.toList
  catch e => return .error (fileError e)

def writeFile (path : String) (bytes : List UInt8) : IO (Except FileError Unit) := do
  try
    IO.FS.writeBinFile path ⟨bytes.toArray⟩
    return .ok ()
  catch e => return .error (fileError e)

/-- Waits, in stretches that fit the clock. -/
def wait (nanoseconds : Nat) : IO Unit := do
  let ms := (nanoseconds + 999999) / 1000000
  for _ in [0:ms / 1000000] do
    IO.sleep 1000000
  IO.sleep (UInt32.ofNat (ms % 1000000))

def perform (filter : Log.Filter) (started : Nat) (acts : List Act) : IO Unit := do
  for act in acts do
    match act with
    | .print text =>
      IO.print text
      (← IO.getStdout).flush
    | .wait nanoseconds => wait nanoseconds
    | .log entry =>
      if filter.shows entry then
        let passed := (← IO.monoNanosNow) - started
        let time (unit : String) : String :=
          toString (if unit = "ms" then passed / 1000000 else passed / 1000)
        IO.eprintln (entry.line time)

def execute (filter : Log.Filter) (command : Command) : IO Status := do
  let started ← IO.monoNanosNow
  let plan := command.plan (← readFile command.input)
  perform filter started plan.acts
  let result ← match plan.result with
    | .error f => pure (.error f)
    | .ok none => pure (.ok ())
    | .ok (some (path, program)) =>
      let report := Command.written path program (← writeFile path program)
      perform filter started report.acts
      pure report.result
  let (acts, status) := Command.conclude result
  perform filter started acts
  return status

def run (argv : List String) : IO Status := do
  match Args.parse argv with
  | .error refusal =>
    IO.print refusal.output
    if refusal.isMistake then
      IO.eprint Args.usage
    return refusal.status
  | .ok args => execute (Command.filter args (← IO.getEnv "RUST_LOG")) args.command

end Autoscript.Main

def main (argv : List String) : IO UInt32 := do
  return UInt32.ofNat (← Autoscript.Main.run argv).code
