import Autoscript.Command.Args
import Autoscript.Command.Files
import Autoscript.Machine.Load
import Autoscript.Script.Compile
/-!
# Failed commands

Why a command did not do its work, how that is told, and the exit status it gives.
-/
namespace Autoscript

inductive Status where
  | success
  | badArguments
  | noInputFile
  | lexerError
  | compilerError
  | runtimeError
deriving DecidableEq, Repr

def Status.code : Status → Nat
  | .success => 0
  | .badArguments => 1
  | .noInputFile => 2
  | .lexerError => 3
  | .compilerError => 4
  | .runtimeError => 5

/-- A mistake in the arguments gives a status of its own. -/
def Args.Refusal.status (r : Args.Refusal) : Status :=
  if r.isMistake then .badArguments else .success

inductive Failure where
  | read (path : String) (error : FileError)
  | write (path : String) (error : FileError)
  /-- The memory does not fit the address range. -/
  | budget (kilobytes : Nat)
  | compile (error : CompileError)
  /-- The program could be opened but not read. -/
  | unreadable (error : FileError)
  | load (error : LoadError)
  | runtime (fault : Machine.Fault)
  | decode (error : DecodeError)
deriving DecidableEq

namespace Failure

/-- The causes of a failure, from the outside in. -/
def causes : Failure → List String
  | .read path e => ["failed to read " ++ path, e.message]
  | .write path e => ["failed to write " ++ path, e.message]
  | .budget kb => ["memory budget of " ++ toString kb ++ " KiB is too large"]
  | .compile e => [e.message]
  | .unreadable e => ["failed to read program: " ++ e.message, e.message]
  | .load e => [e.message]
  | .runtime (.decode e) => [Machine.Fault.message (.decode e), e.message]
  | .runtime f => [f.message]
  | .decode e => [e.message]

def message (f : Failure) : String := Text.joinWith ": " f.causes

def ofFile : FileError → Status
  | .notFound => .noInputFile
  | _ => .badArguments

def status : Failure → Status
  | .read _ e | .write _ e => ofFile e
  | .budget _ => .badArguments
  | .compile (.lex _) => .lexerError
  | .compile (.invalid _) => .compilerError
  | .unreadable _ | .load _ | .runtime _ | .decode _ => .runtimeError

end Failure
end Autoscript
