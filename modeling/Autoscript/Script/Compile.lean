import Autoscript.Token.Lexer
import Autoscript.Script.Statement
import Autoscript.Script.Stats
/-!
# Compiling a script

A script is read into tokens, its lines are compiled in order, and the program is
assembled if no line was refused.  Either all errors of the lexer are reported, or
all faults: at most one per line, in the order of the lines, and last a function
that is still open.
-/
namespace Autoscript

inductive CompileError where
  | lex (errors : List LexError)
  | invalid (faults : List Script.Fault)
deriving DecidableEq

namespace CompileError

def message : CompileError → String
  | .lex errors => "lexing failed with " ++ toString errors.length ++ " error(s)"
  | .invalid faults => "compilation failed with " ++ toString faults.length ++ " error(s)"

def diagnostics : CompileError → List String
  | .lex errors => errors.map LexError.message
  | .invalid faults => faults.map Script.Fault.message

end CompileError

namespace Script

def compileLines : State → List Line → List Outcome × State
  | s, [] => ([], s)
  | s, l :: ls =>
    let o := Statement.compile s l
    let r := compileLines o.state ls
    (o :: r.1, r.2)

/-- The fault of a script that ends inside a function. -/
def unfinished (s : State) : Option Fault :=
  s.opened.map fun f => ⟨.unterminatedFunction f.name, f.line⟩

/-- All that compiling a script that could be read brings to light. -/
structure Compilation where
  outcomes : List Outcome
  state : State
  stats : Stats

namespace Compilation

def ofTokens (source : String) (tokens : List Token) : Compilation :=
  let r := compileLines .initial (Line.split tokens)
  { outcomes := r.1
    state := r.2
    stats :=
      { chars := source.length
        tokens := tokens.length
        bytes := Program.headerSize + Program.width r.2.program } }

def faults (c : Compilation) : List Fault :=
  c.outcomes.filterMap Outcome.fault ++ (unfinished c.state).toList

def result (c : Compilation) : Except CompileError (List UInt8) :=
  if c.faults = [] then .ok (Program.assemble c.state.program) else .error (.invalid c.faults)

end Compilation

def analyse (source : String) : Except (List LexError) Compilation :=
  (Lexer.lex source).map (Compilation.ofTokens source)

def compile (source : String) : Except CompileError (List UInt8) :=
  match analyse source with
  | .error errors => .error (.lex errors)
  | .ok c => c.result

end Script
end Autoscript
