import Autoscript.Log
import Autoscript.Script.Compile
/-!
# What compiling logs

The stages, each declaration and function, each error in its place, and how it
ended.
-/
namespace Autoscript.Script

open Log (Entry)

def Note.entry : Note → Entry
  | .declared ty name offset =>
    .plain .debug .compiler ("declared " ++ ty.word) [("name", name), ("offset", toString offset)]
  | .started name position =>
    .plain .debug .compiler "function started" [("name", name), ("offset", toString position)]

def Fault.entry (f : Fault) : Entry :=
  .plain .error .compiler f.message [("line", toString f.line)]

def Outcome.entries (o : Outcome) : List Entry :=
  (o.note.map Note.entry).toList ++ (o.fault.map Fault.entry).toList

/-- The entries of compiling the lines, and of how it ended. -/
def Compilation.entries (c : Compilation) : List Entry :=
  c.outcomes.flatMap Outcome.entries ++ ((unfinished c.state).map Fault.entry).toList ++
    if c.faults = [] then [⟨.info, .compiler, .elapsed "done in " "ms", []⟩]
    else
      [.plain .info .compiler "compilation failed" [("errors", toString c.faults.length)]]

def journal (source : String) : List Entry :=
  .plain .info .compiler "lexing input..." [] ::
    match analyse source with
    | .error errors => errors.map fun e => .plain .error .lexer e.message []
    | .ok c => .plain .info .compiler "parsing input..." [] :: c.entries

def Stats.entries (s : Stats) : List Entry :=
  let note (content : String) : Entry := .plain .info .command content []
  [⟨.info, .command, .elapsed "compiled in " "us", []⟩,
    note ("tokens: " ++ toString s.tokens ++ " | bytes: " ++ toString s.bytes),
    note ("characters per token: " ++ ratioText s.charsPerToken),
    note ("bytes per token: " ++ ratioText s.bytesPerToken),
    note ("tokens per byte: " ++ ratioText s.tokensPerByte)]

end Autoscript.Script
