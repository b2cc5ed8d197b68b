import Autoscript.Command.Args
/-!
# Help and version

What the program prints about itself.
-/
namespace Autoscript.Args

def usage : String :=
  "Compile and run Macro automation scripts\n\n" ++
  "Usage: macro [OPTIONS] <COMMAND>\n\n" ++
  "Commands:\n" ++
  "  compile      Compile a script (.mcs) to bytecode (.mcc)\n" ++
  "  run          Run a compiled program, or a script after compiling it\n" ++
  "  disassemble  Print the instruction listing of a program or script\n" ++
  "  help         Print this message or the help of the given subcommand(s)\n\n" ++
  "Options:\n" ++
  "  -v, --verbose  Trace every executed instruction\n" ++
  "  -q, --quiet    Only report errors\n" ++
  "  -h, --help     Print help\n" ++
  "  -V, --version  Print version\n"

def versionText : String := "macro 0.1.0\n"

/-- What is printed instead of carrying out a command.  Mistakes print nothing here. -/
def Refusal.output : Refusal → String
  | .help => usage
  | .version => versionText
  | _ => ""

end Autoscript.Args
