import Autoscript.Text.Columns
import Autoscript.Text.Terminal
/-!
# The log

Everything the tools report besides their output is a log entry: a level, the
component it comes from, a message and named fields.  Entries are plain values.
Which of them are shown is up to a filter, and the only thing that an entry does
not know is how long something took.
-/
namespace Autoscript.Log

inductive Level where
  | error
  | warn
  | info
  | debug
  | trace
deriving DecidableEq, Repr

namespace Level

/-- Less important levels have larger ranks. -/
def rank : Level → Nat
  | .error => 1
  | .warn => 2
  | .info => 3
  | .debug => 4
  | .trace => 5

def name : Level → String
  | .error => "ERROR"
  | .warn => "WARN"
  | .info => "INFO"
  | .debug => "DEBUG"
  | .trace => "TRACE"

def all : List Level := [.error, .warn, .info, .debug, .trace]

end Level

inductive Component where
  | lexer
  | compiler
  | machine
  | command
  | main
deriving DecidableEq, Repr

def Component.target : Component → String
  | .lexer => "macro_parser"
  | .compiler => "compiler"
  | .machine => "vm"
  | .command => "cli"
  | .main => "r#macro"

/-- The text of an entry.  An elapsed time is a number between `before` and `unit`. -/
inductive Message where
  | text (content : String)
  | elapsed (before unit : String)
deriving DecidableEq, Repr

def Message.render (time : String → String) : Message → String
  | .text s => s
  | .elapsed before unit => before ++ time unit ++ unit

structure Entry where
  level : Level
  component : Component
  message : Message
  fields : List (String × String)
deriving DecidableEq, Repr

namespace Entry

def plain (level : Level) (component : Component) (content : String)
    (fields : List (String × String)) : Entry :=
  ⟨level, component, .text content, fields⟩

/-- The line of an entry: its level in five columns, the message with its control
characters spelled out, the fields. -/
def line (time : String → String) (e : Entry) : String :=
  Text.padLeft ' ' 5 e.level.name ++ " " ++ Text.Terminal.spellOut (e.message.render time) ++
    String.join (e.fields.map fun (k, v) => " " ++ k ++ "=" ++ v)

end Entry
end Autoscript.Log
