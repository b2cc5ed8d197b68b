/-!
# Command line arguments

The program takes flags, a command, and the command's own flags, options and path.
Arguments are read from left to right.  The value of an option, and the path, are
checked when the next argument takes effect or the arguments end; a mistake in a
later argument that is not even understood is therefore reported first.
-/
namespace Autoscript

inductive Command where
  | compile (path : String) (output : Option String) (debug : Bool)
  | run (path : String) (kilobytes : Nat)
  | disassemble (path : String)
deriving DecidableEq, Repr

structure Args where
  verbose : Bool
  quiet : Bool
  command : Command
deriving DecidableEq, Repr

namespace Args

def defaultKilobytes : Nat := 16

inductive Refusal where
  | help
  | version
  | nothingGiven
  | missingCommand
  | unknownCommand
  | unknownArgument
  | missingPath
  | emptyValue
  | invalidNumber
  | unneededValue
  | conflict
deriving DecidableEq, Repr

/-- Help and version are asked for; everything else is a mistake. -/
def Refusal.isMistake : Refusal → Bool
  | .help | .version => false
  | _ => true

inductive Key where
  | verbose
  | quiet
  | help
  | version
  | output
  | debug
  | memory
  | path
deriving DecidableEq, Repr

structure Switch where
  key : Key
  short : Char
  long : String
  takesValue : Bool
deriving DecidableEq, Repr

/-- What may be written in one place: options, and either commands or one path. -/
structure Level where
  options : List Switch
  commands : List String

namespace Level

/-- The flags that are understood before and after a command. -/
def globals : List Switch :=
  [⟨.verbose, 'v', "verbose", false⟩, ⟨.quiet, 'q', "quiet", false⟩, ⟨.help, 'h', "help", false⟩]

def top : Level :=
  ⟨globals ++ [⟨.version, 'V', "version", false⟩], ["compile", "run", "disassemble", "help"]⟩

def ofCommand (name : String) : Level :=
  let own : List Switch := match name with
    | "compile" => [⟨.output, 'o', "output", true⟩, ⟨.debug, 'd', "debug", false⟩]
    | "run" => [⟨.memory, 'm', "memory", true⟩]
    | _ => []
  ⟨own ++ globals, []⟩

def short? (l : Level) (c : Char) : Option Switch := l.options.find? fun o => o.short == c

def long? (l : Level) (name : String) : Option Switch := l.options.find? fun o => o.long == name

end Level

/-- A number of at most 64 bits, perhaps with a plus sign. -/
def number? (s : String) : Option Nat :=
  let digits := match s.toList with
    | '+' :: ds => ds
    | ds => ds
  if digits ≠ [] ∧ digits.all Char.isDigit then
    let n := digits.foldl (fun n d => 10 * n + (d.toNat - '0'.toNat)) 0
    if n < 0x10000000000000000 then some n else none
  else none

structure State where
  /-- What took effect, each with its value. -/
  given : List (Key × String)
  /-- What waits for its value or to be checked. -/
  pending : Option (Key × Option String)
  /-- Whether the next plain argument is the pending option's value. -/
  awaiting : Bool
  pathSeen : Bool
  plainOnly : Bool

namespace State

def initial : State := ⟨[], none, false, false, false⟩

def has (s : State) (k : Key) : Bool := (s.given.lookup k).isSome

def value? (s : State) (k : Key) : Option String := s.given.lookup k

def check (k : Key) (v : String) : Except Refusal Unit :=
  match k with
  | .path | .output => if v = "" then .error .emptyValue else .ok ()
  | .memory => if (number? v).isSome then .ok () else .error .invalidNumber
  | _ => .ok ()

/-- Lets something take effect.  Nothing may be given twice. -/
def give (s : State) (k : Key) (v : String) : Except Refusal State :=
  if s.has k then .error .conflict
  else (check k v).map fun _ => { s with given := (k, v) :: s.given }

def resolve (s : State) : Except Refusal State :=
  match s.pending with
  | none => .ok s
  | some (_, none) => .error .emptyValue
  | some (k, some v) => give { s with pending := none } k v

def flag (s : State) (k : Key) : Except Refusal State := do
  let s ← s.resolve
  match k with
  | .help => .error .help
  | .version => .error .version
  | k => give { s with awaiting := false } k ""

def attach (s : State) (k : Key) (v : String) : Except Refusal State := do
  let s ← s.resolve
  give { s with awaiting := false } k v

def await (s : State) (k : Key) : Except Refusal State := do
  let s ← s.resolve
  return { s with pending := some (k, none), awaiting := true }

end State

def long (l : Level) (s : State) (cs : List Char) : Except Refusal State :=
  let name := String.ofList (cs.takeWhile (· ≠ '='))
  let value? := match cs.dropWhile (· ≠ '=') with
    | _ :: v => some (String.ofList v)
    | [] => none
  match l.long? name with
  | none => .error .unknownArgument
  | some o =>
    match o.takesValue, value? with
    | true, some v => s.attach o.key v
    | true, none => s.await o.key
    | false, some _ => .error .unneededValue
    | false, none => s.flag o.key

/-- Reads a cluster of one-letter options.  What follows an option that takes a value is
its value, with or without an equals sign. -/
def cluster (l : Level) : State → List Char → Except Refusal State
  | s, [] => .ok s
  | s, c :: cs =>
    match l.short? c with
    | none => .error .unknownArgument
    | some o =>
      if o.takesValue then
        match cs with
        | [] => s.await o.key
        | '=' :: v => s.attach o.key (String.ofList v)
        | v => s.attach o.key (String.ofList v)
      else
        match s.flag o.key with
        | .ok s => cluster l s cs
        | .error r => .error r

def plain (l : Level) (s : State) (a : String) : Except Refusal State :=
  if l.commands ≠ [] then
    if s.plainOnly ∧ a ∈ l.commands then .error .unknownArgument else .error .unknownCommand
  else if s.pathSeen then .error .unknownArgument
  else do
    let s ← s.resolve
    return { s with pending := some (.path, some a), pathSeen := true, awaiting := false }

def argument (l : Level) (s : State) (a : String) : Except Refusal State :=
  if s.plainOnly then plain l s a
  else
    match a.toList with
    | ['-', '-'] => .ok { s with plainOnly := true }
    | '-' :: '-' :: cs => long l s cs
    | '-' :: c :: cs => cluster l s (c :: cs)
    | _ =>
      match s.awaiting, s.pending with
      | true, some (k, _) => .ok { s with pending := some (k, some a), awaiting := false }
      | _, _ => plain l s a

def level (l : Level) : State → List String → Except Refusal (State × Option (String × List String))
  | s, [] => .ok (s, none)
  | s, a :: rest =>
    if s.plainOnly = false ∧ s.awaiting = false ∧ a ∈ l.commands then .ok (s, some (a, rest))
    else
      match argument l s a with
      | .error r => .error r
      | .ok s => level l s rest

/-- The flags of one level exclude each other. -/
def exclusive (s : State) : Except Refusal Unit :=
  if s.has .verbose && s.has .quiet then .error .conflict else .ok ()

def commandArgs (name : String) (rest : List String) : Except Refusal (State × Command) := do
  let (s, _) ← level (.ofCommand name) .initial rest
  let s ← s.resolve
  exclusive s
  match s.value? .path with
  | none => .error .missingPath
  | some path =>
    return (s, match name with
      | "compile" => .compile path (s.value? .output) (s.has .debug)
      | "run" => .run path (((s.value? .memory).bind number?).getD defaultKilobytes)
      | _ => .disassemble path)

def help : List String → Refusal
  | [] => .help
  | [name] => if name ∈ Level.top.commands then .help else .unknownCommand
  | _ => .unknownCommand

def parse (argv : List String) : Except Refusal Args := do
  let (outer, found) ← level .top .initial argv
  match found with
  | none =>
    let outer ← outer.resolve
    .error (if outer.given = [] then .nothingGiven else .missingCommand)
  | some ("help", rest) => .error (help rest)
  | some (name, rest) =>
    let (inner, command) ← commandArgs name rest
    let outer ← outer.resolve
    exclusive outer
    return ⟨outer.has .verbose || inner.has .verbose, outer.has .quiet || inner.has .quiet, command⟩

end Args
end Autoscript
