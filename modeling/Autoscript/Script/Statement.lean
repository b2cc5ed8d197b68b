import Autoscript.Program
import Autoscript.Script.Line
import Autoscript.Script.Scan
/-!
# Statements

Each line is compiled on its own against what the lines before it declared.  What a
statement did before it turned out faulty stays done: code that was emitted, a name
that was declared, a function that was opened.
-/
namespace Autoscript.Script

structure OpenFunction where
  name : String
  line : Nat
deriving DecidableEq, Repr

structure State where
  scopes : Scopes
  /-- The functions and the positions of their `startFunc`, the latest first. -/
  functions : List (String × Nat)
  opened : Option OpenFunction
  /-- The code after the instruction that sets up the frame. -/
  code : List Instr

namespace State

def initial : State := ⟨.initial, [], none, []⟩

def names (s : State) : Names := ⟨s.scopes.frame .current, s.functions⟩

def emit (s : State) (code : List Instr) : State := { s with code := s.code ++ code }

/-- The code of the whole program, if it ended here. -/
def program (s : State) : List Instr :=
  .setupFrame (Int32.ofNat s.scopes.globals.size) :: s.code ++ [.halt]

def position (s : State) : Nat :=
  Program.headerSize + (Instr.setupFrame 0).width + Program.width s.code

end State

inductive Note where
  | declared (ty : Ty) (name : String) (offset : Nat)
  | started (name : String) (position : Nat)
deriving DecidableEq

structure Outcome where
  state : State
  note : Option Note
  fault : Option Fault

namespace Statement

def refuse (s : State) (f : Fault) : Outcome := ⟨s, none, some f⟩

def trailing : List Token → Option Fault
  | [] => none
  | t :: _ => some (.onToken t (.unexpectedToken t.kind))

def nameAfter (k : Keyword) (stop : Token) :
    List Token → Except Fault (String × Nat × List Token)
  | [] => .error (.onToken stop (.expectedName k stop.kind))
  | t :: ts =>
    match t.kind with
    | .name name => .ok (name, t.line, ts)
    | kind => .error (.onToken t (.expectedName k kind))

/-- Declares a variable, as in `int x`: no code, only a slot. -/
def declaration (s : State) (ty : Ty) (stop : Token) (ts : List Token) : Outcome :=
  match nameAfter (.declare ty) stop ts with
  | .error f => refuse s f
  | .ok (name, line, rest) =>
    match s.scopes.declare? .current name ty with
    | none => refuse s ⟨.frameTooLarge, line⟩
    | some (scopes, symbol) =>
      ⟨{ s with scopes }, some (.declared ty name symbol.offset), trailing rest⟩

def start (s : State) (line : Nat) (stop : Token) (ts : List Token) : Outcome :=
  if s.scopes.inFunction then refuse s ⟨.nestedFunction, line⟩
  else
    match nameAfter .start stop ts with
    | .error f => refuse s f
    | .ok (name, nameLine, rest) =>
      if (s.functions.lookup name).isSome then refuse s ⟨.duplicateFunction name, nameLine⟩
      else
        ⟨{ scopes := s.scopes.enter
           functions := (name, s.position) :: s.functions
           opened := some ⟨name, nameLine⟩
           code := s.code ++ [.startFunc] },
          some (.started name s.position), trailing rest⟩

def finish (s : State) (line : Nat) (ts : List Token) : Outcome :=
  if s.scopes.inFunction then
    ⟨{ s with scopes := s.scopes.leave, opened := none, code := s.code ++ [.endFunc] },
      none, trailing ts⟩
  else refuse s ⟨.endOutsideFunction, line⟩

/-- Shows a variable in its own type, as in `display x`. -/
def display (s : State) (stop : Token) (ts : List Token) : Outcome :=
  match nameAfter .display stop ts with
  | .error f => refuse s f
  | .ok (name, line, rest) =>
    match s.names.symbol name line with
    | .error f => refuse s f
    | .ok symbol => ⟨s.emit [.mode symbol.ty, .display symbol.operand], none, trailing rest⟩

def action (s : State) (ty : Ty) (count : Nat) (act : Instr) (stop : Token) (ts : List Token) :
    Outcome :=
  let scan := s.names.arguments ty stop count ts
  let s := s.emit (.mode ty :: scan.code)
  match scan.fault with
  | some f => refuse s f
  | none => ⟨s.emit [act], none, trailing scan.rest⟩

def assignment (s : State) (name : String) (line : Nat) (stop : Token) (ts : List Token) :
    Outcome :=
  match s.names.symbol name line with
  | .error f => refuse s f
  | .ok symbol =>
    let arrow := ts.head?.getD stop
    if arrow.kind = .operator .assign then
      let scan := s.names.expression symbol.ty stop ts.tail
      let s := s.emit (.mode symbol.ty :: scan.code)
      match scan.fault with
      | some f => refuse s f
      | none => ⟨s.emit [.storeVar symbol.operand], none, none⟩
    else refuse s (.onToken arrow (.expectedAssignment name arrow.kind))

def builtin (s : State) (k : Keyword) (line : Nat) (stop : Token) (ts : List Token) : Outcome :=
  match k with
  | .declare ty => declaration s ty stop ts
  | .start => start s line stop ts
  | .finish => finish s line ts
  | .display => display s stop ts
  | .move => action s .int 2 .move stop ts
  | .delay => action s .float 1 .delay stop ts
  | .drag | .click | .type | .mod => refuse s ⟨.reservedKeyword k, line⟩

def compile (s : State) (l : Line) : Outcome :=
  match l.body with
  | [] => ⟨s, none, none⟩
  | t :: ts =>
    match t.kind with
    | .name name => assignment s name t.line l.stop ts
    | .keyword k => builtin s k t.line l.stop ts
    | kind => refuse s (.onToken t (.unexpectedToken kind))

end Statement
end Autoscript.Script
