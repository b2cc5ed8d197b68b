import Autoscript.Instr
import Autoscript.Scope
import Autoscript.Script.Fault
/-!
# Expressions

Expressions are compiled from left to right in one scan, for the type of the place
where their value goes.  Values are pushed as they come.  An operator waits until
one that binds no tighter follows, or a closing parenthesis, or the end; so the
operators of one strength group to the left.

The scan also returns what it emitted before a fault, and the tokens it has not
taken, the first of which is the one it stopped at.
-/
namespace Autoscript.Script

structure Names where
  frame : Frame
  functions : List (String × Nat)

namespace Names

/-- The variable of a name.  The name of a function stands for a call. -/
def symbol (names : Names) (name : String) (line : Nat) : Except Fault Symbol :=
  match names.frame.resolve? name with
  | some symbol => .ok symbol
  | none =>
    if (names.functions.lookup name).isSome then .error ⟨.unsupportedCall name, line⟩
    else .error ⟨.undeclaredName name, line⟩

/-- The instruction that pushes a value of a type: a literal is converted to it, a
variable has to have it. -/
def operand (names : Names) (ty : Ty) (t : Token) : Except Fault Instr :=
  match t.kind with
  | .int n => .ok (.pushImm (ty.ofInt n))
  | .float x => .ok (.pushImm (ty.ofSingle x))
  | .name name =>
    match names.symbol name t.line with
    | .error f => .error f
    | .ok symbol =>
      if symbol.ty = ty then .ok (.pushVar symbol.operand)
      else .error ⟨.typeMismatch name ty symbol.ty, t.line⟩
  | kind => .error ⟨.invalidTerm kind, t.line⟩

end Names

inductive Pending where
  | paren
  | arith (op : Arith)
deriving DecidableEq, Repr

namespace Pending

/-- Takes out the operators on top that bind at least as tightly as `op`. -/
def giveWay (op : Arith) : List Pending → List Instr × List Pending
  | .arith top :: rest =>
    if top.precedence < op.precedence then ([], .arith top :: rest)
    else
      let r := giveWay op rest
      (.arith top :: r.1, r.2)
  | pending => ([], pending)

/-- Takes out the operators above the innermost open parenthesis, and it; with no
parenthesis open all operators come out and nothing is left. -/
def unwind : List Pending → List Instr × Option (List Pending)
  | [] => ([], none)
  | .paren :: rest => ([], some rest)
  | .arith top :: rest =>
    let r := unwind rest
    (.arith top :: r.1, r.2)

end Pending

structure Scan where
  code : List Instr
  rest : List Token
  fault : Option Fault

namespace Scan

def after (code : List Instr) (s : Scan) : Scan := { s with code := code ++ s.code }

def refuse (t : Token) (rest : List Token) (cause : Fault.Cause) : Scan :=
  ⟨[], t :: rest, some (.onToken t cause)⟩

def close (pending : List Pending) (line : Nat) (rest : List Token) : Scan :=
  match Pending.unwind pending with
  | (code, none) => ⟨code, rest, none⟩
  | (code, some _) => ⟨code, rest, some ⟨.unbalancedParentheses, line⟩⟩

/-- Scans the tokens of a line.  `afterValue` says that an operator is due; `last` is
the line of the token taken last.  In an argument list a value or an opening
parenthesis where an operator is due begins the next argument. -/
def go (names : Names) (ty : Ty) (inArguments : Bool) (stop : Token) :
    (pending : List Pending) → (afterValue : Bool) → (last : Nat) → List Token → Scan
  | pending, afterValue, _, [] =>
    if afterValue then close pending stop.line []
    else ⟨[], [], some (.onToken stop (.expectedValue stop.kind))⟩
  | pending, afterValue, last, t :: ts =>
    match t.kind with
    | .operator .leftParen =>
      if afterValue then
        if inArguments then close pending last (t :: ts)
        else refuse t ts (.expectedOperator t.kind)
      else go names ty inArguments stop (.paren :: pending) false t.line ts
    | .operator .rightParen =>
      if afterValue then
        match Pending.unwind pending with
        | (code, some rest) => (go names ty inArguments stop rest true t.line ts).after code
        | (code, none) => (refuse t ts .unbalancedParentheses).after code
      else refuse t ts (.expectedValue t.kind)
    | .operator (.arith op) =>
      if afterValue then
        let (code, rest) := Pending.giveWay op pending
        (go names ty inArguments stop (.arith op :: rest) false t.line ts).after code
      else refuse t ts (.expectedValue t.kind)
    | .int _ | .float _ | .name _ =>
      if afterValue then
        if inArguments then close pending last (t :: ts)
        else refuse t ts (.expectedOperator t.kind)
      else
        match names.operand ty t with
        | .ok push => (go names ty inArguments stop pending true t.line ts).after [push]
        | .error f => ⟨[], t :: ts, some f⟩
    | _ => refuse t ts (.invalidTerm t.kind)

end Scan

namespace Names

def expression (names : Names) (ty : Ty) (stop : Token) (ts : List Token) : Scan :=
  Scan.go names ty false stop [] false stop.line ts

def argument (names : Names) (ty : Ty) (stop : Token) (ts : List Token) : Scan :=
  Scan.go names ty true stop [] false stop.line ts

def arguments (names : Names) (ty : Ty) (stop : Token) : Nat → List Token → Scan
  | 0, ts => ⟨[], ts, none⟩
  | n + 1, ts =>
    let s := names.argument ty stop ts
    match s.fault with
    | some _ => s
    | none => (names.arguments ty stop n s.rest).after s.code

end Names
end Autoscript.Script
