import Autoscript.Program
import Autoscript.Machine.Stack
/-!
# One step of the machine

A step decodes the instruction at the instruction pointer, moves the pointer past
it and carries it out.  What reaches the outside world, a move of the cursor, a
delay or a shown value, is returned as an effect, at most one per step.

Function bodies only run when called.  Since there are no calls yet, a step onto
the start of a function goes on behind its end.
-/
namespace Autoscript

inductive Effect where
  | move (x y : Int32)
  | delay (nanoseconds : Nat)
  | display (offset : Int32) (value : Scalar)
deriving DecidableEq

structure Machine where
  stack : Stack
  /-- How arithmetic and displays read words. -/
  mode : Ty
  /-- The position of the next instruction. -/
  ip : Nat
  halted : Bool

namespace Machine

abbrev Op := EStateM Fault Machine

def program (m : Machine) : Memory := m.stack.memory.take m.stack.floor

def onStack {α : Type} (op : Stack.Op α) : Op α := fun m =>
  match op m.stack with
  | .ok a stack => .ok a { m with stack }
  | .error f stack => .error f { m with stack }

def push (w : Word) : Op Unit := onStack (Stack.push w)

def pop : Op Word := onStack Stack.pop

def read (offset : Int32) : Op Word := onStack (Stack.read offset)

def write (offset : Int32) (w : Word) : Op Unit := onStack (Stack.write offset w)

def orFault {α : Type} (f : Fault) : Option α → Op α
  | some a => pure a
  | none => throw f

def orThrow {α : Type} : Except Fault α → Op α
  | .ok a => pure a
  | .error f => throw f

/-- Looks for the first `endFunc` from a position on, for the function that starts at `start`. -/
def searchEnd (program : Memory) (start pos : Nat) : Except Fault Nat :=
  if pos < program.size then
    match Instr.decode program pos with
    | .error e => .error (.decode e)
    | .ok i => if i = .endFunc then .ok (pos + i.width) else searchEnd program start (pos + i.width)
  else .error (.unterminatedFunction start)
termination_by program.size - pos
decreasing_by
  have := i.width_pos
  omega

section
variable {program : Memory} {start pos : Nat}

theorem searchEnd_of_endFunc (h : Instr.decode program pos = .ok .endFunc) :
    searchEnd program start pos = .ok (pos + Instr.endFunc.width) := by
  rw [searchEnd, if_pos (Instr.lt_size_of_decode h), h]
  rfl

theorem searchEnd_of_other {i : Instr} (h : Instr.decode program pos = .ok i) (hi : i ≠ .endFunc) :
    searchEnd program start pos = searchEnd program start (pos + i.width) := by
  rw [searchEnd, if_pos (Instr.lt_size_of_decode h), h]
  exact if_neg hi

end

def functionEnd (program : Memory) (pos : Nat) : Except Fault Nat :=
  searchEnd program pos (pos + Opcode.startFunc.width)

def execute (i : Instr) (pos : Nat) : Op (Option Effect) :=
  match i with
  | .halt => do
    modify fun m => { m with halted := true }
    return none
  | .mode ty => do
    modify fun m => { m with mode := ty }
    return none
  | .arith op => do
    let right ← pop
    let left ← pop
    push (← orFault .divisionByZero (op.eval (← get).mode left right))
    return none
  | .pushImm w => do
    push w
    return none
  | .pushVar offset => do
    push (← read offset)
    return none
  | .storeVar offset => do
    write offset (← pop)
    return none
  | .display offset => do
    let w ← read offset
    return some (.display offset ((← get).mode.read w))
  | .setupFrame size => do
    onStack (Stack.setupFrame size)
    return none
  | .freeFrame => do
    onStack Stack.popFrame
    return none
  | .startFunc => do
    let next ← orThrow (functionEnd (← get).program pos)
    modify fun m => { m with ip := next }
    return none
  | .endFunc => throw (.strayEndFunc pos)
  | .call => throw (.reserved .call)
  | .move => do
    let y ← pop
    let x ← pop
    return some (.move (Word.toInt x) (Word.toInt y))
  | .delay => do
    let w ← pop
    let ns ← orFault (.invalidDelay ⟨w⟩) (Single.nanoseconds? ⟨w⟩)
    return some (.delay ns)

/-- Decodes and carries out the next instruction.  The pointer moves only if there is
one. -/
def step : Op (Option Effect) := fun m =>
  match Instr.decode m.program m.ip with
  | .error e => .error (.decode e) m
  | .ok i => execute i m.ip { m with ip := m.ip + i.width }

end Machine
end Autoscript
