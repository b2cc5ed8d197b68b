import Autoscript.Machine.Fault
/-!
# The stack

The stack grows downward from the top of the memory.  The program lies at the
bottom; `floor` is where it ends, and the stack never grows into it.  Variables are
addressed from the base pointer: the one with offset `o` is at `bp - o`.

A call that fails can have moved a pointer already, so each operation gives a state
with its fault as well.
-/
namespace Autoscript

structure Stack where
  memory : Memory
  sp : Nat
  bp : Nat
  floor : Nat

namespace Stack

open Machine (Fault)

abbrev Op := EStateM Fault Stack

def ofMemory (memory : Memory) (floor : Nat) : Stack := ⟨memory, memory.size, memory.size, floor⟩

def push (w : Word) : Op Unit := fun s =>
  if s.sp < s.floor + Word.size then .error (.stackOverflow s.sp s.floor) s
  else
    let sp := s.sp - Word.size
    .ok () { s with sp, memory := s.memory.setWord sp w }

def pop : Op Word := fun s =>
  match s.memory.word? s.sp with
  | none => .error (.stackUnderflow s.sp) s
  | some w => .ok w { s with sp := s.sp + Word.size }

def reserve (size : Nat) : Op Unit := fun s =>
  if s.floor + size ≤ s.sp then .ok () { s with sp := s.sp - size }
  else .error (.stackOverflow s.sp s.floor) s

/-- Saves the base pointer, starts a frame there and makes room for its variables.  If
there is too little room the frame has been started all the same. -/
def setupFrame (size : Int32) : Op Unit :=
  if size.toInt < 0 then throw (.invalidFrameSize size)
  else do
    push (UInt32.ofNat (← get).bp)
    modify fun s => { s with bp := s.sp }
    reserve size.toInt.toNat

/-- Goes back to a saved base pointer, which has to lie above the program. -/
def restore (saved : Nat) : Op Unit := fun s =>
  if saved < s.floor ∨ s.memory.size < saved then .error (.outOfBounds 0 saved) s
  else .ok () { s with bp := saved }

def popFrame : Op Unit := do
  modify fun s => { s with sp := s.bp }
  restore (← pop).toNat

/-- The first position that a variable can have.  Positions of variables are signed numbers
of 64 bits: a floor that is too large for one counts as negative and bounds nothing. -/
def lowest (s : Stack) : Nat := if s.floor < 0x8000000000000000 then s.floor else 0

def address? (s : Stack) (offset : Int32) : Option Nat :=
  let pos := (s.bp : Int) - offset.toInt
  if pos < s.lowest ∨ (s.memory.size : Int) < pos + Word.size then none else some pos.toNat

def read (offset : Int32) : Op Word := fun s =>
  match s.address? offset with
  | none => .error (.outOfBounds offset s.bp) s
  | some pos => .ok (s.memory.word pos) s

def write (offset : Int32) (w : Word) : Op Unit := fun s =>
  match s.address? offset with
  | none => .error (.outOfBounds offset s.bp) s
  | some pos => .ok () { s with memory := s.memory.setWord pos w }

def top? (s : Stack) : Option Word := s.memory.word? s.sp

end Stack
end Autoscript
