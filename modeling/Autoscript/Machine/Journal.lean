import Autoscript.Log
import Autoscript.Machine.Load
import Autoscript.Machine.Run
/-!
# What a run logs

Each step logs the instruction and the pointers before it; a step that succeeds may
add what it did.  The entries of a step are read off the states before and after
it, so that the machine itself knows nothing of the log.
-/
namespace Autoscript.Machine

open Log (Entry)

def loadedEntry (length budget : Nat) : Entry :=
  .plain .debug .machine "program loaded"
    [("program_len", toString length), ("memory_budget", toString budget)]

def operand (m : Machine) (depth : Nat) : Word :=
  m.stack.memory.word (m.stack.sp + depth * Word.size)

def plainText (m : Machine) (w : Word) : String :=
  match m.mode with
  | .int => toString (Word.toInt w).toInt
  | .float => Single.text ⟨w⟩

def doneEntries (i : Instr) (old new : Machine) : List Entry :=
  let trace (content : String) : List Entry := [.plain .trace .machine content []]
  let value (w : Word) : String := "value: " ++ (old.mode.read w).text
  match i with
  | .pushImm w => trace ("PUSH_IMM | " ++ value w)
  | .pushVar o =>
    trace ("PUSH_VAR | " ++ value (new.operand 0) ++ " | offset: " ++ toString o.toInt)
  | .storeVar o =>
    trace ("STORE_VAR | " ++ value (old.operand 0) ++ " | offset: " ++ toString o.toInt)
  | .arith _ =>
    trace (i.opcode.name ++ " | " ++ old.plainText (old.operand 1) ++ ", " ++
      old.plainText (old.operand 0) ++ " -> " ++ old.plainText (new.operand 0))
  | .move =>
    trace ("MOVE | x: " ++ toString (Word.toInt (old.operand 1)).toInt ++ " | y: " ++
      toString (Word.toInt (old.operand 0)).toInt)
  | .delay => trace ("DELAY | time: " ++ Single.text ⟨old.operand 0⟩ ++ "s")
  | .setupFrame size =>
    [.plain .debug .machine "frame set up"
      [("size", toString size.toInt), ("bp", toString new.stack.bp)]]
  | .freeFrame => [.plain .debug .machine "frame freed" [("bp", toString new.stack.bp)]]
  | _ => []

def stepEntries (m : Machine) : List Entry :=
  match Instr.decode m.program m.ip with
  | .error _ => []
  | .ok i =>
    .plain .trace .machine i.text
        [("ip", toString m.ip), ("sp", toString m.stack.sp), ("bp", toString m.stack.bp)] ::
      match step m with
      | .ok _ m' => doneEntries i m m'
      | .error _ _ => []

/-- The states before each step of a run. -/
def history (m : Machine) : List Machine :=
  if m.halted then []
  else
    match _h : step m with
    | .error _ _ => [m]
    | .ok _ m' => m :: m'.history
termination_by m.stack.floor - m.ip
decreasing_by
  have := step_advances _h
  omega

def stepEffect (m : Machine) : Option Effect :=
  match step m with
  | .ok e _ => e
  | .error _ _ => none

def journal (m : Machine) : List Entry := m.history.flatMap stepEntries

end Autoscript.Machine
