import Autoscript.Instr
/-!
# Faults of a running program

The machine stops at the first fault.
-/
namespace Autoscript

inductive Machine.Fault where
  | decode (error : DecodeError)
  | stackOverflow (sp floor : Nat)
  | stackUnderflow (sp : Nat)
  | outOfBounds (offset : Int32) (bp : Nat)
  | invalidFrameSize (size : Int32)
  | divisionByZero
  | invalidDelay (seconds : Single)
  | reserved (op : Opcode)
  | unterminatedFunction (pos : Nat)
  | strayEndFunc (pos : Nat)
deriving DecidableEq

def Machine.Fault.message : Machine.Fault → String
  | .decode e => "malformed bytecode: " ++ e.message
  | .stackOverflow sp floor =>
    "stack overflow: pushing at " ++ toString sp ++ " would enter the program image (ends at " ++
      toString floor ++ ")"
  | .stackUnderflow sp => "stack underflow: nothing to pop at " ++ toString sp
  | .outOfBounds offset bp =>
    "variable offset " ++ toString offset.toInt ++ " is outside memory (base pointer " ++
      toString bp ++ ")"
  | .invalidFrameSize size => "invalid frame size " ++ toString size.toInt
  | .divisionByZero => "integer division by zero"
  | .invalidDelay x => "invalid delay of " ++ x.text ++ " seconds"
  | .reserved op => op.name ++ " is reserved and cannot be executed"
  | .unterminatedFunction pos => "START_FUNC at " ++ toString pos ++ " has no matching END_FUNC"
  | .strayEndFunc pos => "END_FUNC at " ++ toString pos ++ " reached outside of a function call"

end Autoscript
