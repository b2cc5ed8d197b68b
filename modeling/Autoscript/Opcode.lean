import Autoscript.Arith
/-!
# Opcodes

The first byte of an instruction says what it does and whether a word follows.
-/
namespace Autoscript

inductive Opcode where
  | pushVar
  | pushImm
  | storeVar
  /-- Read words as the type from here on. -/
  | mode (ty : Ty)
  /-- Reserved: no program is allowed to call yet. -/
  | call
  | startFunc
  | endFunc
  | halt
  | display
  /-- Pop `y`, pop `x`, move the cursor there. -/
  | move
  /-- Pop a number of seconds and wait. -/
  | delay
  /-- Pop the right operand, pop the left one, push the result. -/
  | arith (op : Arith)
  /-- Save the base and make room for variables. -/
  | setupFrame
  /-- Drop the frame and restore the base. -/
  | freeFrame
deriving DecidableEq, Repr

namespace Opcode

def byte : Opcode → UInt8
  | .pushVar => 0x02
  | .pushImm => 0x03
  | .storeVar => 0x04
  | .mode .float => 0x05
  | .mode .int => 0x06
  | .call => 0x07
  | .startFunc => 0x08
  | .endFunc => 0x09
  | .halt => 0x0A
  | .display => 0x0B
  | .move => 0x0C
  | .delay => 0x0D
  | .arith .add => 0x20
  | .arith .sub => 0x21
  | .arith .mul => 0x22
  | .arith .div => 0x23
  | .setupFrame => 0x40
  | .freeFrame => 0x41

def name : Opcode → String
  | .pushVar => "PUSH_VAR"
  | .pushImm => "PUSH_IMM"
  | .storeVar => "STORE_VAR"
  | .mode .float => "FLOAT_OP"
  | .mode .int => "INT_OP"
  | .call => "CALL"
  | .startFunc => "START_FUNC"
  | .endFunc => "END_FUNC"
  | .halt => "HALT"
  | .display => "DISPLAY"
  | .move => "MOVE"
  | .delay => "DELAY"
  | .arith .add => "ADD"
  | .arith .sub => "SUB"
  | .arith .mul => "MULT"
  | .arith .div => "DIV"
  | .setupFrame => "SETUP_FRAME"
  | .freeFrame => "FREE_FRAME"

/-- Every opcode, in the order of their bytes. -/
def all : List Opcode :=
  [.pushVar, .pushImm, .storeVar, .mode .float, .mode .int, .call, .startFunc, .endFunc, .halt,
    .display, .move, .delay, .arith .add, .arith .sub, .arith .mul, .arith .div, .setupFrame,
    .freeFrame]

def ofByte? : UInt8 → Option Opcode
  | 0x02 => some .pushVar
  | 0x03 => some .pushImm
  | 0x04 => some .storeVar
  | 0x05 => some (.mode .float)
  | 0x06 => some (.mode .int)
  | 0x07 => some .call
  | 0x08 => some .startFunc
  | 0x09 => some .endFunc
  | 0x0A => some .halt
  | 0x0B => some .display
  | 0x0C => some .move
  | 0x0D => some .delay
  | 0x20 => some (.arith .add)
  | 0x21 => some (.arith .sub)
  | 0x22 => some (.arith .mul)
  | 0x23 => some (.arith .div)
  | 0x40 => some .setupFrame
  | 0x41 => some .freeFrame
  | _ => none

def ofName? (s : String) : Option Opcode := all.find? fun op => op.name == s

def hasOperand : Opcode → Bool
  | .pushVar | .pushImm | .storeVar | .display | .setupFrame => true
  | _ => false

def width (op : Opcode) : Nat := if op.hasOperand then 1 + Word.size else 1

theorem width_pos (op : Opcode) : 0 < op.width := by
  unfold width; split <;> decide

@[simp] theorem ofByte?_byte (op : Opcode) : ofByte? op.byte = some op := by
  cases op with
  | mode ty => cases ty <;> rfl
  | arith op => cases op <;> rfl
  | _ => rfl

@[simp] theorem ofName?_name (op : Opcode) : ofName? op.name = some op := by
  cases op with
  | mode ty => cases ty <;> decide
  | arith op => cases op <;> decide
  | _ => decide

theorem byte_of_ofByte? {b : UInt8} {op : Opcode} (h : ofByte? b = some op) : op.byte = b := by
  unfold ofByte? at h
  split at h <;> cases h <;> rfl

end Opcode
end Autoscript
