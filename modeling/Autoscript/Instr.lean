import Autoscript.Opcode
import Autoscript.Memory
import Autoscript.Text.Columns
/-!
# Instructions

An instruction is an opcode with its operand.  It is encoded as the opcode's byte
and, where there is an operand, its word.  Decoding reads one instruction at a
position of a memory; the machine and the listing share it, so every byte has one
meaning.
-/
namespace Autoscript

inductive Instr where
  | pushVar (offset : Int32)
  | pushImm (word : Word)
  | storeVar (offset : Int32)
  | mode (ty : Ty)
  | call
  | startFunc
  | endFunc
  | halt
  | display (offset : Int32)
  | move
  | delay
  | arith (op : Arith)
  | setupFrame (size : Int32)
  | freeFrame
deriving DecidableEq, Repr

inductive DecodeError where
  | missingHeader (length : Nat)
  | endOfProgram (pos : Nat)
  | unknownOpcode (byte : UInt8) (pos : Nat)
  | truncatedOperand (op : Opcode) (pos : Nat)
deriving DecidableEq, Repr

def DecodeError.message : DecodeError → String
  | .missingHeader n => "program is " ++ toString n ++ " bytes, shorter than its 4-byte header"
  | .endOfProgram pos =>
    "instruction pointer " ++ toString pos ++ " ran past the end of the program"
  | .unknownOpcode b pos =>
    "unknown opcode 0x" ++ (Text.hexByte b).toUpper ++ " at " ++ toString pos
  | .truncatedOperand op pos => op.name ++ " at " ++ toString pos ++ " is missing operand bytes"

namespace Instr

def opcode : Instr → Opcode
  | .pushVar _ => .pushVar
  | .pushImm _ => .pushImm
  | .storeVar _ => .storeVar
  | .mode ty => .mode ty
  | .call => .call
  | .startFunc => .startFunc
  | .endFunc => .endFunc
  | .halt => .halt
  | .display _ => .display
  | .move => .move
  | .delay => .delay
  | .arith op => .arith op
  | .setupFrame _ => .setupFrame
  | .freeFrame => .freeFrame

def operand? : Instr → Option Word
  | .pushVar n | .storeVar n | .display n | .setupFrame n => some (Word.ofInt n)
  | .pushImm w => some w
  | _ => none

/-- The instruction with an opcode and an operand, which counts only where the opcode
has one. -/
def ofParts : Opcode → Word → Instr
  | .pushVar, w => .pushVar (Word.toInt w)
  | .pushImm, w => .pushImm w
  | .storeVar, w => .storeVar (Word.toInt w)
  | .mode ty, _ => .mode ty
  | .call, _ => .call
  | .startFunc, _ => .startFunc
  | .endFunc, _ => .endFunc
  | .halt, _ => .halt
  | .display, w => .display (Word.toInt w)
  | .move, _ => .move
  | .delay, _ => .delay
  | .arith op, _ => .arith op
  | .setupFrame, w => .setupFrame (Word.toInt w)
  | .freeFrame, _ => .freeFrame

def width (i : Instr) : Nat := i.opcode.width

def encode (i : Instr) : List UInt8 :=
  i.opcode.byte :: (i.operand?.map Word.bytes).getD []

/-- Reads the instruction at a position.  Only an instruction with an operand asks for the word behind its opcode. -/
def decode (program : Memory) (pos : Nat) : Except DecodeError Instr :=
  match program.get? pos with
  | none => .error (.endOfProgram pos)
  | some b =>
    match Opcode.ofByte? b with
    | none => .error (.unknownOpcode b pos)
    | some op =>
      let word : Except DecodeError Word :=
        match program.word? (pos + 1) with
        | none => .error (.truncatedOperand op pos)
        | some w => .ok w
      let int := word.map Word.toInt
      match op with
      | .pushVar => int.map .pushVar
      | .pushImm => word.map .pushImm
      | .storeVar => int.map .storeVar
      | .mode ty => .ok (.mode ty)
      | .call => .ok .call
      | .startFunc => .ok .startFunc
      | .endFunc => .ok .endFunc
      | .halt => .ok .halt
      | .display => int.map .display
      | .move => .ok .move
      | .delay => .ok .delay
      | .arith op => .ok (.arith op)
      | .setupFrame => int.map .setupFrame
      | .freeFrame => .ok .freeFrame

/-- The line of an instruction in a listing.  The operand of `pushImm` has no type, so
its bytes are shown with both readings. -/
def text (i : Instr) : String :=
  let name := i.opcode.name
  match i with
  | .pushVar n | .storeVar n | .display n | .setupFrame n =>
    Text.padRight 12 name ++ " " ++ toString n.toInt
  | .pushImm w =>
    Text.padRight 12 name ++ " " ++ Text.joinWith " " ((Word.bytes w).map Text.hexByte) ++
      " (int " ++ toString (Word.toInt w).toInt ++ ", float " ++ Single.text ⟨w⟩ ++ ")"
  | _ => name

@[simp] theorem opcode_ofParts (op : Opcode) (w : Word) : (ofParts op w).opcode = op := by
  cases op <;> rfl

/-- **The instructions that ask for an operand are those whose opcode has one.** -/
theorem decode_eq (program : Memory) (pos : Nat) : decode program pos =
    match program.get? pos with
    | none => .error (.endOfProgram pos)
    | some b =>
      match Opcode.ofByte? b with
      | none => .error (.unknownOpcode b pos)
      | some op =>
        if op.hasOperand then
          match program.word? (pos + 1) with
          | none => .error (.truncatedOperand op pos)
          | some w => .ok (ofParts op w)
        else .ok (ofParts op 0) := by
  unfold decode
  cases program.get? pos with
  | none => rfl
  | some b =>
    dsimp only
    cases Opcode.ofByte? b with
    | none => rfl
    | some op => cases op <;> cases program.word? (pos + 1) <;> rfl

theorem width_pos (i : Instr) : 0 < i.width := i.opcode.width_pos

@[simp] theorem length_encode (i : Instr) : i.encode.length = i.width := by
  cases i <;> rfl

theorem lt_size_of_decode {program : Memory} {pos : Nat} {i : Instr}
    (h : decode program pos = .ok i) : pos < program.size := by
  unfold decode Memory.get? at h
  by_cases hp : pos < program.size
  · exact hp
  · simp [hp] at h

end Instr
end Autoscript
