import Autoscript.Instr
/-!
# Programs

A program is a string of bytes: the version of the instruction set as one word,
then instructions without gaps.  The *sweep* of a memory reads the instructions in
a row from a position up to the end or to the first that cannot be decoded.
-/
namespace Autoscript

namespace Program

def version : Int32 := 1

def headerSize : Nat := Word.size

def encode (code : List Instr) : List UInt8 := code.flatMap Instr.encode

def width : List Instr → Nat
  | [] => 0
  | i :: code => i.width + width code

def assemble (code : List Instr) : List UInt8 := Word.bytes (Word.ofInt version) ++ encode code

def version? (program : List UInt8) : Option Int32 :=
  match program with
  | a :: b :: c :: d :: _ => some (Word.toInt (Word.ofBytes a b c d))
  | _ => none

def image (program : List UInt8) : Memory := Memory.ofBytes program.length program

theorem length_encode (code : List Instr) : (encode code).length = width code := by
  induction code with
  | nil => rfl
  | cons i code ih =>
    show (i.encode ++ encode code).length = _
    simp [List.length_append, ih, width]

end Program

/-- The instructions found in a row, each with its position, and what ended the row
if not the end of the memory. -/
structure Sweep where
  code : List (Nat × Instr)
  error : Option DecodeError

def Memory.sweep (program : Memory) (pos : Nat) : Sweep :=
  if pos < program.size then
    match Instr.decode program pos with
    | .error e => ⟨[], some e⟩
    | .ok i =>
      let rest := program.sweep (pos + i.width)
      ⟨(pos, i) :: rest.code, rest.error⟩
  else ⟨[], none⟩
termination_by program.size - pos
decreasing_by
  have := i.width_pos
  omega

namespace Program

def instructions (program : List UInt8) : Except DecodeError (List (Nat × Instr)) :=
  if program.length < headerSize then .error (.missingHeader program.length)
  else
    let s := (image program).sweep headerSize
    match s.error with
    | none => .ok s.code
    | some e => .error e

def listingLine (pos : Nat) (i : Instr) : String :=
  Text.padLeft '0' 4 (toString pos) ++ " " ++ i.text ++ "\n"

/-- The listing of a program: its version, then one line per instruction. -/
def listing (program : List UInt8) : Except DecodeError String :=
  (instructions program).map fun code =>
    let head := "version " ++ toString ((version? program).getD 0).toInt ++ "\n"
    head ++ String.join (code.map fun (pos, i) => listingLine pos i)

end Program
end Autoscript
