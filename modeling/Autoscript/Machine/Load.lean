import Autoscript.Machine.Step
/-!
# Loading a program

A program is checked and copied to the bottom of a fresh memory.  It is refused
before its first step if it has no header, is of another version, or does not fit.
-/
namespace Autoscript

inductive LoadError where
  | tooShort (length : Nat)
  | versionMismatch (found : Int32)
  | programTooLarge (length budget : Nat)
  | budgetTooLarge (budget : Nat)
deriving DecidableEq

def LoadError.message : LoadError → String
  | .tooShort n => "invalid program: " ++ toString n ++ " bytes is shorter than the 4-byte header"
  | .versionMismatch found =>
    "runtime supports bytecode version " ++ toString Program.version.toInt ++
      " but program is version " ++ toString found.toInt
  | .programTooLarge n budget =>
    "program of " ++ toString n ++ " bytes does not fit in " ++ toString budget ++
      " bytes of memory"
  | .budgetTooLarge budget =>
    "memory budget of " ++ toString budget ++ " bytes exceeds the 4 GiB address space"

namespace Machine

/-- The machine with a program at the bottom of a memory of `budget` bytes, about to
carry out its first instruction. -/
def load (program : List UInt8) (budget : Nat) : Except LoadError Machine :=
  match Program.version? program with
  | none => .error (.tooShort program.length)
  | some found =>
    if found ≠ Program.version then .error (.versionMismatch found)
    else if budget < program.length then .error (.programTooLarge program.length budget)
    else if 0x100000000 ≤ budget then .error (.budgetTooLarge budget)
    else
      .ok
        { stack := .ofMemory (.ofBytes budget program) program.length
          mode := .int
          ip := Program.headerSize
          halted := false }

end Machine
end Autoscript
