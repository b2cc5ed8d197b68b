import Autoscript.Binary.Single
/-!
# Types and scalars

There are two ways to read a word, as an integer or as a float.  The same choice
is a variable's declared type, the type an expression is compiled for, and the
operation mode of the machine.  There is no conversion instruction: a literal
takes the type of the place where it stands (`Ty.ofInt`, `Ty.ofSingle`), and a
variable keeps its own.
-/
namespace Autoscript

inductive Ty where
  | int
  | float
deriving DecidableEq, Repr

inductive Scalar where
  | int (value : Int32)
  | float (value : Single)
deriving DecidableEq

namespace Ty

def word : Ty → String
  | .int => "int"
  | .float => "float"

def ofInt : Ty → Int32 → Word
  | .int, n => Word.ofInt n
  | .float, n => (Single.ofInt n).bits

def ofSingle : Ty → Single → Word
  | .int, x => Word.ofInt x.toInt
  | .float, x => x.bits

def read : Ty → Word → Scalar
  | .int, w => .int (Word.toInt w)
  | .float, w => .float ⟨w⟩

end Ty

/-- The text of a value.  A whole float keeps a decimal place, so that it never reads
as an integer. -/
def Scalar.text : Scalar → String
  | .int n => toString n.toInt
  | .float x => x.textWithPlace

end Autoscript
