import Autoscript.Ty
/-!
# Arithmetic

The four operators of expressions, with their binding strength and their meaning
on words.  Integer arithmetic wraps around and division cuts toward zero; the
only operation without an answer is integer division by zero.
-/
namespace Autoscript

inductive Arith where
  | add
  | sub
  | mul
  | div
deriving DecidableEq, Repr

namespace Arith

def symbol : Arith → String
  | .add => "+"
  | .sub => "-"
  | .mul => "*"
  | .div => "/"

def precedence : Arith → Nat
  | .add | .sub => 2
  | .mul | .div => 3

def onInts : Arith → Int32 → Int32 → Option Int32
  | .add, x, y => some (x + y)
  | .sub, x, y => some (x - y)
  | .mul, x, y => some (x * y)
  | .div, x, y => if y = 0 then none else some (x / y)

def onSingles : Arith → Single → Single → Single
  | .add, x, y => x.add y
  | .sub, x, y => x.sub y
  | .mul, x, y => x.mul y
  | .div, x, y => x.div y

def eval (op : Arith) : Ty → Word → Word → Option Word
  | .int, l, r => (op.onInts (Word.toInt l) (Word.toInt r)).map Word.ofInt
  | .float, l, r => some (op.onSingles ⟨l⟩ ⟨r⟩).bits

end Arith
end Autoscript
