import Autoscript.Token
/-!
# Lines

A statement takes one line.  The tokens of a script fall into lines, each with the
token that ends it, which faults at the end of a statement are reported on.
-/
namespace Autoscript.Script

structure Line where
  body : List Token
  stop : Token
deriving DecidableEq

namespace Line

def cons (t : Token) : List Line → List Line
  | [] => []
  | l :: ls => { l with body := t :: l.body } :: ls

/-- The lines of a list of tokens.  What no token ends is no line. -/
def split : List Token → List Line
  | [] => []
  | t :: ts => if t.endsStatement then ⟨[], t⟩ :: split ts else cons t (split ts)

end Line
end Autoscript.Script
