import Autoscript.Decimal
/-!
# Size statistics

How much text, how many tokens and how many bytes of program a script has, and the
ratios between them as double precision numbers.
-/
namespace Autoscript.Script

structure Stats where
  chars : Nat
  tokens : Nat
  bytes : Nat
deriving DecidableEq, Repr

namespace Stats

open Binary (Format)

/-- The double precision pattern of `a / b`.  Both are rounded before they are divided,
and a divisor of zero counts as one. -/
def ratio (a b : Nat) : Nat :=
  let F := Format.binary64
  let rounded (n : Nat) : Nat := F.magnitude (F.nearest (n * F.one) 1)
  F.nearest (rounded a * F.one) (rounded (max b 1))

def charsPerToken (s : Stats) : Nat := ratio s.chars s.tokens

def bytesPerToken (s : Stats) : Nat := ratio s.bytes s.tokens

def tokensPerByte (s : Stats) : Nat := ratio s.tokens s.bytes

def ratioText (pattern : Nat) : String :=
  String.ofList (Format.binary64.fixed 2 pattern).positional

end Stats
end Autoscript.Script
