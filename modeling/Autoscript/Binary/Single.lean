import Autoscript.Word
import Autoscript.Decimal.Shortest
/-!
# Single precision numbers

A `Single` is a word read as a binary32 number.  Each operation computes its
exact result in quanta and rounds once.  An operation that has no numeric answer
gives the one quiet NaN `Single.nan`.
-/
namespace Autoscript

structure Single where
  bits : Word
deriving DecidableEq

namespace Single

open Binary (Format)

abbrev format : Format := Format.binary32

def signBit : Nat := 0x80000000

def ofParts (negative : Bool) (pattern : Nat) : Single :=
  ⟨UInt32.ofNat (if negative then signBit + pattern else pattern)⟩

def negative (x : Single) : Bool := decide (signBit ≤ x.bits.toNat)

def pattern (x : Single) : Nat := x.bits.toNat % signBit

def abs (x : Single) : Single := ofParts false x.pattern

def neg (x : Single) : Single := ofParts (!x.negative) x.pattern

def nan : Single := ⟨0x7fc00000⟩

def isNaN (x : Single) : Bool := decide (format.infinity < x.pattern)

def isInfinite (x : Single) : Bool := decide (x.pattern = format.infinity)

def isFinite (x : Single) : Bool := decide (x.pattern < format.infinity)

def magnitude (x : Single) : Nat := format.magnitude x.pattern

def quanta (x : Single) : Int := if x.negative then -(x.magnitude : Int) else x.magnitude

def nearest (negative : Bool) (num den : Nat) : Single :=
  ofParts negative (format.nearest num den)

/-! ## Arithmetic -/

/-- A sum of zero is negative only when both terms are. -/
def add (x y : Single) : Single :=
  if x.isNaN || y.isNaN then nan
  else if x.isInfinite then
    if y.isInfinite && (x.negative != y.negative) then nan else x
  else if y.isInfinite then y
  else
    let sum := x.quanta + y.quanta
    if sum = 0 then ofParts (x.negative && y.negative) 0
    else nearest (decide (sum < 0)) sum.natAbs 1

def sub (x y : Single) : Single := add x y.neg

def mul (x y : Single) : Single :=
  let negative := x.negative != y.negative
  if x.isNaN || y.isNaN then nan
  else if x.isInfinite || y.isInfinite then
    if x.magnitude = 0 ∨ y.magnitude = 0 then nan else ofParts negative format.infinity
  else nearest negative (x.magnitude * y.magnitude) format.one

/-- A number divided by zero is infinite, and zero by zero is NaN. -/
def div (x y : Single) : Single :=
  let negative := x.negative != y.negative
  if x.isNaN || y.isNaN then nan
  else if x.isInfinite then
    if y.isInfinite then nan else ofParts negative format.infinity
  else if y.isInfinite then ofParts negative 0
  else if y.magnitude = 0 then
    if x.magnitude = 0 then nan else ofParts negative format.infinity
  else nearest negative (x.magnitude * format.one) y.magnitude

/-! ## Integers -/

def ofInt (n : Int32) : Single :=
  nearest (decide (n.toInt < 0)) (n.toInt.natAbs * format.one) 1

/-- The integer part, cut to the range of 32 bits; a NaN gives zero. -/
def toInt (x : Single) : Int32 :=
  if x.isNaN then 0
  else
    let whole : Int := x.magnitude / format.one
    if x.negative then Int32.ofInt (max (-whole) (-2147483648))
    else Int32.ofInt (min whole 2147483647)

/-! ## Text -/

def ofDecimal (d : Decimal) : Single := ofParts false (format.ofDecimal d)

def isWhole (x : Single) : Bool := x.isFinite && x.magnitude % format.one == 0

/-- The sign before the digits.  Zero has one as well. -/
def sign (x : Single) : String := if x.negative then "-" else ""

/-- The fewest digits that read back as the number, written out without an exponent. -/
def text (x : Single) : String :=
  if x.isNaN then "NaN"
  else if x.isInfinite then x.sign ++ "inf"
  else x.sign ++ String.ofList (format.shortest x.pattern).positional

/-- Like `text`, except that a whole number has all its digits and one place, so that
it does not read as an integer. -/
def textWithPlace (x : Single) : String :=
  if x.isWhole then
    x.sign ++ String.ofList (Decimal.digits (x.magnitude / format.one)) ++ ".0"
  else x.text

/-! ## Seconds -/

/-- A number of seconds as nanoseconds, to the nearest, a half going to the even one.
There is none for a negative number, a NaN, or `2 ^ 64` seconds and more. -/
def nanoseconds? (x : Single) : Option Nat :=
  if x.isNaN ∨ (x.negative ∧ x.magnitude ≠ 0) ∨ 0x10000000000000000 * format.one ≤ x.magnitude then none
  else some (divRound (x.magnitude * 1000000000) format.one)

end Single
end Autoscript
