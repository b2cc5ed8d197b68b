import Autoscript.Token
/-!
# Refused statements

A statement that breaks a rule is refused with one fault, which says why and on
which line.  The other statements of the script are still looked at.
-/
namespace Autoscript.Script

inductive Fault.Cause where
  | undeclaredName (name : String)
  | typeMismatch (name : String) (expected found : Ty)
  | expectedAssignment (name : String) (found : Token.Kind)
  | expectedOperator (found : Token.Kind)
  | expectedValue (found : Token.Kind)
  | unbalancedParentheses
  | invalidTerm (found : Token.Kind)
  | nestedFunction
  | endOutsideFunction
  | expectedName (after : Keyword) (found : Token.Kind)
  | unexpectedToken (found : Token.Kind)
  | reservedKeyword (word : Keyword)
  | unsupportedCall (name : String)
  | duplicateFunction (name : String)
  | unterminatedFunction (name : String)
  | frameTooLarge
deriving DecidableEq

structure Fault where
  cause : Fault.Cause
  line : Nat
deriving DecidableEq

namespace Fault

def Cause.message : Cause → String
  | .undeclaredName name => "undeclared name `" ++ name ++ "`"
  | .typeMismatch name expected found =>
    "`" ++ name ++ "` is " ++ found.word ++ " but the expression is " ++ expected.word
  | .expectedAssignment name found =>
    "expected `<-` after `" ++ name ++ "`, found " ++ found.describe
  | .expectedOperator found => "expected operator, found " ++ found.describe
  | .expectedValue found => "expected value, found " ++ found.describe
  | .unbalancedParentheses => "unbalanced parentheses"
  | .invalidTerm found => found.describe ++ " cannot appear in an expression"
  | .nestedFunction => "cannot define function inside of a function"
  | .endOutsideFunction => "`end` outside of a function"
  | .expectedName after found =>
    "expected identifier after `" ++ after.word ++ "`, found " ++ found.describe
  | .unexpectedToken found => "unexpected " ++ found.describe
  | .reservedKeyword k => "`" ++ k.word ++ "` is reserved and not supported yet"
  | .unsupportedCall name => "calling function `" ++ name ++ "` is not supported yet"
  | .duplicateFunction name => "function `" ++ name ++ "` is already defined"
  | .unterminatedFunction name => "function `" ++ name ++ "` is missing `end`"
  | .frameTooLarge => "too many variables for one frame"

def message (f : Fault) : String := "line " ++ toString f.line ++ ": " ++ f.cause.message

def onToken (t : Token) (cause : Cause) : Fault := ⟨cause, t.line⟩

end Fault
end Autoscript.Script
