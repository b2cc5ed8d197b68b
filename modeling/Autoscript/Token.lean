import Autoscript.Arith
/-!
# Tokens

A script is read as a list of tokens, each with the line it starts on.  Statements
end with a line, so the ends of lines are tokens as well, and the last token of a
script is always the end of the source.
-/
namespace Autoscript

inductive Operator where
  | arith (op : Arith)
  | assign
  | leftParen
  | rightParen
deriving DecidableEq, Repr

namespace Operator

def symbol : Operator → String
  | .arith op => op.symbol
  | .assign => "<-"
  | .leftParen => "("
  | .rightParen => ")"

/-- Binding strength; what is no arithmetic never binds. -/
def precedence : Operator → Nat
  | .arith op => op.precedence
  | .assign | .leftParen | .rightParen => 0

end Operator

/-- The reserved words.  A declaration is written with the word of its type. -/
inductive Keyword where
  | move
  | drag
  | click
  | type
  | mod
  | delay
  | display
  | start
  | finish
  | declare (ty : Ty)
deriving DecidableEq, Repr

namespace Keyword

def word : Keyword → String
  | .move => "move"
  | .drag => "drag"
  | .click => "click"
  | .type => "type"
  | .mod => "mod"
  | .delay => "delay"
  | .display => "display"
  | .start => "start"
  | .finish => "end"
  | .declare ty => ty.word

def ofWord? : String → Option Keyword
  | "move" => some .move
  | "drag" => some .drag
  | "click" => some .click
  | "type" => some .type
  | "mod" => some .mod
  | "delay" => some .delay
  | "display" => some .display
  | "start" => some .start
  | "end" => some .finish
  | "int" => some (.declare .int)
  | "float" => some (.declare .float)
  | _ => none

theorem ofWord?_word (k : Keyword) : ofWord? k.word = some k := by
  cases k with
  | declare ty => cases ty <;> rfl
  | _ => rfl

theorem word_of_ofWord? {s : String} {k : Keyword} (h : ofWord? s = some k) : k.word = s := by
  unfold ofWord? at h
  split at h <;> cases h <;> rfl

end Keyword

inductive Token.Kind where
  | operator (op : Operator)
  /-- Quoted text, taken as it stands. -/
  | text (content : String)
  | keyword (word : Keyword)
  | name (name : String)
  | int (value : Int32)
  | float (value : Single)
  | endOfLine
  | endOfSource
deriving DecidableEq

/-- A token and the line it starts on, counted from one. -/
structure Token where
  kind : Token.Kind
  line : Nat
deriving DecidableEq

namespace Token

def Kind.endsStatement : Kind → Bool
  | .endOfLine | .endOfSource => true
  | _ => false

def Kind.describe : Kind → String
  | .operator op => "`" ++ op.symbol ++ "`"
  | .text content => "string \"" ++ content ++ "\""
  | .keyword k => "keyword `" ++ k.word ++ "`"
  | .name n => "identifier `" ++ n ++ "`"
  | .int n => "integer " ++ toString n.toInt
  | .float x => "float " ++ x.text
  | .endOfLine => "end of line"
  | .endOfSource => "end of file"

def endsStatement (t : Token) : Bool := t.kind.endsStatement

def describe (t : Token) : String := t.kind.describe

end Token
end Autoscript
