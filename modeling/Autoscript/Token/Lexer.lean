import Autoscript.Text.Alphanumeric
import Autoscript.Decimal.Literal
import Autoscript.Token
/-!
# Reading tokens

The lexer reads one character at a time and remembers only what it is in the
middle of: nothing, a word, a quoted text or an arrow.  Each character yields
zero or more items, a token or an error each.  Reading goes on after an error, so
that all of them are reported; it is over when the source ends inside a text or an
arrow.  A source with any error has no tokens.
-/
namespace Autoscript

inductive LexError.Unfinished where
  | arrow
  | text
deriving DecidableEq, Repr

inductive LexError.Cause where
  | unexpectedEnd (inside : LexError.Unfinished)
  | unknownSymbol (c : Char)
  | danglingLess (next : Char)
deriving DecidableEq, Repr

structure LexError where
  cause : LexError.Cause
  line : Nat
deriving DecidableEq, Repr

namespace LexError

def Unfinished.describe : Unfinished → String
  | .arrow => "`<-` operator"
  | .text => "string literal"

def Cause.message : Cause → String
  | .unexpectedEnd inside => "unexpected end of file in " ++ inside.describe
  | .unknownSymbol c => "unknown symbol `" ++ c.toString ++ "`"
  | .danglingLess c => "expected `-` after `<`, found `" ++ c.toString ++ "`"

def message (e : LexError) : String :=
  "lex error at line " ++ toString e.line ++ ": " ++ e.cause.message

end LexError

namespace Lexer

/-- The characters of a word after its first, which is a letter or a digit. -/
def isWordChar (c : Char) : Bool := Text.isAlphanumeric c || c == '.' || c == '_'

/-- What a word stands for: an integer if it is one of 32 bits, else a number if it
starts with a digit and is written as one, else a keyword, else a name. -/
def classify (word : List Char) : Token.Kind :=
  match (Decimal.natural? word).filter (· < 0x80000000) with
  | some n => .int (Int32.ofNat n)
  | none =>
    match if (word.head?.any Char.isDigit) then Decimal.literal? word else none with
    | some d => .float (Single.ofDecimal d)
    | none =>
      match Keyword.ofWord? (String.ofList word) with
      | some k => .keyword k
      | none => .name (String.ofList word)

abbrev Item := Except LexError Token

/-- What the lexer is in the middle of.  What it has read so far is kept with the
last character first. -/
inductive Mode where
  | idle
  | word (read : List Char)
  | text (read : List Char) (start : Nat)
  | less
deriving DecidableEq, Repr

structure State where
  mode : Mode
  line : Nat
deriving DecidableEq, Repr

def State.initial : State := ⟨.idle, 1⟩

def found (line : Nat) (kind : Token.Kind) : Item := .ok ⟨kind, line⟩

def failed (line : Nat) (cause : LexError.Cause) : Item := .error ⟨cause, line⟩

def wordItem (line : Nat) (read : List Char) : Item := found line (classify read.reverse)

def fresh (line : Nat) (c : Char) : List Item × State :=
  if c = ' ' ∨ c = '\t' ∨ c = '\r' then ([], ⟨.idle, line⟩)
  else if c = '\n' then ([found line .endOfLine], ⟨.idle, line + 1⟩)
  else if c = '+' then ([found line (.operator (.arith .add))], ⟨.idle, line⟩)
  else if c = '-' then ([found line (.operator (.arith .sub))], ⟨.idle, line⟩)
  else if c = '*' then ([found line (.operator (.arith .mul))], ⟨.idle, line⟩)
  else if c = '/' then ([found line (.operator (.arith .div))], ⟨.idle, line⟩)
  else if c = '(' then ([found line (.operator .leftParen)], ⟨.idle, line⟩)
  else if c = ')' then ([found line (.operator .rightParen)], ⟨.idle, line⟩)
  else if c = '<' then ([], ⟨.less, line⟩)
  else if c = '"' then ([], ⟨.text [] line, line⟩)
  else if Text.isAlphanumeric c then ([], ⟨.word [c], line⟩)
  else ([failed line (.unknownSymbol c)], ⟨.idle, line⟩)

def before (item : Item) (r : List Item × State) : List Item × State := (item :: r.1, r.2)

/-- Reads a character.  A character that ends a word, or that should have been the
rest of an arrow, is then read outside of any token. -/
def step (s : State) (c : Char) : List Item × State :=
  match s.mode with
  | .idle => fresh s.line c
  | .word read =>
    if isWordChar c then ([], ⟨.word (c :: read), s.line⟩)
    else before (wordItem s.line read) (fresh s.line c)
  | .text read start =>
    if c = '"' then ([found start (.text (String.ofList read.reverse))], ⟨.idle, s.line⟩)
    else ([], ⟨.text (c :: read) start, if c = '\n' then s.line + 1 else s.line⟩)
  | .less =>
    if c = '-' then ([found s.line (.operator .assign)], ⟨.idle, s.line⟩)
    else before (failed s.line (.danglingLess c)) (fresh s.line c)

def atEnd (s : State) : List Item :=
  match s.mode with
  | .idle => [found s.line .endOfSource]
  | .word read => [wordItem s.line read, found s.line .endOfSource]
  | .text _ _ => [failed s.line (.unexpectedEnd .text)]
  | .less => [failed s.line (.unexpectedEnd .arrow)]

def items : State → List Char → List Item
  | s, [] => atEnd s
  | s, c :: cs =>
    let r := step s c
    r.1 ++ items r.2 cs

def errors (is : List Item) : List LexError :=
  is.filterMap fun i => match i with
    | .error e => some e
    | .ok _ => none

def tokens (is : List Item) : List Token :=
  is.filterMap fun i => match i with
    | .error _ => none
    | .ok t => some t

def lex (source : String) : Except (List LexError) (List Token) :=
  let is := items .initial source.toList
  if errors is = [] then .ok (tokens is) else .error (errors is)

end Lexer
end Autoscript
