/-!
# Paths

A path is a text with components between slashes.  Its file name is the last
component; empty components and single dots do not count, and a path that ends in
two dots has none.  The extension of a file name follows its last dot, unless that
is its first character.
-/
namespace Autoscript.Path

def scriptExtension : String := "mcs"

def programExtension : String := "mcc"

def pieces (separator : Char) : List Char → List (List Char)
  | [] => [[]]
  | c :: cs =>
    if c = separator then [] :: pieces separator cs
    else
      match pieces separator cs with
      | [] => [[c]]
      | p :: ps => (c :: p) :: ps

/-- The components of a path.  A slash at its end leaves an empty one behind it. -/
def components (path : String) : List String := (pieces '/' path.toList).map String.ofList

/-- A path taken apart: the components on the way, the last one, and whether slashes follow
it.  A path without any components ends in the empty one. -/
structure Parts where
  way : List String
  last : String
  slash : Bool
deriving DecidableEq

def parts (path : String) : Parts :=
  let cs := components path
  match cs.reverse.dropWhile (· = "") with
  | [] => ⟨[], "", true⟩
  | last :: way => ⟨way.reverse, last, cs.getLast? = some ""⟩

def fileName? (path : String) : Option String :=
  match ((components path).filter fun c => c ≠ "" ∧ c ≠ ".").getLast? with
  | some name => if name = ".." then none else some name
  | none => none

def splitExtension (name : String) : String × Option String :=
  let cs := name.toList
  let after := (cs.reverse.takeWhile (· ≠ '.')).reverse
  let before := cs.take (cs.length - after.length - 1)
  if before = [] then (name, none) else (String.ofList before, some (String.ofList after))

def stem? (path : String) : Option String := (fileName? path).map fun name => (splitExtension name).1

def extension? (path : String) : Option String :=
  (fileName? path).bind fun name => (splitExtension name).2

def dropExtension (name : String) : String :=
  match extension? name with
  | none => name
  | some _ => (splitExtension name).1 ++ "."

/-- A lone file name with another extension.  The old one goes first; if only dots are left
that name no file, they stay. -/
def withExtension (name extension : String) : String :=
  match stem? (dropExtension name) with
  | none => dropExtension name
  | some stem => stem ++ "." ++ extension

def isScript (path : String) : Bool := extension? path == some scriptExtension

/-- Where the program of a script goes by default: to a file of the script's stem in the
working directory.  A stem that has an extension of its own loses it. -/
def defaultOutput (path : String) : String :=
  withExtension ((stem? path).getD "out") programExtension

end Autoscript.Path
