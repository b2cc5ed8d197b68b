import Autoscript.Command.Path
/-!
# Files

The commands read one file and write at most one.  `Files` is a directory tree to
run them on: a list of files and directories, each with the components of its path
from the root, and the place of the working directory.

A path leads through directories to a name.  What stands there, and whether slashes
follow the name, decides what can be done: a name that is followed by slashes is one
of a directory, so nothing is ever written to it.

There are no links, no devices and no permissions in a tree, and its working directory
is always there.  What is said of files holds of such trees.  With a link a file would
have two names, and a program could take the place of its script after all; without
its directory a program would go nowhere by default.
-/
namespace Autoscript

inductive FileError where
  | notFound
  | notDirectory
  | isDirectory
  | nameTooLong
  | zeroByte
  | notText
  | other (message : String)
deriving DecidableEq, Repr

def FileError.message : FileError → String
  | .notFound => "No such file or directory (os error 2)"
  | .notDirectory => "Not a directory (os error 20)"
  | .isDirectory => "Is a directory (os error 21)"
  | .nameTooLong => "File name too long (os error 36)"
  | .zeroByte => "file name contained an unexpected NUL byte"
  | .notText => "stream did not contain valid UTF-8"
  | .other message => message

inductive Files.Node where
  | file (bytes : List UInt8)
  | directory
deriving DecidableEq

structure Files where
  nodes : List (List String × Files.Node)
  home : List String

namespace Files

def maxName : Nat := 255

def maxPath : Nat := 4095

def empty (home : List String) : Files := ⟨[], home⟩

/-- The node at a place.  The working directory and those above it are always there. -/
def get? (fs : Files) (place : List String) : Option Node :=
  if place.isPrefixOf fs.home then some .directory else fs.nodes.lookup place

def put (fs : Files) (place : List String) (node : Node) : Files :=
  { fs with nodes := (place, node) :: fs.nodes.filter fun p => p.1 ≠ place }

/-- A node with all the directories above it. -/
def add (fs : Files) (place : List String) (node : Node) : Files :=
  let above := (List.range place.length).map fun n => place.take n
  (above.foldl (fun fs d => fs.put d .directory) fs).put place node

def entry (fs : Files) (place : List String) (name : String) : Except FileError (Option Node) :=
  if maxName < name.utf8ByteSize then .error .nameTooLong else .ok (fs.get? (place ++ [name]))

/-- Follows components from one directory to another.  The root is above itself. -/
def follow (fs : Files) : List String → List String → Except FileError (List String)
  | place, [] => .ok place
  | place, c :: cs =>
    if c = "" ∨ c = "." then follow fs place cs
    else if c = ".." then follow fs place.dropLast cs
    else
      match fs.entry place c with
      | .error e => .error e
      | .ok none => .error .notFound
      | .ok (some (.file _)) => .error .notDirectory
      | .ok (some .directory) => follow fs (place ++ [c]) cs

/-- Where a path leads: to a directory that it gives no name of, or to a name in a directory,
which slashes can follow. -/
inductive Target where
  | directory
  | named (place : List String) (name : String) (slash : Bool)
deriving DecidableEq

def locate (fs : Files) (path : String) : Except FileError Target :=
  if '\x00' ∈ path.toList then .error .zeroByte
  else if path = "" then .error .notFound
  else if maxPath < path.utf8ByteSize then .error .nameTooLong
  else
    let parts := Path.parts path
    match fs.follow (if path.startsWith "/" then [] else fs.home) parts.way with
    | .error e => .error e
    | .ok place =>
      if parts.last ∈ ["", ".", ".."] then .ok .directory
      else .ok (.named place parts.last parts.slash)

def read (fs : Files) (path : String) : Except FileError (List UInt8) :=
  match fs.locate path with
  | .error e => .error e
  | .ok .directory => .error .isDirectory
  | .ok (.named place name slash) =>
    match fs.entry place name with
    | .error e => .error e
    | .ok none => .error .notFound
    | .ok (some .directory) => .error .isDirectory
    | .ok (some (.file bytes)) => if slash then .error .notDirectory else .ok bytes

def write (fs : Files) (path : String) (bytes : List UInt8) : Except FileError Files :=
  match fs.locate path with
  | .error e => .error e
  | .ok .directory => .error .isDirectory
  | .ok (.named place name slash) =>
    if slash then .error .isDirectory
    else
      match fs.entry place name with
      | .error e => .error e
      | .ok (some .directory) => .error .isDirectory
      | .ok _ => .ok (fs.put (place ++ [name]) (.file bytes))

end Files
end Autoscript
