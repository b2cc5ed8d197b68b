import Autoscript.Log
/-!
# Filtering the log

A filter is a list of directives separated by commas.  `level` speaks for all
components, `component=level` for one, and a component alone shows all of its
entries.  The directive with the longest matching name decides, and of two with the
same name the later one; what no directive speaks for is hidden.
-/
namespace Autoscript.Log

/-- Shows the entries of matching components up to a rank; rank zero shows none. -/
structure Directive where
  target : String
  rank : Nat
deriving DecidableEq, Repr

abbrev Filter := List Directive

namespace Filter

def upTo (level : Level) : Filter := [⟨"", level.rank⟩]

def rank? (s : String) : Option Nat :=
  let s := s.toLower
  if s = "off" ∨ s = "0" then some 0
  else (Level.all.find? fun l => l.name.toLower == s || toString l.rank == s).map Level.rank

def directive? (s : String) : Option Directive :=
  match s.splitOn "=" with
  | [one] =>
    match rank? one with
    | some rank => some ⟨"", rank⟩
    | none => some ⟨one, Level.trace.rank⟩
  | [target, level] =>
    if level = "" then some ⟨target, Level.trace.rank⟩ else (rank? level).map (⟨target, ·⟩)
  | _ => none

/-- Reads a filter.  An empty one shows errors only. -/
def parse? (s : String) : Option Filter :=
  let parts := (s.splitOn ",").filter (· ≠ "")
  if parts = [] then some (upTo .error) else parts.mapM directive?

/-- The more specific of two directives, the second if they are equally so. -/
def stronger (best : Option Directive) (d : Directive) : Option Directive :=
  match best with
  | none => some d
  | some b => if b.target.length ≤ d.target.length then some d else some b

def shows (f : Filter) (e : Entry) : Bool :=
  match (f.filter fun d => d.target.isPrefixOf e.component.target).foldl stronger none with
  | none => false
  | some d => e.level.rank ≤ d.rank

end Filter
end Autoscript.Log
