import Autoscript.Text.Columns
/-!
# Text for a terminal

A terminal obeys some control characters: it rings, goes back, clears the screen, or
takes what follows for a command.  A text from outside is written with these spelled
out, so that it shows what it holds and does nothing.
-/
namespace Autoscript.Text.Terminal

/-- The codes below 128 that are spelled out: bell, backspace, form feed, escape and delete. -/
def commands : List Nat := [0x07, 0x08, 0x0c, 0x1b, 0x7f]

/-- A character as it is written.  All control characters from 128 on are spelled out. -/
def spell (c : Char) : String :=
  if c.toNat ∈ commands then "\\x" ++ hexByte (UInt8.ofNat c.toNat)
  else if 0x80 ≤ c.toNat ∧ c.toNat ≤ 0x9f then
    "\\u\x7b" ++ hexByte (UInt8.ofNat c.toNat) ++ "\x7d"
  else String.singleton c

def spellOut (s : String) : String := String.join (s.toList.map spell)

end Autoscript.Text.Terminal
