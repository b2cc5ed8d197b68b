import Autoscript.Word
/-!
# Memory

A run of bytes of a fixed size.  The machine's buffer can be large and mostly
zero, so a memory is its size and a function from positions to bytes.  What the
function says beyond the size is never read.
-/
namespace Autoscript

structure Memory where
  size : Nat
  byte : Nat → UInt8

namespace Memory

def zeros (size : Nat) : Memory := ⟨size, fun _ => 0⟩

/-- A memory that starts with the given bytes and goes on with zeros. -/
def ofBytes (size : Nat) (bytes : List UInt8) : Memory :=
  let image := bytes.toArray
  ⟨size, fun i => image.getD i 0⟩

def get? (m : Memory) (i : Nat) : Option UInt8 := if i < m.size then some (m.byte i) else none

def take (m : Memory) (n : Nat) : Memory := ⟨min n m.size, m.byte⟩

/-- The word at a position, wherever it is. -/
def word (m : Memory) (i : Nat) : Word :=
  Word.ofBytes (m.byte i) (m.byte (i + 1)) (m.byte (i + 2)) (m.byte (i + 3))

/-- The word at a position, if all its bytes are there. -/
def word? (m : Memory) (i : Nat) : Option Word :=
  if i + Word.size ≤ m.size then some (m.word i) else none

def setWord (m : Memory) (i : Nat) (w : Word) : Memory :=
  { m with byte := fun j => if i ≤ j ∧ j < i + Word.size then Word.byte w (j - i) else m.byte j }

def slice (m : Memory) (first stop : Nat) : List UInt8 :=
  (List.range (stop - first)).map fun k => m.byte (first + k)

@[simp] theorem size_setWord (m : Memory) (i : Nat) (w : Word) : (m.setWord i w).size = m.size := rfl

@[simp] theorem size_take (m : Memory) (n : Nat) : (m.take n).size = min n m.size := rfl

@[simp] theorem word_setWord (m : Memory) (i : Nat) (w : Word) : (m.setWord i w).word i = w := by
  have h : Word.ofBytes (Word.byte w 0) (Word.byte w 1) (Word.byte w 2) (Word.byte w 3) = w :=
    Word.ofBytes_byte w
  simp only [word, setWord, Word.size]
  simpa using h

theorem byte_setWord_of_outside (m : Memory) (i j : Nat) (w : Word)
    (h : j < i ∨ i + Word.size ≤ j) : (m.setWord i w).byte j = m.byte j := by
  have : ¬ (i ≤ j ∧ j < i + Word.size) := by omega
  simp [setWord, this]

end Memory
end Autoscript
