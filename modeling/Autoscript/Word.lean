/-!
# Words

Every operand, every variable and every stack slot is one word: four bytes, the
least significant first.  A word has no type of its own.  It is read as a signed
integer or as a binary32 number by whoever holds it, so the library keeps the
number its bytes spell and leaves the reading to `Ty`.
-/
namespace Autoscript

/-- Four bytes, kept as the number they spell with the least significant first. -/
abbrev Word := UInt32

namespace Word

def size : Nat := 4

def byte (w : Word) (k : Nat) : UInt8 := UInt8.ofNat (w.toNat >>> (8 * k))

def bytes (w : Word) : List UInt8 := [byte w 0, byte w 1, byte w 2, byte w 3]

def ofBytes (a b c d : UInt8) : Word :=
  UInt32.ofNat (a.toNat + 256 * b.toNat + 65536 * c.toNat + 16777216 * d.toNat)

/-- The word of a signed integer: its two's complement. -/
def ofInt (n : Int32) : Word := n.toUInt32

def toInt (w : Word) : Int32 := w.toInt32

@[simp] theorem length_bytes (w : Word) : (bytes w).length = 4 := rfl

@[simp] theorem toInt_ofInt (n : Int32) : toInt (ofInt n) = n := rfl

@[simp] theorem ofInt_toInt (w : Word) : ofInt (toInt w) = w := rfl

theorem ofBytes_byte (w : Word) : ofBytes (byte w 0) (byte w 1) (byte w 2) (byte w 3) = w := by
  apply UInt32.toNat_inj.1
  have h : w.toNat < 4294967296 := w.toNat_lt
  simp only [ofBytes, byte, UInt32.toNat_ofNat', UInt8.toNat_ofNat', Nat.reducePow]
  omega

theorem bytes_ofBytes (a b c d : UInt8) : bytes (ofBytes a b c d) = [a, b, c, d] := by
  have ha := a.toNat_lt
  have hb := b.toNat_lt
  have hc := c.toNat_lt
  have hd := d.toNat_lt
  simp only [bytes, List.cons.injEq, and_true]
  refine ⟨?_, ?_, ?_, ?_⟩ <;> apply UInt8.toNat_inj.1 <;>
    simp only [ofBytes, byte, UInt32.toNat_ofNat', UInt8.toNat_ofNat', Nat.reducePow] at * <;>
    omega

end Word
end Autoscript
