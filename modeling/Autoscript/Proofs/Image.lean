import Autoscript.Machine.Step
/-!
# Image — encoded instructions are read back

The bytes of a program from a position on are the encoding of the code *ahead* of that position.  One instruction is
decoded from them and leaves the rest ahead; a sweep finds all the code; and behind a function's start the first
`endFunc` of the code is where the function ends, since the search is never out of step with the encoding.
-/
namespace Autoscript

theorem drop_of_append {α : Type} {l xs ys : List α} {n : Nat} (h : l.drop n = xs ++ ys) :
    l.drop (n + xs.length) = ys := by
  rw [← List.drop_drop, h, List.drop_left]

/-- **A memory that consists of the given bytes.** -/
def Memory.Spells (p : Memory) (bytes : List UInt8) : Prop := ∀ i, p.get? i = bytes[i]?

namespace Memory.Spells

variable {p : Memory} {bytes : List UInt8} (h : p.Spells bytes)
include h

theorem size : p.size = bytes.length := by
  have h1 := h p.size
  have h2 := h bytes.length
  rw [Memory.get?, if_neg (Nat.lt_irrefl _)] at h1
  rw [List.getElem?_eq_none (Nat.le_refl _)] at h2
  have hle : bytes.length ≤ p.size := List.getElem?_eq_none_iff.1 h1.symm
  by_cases hlt : bytes.length < p.size
  · rw [Memory.get?, if_pos hlt] at h2
    cases h2
  · omega

theorem byte {i : Nat} {b : UInt8} (hb : bytes[i]? = some b) : p.byte i = b := by
  have hi := h i
  rw [hb] at hi
  unfold Memory.get? at hi
  split at hi
  · injection hi
  · cases hi

theorem word {pos : Nat} {w : Word} {rest : List UInt8} (hd : bytes.drop pos = Word.bytes w ++ rest) :
    p.word? pos = some w := by
  have hlen : (bytes.drop pos).length = 4 + rest.length := by
    rw [hd, List.length_append, Word.length_bytes]
  rw [List.length_drop] at hlen
  have hin : pos + Word.size ≤ p.size := by
    rw [h.size, Word.size]
    omega
  have hget (k : Nat) : bytes[pos + k]? = (Word.bytes w ++ rest)[k]? := by rw [← hd, List.getElem?_drop]
  have h0 : p.byte pos = Word.byte w 0 := h.byte (hget 0)
  rw [Memory.word?, if_pos hin, Memory.word, h0, h.byte (hget 1), h.byte (hget 2), h.byte (hget 3), Word.ofBytes_byte]

end Memory.Spells

/-! ## One instruction -/

namespace Instr

theorem ofParts_of_operand {i : Instr} : (i.opcode.hasOperand = true → ∃ w, i.operand? = some w ∧ ofParts i.opcode w = i) ∧
    (i.opcode.hasOperand = false → ofParts i.opcode 0 = i) := by
  cases i <;> simp [opcode, operand?, ofParts, Opcode.hasOperand]

/-- **An encoded instruction is decoded.** -/
theorem decode_of_spells {p : Memory} {bytes rest : List UInt8} {pos : Nat} {i : Instr} (h : p.Spells bytes)
    (hd : bytes.drop pos = i.encode ++ rest) : decode p pos = .ok i := by
  have hbyte : p.get? pos = some i.opcode.byte := by
    have hget : (bytes.drop pos)[0]? = bytes[pos]? := by simp
    rw [h pos, ← hget, hd, encode]
    rfl
  rw [decode_eq]
  simp only [hbyte, Opcode.ofByte?_byte]
  by_cases ho : i.opcode.hasOperand = true
  · obtain ⟨w, hw, hi⟩ := ofParts_of_operand.1 ho
    have hrest : bytes.drop (pos + 1) = Word.bytes w ++ rest := by
      have henc : bytes.drop pos = [i.opcode.byte] ++ (Word.bytes w ++ rest) := by simpa [encode, hw] using hd
      exact drop_of_append henc
    simp only [ho, if_true, h.word hrest, hi]
  · rw [Bool.not_eq_true] at ho
    simp [ho, ofParts_of_operand.2 ho]

end Instr

/-! ## Code -/

namespace Program

/-- The bytes from a position on are the encoding of some code. -/
def Ahead (bytes : List UInt8) (pos : Nat) (code : List Instr) : Prop := bytes.drop pos = encode code

/-- The instructions of code that starts at a position, each with its own. -/
def positions : Nat → List Instr → List (Nat × Instr)
  | _, [] => []
  | pos, i :: code => (pos, i) :: positions (pos + i.width) code

theorem encode_append (code more : List Instr) : encode (code ++ more) = encode code ++ encode more :=
  List.flatMap_append

theorem width_append (code more : List Instr) : width (code ++ more) = width code + width more := by
  rw [← length_encode, encode_append, List.length_append, length_encode, length_encode]

theorem ahead_assemble (code : List Instr) : Ahead (assemble code) headerSize code := by
  have hlen : headerSize = (Word.bytes (Word.ofInt version)).length := rfl
  rw [Ahead, assemble, hlen, List.drop_left]

variable {p : Memory} {bytes : List UInt8} {pos : Nat}

theorem Ahead.next {i : Instr} {code : List Instr} (h : Ahead bytes pos (i :: code)) :
    Ahead bytes (pos + i.width) code := by
  rw [← Instr.length_encode]
  exact drop_of_append h

theorem Ahead.skip {code more : List Instr} (h : Ahead bytes pos (code ++ more)) :
    Ahead bytes (pos + width code) more := by
  rw [Ahead, encode_append] at h
  rw [← length_encode]
  exact drop_of_append h

theorem Ahead.decode {i : Instr} {code : List Instr} (h : Ahead bytes pos (i :: code)) (hp : p.Spells bytes) :
    Instr.decode p pos = .ok i := Instr.decode_of_spells hp h

theorem sweep_of_decode {i : Instr} (hd : Instr.decode p pos = .ok i) :
    p.sweep pos = ⟨(pos, i) :: (p.sweep (pos + i.width)).code, (p.sweep (pos + i.width)).error⟩ := by
  rw [Memory.sweep, if_pos (Instr.lt_size_of_decode hd)]
  simp only [hd]

/-- A sweep over encoded code finds it and goes on behind it. -/
theorem sweep_of_encode (hp : p.Spells bytes) (rest : List UInt8) : ∀ (code : List Instr) {pos : Nat},
    bytes.drop pos = encode code ++ rest →
      p.sweep pos = ⟨positions pos code ++ (p.sweep (pos + width code)).code, (p.sweep (pos + width code)).error⟩
  | [], _, _ => rfl
  | i :: code, pos, h => by
    have henc : bytes.drop pos = i.encode ++ (encode code ++ rest) := by
      rw [h, ← List.append_assoc]
      rfl
    have hnext : bytes.drop (pos + i.width) = encode code ++ rest := by
      rw [← Instr.length_encode]
      exact drop_of_append henc
    rw [sweep_of_decode (Instr.decode_of_spells hp henc), sweep_of_encode hp rest code hnext, positions, width,
      Nat.add_assoc, List.cons_append]

theorem Ahead.sweep (hp : p.Spells bytes) {code : List Instr} {pos : Nat} (h : Ahead bytes pos code) :
    p.sweep pos = ⟨positions pos code, none⟩ := by
  have hend : Ahead bytes (pos + width code) [] := Ahead.skip (by rw [List.append_nil]; exact h)
  have hle : bytes.length ≤ pos + width code := List.drop_eq_nil_iff.1 hend
  have hnot : ¬ pos + width code < p.size := by rw [hp.size]; omega
  have hlast : p.sweep (pos + width code) = ⟨[], none⟩ := by rw [Memory.sweep, if_neg hnot]
  rw [sweep_of_encode hp [] code (by rw [List.append_nil]; exact h), hlast, List.append_nil]

/-! ## Code before other bytes -/

/-- The bytes from a position on are the encoding of some code, and a tail. -/
def AheadUpTo (bytes : List UInt8) (pos : Nat) (code : List Instr) (tail : List UInt8) : Prop :=
  bytes.drop pos = encode code ++ tail

theorem Ahead.upTo {code : List Instr} (h : Ahead bytes pos code) : AheadUpTo bytes pos code [] := by
  rw [AheadUpTo, List.append_nil]
  exact h

namespace AheadUpTo

variable {code rest : List Instr} {tail : List UInt8}

theorem skip {more : List Instr} (h : AheadUpTo bytes pos (code ++ more) tail) :
    AheadUpTo bytes (pos + width code) more tail := by
  rw [AheadUpTo, encode_append, List.append_assoc] at h
  rw [← length_encode]
  exact drop_of_append h

theorem next {i : Instr} (h : AheadUpTo bytes pos (i :: code) tail) : AheadUpTo bytes (pos + i.width) code tail := by
  have hi : AheadUpTo bytes pos ([i] ++ code) tail := h
  exact hi.skip

theorem decode {i : Instr} (h : AheadUpTo bytes pos (i :: code) tail) (hp : p.Spells bytes) :
    Instr.decode p pos = .ok i := by
  have hd : bytes.drop pos = i.encode ++ (encode code ++ tail) := by
    rw [h, ← List.append_assoc]
    rfl
  exact Instr.decode_of_spells hp hd

/-- The search for the end of a function passes over code that has none. -/
theorem searchEnd_skip (hp : p.Spells bytes) {start : Nat} : ∀ {body : List Instr} {pos : Nat},
    AheadUpTo bytes pos (body ++ rest) tail → .endFunc ∉ body →
      Machine.searchEnd p start pos = Machine.searchEnd p start (pos + width body)
  | [], _, _, _ => rfl
  | i :: body, pos, h, hb => by
    have hi : i ≠ .endFunc := fun he => hb (he ▸ List.mem_cons_self)
    have hbody : .endFunc ∉ body := fun hm => hb (List.mem_cons_of_mem _ hm)
    rw [Machine.searchEnd_of_other (h.decode hp) hi, searchEnd_skip hp h.next hbody, width, Nat.add_assoc]

section
variable {body : List Instr} (h : AheadUpTo bytes pos (.startFunc :: (body ++ .endFunc :: rest)) tail) (hp : p.Spells bytes)
  (hb : .endFunc ∉ body)
include h hp hb

/-- **Behind a function's start the machine goes on after the first `endFunc`.** -/
theorem functionEnd_eq : Machine.functionEnd p pos = .ok (pos + width (.startFunc :: (body ++ [.endFunc]))) := by
  have hw : pos + width (.startFunc :: (body ++ [.endFunc])) =
      pos + Opcode.startFunc.width + width body + Instr.endFunc.width := by
    rw [width, width_append, ← Nat.add_assoc, ← Nat.add_assoc]
    rfl
  have hbody : AheadUpTo bytes (pos + Opcode.startFunc.width) (body ++ .endFunc :: rest) tail := h.next
  rw [Machine.functionEnd, hbody.searchEnd_skip hp hb, Machine.searchEnd_of_endFunc (hbody.skip.decode hp), hw]

theorem functionEnd : ∃ next, Machine.functionEnd p pos = .ok next ∧ AheadUpTo bytes next rest tail := by
  refine ⟨_, h.functionEnd_eq hp hb, ?_⟩
  have hsplit : Instr.startFunc :: (body ++ .endFunc :: rest) = (.startFunc :: (body ++ [.endFunc])) ++ rest := by simp
  rw [hsplit] at h
  exact h.skip

end

end AheadUpTo

theorem Ahead.functionEnd {body rest : List Instr} (h : Ahead bytes pos (.startFunc :: (body ++ .endFunc :: rest)))
    (hp : p.Spells bytes) (hb : .endFunc ∉ body) :
    ∃ next, Machine.functionEnd p pos = .ok next ∧ Ahead bytes next rest := by
  obtain ⟨next, hn, hr⟩ := h.upTo.functionEnd hp hb
  rw [AheadUpTo, List.append_nil] at hr
  exact ⟨next, hn, hr⟩

end Program
end Autoscript
