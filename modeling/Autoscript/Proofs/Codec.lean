import Autoscript.Proofs.Image
/-!
# Codec — a program and its listing

Reading a program and writing one undo each other: encoded code is listed as it is, at the positions that the widths
before it give (`instructions_encode`), and a program that can be listed is its header and the encoding of its listing
(`eq_encode_of_instructions`).  A program that is cut off is listed up to the cut if that is the end of an instruction;
else the last instruction lacks a part of its operand, since an instruction without one is a single byte.
-/
namespace Autoscript

/-! ## Bytes of a memory -/

namespace Memory.Spells

variable {p q : Memory} {bytes : List UInt8}

theorem drop_cons (h : p.Spells bytes) {pos : Nat} (hpos : pos < p.size) :
    bytes.drop pos = p.byte pos :: bytes.drop (pos + 1) := by
  rw [h.size] at hpos
  rw [List.drop_eq_getElem_cons hpos, h.byte (List.getElem?_eq_getElem hpos)]

theorem drop_word (h : p.Spells bytes) {pos : Nat} {w : Word} (hw : p.word? pos = some w) :
    bytes.drop pos = Word.bytes w ++ bytes.drop (pos + Word.size) := by
  unfold Memory.word? at hw
  split at hw
  · rename_i hin
    rw [Word.size] at hin
    cases hw
    have h0 : pos < p.size := by omega
    have h1 : pos + 1 < p.size := by omega
    have h2 : pos + 2 < p.size := by omega
    have h3 : pos + 3 < p.size := by omega
    rw [Memory.word, Word.bytes_ofBytes, h.drop_cons h0, h.drop_cons h1, h.drop_cons h2, h.drop_cons h3]
    rfl
  · cases hw

theorem word?_congr (hp : p.Spells bytes) (hq : q.Spells bytes) (pos : Nat) : p.word? pos = q.word? pos := by
  unfold Memory.word?
  rw [hp.size, hq.size]
  by_cases hin : pos + Word.size ≤ bytes.length
  · rw [if_pos hin, if_pos hin]
    rw [Word.size] at hin
    have hbyte (k : Nat) (hk : k < bytes.length) : p.byte k = q.byte k := by
      rw [hp.byte (List.getElem?_eq_getElem hk), hq.byte (List.getElem?_eq_getElem hk)]
    rw [Memory.word, Memory.word, hbyte pos (by omega), hbyte (pos + 1) (by omega), hbyte (pos + 2) (by omega),
      hbyte (pos + 3) (by omega)]
  · rw [if_neg hin, if_neg hin]

theorem decode_congr (hp : p.Spells bytes) (hq : q.Spells bytes) (pos : Nat) :
    Instr.decode p pos = Instr.decode q pos := by
  unfold Instr.decode
  rw [hp pos, hq pos, hp.word?_congr hq]

theorem searchEnd_congr (hp : p.Spells bytes) (hq : q.Spells bytes) (start pos : Nat) :
    Machine.searchEnd p start pos = Machine.searchEnd q start pos := by
  fun_induction Machine.searchEnd p start pos with
  | case1 pos hlt e hd =>
    rw [hp.size, ← hq.size] at hlt
    rw [hp.decode_congr hq] at hd
    rw [Machine.searchEnd, if_pos hlt, hd]
  | case2 pos _ hd =>
    rw [hp.decode_congr hq] at hd
    rw [Machine.searchEnd_of_endFunc hd]
  | case3 pos _ i hd hi ih =>
    rw [hp.decode_congr hq] at hd
    rw [Machine.searchEnd_of_other hd hi, ih]
  | case4 pos hlt =>
    rw [hp.size, ← hq.size] at hlt
    rw [Machine.searchEnd, if_neg hlt]

end Memory.Spells

theorem Program.spells_image (program : List UInt8) : (image program).Spells program := by
  intro i
  unfold image Memory.ofBytes Memory.get?
  by_cases hi : i < program.length
  · simp [hi]
  · simp [hi]

/-! ## One instruction -/

namespace Instr

variable {p : Memory} {bytes : List UInt8} {pos : Nat} {i : Instr}

theorem encode_ofParts (op : Opcode) (w : Word) :
    (ofParts op w).encode = op.byte :: if op.hasOperand then Word.bytes w else [] := by
  cases op <;> rfl

/-- **A decoded instruction is spelled by its encoding**: no other bytes are read as it. -/
theorem drop_of_decode (h : p.Spells bytes) (hd : decode p pos = .ok i) :
    bytes.drop pos = i.encode ++ bytes.drop (pos + i.width) := by
  have hcons := h.drop_cons (lt_size_of_decode hd)
  rw [decode_eq] at hd
  split at hd
  · cases hd
  · rename_i b hb
    have hbyte : p.byte pos = b := by
      unfold Memory.get? at hb
      split at hb
      · injection hb
      · cases hb
    split at hd
    · cases hd
    · rename_i op hop
      have hopb : op.byte = b := Opcode.byte_of_ofByte? hop
      rw [hcons, hbyte, ← hopb]
      split at hd
      · rename_i ho
        split at hd
        · cases hd
        · rename_i w hw
          cases hd
          rw [encode_ofParts, if_pos ho, width, opcode_ofParts, Opcode.width, if_pos ho, h.drop_word hw, List.cons_append,
            Nat.add_assoc]
      · rename_i ho
        cases hd
        rw [encode_ofParts, if_neg ho, width, opcode_ofParts, Opcode.width, if_neg ho, List.singleton_append]

theorem end_le_of_decode (h : p.Spells bytes) (hd : decode p pos = .ok i) : pos + i.width ≤ p.size := by
  have hlt := lt_size_of_decode hd
  have hlen := congrArg List.length (drop_of_decode h hd)
  rw [List.length_append, length_encode, List.length_drop, List.length_drop] at hlen
  rw [h.size] at hlt ⊢
  omega

/-- **An instruction that is cut off lacks a part of its operand.** -/
theorem decode_of_cut {n : Nat} (h : p.Spells bytes) (hd : bytes.drop pos = i.encode.take n) (h0 : 0 < n)
    (hn : n < i.width) : decode p pos = .error (.truncatedOperand i.opcode pos) := by
  have ho : i.opcode.hasOperand = true := by
    by_cases ho : i.opcode.hasOperand = true
    · exact ho
    · rw [width, Opcode.width, if_neg ho] at hn
      omega
  have hlen : bytes.length = pos + n := by
    have hl := congrArg List.length hd
    rw [List.length_drop, List.length_take, length_encode] at hl
    omega
  have hbyte : p.get? pos = some i.opcode.byte := by
    have hget : (bytes.drop pos)[0]? = bytes[pos]? := by simp
    rw [h pos, ← hget, hd, List.getElem?_take_of_lt h0]
    rfl
  have hword : p.word? (pos + 1) = none := by
    rw [width, Opcode.width, if_pos ho] at hn
    rw [Memory.word?, if_neg]
    rw [h.size]
    omega
  rw [decode_eq]
  simp only [hbyte, Opcode.ofByte?_byte, ho, if_true, hword]

end Instr

/-! ## Listings -/

namespace Program

theorem length_assemble (code : List Instr) : (assemble code).length = headerSize + width code := by
  rw [assemble, List.length_append, length_encode]
  rfl

theorem assemble_append (code more : List Instr) : assemble (code ++ more) = assemble code ++ encode more := by
  rw [assemble, assemble, encode_append, List.append_assoc]

theorem positions_append (code more : List Instr) : ∀ pos : Nat,
    positions pos (code ++ more) = positions pos code ++ positions (pos + width code) more := by
  induction code with
  | nil => intro pos; rfl
  | cons i code ih =>
    intro pos
    rw [List.cons_append, positions, positions, ih, width, List.cons_append, Nat.add_assoc]

/-- The position of an instruction is the start of the code and the widths before it. -/
theorem getElem?_positions : ∀ (code : List Instr) (pos k : Nat),
    (positions pos code)[k]? = code[k]?.map fun i => (pos + width (code.take k), i)
  | [], _, _ => rfl
  | _ :: _, _, 0 => rfl
  | i :: code, pos, k + 1 => by
    rw [positions, List.getElem?_cons_succ, List.getElem?_cons_succ, getElem?_positions code, List.take_succ_cons, width,
      Nat.add_assoc]

theorem bounds_of_mem_positions : ∀ {code : List Instr} {pos : Nat} {q : Nat × Instr}, q ∈ positions pos code →
    pos ≤ q.1 ∧ q.1 + q.2.width ≤ pos + width code
  | i :: code, pos, q, h => by
    rcases List.mem_cons.1 h with rfl | h
    · exact ⟨Nat.le_refl _, Nat.add_le_add_left (Nat.le_add_right _ _) _⟩
    · obtain ⟨h1, h2⟩ := bounds_of_mem_positions h
      rw [width]
      omega

theorem map_snd_positions : ∀ (code : List Instr) (pos : Nat), (positions pos code).map Prod.snd = code
  | [], _ => rfl
  | i :: code, pos => by rw [positions, List.map_cons, map_snd_positions code]

theorem mem_of_mem_positions {code : List Instr} {pos : Nat} {q : Nat × Instr} (h : q ∈ positions pos code) :
    q.2 ∈ code := by
  rw [← map_snd_positions code pos]
  exact List.mem_map_of_mem h

theorem pairwise_positions : ∀ (code : List Instr) (pos : Nat), (positions pos code).Pairwise fun a b => a.1 < b.1
  | [], _ => .nil
  | i :: code, pos => by
    refine .cons (fun q hq => ?_) (pairwise_positions code _)
    have hle := (bounds_of_mem_positions hq).1
    have hw := i.width_pos
    show pos < q.1
    omega

/-- The instructions that end at or before the end of some code are that code. -/
theorem filter_positions {code : List Instr} {pos k : Nat} (more : List Instr) (hk : k = pos + width code) :
    (positions pos (code ++ more)).filter (fun q => q.1 + q.2.width ≤ k) = positions pos code := by
  have hin : ∀ q ∈ positions pos code, decide (q.1 + q.2.width ≤ k) = true := by
    intro q hq
    rw [decide_eq_true_eq, hk]
    exact (bounds_of_mem_positions hq).2
  have hout : ∀ q ∈ positions (pos + width code) more, ¬ decide (q.1 + q.2.width ≤ k) = true := by
    intro q hq hle
    rw [decide_eq_true_eq] at hle
    have hb := (bounds_of_mem_positions hq).1
    have hw := q.2.width_pos
    omega
  rw [positions_append, List.filter_append, List.filter_eq_self.2 hin, List.filter_eq_nil_iff.2 hout, List.append_nil]

theorem instructions_of_header {program : List UInt8} (hl : headerSize ≤ program.length) :
    instructions program = match ((image program).sweep headerSize).error with
      | none => .ok ((image program).sweep headerSize).code
      | some e => .error e := if_neg (Nat.not_lt.2 hl)

theorem length_le_of_instructions {program : List UInt8} {listing : List (Nat × Instr)}
    (h : instructions program = .ok listing) : headerSize ≤ program.length := by
  unfold instructions at h
  split at h
  · cases h
  · omega

/-- **Encoded code is listed as it is.** -/
theorem instructions_encode {header : List UInt8} (hh : header.length = headerSize) (code : List Instr) :
    instructions (header ++ encode code) = .ok (positions headerSize code) := by
  have ha : Ahead (header ++ encode code) headerSize code := List.drop_left' hh
  rw [instructions_of_header (by rw [List.length_append]; omega), ha.sweep (spells_image _)]

theorem drop_of_sweep {p : Memory} {bytes : List UInt8} (h : p.Spells bytes) (pos : Nat) :
    (p.sweep pos).error = none → bytes.drop pos = encode ((p.sweep pos).code.map Prod.snd) := by
  fun_induction Memory.sweep p pos with
  | case1 => intro he; cases he
  | case2 pos _ i hd rest ih =>
    intro he
    rw [Instr.drop_of_decode h hd, ih he]
    rfl
  | case3 pos hlt =>
    intro _
    rw [h.size] at hlt
    exact List.drop_eq_nil_iff.2 (Nat.le_of_not_lt hlt)

/-- **A listed program is its header and the encoding of its listing.** -/
theorem eq_encode_of_instructions {program : List UInt8} {listing : List (Nat × Instr)}
    (h : instructions program = .ok listing) :
    program = program.take headerSize ++ encode (listing.map Prod.snd) := by
  rw [instructions_of_header (length_le_of_instructions h)] at h
  cases he : ((image program).sweep headerSize).error with
  | some e => rw [he] at h; cases h
  | none =>
    rw [he] at h
    cases h
    rw [← drop_of_sweep (spells_image program) headerSize he, List.take_append_drop]

/-! ## Cut programs -/

/-- Where an instruction of the code of a program begins or ends. -/
def Boundary (code : List Instr) (k : Nat) : Prop := ∃ pre post, code = pre ++ post ∧ k = headerSize + width pre

/-- A place in code is between two instructions or inside of one. -/
theorem cut_code : ∀ (code : List Instr) (n : Nat), n ≤ width code →
    (∃ pre post, code = pre ++ post ∧ n = width pre) ∨
      ∃ pre i post, code = pre ++ i :: post ∧ width pre < n ∧ n < width pre + i.width
  | [], n, h => .inl ⟨[], [], rfl, Nat.le_zero.1 h⟩
  | i :: code, n, h => by
    rw [width] at h
    by_cases hn : n < i.width
    · by_cases h0 : n = 0
      · exact .inl ⟨[], i :: code, rfl, h0⟩
      · exact .inr ⟨[], i, code, rfl, by simp only [width]; omega, by simp only [width]; omega⟩
    · rcases cut_code code (n - i.width) (by omega) with ⟨pre, post, rfl, hw⟩ | ⟨pre, j, post, rfl, h1, h2⟩
      · exact .inl ⟨i :: pre, post, rfl, by rw [width]; omega⟩
      · exact .inr ⟨i :: pre, j, post, rfl, by rw [width]; omega, by rw [width]; omega⟩

theorem take_encode_cons {i : Instr} {n : Nat} (hn : n ≤ i.width) (code : List Instr) :
    (encode (i :: code)).take n = i.encode.take n := by
  show (i.encode ++ encode code).take n = _
  rw [List.take_append_of_le_length (by rw [Instr.length_encode]; exact hn)]

section
variable {header : List UInt8} (hh : header.length = headerSize)
include hh

theorem take_encode {pre post : List Instr} {k n : Nat} (hk : k = headerSize + (width pre + n)) :
    (header ++ encode (pre ++ post)).take k = header ++ (encode pre ++ (encode post).take n) := by
  have hpre : (header ++ encode pre).length = headerSize + width pre := by rw [List.length_append, length_encode, hh]
  rw [encode_append, ← List.append_assoc, hk, ← Nat.add_assoc, ← hpre, List.take_length_add_append, List.append_assoc]

theorem instructions_of_boundary {code : List Instr} {k : Nat} (hb : Boundary code k) :
    instructions ((header ++ encode code).take k) =
      .ok ((positions headerSize code).filter fun q => q.1 + q.2.width ≤ k) := by
  obtain ⟨pre, post, rfl, hk⟩ := hb
  rw [take_encode hh (n := 0) hk, List.take_zero, List.append_nil, instructions_encode hh, filter_positions post hk]

theorem instructions_of_cut {pre post : List Instr} {i : Instr} {k : Nat} (h1 : headerSize + width pre < k)
    (h2 : k < headerSize + width pre + i.width) :
    instructions ((header ++ encode (pre ++ i :: post)).take k) =
      .error (.truncatedOperand i.opcode (headerSize + width pre)) := by
  obtain ⟨n, rfl⟩ : ∃ n, k = headerSize + (width pre + n) := ⟨k - (headerSize + width pre), by omega⟩
  rw [take_encode hh rfl, take_encode_cons (by omega)]
  have hsp := spells_image (header ++ (encode pre ++ i.encode.take n))
  have hdrop : (header ++ (encode pre ++ i.encode.take n)).drop headerSize = encode pre ++ i.encode.take n :=
    List.drop_left' hh
  have hcut := Instr.decode_of_cut hsp (by rw [← List.drop_drop, hdrop, List.drop_left' (length_encode pre)])
    (by omega) (by omega : n < i.width)
  -- the sweep goes over what is whole and stops at the instruction that is not
  have hlt : headerSize + width pre < (image (header ++ (encode pre ++ i.encode.take n))).size := by
    rw [hsp.size, List.length_append, List.length_append, length_encode, List.length_take, Instr.length_encode, hh]
    omega
  have hstop : (image (header ++ (encode pre ++ i.encode.take n))).sweep (headerSize + width pre) =
      ⟨[], some (.truncatedOperand i.opcode (headerSize + width pre))⟩ := by rw [Memory.sweep, if_pos hlt, hcut]
  rw [instructions_of_header (by rw [List.length_append, hh]; exact Nat.le_add_right _ _), sweep_of_encode hsp _ pre hdrop,
    hstop]

end

/-- **Reading and writing programs undo each other.**  Encoded code behind any header is listed with the positions that
the widths before each instruction give; a program that can be listed is its header and the encoding of its listing; and
encoded code cut off behind `k` bytes is listed up to there if that is a boundary or past the end, and else fails at the
instruction that was cut, for want of its operand. -/
theorem instructions_encode_inverse :
    (∀ (header : List UInt8) (code : List Instr), header.length = headerSize → ∃ listing,
      instructions (header ++ encode code) = .ok listing ∧
        ∀ k, listing[k]? = code[k]?.map fun i => (headerSize + width (code.take k), i)) ∧
    (∀ (program : List UInt8) (listing : List (Nat × Instr)), instructions program = .ok listing →
      headerSize ≤ program.length ∧ program = program.take headerSize ++ encode (listing.map Prod.snd)) ∧
    ∀ (header : List UInt8) (code : List Instr) (listing : List (Nat × Instr)) (k : Nat), header.length = headerSize →
      instructions (header ++ encode code) = .ok listing → headerSize ≤ k →
        (Boundary code k ∨ (header ++ encode code).length < k → instructions ((header ++ encode code).take k) =
          .ok (listing.filter fun q => q.1 + q.2.width ≤ k)) ∧
        (¬ (Boundary code k ∨ (header ++ encode code).length < k) → ∃ pos i, (pos, i) ∈ listing ∧ pos < k ∧
          k < pos + i.width ∧ instructions ((header ++ encode code).take k) = .error (.truncatedOperand i.opcode pos)) := by
  refine ⟨fun header code hh => ⟨_, instructions_encode hh code, getElem?_positions code headerSize⟩,
    fun program listing h => ⟨length_le_of_instructions h, eq_encode_of_instructions h⟩,
    fun header code listing k hh hl hk => ?_⟩
  rw [instructions_encode hh] at hl
  cases hl
  have hlen : (header ++ encode code).length = headerSize + width code := by rw [List.length_append, length_encode, hh]
  refine ⟨fun hb => ?_, fun hb => ?_⟩
  · rcases hb with hb | hb
    · exact instructions_of_boundary hh hb
    · have hall : ∀ q ∈ positions headerSize code, decide (q.1 + q.2.width ≤ k) = true := by
        intro q hq
        have hq := (bounds_of_mem_positions hq).2
        rw [decide_eq_true_eq]
        omega
      rw [List.take_of_length_le (Nat.le_of_lt hb), instructions_encode hh, List.filter_eq_self.2 hall]
  · have hle : k ≤ (header ++ encode code).length := Nat.le_of_not_lt fun hlt => hb (.inr hlt)
    rcases cut_code code (k - headerSize) (by omega) with ⟨pre, post, hc, hw⟩ | ⟨pre, i, post, rfl, h1, h2⟩
    · exact absurd (.inl ⟨pre, post, hc, by omega⟩) hb
    · refine ⟨headerSize + width pre, i, ?_, by omega, by omega, instructions_of_cut hh (by omega) (by omega)⟩
      rw [positions_append]
      exact List.mem_append_right _ List.mem_cons_self

/-- An operand that is cut off behind its first byte. -/
theorem instructions_of_cut_push :
    instructions ([9, 9, 9, 9] ++ encode [.halt, .pushImm 7]) = .ok [(4, .halt), (5, .pushImm 7)] ∧
      instructions (([9, 9, 9, 9] ++ encode [.halt, .pushImm 7]).take 7) = .error (.truncatedOperand .pushImm 5) := by
  have hl : instructions ([9, 9, 9, 9] ++ encode [.halt, .pushImm 7]) = .ok [(4, .halt), (5, .pushImm 7)] :=
    instructions_encode rfl _
  have hb : ¬ (Boundary [.halt, .pushImm 7] 7 ∨ ([9, 9, 9, 9] ++ encode [.halt, .pushImm 7]).length < 7) := by
    rintro (⟨pre, post, hc, hk⟩ | hlt)
    · rcases pre with _ | ⟨i, _ | ⟨j, pre⟩⟩
      · cases hk
      · cases hc
        cases hk
      · simp only [List.cons_append, List.cons.injEq] at hc
        obtain ⟨rfl, rfl, -⟩ := hc
        have hw : width (.halt :: .pushImm 7 :: pre) = 1 + (5 + width pre) := rfl
        have hs : headerSize = 4 := rfl
        omega
    · exact absurd hlt (by decide)
  obtain ⟨pos, i, hm, h1, h2, he⟩ := (instructions_encode_inverse.2.2 _ _ _ 7 rfl hl (by decide)).2 hb
  simp only [List.mem_cons, Prod.mk.injEq, List.not_mem_nil, or_false] at hm
  rcases hm with ⟨rfl, rfl⟩ | ⟨rfl, rfl⟩
  · exact absurd h2 (by decide)
  · exact ⟨hl, he⟩

end Program
end Autoscript
