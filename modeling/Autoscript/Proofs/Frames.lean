import Autoscript.Proofs.Simulation
/-!
# Frames — what is set up is dropped without a trace

A frame saves the base pointer of the frame around it in a word of the memory, like any other.  Nothing that goes on inside
of the frame touches that word: its variables are below it, what is pushed is below the variables, and a frame inside of it
is below that again (`framed_of_within`).  So dropping the frame cannot fail and leaves both pointers, and all bytes above
the stack pointer, as they were before (`frame_restored`).
-/
namespace Autoscript.Stack

open Machine (Fault bind_ok)

/-! ## Operations that succeed -/

section
variable {s t : Stack} {o : Int32} {w : Word}

theorem push_ok (h : push w s = .ok () t) :
    s.floor + 4 ≤ s.sp ∧ t = ⟨s.memory.setWord (s.sp - 4) w, s.sp - 4, s.bp, s.floor⟩ := by
  unfold push at h
  split at h
  · cases h
  · rename_i hroom
    cases h
    exact ⟨Nat.le_of_not_lt hroom, rfl⟩

theorem pop_ok (h : pop s = .ok w t) :
    s.sp + 4 ≤ s.memory.size ∧ w = s.memory.word s.sp ∧ t = ⟨s.memory, s.sp + 4, s.bp, s.floor⟩ := by
  unfold pop Memory.word? at h
  split at h
  · cases h
  · rename_i hw
    cases h
    split at hw
    · cases hw
      exact ⟨by assumption, rfl, rfl⟩
    · cases hw

theorem read_ok (h : read o s = .ok w t) : t = s := by
  unfold read at h
  split at h <;> cases h
  rfl

theorem write_ok (h : write o w s = .ok () t) :
    ∃ pos, s.address? o = some pos ∧ t = ⟨s.memory.setWord pos w, s.sp, s.bp, s.floor⟩ := by
  unfold write at h
  split at h
  · cases h
  · rename_i pos ha
    cases h
    exact ⟨pos, ha, rfl⟩

/-- **A frame that is set up**: its base is below the stack pointer by the word that saves the base pointer. -/
theorem setupFrame_ok {size : Int32} (h : setupFrame size s = .ok () t) : ∃ n : Nat, size.toInt = n ∧
    s.floor + 4 + n ≤ s.sp ∧
    t = ⟨s.memory.setWord (s.sp - 4) (UInt32.ofNat s.bp), s.sp - 4 - n, s.sp - 4, s.floor⟩ := by
  unfold setupFrame at h
  split at h
  · cases h
  · rename_i hsize
    obtain ⟨_, _, hget, h⟩ := bind_ok h
    obtain ⟨_, a, hpush, h⟩ := bind_ok h
    obtain ⟨_, _, hbase, h⟩ := bind_ok h
    cases hget
    cases hbase
    obtain ⟨hroom, rfl⟩ := push_ok hpush
    refine ⟨size.toInt.toNat, by omega, ?_⟩
    unfold reserve at h
    split at h
    · rename_i hle
      cases h
      exact ⟨by simp only at hle; omega, rfl⟩
    · cases h

end

/-! ## Inside of a frame -/

/-- **A stack that a frame can be set up on**: addresses fit in a word, and both pointers lie between the end of the program
and that of the memory. -/
structure Bounded (s : Stack) : Prop where
  size : s.memory.size < 0x100000000
  sp_low : s.floor ≤ s.sp
  sp_high : s.sp ≤ s.memory.size
  bp_low : s.floor ≤ s.bp
  bp_high : s.bp ≤ s.memory.size

/-- **What goes on in a frame** of a size, whose variables end at `top`: words are pushed, and popped no further than to
the variables; variables of the frame are written, and anything is read; frames are set up and dropped. -/
inductive Within : (top : Nat) → (size : Int32) → Stack → Stack → Prop where
  | start (top : Nat) (size : Int32) (s : Stack) : Within top size s s
  | push {top : Nat} {size : Int32} {s t u : Stack} {w : Word} : Within top size s t → push w t = .ok () u →
      Within top size s u
  | pop {top : Nat} {size : Int32} {s t u : Stack} {w : Word} : Within top size s t → pop t = .ok w u → u.sp ≤ top →
      Within top size s u
  | read {top : Nat} {size : Int32} {s t u : Stack} {o : Int32} {w : Word} : Within top size s t → read o t = .ok w u →
      Within top size s u
  | write {top : Nat} {size : Int32} {s t u : Stack} {o : Int32} {w : Word} : Within top size s t → 4 ≤ o.toInt →
      o.toInt ≤ size.toInt → write o w t = .ok () u → Within top size s u
  | frame {top : Nat} {size : Int32} {s t u v x : Stack} {n : Int32} : Within top size s t → setupFrame n t = .ok () u →
      Within u.sp n u v → popFrame v = .ok () x → Within top size s x

/-- **A stack inside of a frame** that began as `s`: the base is that of the frame, and what is above it is unchanged. -/
structure Framed (s t : Stack) : Prop where
  floor : t.floor = s.floor
  size : t.memory.size = s.memory.size
  bp : t.bp = s.bp
  sp_low : s.floor ≤ t.sp
  sp_high : t.sp ≤ s.sp
  above : ∀ i, s.bp ≤ i → t.memory.byte i = s.memory.byte i

section
variable {s t u : Stack} {size : Int32}

theorem Framed.refl (h : s.floor ≤ s.sp) : Framed s s := ⟨rfl, rfl, rfl, h, Nat.le_refl _, fun _ _ => rfl⟩

theorem Framed.bounded (hs : s.Bounded) (h : Framed s t) : t.Bounded where
  size := h.size ▸ hs.size
  sp_low := h.floor ▸ h.sp_low
  sp_high := h.size ▸ Nat.le_trans h.sp_high hs.sp_high
  bp_low := h.floor ▸ h.bp ▸ hs.bp_low
  bp_high := h.size ▸ h.bp ▸ hs.bp_high

theorem Bounded.lowest (h : s.Bounded) : s.lowest = s.floor := by
  have hsize := h.size
  have hlow := h.sp_low
  have hhigh := h.sp_high
  exact if_pos (by omega)

theorem bounded_of_setupFrame (hs : s.Bounded) (h : setupFrame size s = .ok () t) : t.Bounded := by
  obtain ⟨n, -, hroom, rfl⟩ := setupFrame_ok h
  obtain ⟨hsize, -, hhigh, -, -⟩ := hs
  refine ⟨hsize, ?_, ?_, ?_, ?_⟩ <;> simp only [Memory.size_setWord] <;> omega

/-- The word that saves the base pointer lies above the base of the frame, so that it is still there at the end. -/
theorem word_of_framed (h : setupFrame size s = .ok () t) (hf : Framed t u) : u.memory.word u.bp = UInt32.ofNat s.bp := by
  have hword : u.memory.word u.bp = t.memory.word t.bp := by
    have hbyte (k : Nat) : u.memory.byte (t.bp + k) = t.memory.byte (t.bp + k) := hf.above _ (Nat.le_add_right _ _)
    have h0 : u.memory.byte t.bp = t.memory.byte t.bp := hbyte 0
    rw [hf.bp, Memory.word, Memory.word, h0, hbyte 1, hbyte 2, hbyte 3]
  obtain ⟨n, -, -, rfl⟩ := setupFrame_ok h
  rw [hword]
  exact Memory.word_setWord _ _ _

/-- **Dropping a frame** goes back to the pointers before it. -/
theorem popFrame_of_framed (hs : s.Bounded) (h : setupFrame size s = .ok () t) (hf : Framed t u) :
    popFrame u = .ok () ⟨u.memory, s.sp, s.bp, s.floor⟩ := by
  have hword := word_of_framed h hf
  obtain ⟨n, -, hroom, rfl⟩ := setupFrame_ok h
  obtain ⟨hfloor, hsize, hbp, -, -, -⟩ := hf
  obtain ⟨hmax, -, hhigh, hlow, hbase⟩ := hs
  simp only [Memory.size_setWord] at hfloor hsize hbp
  have hin : u.bp + 4 ≤ u.memory.size := by omega
  have hpop : pop { u with sp := u.bp } = .ok (UInt32.ofNat s.bp) ⟨u.memory, s.sp, u.bp, s.floor⟩ := by
    have hsp : u.bp + 4 = s.sp := by omega
    have hread : u.memory.word? u.bp = some (UInt32.ofNat s.bp) := (if_pos hin).trans (by rw [hword])
    simp only [pop, hread, Word.size, hsp, hfloor]
  have hsaved : (UInt32.ofNat s.bp).toNat = s.bp := UInt32.toNat_ofNat_of_lt' (Nat.lt_of_le_of_lt hbase hmax)
  have hrestore : restore s.bp ⟨u.memory, s.sp, u.bp, s.floor⟩ = .ok () ⟨u.memory, s.sp, s.bp, s.floor⟩ :=
    if_neg (by simp only; omega)
  rw [popFrame]
  refine (Machine.bind_of_ok rfl).trans ((Machine.bind_of_ok hpop).trans ?_)
  rw [hsaved]
  exact hrestore

/-- Setting up a frame and dropping it leaves what is above the stack pointer. -/
theorem byte_of_framed (h : setupFrame size s = .ok () t) (hf : Framed t u) {i : Nat} (hi : s.sp ≤ i) :
    u.memory.byte i = s.memory.byte i := by
  obtain ⟨n, -, hroom, rfl⟩ := setupFrame_ok h
  rw [hf.above i (by simp only; omega)]
  exact Memory.byte_setWord_of_outside _ _ _ _ (.inr (by rw [Word.size]; omega))

/-- The frame's variables take the bytes from the stack pointer up to the base. -/
def Reserved (size : Int32) (s : Stack) : Prop := (s.sp : Int) + size.toInt = s.bp ∧ 0 ≤ size.toInt

theorem reserved_of_setupFrame (h : setupFrame size s = .ok () t) : Reserved size t := by
  obtain ⟨n, hn, hroom, rfl⟩ := setupFrame_ok h
  exact ⟨by simp only; omega, by omega⟩

/-- The position of a variable of the frame. -/
theorem address_of_framed (hs : s.Bounded) (hr : Reserved size s) (hf : Framed s t) {o : Int32} (hlow : 4 ≤ o.toInt)
    (hhigh : o.toInt ≤ size.toInt) : ∃ pos : Nat, (pos : Int) = s.bp - o.toInt ∧ t.address? o = some pos := by
  have hbp := hf.bp
  have hsize := hf.size
  have hfloor := hf.floor
  have hlowest := (hf.bounded hs).lowest
  obtain ⟨hbelow, -⟩ := hr
  obtain ⟨-, hsp, -, -, hbase⟩ := hs
  refine ⟨((s.bp : Int) - o.toInt).toNat, by omega, ?_⟩
  simp only [address?, hlowest, hbp, hsize, hfloor, Word.size]
  exact if_neg (by omega)

theorem Framed.push {w : Word} (hr : Reserved size s) (hf : Framed s t) (h : push w t = .ok () u) : Framed s u := by
  obtain ⟨hroom, rfl⟩ := push_ok h
  obtain ⟨hbelow, hpos⟩ := hr
  obtain ⟨hfloor, hsize, hbp, hlow, hhigh, habove⟩ := hf
  refine ⟨hfloor, hsize, hbp, by simp only; omega, by simp only; omega, fun i hi => ?_⟩
  rw [← habove i hi]
  exact Memory.byte_setWord_of_outside _ _ _ _ (.inr (by rw [Word.size]; omega))

theorem Framed.pop {w : Word} (hf : Framed s t) (h : pop t = .ok w u) (htop : u.sp ≤ s.sp) : Framed s u := by
  obtain ⟨-, -, rfl⟩ := pop_ok h
  exact ⟨hf.floor, hf.size, hf.bp, Nat.le_trans hf.sp_low (Nat.le_add_right _ _), htop, hf.above⟩

theorem Framed.write {o : Int32} {w : Word} (hs : s.Bounded) (hr : Reserved size s) (hf : Framed s t)
    (hlow : 4 ≤ o.toInt) (hhigh : o.toInt ≤ size.toInt) (h : write o w t = .ok () u) : Framed s u := by
  obtain ⟨pos, ha, rfl⟩ := write_ok h
  obtain ⟨pos', hpos, ha'⟩ := address_of_framed hs hr hf hlow hhigh
  cases ha.symm.trans ha'
  refine ⟨hf.floor, hf.size, hf.bp, hf.sp_low, hf.sp_high, fun i hi => ?_⟩
  rw [← hf.above i hi]
  exact Memory.byte_setWord_of_outside _ _ _ _ (.inr (by rw [Word.size]; omega))

/-- A frame inside of the frame. -/
theorem Framed.frame {a b : Stack} {n : Int32} (hs : s.Bounded) (hr : Reserved size s) (hf : Framed s t)
    (h : setupFrame n t = .ok () a) (hin : Framed a b) (hpop : popFrame b = .ok () u) : Framed s u := by
  cases (popFrame_of_framed (hf.bounded hs) h hin).symm.trans hpop
  have hsize : b.memory.size = s.memory.size := by
    rw [hin.size, ← hf.size]
    obtain ⟨_, -, -, rfl⟩ := setupFrame_ok h
    rfl
  refine ⟨hf.floor, hsize, hf.bp, hf.sp_low, hf.sp_high, fun i hi => ?_⟩
  have hsp : t.sp ≤ i := by
    have htop := hf.sp_high
    obtain ⟨hbelow, hpos⟩ := hr
    omega
  exact (byte_of_framed h hin hsp).trans (hf.above i hi)

/-- **Whatever goes on in a frame, what is above its base stays.** -/
theorem framed_of_within {top : Nat} (h : Within top size s t) : s.Bounded → Reserved size s → s.sp = top → Framed s t := by
  induction h with
  | start => exact fun hs _ _ => .refl hs.sp_low
  | push _ hpush ih => exact fun hs hr htop => (ih hs hr htop).push hr hpush
  | pop _ hpop hle ih => exact fun hs hr htop => (ih hs hr htop).pop hpop (htop ▸ hle)
  | read _ hread ih =>
    cases read_ok hread
    exact ih
  | write _ hlow hhigh hwrite ih => exact fun hs hr htop => (ih hs hr htop).write hs hr hlow hhigh hwrite
  | frame _ hsetup _ hpop ih ihin =>
    intro hs hr htop
    have hf := ih hs hr htop
    have hinner := ihin (bounded_of_setupFrame (hf.bounded hs) hsetup) (reserved_of_setupFrame hsetup) rfl
    exact hf.frame hs hr hsetup hinner hpop

end

/-! ## Variables of a frame -/

/-- What reading a variable gives. -/
def valueAt (s : Stack) (o : Int32) : Except Fault Word :=
  match read o s with
  | .ok w _ => .ok w
  | .error f _ => .error f

theorem valueAt_eq (s : Stack) (o : Int32) : valueAt s o =
    match s.address? o with
    | none => .error (.outOfBounds o s.bp)
    | some pos => .ok (s.memory.word pos) := by
  unfold valueAt read
  cases s.address? o <;> rfl

theorem address_cast {s : Stack} {o : Int32} {pos : Nat} (h : s.address? o = some pos) : (pos : Int) = s.bp - o.toInt := by
  simp only [address?] at h
  split at h
  · cases h
  · cases h
    omega

/-- **A variable that is written** has its new value, and the others that share no byte with it keep theirs. -/
theorem valueAt_write {s : Stack} {o : Int32} {pos : Nat} (ha : s.address? o = some pos) (w : Word) :
    ∃ t, write o w s = .ok () t ∧ valueAt t o = .ok w ∧
      ∀ o' : Int32, 4 ≤ (o.toInt - o'.toInt).natAbs → valueAt t o' = valueAt s o' := by
  have haddress (o' : Int32) : address? { s with memory := s.memory.setWord pos w } o' = s.address? o' := rfl
  refine ⟨{ s with memory := s.memory.setWord pos w }, by simp only [write, ha], ?_, fun o' hfar => ?_⟩
  · rw [valueAt_eq, haddress, ha]
    simp only [Memory.word_setWord]
  · rw [valueAt_eq, valueAt_eq, haddress]
    cases ha' : s.address? o' with
    | none => rfl
    | some pos' =>
      have hpos := address_cast ha
      have hpos' := address_cast ha'
      have hout : pos' + Word.size ≤ pos ∨ pos + Word.size ≤ pos' := by
        rw [Word.size]
        omega
      simp only [Memory.word_setWord_of_outside hout]

/-- **Frames nest and restore.**  After anything that goes on in a frame, dropping it succeeds: both pointers are back and
the bytes at and above the stack pointer are as they were.  Meanwhile a variable of the frame can always be written; it
then has its new value, and no variable that lies a word apart has changed.  The stack stays one that a frame can be set
up on, so that all of this holds of the frames inside as well. -/
theorem frame_restored {s t u : Stack} {size : Int32} (hs : s.Bounded) (hsetup : setupFrame size s = .ok () t)
    (hbody : Within t.sp size t u) :
    u.Bounded ∧
    (∃ v, popFrame u = .ok () v ∧ v.sp = s.sp ∧ v.bp = s.bp ∧ v.floor = s.floor ∧ v.memory.size = s.memory.size ∧
      ∀ i, s.sp ≤ i → v.memory.byte i = s.memory.byte i) ∧
    ∀ (o : Int32) (w : Word), 4 ≤ o.toInt → o.toInt ≤ size.toInt → ∃ v, write o w u = .ok () v ∧ valueAt v o = .ok w ∧
      ∀ o' : Int32, 4 ≤ (o.toInt - o'.toInt).natAbs → valueAt v o' = valueAt u o' := by
  have ht := bounded_of_setupFrame hs hsetup
  have hr := reserved_of_setupFrame hsetup
  have hf := framed_of_within hbody ht hr rfl
  have hsize : t.memory.size = s.memory.size := by
    obtain ⟨_, -, -, rfl⟩ := setupFrame_ok hsetup
    rfl
  refine ⟨hf.bounded ht, ⟨_, popFrame_of_framed hs hsetup hf, rfl, rfl, rfl, hf.size.trans hsize, ?_⟩, ?_⟩
  · exact fun i hi => byte_of_framed hsetup hf hi
  · intro o w hlow hhigh
    obtain ⟨pos, -, ha⟩ := address_of_framed ht hr hf hlow hhigh
    exact valueAt_write ha w

/-- A variable is written, a word pushed, and a frame inside writes a variable of its own before the word is popped. -/
theorem frame_restored_around_another : ∃ t u v, setupFrame 8 (.ofMemory (.zeros 64) 8) = .ok () t ∧ Within t.sp 8 t u ∧
    valueAt u 4 = .ok 42 ∧ popFrame u = .ok () v ∧ v.sp = 64 ∧ v.bp = 64 := by
  have hs : Bounded (.ofMemory (.zeros 64) 8) := ⟨by decide, by decide, by decide, by decide, by decide⟩
  obtain ⟨t, hsetup, ht⟩ : ∃ t, setupFrame 8 (.ofMemory (.zeros 64) 8) = .ok () t ∧
      ∃ u, Within t.sp 8 t u ∧ valueAt u 4 = .ok 42 := by
    refine ⟨_, rfl, _, .pop (w := 7) (.frame (n := 4) (.push (w := 7) (.write (o := 4) (w := 42) (.start _ _ _) ?_ ?_ rfl)
      rfl) rfl (.write (o := 4) (w := 9) (.start _ _ _) ?_ ?_ rfl) rfl) rfl ?_, rfl⟩
    all_goals decide
  obtain ⟨u, hbody, hvalue⟩ := ht
  obtain ⟨-, ⟨v, hpop, hsp, hbp, -⟩, -⟩ := frame_restored hs hsetup hbody
  exact ⟨t, u, v, hsetup, hbody, hvalue, hpop, hsp, hbp⟩

end Autoscript.Stack
