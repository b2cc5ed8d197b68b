import Autoscript.Command.Files
import Mathlib.Data.List.TakeWhile
/-!
# Tree — writing one file

A file is written where there is a file already or nothing at all, so no directory goes away and every path still leads
where it led.  What was written reads back (`read_write`), and all other files read as before (`read_of_write`); a path
leads to another file if its name is another one, for there are no links.
-/
namespace Autoscript

/-! ## Names -/

/-- The name that a path ends with is the name of its file. -/
theorem Path.fileName?_of_parts {path : String} (h : (parts path).last ∉ ["", ".", ".."]) :
    fileName? path = some (parts path).last := by
  unfold parts at h ⊢
  simp only at h ⊢
  cases hd : (components path).reverse.dropWhile (· = "") with
  | nil => simp [hd] at h
  | cons last way =>
    rw [hd] at h
    simp only [List.mem_cons, List.not_mem_nil, or_false, not_or] at h
    obtain ⟨hempty, hdot, hdots⟩ := h
    have hblank : ((components path).reverse.takeWhile (· = "")).filter (fun c => c ≠ "" ∧ c ≠ ".") = [] :=
      List.filter_eq_nil_iff.2 fun c hc => by
        have hc : c = "" := by simpa using List.mem_takeWhile_imp hc
        simp [hc]
    have hsplit := List.takeWhile_append_dropWhile (p := (· = "")) (l := (components path).reverse)
    rw [hd] at hsplit
    have hlast : ((components path).filter fun c => c ≠ "" ∧ c ≠ ".").getLast? = some last := by
      rw [← List.head?_reverse, ← List.filter_reverse, ← hsplit, List.filter_append, hblank]
      simp [hempty, hdot]
    rw [fileName?, hlast]
    simp [hdots]

namespace Files

/-- **What a path that leads to a name was checked for**: it has that name, and leads through directories to its place. -/
theorem locate_named {fs : Files} {path name : String} {place : List String} {slash : Bool}
    (h : fs.locate path = .ok (.named place name slash)) :
    Path.fileName? path = some name ∧
      ∃ first way, fs.follow first way = .ok place ∧
        ∀ fs' : Files, fs'.home = fs.home → fs'.follow first way = .ok place → fs'.locate path = .ok (.named place name slash) := by
  unfold locate at h
  split at h
  · cases h
  · rename_i hzero
    split at h
    · cases h
    · rename_i hempty
      split at h
      · cases h
      · rename_i hlong
        simp only at h
        split at h
        · cases h
        · rename_i found hfollow
          split at h
          · cases h
          · rename_i hlast
            cases h
            refine ⟨Path.fileName?_of_parts hlast, _, _, hfollow, fun fs' hhome hfollow' => ?_⟩
            simp only [locate, hzero, hempty, hlong, if_false, hhome, hfollow', hlast]

/-! ## One node more -/

theorem lookup_filter_ne {α β : Type} [BEq α] [LawfulBEq α] [DecidableEq α] {x y : α} (h : x ≠ y) : ∀ l : List (α × β),
    (l.filter fun p => p.1 ≠ y).lookup x = l.lookup x
  | [] => rfl
  | (z, b) :: l => by
    have ih := lookup_filter_ne h l
    by_cases hz : z = y
    · have hx : (x == z) = false := by simpa [hz] using h
      rw [List.filter_cons_of_neg (by simp [hz]), List.lookup_cons, hx, ih]
    · rw [List.filter_cons_of_pos (by simp [hz]), List.lookup_cons, List.lookup_cons, ih]

section
variable {fs : Files} {spot : List String}

theorem get?_put_of_ne (node : Node) {place : List String} (h : place ≠ spot) : (fs.put spot node).get? place = fs.get? place := by
  have hl : (place == spot) = false := by simpa using h
  unfold get? put
  rw [List.lookup_cons, hl, lookup_filter_ne h]

theorem get?_put_self (node : Node) (h : fs.get? spot ≠ some .directory) : (fs.put spot node).get? spot = some node := by
  have hhome : ¬ spot.isPrefixOf fs.home = true := fun hp => h (if_pos hp)
  unfold get? put
  rw [if_neg hhome, List.lookup_cons_self]

/-- **Where a path leads through directories, it leads with a file more.** -/
theorem follow_put (h : fs.get? spot ≠ some .directory) (bytes : List UInt8) : ∀ {way first place : List String},
    fs.follow first way = .ok place → (fs.put spot (.file bytes)).follow first way = .ok place
  | [], _, _, hf => hf
  | c :: way, first, place, hf => by
    rw [follow] at hf ⊢
    split at hf
    · rename_i hc
      rw [if_pos hc]
      exact follow_put h bytes hf
    · rename_i hc
      rw [if_neg hc]
      split at hf
      · rename_i hc
        rw [if_pos hc]
        exact follow_put h bytes hf
      · rename_i hc
        rw [if_neg hc]
        split at hf
        · cases hf
        · cases hf
        · cases hf
        · rename_i he
          have hne : first ++ [c] ≠ spot := by
            rintro rfl
            unfold entry at he
            split at he
            · cases he
            · injection he with he
              exact h he
          have he' : (fs.put spot (.file bytes)).entry first c = .ok (some .directory) := by
            rw [← he, entry, entry, get?_put_of_ne _ hne]
          rw [he']
          exact follow_put h bytes hf

theorem locate_put (h : fs.get? spot ≠ some .directory) (bytes : List UInt8) {path name : String} {place : List String}
    {slash : Bool} (hl : fs.locate path = .ok (.named place name slash)) :
    (fs.put spot (.file bytes)).locate path = .ok (.named place name slash) := by
  obtain ⟨-, first, way, hfollow, hlocate⟩ := locate_named hl
  exact hlocate _ rfl (follow_put h bytes hfollow)

end

/-! ## Reading and writing -/

theorem entry_ok {fs : Files} {place : List String} {name : String} {node : Option Node} (h : fs.entry place name = .ok node) :
    ¬ maxName < name.utf8ByteSize ∧ fs.get? (place ++ [name]) = node := by
  unfold entry at h
  split at h
  · cases h
  · rename_i hshort
    exact ⟨hshort, by injection h⟩

/-- **A file that can be read has a short name and stands at its place.** -/
theorem read_ok_iff {fs : Files} {path : String} {bytes : List UInt8} : fs.read path = .ok bytes ↔
    ∃ place name, fs.locate path = .ok (.named place name false) ∧ ¬ maxName < name.utf8ByteSize ∧
      fs.get? (place ++ [name]) = some (.file bytes) := by
  constructor
  · intro h
    unfold read at h
    split at h
    · cases h
    · cases h
    · rename_i place name slash hlocate
      split at h
      · cases h
      · cases h
      · cases h
      · rename_i found hentry
        split at h
        · cases h
        · rename_i hslash
          obtain ⟨hshort, hget⟩ := entry_ok hentry
          cases h
          rw [Bool.not_eq_true] at hslash
          exact ⟨place, name, hslash ▸ hlocate, hshort, hget⟩
  · rintro ⟨place, name, hlocate, hshort, hget⟩
    simp only [read, hlocate, entry, if_neg hshort, hget, Bool.false_eq_true, if_false]

theorem write_ok {fs fs' : Files} {path : String} {bytes : List UInt8} (h : fs.write path bytes = .ok fs') :
    ∃ place name, fs.locate path = .ok (.named place name false) ∧ ¬ maxName < name.utf8ByteSize ∧
      fs.get? (place ++ [name]) ≠ some .directory ∧ fs' = fs.put (place ++ [name]) (.file bytes) := by
  unfold write at h
  split at h
  · cases h
  · cases h
  · rename_i place name slash hlocate
    split at h
    · cases h
    · rename_i hslash
      rw [Bool.not_eq_true] at hslash
      split at h
      · cases h
      · cases h
      · rename_i node hdir hentry
        obtain ⟨hshort, hget⟩ := entry_ok hentry
        injection h with h
        refine ⟨place, name, hslash ▸ hlocate, hshort, ?_, h.symm⟩
        rw [hget]
        exact hdir

/-- **What was written reads back.** -/
theorem read_write {fs fs' : Files} {path : String} {bytes : List UInt8} (h : fs.write path bytes = .ok fs') :
    fs'.read path = .ok bytes := by
  obtain ⟨place, name, hlocate, hshort, hget, rfl⟩ := write_ok h
  exact read_ok_iff.2 ⟨place, name, locate_put hget bytes hlocate, hshort, get?_put_self _ hget⟩

/-- **A file of another name reads as before.** -/
theorem read_of_write {fs fs' : Files} {path other : String} {bytes content : List UInt8} (h : fs.write path bytes = .ok fs')
    (hname : Path.fileName? other ≠ Path.fileName? path) (hr : fs.read other = .ok content) : fs'.read other = .ok content := by
  obtain ⟨place, name, hlocate, -, hget, rfl⟩ := write_ok h
  obtain ⟨place', name', hlocate', hshort, hget'⟩ := read_ok_iff.1 hr
  have hne : place' ++ [name'] ≠ place ++ [name] := fun he => by
    have hn : name' = name := List.singleton_inj.1 (List.append_inj' he rfl).2
    exact hname (by rw [(locate_named hlocate).1, (locate_named hlocate').1, hn])
  exact read_ok_iff.2 ⟨place', name', locate_put hget bytes hlocate', hshort, by rw [get?_put_of_ne _ hne]; exact hget'⟩

end Files
end Autoscript
