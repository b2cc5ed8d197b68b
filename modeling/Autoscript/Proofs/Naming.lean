import Autoscript.Command.Path
import Mathlib.Data.List.Basic
/-!
# Naming — what a program is called

By default a program is called after the stem of its script.  The extension of the script is cut off to get the stem, and
once more when the stem gets the extension of programs.  So the program has the name of the stem exactly if no dot is left
in it behind its first character (`defaultOutput_eq_iff`); all that `a.b.mcs` leaves of `a.b` is `a`.  Which file a name
stands for is not a matter of the name: that the working directory is there, and without links, is part of `Files`.
-/
namespace Autoscript.Path

/-! ## Stems -/

/-- **The stem of a file name**: the name up to its last dot, or the whole name if there is no dot behind its first
character. -/
def IsStem (name stem : String) : Prop :=
  (∃ ext : String, '.' ∉ ext.toList ∧ stem ≠ "" ∧ name = stem ++ "." ++ ext) ∨ ('.' ∉ name.toList.tail ∧ stem = name)

theorem takeWhile_of_notMem {after : List Char} (h : '.' ∉ after) (rest : List Char) :
    (after.reverse ++ rest).takeWhile (· ≠ '.') = after.reverse ++ rest.takeWhile (· ≠ '.') := by
  refine List.takeWhile_append_of_pos fun c hc => ?_
  have hne : c ≠ '.' := fun he => h (he ▸ List.mem_reverse.1 hc)
  simpa using hne

theorem splitExtension_of_dot {stem ext : String} (hs : stem ≠ "") (he : '.' ∉ ext.toList) :
    splitExtension (stem ++ "." ++ ext) = (stem, some ext) := by
  have hlist : (stem ++ "." ++ ext).toList = stem.toList ++ '.' :: ext.toList := by simp
  have hafter : ((stem.toList ++ '.' :: ext.toList).reverse.takeWhile (· ≠ '.')).reverse = ext.toList := by
    rw [List.reverse_append, List.reverse_cons, List.append_assoc, takeWhile_of_notMem he]
    simp
  have hbefore : (stem.toList ++ '.' :: ext.toList).take
      ((stem.toList ++ '.' :: ext.toList).length - ext.toList.length - 1) = stem.toList := by
    rw [List.length_append, List.length_cons, List.take_left' (by omega)]
  have hne : stem.toList ≠ [] := by simpa using hs
  simp only [splitExtension, hlist, hafter, hbefore, if_neg hne, String.ofList_toList]

theorem splitExtension_of_plain {name : String} (h : '.' ∉ name.toList.tail) : splitExtension name = (name, none) := by
  have hbefore : name.toList.length - ((name.toList.reverse.takeWhile (· ≠ '.')).reverse).length - 1 = 0 := by
    cases hcs : name.toList with
    | nil => rfl
    | cons c cs =>
      rw [hcs, List.tail_cons] at h
      rw [List.reverse_cons, takeWhile_of_notMem h, List.length_reverse, List.length_append, List.length_reverse,
        List.length_cons]
      omega
  simp only [splitExtension, hbefore, List.take_zero, if_true]

/-- **The stem that is found is the stem of the name.** -/
theorem splitExtension_of_isStem {name stem : String} (h : IsStem name stem) : (splitExtension name).1 = stem := by
  rcases h with ⟨ext, he, hs, rfl⟩ | ⟨hplain, rfl⟩
  · rw [splitExtension_of_dot hs he]
  · rw [splitExtension_of_plain hplain]

/-- A name with a dot behind its first character has a last dot. -/
theorem exists_last_dot {name : String} (h : '.' ∈ name.toList.tail) :
    ∃ stem ext : String, stem ≠ "" ∧ '.' ∉ ext.toList ∧ name = stem ++ "." ++ ext := by
  cases hcs : name.toList with
  | nil =>
    rw [hcs] at h
    cases h
  | cons c cs =>
    rw [hcs, List.tail_cons, ← List.mem_reverse] at h
    obtain ⟨after, before, hsplit, hdot⟩ := List.eq_append_cons_of_mem h
    have hcs' : cs = before.reverse ++ '.' :: after.reverse := by
      rw [← List.reverse_reverse cs, hsplit]
      simp
    refine ⟨String.ofList (c :: before.reverse), String.ofList after.reverse, by simp, by simpa using hdot, ?_⟩
    rw [← String.toList_inj, hcs, hcs']
    simp

theorem exists_isStem (name : String) : ∃ stem, IsStem name stem := by
  by_cases h : '.' ∈ name.toList.tail
  · obtain ⟨stem, ext, hs, he, rfl⟩ := exists_last_dot h
    exact ⟨stem, .inl ⟨ext, he, hs, rfl⟩⟩
  · exact ⟨name, .inr ⟨h, rfl⟩⟩

/-! ## Lone names -/

theorem pieces_ne_nil (separator : Char) : ∀ cs : List Char, pieces separator cs ≠ []
  | [] => List.cons_ne_nil _ _
  | c :: cs => by
    rw [pieces]
    split
    · exact List.cons_ne_nil _ _
    · split <;> exact List.cons_ne_nil _ _

theorem notMem_of_mem_pieces {separator : Char} : ∀ {cs piece : List Char}, piece ∈ pieces separator cs → separator ∉ piece
  | [], piece, h => by
    rw [List.mem_singleton.1 h]
    simp
  | c :: cs, piece, h => by
    rw [pieces] at h
    split at h
    · rcases List.mem_cons.1 h with rfl | h
      · simp
      · exact notMem_of_mem_pieces h
    · rename_i hc
      cases hp : pieces separator cs with
      | nil => exact absurd hp (pieces_ne_nil separator cs)
      | cons first rest =>
        have ih {piece : List Char} (hm : piece ∈ first :: rest) : separator ∉ piece := notMem_of_mem_pieces (hp ▸ hm)
        rw [hp] at h
        rcases List.mem_cons.1 h with rfl | h
        · simp [Ne.symm hc, ih List.mem_cons_self]
        · exact ih (List.mem_cons_of_mem _ h)

theorem pieces_of_notMem {separator : Char} : ∀ {cs : List Char}, separator ∉ cs → pieces separator cs = [cs]
  | [], _ => rfl
  | c :: cs, h => by
    rw [List.mem_cons, not_or] at h
    rw [pieces, if_neg (Ne.symm h.1), pieces_of_notMem h.2]

/-- What names no file: nothing, this directory and the one above. -/
def nameless : List String := ["", ".", ".."]

/-- **A file name has no slashes** and names a file. -/
theorem lone_of_fileName? {path name : String} (h : fileName? path = some name) :
    '/' ∉ name.toList ∧ name ∉ nameless := by
  unfold fileName? at h
  split at h
  · rename_i last hlast
    split at h
    · cases h
    · rename_i hdots
      cases h
      obtain ⟨hmem, hdot⟩ := List.mem_filter.1 (List.mem_of_getLast? hlast)
      obtain ⟨piece, hpiece, rfl⟩ := List.mem_map.1 hmem
      refine ⟨by rw [String.toList_ofList]; exact notMem_of_mem_pieces hpiece, ?_⟩
      simpa [nameless, hdots] using hdot
  · cases h

theorem fileName?_of_lone {name : String} (hslash : '/' ∉ name.toList) :
    fileName? name = if name ∈ nameless then none else some name := by
  have hcomponents : components name = [name] := by
    rw [components, pieces_of_notMem hslash, List.map_singleton, String.ofList_toList]
  by_cases hname : name ∈ nameless
  · simp only [nameless, List.mem_cons, List.not_mem_nil, or_false] at hname
    rcases hname with rfl | rfl | rfl <;> decide
  · rw [if_neg hname]
    simp only [nameless, List.mem_cons, List.not_mem_nil, or_false, not_or] at hname
    simp [fileName?, hcomponents, hname]

/-! ## Another extension -/

section
variable {stem ext : String} (extension : String)

theorem withExtension_eq {name dropped : String} (h : dropExtension name = dropped) :
    withExtension name extension = ((stem? dropped).map fun s => s ++ "." ++ extension).getD dropped := by
  delta withExtension
  rw [h]
  cases stem? dropped <;> rfl

theorem withExtension_of_plain (hslash : '/' ∉ stem.toList) (hname : stem ∉ nameless) (h : '.' ∉ stem.toList.tail) :
    withExtension stem extension = stem ++ "." ++ extension := by
  have hfile : fileName? stem = some stem := by rw [fileName?_of_lone hslash, if_neg hname]
  have hdrop : dropExtension stem = stem := by
    simp [dropExtension, extension?, hfile, splitExtension_of_plain h]
  rw [withExtension_eq _ hdrop, stem?, hfile, Option.map_some, splitExtension_of_plain h]
  rfl

theorem withExtension_of_nameless (hname : stem ∈ nameless) : withExtension stem extension = stem := by
  simp only [nameless, List.mem_cons, List.not_mem_nil, or_false] at hname
  rcases hname with rfl | rfl | rfl <;> rfl

/-- **The old extension is cut off with its dot**, unless that leaves two dots, which name no file. -/
theorem withExtension_of_dot (hslash : '/' ∉ (stem ++ "." ++ ext).toList) (hname : stem ++ "." ++ ext ∉ nameless)
    (hs : stem ≠ "") (he : '.' ∉ ext.toList) :
    withExtension (stem ++ "." ++ ext) extension = if stem = "." then ".." else stem ++ "." ++ extension := by
  have hfile : fileName? (stem ++ "." ++ ext) = some (stem ++ "." ++ ext) := by
    rw [fileName?_of_lone hslash, if_neg hname]
  have hdrop : dropExtension (stem ++ "." ++ ext) = stem ++ "." := by
    simp [dropExtension, extension?, hfile, splitExtension_of_dot hs he]
  by_cases hdot : stem = "."
  · subst hdot
    rw [if_pos rfl, withExtension_eq _ hdrop]
    rfl
  · have hslash' : '/' ∉ (stem ++ ".").toList := by
      simp only [String.toList_append, List.mem_append, not_or] at hslash ⊢
      exact hslash.1
    have hname' : stem ++ "." ∉ nameless := by
      have hdots : stem ++ "." ≠ "." ++ "." := fun h => hdot ((String.append_left_inj ".").1 h)
      simpa [nameless, hs] using hdots
    have hstem : stem? (stem ++ ".") = some stem := by
      have hsplit : splitExtension (stem ++ ".") = (stem, some "") := by
        have hdot : splitExtension (stem ++ "." ++ "") = (stem, some "") := splitExtension_of_dot hs (by simp)
        rwa [String.append_empty] at hdot
      rw [stem?, fileName?_of_lone hslash', if_neg hname', Option.map_some, hsplit]
    rw [if_neg hdot, withExtension_eq _ hdrop, hstem]
    rfl

end

/-! ## Programs -/

/-- A stem that has no extension of its own. -/
def Plain (stem : String) : Prop := stem ≠ "." ∧ '.' ∉ stem.toList.tail

/-- **What the program of a script is called**, by the stem of the script. -/
inductive CalledAfter : String → String → Prop where
  | whole {stem : String} : Plain stem → CalledAfter stem (stem ++ ".mcc")
  /-- An extension of the stem goes as well. -/
  | cut {first ext : String} : first ≠ "" → first ≠ "." → '.' ∉ ext.toList →
      CalledAfter (first ++ "." ++ ext) (first ++ ".mcc")
  /-- Dots that name no file stay, so that the program is called after a directory. -/
  | dot : CalledAfter "." "."
  | dots {ext : String} : '.' ∉ ext.toList → CalledAfter ("." ++ "." ++ ext) ".."

namespace CalledAfter

variable {stem out : String} (h : CalledAfter stem out)
include h

theorem slash_notMem (hslash : '/' ∉ stem.toList) : '/' ∉ out.toList := by
  cases h with
  | whole => simpa using hslash
  | cut =>
    simp only [String.toList_append, List.mem_append, not_or] at hslash ⊢
    exact ⟨hslash.1.1, by decide⟩
  | dot | dots => decide

theorem ne_empty : out ≠ "" := by
  cases h with
  | whole | cut => simp
  | dot | dots => decide

theorem eq_iff : out = stem ++ ".mcc" ↔ Plain stem := by
  cases h with
  | whole hplain => exact ⟨fun _ => hplain, fun _ => rfl⟩
  | @cut first ext hne _ _ =>
    constructor
    · intro heq
      have hcut : first = first ++ "." ++ ext := (String.append_left_inj ".mcc").1 heq
      have hchars := congrArg String.toList hcut
      simp at hchars
    · rintro ⟨-, htail⟩
      obtain ⟨c, cs, hcs⟩ := List.exists_cons_of_ne_nil (fun hnil => hne (String.toList_eq_nil_iff.1 hnil))
      simp [hcs] at htail
  | dot => exact ⟨fun heq => absurd heq (by decide), fun hplain => absurd rfl hplain.1⟩
  | @dots ext _ =>
    constructor
    · intro heq
      have hlength := congrArg (fun s : String => s.toList.length) heq
      simp at hlength
    · rintro ⟨-, htail⟩
      simp at htail

end CalledAfter

theorem lone_of_isStem {name stem : String} (hslash : '/' ∉ name.toList) (h : IsStem name stem) :
    '/' ∉ stem.toList := by
  rcases h with ⟨ext, -, -, rfl⟩ | ⟨-, rfl⟩
  · simp only [String.toList_append, List.mem_append, not_or] at hslash
    exact hslash.1.1
  · exact hslash

theorem IsStem.ne_empty {name stem : String} (hname : name ∉ nameless) (h : IsStem name stem) : stem ≠ "" := by
  rcases h with ⟨ext, -, hs, -⟩ | ⟨-, rfl⟩
  · exact hs
  · rintro rfl
    exact hname (by decide)

theorem append_programExtension (stem : String) : stem ++ "." ++ programExtension = stem ++ ".mcc" := by
  rw [String.append_assoc]
  rfl

/-- **A program is called after the stem of its script.** -/
theorem calledAfter_withExtension {stem : String} (hslash : '/' ∉ stem.toList) (hne : stem ≠ "") :
    CalledAfter stem (withExtension stem programExtension) := by
  by_cases hname : stem ∈ nameless
  · rw [withExtension_of_nameless _ hname]
    simp only [nameless, List.mem_cons, List.not_mem_nil, or_false, hne, false_or] at hname
    rcases hname with rfl | rfl
    · exact .dot
    · show CalledAfter ("." ++ "." ++ "") ".."
      exact .dots (by decide)
  · by_cases hplain : '.' ∈ stem.toList.tail
    · obtain ⟨first, ext, hfirst, hext, rfl⟩ := exists_last_dot hplain
      rw [withExtension_of_dot _ hslash hname hfirst hext]
      by_cases hdot : first = "."
      · subst hdot
        exact .dots hext
      · rw [if_neg hdot, append_programExtension]
        exact .cut hfirst hdot hext
    · rw [withExtension_of_plain _ hslash hname hplain, append_programExtension]
      refine .whole ⟨?_, hplain⟩
      rintro rfl
      exact hname (by decide)

theorem calledAfter_defaultOutput {path name stem : String} (hname : fileName? path = some name) (hstem : IsStem name stem) :
    '/' ∉ stem.toList ∧ CalledAfter stem (defaultOutput path) := by
  obtain ⟨hslash, hfile⟩ := lone_of_fileName? hname
  have hlone := lone_of_isStem hslash hstem
  have hfound : stem? path = some stem := by rw [stem?, hname, Option.map_some, splitExtension_of_isStem hstem]
  refine ⟨hlone, ?_⟩
  rw [defaultOutput, hfound, Option.getD_some]
  exact calledAfter_withExtension hlone (hstem.ne_empty hfile)

/-- **A program goes to the working directory by default**, also that of a path without a name. -/
theorem lone_defaultOutput (path : String) : '/' ∉ (defaultOutput path).toList ∧ defaultOutput path ≠ "" := by
  cases hname : fileName? path with
  | none =>
    have hout : defaultOutput path = "out.mcc" := by
      rw [defaultOutput, stem?, hname, Option.map_none, Option.getD_none]
      exact withExtension_of_plain _ (by decide) (by decide) (by decide)
    rw [hout]
    decide
  | some name =>
    obtain ⟨stem, hstem⟩ := exists_isStem name
    obtain ⟨hslash, hcalled⟩ := calledAfter_defaultOutput hname hstem
    exact ⟨hcalled.slash_notMem hslash, hcalled.ne_empty⟩

/-- **A program has the name of its script's stem exactly if the stem has no extension of its own.**  It is called after the
stem in any case, and stands in the working directory; if two stems have no extension, programs of the same name are of the
same one. -/
theorem defaultOutput_eq_iff {path name stem : String} (hname : fileName? path = some name) (hstem : IsStem name stem) :
    (defaultOutput path = stem ++ ".mcc" ↔ Plain stem) ∧ CalledAfter stem (defaultOutput path) ∧
    '/' ∉ (defaultOutput path).toList ∧
    ∀ path' name' stem', fileName? path' = some name' → IsStem name' stem' → Plain stem → Plain stem' →
      defaultOutput path = defaultOutput path' → stem = stem' := by
  obtain ⟨hslash, hcalled⟩ := calledAfter_defaultOutput hname hstem
  refine ⟨hcalled.eq_iff, hcalled, hcalled.slash_notMem hslash, fun path' name' stem' hname' hstem' hplain hplain' hsame => ?_⟩
  have hcalled' := (calledAfter_defaultOutput hname' hstem').2
  rw [hcalled.eq_iff.2 hplain, hcalled'.eq_iff.2 hplain'] at hsame
  exact (String.append_left_inj ".mcc").1 hsame

/-- A script in a directory with a dot in its name. -/
theorem defaultOutput_in_dotted_directory : fileName? "v1.2/clicker.mcs" = some "clicker.mcs" ∧
    IsStem "clicker.mcs" "clicker" ∧ Plain "clicker" ∧ defaultOutput "v1.2/clicker.mcs" = "clicker.mcc" := by
  have hname : fileName? "v1.2/clicker.mcs" = some "clicker.mcs" := by decide
  have hstem : IsStem "clicker.mcs" "clicker" := .inl ⟨"mcs", by decide, by decide, rfl⟩
  have hplain : Plain "clicker" := ⟨by decide, by decide⟩
  exact ⟨hname, hstem, hplain, (defaultOutput_eq_iff hname hstem).1.2 hplain⟩

/-- **A stem with an extension of its own loses it**, so that the programs of two scripts can have the same name. -/
theorem defaultOutput_of_dotted_stem :
    (fileName? "a.b.mcs" = some "a.b.mcs" ∧ IsStem "a.b.mcs" "a.b" ∧ defaultOutput "a.b.mcs" ≠ "a.b" ++ ".mcc") ∧
    fileName? "a.c.mcs" = some "a.c.mcs" ∧ IsStem "a.c.mcs" "a.c" ∧ "a.b" ≠ "a.c" ∧
      defaultOutput "a.b.mcs" = defaultOutput "a.c.mcs" := by
  have hstem : IsStem "a.b.mcs" "a.b" := .inl ⟨"mcs", by decide, by decide, rfl⟩
  have hstem' : IsStem "a.c.mcs" "a.c" := .inl ⟨"mcs", by decide, by decide, rfl⟩
  have hname : fileName? "a.b.mcs" = some "a.b.mcs" ∧ fileName? "a.c.mcs" = some "a.c.mcs" := by decide +kernel
  have hcut : defaultOutput "a.b.mcs" = "a.mcc" ∧ defaultOutput "a.c.mcs" = "a.mcc" := by decide +kernel
  refine ⟨⟨hname.1, hstem, ?_⟩, hname.2, hstem', by decide, hcut.1.trans hcut.2.symm⟩
  rw [hcut.1]
  decide

end Autoscript.Path
