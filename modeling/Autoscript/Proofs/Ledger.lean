import Autoscript.Proofs.Accepted
import Mathlib.Data.List.Nodup
/-!
# Ledger — the slots that tables hand out

Scopes are two tables, and a statement sees one of them.  Whatever is declared, cleared, entered and left, in any order, a
table goes with its ledger: the declarations that were given a slot since it was last cleared (`ledger`).  A table knows its
names as its ledger does, from the latest declaration on, and each declaration has a slot of its own, also if its name is
declared again (`Keeps`).
-/
namespace Autoscript.Scopes

/-! ## Tables and what is done with them -/

inductive Table where
  | globals
  | locals
deriving DecidableEq, Repr

def table (s : Scopes) : Table → Frame
  | .globals => s.globals
  | .locals => s.locals

def tableOf (s : Scopes) : Part → Table
  | .globals => .globals
  | .locals => .locals
  | .current => if s.inFunction then .locals else .globals

inductive Action where
  | declare (part : Part) (name : String) (ty : Ty)
  | clear (part : Part)
  | enter
  | leave
deriving DecidableEq, Repr

def act (s : Scopes) : Action → Option Symbol × Scopes
  | .declare part name ty =>
    match s.declare? part name ty with
    | some (s', symbol) => (some symbol, s')
    | none => (none, s)
  | .clear part => (none, s.clear part)
  | .enter => (none, s.enter)
  | .leave => (none, s.leave)

def onTable (s : Scopes) : Action → Table
  | .declare part _ _ | .clear part => s.tableOf part
  | .enter | .leave => .locals

def run (s : Scopes) (actions : List Action) : Scopes := actions.foldl (fun s a => (s.act a).2) s

/-- Declarations of a table, the latest first: the name, the type that it was declared with, the offset that it was given. -/
abbrev Ledger := List (String × Symbol)

/-- Books an action on a table.  A declaration is entered if it was given a slot; all else clears the table. -/
def book (s : Scopes) (a : Action) (ledger : Ledger) : Ledger :=
  match a with
  | .declare _ name ty =>
    match (s.act a).1 with
    | some symbol => (name, ⟨ty, symbol.offset⟩) :: ledger
    | none => ledger
  | .clear _ | .enter | .leave => []

def ledgerFrom (t : Table) (ledger : Ledger) (s : Scopes) : List Action → Ledger
  | [] => ledger
  | a :: actions => ledgerFrom t (if s.onTable a = t then s.book a ledger else ledger) (s.act a).2 actions

/-- **The declarations of a table that were given a slot since it was last cleared.** -/
def ledger (t : Table) (actions : List Action) : Ledger := ledgerFrom t [] .initial actions

section
variable (s : Scopes)

theorem frame_eq_table (part : Part) : s.frame part = s.table (s.tableOf part) := by
  cases part with
  | globals | locals => rfl
  | current => cases h : s.inFunction <;> simp [frame, tableOf, table, h]

theorem table_setFrame (f : Frame) (part : Part) (t : Table) :
    (s.setFrame f part).table t = if s.tableOf part = t then f else s.table t := by
  cases part with
  | globals | locals => cases t <;> rfl
  | current => cases h : s.inFunction <;> cases t <;> simp [setFrame, tableOf, table, h]

/-- What declares nothing clears the table that it is on. -/
theorem table_cleared {a : Action} (h : ∀ part x ty, a ≠ .declare part x ty) (t : Table) :
    (s.act a).2.table t = if s.onTable a = t then .empty else s.table t := by
  cases a with
  | declare part x ty => exact absurd rfl (h part x ty)
  | clear part => exact s.table_setFrame .empty part t
  | enter | leave => cases t <;> rfl

/-- **What a declaration does**: it is made in its table alone, or it has no slot and changes nothing. -/
theorem act_declare (part : Part) (x : String) (ty : Ty) :
    ((s.table (s.tableOf part)).size + Word.size ≤ Frame.maxOffset ∧ ∃ f' symbol,
      (s.table (s.tableOf part)).declare? x ty = some (f', symbol) ∧
        s.act (.declare part x ty) = (some symbol, s.setFrame f' part)) ∨
    (Frame.maxOffset < (s.table (s.tableOf part)).size + Word.size ∧ s.act (.declare part x ty) = (none, s)) := by
  rw [← frame_eq_table]
  rcases (s.frame part).declare?_cases x ty with ⟨hroom, f', hd, -, -⟩ | ⟨hfull, hd⟩
  · exact .inl ⟨hroom, f', _, hd, by simp [act, declare?, hd]⟩
  · exact .inr ⟨hfull, by simp [act, declare?, hd]⟩

/-- **An action changes only the table that it is on.** -/
theorem table_act_of_ne {a : Action} {t : Table} (h : s.onTable a ≠ t) : (s.act a).2.table t = s.table t := by
  by_cases hd : ∃ part x ty, a = .declare part x ty
  · obtain ⟨part, x, ty, rfl⟩ := hd
    rcases s.act_declare part x ty with ⟨-, f', symbol, -, ha⟩ | ⟨-, ha⟩
    · rw [ha, table_setFrame]
      exact if_neg h
    · rw [ha]
  · rw [s.table_cleared fun part x ty ha => hd ⟨part, x, ty, ha⟩, if_neg h]

end

/-! ## A table and its ledger -/

/-- **A table goes with its ledger.**  That every declaration has a slot of its own is more than that live names have
different ones: a name that is declared again leaves its old slot behind. -/
structure Keeps (f : Frame) (ledger : Ledger) : Prop where
  size : f.size = 4 * ledger.length
  reach : f.size ≤ Frame.maxOffset
  latest : ∀ x, f.resolve? x = ledger.lookup x
  slots : ∀ e ∈ ledger, 4 ∣ e.2.offset ∧ 4 ≤ e.2.offset ∧ e.2.offset ≤ f.size
  apart : (ledger.map fun e => e.2.offset).Nodup

theorem keeps_empty : Keeps .empty [] :=
  ⟨rfl, by decide, fun _ => rfl, fun _ h => (by cases h), List.nodup_nil⟩

section
variable {f f' : Frame} {ledger : Ledger}

/-- **A declaration takes a slot that no other declaration has.** -/
theorem Keeps.declare (h : Keeps f ledger) {x : String} {ty : Ty} {symbol : Symbol}
    (hd : f.declare? x ty = some (f', symbol)) : Keeps f' ((x, ⟨ty, symbol.offset⟩) :: ledger) := by
  rcases f.declare?_cases x ty with ⟨hroom, g, hg, hsize, hresolve⟩ | ⟨-, hnone⟩
  · rw [hg] at hd
    cases hd
    have hnext : f.size + Word.size = 4 * (ledger.length + 1) := by
      rw [h.size, Word.size]
      omega
    have hfour : Word.size = 4 := rfl
    refine ⟨hsize.trans hnext, by rw [hsize]; exact hroom, fun y => ?_, fun e he => ?_, ?_⟩
    · rw [hresolve, List.lookup_cons]
      by_cases hxy : x = y
      · subst hxy
        simp
      · have hyx : (y == x) = false := by simpa using Ne.symm hxy
        rw [if_neg hxy, hyx, h.latest]
    · rcases List.mem_cons.1 he with rfl | he
      · refine ⟨⟨ledger.length + 1, hnext⟩, ?_, Nat.le_of_eq hsize.symm⟩
        show 4 ≤ f.size + Word.size
        omega
      · obtain ⟨hdvd, hlow, hhigh⟩ := h.slots e he
        exact ⟨hdvd, hlow, by omega⟩
    · refine List.nodup_cons.2 ⟨fun hmem => ?_, h.apart⟩
      -- the new offset is above all that were handed out
      obtain ⟨e, he, hoffset⟩ := List.mem_map.1 hmem
      have hhigh := (h.slots e he).2.2
      have hoffset : e.2.offset = f.size + Word.size := hoffset
      omega
  · rw [hnone] at hd
    cases hd

theorem Keeps.mem (h : Keeps f ledger) {x : String} {symbol : Symbol} (hx : f.resolve? x = some symbol) :
    (x, symbol) ∈ ledger := by
  rw [h.latest, List.lookup_eq_some_iff] at hx
  obtain ⟨newer, older, rfl, -⟩ := hx
  exact List.mem_append_right _ List.mem_cons_self

/-- **A live symbol's slot** is inside the table, and its operand says where. -/
theorem Keeps.symbol (h : Keeps f ledger) {x : String} {symbol : Symbol} (hx : f.resolve? x = some symbol) :
    4 ∣ symbol.offset ∧ 4 ≤ symbol.offset ∧ symbol.offset ≤ f.size ∧ symbol.operand.toInt = symbol.offset := by
  obtain ⟨hdvd, hlow, hhigh⟩ := h.slots _ (h.mem hx)
  have hreach : f.size ≤ 0x7fffffff := h.reach
  refine ⟨hdvd, hlow, hhigh, ?_⟩
  exact Int32.toInt_ofNat_of_lt (by simp only at hhigh; omega)

/-- **Different live names have different slots.** -/
theorem Keeps.offset_ne (h : Keeps f ledger) {x y : String} {a b : Symbol} (hx : f.resolve? x = some a)
    (hy : f.resolve? y = some b) (hne : x ≠ y) : a.offset ≠ b.offset := by
  intro hoffset
  have hsame := List.inj_on_of_nodup_map h.apart (h.mem hx) (h.mem hy) hoffset
  cases hsame
  exact hne rfl

end

/-! ## Actions in a row -/

theorem keeps_act {s : Scopes} {t : Table} {ledger : Ledger} (h : Keeps (s.table t) ledger) (a : Action) :
    Keeps ((s.act a).2.table t) (if s.onTable a = t then s.book a ledger else ledger) := by
  by_cases ht : s.onTable a = t
  · rw [if_pos ht]
    cases a with
    | declare part x ty =>
      have hpart : s.tableOf part = t := ht
      rcases s.act_declare part x ty with ⟨-, f', symbol, hd, ha⟩ | ⟨-, ha⟩
      · rw [hpart] at hd
        rw [book, ha, table_setFrame, if_pos hpart]
        exact h.declare hd
      · rw [book, ha]
        exact h
    | clear | enter | leave =>
      rw [s.table_cleared fun _ _ _ ha => (by cases ha), if_pos ht]
      exact keeps_empty
  · rw [if_neg ht, s.table_act_of_ne ht]
    exact h

theorem keeps_run {t : Table} : ∀ (actions : List Action) {s : Scopes} {ledger : Ledger}, Keeps (s.table t) ledger →
    Keeps ((s.run actions).table t) (ledgerFrom t ledger s actions)
  | [], _, _, h => h
  | a :: actions, _, _, h => keeps_run actions (keeps_act h a)

/-- **No slot is handed out twice.**  After any actions, each table is as large as the declarations that were given a slot
since it was last cleared, and within the reach of operands.  It knows the latest declaration of each name; the slots of
live names are inside the table, are what their operands say, and are never shared.  A declaration has no slot exactly if
the next one is out of reach, and then it changes nothing; and what is done with one table leaves the other alone. -/
theorem slots_after_actions (actions : List Action) :
    let s := run .initial actions
    (∀ t, (s.table t).size = 4 * (ledger t actions).length ∧ (s.table t).size ≤ 0x7fffffff ∧
      (∀ x, (s.table t).resolve? x = (ledger t actions).lookup x) ∧
      (∀ x symbol, (s.table t).resolve? x = some symbol → 4 ∣ symbol.offset ∧ 4 ≤ symbol.offset ∧
        symbol.offset ≤ (s.table t).size ∧ symbol.operand.toInt = symbol.offset) ∧
      ∀ x y a b, (s.table t).resolve? x = some a → (s.table t).resolve? y = some b → x ≠ y → a.offset ≠ b.offset) ∧
    (∀ part x ty, ((s.act (.declare part x ty)).1 = none ↔ 0x7fffffff < (s.table (s.tableOf part)).size + 4) ∧
      ((s.act (.declare part x ty)).1 = none → (s.act (.declare part x ty)).2 = s)) ∧
    ∀ a t, s.onTable a ≠ t → (s.act a).2.table t = s.table t := by
  intro s
  refine ⟨fun t => ?_, fun part x ty => ?_, fun a t ht => s.table_act_of_ne ht⟩
  · have hempty : Keeps (Scopes.initial.table t) [] := by cases t <;> exact keeps_empty
    have hkeeps : Keeps (s.table t) (ledger t actions) := keeps_run actions hempty
    exact ⟨hkeeps.size, hkeeps.reach, hkeeps.latest, fun _ _ => hkeeps.symbol, fun _ _ _ _ => hkeeps.offset_ne⟩
  · rcases s.act_declare part x ty with ⟨hroom, f', symbol, -, ha⟩ | ⟨hfull, ha⟩
    · rw [ha]
      exact ⟨iff_of_false (fun h => by cases h) (Nat.not_lt.2 hroom), fun h => by cases h⟩
    · rw [ha]
      exact ⟨iff_of_true rfl hfull, fun _ => rfl⟩

/-- A name is declared again, a function is entered and declares it as well, and the globals are declared in from inside of
it; then the function is left. -/
theorem slots_after_redeclaration :
    let actions : List Action := [.declare .current "x" .int, .declare .current "y" .float, .declare .current "x" .float,
      .enter, .declare .current "x" .int, .declare .globals "z" .int]
    let s := run .initial actions
    (s.globals.size = 16 ∧ s.globals.resolve? "x" = some ⟨.float, 12⟩ ∧ s.globals.resolve? "z" = some ⟨.int, 16⟩ ∧
      s.globals.resolve? "x" = (ledger .globals actions).lookup "x" ∧ (12 : Nat) ≠ 16) ∧
    s.locals.size = 4 * (ledger .locals actions).length ∧ s.locals.resolve? "x" = some ⟨.int, 4⟩ ∧
    (s.act .leave).2.globals = s.globals ∧ (s.act .leave).2.locals = .empty := by
  intro actions s
  obtain ⟨htables, -, hother⟩ := slots_after_actions actions
  obtain ⟨-, -, hlatest, -, hne⟩ := htables .globals
  have hx : s.globals.resolve? "x" = some ⟨.float, 12⟩ := by decide
  have hz : s.globals.resolve? "z" = some ⟨.int, 16⟩ := by decide
  refine ⟨⟨by decide, hx, hz, hlatest "x", hne "x" "z" _ _ hx hz (by decide)⟩, (htables .locals).1, by decide, ?_, rfl⟩
  exact hother .leave .globals (by decide)

end Autoscript.Scopes
