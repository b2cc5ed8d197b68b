import Autoscript.Proofs.Places
import Autoscript.Proofs.Shape
/-!
# Recovery — a refused line does not spoil the others

Whether a line is refused, and why, is a matter of the names in view and of the function that is open, not of the code
emitted so far.  Only declarations and the marks of functions change these.  So any other line can be blanked, and the
faults of the rest of the script stay as they are (`reported_without_line`).
-/
namespace Autoscript.Script

/-! ## What faults depend on -/

/-- Two states that no statement can tell apart: only the code differs, and where in it the functions start. -/
structure Alike (s s' : State) : Prop where
  scopes : s.scopes = s'.scopes
  functions : s.functions.map Prod.fst = s'.functions.map Prod.fst
  opened : s.opened = s'.opened

theorem Alike.refl (s : State) : Alike s s := ⟨rfl, rfl, rfl⟩

theorem Alike.emit {s s' : State} (h : Alike s s') (code code' : List Instr) : Alike (s.emit code) (s'.emit code') :=
  ⟨h.scopes, h.functions, h.opened⟩

theorem Alike.lookup {s s' : State} (h : Alike s s') (f : String) :
    (s.functions.lookup f).isSome = (s'.functions.lookup f).isSome := by
  rw [Bool.eq_iff_iff, isSome_lookup, isSome_lookup, h.functions]

theorem Alike.symbol {s s' : State} (h : Alike s s') : s.names.symbol = s'.names.symbol := by
  funext name line
  have hf : (s.names.functions.lookup name).isSome = (s'.names.functions.lookup name).isSome := h.lookup name
  have hr : s.names.frame = s'.names.frame := by rw [State.names, State.names, h.scopes]
  rw [Names.symbol, Names.symbol, hr, hf]

section
variable {names names' : Names} (h : names.symbol = names'.symbol)
include h

theorem operand_congr : names.operand = names'.operand := by
  funext ty t
  rw [Names.operand, Names.operand, h]

theorem go_congr (ty : Ty) (inArguments : Bool) (stop : Token) : ∀ (ts : List Token) (pending : List Pending)
    (afterValue : Bool) (last : Nat), Scan.go names ty inArguments stop pending afterValue last ts =
      Scan.go names' ty inArguments stop pending afterValue last ts
  | [], _, _, _ => by rw [Scan.go, Scan.go]
  | t :: ts, pending, afterValue, last => by
    have hop := operand_congr h
    have ih := go_congr ty inArguments stop ts
    simp only [Scan.go, hop, ih]

theorem arguments_congr (ty : Ty) (stop : Token) : ∀ (n : Nat) (ts : List Token),
    names.arguments ty stop n ts = names'.arguments ty stop n ts
  | 0, _ => rfl
  | n + 1, ts => by
    have harg : names.argument ty stop ts = names'.argument ty stop ts := go_congr h ty true stop ts [] false stop.line
    simp only [Names.arguments, harg, arguments_congr ty stop n]

end

/-- Two outcomes that no later statement can tell apart. -/
structure SameFault (o o' : Outcome) : Prop where
  fault : o.fault = o'.fault
  state : Alike o.state o'.state

section
variable {s s' : State} (h : Alike s s')
include h

theorem alike_refuse (f : Fault) : SameFault (Statement.refuse s f) (Statement.refuse s' f) := ⟨rfl, h⟩

theorem alike_declaration (ty : Ty) (stop : Token) (ts : List Token) :
    SameFault (Statement.declaration s ty stop ts) (Statement.declaration s' ty stop ts) := by
  unfold Statement.declaration
  split
  · exact alike_refuse h _
  · rw [h.scopes]
    split
    · exact alike_refuse h _
    · exact ⟨rfl, rfl, h.functions, h.opened⟩

theorem alike_start (line : Nat) (stop : Token) (ts : List Token) :
    SameFault (Statement.start s line stop ts) (Statement.start s' line stop ts) := by
  unfold Statement.start
  rw [h.scopes]
  split
  · exact alike_refuse h _
  · split
    · exact alike_refuse h _
    · rw [h.lookup]
      split
      · exact alike_refuse h _
      · exact ⟨rfl, rfl, by simp [h.functions], rfl⟩

theorem alike_finish (line : Nat) (ts : List Token) :
    SameFault (Statement.finish s line ts) (Statement.finish s' line ts) := by
  unfold Statement.finish
  rw [h.scopes]
  split
  · exact ⟨rfl, rfl, h.functions, rfl⟩
  · exact alike_refuse h _

theorem alike_display (stop : Token) (ts : List Token) :
    SameFault (Statement.display s stop ts) (Statement.display s' stop ts) := by
  unfold Statement.display
  split
  · exact alike_refuse h _
  · rw [h.symbol]
    split
    · exact alike_refuse h _
    · exact ⟨rfl, h.emit _ _⟩

theorem alike_action (ty : Ty) (count : Nat) (act : Instr) (stop : Token) (ts : List Token) :
    SameFault (Statement.action s ty count act stop ts) (Statement.action s' ty count act stop ts) := by
  unfold Statement.action
  simp only
  rw [arguments_congr h.symbol]
  split
  · exact ⟨rfl, h.emit _ _⟩
  · exact ⟨rfl, (h.emit _ _).emit _ _⟩

theorem alike_assignment (name : String) (line : Nat) (stop : Token) (ts : List Token) :
    SameFault (Statement.assignment s name line stop ts) (Statement.assignment s' name line stop ts) := by
  unfold Statement.assignment
  rw [h.symbol]
  split
  · exact alike_refuse h _
  · rename_i symbol _
    have hscan : s.names.expression symbol.ty stop ts.tail = s'.names.expression symbol.ty stop ts.tail :=
      go_congr h.symbol symbol.ty false stop ts.tail [] false stop.line
    simp only [hscan]
    split
    · split
      · exact ⟨rfl, h.emit _ _⟩
      · exact ⟨rfl, (h.emit _ _).emit _ _⟩
    · exact alike_refuse h _

/-- **A line is refused for the same reason in states that are alike**, and leaves them alike. -/
theorem alike_compile (l : Line) : SameFault (Statement.compile s l) (Statement.compile s' l) := by
  unfold Statement.compile
  split
  · exact ⟨rfl, h⟩
  · split
    · exact alike_assignment h _ _ _ _
    · rename_i k _
      cases k with
      | declare ty => exact alike_declaration h _ _ _
      | start => exact alike_start h _ _ _
      | finish => exact alike_finish h _ _
      | display => exact alike_display h _ _
      | move | delay => exact alike_action h _ _ _ _ _
      | drag | click | type | mod => exact alike_refuse h _
    · exact alike_refuse h _

end

theorem faultsOf_cons (s : State) (l : Line) (ls : List Line) :
    faultsOf s (l :: ls) = (Statement.compile s l).fault.toList ++ faultsOf (Statement.compile s l).state ls := by
  rw [faultsOf, compileLines, List.filterMap_cons]
  cases (Statement.compile s l).fault <;> rfl

theorem compileLines_append : ∀ (ls ms : List Line) (s : State),
    faultsOf s (ls ++ ms) = faultsOf s ls ++ faultsOf (compileLines s ls).2 ms ∧
      (compileLines s (ls ++ ms)).2 = (compileLines (compileLines s ls).2 ms).2
  | [], _, _ => ⟨rfl, rfl⟩
  | l :: ls, ms, s => by
    obtain ⟨hfaults, hlast⟩ := compileLines_append ls ms (Statement.compile s l).state
    exact ⟨by rw [List.cons_append, faultsOf_cons, faultsOf_cons, hfaults, List.append_assoc]; rfl, hlast⟩

theorem alike_compileLines : ∀ (ls : List Line) {s s' : State}, Alike s s' →
    faultsOf s ls = faultsOf s' ls ∧ Alike (compileLines s ls).2 (compileLines s' ls).2
  | [], _, _, h => ⟨rfl, h⟩
  | l :: ls, s, s', h => by
    obtain ⟨hfault, hstate⟩ := alike_compile h l
    obtain ⟨hfaults, hlast⟩ := alike_compileLines ls hstate
    exact ⟨by rw [faultsOf_cons, faultsOf_cons, hfault, hfaults], hlast⟩

/-! ## Where faults are -/

/-- A fault on certain lines that is one of a statement: the end of the script has a fault of its own. -/
def Fault.On (P : Nat → Prop) (f : Fault) : Prop := P f.line ∧ ∀ name, f.cause ≠ .unterminatedFunction name

section
variable {P : Nat → Prop}

theorem on_trailing {ts : List Token} (h : ∀ t ∈ ts, P t.line) : ∀ f ∈ Statement.trailing ts, f.On P := by
  cases ts with
  | nil => simp [Statement.trailing]
  | cons t ts =>
    rintro f ⟨⟩
    exact ⟨h t List.mem_cons_self, fun _ => by simp [Fault.onToken]⟩

theorem on_symbol {names : Names} {name : String} {line : Nat} (hl : P line) {f : Fault}
    (h : names.symbol name line = .error f) : f.On P := by
  unfold Names.symbol at h
  split at h
  · cases h
  · split at h <;> cases h <;> exact ⟨hl, fun _ => by simp⟩

theorem on_operand {names : Names} {ty : Ty} {t : Token} (hl : P t.line) {f : Fault} (h : names.operand ty t = .error f) :
    f.On P := by
  unfold Names.operand at h
  split at h
  · cases h
  · cases h
  · split at h
    · rename_i hs
      cases h
      exact on_symbol hl hs
    · split at h
      · cases h
      · cases h
        exact ⟨hl, fun _ => by simp⟩
  · cases h
    exact ⟨hl, fun _ => by simp⟩

/-- A scan that stopped on certain lines. -/
structure Scan.On (P : Nat → Prop) (s : Scan) : Prop where
  fault : ∀ f ∈ s.fault, f.On P
  rest : ∀ t ∈ s.rest, P t.line

theorem Scan.On.after {s : Scan} (h : s.On P) (code : List Instr) : (s.after code).On P := ⟨h.fault, h.rest⟩

theorem on_refuse {t : Token} {ts : List Token} (h : ∀ u ∈ t :: ts, P u.line) {cause : Fault.Cause}
    (hc : ∀ name, cause ≠ .unterminatedFunction name) : (Scan.refuse t ts cause).On P := by
  refine ⟨?_, h⟩
  rintro f ⟨⟩
  exact ⟨h t List.mem_cons_self, hc⟩

theorem on_close {line : Nat} (hl : P line) (pending : List Pending) {ts : List Token} (h : ∀ t ∈ ts, P t.line) :
    (Scan.close pending line ts).On P := by
  unfold Scan.close
  split
  · exact ⟨fun f hf => (by cases hf), h⟩
  · refine ⟨?_, h⟩
    rintro f ⟨⟩
    exact ⟨hl, fun _ => by simp⟩

theorem on_go (names : Names) (ty : Ty) (inArguments : Bool) {stop : Token} (hstop : P stop.line) (pending : List Pending)
    (afterValue : Bool) (last : Nat) (ts : List Token) (hlast : P last) (hts : ∀ t ∈ ts, P t.line) :
    (Scan.go names ty inArguments stop pending afterValue last ts).On P := by
  fun_induction Scan.go names ty inArguments stop pending afterValue last ts with
  | case1 => exact on_close hstop _ hts
  | case2 =>
    refine ⟨?_, hts⟩
    rintro f ⟨⟩
    exact ⟨hstop, fun _ => by simp [Fault.onToken]⟩
  | case3 | case11 | case15 | case19 => exact on_close hlast _ hts
  | case5 _ _ _ _ _ _ _ ih => exact ih (hts _ List.mem_cons_self) (List.forall_mem_cons.1 hts).2
  | case6 _ _ _ _ _ code _ _ ih | case9 _ _ _ _ _ _ code _ _ ih =>
    exact (ih (hts _ List.mem_cons_self) (List.forall_mem_cons.1 hts).2).after code
  | case13 _ _ _ _ _ _ _ _ _ _ ih | case17 _ _ _ _ _ _ _ _ _ _ ih | case21 _ _ _ _ _ _ _ _ _ _ ih =>
    exact (ih (hts _ List.mem_cons_self) (List.forall_mem_cons.1 hts).2).after _
  | case7 => exact (on_refuse hts fun _ => by simp).after _
  | case14 _ _ _ _ _ _ _ _ f hf | case18 _ _ _ _ _ _ _ _ f hf | case22 _ _ _ _ _ _ _ _ f hf =>
    refine ⟨?_, hts⟩
    rintro g ⟨⟩
    exact on_operand (hts _ List.mem_cons_self) hf
  | case4 | case8 | case10 | case12 | case16 | case20 | case23 => exact on_refuse hts fun _ => by simp

theorem on_arguments (names : Names) (ty : Ty) {stop : Token} (hstop : P stop.line) : ∀ (n : Nat) {ts : List Token},
    (∀ t ∈ ts, P t.line) → (names.arguments ty stop n ts).On P
  | 0, _, h => ⟨fun f hf => (by cases hf), h⟩
  | n + 1, ts, h => by
    have hs : (names.argument ty stop ts).On P := on_go names ty true hstop [] false stop.line ts hstop h
    unfold Names.arguments
    simp only
    split
    · exact hs
    · exact (on_arguments names ty hstop n hs.rest).after _

theorem on_nameAfter_error {k : Keyword} {stop : Token} (hstop : P stop.line) {ts : List Token} (h : ∀ t ∈ ts, P t.line)
    {f : Fault} (hf : Statement.nameAfter k stop ts = .error f) : f.On P := by
  cases ts with
  | nil =>
    cases hf
    exact ⟨hstop, fun _ => by simp [Fault.onToken]⟩
  | cons t ts =>
    simp only [Statement.nameAfter] at hf
    split at hf
    · cases hf
    · cases hf
      exact ⟨h t List.mem_cons_self, fun _ => by simp [Fault.onToken]⟩

theorem on_nameAfter_ok {k : Keyword} {stop : Token} {ts rest : List Token} {name : String} {line : Nat}
    (h : ∀ t ∈ ts, P t.line) (hn : Statement.nameAfter k stop ts = .ok (name, line, rest)) :
    P line ∧ ∀ t ∈ rest, P t.line := by
  cases ts with
  | nil => cases hn
  | cons t ts =>
    simp only [Statement.nameAfter] at hn
    split at hn
    · cases hn
      exact List.forall_mem_cons.1 h
    · cases hn

/-- An outcome that tells of certain lines only, and of a function that was open before. -/
structure Outcome.On (P : Nat → Prop) (s : State) (o : Outcome) : Prop where
  fault : ∀ f ∈ o.fault, f.On P
  opened : ∀ f ∈ o.state.opened, f ∈ s.opened ∨ P f.line

section
variable {s : State}

theorem on_refused (s' : State) (hs : s'.opened = s.opened) {f : Fault} (hf : f.On P) : (Statement.refuse s' f).On P s := by
  refine ⟨?_, fun g hg => .inl (hs ▸ hg)⟩
  rintro g ⟨⟩
  exact hf

variable {stop : Token} (hstop : P stop.line) {ts : List Token} (hts : ∀ t ∈ ts, P t.line)
include hts

theorem on_finish {line : Nat} (hl : P line) : (Statement.finish s line ts).On P s := by
  unfold Statement.finish
  split
  · exact ⟨on_trailing hts, fun f hf => by cases hf⟩
  · exact on_refused s rfl ⟨hl, fun _ => by simp⟩

include hstop

theorem on_declaration (ty : Ty) : (Statement.declaration s ty stop ts).On P s := by
  unfold Statement.declaration
  split
  · rename_i hn
    exact on_refused s rfl (on_nameAfter_error hstop hts hn)
  · rename_i hn
    obtain ⟨hline, hrest⟩ := on_nameAfter_ok hts hn
    split
    · exact on_refused s rfl ⟨hline, fun _ => by simp⟩
    · exact ⟨on_trailing hrest, fun f hf => .inl hf⟩

theorem on_start {line : Nat} (hl : P line) : (Statement.start s line stop ts).On P s := by
  unfold Statement.start
  split
  · exact on_refused s rfl ⟨hl, fun _ => by simp⟩
  · split
    · rename_i hn
      exact on_refused s rfl (on_nameAfter_error hstop hts hn)
    · rename_i hn
      obtain ⟨hline, hrest⟩ := on_nameAfter_ok hts hn
      split
      · exact on_refused s rfl ⟨hline, fun _ => by simp⟩
      · refine ⟨on_trailing hrest, ?_⟩
        rintro f ⟨⟩
        exact .inr hline

theorem on_display : (Statement.display s stop ts).On P s := by
  unfold Statement.display
  split
  · rename_i hn
    exact on_refused s rfl (on_nameAfter_error hstop hts hn)
  · rename_i hn
    obtain ⟨hline, hrest⟩ := on_nameAfter_ok hts hn
    split
    · rename_i hsym
      exact on_refused s rfl (on_symbol hline hsym)
    · exact ⟨on_trailing hrest, fun f hf => .inl hf⟩

theorem on_action (ty : Ty) (count : Nat) (act : Instr) : (Statement.action s ty count act stop ts).On P s := by
  have hscan := on_arguments s.names ty hstop count hts
  unfold Statement.action
  simp only
  split
  · rename_i hf
    exact on_refused (s := s) (s.emit _) rfl (hscan.fault _ hf)
  · exact ⟨on_trailing hscan.rest, fun f hf => .inl hf⟩

theorem on_assignment (name : String) {line : Nat} (hl : P line) : (Statement.assignment s name line stop ts).On P s := by
  unfold Statement.assignment
  split
  · rename_i hsym
    exact on_refused s rfl (on_symbol hl hsym)
  · rename_i symbol _
    have htail : ∀ t ∈ ts.tail, P t.line := fun t ht => hts t (List.mem_of_mem_tail ht)
    have hscan : (s.names.expression symbol.ty stop ts.tail).On P :=
      on_go s.names symbol.ty false hstop [] false stop.line ts.tail hstop htail
    have harrow : P (ts.head?.getD stop).line := by
      cases ts with
      | nil => exact hstop
      | cons t ts => exact hts t List.mem_cons_self
    simp only
    split
    · split
      · rename_i hf
        exact on_refused (s := s) (s.emit _) rfl (hscan.fault _ hf)
      · exact ⟨fun f hf => (by cases hf), fun f hf => .inl hf⟩
    · exact on_refused s rfl ⟨harrow, fun _ => by simp [Fault.onToken]⟩

end

/-- **A line tells of itself only.** -/
theorem on_compile (s : State) {l : Line} (hl : ∀ t ∈ l.tokens, P t.line) : (Statement.compile s l).On P s := by
  obtain ⟨body, stop⟩ := l
  obtain ⟨hbody, hends⟩ := List.forall_mem_append.1 hl
  have hstop : P stop.line := hends stop List.mem_cons_self
  unfold Statement.compile
  simp only
  split
  · exact ⟨fun f hf => (by cases hf), fun f hf => .inl hf⟩
  · rename_i t ts
    obtain ⟨ht, hts⟩ := List.forall_mem_cons.1 hbody
    split
    · exact on_assignment hstop hts _ ht
    · rename_i k _
      cases k with
      | declare ty => exact on_declaration hstop hts ty
      | start => exact on_start hstop hts ht
      | finish => exact on_finish hts ht
      | display => exact on_display hstop hts
      | move | delay => exact on_action hstop hts _ _ _
      | drag | click | type | mod => exact on_refused s rfl ⟨ht, fun _ => by simp⟩
    · exact on_refused s rfl ⟨ht, fun _ => by simp [Fault.onToken]⟩

theorem on_compileLines : ∀ {ls : List Line} (s : State), (∀ l ∈ ls, ∀ t ∈ l.tokens, P t.line) →
    (∀ f ∈ faultsOf s ls, f.On P) ∧ ∀ f ∈ (compileLines s ls).2.opened, f ∈ s.opened ∨ P f.line
  | [], _, _ => ⟨fun f hf => (by cases hf), fun f hf => .inl hf⟩
  | l :: ls, s, hl => by
    obtain ⟨hfirst, hrest⟩ := List.forall_mem_cons.1 hl
    obtain ⟨hfault, hopened⟩ := on_compile s hfirst
    obtain ⟨hfaults, hlast⟩ := on_compileLines (Statement.compile s l).state hrest
    refine ⟨fun f hf => ?_, fun f hf => ?_⟩
    · rw [faultsOf_cons, List.mem_append, Option.mem_toList] at hf
      exact hf.elim (hfault f) (hfaults f)
    · exact (hlast f hf).elim (hopened f) .inr

end

/-! ## Lines that change no names -/

/-- The tokens that begin a declaration, the start of a function or its end. -/
def changesNames : Token.Kind → Bool
  | .keyword (.declare _) | .keyword .start | .keyword .finish => true
  | _ => false

/-- **Any other line only emits code.** -/
theorem alike_of_compile {s : State} {l : Line} (h : ∀ t ∈ l.body.head?, changesNames t.kind = false) :
    Alike s (Statement.compile s l).state := by
  obtain ⟨body, stop⟩ := l
  unfold Statement.compile
  simp only
  split
  · exact .refl s
  · rename_i t ts
    have hnames : changesNames t.kind = false := h t rfl
    split
    · unfold Statement.assignment
      split
      · exact .refl s
      · simp only
        split
        · split
          · exact ⟨rfl, rfl, rfl⟩
          · exact ⟨rfl, rfl, rfl⟩
        · exact .refl s
    · rename_i k hk
      rw [hk] at hnames
      cases k with
      | declare | start | finish => cases hnames
      | display =>
        show Alike s (Statement.display s stop ts).state
        unfold Statement.display
        split
        · exact .refl s
        · split
          · exact .refl s
          · exact ⟨rfl, rfl, rfl⟩
      | move | delay =>
        show Alike s (Statement.action s _ _ _ stop ts).state
        unfold Statement.action
        simp only
        split
        · exact ⟨rfl, rfl, rfl⟩
        · exact ⟨rfl, rfl, rfl⟩
      | drag | click | type | mod => exact .refl s
    · exact .refl s

/-- All faults of lines, that of a function left open last. -/
def allFaults (ls : List Line) : List Fault :=
  faultsOf .initial ls ++ (unfinished (compileLines .initial ls).2).toList

/-- **A line that changes no names can be blanked**: the other faults stay, and in their order. -/
theorem allFaults_blank {n : Nat} {up down : List Line} {l : Line}
    (hother : ∀ k ∈ up ++ down, ∀ t ∈ k.tokens, t.line ≠ n) (hl : ∀ t ∈ l.tokens, t.line = n)
    (hnames : ∀ t ∈ l.body.head?, changesNames t.kind = false) :
    allFaults (up ++ ⟨[], l.stop⟩ :: down) = (allFaults (up ++ l :: down)).filter (fun f => f.line ≠ n) ∧
      ∀ f ∈ allFaults (up ++ l :: down), ∀ name, f.cause = .unterminatedFunction name → f.line ≠ n := by
  obtain ⟨hup, hdown⟩ := List.forall_mem_append.1 hother
  obtain ⟨hfaultsUp, hopenedUp⟩ := on_compileLines (P := (· ≠ n)) .initial hup
  simp only [allFaults, (compileLines_append up _ .initial).1, (compileLines_append up _ .initial).2]
  generalize (compileLines .initial up).2 = s at hopenedUp ⊢
  obtain ⟨hfaultsDown, hopenedDown⟩ := on_compileLines (P := (· ≠ n)) s hdown
  have hown := (on_compile (P := (· = n)) s hl).fault
  obtain ⟨hsame, hlast⟩ := alike_compileLines down (alike_of_compile (s := s) hnames)
  have hopen : ∀ f ∈ unfinished (compileLines s down).2, f.line ≠ n := fun f hf => by
    obtain ⟨g, hg, rfl⟩ := Option.map_eq_some_iff.1 hf
    rcases hopenedDown g hg with hg | hg
    · exact (hopenedUp g hg).resolve_left (by simp [State.initial])
    · exact hg
  have hunfinished : unfinished (compileLines s (l :: down)).2 = unfinished (compileLines s down).2 := by
    show unfinished (compileLines (Statement.compile s l).state down).2 = _
    rw [unfinished, unfinished, hlast.opened]
  have hblank : faultsOf s (⟨[], l.stop⟩ :: down) = faultsOf s down := rfl
  have hkeep {fs : List Fault} (h : ∀ f ∈ fs, f.line ≠ n) : fs.filter (fun f => f.line ≠ n) = fs :=
    List.filter_eq_self.2 fun f hf => by simpa using h f hf
  have hdrop : (Statement.compile s l).fault.toList.filter (fun f => f.line ≠ n) = [] :=
    List.filter_eq_nil_iff.2 fun f hf => by simpa using (hown f (Option.mem_toList.1 hf)).1
  rw [hblank, faultsOf_cons s l, ← hsame, hunfinished]
  constructor
  · simp only [List.filter_append, hdrop, hkeep fun f hf => (hfaultsUp f hf).1, hkeep fun f hf => (hfaultsDown f hf).1,
      hkeep fun f hf => hopen f (Option.mem_toList.1 hf), List.nil_append]
    rfl
  · intro f hf name hcause
    simp only [List.mem_append, Option.mem_toList] at hf
    rcases hf with (hf | hf | hf) | hf
    · exact (hfaultsUp f hf).1
    · exact absurd hcause ((hown f hf).2 name)
    · exact (hfaultsDown f hf).1
    · exact hopen f hf

/-! ## Sources -/

/-- The faults that are reported of a source. -/
def reported (source : String) : List Fault :=
  match compile source with
  | .error (.invalid faults) => faults
  | _ => []

theorem reported_of_lex {source : String} {tokens : List Token} (h : Lexer.lex source = .ok tokens) :
    reported source = allFaults (Line.split tokens) := by
  have hc : compile source = (Compilation.ofTokens source tokens).result := by rw [compile, analyse, h]; rfl
  have hf : (Compilation.ofTokens source tokens).faults = allFaults (Line.split tokens) := rfl
  rw [reported, hc, Compilation.result, hf]
  by_cases hnil : allFaults (Line.split tokens) = []
  · rw [if_pos hnil, hnil]
  · rw [if_neg hnil]

/-- The characters of lines, each with the end of its line. -/
def above (ls : List (List Char)) : List Char := ls.flatMap fun l => l ++ ['\n']

/-- The characters of lines, each behind the end of a line. -/
def behind (ls : List (List Char)) : List Char := ls.flatMap fun l => '\n' :: l

theorem above_cons (l : List Char) (ls : List (List Char)) : above (l :: ls) = l ++ '\n' :: above ls := by simp [above]

theorem intercalate_around (line : List Char) : ∀ before after : List (List Char),
    ['\n'].intercalate (before ++ line :: after) = above before ++ (line ++ behind after)
  | [], [] => by simp [above, behind]
  | [], l :: after => by
    have ih := intercalate_around l [] after
    rw [List.nil_append] at ih ⊢
    rw [List.intercalate_cons_cons, ih]
    simp [above, behind]
  | l :: before, after => by
    have ih := intercalate_around line before after
    obtain ⟨k, ks, hk⟩ : ∃ k ks, before ++ line :: after = k :: ks := List.exists_cons_of_ne_nil (by simp)
    rw [hk] at ih
    rw [List.cons_append, hk, List.intercalate_cons_cons, ih]
    simp [above]

theorem endsLine_above (ls : List (List Char)) : Lexer.EndsLine (above ls) := by
  rcases List.eq_nil_or_concat ls with rfl | ⟨init, l, rfl⟩
  · exact .inl rfl
  · exact .inr ⟨above init ++ l, by simp [above]⟩

theorem beginsLine_behind (ls : List (List Char)) : Lexer.BeginsLine (behind ls) := by
  cases ls with
  | nil => exact .inl rfl
  | cons l ls => exact .inr ⟨l ++ behind ls, rfl⟩

theorem count_above : ∀ {ls : List (List Char)}, (∀ l ∈ ls, '\n' ∉ l) → (above ls).count '\n' = ls.length
  | [], _ => rfl
  | l :: ls, h => by
    obtain ⟨hl, hls⟩ := List.forall_mem_cons.1 h
    rw [above_cons, List.count_append, List.count_eq_zero.2 hl, List.count_cons_self, count_above hls, Nat.zero_add]
    rfl

theorem quoted_above (ls : List (List Char)) : Lexer.quoted (above ls) = Lexer.quoted ls.flatten := by
  have hcount : (above ls).count '"' = ls.flatten.count '"' := by
    induction ls with
    | nil => rfl
    | cons l ls ih => simp [above_cons, ih]
  rw [Lexer.quoted, Lexer.quoted, hcount]

/-- **A line can be blanked without a trace in the faults of the others.**  The line neither begins nor ends inside of a
text, and its first token begins no declaration and no start or end of a function. -/
theorem reported_without_line {source : String} {tokens : List Token} (hlex : Lexer.lex source = .ok tokens)
    {before after : List (List Char)} {line : List Char} (hlines : linesOf source = before ++ line :: after)
    (hbegins : Lexer.quoted before.flatten = false) (hends : Lexer.quoted line = false)
    (hfirst : ∀ t ∈ tokens.find? (fun t => t.line == before.length + 1), changesNames t.kind = false) :
    (∃ tokens', Lexer.lex (ofLines (before ++ [] :: after)) = .ok tokens') ∧
      reported (ofLines (before ++ [] :: after)) = (reported source).filter (fun f => f.line ≠ before.length + 1) ∧
      ∀ f ∈ reported source, ∀ name, f.cause = .unterminatedFunction name → f.line ≠ before.length + 1 := by
  have hnewline : ∀ l ∈ before ++ line :: after, '\n' ∉ l := fun l hl =>
    newline_notMem_of_mem_splitOn (show l ∈ linesOf source by rw [hlines]; exact hl)
  obtain ⟨hbefore, hrest⟩ := List.forall_mem_append.1 hnewline
  have hcount := count_above hbefore
  have hsource : source.toList = above before ++ (line ++ behind after) := by
    rw [← ofLines_linesOf source, hlines, ofLines, String.toList_ofList, intercalate_around]
  have hblank : (ofLines (before ++ [] :: after)).toList = above before ++ behind after := by
    rw [ofLines, String.toList_ofList, intercalate_around, List.nil_append]
  obtain ⟨he, htokens⟩ := Lexer.lex_ok_iff.1 hlex
  rw [hsource] at he htokens
  obtain ⟨he', up, l, down, hup, hup', hfind, hl, hother⟩ := lines_around (endsLine_above before) (beginsLine_behind after)
    (hrest line List.mem_cons_self) (by rw [quoted_above]; exact hbegins) hends he
  rw [hcount] at hfind hl hother
  have hlex' : Lexer.lex (ofLines (before ++ [] :: after)) =
      .ok (Lexer.tokens (Lexer.items .initial (above before ++ behind after))) := by
    rw [Lexer.lex_ok_iff, hblank]
    exact ⟨he', rfl⟩
  rw [htokens] at hup hfind
  have hnames : ∀ t ∈ l.body.head?, changesNames t.kind = false := fun t ht => by
    refine hfirst t ?_
    rw [hfind, Line.tokens, List.head?_append, ht]
    rfl
  rw [reported_of_lex hlex, reported_of_lex hlex', hup, hup']
  exact ⟨⟨_, hlex'⟩, allFaults_blank hother hl hnames⟩

/-- A list of arguments with an open parenthesis, in a function that is not closed either. -/
theorem reported_without_open_parenthesis :
    reported "int x\nstart f\nmove (1 2\nx <- 1" =
        [⟨.unbalancedParentheses, 3⟩, ⟨.undeclaredName "x", 4⟩, ⟨.unterminatedFunction "f", 2⟩] ∧
      reported "int x\nstart f\n\nx <- 1" = [⟨.undeclaredName "x", 4⟩, ⟨.unterminatedFunction "f", 2⟩] := by
  have hlex : Lexer.lex "int x\nstart f\nmove (1 2\nx <- 1" = .ok
      [⟨.keyword (.declare .int), 1⟩, ⟨.name "x", 1⟩, ⟨.endOfLine, 1⟩, ⟨.keyword .start, 2⟩, ⟨.name "f", 2⟩, ⟨.endOfLine, 2⟩,
        ⟨.keyword .move, 3⟩, ⟨.operator .leftParen, 3⟩, ⟨.int 1, 3⟩, ⟨.int 2, 3⟩, ⟨.endOfLine, 3⟩, ⟨.name "x", 4⟩,
        ⟨.operator .assign, 4⟩, ⟨.int 1, 4⟩, ⟨.endOfSource, 4⟩] := by decide +kernel
  have hlines : linesOf "int x\nstart f\nmove (1 2\nx <- 1" =
      ["int x".toList, "start f".toList] ++ "move (1 2".toList :: ["x <- 1".toList] := by decide +kernel
  have hfaults : reported "int x\nstart f\nmove (1 2\nx <- 1" =
      [⟨.unbalancedParentheses, 3⟩, ⟨.undeclaredName "x", 4⟩, ⟨.unterminatedFunction "f", 2⟩] := by decide +kernel
  obtain ⟨-, hblank, -⟩ := reported_without_line hlex hlines (by decide) (by decide) (by decide)
  rw [hfaults] at hblank
  exact ⟨hfaults, hblank⟩

end Autoscript.Script
