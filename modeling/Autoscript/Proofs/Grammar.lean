import Autoscript.Token
import Mathlib.Data.List.Chain
/-!
# Grammar — expressions as trees

What an expression means is read off a tree: products bind tighter than sums, and operators of one strength group to
the left.  `Derives` is the grammar, from the tokens of an expression to its tree:

    sum     →  product  |  sum ('+' | '-') product
    product →  atom     |  product ('*' | '/') atom
    atom    →  integer  |  float  |  name  |  '(' sum ')'

An expression has one tree (`Derives.unique`), and expressions in a row come apart in one way only (`Row.unique`).
-/
namespace Autoscript

/-- The three strengths of an expression, the loosest first. -/
inductive Rank where
  | sum
  | product
  | atom
deriving DecidableEq, Repr

namespace Rank

/-- The rank of what stands to the right of an operator. -/
def tighter : Rank → Rank
  | .sum => .product
  | .product | .atom => .atom

/-- Ranks as binding strengths; nothing binds as tightly as an atom. -/
def strength : Rank → Nat
  | .sum => 2
  | .product => 3
  | .atom => 4

theorem strength_le_tighter (r : Rank) : r.strength ≤ r.tighter.strength := by cases r <;> decide

end Rank

/-- The rank of what an operator builds. -/
def Arith.rank : Arith → Rank
  | .add | .sub => .sum
  | .mul | .div => .product

namespace Arith

theorem strength_rank (op : Arith) : op.rank.strength = op.precedence := by cases op <;> rfl

theorem strength_tighter_rank (op : Arith) : op.rank.tighter.strength = op.precedence + 1 := by cases op <;> rfl

theorem precedence_lt (op : Arith) : op.precedence < 4 := by cases op <;> decide

end Arith

namespace Script

/-- An expression as the tree of its operands. -/
inductive Expr where
  | int (value : Int32)
  | float (value : Single)
  | name (name : String)
  | binary (op : Arith) (left right : Expr)
deriving DecidableEq

abbrev sign (op : Arith) : Token.Kind := .operator (.arith op)

/-- **The grammar**: the tokens of an expression of a rank, and its tree. -/
inductive Derives : Rank → List Token.Kind → Expr → Prop where
  | int (n : Int32) : Derives .atom [.int n] (.int n)
  | float (x : Single) : Derives .atom [.float x] (.float x)
  | name (x : String) : Derives .atom [.name x] (.name x)
  | paren {ts : List Token.Kind} {e : Expr} : Derives .sum ts e →
      Derives .atom (.operator .leftParen :: (ts ++ [.operator .rightParen])) e
  | widen {r : Rank} {ts : List Token.Kind} {e : Expr} : Derives r.tighter ts e → Derives r ts e
  | binary (op : Arith) {ls rs : List Token.Kind} {l r : Expr} : Derives op.rank ls l →
      Derives op.rank.tighter rs r → Derives op.rank (ls ++ sign op :: rs) (.binary op l r)

/-! ## Parentheses -/

def opens : Token.Kind → Int
  | .operator .leftParen => 1
  | .operator .rightParen => -1
  | _ => 0

/-- How many parentheses are open after some tokens. -/
def depth : List Token.Kind → Int
  | [] => 0
  | t :: ts => opens t + depth ts

@[simp] theorem depth_nil : depth [] = 0 := rfl

@[simp] theorem depth_cons (t : Token.Kind) (ts : List Token.Kind) : depth (t :: ts) = opens t + depth ts := rfl

@[simp] theorem depth_append (us : List Token.Kind) : ∀ ts : List Token.Kind, depth (ts ++ us) = depth ts + depth us
  | [] => by simp
  | t :: ts => by rw [List.cons_append, depth_cons, depth_cons, depth_append us ts, Int.add_assoc]

/-- Two cuts of one list, each around one element: the same cut, or one on either side of the other. -/
theorem cut_cases {α : Type} {ls rs pre post : List α} {x y : α} (h : ls ++ x :: rs = pre ++ y :: post) :
    (ls = pre ∧ x = y ∧ rs = post) ∨ (∃ mid, pre = ls ++ x :: mid ∧ rs = mid ++ y :: post) ∨
      ∃ mid, ls = pre ++ y :: mid ∧ post = mid ++ x :: rs := by
  rcases List.append_eq_append_iff.1 h with ⟨q, rfl, hq⟩ | ⟨q, rfl, hq⟩
  · rcases List.cons_eq_append_iff.1 hq with ⟨rfl, hc⟩ | ⟨mid, rfl, rfl⟩
    · injection hc with h1 h2
      exact .inl ⟨by simp, h1.symm, h2.symm⟩
    · exact .inr (.inl ⟨mid, rfl, rfl⟩)
  · rcases List.cons_eq_append_iff.1 hq with ⟨rfl, hc⟩ | ⟨mid, rfl, rfl⟩
    · injection hc with h1 h2
      exact .inl ⟨by simp, h1, h2⟩
    · exact .inr (.inr ⟨mid, rfl, rfl⟩)

theorem depth_pos_of_inside {ts pre post : List Token.Kind} {op : Arith}
    (hb : ∀ pre post, ts = pre ++ post → 0 ≤ depth pre)
    (h : .operator .leftParen :: (ts ++ [.operator .rightParen]) = pre ++ sign op :: post) : 0 < depth pre := by
  rcases List.cons_eq_append_iff.1 h with ⟨-, hc⟩ | ⟨p, rfl, hc⟩
  · cases hc
  · have hp : 0 ≤ depth p := by
      rcases cut_cases hc with ⟨-, hc, -⟩ | ⟨_, -, hc⟩ | ⟨mid, rfl, -⟩
      · cases hc
      · simp at hc
      · exact hb _ _ rfl
    simp only [depth_cons, opens]
    omega

namespace Derives

variable {r r' : Rank} {ts : List Token.Kind} {e e' : Expr}

theorem ne_nil (h : Derives r ts e) : ts ≠ [] := by
  induction h with
  | widen _ ih => exact ih
  | _ => simp

theorem balanced (h : Derives r ts e) : depth ts = 0 ∧ ∀ pre post, ts = pre ++ post → 0 ≤ depth pre := by
  induction h with
  | int | float | name =>
    refine ⟨rfl, fun pre post hp => ?_⟩
    rcases List.singleton_eq_append_iff.1 hp with ⟨rfl, -⟩ | ⟨rfl, -⟩ <;> exact Int.le_refl 0
  | @paren ts e _ ih =>
    refine ⟨by simp [opens, ih.1], fun pre post hp => ?_⟩
    rcases List.cons_eq_append_iff.1 hp with ⟨rfl, -⟩ | ⟨p, rfl, hp'⟩
    · exact Int.le_refl 0
    · rw [depth_cons]
      rcases List.append_eq_append_iff.1 hp' with ⟨q, rfl, hq⟩ | ⟨q, hq, -⟩
      · rcases List.singleton_eq_append_iff.1 hq with ⟨rfl, -⟩ | ⟨rfl, -⟩ <;> simp [opens, ih.1]
      · have := ih.2 p q hq
        simp only [opens]
        omega
  | widen _ ih => exact ih
  | @binary op ls rs _ _ _ _ ihl ihr =>
    refine ⟨by simp [opens, ihl.1, ihr.1], fun pre post hp => ?_⟩
    rcases List.append_eq_append_iff.1 hp with ⟨q, rfl, hq⟩ | ⟨q, hq, -⟩
    · rw [depth_append, ihl.1]
      rcases List.cons_eq_append_iff.1 hq with ⟨rfl, -⟩ | ⟨p, rfl, hp'⟩
      · exact Int.le_refl 0
      · have := ihr.2 p post hp'
        simp only [depth_cons, opens]
        omega
    · exact ihl.2 pre q hq

/-- **An operator outside of all parentheses binds no tighter than the expression's rank.** -/
theorem strength_le (h : Derives r ts e) : ∀ pre op post, ts = pre ++ sign op :: post → depth pre = 0 →
    r.strength ≤ op.precedence := by
  induction h with
  | int | float | name =>
    intro pre op post hs _
    rcases List.singleton_eq_append_iff.1 hs with ⟨-, hs⟩ | ⟨-, hs⟩ <;> cases hs
  | @paren ts e h ih =>
    intro pre op post hs hd
    have := depth_pos_of_inside h.balanced.2 hs
    omega
  | @widen r _ _ _ ih =>
    intro pre op post hs hd
    exact Nat.le_trans r.strength_le_tighter (ih pre op post hs hd)
  | @binary op ls rs _ _ hl _ ihl ihr =>
    intro pre op' post hs hd
    rw [op.strength_rank] at *
    rcases cut_cases hs with ⟨-, hs, -⟩ | ⟨mid, rfl, rfl⟩ | ⟨mid, rfl, -⟩
    · cases hs; exact Nat.le_refl _
    · rw [op.strength_tighter_rank] at ihr
      have hm : depth mid = 0 := by simpa [opens, hl.balanced.1] using hd
      exact Nat.le_of_succ_le (ihr mid op' post rfl hm)
    · exact ihl pre op' mid rfl hd

/-! ## One tree for each expression -/

theorem of_singleton {t : Token.Kind} (h : Derives r [t] e) :
    (∃ n, t = .int n ∧ e = .int n) ∨ (∃ x, t = .float x ∧ e = .float x) ∨ ∃ x, t = .name x ∧ e = .name x := by
  generalize hs : [t] = ts at h
  induction h with
  | int n => cases hs; exact .inl ⟨n, rfl, rfl⟩
  | float x => cases hs; exact .inr (.inl ⟨x, rfl, rfl⟩)
  | name x => cases hs; exact .inr (.inr ⟨x, rfl, rfl⟩)
  | paren => simp at hs
  | widen _ ih => exact ih hs
  | binary op hl hr =>
    rcases List.singleton_eq_append_iff.1 hs with ⟨hs, -⟩ | ⟨-, hs⟩
    · exact absurd hs hl.ne_nil
    · cases hs

theorem of_paren (hb : ∀ pre post, ts = pre ++ post → 0 ≤ depth pre)
    (h : Derives r (.operator .leftParen :: (ts ++ [.operator .rightParen])) e) : Derives .sum ts e := by
  generalize hs : Token.Kind.operator .leftParen :: (ts ++ [.operator .rightParen]) = us at h
  induction h with
  | int | float | name => simp at hs
  | paren h =>
    rw [List.cons.injEq, List.append_left_inj] at hs
    rw [hs.2]; exact h
  | widen _ ih => exact ih hs
  | @binary op ls rs _ _ hl _ _ _ =>
    have := depth_pos_of_inside hb hs
    have := hl.balanced.1
    omega

-- Two operators cannot each stand in the operand of the other: the one on the left would bind no tighter than the one on
-- the right, and the one on the right no looser than the one on the left.
theorem not_crossed {op op' : Arith} {pre mid post : List Token.Kind} {l r : Expr}
    (hl : Derives op'.rank (pre ++ sign op :: mid) l) (hr : Derives op.rank.tighter (mid ++ sign op' :: post) r)
    (hp : depth pre = 0) : False := by
  have h1 := hl.strength_le pre op mid rfl hp
  have hm : depth mid = 0 := by simpa [opens, hp] using hl.balanced.1
  have h2 := hr.strength_le mid op' post rfl hm
  rw [op'.strength_rank] at h1
  rw [op.strength_tighter_rank] at h2
  omega

theorem of_binary {op : Arith} {ls rs : List Token.Kind} {l r : Expr} {k : Rank} (hl : Derives op.rank ls l)
    (hr : Derives op.rank.tighter rs r) (h : Derives k (ls ++ sign op :: rs) e) :
    ∃ l' r', e = .binary op l' r' ∧ Derives op.rank ls l' ∧ Derives op.rank.tighter rs r' := by
  generalize hs : ls ++ sign op :: rs = us at h
  induction h with
  | int | float | name =>
    rcases List.append_eq_singleton_iff.1 hs with ⟨hs, -⟩ | ⟨-, hs⟩
    · exact absurd hs hl.ne_nil
    · cases hs
  | @paren ts e h =>
    have := depth_pos_of_inside h.balanced.2 hs.symm
    have := hl.balanced.1
    omega
  | widen _ ih => exact ih hs
  | @binary op' ls' rs' l' r' hl' hr' _ _ =>
    have hd := hl.balanced.1
    have hd' := hl'.balanced.1
    rcases cut_cases hs with ⟨rfl, ho, rfl⟩ | ⟨mid, rfl, rfl⟩ | ⟨mid, rfl, rfl⟩
    · cases ho; exact ⟨l', r', rfl, hl', hr'⟩
    · exact (not_crossed hl' hr hd).elim
    · exact (not_crossed hl hr' hd').elim

/-- **An expression has one tree.** -/
theorem unique (h : Derives r ts e) (h' : Derives r' ts e') : e = e' := by
  induction h generalizing r' e' with
  | int | float | name =>
    rcases h'.of_singleton with ⟨_, ht, rfl⟩ | ⟨_, ht, rfl⟩ | ⟨_, ht, rfl⟩ <;> cases ht
    rfl
  | paren h ih => exact ih (of_paren h.balanced.2 h')
  | widen _ ih => exact ih h'
  | binary op hl hr ihl ihr =>
    obtain ⟨l', r', rfl, hl', hr'⟩ := of_binary hl hr h'
    rw [ihl hl', ihr hr']

end Derives

/-! ## Expressions in a row -/

def startsValue : Token.Kind → Bool
  | .int _ | .float _ | .name _ | .operator .leftParen => true
  | _ => false

def endsValue : Token.Kind → Bool
  | .int _ | .float _ | .name _ | .operator .rightParen => true
  | _ => false

/-- Two tokens that can be neighbours in an expression: a value does not follow a value. -/
def Adjoins (s t : Token.Kind) : Prop := ¬ (endsValue s = true ∧ startsValue t = true)

namespace Derives

variable {r : Rank} {ts us : List Token.Kind} {e f : Expr}

theorem starts (h : Derives r ts e) : ∀ t ∈ ts.head?, startsValue t = true := by
  induction h with
  | int | float | name | paren => intro t ht; cases ht; rfl
  | widen _ ih => exact ih
  | binary op hl _ ihl =>
    rw [List.head?_append_of_ne_nil _ hl.ne_nil]
    exact ihl

theorem ends (h : Derives r ts e) : ∀ t ∈ ts.getLast?, endsValue t = true := by
  induction h with
  | int | float | name => intro t ht; cases ht; rfl
  | paren =>
    rw [← List.cons_append, List.getLast?_concat]
    intro t ht; cases ht; rfl
  | widen _ ih => exact ih
  | binary op _ hr _ ihr =>
    rw [List.getLast?_append_of_ne_nil _ (List.cons_ne_nil _ _), List.getLast?_cons_of_ne_nil hr.ne_nil]
    exact ihr

/-- **No value of an expression follows a value directly.** -/
theorem adjoins (h : Derives r ts e) : ts.IsChain Adjoins := by
  induction h with
  | int | float | name => exact List.isChain_singleton _
  | paren _ ih =>
    refine List.IsChain.cons (ih.append (List.isChain_singleton _) ?_) ?_
    · rintro s - t ht ⟨-, hv⟩
      cases ht; cases hv
    · rintro t - ⟨hv, -⟩
      cases hv
  | widen _ ih => exact ih
  | binary op _ _ ihl ihr =>
    refine ihl.append (ihr.cons ?_) ?_
    · rintro t - ⟨hv, -⟩
      cases hv
    · rintro s - t ht ⟨-, hv⟩
      cases ht; cases hv

theorem not_append_of_starts (h : Derives r ts e) (k : Derives r (ts ++ us) f) (hu : us ≠ [])
    (hv : ∀ t ∈ us.head?, startsValue t = true) : False := by
  obtain ⟨t, us, rfl⟩ := List.exists_cons_of_ne_nil hu
  obtain ⟨s, hs⟩ := Option.ne_none_iff_exists'.1 (fun hn => h.ne_nil (List.getLast?_eq_none_iff.1 hn))
  exact (List.isChain_append.1 k.adjoins).2.2 s hs t rfl ⟨h.ends s hs, hv t rfl⟩

end Derives

/-- **Expressions in a row**, with nothing between them. -/
inductive Row : List Token.Kind → List Expr → Prop where
  | nil : Row [] []
  | cons {ks ls : List Token.Kind} {e : Expr} {es : List Expr} : Derives .sum ks e → Row ls es → Row (ks ++ ls) (e :: es)

namespace Row

theorem starts {ks : List Token.Kind} {es : List Expr} (h : Row ks es) : ∀ k ∈ ks.head?, startsValue k = true := by
  cases h with
  | nil => intro k hk; cases hk
  | cons hd _ =>
    rw [List.head?_append_of_ne_nil _ hd.ne_nil]
    exact hd.starts

theorem append_inj {ts us ts' us' : List Token.Kind} {e e' : Expr} {es es' : List Expr} (h : Derives .sum ts e)
    (k : Row us es) (h' : Derives .sum ts' e') (k' : Row us' es') (hs : ts ++ us = ts' ++ us') :
    ts = ts' ∧ us = us' := by
  rcases List.append_eq_append_iff.1 hs with ⟨q, rfl, rfl⟩ | ⟨q, rfl, rfl⟩
  · by_cases hq : q = []
    · subst hq; simp
    · refine (h.not_append_of_starts h' hq fun t ht => k.starts t ?_).elim
      rw [List.head?_append_of_ne_nil _ hq]; exact ht
  · by_cases hq : q = []
    · subst hq; simp
    · refine (h'.not_append_of_starts h hq fun t ht => k'.starts t ?_).elim
      rw [List.head?_append_of_ne_nil _ hq]; exact ht

/-- **A row comes apart in one way only.** -/
theorem unique {ks : List Token.Kind} {es es' : List Expr} (h : Row ks es) (h' : Row ks es') : es = es' := by
  induction h generalizing es' with
  | nil =>
    generalize hk : ([] : List Token.Kind) = ks at h'
    cases h' with
    | nil => rfl
    | cons hd _ => exact absurd (List.append_eq_nil_iff.1 hk.symm).1 hd.ne_nil
  | @cons ks ls e es hd hrow ih =>
    generalize hk : ks ++ ls = ks' at h'
    cases h' with
    | nil => exact absurd (List.append_eq_nil_iff.1 hk).1 hd.ne_nil
    | cons hd' hrow' =>
      obtain ⟨rfl, rfl⟩ := append_inj hd hrow hd' hrow' hk
      rw [hd.unique hd', ih hrow']

end Row
end Script
end Autoscript
