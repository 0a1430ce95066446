import RustContracts.Resolve.Binary

-- Operands with binary operators between them, grouped by precedence. What climbing builds is the only tree that reads
-- like the chain and in which every operand of an operation binds tightly enough to stand there without parentheses.
namespace RustContracts.Resolve

open Program
open Solidity (BinaryOp)
open Text (Position)

variable {α β : Type}

def Step.map (f : α → β) (s : Step α) : Step β := ⟨s.start, s.op, f s.right⟩

-- Operands under binary operations.
inductive Grouping (α : Type) where
  | operand (a : α)
  | operation (start : Position) (op : BinaryOp) (left right : Grouping α)

-- How tightly an operation binds at least that stands on the left of an operator, and on its right. Exponentiation
-- groups to the right, all else to the left.
def leftLeast (op : BinaryOp) : Nat := if op = .pow then op.precedence + 1 else op.precedence

def rightLeast (op : BinaryOp) : Nat := if op = .pow then op.precedence else op.precedence + 1

theorem precedence_le_leftLeast (op : BinaryOp) : op.precedence ≤ leftLeast op := by
  cases op <;> decide

theorem precedence_le_rightLeast (op : BinaryOp) : op.precedence ≤ rightLeast op := by
  cases op <;> decide

-- Nothing else binds as tightly as exponentiation.
theorem eq_pow_of_le {op : BinaryOp} (h : BinaryOp.pow.precedence ≤ op.precedence) : op = .pow := by
  cases op <;> first | rfl | exact absurd h (by decide)

-- Of two operators, each binds too loosely to be found both behind the first one and before the second one.
theorem not_both_sides (op other : BinaryOp) (hright : rightLeast op ≤ other.precedence) :
    ¬leftLeast other ≤ op.precedence := by
  have hother := precedence_le_leftLeast other
  intro hleft
  by_cases hpow : op = .pow
  · obtain rfl : other = .pow := eq_pow_of_le (hpow ▸ Nat.le_trans (precedence_le_rightLeast op) hright)
    rw [leftLeast, if_pos rfl, hpow] at hleft
    omega
  · rw [rightLeast, if_neg hpow] at hright
    omega

-- An operation that is extended to its right as far as possible can stand left of what follows.
theorem leftLeast_le_of_lt (op next : BinaryOp) (h : next.precedence < rightLeast op) :
    leftLeast next ≤ op.precedence := by
  unfold rightLeast at h
  unfold leftLeast
  split
  · next hnext =>
      subst hnext
      split at h
      · next hpow =>
          subst hpow
          omega
      · next hpow => exact absurd (eq_pow_of_le (Nat.le_of_lt_succ h)) hpow
  · split at h <;> omega

namespace Grouping

-- The reading from left to right: the first operand, and the operators with the operands behind them.
def first : Grouping α → α
  | operand a => a
  | operation _ _ left _ => left.first

def steps : Grouping α → List (Step α)
  | operand _ => []
  | operation start op left right => left.steps ++ ⟨start, op, right.first⟩ :: right.steps

def operands (t : Grouping α) : List α := t.first :: t.steps.map Step.right

theorem operands_operation (start : Position) (op : BinaryOp) (left right : Grouping α) :
    (operation start op left right).operands = left.operands ++ right.operands := by
  simp [operands, first, steps]

-- The root binds at least this tightly. An operand binds tighter than every operator.
def Binds (least : Nat) : Grouping α → Prop
  | operand _ => True
  | operation _ op _ _ => least ≤ op.precedence

-- Every operation holds operands that need no parentheses.
def Tight : Grouping α → Prop
  | operand _ => True
  | operation _ op left right =>
    left.Binds (leftLeast op) ∧ right.Binds (rightLeast op) ∧ left.Tight ∧ right.Tight

instance decidableBinds (least : Nat) : (t : Grouping α) → Decidable (t.Binds least)
  | operand _ => .isTrue trivial
  | operation _ op _ _ => inferInstanceAs (Decidable (least ≤ op.precedence))

instance decidableTight : (t : Grouping α) → Decidable t.Tight
  | operand _ => .isTrue trivial
  | operation _ op left right =>
    have := decidableTight left
    have := decidableTight right
    inferInstanceAs (Decidable (left.Binds (leftLeast op) ∧ right.Binds (rightLeast op) ∧ left.Tight ∧ right.Tight))

-- What comes out when each operation is combined.
def fold (f : Position → BinaryOp → α → α → α) : Grouping α → α
  | operand a => a
  | operation start op left right => f start op (left.fold f) (right.fold f)

def map (g : α → β) : Grouping α → Grouping β
  | operand a => operand (g a)
  | operation start op left right => operation start op (left.map g) (right.map g)

@[simp] theorem first_map (g : α → β) (t : Grouping α) : (t.map g).first = g t.first := by
  induction t with
  | operand a => rfl
  | operation start op left right ihl ihr => exact ihl

@[simp] theorem steps_map (g : α → β) (t : Grouping α) : (t.map g).steps = t.steps.map (Step.map g) := by
  induction t with
  | operand a => rfl
  | operation start op left right ihl ihr => simp [map, steps, Step.map, ihl, ihr]

theorem binds_map (g : α → β) (least : Nat) (t : Grouping α) : (t.map g).Binds least ↔ t.Binds least := by
  cases t <;> rfl

theorem tight_map (g : α → β) (t : Grouping α) : (t.map g).Tight ↔ t.Tight := by
  induction t with
  | operand a => rfl
  | operation start op left right ihl ihr => rw [map, Tight, Tight, binds_map, binds_map, ihl, ihr]

theorem Binds.mono {least more : Nat} {t : Grouping α} (h : t.Binds more) (hle : least ≤ more) : t.Binds least := by
  cases t with
  | operand a => trivial
  | operation start op left right => exact Nat.le_trans hle h

-- Nothing inside a tight tree binds looser than its root.
theorem Tight.le_precedence {least : Nat} {t : Grouping α} (h : t.Tight) (hbinds : t.Binds least) :
    ∀ s ∈ t.steps, least ≤ s.op.precedence := by
  induction t generalizing least with
  | operand a => simp [steps]
  | operation start op left right ihl ihr =>
      obtain ⟨hl, hr, htl, htr⟩ := h
      have hop : least ≤ op.precedence := hbinds
      intro s hs
      rcases List.mem_append.mp hs with hs | hs
      · exact ihl htl (hl.mono (Nat.le_trans hop (precedence_le_leftLeast op))) s hs
      rcases List.mem_cons.mp hs with rfl | hs
      · exact hop
      · exact ihr htr (hr.mono (Nat.le_trans hop (precedence_le_rightLeast op))) s hs

-- Two tight trees with one reading have the operator of the root at one place: otherwise each root would be found
-- inside an operand of the other.
theorem Tight.unique {t u : Grouping α} (ht : t.Tight) (hu : u.Tight) (hfirst : t.first = u.first)
    (hsteps : t.steps = u.steps) : t = u := by
  induction t generalizing u with
  | operand a =>
      cases u with
      | operand b => exact congrArg operand hfirst
      | operation start op left right => simp [steps] at hsteps
  | operation start op left right ihl ihr =>
      cases u with
      | operand b => simp [steps] at hsteps
      | operation start' op' left' right' =>
          obtain ⟨hl, hr, htl, htr⟩ := ht
          obtain ⟨hl', hr', htl', htr'⟩ := hu
          rcases List.append_eq_append_iff.mp hsteps with ⟨between, hleft, hright⟩ | ⟨between, hleft, hright⟩
          · cases between with
            | nil =>
                obtain ⟨hstep, hrest⟩ := List.cons.inj hright
                obtain ⟨rfl, rfl, hmiddle⟩ := Step.mk.inj hstep
                rw [List.append_nil] at hleft
                rw [ihl htl htl' hfirst hleft.symm, ihr htr htr' hmiddle hrest]
            | cons s between =>
                obtain ⟨rfl, hrest⟩ := List.cons.inj hright
                refine absurd ?_ (not_both_sides op op' ?_)
                · exact htl'.le_precedence hl' ⟨start, op, right.first⟩ (by simp [hleft])
                · exact htr.le_precedence hr ⟨start', op', right'.first⟩ (by simp [hrest])
          · cases between with
            | nil =>
                obtain ⟨hstep, hrest⟩ := List.cons.inj hright
                obtain ⟨rfl, rfl, hmiddle⟩ := Step.mk.inj hstep
                rw [List.append_nil] at hleft
                rw [ihl htl htl' hfirst hleft, ihr htr htr' hmiddle.symm hrest.symm]
            | cons s between =>
                obtain ⟨rfl, hrest⟩ := List.cons.inj hright
                refine absurd ?_ (not_both_sides op' op ?_)
                · exact htl.le_precedence hl ⟨start', op', right'.first⟩ (by simp [hleft])
                · exact htr'.le_precedence hr' ⟨start, op, right.first⟩ (by simp [hrest])

end Grouping

-- Climbing.

open Grouping

variable {f : Position → BinaryOp → α → α → α}

-- What follows begins with no operator that binds at least this tightly.
def Looser (least : Nat) (rest : List (Step α)) : Prop := ∀ s ∈ rest.head?, s.op.precedence < least

theorem tighten_cons (fuel : Nat) (op : BinaryOp) (right : α) (s : Step α) (rest : List (Step α)) :
    tighten f (fuel + 1) op right (s :: rest) =
      if rightLeast op ≤ s.op.precedence then
        let (right, rest) := climb f fuel (rightLeast op) right (s :: rest)
        tighten f fuel op right rest
      else (right, s :: rest) := by
  have hbound : s.op.precedence ≤ 11 := by cases s.op <;> decide
  rw [tighten]
  by_cases hpow : op = .pow
  · subst hpow
    have hlt : ¬BinaryOp.pow.precedence < s.op.precedence := Nat.not_lt.mpr hbound
    have heq : s.op.precedence = BinaryOp.pow.precedence ↔ BinaryOp.pow.precedence ≤ s.op.precedence := by omega
    simp [hlt, rightLeast, heq]
  · have hleast : rightLeast op = op.precedence + 1 := by simp [rightLeast, hpow]
    have hle : op.precedence + 1 ≤ s.op.precedence ↔ op.precedence < s.op.precedence := Nat.succ_le_iff
    simp only [hpow, hleast, hle, and_false, if_false]

theorem tighten_of_looser {n : Nat} {op : BinaryOp} {a : α} {rest : List (Step α)}
    (h : Looser (rightLeast op) rest) : tighten f n op a rest = (a, rest) := by
  cases n with
  | zero => rw [tighten]
  | succ n =>
      cases rest with
      | nil => rw [tighten]
      | cons s rest =>
          have hlt : s.op.precedence < rightLeast op := h s rfl
          rw [tighten_cons, if_neg (by omega)]

-- An answer of climbing from a tree: a tight tree that has taken in operators from what follows, up to one that binds
-- looser than `least`.
structure Climbs (f : Position → BinaryOp → α → α → α) (least : Nat) (t : Grouping α) (rest : List (Step α))
    (answer : α × List (Step α)) (u : Grouping α) : Prop where
  tight : u.Tight
  value : answer.1 = u.fold f
  first : u.first = t.first
  steps : u.steps ++ answer.2 = t.steps ++ rest
  stops : Looser least answer.2
  binds : t.Binds least → u.Binds least
  shorter : answer.2.length ≤ rest.length

theorem climbs_self {least : Nat} {t : Grouping α} {rest : List (Step α)} (ht : t.Tight) (hstop : Looser least rest) :
    Climbs f least t rest (t.fold f, rest) t where
  tight := ht
  value := rfl
  first := rfl
  steps := rfl
  stops := hstop
  binds := id
  shorter := Nat.le_refl _

-- The right operand of an operation is extended from its first operand.
theorem climbs_tighten (fuel : Nat) (op : BinaryOp) (a : α) (rest : List (Step α))
    (hclimb : ∀ s more, rest = s :: more → rightLeast op ≤ s.op.precedence →
      ∃ u, Climbs f (rightLeast op) (operand a) rest (climb f fuel (rightLeast op) a rest) u) :
    ∃ u, Climbs f (rightLeast op) (operand a) rest (tighten f (fuel + 1) op a rest) u := by
  cases rest with
  | nil =>
      rw [tighten]
      exact ⟨operand a, climbs_self trivial (by simp [Looser])⟩
  | cons s rest =>
      rw [tighten_cons]
      split
      case isTrue hle =>
        obtain ⟨u, hu⟩ := hclimb s rest rfl hle
        -- what the climb leaves is too loose for a second one
        have hdone := tighten_of_looser (f := f) (n := fuel)
          (a := (climb f fuel (rightLeast op) a (s :: rest)).1) hu.stops
        simp only [hdone]
        exact ⟨u, hu⟩
      case isFalse hlt =>
        refine ⟨operand a, climbs_self trivial fun s' hs' => ?_⟩
        obtain rfl := Option.some.inj hs'
        omega

-- One round of climbing: the next operator takes the tree so far as its left operand.
theorem Climbs.operation {least : Nat} {t u v : Grouping α} {s : Step α} {rest : List (Step α)}
    {right answer : α × List (Step α)} (hright : Climbs f (rightLeast s.op) (operand s.right) rest right u)
    (hle : least ≤ s.op.precedence)
    (h : Climbs f least (operation s.start s.op t u) right.2 answer v) :
    Climbs f least t (s :: rest) answer v where
  tight := h.tight
  value := h.value
  first := h.first
  steps := by
    have hrest : u.steps ++ right.2 = rest := hright.steps
    have hfirst : u.first = s.right := hright.first
    rw [h.steps, Grouping.steps, hfirst, ← hrest]
    simp
  stops := h.stops
  binds _ := h.binds hle
  shorter := by
    have := h.shorter
    have := hright.shorter
    rw [List.length_cons]
    omega

-- Two units of fuel for each operator and one more are enough.
theorem climbs_climb (fuel : Nat) (least : Nat) (t : Grouping α) (rest : List (Step α)) (ht : t.Tight)
    (hleft : ∀ s ∈ rest.head?, least ≤ s.op.precedence → t.Binds (leftLeast s.op)) (hfuel : 2 * rest.length < fuel) :
    ∃ u, Climbs f least t rest (climb f fuel least (t.fold f) rest) u := by
  induction fuel using Nat.strongRecOn generalizing least t rest with
  | ind fuel ih =>
      obtain ⟨fuel, rfl⟩ : ∃ n, fuel = n + 1 := ⟨fuel - 1, by omega⟩
      cases rest with
      | nil =>
          rw [climb]
          exact ⟨t, climbs_self ht (by simp [Looser])⟩
      | cons s rest =>
          rw [List.length_cons] at hfuel
          rw [climb]
          split
          case isTrue hlt =>
            refine ⟨t, climbs_self ht fun s' hs' => ?_⟩
            obtain rfl := Option.some.inj hs'
            exact hlt
          case isFalse hge =>
            have hle : least ≤ s.op.precedence := by omega
            have hbinds := hleft s rfl hle
            obtain ⟨fuel, rfl⟩ : ∃ n, fuel = n + 1 := ⟨fuel - 1, by omega⟩
            obtain ⟨u, hu⟩ := climbs_tighten (f := f) fuel s.op s.right rest
              fun _ _ _ _ => ih fuel (by omega) (rightLeast s.op) (operand s.right) rest trivial
                (fun _ _ _ => trivial) (by omega)
            obtain ⟨right, hanswer⟩ : ∃ right, right = tighten f (fuel + 1) s.op s.right rest := ⟨_, rfl⟩
            rw [← hanswer] at hu ⊢
            have hshorter := hu.shorter
            have htight : (operation s.start s.op t u).Tight := ⟨hbinds, hu.binds trivial, ht, hu.tight⟩
            obtain ⟨v, hv⟩ := ih (fuel + 1) (by omega) least (operation s.start s.op t u) right.2 htight
              (fun next hnext _ => leftLeast_le_of_lt s.op next.op (hu.stops next hnext)) (by omega)
            have hvalue : (operation s.start s.op t u).fold f =
                f s.start s.op (t.fold f) right.1 := by rw [fold, ← hu.value]
            rw [hvalue] at hv
            exact ⟨v, hu.operation hle hv⟩

-- All operators are taken in, into a tight tree.
theorem climb_reads (first : α) (rest : List (Step α)) (fuel : Nat) (hfuel : 2 * rest.length < fuel) :
    ∃ t : Grouping α, t.Tight ∧ t.first = first ∧ t.steps = rest ∧
      climb f fuel 0 first rest = (t.fold f, []) := by
  obtain ⟨t, ht⟩ := climbs_climb (f := f) fuel 0 (operand first) rest trivial
    (fun _ _ _ => trivial) hfuel
  have hnil : (climb f fuel 0 first rest).2 = [] := by
    cases hrest : (climb f fuel 0 first rest).2 with
    | nil => rfl
    | cons s more => exact absurd (ht.stops s (by simp [fold, hrest])) (Nat.not_lt_zero _)
  have hsteps : t.steps ++ (climb f fuel 0 first rest).2 = rest := ht.steps
  rw [hnil, List.append_nil] at hsteps
  exact ⟨t, ht.tight, ht.first, hsteps, Prod.ext ht.value hnil⟩

theorem group_reads (first : α) (rest : List (Step α)) :
    ∃ t : Grouping α, t.Tight ∧ t.first = first ∧ t.steps = rest ∧ group f first rest = t.fold f := by
  obtain ⟨t, ht, hfirst, hsteps, hvalue⟩ := climb_reads (f := f) first rest (2 * rest.length + 2) (by omega)
  exact ⟨t, ht, hfirst, hsteps, congrArg Prod.fst hvalue⟩

-- Expressions.

namespace Grouping

-- The tree of binary expressions.
def expr (t : Grouping Expr) : Expr :=
  t.fold fun start op left right => .binary start op left right (binaryType op left.type right.type)

end Grouping

def IsLiteral : Expr → Prop
  | .int _ _ => True
  | _ => False

theorem newBinary_of_not_literal {start : Position} {op : BinaryOp} {left right : Expr}
    (h : ¬IsLiteral left ∨ ¬IsLiteral right) :
    newBinary start op left right = .binary start op left right (binaryType op left.type right.type) := by
  unfold newBinary
  split
  · simp [IsLiteral] at h
  · rfl

-- Where no operand is an integer literal nothing is computed.
theorem fold_newBinary {t : Grouping Expr} (h : ∀ x ∈ t.operands, ¬IsLiteral x) :
    t.fold newBinary = t.expr ∧ ¬IsLiteral t.expr := by
  induction t with
  | operand x => exact ⟨rfl, h x (by simp [operands, first])⟩
  | operation start op left right ihl ihr =>
      rw [operands_operation] at h
      obtain ⟨hleft, hnot⟩ := ihl fun x hx => h x (List.mem_append_left _ hx)
      obtain ⟨hright, -⟩ := ihr fun x hx => h x (List.mem_append_right _ hx)
      rw [fold, hleft, hright, newBinary_of_not_literal (.inl hnot)]
      exact ⟨rfl, id⟩

-- Climbing takes in the whole chain and gives the one tree that reads like it and is grouped by precedence.
theorem climb_grouped (first : Expr) (rest : List (Step Expr))
    (h : ∀ x ∈ first :: rest.map Step.right, ¬IsLiteral x) :
    ∃ t : Grouping Expr, (t.first = first ∧ t.steps = rest ∧ t.Tight) ∧
      (∀ u : Grouping Expr, u.first = first ∧ u.steps = rest ∧ u.Tight → u = t) ∧
      ∀ fuel, 2 * rest.length < fuel → climb newBinary fuel 0 first rest = (t.expr, []) := by
  obtain ⟨t, ht, hfirst, hsteps, -⟩ := group_reads (f := newBinary) first rest
  have hunique (u : Grouping Expr) (hu : u.first = first ∧ u.steps = rest ∧ u.Tight) : u = t :=
    hu.2.2.unique ht (hu.1.trans hfirst.symm) (hu.2.1.trans hsteps.symm)
  refine ⟨t, ⟨hfirst, hsteps, ht⟩, hunique, fun fuel hfuel => ?_⟩
  obtain ⟨u, hu, hfirst', hsteps', hvalue⟩ := climb_reads (f := newBinary) first rest fuel hfuel
  obtain rfl := hunique u ⟨hfirst', hsteps', hu⟩
  rw [hvalue, (fold_newBinary (by rwa [operands, hfirst', hsteps'])).1]

-- `a - b ** c ** a * b - c`: the powers are grouped from the right, the differences from the left.
namespace Powers

def number (name : String) : Grouping Expr := .operand (.var default name (.int false 256))

def grouped : Grouping Expr :=
  .operation default .sub
    (.operation default .sub (number "a")
      (.operation default .mul
        (.operation default .pow (number "b") (.operation default .pow (number "c") (number "a"))) (number "b")))
    (number "c")

theorem climb_grouped_powers :
    grouped.Tight ∧ (∀ x ∈ grouped.operands, ¬IsLiteral x) ∧
      climb newBinary 11 0 grouped.first grouped.steps = (grouped.expr, []) := by
  have htight : grouped.Tight := by decide
  have hvars : ∀ x ∈ grouped.operands, ¬IsLiteral x := by
    intro x hx
    simp only [Grouping.operands, grouped, number, Grouping.first, Grouping.steps, List.nil_append, List.cons_append,
      List.map_cons, List.map_nil, List.mem_cons, List.not_mem_nil, or_false] at hx
    rcases hx with rfl | rfl | rfl | rfl | rfl | rfl <;> exact id
  obtain ⟨t, -, hunique, hclimb⟩ := climb_grouped grouped.first grouped.steps hvars
  obtain rfl := hunique grouped ⟨rfl, rfl, htight⟩
  exact ⟨htight, hvars, hclimb 11 (by decide)⟩

end Powers

end RustContracts.Resolve
