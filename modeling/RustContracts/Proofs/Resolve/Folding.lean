import RustContracts.Proofs.Resolve.Grouping
import RustContracts.Proofs.Resolve.Steps
import RustContracts.Proofs.Solidity.Number

-- Computing with literals. An expression of number literals, parentheses and binary operators becomes a literal only
-- where it and all its parts have a number, and that number is a word; the literal then holds it.
namespace RustContracts

namespace Solidity

open Number (IsNumber)

mutual

-- Expressions of number literals, parentheses and binary operators.
def Expression.IsArithmetic : Expression → Prop
  | ⟨_, _, target, none⟩ => target.IsArithmetic
  | ⟨_, _, _, some _⟩ => False

def Conditional.IsArithmetic : Conditional → Prop
  | ⟨cond, none⟩ => cond.IsArithmetic
  | ⟨_, some _⟩ => False

def Chain.IsArithmetic : Chain → Prop
  | ⟨first, rest⟩ => first.IsArithmetic ∧ areArithmetic rest

def areArithmetic : List Link → Prop
  | [] => True
  | ⟨_, _, right⟩ :: rest => right.IsArithmetic ∧ areArithmetic rest

def Operand.IsArithmetic : Operand → Prop
  | .unary _ _ _ => False
  | .term _ primary suffixes => suffixes = [] ∧ primary.IsArithmetic

def Primary.IsArithmetic : Primary → Prop
  | .number _ digits _ => IsNumber digits ∧ digits.utf8ByteSize < 2 ^ 63
  | .tuple elements => isArithmeticAlone elements
  | _ => False

def isArithmeticAlone : List Expression → Prop
  | [e] => e.IsArithmetic
  | _ => False

end

end Solidity

namespace Resolve

open Program
open Solidity (BinaryOp Operand Expression Link)
open Solidity.Number (IsNumber Written unitScale wordLimit_eq)
open Text (Position)

-- Number literals under binary operators.
inductive Arith where
  | number (digits unit : String)
  | operation (op : BinaryOp) (left right : Arith)

-- The number of an operation. A difference below zero has none, and neither have a quotient and a remainder by zero;
-- other operators than those of arithmetic are left out.
def number? : BinaryOp → Nat → Nat → Option Nat
  | .add, x, y => some (x + y)
  | .sub, x, y => if y ≤ x then some (x - y) else none
  | .mul, x, y => some (x * y)
  | .div, x, y => if y = 0 then none else some (x / y)
  | .mod, x, y => if y = 0 then none else some (x % y)
  | .pow, x, y => some (x ^ y)
  | .shl, x, y => some (x * 2 ^ y)
  | .shr, x, y => some (x / 2 ^ y)
  | _, _, _ => none

namespace Arith

-- The expression has this number, however large it and the numbers inside it are.
inductive Denotes : Arith → Nat → Prop
  | number {digits unit : String} {w : Written} {scale v : Nat} (legal : w.Legal) (text : w.text = digits.toList)
      (lookup : unitScale.lookup unit = some scale) (value : (v : ℚ) = w.value * scale) :
      Denotes (.number digits unit) v
  | operation {op : BinaryOp} {a b : Arith} {x y v : Nat} (left : a.Denotes x) (right : b.Denotes y)
      (value : number? op x y = some v) : Denotes (.operation op a b) v

-- The expression and all that stand inside it.
def parts : Arith → List Arith
  | number digits unit => [number digits unit]
  | operation op left right => operation op left right :: (left.parts ++ right.parts)

end Arith

-- The tree of a grouping.
def Grouping.arith (t : Grouping Arith) : Arith := t.fold fun _ op left right => .operation op left right

-- The chain of a grouping of operands, as an expression.
def Grouping.written {α : Type} (start stop : Position) (t : Grouping (Operand × α)) : Expression :=
  ⟨start, stop, ⟨⟨t.first.1, t.steps.map fun s => ⟨s.start, s.op, s.right.1⟩⟩, none⟩, none⟩

-- What an operand means: chains are grouped by precedence.
inductive Means : Operand → Arith → Prop
  | number {start place : Position} {digits unit : String} (text : IsNumber digits) (size : digits.utf8ByteSize < 2 ^ 63) :
      Means (.term start (.number place digits unit) []) (.number digits unit)
  | parenthesized {start from_ to_ : Position} {t : Grouping (Operand × Arith)} (tight : t.Tight)
      (operands : ∀ p ∈ t.operands, Means p.1 p.2) :
      Means (.term start (.tuple [t.written from_ to_]) []) (t.map Prod.snd).arith

-- What a whole expression means.
def Writes (e : Expression) (a : Arith) : Prop :=
  ∃ start stop, ∃ t : Grouping (Operand × Arith), e = t.written start stop ∧ t.Tight ∧
    (∀ p ∈ t.operands, Means p.1 p.2) ∧ (t.map Prod.snd).arith = a

-- One meaning.

theorem Grouping.eq_of_map_fst {α β : Type} {t u : Grouping (α × β)} (h : t.map Prod.fst = u.map Prod.fst)
    (hsame : ∀ p ∈ t.operands, ∀ q ∈ u.operands, p.1 = q.1 → p.2 = q.2) : t = u := by
  induction t generalizing u with
  | operand p =>
      cases u with
      | operand q =>
          have hfst : p.1 = q.1 := Grouping.operand.inj h
          rw [Prod.ext hfst (hsame p List.mem_cons_self q List.mem_cons_self hfst)]
      | operation start op left right => cases h
  | operation start op left right ihl ihr =>
      cases u with
      | operand q => cases h
      | operation start' op' left' right' =>
          obtain ⟨rfl, rfl, hleft, hright⟩ := Grouping.operation.inj h
          rw [operands_operation, operands_operation] at hsame
          rw [ihl hleft fun p hp q hq => hsame p (List.mem_append_left _ hp) q (List.mem_append_left _ hq),
            ihr hright fun p hp q hq => hsame p (List.mem_append_right _ hp) q (List.mem_append_right _ hq)]

-- A chain has one tight grouping.
theorem Grouping.map_fst_of_written {α β : Type} {start stop start' stop' : Position} {t : Grouping (Operand × α)}
    {u : Grouping (Operand × β)} (ht : t.Tight) (hu : u.Tight) (h : t.written start stop = u.written start' stop') :
    t.map Prod.fst = u.map Prod.fst := by
  have hfirst : t.first.1 = u.first.1 := by
    have := congrArg (fun e => e.target.cond.first) h
    exact this
  have hlinks : t.steps.map (fun s => (⟨s.start, s.op, s.right.1⟩ : Link)) =
      u.steps.map fun s => ⟨s.start, s.op, s.right.1⟩ := congrArg (fun e => e.target.cond.rest) h
  have hsteps := congrArg (List.map fun l : Link => (⟨l.start, l.op, l.right⟩ : Step Operand)) hlinks
  rw [List.map_map, List.map_map] at hsteps
  refine ((tight_map _ t).mpr ht).unique ((tight_map _ u).mpr hu) (by simpa using hfirst) ?_
  rw [steps_map, steps_map]
  exact hsteps

theorem Means.unique {o : Operand} {a b : Arith} (ha : Means o a) (hb : Means o b) : a = b := by
  induction ha generalizing b with
  | number =>
      cases hb
      rfl
  | @parenthesized start from_ to_ t tight operands ih =>
      generalize ho : Operand.term start (.tuple [t.written from_ to_]) [] = o at hb
      cases hb with
      | number => cases ho
      | @parenthesized start' from' to' u tight' operands' =>
          have hwritten : t.written from_ to_ = u.written from' to' := by
            injection ho with _ hprimary
            injection hprimary with helements
            exact (List.cons.inj helements).1
          have hsame := Grouping.map_fst_of_written tight tight' hwritten
          rw [Grouping.eq_of_map_fst hsame fun p hp q hq heq => ih p hp (heq ▸ operands' q hq)]

theorem Writes.unique {e : Expression} {a b : Arith} (ha : Writes e a) (hb : Writes e b) : a = b := by
  obtain ⟨start, stop, t, rfl, ht, hoperands, rfl⟩ := ha
  obtain ⟨start', stop', u, hwritten, hu, hoperands', rfl⟩ := hb
  have hsame := Grouping.map_fst_of_written ht hu hwritten
  rw [Grouping.eq_of_map_fst hsame fun p hp q hq heq => (hoperands p hp).unique (heq ▸ hoperands' q hq)]

-- A meaning for every arithmetic expression.

theorem exists_grouping {α : Type} (first : α) (steps : List (Step α)) :
    ∃ t : Grouping α, t.Tight ∧ t.first = first ∧ t.steps = steps := by
  obtain ⟨t, ht, hfirst, hsteps, -⟩ := group_reads (f := fun _ _ left _ => left) first steps
  exact ⟨t, ht, hfirst, hsteps⟩

mutual

theorem exists_writes : ∀ e : Expression, e.IsArithmetic → ∃ a, Writes e a
  | ⟨start, stop, target, none⟩, h => exists_writes_conditional start stop target h
  | ⟨_, _, _, some _⟩, h => nomatch h

theorem exists_writes_conditional (start stop : Position) :
    ∀ c : Solidity.Conditional, c.IsArithmetic → ∃ a, Writes ⟨start, stop, c, none⟩ a
  | ⟨cond, none⟩, h => exists_writes_chain start stop cond h
  | ⟨_, some _⟩, h => nomatch h

theorem exists_writes_chain (start stop : Position) :
    ∀ c : Solidity.Chain, c.IsArithmetic → ∃ a, Writes ⟨start, stop, ⟨c, none⟩, none⟩ a
  | ⟨first, rest⟩, h => by
      obtain ⟨a, ha⟩ := exists_means first h.1
      obtain ⟨steps, hlinks, hsteps⟩ := exists_steps rest h.2
      obtain ⟨t, ht, hfirst, hrest⟩ := exists_grouping (first, a) steps
      refine ⟨(t.map Prod.snd).arith, start, stop, t, ?_, ht, ?_, rfl⟩
      · rw [Grouping.written, hfirst, hrest, hlinks]
      · rw [Grouping.operands, hfirst, hrest]
        exact List.forall_mem_cons.mpr ⟨ha, List.forall_mem_map.mpr hsteps⟩

theorem exists_steps : ∀ links : List Link, Solidity.areArithmetic links →
    ∃ steps : List (Step (Operand × Arith)),
      (steps.map fun s => (⟨s.start, s.op, s.right.1⟩ : Link)) = links ∧ ∀ s ∈ steps, Means s.right.1 s.right.2
  | [], _ => ⟨[], rfl, by simp⟩
  | ⟨start, op, right⟩ :: rest, h => by
      obtain ⟨a, ha⟩ := exists_means right h.1
      obtain ⟨steps, hlinks, hsteps⟩ := exists_steps rest h.2
      exact ⟨⟨start, op, right, a⟩ :: steps, by simp [hlinks], List.forall_mem_cons.mpr ⟨ha, hsteps⟩⟩

theorem exists_means : ∀ o : Operand, o.IsArithmetic → ∃ a, Means o a
  | .unary _ _ _, h => nomatch h
  | .term start primary suffixes, h => by
      obtain ⟨rfl, hprimary⟩ := h
      exact exists_means_primary start primary hprimary

theorem exists_means_primary (start : Position) :
    ∀ p : Solidity.Primary, p.IsArithmetic → ∃ a, Means (.term start p []) a
  | .number _ _ _, h => ⟨_, .number h.1 h.2⟩
  | .tuple [e], h => by
      obtain ⟨a, start', stop', t, rfl, ht, hoperands, -⟩ := exists_writes e h
      exact ⟨(t.map Prod.snd).arith, .parenthesized ht hoperands⟩
  | .tuple [], h => nomatch h
  | .tuple (_ :: _ :: _), h => nomatch h
  | .strings _, h => nomatch h
  | .bool _, h => nomatch h
  | .typeOf _, h => nomatch h
  | .new _, h => nomatch h
  | .array _, h => nomatch h
  | .ident _, h => nomatch h

end

-- One number.
theorem Arith.Denotes.unique {a : Arith} {v w : Nat} (hv : a.Denotes v) (hw : a.Denotes w) : v = w := by
  induction hv generalizing w with
  | number legal text lookup value =>
      cases hw with
      | number legal' text' lookup' value' =>
          obtain rfl := legal.eq_of_text legal' (text.trans text'.symm)
          obtain rfl := Option.some.inj (lookup.symm.trans lookup')
          exact Nat.cast_injective (value.trans value'.symm)
  | operation left right value ihl ihr =>
      cases hw with
      | operation left' right' value' =>
          rw [← ihl left', ← ihr right'] at value'
          exact Option.some.inj (value.symm.trans value')

-- Computing.

theorem timesPower?_eq_some {x count z v : Nat} (hz : z < 2 ^ 256) (h : timesPower? x count z = some v) :
    v = z * x ^ count ∧ v < 2 ^ 256 := by
  induction count generalizing z with
  | zero =>
      obtain rfl := Option.some.inj h
      exact ⟨by rw [pow_zero, Nat.mul_one], hz⟩
  | succ count ih =>
      rw [timesPower?, wordLimit_eq] at h
      split_ifs at h with hfits
      obtain ⟨hv, hlt⟩ := ih hfits h
      exact ⟨by rw [hv, pow_succ', Nat.mul_assoc], hlt⟩

theorem lt_two_pow_bitLength (n : Nat) : n < 2 ^ bitLength n := by
  unfold bitLength
  split
  next h => simp [h]
  next h => exact Nat.lt_log2_self

-- An operation that is computed has the number that comes out, and that is a word.
theorem fold?_exact {op : BinaryOp} {x y v : Nat} (hx : x < 2 ^ 256) (h : fold? op x y = some v) :
    number? op x y = some v ∧ v < 2 ^ 256 := by
  cases op with
  | add | mul =>
      simp only [fold?, wordLimit_eq] at h
      split_ifs at h with hword
      exact ⟨h, Option.some.inj h ▸ hword⟩
  | sub =>
      simp only [fold?] at h
      split_ifs at h with hle
      rw [number?, if_pos (Nat.not_lt.mp hle)]
      exact ⟨h, Option.some.inj h ▸ (Nat.sub_le x y).trans_lt hx⟩
  | div =>
      simp only [fold?] at h
      split_ifs at h with hzero
      rw [number?, if_neg hzero]
      exact ⟨h, Option.some.inj h ▸ (Nat.div_le_self x y).trans_lt hx⟩
  | mod =>
      simp only [fold?] at h
      split_ifs at h with hzero
      rw [number?, if_neg hzero]
      exact ⟨h, Option.some.inj h ▸ (Nat.mod_le x y).trans_lt hx⟩
  | pow =>
      simp only [fold?] at h
      split_ifs at h
      obtain ⟨hv, hlt⟩ := timesPower?_eq_some (by decide) h
      rw [Nat.one_mul] at hv
      exact ⟨congrArg some hv.symm, hlt⟩
  | shl =>
      simp only [fold?, wordLimit_eq] at h
      split_ifs at h with hlarge
      -- the bits still fit when they are shifted
      have hbits : x * 2 ^ y < 2 ^ 256 := by
        calc x * 2 ^ y < 2 ^ bitLength x * 2 ^ y := Nat.mul_lt_mul_of_pos_right (lt_two_pow_bitLength x) (by positivity)
          _ = 2 ^ (bitLength x + y) := (Nat.pow_add 2 _ _).symm
          _ ≤ 2 ^ 256 := Nat.pow_le_pow_right (by decide) (by omega)
      rw [Nat.shiftLeft_eq, Nat.mod_eq_of_lt hbits] at h
      exact ⟨h, Option.some.inj h ▸ hbits⟩
  | shr =>
      simp only [fold?] at h
      rw [number?]
      split_ifs at h with hlarge
      · have hle : 2 ^ 256 ≤ 2 ^ y := Nat.pow_le_pow_right (by decide) (by omega)
        rw [Nat.div_eq_of_lt (by omega)]
        exact ⟨h, Option.some.inj h ▸ by decide⟩
      · rw [Nat.shiftRight_eq_div_pow] at h
        exact ⟨h, Option.some.inj h ▸ (Nat.div_le_self _ _).trans_lt hx⟩
  | _ => cases h

-- The number of an expression all of whose parts have numbers that are words.
structure Arith.Exact (a : Arith) (v : Nat) : Prop where
  denotes : a.Denotes v
  lt : v < 2 ^ 256
  parts : ∀ b ∈ a.parts, ∃ w < 2 ^ 256, b.Denotes w

-- If it is a literal, a resolved expression is the number of what was written.
def Computes (a : Arith) (x : Expr) : Prop := ∀ start v, x = .int start v → a.Exact v

theorem Arith.Exact.operation {op : BinaryOp} {a b : Arith} {x y v : Nat} (hx : a.Exact x) (hy : b.Exact y)
    (h : fold? op x y = some v) : (Arith.operation op a b).Exact v := by
  obtain ⟨hnumber, hlt⟩ := fold?_exact hx.lt h
  have hdenotes : (Arith.operation op a b).Denotes v := .operation hx.denotes hy.denotes hnumber
  refine ⟨hdenotes, hlt, List.forall_mem_cons.mpr ⟨⟨v, hlt, hdenotes⟩, fun part hpart => ?_⟩⟩
  rcases List.mem_append.mp hpart with hpart | hpart
  · exact hx.parts part hpart
  · exact hy.parts part hpart

theorem computes_newBinary {start : Position} {op : BinaryOp} {a b : Arith} {x y : Expr} (hx : Computes a x)
    (hy : Computes b y) : Computes (.operation op a b) (newBinary start op x y) := by
  intro start' v h
  unfold newBinary at h
  split at h
  next =>
    split at h
    next hfold =>
      obtain ⟨-, rfl⟩ := Expr.int.inj h
      exact (hx _ _ rfl).operation (hy _ _ rfl) hfold
    next => cases h
  next => cases h

theorem computes_fold {t : Grouping (Arith × Expr)} (h : ∀ p ∈ t.operands, Computes p.1 p.2) :
    Computes (t.map Prod.fst).arith ((t.map Prod.snd).fold newBinary) := by
  induction t with
  | operand p => exact h p List.mem_cons_self
  | operation start op left right ihl ihr =>
      rw [Grouping.operands_operation] at h
      exact computes_newBinary (ihl fun p hp => h p (List.mem_append_left _ hp))
        (ihr fun p hp => h p (List.mem_append_right _ hp))

variable {env : Env} {g g' : Gathered}

-- Each operand is resolved on its own.
theorem resolves_links {steps : List (Step (Operand × Arith))} {xs : List (Step Expr)}
    (h : ∀ s ∈ steps, ∀ g x g', Resolves (operand s.right.1) env g x g' → Computes s.right.2 x)
    (hresolves : Resolves (links (steps.map fun s => ⟨s.start, s.op, s.right.1⟩)) env g xs g') :
    ∃ zipped : List (Step (Arith × Expr)), zipped.map (Step.map Prod.fst) = steps.map (Step.map Prod.snd) ∧
      zipped.map (Step.map Prod.snd) = xs ∧ ∀ s ∈ zipped, Computes s.right.1 s.right.2 := by
  induction steps generalizing g g' xs with
  | nil =>
      obtain ⟨rfl, -⟩ := resolves_pure.mp hresolves
      exact ⟨[], rfl, rfl, by simp⟩
  | cons s steps ih =>
      obtain ⟨hs, hrest⟩ := List.forall_mem_cons.mp h
      rw [List.map_cons, links] at hresolves
      obtain ⟨x, g₁, hx, hresolves⟩ := resolves_bind.mp hresolves
      obtain ⟨more, g₂, hmore, hresolves⟩ := resolves_bind.mp hresolves
      obtain ⟨rfl, -⟩ := resolves_pure.mp hresolves
      obtain ⟨zipped, hleft, hright, hcomputes⟩ := ih hrest hmore
      refine ⟨⟨s.start, s.op, s.right.2, x⟩ :: zipped, ?_, ?_, List.forall_mem_cons.mpr ⟨hs g x g₁ hx, hcomputes⟩⟩
      · rw [List.map_cons, List.map_cons, hleft]
        rfl
      · rw [List.map_cons, hright]
        rfl

-- The chain is grouped as it is meant to be: both groupings are tight.
theorem computes_written {start stop : Position} {t : Grouping (Operand × Arith)} (ht : t.Tight)
    (h : ∀ p ∈ t.operands, ∀ g x g', Resolves (operand p.1) env g x g' → Computes p.2 x) {x : Expr}
    (hresolves : Resolves (expr (t.written start stop)) env g x g') : Computes (t.map Prod.snd).arith x := by
  obtain ⟨hfirst, hsteps⟩ := List.forall_mem_cons.mp h
  rw [Grouping.written, expr, conditional, operatorChain] at hresolves
  obtain ⟨first, g₁, hx, hresolves⟩ := resolves_bind.mp hresolves
  obtain ⟨steps, g₂, hlinks, hresolves⟩ := resolves_bind.mp hresolves
  obtain ⟨rfl, -⟩ := resolves_pure.mp hresolves
  obtain ⟨zipped, hleft, hright, hcomputes⟩ := resolves_links (List.forall_mem_map.mp hsteps) hlinks
  obtain ⟨z, hz, hzfirst, hzsteps⟩ := exists_grouping (t.first.2, first) zipped
  obtain ⟨u, hu, hufirst, husteps, hvalue⟩ := group_reads (f := newBinary) first steps
  have hmeant : z.map Prod.fst = t.map Prod.snd :=
    ((Grouping.tight_map _ z).mpr hz).unique ((Grouping.tight_map _ t).mpr ht) (by simp [hzfirst])
      (by rw [Grouping.steps_map, Grouping.steps_map, hzsteps, hleft])
  have hbuilt : z.map Prod.snd = u :=
    ((Grouping.tight_map _ z).mpr hz).unique hu (by simp [hzfirst, hufirst])
      (by rw [Grouping.steps_map, hzsteps, hright, husteps])
  rw [hvalue, ← hmeant, ← hbuilt]
  refine computes_fold ?_
  rw [Grouping.operands, hzfirst, hzsteps]
  exact List.forall_mem_cons.mpr ⟨hfirst g first g₁ hx, List.forall_mem_map.mpr hcomputes⟩

theorem computes_number {digits unit : String} (htext : IsNumber digits) (hsize : digits.utf8ByteSize < 2 ^ 63) {v : Nat}
    (hparse : Solidity.Number.parse digits unit = .ok v) : (Arith.number digits unit).Exact v := by
  obtain ⟨w, hlegal, hw⟩ := htext.exists_written
  obtain ⟨hlt, scale, hscale, hvalue⟩ := hlegal.value_of_parse hw hsize hparse
  have hdenotes : (Arith.number digits unit).Denotes v := .number hlegal hw hscale hvalue
  exact ⟨hdenotes, hlt, by simpa [Arith.parts] using ⟨v, hlt, hdenotes⟩⟩

-- An operand without suffixes is what stands first in it.
theorem resolves_plain {start : Position} {primary : Solidity.Primary} {x : Expr}
    (h : Resolves (operand (.term start primary [])) env g x g') :
    ∃ t mid, Resolves (primaryTerm start primary) env g t mid ∧ Resolves t.toExpr env mid x g' := by
  rw [operand] at h
  obtain ⟨t, g₁, hterm, h⟩ := resolves_bind.mp h
  obtain ⟨t', g₂, hsuffixes, h⟩ := resolves_bind.mp h
  obtain ⟨rfl, rfl⟩ := resolves_pure.mp hsuffixes
  refine ⟨t, g₁, ?_, h⟩
  change tryCatch (((primaryTerm start primary).run env).run g) _ = .ok (t, g₁) at hterm
  cases hr : ((primaryTerm start primary).run env).run g with
  | error d =>
      rw [hr] at hterm
      simp only [undeclaredInterface, Bool.and_false] at hterm
      cases hterm
  | ok r =>
      rw [hr] at hterm
      cases hterm
      exact hr

theorem Means.computes {o : Operand} {a : Arith} (h : Means o a) :
    ∀ g x g', Resolves (operand o) env g x g' → Computes a x := by
  induction h with
  | @number start place digits unit text size =>
      intro g x g' hresolves
      obtain ⟨t, mid, hterm, hvalue⟩ := resolves_plain hresolves
      rw [primaryTerm] at hterm
      split at hterm
      next v hparse =>
        obtain ⟨rfl, rfl⟩ := resolves_pure.mp hterm
        obtain ⟨rfl, rfl⟩ := resolves_pure.mp hvalue
        intro start' v' hx
        obtain ⟨-, rfl⟩ := Expr.int.inj hx
        exact computes_number text size hparse
      next => exact absurd hterm not_resolves_throw
  | @parenthesized start from_ to_ t tight operands ih =>
      intro g x g' hresolves
      obtain ⟨term, mid, hterm, hvalue⟩ := resolves_plain hresolves
      rw [primaryTerm] at hterm
      obtain ⟨xs, g₁, hxs, hterm⟩ := resolves_bind.mp hterm
      rw [exprs] at hxs
      obtain ⟨inner, g₂, hinner, hxs⟩ := resolves_bind.mp hxs
      obtain ⟨more, g₃, hmore, hxs⟩ := resolves_bind.mp hxs
      obtain ⟨rfl, rfl⟩ := resolves_pure.mp hmore
      obtain ⟨rfl, rfl⟩ := resolves_pure.mp hxs
      obtain ⟨rfl, rfl⟩ := resolves_pure.mp hterm
      obtain ⟨rfl, rfl⟩ := resolves_pure.mp hvalue
      exact computes_written tight ih hinner

-- A literal that comes out is the number of the expression, all of whose parts then have numbers that are words. With a
-- part that has none, or a larger one, the expression becomes no literal.
theorem folding_exact {e : Expression} (h : e.IsArithmetic) :
    ∃ a, (∀ b, Writes e b ↔ b = a) ∧ ∀ env g x g', Resolves (expr e) env g x g' →
      (∀ start v, x = .int start v →
        (∀ w, a.Denotes w ↔ w = v) ∧ ∀ b ∈ a.parts, ∃ w < 2 ^ 256, b.Denotes w) ∧
      ((∃ b ∈ a.parts, ∀ w, b.Denotes w → 2 ^ 256 ≤ w) → ¬IsLiteral x) := by
  obtain ⟨a, ha⟩ := exists_writes e h
  refine ⟨a, fun b => ⟨fun hb => hb.unique ha, fun hb => hb ▸ ha⟩, fun env g x g' hresolves => ?_⟩
  have hcomputes : Computes a x := by
    obtain ⟨start, stop, t, rfl, ht, hoperands, rfl⟩ := ha
    exact computes_written ht (fun p hp => (hoperands p hp).computes) hresolves
  refine ⟨fun start v hx => ?_, fun ⟨b, hb, hlarge⟩ hliteral => ?_⟩
  · have hexact := hcomputes start v hx
    exact ⟨fun w => ⟨fun hw => hw.unique hexact.denotes, fun hw => hw ▸ hexact.denotes⟩, hexact.parts⟩
  · cases x with
    | int start v =>
        obtain ⟨w, hlt, hw⟩ := (hcomputes start v rfl).parts b hb
        exact absurd (hlarge w hw) (Nat.not_le.mpr hlt)
    | _ => exact hliteral

-- `2 ** 8 - 1` becomes 255.
section LargestByte

def numeral (digits : String) : Grouping (Operand × Arith) :=
  .operand (.term default (.number default digits "") [], .number digits "")

def largestByte : Grouping (Operand × Arith) :=
  .operation default .sub (.operation default .pow (numeral "2") (numeral "8")) (numeral "1")

theorem folding_exact_largestByte :
    (largestByte.written default default).IsArithmetic ∧
      Writes (largestByte.written default default) (largestByte.map Prod.snd).arith ∧
      ∀ env g, Resolves (expr (largestByte.written default default)) env g (.int default 255) g ∧
        ∀ w, (largestByte.map Prod.snd).arith.Denotes w ↔ w = 255 := by
  have hnumbers : (IsNumber "2" ∧ "2".utf8ByteSize < 2 ^ 63) ∧ (IsNumber "8" ∧ "8".utf8ByteSize < 2 ^ 63) ∧
      IsNumber "1" ∧ "1".utf8ByteSize < 2 ^ 63 := by
    unfold IsNumber
    decide
  have harithmetic : (largestByte.written default default).IsArithmetic :=
    ⟨⟨rfl, hnumbers.1⟩, ⟨rfl, hnumbers.2.1⟩, ⟨rfl, hnumbers.2.2⟩, trivial⟩
  have hwrites : Writes (largestByte.written default default) (largestByte.map Prod.snd).arith := by
    refine ⟨default, default, largestByte, rfl, by decide, ?_, rfl⟩
    exact List.forall_mem_cons.mpr ⟨.number hnumbers.1.1 hnumbers.1.2, List.forall_mem_cons.mpr
      ⟨.number hnumbers.2.1.1 hnumbers.2.1.2, List.forall_mem_cons.mpr
        ⟨.number hnumbers.2.2.1 hnumbers.2.2.2, by simp [numeral, Grouping.steps]⟩⟩⟩
  obtain ⟨a, hmeans, hexact⟩ := folding_exact harithmetic
  obtain rfl := (hmeans _).mp hwrites
  refine ⟨harithmetic, hwrites, fun env g => ?_⟩
  have hresolves : Resolves (expr (largestByte.written default default)) env g (.int default 255) g := by
    rfl
  exact ⟨hresolves, ((hexact env g _ g hresolves).1 default 255 rfl).1⟩

end LargestByte

end Resolve

end RustContracts
