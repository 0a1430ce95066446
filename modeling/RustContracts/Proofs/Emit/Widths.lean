import RustContracts.Proofs.Soroban.Zero
import RustContracts.Resolve.Binary

-- The widths at which nested integer operations are evaluated. An operation on two widths is evaluated at
-- the wider one but has the type of its left operand, and the operation above it knows only the type: an
-- operand whose left side is the narrower one is cut down unless its sibling is as wide as it was
-- evaluated. That is the only way to lose bits.
namespace RustContracts.Emit

open Program
open Solidity (BinaryOp)
open Text (Position)
open Rust (Machine)
open Rust.Expr (Reads)

-- Integer expressions: variables and other operands without parts of an unsigned type, literals, and
-- operations on integer expressions.
inductive Integral : Expr → Prop where
  | operand {e : Expr} {n : Nat} (hparts : e.children = []) (ht : e.type = .int false n) : Integral e
  | literal (p : Position) (v : Nat) : Integral (.int p v)
  | operation (p : Position) {op : BinaryOp} {left right : Expr} (hop : op ≠ .and ∧ op ≠ .or)
      (hl : Integral left) (hr : Integral right) : Integral (Resolve.newBinary p op left right)

-- Where an operand meets its operation.
structure Junction where
  -- the type at which the operand was evaluated
  evaluated : Ty
  -- the type as which the operation takes it
  taken : Ty

-- The operation is at least as wide as its operand; only integers are converted.
def Junction.Fits (j : Junction) : Prop :=
  match j.evaluated, j.taken with
  | .int _ n, .int _ n' => n ≤ n'
  | _, _ => True

-- The types as which an operation takes its operands.
def takenTypes (expected : Option Ty) (op : BinaryOp) (left right : Ty) : Ty × Ty :=
  if op = .and || op = .or then (.bool, .bool)
  else
    let t := operandType expected op left right
    (t, if op.keepsLeft then (if right.isLiteral then .int false 32 else right) else t)

-- The places where operands meet operations, all through an expression that is written where a type is
-- asked for.
def junctions (expected : Option Ty) : Expr → List Junction
  | .binary _ op left right _ =>
    let (l, r) := takenTypes expected op left.type right.type
    ⟨writtenType (some l) left, l⟩ :: ⟨writtenType (some r) right, r⟩ ::
      (junctions (some l) left ++ junctions (some r) right)
  | _ => []

-- The width at which an operation is evaluated, when that is more than its type tells.
def concealed? : Expr → Option Nat
  | .binary _ op left right _ =>
    match left.type, right.type with
    | .int _ n, .int _ n' => if n < n' && !op.isLogical && !op.keepsLeft then some n' else none
    | _, _ => none
  | _ => none

-- Operations that conceal their width stand beside operands that are as wide, and under no shift or power.
def KeepsWidths (e : Expr) : Prop :=
  ∀ p op left right t, Expr.binary p op left right t ∈ e.subexprs →
    (∀ m, concealed? left = some m → op.keepsLeft = false ∧ ∃ n, right.type = .int false n ∧ m ≤ n) ∧
    (∀ m, concealed? right = some m →
      op.keepsLeft = false ∧ (left.type = .bool ∨ ∃ n, left.type = .int false n ∧ m ≤ n))

-- Types.

theorem newBinary_eq (p : Position) (op : BinaryOp) (left right : Expr) :
    (∃ v, Resolve.newBinary p op left right = .int p v) ∨
      Resolve.newBinary p op left right =
        .binary p op left right (Resolve.binaryType op left.type right.type) := by
  unfold Resolve.newBinary
  split
  · split
    · exact .inl ⟨_, rfl⟩
    · exact .inr rfl
  · exact .inr rfl

theorem logical_or_plain (op : BinaryOp) : op.isLogical = true ∨ op.isLogical = false ∧ isComparison op = false := by
  cases op <;> decide

namespace Integral

variable {e : Expr}

-- An operation, or else nothing that has parts.
theorem shape (he : Integral e) :
    (e.children = [] ∧ ((∃ n, e.type = .int false n) ∨ e.type = .literal)) ∨
      ∃ p op left right, Integral left ∧ Integral right ∧ (op ≠ .and ∧ op ≠ .or) ∧
        e = .binary p op left right (Resolve.binaryType op left.type right.type) := by
  cases he with
  | operand hparts ht => exact .inl ⟨hparts, .inl ⟨_, ht⟩⟩
  | literal => exact .inl ⟨rfl, .inr rfl⟩
  | @operation p op left right hop hl hr =>
      obtain ⟨v, heq⟩ | heq := newBinary_eq p op left right
      · exact .inl ⟨by rw [heq]; rfl, .inr (by rw [heq]; rfl)⟩
      · exact .inr ⟨p, op, left, right, hl, hr, hop, heq⟩

theorem type (he : Integral e) :
    (∃ n, e.type = .int false n) ∨ e.type = .literal ∨ e.type = .bool := by
  induction he with
  | operand _ ht => exact .inl ⟨_, ht⟩
  | literal => exact .inr (.inl rfl)
  | @operation p op left right _ _ _ hl hr =>
      obtain ⟨v, heq⟩ | heq := newBinary_eq p op left right
      · exact .inr (.inl (by rw [heq]; rfl))
      · rw [heq]
        simp only [Expr.type, Resolve.binaryType]
        grind

-- An operation that conceals its width is evaluated at it, all else as its type tells; what consists of
-- literals only takes the type that is asked for.
theorem evaluated (he : Integral e) (t : Option Ty) :
    (∃ m n, concealed? e = some m ∧ n < m ∧ e.type = .int false n ∧ writtenType t e = .int false m) ∨
      (concealed? e = none ∧
        (writtenType t e = e.type ∨
          e.type = .literal ∧ writtenType t e = (expectedInt? t).getD .uint256)) := by
  obtain ⟨hparts, -⟩ | ⟨p, op, left, right, hl, hr, hop, rfl⟩ := he.shape
  · have hleaf : concealed? e = none ∧ writtenType t e = e.type := by
      cases e with
      | binary => cases hparts
      | _ => exact ⟨rfl, rfl⟩
    exact .inr ⟨hleaf.1, .inl hleaf.2⟩
  · simp only [concealed?, writtenType, Expr.type, Resolve.binaryType, operandType]
    obtain hlogical | ⟨hlogical, hcomparison⟩ := logical_or_plain op
    · obtain ⟨n, hn⟩ | hn | hn := hl.type <;> obtain ⟨n', hn'⟩ | hn' | hn' := hr.type <;>
        simp [hn, hn', hlogical]
    · cases hleft : op.keepsLeft <;> obtain ⟨n, hn⟩ | hn | hn := hl.type <;>
        obtain ⟨n', hn'⟩ | hn' | hn' := hr.type <;> simp [hn, hn', hlogical, hcomparison, Ty.isLiteral]
      all_goals grind

end Integral

-- Operands.

@[simp] theorem fits_int {s s' : Bool} {n n' : Nat} :
    Junction.Fits ⟨.int s n, .int s' n'⟩ ↔ n ≤ n' := Iff.rfl

@[simp] theorem fits_self (t : Ty) : Junction.Fits ⟨t, t⟩ := by
  cases t <;> simp [Junction.Fits]

@[simp] theorem fits_bool (t : Ty) : Junction.Fits ⟨t, .bool⟩ := by
  cases t <;> trivial

@[simp] theorem bool_fits (t : Ty) : Junction.Fits ⟨.bool, t⟩ := trivial

@[simp] theorem literal_fits (t : Ty) : Junction.Fits ⟨.literal, t⟩ := trivial

-- What takes the type that is asked for is not converted.
theorem fits_asked (t : Ty) : Junction.Fits ⟨(expectedInt? (some t)).getD .uint256, t⟩ := by
  cases t <;> simp [expectedInt?, Junction.Fits, Ty.uint256]

variable {left right : Expr} {op : BinaryOp}

-- An operand that conceals no width is never cut down, if the operation takes it at least as wide as its
-- type.
theorem fits_of_concealed_none {e : Expr} (he : Integral e) (hnone : concealed? e = none) {t : Ty}
    (ht : Junction.Fits ⟨e.type, t⟩) : Junction.Fits ⟨writtenType (some t) e, t⟩ := by
  obtain ⟨m, n, hm, -⟩ | ⟨-, hself | ⟨-, hasked⟩⟩ := he.evaluated (some t)
  · simp [hm] at hnone
  · rwa [hself]
  · rw [hasked]
    exact fits_asked t

-- A left operand is cut down exactly when it conceals a width that its sibling does not have.
theorem fits_left_iff (op : BinaryOp) (expected : Option Ty) (hl : Integral left) (hr : Integral right) :
    let t := operandType expected op left.type right.type
    Junction.Fits ⟨writtenType (some t) left, t⟩ ↔
      ∀ m, concealed? left = some m →
        op.keepsLeft = false ∧ ∃ n, right.type = .int false n ∧ m ≤ n := by
  intro t
  obtain ⟨m, n, hm, hlt, htype, hwritten⟩ | ⟨hnone, -⟩ := hl.evaluated (some t)
  · have ht : t = operandType expected op (.int false n) right.type := by rw [← htype]
    rw [hwritten, ht]
    unfold operandType
    cases hkeeps : op.keepsLeft with
    | true => simp [hm, hlt]
    | false =>
        obtain ⟨n', hn'⟩ | hn' | hn' := hr.type
        · simp only [hn', hm]
          grind [fits_int]
        · simp [hn', hm, hlt]
        · simp [hn', hm, hlt]
  · refine iff_of_true (fits_of_concealed_none hl hnone ?_) (by simp [hnone])
    obtain ⟨n, hn⟩ | hn | hn := hl.type <;> obtain ⟨n', hn'⟩ | hn' | hn' := hr.type <;>
      simp only [t, hn, hn', operandType] <;> grind [fits_int, fits_self, literal_fits]

-- A right operand of a shift or power is taken as its own type, any other as its sibling.
theorem fits_right_iff (expected : Option Ty) (hl : Integral left) (hr : Integral right)
    (hop : op ≠ .and ∧ op ≠ .or) :
    let t := (takenTypes expected op left.type right.type).2
    Junction.Fits ⟨writtenType (some t) right, t⟩ ↔
      ∀ m, concealed? right = some m →
        op.keepsLeft = false ∧ (left.type = .bool ∨ ∃ n, left.type = .int false n ∧ m ≤ n) := by
  intro t
  have ht : t = if op.keepsLeft then (if right.type.isLiteral then .int false 32 else right.type)
      else operandType expected op left.type right.type := by simp [t, takenTypes, hop]
  obtain ⟨m, n, hm, hlt, htype, hwritten⟩ | ⟨hnone, -⟩ := hr.evaluated (some t)
  · rw [hwritten, ht, htype]
    unfold operandType
    cases hkeeps : op.keepsLeft with
    | true => simp [hm, hlt, Ty.isLiteral]
    | false =>
        obtain ⟨n', hn'⟩ | hn' | hn' := hl.type
        · simp only [hn', hm]
          grind [fits_int]
        · simp [hn', hm, hlt]
        · simp [hn', hm]
  · refine iff_of_true (fits_of_concealed_none hr hnone ?_) (by simp [hnone])
    rw [ht]
    obtain ⟨n, hn⟩ | hn | hn := hl.type <;> obtain ⟨n', hn'⟩ | hn' | hn' := hr.type <;>
      simp only [hn, hn', operandType, Ty.isLiteral] <;>
      grind [fits_int, fits_self, literal_fits, bool_fits, fits_bool]

theorem keepsWidths_of_parts {e : Expr} (hparts : e.children = []) : KeepsWidths e := by
  have hsub : e.subexprs = [e] := by cases e <;> simp_all [Expr.children, Expr.subexprs, Expr.subexprsList]
  intro p op left right t hmem
  rw [hsub, List.mem_singleton] at hmem
  subst hmem
  cases hparts

theorem keepsWidths_binary {p : Position} {t : Ty} :
    KeepsWidths (.binary p op left right t) ↔
      (∀ m, concealed? left = some m →
        op.keepsLeft = false ∧ ∃ n, right.type = .int false n ∧ m ≤ n) ∧
      (∀ m, concealed? right = some m →
        op.keepsLeft = false ∧ (left.type = .bool ∨ ∃ n, left.type = .int false n ∧ m ≤ n)) ∧
      KeepsWidths left ∧ KeepsWidths right := by
  simp only [KeepsWidths, Expr.subexprs, List.mem_cons, List.mem_append]
  constructor
  · intro h
    refine ⟨(h _ _ _ _ _ (.inl rfl)).1, (h _ _ _ _ _ (.inl rfl)).2, ?_, ?_⟩
    · exact fun p op l r t hmem => h p op l r t (.inr (.inl hmem))
    · exact fun p op l r t hmem => h p op l r t (.inr (.inr hmem))
  · rintro ⟨hself, hself', hl, hr⟩ p' op' l r t' (heq | hmem | hmem)
    · injection heq with _ hop hl hr
      subst hop hl hr
      exact ⟨hself, hself'⟩
    · exact hl p' op' l r t' hmem
    · exact hr p' op' l r t' hmem

-- No operand anywhere is cut down exactly when operations that conceal their width stand beside operands
-- that are as wide.
theorem fits_junctions_iff {e : Expr} (he : Integral e) (expected : Option Ty) :
    (∀ j ∈ junctions expected e, j.Fits) ↔ KeepsWidths e := by
  induction he generalizing expected with
  | @operand e n hparts ht =>
      have hnone : junctions expected e = [] := by cases e <;> simp_all [Expr.children, junctions]
      simp [hnone, keepsWidths_of_parts hparts]
  | literal p v => simp [junctions, keepsWidths_of_parts (rfl : (Expr.int p v).children = [])]
  | @operation p op left right hop hl hr ihl ihr =>
      obtain ⟨v, heq⟩ | heq := newBinary_eq p op left right
      · simp [heq, junctions, keepsWidths_of_parts (rfl : (Expr.int p v).children = [])]
      · have hleft := fits_left_iff op expected hl hr
        have hright := fits_right_iff expected hl hr hop
        have htaken : (takenTypes expected op left.type right.type).1 =
            operandType expected op left.type right.type := by simp [takenTypes, hop]
        rw [← htaken] at hleft
        simp only [heq, junctions, List.forall_mem_cons, List.forall_mem_append, ihl, ihr, hleft, hright,
          keepsWidths_binary]

-- Conversions.

-- What computes a number of so many bits computes it still.
def Preserves (n : Nat) (x y : Rust.Expr) : Prop :=
  ∀ h fuel (m : Machine), m.locals.lookup "env" = none →
    ∀ v : Nat, v < 2 ^ n → Reads h fuel m x (.int v) → Reads h fuel m y (.int v)

theorem Preserves.trans {n : Nat} {x y z : Rust.Expr} (h : Preserves n x y) (h' : Preserves n y z) :
    Preserves n x z :=
  fun host fuel m henv v hv hx => h' host fuel m henv v hv (h host fuel m henv v hv hx)

-- A primitive type holds the numbers of all narrower types.
theorem preserves_cast {n width : Nat} (hwidth : width ∈ [8, 16, 32, 64, 128]) (hn : n ≤ width)
    (x : Rust.Expr) : Preserves n x (.cast x ("u" ++ toString width)) := by
  intro h fuel m _ v hv hx
  have hlt : v < 2 ^ width := Nat.lt_of_lt_of_le hv (Nat.pow_le_pow_right (by decide) hn)
  have hint : ∀ w ∈ [8, 16, 32, 64, 128], Rust.intType? ("u" ++ toString w) = some (false, w) := by
    decide
  refine hx.cast ?_
  have hmod : (v : Int) % 2 ^ width = v := by
    have : ((v % 2 ^ width : Nat) : Int) = v := by rw [Nat.mod_eq_of_lt hlt]
    simpa using this
  simp only [Rust.castTo, hint width hwidth, hmod]

variable {E : Env} {s s' : State} {x y : Rust.Expr}

theorem preserves_inkCast {v : InkVersion} {n n' : Nat} (hn : n ≤ n')
    (hw : Writes (Ink.cast v x (.int false n) (.int false n')) E s y s') : Preserves n x y := by
  simp only [Ink.cast] at hw
  obtain ⟨name, s₁, hname, hw⟩ := writes_bind.mp hw
  cases hwide : Ink.isWide n' with
  | true =>
      cases hwide' : Ink.isWide n with
      | true =>
          rw [hwide, hwide'] at hw
          obtain ⟨rfl, -⟩ := writes_pure.mp hw
          exact fun _ _ _ _ _ _ hx => hx
      | false =>
          rw [hwide, hwide'] at hw
          obtain ⟨-, s₂, -, hw⟩ := writes_bind.mp hw
          obtain ⟨rfl, -⟩ := writes_pure.mp hw
          intro h fuel m _ u _ hx
          exact .callPath (.cons hx .nil) rfl
  | false =>
      have hwide' : Ink.isWide n = false := by
        simp only [Ink.isWide, decide_eq_false_iff_not] at hwide ⊢
        omega
      rw [hwide, hwide'] at hw
      obtain ⟨rfl, -⟩ := writes_pure.mp hw
      cases hwidth : Ink.primitiveWidth? n' with
      | none =>
          have := List.find?_eq_none.mp hwidth 128 (by decide)
          simp only [Ink.isWide, decide_eq_false_iff_not] at hwide this
          simp_all
      | some width =>
          simp only [Ink.intName, hwidth] at hname
          obtain ⟨rfl, -⟩ := writes_pure.mp hname
          have hle : n' ≤ width := by simpa using List.find?_some hwidth
          exact preserves_cast (List.mem_of_find?_eq_some hwidth) (Nat.le_trans hn hle) x

theorem preserves_sorobanCast {n n' : Nat} (hn : n ≤ n')
    (hw : Writes (Soroban.cast x (.int false n) (.int false n')) E s y s') : Preserves n x y := by
  simp only [Soroban.cast] at hw
  cases hwide : Soroban.isWide n' with
  | true =>
      cases hwide' : Soroban.isWide n with
      | true =>
          rw [hwide, hwide'] at hw
          obtain ⟨rfl, -⟩ := writes_pure.mp hw
          exact fun _ _ _ _ _ _ hx => hx
      | false =>
          rw [hwide, hwide'] at hw
          obtain ⟨-, s₂, -, hw⟩ := writes_bind.mp hw
          obtain ⟨rfl, -⟩ := writes_pure.mp hw
          intro h fuel m henv u hu hx
          have hn128 : n ≤ 128 := by simpa [Soroban.isWide] using hwide'
          have hcast := preserves_cast (by decide : 128 ∈ _) hn128 x h fuel m henv u hu hx
          exact .callPath (.cons (Soroban.hostReads_env h fuel m henv) (.cons hcast .nil)) rfl
  | false =>
      have hwide' : Soroban.isWide n = false := by
        simp only [Soroban.isWide, decide_eq_false_iff_not] at hwide ⊢
        omega
      rw [hwide, hwide'] at hw
      obtain ⟨rfl, -⟩ := writes_pure.mp hw
      cases hwidth : [32, 64, 128].find? (n' ≤ ·) with
      | none =>
          have := List.find?_eq_none.mp hwidth 128 (by decide)
          simp only [Soroban.isWide, decide_eq_false_iff_not] at hwide this
          simp_all
      | some width =>
          simp only [Soroban.intName, hwidth]
          have hle : n' ≤ width := by simpa using List.find?_some hwidth
          have hmem := List.mem_of_find?_eq_some hwidth
          exact preserves_cast (by simp_all) (Nat.le_trans hn hle) x

theorem preserves_convert {n n' : Nat} (hn : n ≤ n')
    (hw : Writes (convert x (.int false n) (.int false n')) E s y s') : Preserves n x y := by
  rw [convert, writes_of_target] at hw
  cases htarget : E.target with
  | ink v => exact preserves_inkCast hn (by simpa only [htarget] using hw)
  | soroban => exact preserves_sorobanCast hn (by simpa only [htarget] using hw)

-- An operand is written by itself and cloned where it is a place.
theorem writes_operandOf {e : Expr} {written : Emit Access} (hw : Writes (operandOf e written) E s y s') :
    ∃ x s₁ s₂, Writes written E s₁ (.value x) s₂ ∧ (y = x ∨ y = x.method "clone") := by
  obtain ⟨x, s₂, hvalue, hof⟩ := writes_bind.mp hw
  obtain ⟨-, s₃, -, hvalue⟩ := writes_bind.mp hvalue
  obtain ⟨a, s₄, hwritten, hvalue⟩ := writes_bind.mp hvalue
  cases a with
  | entry => exact (not_writes_throw hvalue).elim
  | value x₀ =>
      obtain ⟨rfl, -⟩ := writes_pure.mp hvalue
      refine ⟨x₀, s₃, s₄, hwritten, ?_⟩
      obtain ⟨isPlace, s₅, -, hof⟩ := writes_bind.mp hof
      obtain ⟨isCopy, s₆, -, hof⟩ := writes_bind.mp hof
      split at hof
      · exact .inr (writes_pure.mp hof).1.symm
      · exact .inl (writes_pure.mp hof).1.symm

-- It is converted where its type differs from the one that is asked for.
theorem writes_operandAs {t : Ty} {e : Expr} {written : Option Ty → Emit Access}
    (hw : Writes (operandAs (some t) e written) E s y s') :
    ∃ x x' s₁ s₂, Writes (written (some t)) E s₁ (.value x) s₂ ∧ (x' = x ∨ x' = x.method "clone") ∧
      (y = x' ∨ ∃ sign n sign' n' s₃ s₄, writtenType (some t) e = .int sign n ∧ t = .int sign' n' ∧
        ¬(sign = sign' ∧ n = n') ∧ Writes (convert x' (.int sign n) (.int sign' n')) E s₃ y s₄) := by
  obtain ⟨x', s₁, hof, hresult⟩ := writes_bind.mp hw
  obtain ⟨x, s₃, s₄, hwritten, hclone⟩ := writes_operandOf hof
  refine ⟨x, x', s₃, s₄, hwritten, hclone, ?_⟩
  split at hresult
  · rename_i heval ht
    obtain rfl := Option.some.inj ht
    split at hresult
    · exact .inl (writes_pure.mp hresult).1.symm
    · rename_i hdiff
      exact .inr ⟨_, _, _, _, _, _, heval, rfl, by simpa using hdiff, hresult⟩
  · exact .inl (writes_pure.mp hresult).1.symm

-- A type as which the operation takes an operand of an unsigned type.
theorem unsigned_takenTypes (expected : Option Ty) (hl : Integral left) (hr : Integral right)
    (hop : op ≠ .and ∧ op ≠ .or) :
    let taken := takenTypes expected op left.type right.type
    ∀ s n, (taken.1 = .int s n ∧ left.type ≠ .literal ∨ taken.2 = .int s n ∧ right.type ≠ .literal) →
      s = false := by
  simp only [takenTypes, operandType]
  obtain ⟨n, hn⟩ | hn | hn := hl.type <;> obtain ⟨n', hn'⟩ | hn' | hn' := hr.type <;>
    cases hkeeps : op.keepsLeft <;> grind [Ty.isLiteral]

-- How an integer expression is put together: each operand is written by itself, is handed to its operation
-- without loss of bits, and the operation is applied.
inductive Assembled (E : Env) : Option Ty → Expr → Rust.Expr → Prop where
  | operand {expected : Option Ty} {e : Expr} {x : Rust.Expr} (hparts : e.children = [])
      (hw : ∃ inlined s s', Writes (access inlined expected e) E s (.value x) s') :
      Assembled E expected e x
  | operation {expected : Option Ty} {p : Position} {op : BinaryOp} {left right : Expr} {t l r : Ty}
      {x x' y y' z : Rust.Expr} (htaken : (l, r) = takenTypes expected op left.type right.type)
      (hx : Assembled E (some l) left x) (hy : Assembled E (some r) right y)
      (hx' : ∀ n, writtenType (some l) left = .int false n → Preserves n x x')
      (hy' : ∀ n, writtenType (some r) right = .int false n → Preserves n y y')
      (hz : ∃ s s', Writes (applyBinary op (if isComparison op then x'.borrowed else x')
        (if isComparison op then y'.borrowed else y') l r) E s z s') :
      Assembled E expected (.binary p op left right t) z

-- An operand that fits is handed over without loss.
theorem preserves_operandAs {t : Ty} {e : Expr} {written : Option Ty → Emit Access} (he : Integral e)
    (hfits : Junction.Fits ⟨writtenType (some t) e, t⟩)
    (hsign : e.type ≠ .literal → ∀ s n, t = .int s n → s = false)
    (hw : Writes (operandAs (some t) e written) E s y s') :
    ∃ x s₁ s₂, Writes (written (some t)) E s₁ (.value x) s₂ ∧
      ∀ n, writtenType (some t) e = .int false n → Preserves n x y := by
  obtain ⟨x, x', s₁, s₂, hx, hclone, hy⟩ := writes_operandAs hw
  refine ⟨x, s₁, s₂, hx, fun n hn => ?_⟩
  have hx' : Preserves n x x' := by
    obtain rfl | rfl := hclone
    · exact fun _ _ _ _ _ _ hr => hr
    · exact fun _ _ _ _ _ _ hr => hr.clone
  obtain rfl | ⟨sign, n₁, sign', n', s₃, s₄, heval, rfl, hdiff, hconvert⟩ := hy
  · exact hx'
  · rw [hn] at heval hfits
    injection heval with hs hn₁
    subst hs hn₁
    have htype : e.type ≠ .literal := by
      intro hlit
      obtain ⟨m, k, -, -, htype, -⟩ | ⟨-, hself | ⟨-, hasked⟩⟩ := he.evaluated (some (.int sign' n'))
      · simp [hlit] at htype
      · simp [hn, hlit] at hself
      · simp only [hn, expectedInt?, Option.getD_some, Ty.int.injEq] at hasked
        exact hdiff hasked
    obtain rfl := hsign htype _ _ rfl
    exact hx'.trans (preserves_convert hfits hconvert)

theorem assembled_of_writes {e : Expr} {inlined : ConstantDecl → Emit Rust.Expr}
    {expected : Option Ty} (he : Integral e) (hfits : ∀ j ∈ junctions expected e, j.Fits)
    (hw : Writes (access inlined expected e) E s (.value x) s') : Assembled E expected e x := by
  induction he generalizing expected s x s' with
  | operand hparts ht => exact .operand hparts ⟨_, _, _, hw⟩
  | literal p v => exact .operand rfl ⟨_, _, _, hw⟩
  | @operation p op left right hop hl hr ihl ihr =>
      obtain ⟨v, heq⟩ | heq := newBinary_eq p op left right
      · rw [heq] at hw ⊢
        exact .operand rfl ⟨_, _, _, hw⟩
      · rw [heq] at hw hfits ⊢
        simp only [junctions, List.forall_mem_cons, List.forall_mem_append] at hfits
        obtain ⟨hfitl, hfitr, hfitsl, hfitsr⟩ := hfits
        have htaken : takenTypes expected op left.type right.type =
            (operandType expected op left.type right.type,
              if op.keepsLeft then (if right.type.isLiteral then .int false 32 else right.type)
              else operandType expected op left.type right.type) := by simp [takenTypes, hop]
        simp only [access, hop, decide_false, Bool.or_self, Bool.false_eq_true, if_false] at hw
        obtain ⟨x', s₁, hx', hw⟩ := writes_bind.mp hw
        obtain ⟨y', s₂, hy', hw⟩ := writes_bind.mp hw
        rw [htaken] at hfitl hfitr hfitsl hfitsr
        have hsign := unsigned_takenTypes expected hl hr hop
        rw [htaken] at hsign
        obtain ⟨x₀, _, _, hx, hkeepx⟩ := preserves_operandAs hl hfitl
          (fun hne s n ht => hsign s n (.inl ⟨ht, hne⟩)) hx'
        obtain ⟨y₀, _, _, hy, hkeepy⟩ := preserves_operandAs hr hfitr
          (fun hne s n ht => hsign s n (.inr ⟨ht, hne⟩)) hy'
        refine .operation htaken.symm (ihl hfitsl hx) (ihr hfitsr hy) hkeepx hkeepy ?_
        cases hcmp : isComparison op <;> simp only [hcmp] at hw <;>
        · obtain ⟨z, s₃, hz, hw⟩ := writes_bind.mp hw
          obtain ⟨heq, -⟩ := writes_pure.mp hw
          cases heq
          exact ⟨_, _, hz⟩

-- Mixed widths lose no bits exactly when operations that conceal their width stand beside operands that are
-- as wide; every conversion between an operation and its operands then keeps all numbers.
theorem operands_fit_iff {e : Expr} (he : Integral e) (expected : Option Ty) :
    ((∀ j ∈ junctions expected e, j.Fits) ↔ KeepsWidths e) ∧
      (KeepsWidths e → ∀ inlined E s x s', Writes (access inlined expected e) E s (.value x) s' →
        Assembled E expected e x) := by
  refine ⟨fits_junctions_iff he expected, ?_⟩
  intro hkeeps inlined E s x s' hw
  exact assembled_of_writes he ((fits_junctions_iff he expected).mpr hkeeps) hw

-- `a + b + c` with an 8-bit `a` and a 16-bit `b`.
namespace Sum

def term (name : String) (n : Nat) : Expr := .var {} name (.int false n)

def pair : Expr := Resolve.newBinary {} .add (term "a" 8) (term "b" 16)

def total (n : Nat) : Expr := Resolve.newBinary {} .add pair (term "c" n)

theorem integral_total (n : Nat) : Integral (total n) :=
  .operation {} (by decide) (.operation {} (by decide) (.operand rfl rfl) (.operand rfl rfl))
    (.operand rfl rfl)

theorem keepsWidths_total {n : Nat} (hn : 16 ≤ n) : KeepsWidths (total n) := by
  have hleaf (name : String) (n : Nat) : KeepsWidths (term name n) := keepsWidths_of_parts rfl
  have hpair : KeepsWidths pair := by
    refine keepsWidths_binary.mpr ⟨?_, ?_, hleaf _ _, hleaf _ _⟩ <;> simp [concealed?, term]
  refine keepsWidths_binary.mpr ⟨?_, by simp [concealed?, term], hpair, hleaf _ _⟩
  intro m hm
  obtain rfl : 16 = m := Option.some.inj hm
  exact ⟨rfl, n, rfl, hn⟩

def env : Env := ⟨{ name := "sample", classes := [] }, default, .ink .v5⟩

def state : State :=
  { frame := { scopes := [{ locals := [("a", "a"), ("b", "b"), ("c", "c")] }] } }

def inlined : ConstantDecl → Emit Rust.Expr := fun d => constantValue 0 d

-- A wide third term keeps the sum of the others.
theorem operands_fit_wide :
    (∀ j ∈ junctions (some (.int false 16)) (total 16), j.Fits) ∧
      ∃ x s', Writes (access inlined (some (.int false 16)) (total 16)) env state (.value x) s' ∧
        Assembled env (some (.int false 16)) (total 16) x := by
  have hfit := operands_fit_iff (integral_total 16) (some (.int false 16))
  have hkeeps := keepsWidths_total (Nat.le_refl 16)
  obtain ⟨x, s', hw⟩ : ∃ x s', Writes (access inlined (some (.int false 16)) (total 16)) env state
      (.value x) s' := ⟨_, _, rfl⟩
  exact ⟨hfit.1.mpr hkeeps, x, s', hw, hfit.2 hkeeps _ _ _ _ _ hw⟩

def adding : Rust.Host where
  field _ := ⟨false, .unit⟩
  literal _ := none
  unary _ _ := none
  binary op v w :=
    match op, v, w with
    | "+", .int i, .int j => some (.int (i + j))
    | _, _, _ => none
  cast _ _ := none
  function _ _ _ := none
  method _ _ _ _ := none
  contract _ _ _ _ _ := none

-- `a as u16 + b`
def written : Rust.Expr := .binary "+" (.cast (.ident "a") "u16") (.ident "b")

-- A narrow third term cuts the sum of the others down: of 256 nothing is left.
theorem sum_cut_down :
    Integral (total 8) ∧ (∃ j ∈ junctions (some (.int false 16)) (total 8), ¬j.Fits) ∧
      (∃ s', Writes (access inlined (some (.int false 16)) (total 8)) env state
        (.value (.binary "+" (.cast written "u8") (.ident "c"))) s') ∧
      ∃ m, Reads adding 0 m written (.int 256) ∧ Reads adding 0 m (.cast written "u8") (.int 0) := by
  refine ⟨integral_total 8, ⟨⟨.int false 16, .int false 8⟩, ?_, ?_⟩, ⟨_, rfl⟩, ?_⟩
  · exact List.mem_cons_self
  · simp
  · exact ⟨⟨[("a", .value (.int 0)), ("b", .value (.int 256))], fun _ => none⟩, rfl, rfl⟩

end Sum

end RustContracts.Emit
