import RustContracts.Proofs.Emit.Conversion
import RustContracts.Proofs.Emit.Widths
import RustContracts.Proofs.Rust.Typing

-- Integer constants and their types. A constant is written as its value wherever it is used. Numbers in the value take
-- the constant's type; all else is of the type that it is evaluated at, and nothing converts the whole.
namespace RustContracts.Emit

open Program
open Solidity (BinaryOp UnaryOp)
open Text (Position)
open Rust (IntType)

-- Integer expressions of a package: operations, choices and conversions of integer expressions, numbers, bounds and the
-- package's constants, and `Leaf` for all others.
inductive Numeric (p : Package) (Leaf : Expr → Prop) : Expr → Prop where
  | leaf {e : Expr} {t : IntType} (hleaf : Leaf e) (ht : e.type = ofInt t) (hsize : t.Sized) : Numeric p Leaf e
  | number (start : Position) (v : Nat) : Numeric p Leaf (.int start v)
  | const (start : Position) {c : Constant} {t : IntType} (hc : p.constant? c.ref = some c) (ht : c.type = ofInt t)
      (hsize : t.Sized) : Numeric p Leaf (.const start c.toConstantDecl)
  | operation (start : Position) {op : BinaryOp} {left right : Expr} (hop : op.isLogical = false)
      (hl : Numeric p Leaf left) (hr : Numeric p Leaf right) : Numeric p Leaf (Resolve.newBinary start op left right)
  | unary (start : Position) {op : UnaryOp} {e : Expr} (hop : op ≠ .not) (he : Numeric p Leaf e) :
      Numeric p Leaf (.unary start op e e.type)
  | choice (start : Position) (cond : Expr) {x y : Expr} (hx : Numeric p Leaf x) (hy : Numeric p Leaf y) :
      Numeric p Leaf (.ternary start cond x y (if x.type.isLiteral then y.type else x.type))
  | conversion (start : Position) {t : IntType} (hsize : t.Sized) {e : Expr} (he : Numeric p Leaf e) :
      Numeric p Leaf (.cast start (ofInt t) e)
  | bound (start : Position) {t : IntType} (hsize : t.Sized) (isMax : Bool) :
      Numeric p Leaf (.bound start t.signed t.bits isMax)

-- The integer type that a type is, or else the one that is asked for.
def intOr (asked : IntType) : Ty → IntType
  | .int signed bits => ⟨signed, bits⟩
  | _ => asked

-- The type that an integer expression is evaluated at where a type is asked for.
def evaluatedAt (expected : Option Ty) (e : Expr) : IntType := intOr (askedInt expected) (writtenType expected e)

-- An expression is of the Rust type that an integer type is written as; `known` types what is no operation, conversion or
-- literal.
def HasType (E : Env) (known : Rust.Expr → Option IntType) (type : Ty) (x : Rust.Expr) : Prop :=
  ∃ T, Represents E type T ∧ x.integerType? known none = some T

-- The same by what holds the numbers of the type.
def Typed (E : Env) (known : Rust.Expr → Option IntType) (t : IntType) (x : Rust.Expr) : Prop :=
  ∃ T, holder? E.target t = some T ∧ x.integerType? known none = some T

-- Leaves are written with the Rust types of what they are declared as.
structure Leaves (E : Env) (known : Rust.Expr → Option IntType) (Leaf : Expr → Prop) : Prop where
  type : ∀ e, Leaf e → ∀ expected, writtenType expected e = e.type
  typed : ∀ e, Leaf e → ∀ inlined expected s x s', Writes (access inlined expected e) E s (.value x) s' →
    HasType E known e.type x

variable {E : Env} {s s' : State} {x y z : Rust.Expr} {t u T : IntType}
variable {known : Rust.Expr → Option IntType} {p : Package} {Leaf : Expr → Prop} {e : Expr}

theorem hasType_iff (hsize : t.Sized) : HasType E known (ofInt t) x ↔ Typed E known t x := by
  simp only [HasType, Typed, represents_iff hsize.2]

namespace Typed

theorem of_value (hT : holder? E.target t = some T) {v : Int}
    (hx : ∀ known, x.integer? known none = some ⟨T, v⟩) : Typed E known t x :=
  ⟨T, hT, (Rust.type_of_value known).1 none x ⟨T, v⟩ (hx _)⟩

theorem clone (h : Typed E known t x) : Typed E known t (x.method "clone") := by
  obtain ⟨T, hT, hx⟩ := h
  exact ⟨T, hT, Rust.type_clone.trans hx⟩

end Typed

-- Numbers and bounds.

theorem typed_number {expected : Option Ty} (hsize : (askedInt expected).Sized) {start : Position} {value : Nat}
    {negative : Bool} (hw : Writes (numberLiteral expected start value negative) E s x s') :
    Typed E known (askedInt expected) x := by
  rw [numberLiteral_eq] at hw
  obtain ⟨-, T, hT, hx⟩ := number_denotes hsize hw
  exact .of_value hT hx

theorem typed_bound (hsize : t.Sized) {isMax : Bool} (hw : Writes (intBound t.signed t.bits isMax) E s x s') :
    Typed E known t x := by
  obtain ⟨T, hT, hx⟩ := intBound_denotes hsize hw
  exact .of_value hT hx

-- Conversions.

theorem typed_convert (hsource : t.Sized) (hresult : u.Sized) (hx : Typed E known t x)
    (hw : Writes (convert x (ofInt t) (ofInt u)) E s y s') : Typed E known u y := by
  have hprimitive : ∀ sign, (⟨sign, 128⟩ : IntType) ∈ IntType.primitives := by decide
  obtain ⟨S, hS, hx⟩ := hx
  obtain ⟨T, hT, hy⟩ := writes_convert hsource hresult hS hw
  refine ⟨T, hT, ?_⟩
  cases hy with
  | kept _ _ hheld => rw [hx, hheld]
  | cut _ _ hSkind hTkind => exact Rust.type_cast hx hSkind hTkind
  | widenedInk _ _ _ hSkind hTkind => exact hTkind ▸ Rust.type_toU256 hx hSkind
  | widenedSoroban _ _ _ hSkind hTkind hpath =>
      exact hTkind ▸ Rust.type_host hpath (Rust.type_cast hx hSkind (hprimitive _))
  | narrowedInk _ _ _ hSkind hTkind =>
      subst hSkind
      exact Rust.type_cast (Rust.type_lowBits hx) (by decide) hTkind
  | narrowedSoroban _ _ _ hSkind hTkind =>
      subst hSkind
      exact Rust.type_cast (Rust.type_narrow hx) (hprimitive _) hTkind

-- Operators.

theorem arithmetic_or_shift {op : BinaryOp} (hop : op.isLogical = false) (hpow : op ≠ .pow) :
    if op.keepsLeft then Rust.isShift op.text = true ∧ Rust.isArithmetic op.text = false
    else Rust.isArithmetic op.text = true := by
  cases op <;> first | decide | exact absurd rfl hpow | cases hop

-- An operator on two numbers of a type, or on one that it keeps the type of.
theorem typed_operator {op : BinaryOp} (hop : op.isLogical = false) (hpow : op ≠ .pow) (hx : Typed E known t x)
    (hy : op.keepsLeft = false → Typed E known t y) : Typed E known t (.binary op.text x y) := by
  have hkind := arithmetic_or_shift hop hpow
  obtain ⟨T, hT, hx⟩ := hx
  refine ⟨T, hT, ?_⟩
  cases hkeeps : op.keepsLeft with
  | true =>
      rw [hkeeps, if_pos rfl] at hkind
      exact Rust.type_shift hkind hx
  | false =>
      rw [hkeeps, if_neg Bool.false_ne_true] at hkind
      obtain ⟨U, hU, hy⟩ := hy hkeeps
      obtain rfl := Option.some.inj (hT.symm.trans hU)
      exact Rust.type_arithmetic hkind hx hy

theorem typed_inkBinary {op : BinaryOp} (hop : op.isLogical = false) (hx : Typed E known t x)
    (hy : op.keepsLeft = false → Typed E known t y) (left right : Ty) :
    Typed E known t (Ink.binary op x y left right) := by
  have hpow {args : Rust.Expr} : Typed E known t (x.methodCall "pow" [args]) := by
    obtain ⟨T, hT, hx⟩ := hx
    exact ⟨T, hT, Rust.type_keeping (by decide) hx⟩
  unfold Ink.binary
  split
  · unfold Ink.power
    split
    · exact hpow
    · split <;> exact hpow
  · split
    · exact typed_operator hop (by decide) hx fun h => absurd h (by decide)
    · exact typed_operator hop (by decide) hx hy
  · split
    · exact typed_operator hop (by decide) hx fun h => absurd h (by decide)
    · exact typed_operator hop (by decide) hx hy
  · next hne _ _ => exact typed_operator hop hne hx hy

theorem wideMethod_spec {op : BinaryOp} {method : String} (h : Soroban.wideMethod? op = some method) :
    Rust.isWideMethod method = true ∧ op.keepsLeft = false := by
  cases op <;> cases h <;> decide

theorem typed_wideOperator {op : BinaryOp} (left : Ty) (hx : Typed E known t x)
    (hy : op.keepsLeft = false → Typed E known t y)
    (hw : Writes (match Soroban.wideMethod? op with
      | some method => pure (x.borrowed.methodCall method [Soroban.borrow y])
      | none => throw (.fault (.unsupported {} ("operator " ++ op.text ++ " on " ++ left.text)))) E s z s') :
    Typed E known t z := by
  obtain ⟨T, hT, hx⟩ := hx
  cases hmethod : Soroban.wideMethod? op with
  | none =>
      rw [hmethod] at hw
      exact absurd hw not_writes_throw
  | some method =>
      rw [hmethod] at hw
      obtain ⟨hwide, hkeeps⟩ := wideMethod_spec hmethod
      obtain ⟨U, hU, hy⟩ := hy hkeeps
      obtain rfl := Option.some.inj (hT.symm.trans hU)
      obtain ⟨rfl, -⟩ := writes_pure.mp hw
      exact ⟨T, hT, Rust.type_wideMethod hwide (Rust.type_borrowed hx) (Rust.type_borrowed hy)⟩

theorem typed_wideBinary {op : BinaryOp} (hop : op.isLogical = false) {left right : Ty} (hx : Typed E known t x)
    (hy : op.keepsLeft = false → Typed E known t y)
    (hw : Writes (Soroban.wideBinary op x y left right) E s z s') : Typed E known t z := by
  cases op with
  | pow | shl | shr =>
      obtain ⟨T, hT, hx⟩ := hx
      obtain ⟨rfl, -⟩ := writes_pure.mp hw
      exact ⟨T, hT, Rust.type_keeping (by decide) (Rust.type_borrowed hx)⟩
  | eq | ne | lt | le | gt | ge | and | or => cases hop
  | add | sub | mul | div | mod | bitOr | bitXor | bitAnd => exact typed_wideOperator left hx hy hw

-- Operations are of the type of their left operand.
theorem typed_applyBinary {op : BinaryOp} (hop : op.isLogical = false) {right : Ty}
    (hx : Typed E known t x) (hy : op.keepsLeft = false → Typed E known t y)
    (hw : Writes (applyBinary op x y (ofInt t) right) E s z s') : Typed E known t z := by
  simp only [applyBinary, writes_of_target] at hw
  cases htarget : E.target with
  | ink v =>
      rw [htarget] at hw
      obtain ⟨rfl, -⟩ := writes_pure.mp hw
      exact typed_inkBinary hop hx hy _ _
  | soroban =>
      rw [htarget] at hw
      simp only [Soroban.binary] at hw
      split at hw
      · exact typed_wideBinary hop hx hy hw
      · split at hw
        · obtain ⟨rfl, -⟩ := writes_pure.mp hw
          obtain ⟨T, hT, hx⟩ := hx
          exact ⟨T, hT, Rust.type_keeping (by decide) hx⟩
        · next hpow =>
            obtain ⟨rfl, -⟩ := writes_pure.mp hw
            exact typed_operator hop hpow hx hy

theorem typed_wideZero (hsize : t.Sized) (hsigned : t.signed = true) (hwide : Soroban.isWide t.bits = true)
    (hw : Writes (Soroban.zero (.int true t.bits)) E s x s') : ∃ T, holder? .soroban t = some T ∧
      ∀ known, x.integerType? known none = some T := by
  obtain ⟨_, s₁, -, hw⟩ := writes_bind.mp hw
  simp only [Soroban.zeroWith, hwide, if_true] at hw
  rw [← hsigned] at hw
  have hholds : t.Holds (Rust.signedValue false 0) := by
    obtain ⟨sign, bits⟩ := t
    obtain rfl : sign = true := hsigned
    rw [IntType.holds_signed]
    have : (0 : Int) < 2 ^ (bits - 1) := by positivity
    simp only [Rust.signedValue, Bool.false_eq_true, if_false]
    omega
  obtain ⟨T, hT, hx⟩ := sorobanNumeral_denotes hsize (fun h => absurd h Bool.false_ne_true) hholds hw
  exact ⟨T, hT, fun known => (Rust.type_of_value known).1 none x _ (hx _)⟩

theorem typed_applyUnary {op : UnaryOp} (hsize : t.Sized) (hx : Typed E known t x)
    (hw : Writes (applyUnary op x (ofInt t)) E s y s') : Typed E known t y := by
  simp only [applyUnary, writes_of_target] at hw
  obtain ⟨T, hT, hx⟩ := hx
  obtain ⟨-, hsign, -, -⟩ := holder?_spec hsize.2 hT
  have hcomplement : Typed E known t x.not := ⟨T, hT, Rust.type_not hx⟩
  have hnegation (h : t.signed = true) : Typed E known t x.negate := ⟨T, hT, Rust.type_negate (hsign.trans h) hx⟩
  cases htarget : E.target with
  | ink v =>
      rw [htarget] at hw
      cases op with
      | not => exact absurd hw not_writes_throw
      | complement =>
          obtain ⟨rfl, -⟩ := writes_pure.mp hw
          exact hcomplement
      | negate =>
          cases hsigned : t.signed with
          | false =>
              rw [ofInt, hsigned] at hw
              exact absurd hw not_writes_throw
          | true =>
              rw [ofInt, hsigned] at hw
              obtain ⟨rfl, -⟩ := writes_pure.mp hw
              exact hnegation hsigned
  | soroban =>
      rw [htarget] at hw
      cases op with
      | not => exact absurd hw not_writes_throw
      | complement =>
          simp only [Soroban.unary, ofInt] at hw
          split at hw
          · exact absurd hw not_writes_throw
          · obtain ⟨rfl, -⟩ := writes_pure.mp hw
            exact hcomplement
      | negate =>
          cases hsigned : t.signed with
          | false =>
              rw [ofInt, hsigned] at hw
              exact absurd hw not_writes_throw
          | true =>
              rw [ofInt, hsigned] at hw
              simp only [Soroban.unary] at hw
              split at hw
              · next hwide =>
                  obtain ⟨zero, s₁, hzero, hw⟩ := writes_bind.mp hw
                  obtain ⟨rfl, -⟩ := writes_pure.mp hw
                  obtain ⟨U, hU, hzero⟩ := typed_wideZero hsize hsigned hwide hzero
                  rw [htarget] at hT
                  obtain rfl := Option.some.inj (hT.symm.trans hU)
                  exact ⟨T, htarget ▸ hT, Rust.type_wideMethod (by decide) (hzero known) (Rust.type_borrowed hx)⟩
              · obtain ⟨rfl, -⟩ := writes_pure.mp hw
                exact hnegation hsigned

-- Types of integer expressions.

theorem expectedInt_getD (expected : Option Ty) : (expectedInt? expected).getD .uint256 = ofInt (askedInt expected) := by
  cases expected with
  | none => rfl
  | some t => cases t <;> rfl

-- An integer type or none yet.
def IsNumeric (t : Ty) : Prop := t = .literal ∨ ∃ u : IntType, u.Sized ∧ t = ofInt u

namespace IsNumeric

variable {type : Ty}

theorem taken (h : IsNumeric type) (expected : Option Ty) :
    (if type.isLiteral then (expectedInt? expected).getD .uint256 else type) = ofInt (intOr (askedInt expected) type) := by
  obtain rfl | ⟨u, -, rfl⟩ := h
  · exact expectedInt_getD expected
  · rfl

theorem asked (h : IsNumeric type) :
    (if type.isLiteral then some (ofInt t) else some type) = some (ofInt (intOr t type)) := by
  obtain rfl | ⟨u, -, rfl⟩ := h <;> rfl

theorem sized (h : IsNumeric type) (hasked : t.Sized) : (intOr t type).Sized := by
  obtain rfl | ⟨u, hu, rfl⟩ := h
  · exact hasked
  · exact hu

theorem ite {type' : Ty} {c : Prop} [Decidable c] (h : IsNumeric type) (h' : IsNumeric type') :
    IsNumeric (if c then type else type') := by
  split
  · exact h
  · exact h'

end IsNumeric

theorem Numeric.isNumeric (he : Numeric p Leaf e) : IsNumeric e.type := by
  induction he with
  | leaf _ ht hsize => exact .inr ⟨_, hsize, ht⟩
  | number => exact .inl rfl
  | const _ _ ht hsize => exact .inr ⟨_, hsize, ht⟩
  | @operation start op left right hop _ _ hl hr =>
      obtain ⟨v, heq⟩ | heq := newBinary_eq start op left right
      · exact .inl (by rw [heq]; rfl)
      · rw [heq]
        change IsNumeric (Resolve.binaryType op left.type right.type)
        simp only [Resolve.binaryType, hop, Bool.false_eq_true, if_false]
        exact hl.ite (hr.ite hl)
  | unary _ _ _ ih => exact ih
  | choice _ _ _ _ hx hy => exact hy.ite hx
  | conversion _ hsize => exact .inr ⟨_, hsize, rfl⟩
  | bound _ hsize => exact .inr ⟨_, hsize, rfl⟩

theorem same_ofInt : (ofInt t).same (ofInt u) = true ↔ t = u := by
  obtain ⟨sign, n⟩ := t
  obtain ⟨sign', n'⟩ := u
  simp [ofInt, Ty.same]

-- What an operation takes its left operand as.
theorem operandType_isNumeric {expected : Option Ty} {op : BinaryOp} {left right : Ty} (hop : op.isLogical = false)
    (hasked : (askedInt expected).Sized) (hl : IsNumeric left) (hr : IsNumeric right) :
    ∃ u : IntType, u.Sized ∧ operandType expected op left right = ofInt u := by
  have hcomparison : isComparison op = false := by cases op <;> first | rfl | cases hop
  have hright : IsNumeric (if op.keepsLeft then .literal else right) := by
    split
    · exact .inl rfl
    · exact hr
  unfold operandType
  simp only
  generalize (if op.keepsLeft then Ty.literal else right) = right at hright
  obtain rfl | ⟨u, hu, rfl⟩ := hl <;> obtain rfl | ⟨u', hu', rfl⟩ := hright
  · exact ⟨askedInt expected, hasked, by simp only [hcomparison, Bool.false_eq_true, if_false, expectedInt_getD]⟩
  · exact ⟨u', hu', rfl⟩
  · exact ⟨u, hu, rfl⟩
  · simp only [ofInt]
    split
    · exact ⟨u', hu', rfl⟩
    · exact ⟨u, hu, rfl⟩

theorem evaluatedAt_binary {expected : Option Ty} {start : Position} {op : BinaryOp} {left right : Expr} {type : Ty}
    (hop : op.isLogical = false) (hu : operandType expected op left.type right.type = ofInt u) :
    evaluatedAt expected (.binary start op left right type) = u := by
  simp only [evaluatedAt, writtenType, hop, Bool.false_eq_true, if_false, hu, ofInt, intOr]

theorem Numeric.sized (hleaves : Leaves E known Leaf) (he : Numeric p Leaf e) {expected : Option Ty}
    (hasked : (askedInt expected).Sized) : (evaluatedAt expected e).Sized := by
  have htype := he.isNumeric
  -- all but operations are evaluated as what they are declared to be
  have hplain (h : writtenType expected e = e.type) : (evaluatedAt expected e).Sized := by
    rw [evaluatedAt, h]
    exact htype.sized hasked
  cases he with
  | leaf hleaf => exact hplain (hleaves.type _ hleaf _)
  | @operation start op left right hop hl hr =>
      obtain ⟨v, heq⟩ | heq := newBinary_eq start op left right
      · exact hplain (by rw [heq]; rfl)
      · rw [heq]
        obtain ⟨u, hsize, hu⟩ := operandType_isNumeric hop hasked hl.isNumeric hr.isNumeric
        rwa [evaluatedAt_binary hop hu]
  | _ => exact hplain rfl

-- Operands.

theorem typed_operandAs {written : Option Ty → Emit Access} (hsize : t.Sized)
    (hevaluated : (evaluatedAt (some (ofInt t)) e).Sized)
    (hwritten : ∀ s x s', Writes (written (some (ofInt t))) E s (.value x) s' →
      Typed E known (evaluatedAt (some (ofInt t)) e) x)
    (hw : Writes (operandAs (some (ofInt t)) e written) E s y s') : Typed E known t y := by
  obtain ⟨x', s₁, hof, hw⟩ := writes_bind.mp hw
  obtain ⟨x, s₂, s₃, hx, hclone⟩ := writes_operandOf hof
  have hx' : Typed E known (evaluatedAt (some (ofInt t)) e) x' := by
    obtain rfl | rfl := hclone
    · exact hwritten _ _ _ hx
    · exact (hwritten _ _ _ hx).clone
  cases hwt : writtenType (some (ofInt t)) e with
  | int sign n =>
      simp only [evaluatedAt, hwt, intOr] at hx' hevaluated
      rw [hwt] at hw
      simp only [ofInt] at hw
      split at hw
      · next heq =>
          obtain ⟨rfl, -⟩ := writes_pure.mp hw
          obtain ⟨rfl, rfl⟩ : sign = t.signed ∧ n = t.bits := by simpa using heq
          exact hx'
      · exact typed_convert hevaluated hsize hx' hw
  | _ =>
      simp only [evaluatedAt, hwt, intOr] at hx'
      simp only [hwt] at hw
      obtain ⟨rfl, -⟩ := writes_pure.mp hw
      exact hx'

-- Integer expressions are written with the types that they are evaluated at, if constants are with their own.
theorem typed_access (hleaves : Leaves E known Leaf) {inlined : ConstantDecl → Emit Rust.Expr}
    (hinlined : ∀ c t, E.package.constant? c.ref = some c → c.type = ofInt t → ∀ s x s',
      Writes (inlined c.toConstantDecl) E s x s' → Typed E known t x)
    (he : Numeric E.package Leaf e) (hsize : t.Sized)
    (hw : Writes (access inlined (some (ofInt t)) e) E s (.value x) s') :
    Typed E known (evaluatedAt (some (ofInt t)) e) x := by
  have hoperand {e : Expr} {u : IntType} (he : Numeric E.package Leaf e) (hu : u.Sized)
      (ih : ∀ {s x s'}, Writes (access inlined (some (ofInt u)) e) E s (.value x) s' →
        Typed E known (evaluatedAt (some (ofInt u)) e) x) {s y s'}
      (hw : Writes (operandAs (some (ofInt u)) e fun asked => access inlined asked e) E s y s') : Typed E known u y :=
    typed_operandAs hu (he.sized hleaves hu) (fun _ _ _ hx => ih hx) hw
  have hnumber {start : Position} {n : Nat} {negative : Bool} {s : State} {x : Rust.Expr} {s' : State} {t : IntType}
      (hsize : t.Sized)
      (hw : Writes (numberLiteral (some (ofInt t)) start n negative >>= fun x => pure (Access.value x)) E s (.value x) s') :
      Typed E known t x := by
    obtain ⟨y, s₁, hy, hw⟩ := writes_bind.mp hw
    obtain rfl := Access.value.inj (writes_pure.mp hw).1
    exact typed_number (show (askedInt (some (ofInt t))).Sized from hsize) hy
  induction he generalizing t s x s' with
  | leaf hleaf ht hu =>
      have htyped := hleaves.typed _ hleaf _ _ _ _ _ hw
      rw [ht, hasType_iff hu] at htyped
      rwa [evaluatedAt, hleaves.type _ hleaf, ht]
  | number start v => exact hnumber hsize hw
  | @const start c u hc ht _ =>
      obtain ⟨y, s₁, hy, hw⟩ := writes_bind.mp hw
      obtain rfl := Access.value.inj (writes_pure.mp hw).1
      rw [evaluatedAt, writtenType, Expr.type, ht]
      · exact hinlined _ _ hc ht _ _ _ hy
      · exact fun _ _ _ _ _ heq => Expr.noConfusion heq
  | @operation start op left right hop hl hr ihl ihr =>
      obtain ⟨v, heq⟩ | heq := newBinary_eq start op left right
      · rw [heq] at hw ⊢
        exact hnumber hsize hw
      · rw [heq] at hw ⊢
        have hasked : (askedInt (some (ofInt t))).Sized := hsize
        obtain ⟨u, hu, htype⟩ := operandType_isNumeric hop hasked hl.isNumeric hr.isNumeric
        rw [evaluatedAt_binary hop htype]
        have hne : op ≠ .and ∧ op ≠ .or := by constructor <;> rintro rfl <;> cases hop
        have hcomparison : isComparison op = false := by cases op <;> first | rfl | cases hop
        simp only [access, hne, decide_false, Bool.or_self, Bool.false_eq_true, if_false, htype, hcomparison] at hw
        obtain ⟨l, s₁, hleft, hw⟩ := writes_bind.mp hw
        obtain ⟨r, s₂, hright, hw⟩ := writes_bind.mp hw
        obtain ⟨z, s₃, hz, hw⟩ := writes_bind.mp hw
        obtain rfl := Access.value.inj (writes_pure.mp hw).1
        refine typed_applyBinary hop (hoperand hl hu (ihl hu) hleft) (fun hkeeps => ?_) hz
        rw [hkeeps] at hright
        exact hoperand hr hu (ihr hu) hright
  | @unary start op e hop he ih =>
      change Typed E known (intOr t e.type) x
      have hsized := he.isNumeric.sized hsize
      have hother (hw : Writes (do
          let x ← operandAs (some (if e.type.isLiteral then (expectedInt? (some (ofInt t))).getD .uint256 else e.type)) e
            fun t => access inlined t e
          let y ← applyUnary op x (if e.type.isLiteral then (expectedInt? (some (ofInt t))).getD .uint256 else e.type)
          return Access.value y) E s (.value x) s') : Typed E known (intOr t e.type) x := by
        rw [he.isNumeric.taken (some (ofInt t))] at hw
        obtain ⟨y, s₁, hy, hw⟩ := writes_bind.mp hw
        obtain ⟨z, s₂, hz, hw⟩ := writes_bind.mp hw
        obtain rfl := Access.value.inj (writes_pure.mp hw).1
        exact typed_applyUnary hsized (hoperand he hsized (ih hsized) hy) hz
      cases op with
      | not => exact absurd rfl hop
      | complement => exact hother hw
      | negate =>
          cases e with
          | int q n => exact hnumber hsize hw
          | _ => exact hother hw
  | @choice start cond y z hy hz ihy ihz =>
      have htype : IsNumeric (if y.type.isLiteral then z.type else y.type) := hz.isNumeric.ite hy.isNumeric
      change Typed E known (intOr t (if y.type.isLiteral then z.type else y.type)) x
      have hu := htype.sized hsize
      rw [access] at hw
      obtain ⟨c, s₁, -, hw⟩ := writes_bind.mp hw
      simp only [htype.asked] at hw
      obtain ⟨l, s₂, hl, hw⟩ := writes_bind.mp hw
      obtain ⟨r, s₃, hr, hw⟩ := writes_bind.mp hw
      obtain rfl := Access.value.inj (writes_pure.mp hw).1
      obtain ⟨T, hT, hl⟩ := hoperand hy hu (ihy hu) hl
      obtain ⟨T', hT', hr⟩ := hoperand hz hu (ihz hu) hr
      obtain rfl := Option.some.inj (hT.symm.trans hT')
      exact ⟨T, hT, Rust.type_choice hl hr⟩
  | @conversion start u hu e he ih =>
      change Typed E known u x
      rw [access] at hw
      obtain hlit | ⟨v, hv, htype⟩ := he.isNumeric
      · rw [hlit] at hw
        obtain ⟨y, s₁, hy, hw⟩ := writes_bind.mp hw
        obtain rfl := Access.value.inj (writes_pure.mp hw).1
        exact hoperand he hu (ih hu) hy
      · rw [htype] at hw
        obtain ⟨y, s₁, hy, hw⟩ := writes_bind.mp hw
        have hy := hoperand he hv (ih hv) hy
        split at hw
        · next hsame =>
            obtain rfl := Access.value.inj (writes_pure.mp hw).1
            rwa [← same_ofInt.mp hsame]
        · obtain ⟨z, s₂, hz, hw⟩ := writes_bind.mp hw
          obtain rfl := Access.value.inj (writes_pure.mp hw).1
          exact typed_convert hv hu hy hz
  | bound start hu isMax =>
      obtain ⟨y, s₁, hy, hw⟩ := writes_bind.mp hw
      obtain rfl := Access.value.inj (writes_pure.mp hw).1
      exact typed_bound hu hy

-- Constants.

-- All integer constants of a package have integer expressions for their values.
def IntegerConstants (p : Package) (Leaf : Expr → Prop) : Prop :=
  ∀ c v t, p.constant? c.ref = some c → c.value = some v → c.type = ofInt t → t.Sized ∧ Numeric p Leaf v

-- A constant's value is evaluated at a type with the Rust type of the constant.
def KeepsType (E : Env) (c : Constant) : Prop :=
  ∀ v, c.value = some v → ∀ T, Represents E (ofInt (evaluatedAt (some c.type) v)) T ↔ Represents E c.type T

theorem represents_congr_iff (ht : t.Sized) (hu : u.Sized) :
    (∀ T, Represents E (ofInt t) T ↔ Represents E (ofInt u) T) ↔ holder? E.target t = holder? E.target u := by
  simp only [represents_iff ht.2, represents_iff hu.2, ← Option.ext_iff]

theorem Typed.holder?_eq (hx : Typed E known t x) (hx' : Typed E known u x) :
    holder? E.target t = holder? E.target u := by
  obtain ⟨T, hT, hx⟩ := hx
  obtain ⟨U, hU, hx'⟩ := hx'
  rw [hT, hU, ← hx, ← hx']

-- A constant is written as its value, in which constants are as well.
theorem writes_constantValue {c : Constant} (hc : E.package.constant? c.ref = some c) {depth : Nat}
    (hw : Writes (constantValue (depth + 1) c.toConstantDecl) E s x s') :
    ∃ v s₁ s₂, c.value = some v ∧ Writes (access (constantValue depth) (some c.type) v) E s₁ (.value x) s₂ := by
  obtain ⟨_, s₁, henv, hw⟩ := writes_bind.mp hw
  obtain ⟨rfl, rfl⟩ := writes_read.mp henv
  simp only [hc, Option.bind_some] at hw
  cases hvalue : c.value with
  | none =>
      rw [hvalue] at hw
      exact absurd hw not_writes_throw
  | some v =>
      rw [hvalue] at hw
      obtain ⟨-, s₂, -, hw⟩ := writes_bind.mp hw
      obtain ⟨a, s₃, hwritten, hw⟩ := writes_bind.mp hw
      cases a with
      | entry => exact absurd hw not_writes_throw
      | value y =>
          obtain ⟨rfl, -⟩ := writes_pure.mp hw
          exact ⟨v, s₂, s₃, rfl, hwritten⟩

-- What is written for integer constants up to a depth has the Rust types of the constants.
def ConstantsTyped (E : Env) (known : Rust.Expr → Option IntType) (depth : Nat) : Prop :=
  ∀ c t, E.package.constant? c.ref = some c → c.type = ofInt t → ∀ s x s',
    Writes (constantValue depth c.toConstantDecl) E s x s' → HasType E known c.type x

-- Integer expressions that use these constants then have the types that are asked for.
theorem hasType_operandAs (hleaves : Leaves E known Leaf) (hconstants : IntegerConstants E.package Leaf) {depth : Nat}
    (htyped : ConstantsTyped E known depth) (he : Numeric E.package Leaf e) (hsize : t.Sized) :
    (∀ s x s', Writes (access (constantValue depth) (some (ofInt t)) e) E s (.value x) s' →
        Typed E known (evaluatedAt (some (ofInt t)) e) x) ∧
      ∀ s x s', Writes (operandAs (some (ofInt t)) e fun asked => access (constantValue depth) asked e) E s x s' →
        HasType E known (ofInt t) x := by
  have hinlined : ∀ c t, E.package.constant? c.ref = some c → c.type = ofInt t → ∀ s x s',
      Writes (constantValue depth c.toConstantDecl) E s x s' → Typed E known t x := by
    intro c t hc ht s x s' hw
    cases depth with
    | zero => exact absurd hw not_writes_throw
    | succ depth =>
        obtain ⟨v, -, -, hvalue, -⟩ := writes_constantValue hc hw
        rw [← hasType_iff (hconstants c v t hc hvalue ht).1, ← ht]
        exact htyped c t hc ht s x s' hw
  have haccess : ∀ s x s', Writes (access (constantValue depth) (some (ofInt t)) e) E s (.value x) s' →
      Typed E known (evaluatedAt (some (ofInt t)) e) x := fun _ _ _ hx => typed_access hleaves hinlined he hsize hx
  refine ⟨haccess, fun s x s' hw => ?_⟩
  rw [hasType_iff hsize]
  exact typed_operandAs hsize (he.sized hleaves hsize) haccess hw

-- One level deeper, a constant has its type exactly when its value is evaluated at that.
theorem hasType_iff_keepsType (hleaves : Leaves E known Leaf) (hconstants : IntegerConstants E.package Leaf) {depth : Nat}
    (htyped : ConstantsTyped E known depth) {c : Constant} (hc : E.package.constant? c.ref = some c)
    (ht : c.type = ofInt t) (hw : Writes (constantValue (depth + 1) c.toConstantDecl) E s x s') :
    HasType E known c.type x ↔ KeepsType E c := by
  obtain ⟨v, s₁, s₂, hvalue, hx⟩ := writes_constantValue hc hw
  obtain ⟨hsize, hv⟩ := hconstants c v t hc hvalue ht
  have hevaluated : (evaluatedAt (some (ofInt t)) v).Sized := hv.sized hleaves hsize
  rw [ht] at hx
  have hx := (hasType_operandAs hleaves hconstants htyped hv hsize).1 _ _ _ hx
  have hkeeps : KeepsType E c ↔ holder? E.target (evaluatedAt (some (ofInt t)) v) = holder? E.target t := by
    simp only [KeepsType, hvalue, Option.some.injEq, forall_eq', ht, represents_congr_iff hevaluated hsize]
  rw [hkeeps, ht, hasType_iff hsize]
  constructor
  · exact hx.holder?_eq
  · intro hsame
    obtain ⟨T, hT, hx⟩ := hx
    exact ⟨T, hsame ▸ hT, hx⟩

-- What is written for integer constants always has the Rust type of the constant exactly when each constant that can be
-- written has a value that is evaluated at the constant's type; then integer expressions have the type that is asked for
-- wherever one is.
theorem constants_keep_type_iff (hleaves : Leaves E known Leaf) (hconstants : IntegerConstants E.package Leaf) :
    let Keeps := ∀ c t, E.package.constant? c.ref = some c → c.type = ofInt t →
      (∃ depth s x s', Writes (constantValue depth c.toConstantDecl) E s x s') → KeepsType E c
    ((∀ depth, ConstantsTyped E known depth) ↔ Keeps) ∧
    (Keeps → ∀ e t, Numeric E.package Leaf e → t.Sized → ∀ depth s x s',
      Writes (operandAs (some (ofInt t)) e fun asked => access (constantValue depth) asked e) E s x s' →
        HasType E known (ofInt t) x) := by
  intro Keeps
  have hall : (∀ depth, ConstantsTyped E known depth) ↔ Keeps := by
    constructor
    · rintro htyped c t hc ht ⟨depth, s, x, s', hw⟩
      cases depth with
      | zero => exact absurd hw not_writes_throw
      | succ depth => exact (hasType_iff_keepsType hleaves hconstants (htyped depth) hc ht hw).mp (htyped _ c t hc ht _ _ _ hw)
    · intro hkeeps depth
      induction depth with
      | zero => exact fun _ _ _ _ _ _ _ hw => absurd hw not_writes_throw
      | succ depth ih =>
          intro c t hc ht s x s' hw
          exact (hasType_iff_keepsType hleaves hconstants ih hc ht hw).mpr (hkeeps c t hc ht ⟨_, _, _, _, hw⟩)
  exact ⟨hall, fun hkeeps e t he hsize depth =>
    (hasType_operandAs hleaves hconstants (hall.mpr hkeeps depth) he hsize).2⟩

-- `uint8 constant A = 3; uint16 constant B = value;`
namespace Widened

def narrow : Constant :=
  { name := "A", sourceName := "A", type := .int false 8, owner := "C", start := {}, value := some (.int {} 3) }

def wide (value : Expr) : Constant :=
  { name := "B", sourceName := "B", type := .int false 16, owner := "C", start := {}, value := some value }

def package (value : Expr) : Package := { name := "sample", classes := [], constants := [narrow, wide value] }

def env (value : Expr) : Env := ⟨package value, default, .ink .v5⟩

-- `A` and `uint16(A)`
def plain : Expr := .const {} narrow.toConstantDecl

def converted : Expr := .cast {} (.int false 16) plain

def NoLeaf (_ : Expr) : Prop := False

def unknown (_ : Rust.Expr) : Option IntType := none

theorem leaves (value : Expr) : Leaves (env value) unknown NoLeaf :=
  ⟨fun _ h => h.elim, fun _ h => h.elim⟩

theorem constant_cases {value : Expr} {c : Constant} (hc : (package value).constant? c.ref = some c) :
    c = narrow ∨ c = wide value := by
  have hmem : c ∈ [narrow, wide value] := List.mem_of_find?_eq_some hc
  simpa using hmem

theorem constant_plain (value : Expr) : Numeric (package value) NoLeaf plain :=
  .const {} (t := ⟨false, 8⟩) rfl rfl (by decide)

theorem constant_converted (value : Expr) : Numeric (package value) NoLeaf converted :=
  .conversion {} (t := ⟨false, 16⟩) (by decide) (constant_plain value)

theorem integerConstants {value : Expr} (hvalue : Numeric (package value) NoLeaf value) :
    IntegerConstants (package value) NoLeaf := by
  intro c v t hc hv ht
  obtain rfl | rfl := constant_cases hc
  · obtain rfl : t = ⟨false, 8⟩ := same_ofInt.mp (ht ▸ rfl)
    obtain rfl := Option.some.inj hv
    exact ⟨by decide, .number _ _⟩
  · obtain rfl : t = ⟨false, 16⟩ := same_ofInt.mp (ht ▸ rfl)
    obtain rfl := Option.some.inj hv
    exact ⟨by decide, hvalue⟩

-- With a conversion, `B` is written as `3u8 as u16`.
theorem converted_hasType :
    Leaves (env converted) unknown NoLeaf ∧ IntegerConstants (env converted).package NoLeaf ∧
      (∃ s', Writes (constantValue 2 (wide converted).toConstantDecl) (env converted) {} (.cast (.lit "3u8") "u16") s') ∧
      HasType (env converted) unknown (.int false 16) (.cast (.lit "3u8") "u16") := by
  have hleaves := leaves converted
  have hconstants := integerConstants (constant_converted converted)
  have htyped := (constants_keep_type_iff hleaves hconstants).1.mpr ?_
  · obtain ⟨s', hw⟩ : ∃ s', Writes (constantValue 2 (wide converted).toConstantDecl) (env converted) {}
        (.cast (.lit "3u8") "u16") s' := ⟨_, rfl⟩
    exact ⟨hleaves, hconstants, ⟨s', hw⟩, htyped 2 (wide converted) ⟨false, 16⟩ rfl rfl _ _ _ hw⟩
  · intro c t hc ht _ v hv T
    obtain rfl | rfl := constant_cases hc
    · obtain rfl := Option.some.inj hv
      rfl
    · obtain rfl := Option.some.inj hv
      rfl

-- Without one, `B` is written as `3u8`, also where 16 bits are asked for.
theorem constant_narrower :
    Leaves (env plain) unknown NoLeaf ∧ IntegerConstants (env plain).package NoLeaf ∧
      (∃ s', Writes (constantValue 2 (wide plain).toConstantDecl) (env plain) {} (.lit "3u8") s') ∧
      (∃ s', Writes (operandAs (some (.int false 16)) (.const {} (wide plain).toConstantDecl) fun asked =>
        access (constantValue 2) asked (.const {} (wide plain).toConstantDecl)) (env plain) {} (.lit "3u8") s') ∧
      HasType (env plain) unknown (.int false 8) (.lit "3u8") ∧
      ¬HasType (env plain) unknown (.int false 16) (.lit "3u8") := by
  refine ⟨leaves plain, integerConstants (constant_plain plain), ⟨_, rfl⟩, ⟨_, rfl⟩, ?_, ?_⟩
  · exact (hasType_iff (t := ⟨false, 8⟩) (by decide)).mpr ⟨⟨false, 8⟩, rfl, by decide⟩
  · intro h
    obtain ⟨T, hT, hx⟩ := (hasType_iff (t := ⟨false, 16⟩) (by decide)).mp h
    have height : (Rust.Expr.lit "3u8").integerType? unknown none = some ⟨false, 8⟩ := by decide
    obtain rfl := Option.some.inj (height.symm.trans hx)
    cases hT

end Widened

end RustContracts.Emit
