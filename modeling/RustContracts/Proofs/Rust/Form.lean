import RustContracts.Rust.Tree
import RustContracts.Rust.Print

-- Forms that code keeps to: which variables occur in it, what stands to the left of an operator, and what is tested.
namespace RustContracts.Rust

structure Form where
  ident : String → Prop
  left : String → Expr → Prop
  cond : Expr → Prop

variable {F : Form}

mutual

-- Every part of an expression keeps to a form. The name of a function that is called is no variable. Of all literals
-- only `vec![z; n]` has expressions inside, which stand there as text.
inductive Expr.Fits (F : Form) : Expr → Prop
  | ident {name : String} : F.ident name → Expr.Fits F (.ident name)
  | lit {text : String} : text.toList.head? ≠ some 'v' → Expr.Fits F (.lit text)
  | vec {z n : Expr} : z.Fits F → n.Fits F → Expr.Fits F (.lit ("vec![" ++ z.text ++ "; " ++ n.text ++ "]"))
  | field {x : Expr} {name : String} : x.Fits F → Expr.Fits F (.field x name)
  | methodCall {x : Expr} {method : String} {args : List Expr} :
      x.Fits F → (∀ a ∈ args, a.Fits F) → Expr.Fits F (.methodCall x method args)
  | call {path : String} {args : List Expr} : (∀ a ∈ args, a.Fits F) → Expr.Fits F (.call (.ident path) args)
  | bangCall {name : String} {args : List Expr} : (∀ a ∈ args, a.Fits F) → Expr.Fits F (.bangCall name args)
  | binary {op : String} {l r : Expr} : F.left op l → l.Fits F → r.Fits F → Expr.Fits F (.binary op l r)
  | unary {op : String} {x : Expr} : x.Fits F → Expr.Fits F (.unary op x)
  | index {x key : Expr} : x.Fits F → key.Fits F → Expr.Fits F (.index x key)
  | tuple {es : List Expr} : (∀ e ∈ es, e.Fits F) → Expr.Fits F (.tuple es)
  | array {es : List Expr} : (∀ e ∈ es, e.Fits F) → Expr.Fits F (.array es)
  | structLit {name : String} {fields : List FieldInit} :
      (∀ f ∈ fields, f.value.Fits F) → Expr.Fits F (.structLit name fields none)
  | cast {x : Expr} {type : String} : x.Fits F → Expr.Fits F (.cast x type)
  | tryOp {x : Expr} : x.Fits F → Expr.Fits F (.tryOp x)
  | ifElse {pattern : String} {c : Expr} {t : Block} {e : Option Expr} :
      F.cond c → c.Fits F → t.Fits F → (∀ x ∈ e, x.Fits F) → Expr.Fits F (.ifElse pattern c t e)
  | block {b : Block} : b.Fits F → Expr.Fits F (.block b)

inductive Block.Fits (F : Form) : Block → Prop
  | mk {stmts : List Stmt} {tail : Option Expr} :
      (∀ s ∈ stmts, s.Fits F) → (∀ x ∈ tail, x.Fits F) → Block.Fits F ⟨stmts, tail⟩

inductive Stmt.Fits (F : Form) : Stmt → Prop
  | letVar {isMut : Bool} {pattern type : String} {x : Expr} :
      x.Fits F → Stmt.Fits F (.letVar isMut pattern type (some x))
  | expr {x : Expr} : x.Fits F → Stmt.Fits F (.expr x)
  | assign {target x : Expr} {op : String} : target.Fits F → x.Fits F → Stmt.Fits F (.assign target op x)
  | whileLoop {label : String} {c : Expr} {b : Block} :
      F.cond c → c.Fits F → b.Fits F → Stmt.Fits F (.whileLoop label c b)
  | loop {label : String} {b : Block} : b.Fits F → Stmt.Fits F (.loop label b)
  | labeled {label : String} {b : Block} : b.Fits F → Stmt.Fits F (.labeled label b)
  | breakLoop {label : String} : Stmt.Fits F (.breakLoop label)
  | continueLoop {label : String} : Stmt.Fits F (.continueLoop label)
  | returnValue {x : Expr} : x.Fits F → Stmt.Fits F (.returnValue (some x))

end

attribute [grind .] Expr.Fits.ident Expr.Fits.field Expr.Fits.methodCall Expr.Fits.call Expr.Fits.bangCall
  Expr.Fits.binary Expr.Fits.unary Expr.Fits.index Expr.Fits.tuple Expr.Fits.array Expr.Fits.cast Expr.Fits.tryOp
  Expr.Fits.block Stmt.Fits.expr Stmt.Fits.assign Stmt.Fits.letVar

@[grind ←] theorem fits_method {x : Expr} (hx : x.Fits F) (method : String) : (x.method method).Fits F :=
  .methodCall hx (by simp)

@[grind ←] theorem fits_callPath {args : List Expr} (hargs : ∀ a ∈ args, a.Fits F) (path : String) :
    (Expr.callPath path args).Fits F := .call hargs

@[grind ←] theorem fits_ref {x : Expr} (hx : x.Fits F) : x.ref.Fits F := .unary hx

@[grind ←] theorem fits_not {x : Expr} (hx : x.Fits F) : x.not.Fits F := .unary hx

@[grind ←] theorem fits_negate {x : Expr} (hx : x.Fits F) : x.negate.Fits F := .unary hx

@[grind ←] theorem fits_borrowed {x : Expr} (hx : x.Fits F) : x.borrowed.Fits F := by
  unfold Expr.borrowed
  split
  · cases hx with
    | methodCall hreceiver _ =>
        split
        · exact hreceiver
        · exact fits_method hreceiver _
  · exact hx

theorem fits_structLit_zip {γ : Type} {name : String} {as : List γ} {init : γ × Expr → FieldInit}
    (hinit : ∀ p, (init p).value = p.2) {xs : List Expr} (hxs : ∀ x ∈ xs, x.Fits F) :
    (Expr.structLit name ((as.zip xs).map init) none).Fits F := by
  refine .structLit fun f hf => ?_
  obtain ⟨p, hp, rfl⟩ := List.mem_map.mp hf
  rw [hinit]
  exact hxs _ (List.of_mem_zip hp).2

end RustContracts.Rust
