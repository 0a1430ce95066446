import RustContracts.Proofs.Rust.Context
import RustContracts.Proofs.Rust.Trace

-- How many calls of functions stand in code.
namespace RustContracts.Rust

-- A function of the contract is called with `?`, one of another contract through the variable that holds the reference
-- to it, which stands nowhere else.
def isCall (isRef : String → Bool) : Expr → Bool
  | .tryOp _ => true
  | .ident name => isRef name
  | _ => false

section Counts

variable (isRef : String → Bool)

def Expr.calls (x : Expr) : Nat := x.exprs.countP (isCall isRef)

def callsOfList (xs : List Expr) : Nat := (exprsOfList xs).countP (isCall isRef)

def Stmt.calls (st : Stmt) : Nat := st.exprs.countP (isCall isRef)

def callsOfStmts (code : List Stmt) : Nat := (exprsOfStmts code).countP (isCall isRef)

attribute [local simp] Expr.exprs exprsOfList isCall

variable {isRef : String → Bool} {x y z : Expr} {xs ys : List Expr} {code more : List Stmt}

@[grind =>] theorem calls_variable {name : String} (h : isRef name = false) : (Expr.ident name).calls isRef = 0 := by
  simp [Expr.calls, h]

theorem calls_reference {name : String} (h : isRef name = true) : (Expr.ident name).calls isRef = 1 := by
  simp [Expr.calls, h]

@[grind =] theorem calls_lit (text : String) : (Expr.lit text).calls isRef = 0 := rfl

@[grind =] theorem calls_field (name : String) : (x.field name).calls isRef = x.calls isRef := by
  simp [Expr.calls]

@[grind =] theorem calls_methodCall (method : String) :
    (x.methodCall method xs).calls isRef = x.calls isRef + callsOfList isRef xs := by
  simp [Expr.calls, callsOfList]

@[grind =] theorem calls_method (method : String) : (x.method method).calls isRef = x.calls isRef := by
  rw [Expr.method, calls_methodCall]
  rfl

@[grind =] theorem calls_callPath (path : String) : (Expr.callPath path xs).calls isRef = callsOfList isRef xs := by
  simp [Expr.calls, callsOfList, Expr.callPath]

@[grind =] theorem calls_bangCall (name : String) : (Expr.bangCall name xs).calls isRef = callsOfList isRef xs := by
  simp [Expr.calls, callsOfList]

@[grind =] theorem calls_binary (op : String) : (Expr.binary op x y).calls isRef = x.calls isRef + y.calls isRef := by
  simp [Expr.calls]

@[grind =] theorem calls_unary (op : String) : (Expr.unary op x).calls isRef = x.calls isRef := by
  simp [Expr.calls]

@[grind =] theorem calls_index : (Expr.index x y).calls isRef = x.calls isRef + y.calls isRef := by
  simp [Expr.calls]

@[grind =] theorem calls_tuple : (Expr.tuple xs).calls isRef = callsOfList isRef xs := by
  simp [Expr.calls, callsOfList]

@[grind =] theorem calls_array : (Expr.array xs).calls isRef = callsOfList isRef xs := by
  simp [Expr.calls, callsOfList]

@[grind =] theorem calls_cast (type : String) : (Expr.cast x type).calls isRef = x.calls isRef := by
  simp [Expr.calls]

@[grind =] theorem calls_tryOp : (Expr.tryOp x).calls isRef = x.calls isRef + 1 := by
  rw [Expr.calls, Expr.exprs, List.countP_cons_of_pos rfl]
  rfl

@[grind =] theorem callsOfList_nil : callsOfList isRef [] = 0 := rfl

@[grind =] theorem callsOfList_cons : callsOfList isRef (x :: xs) = x.calls isRef + callsOfList isRef xs := by
  simp [callsOfList, Expr.calls]

@[grind =] theorem callsOfList_singleton : callsOfList isRef [x] = x.calls isRef := by
  simp [callsOfList, Expr.calls]

@[grind =] theorem callsOfList_pair : callsOfList isRef [x, y] = x.calls isRef + y.calls isRef := by
  simp [callsOfList, Expr.calls]

@[grind =] theorem callsOfList_append : callsOfList isRef (xs ++ ys) = callsOfList isRef xs + callsOfList isRef ys := by
  induction xs with
  | nil => simp [callsOfList]
  | cons x xs ih => rw [List.cons_append, callsOfList_cons, callsOfList_cons, ih, Nat.add_assoc]

-- Dropping a clone drops no call.
@[grind =] theorem calls_borrowed : x.borrowed.calls isRef = x.calls isRef := by
  unfold Expr.borrowed
  split
  · split
    · rw [calls_methodCall]
      rfl
    · rw [calls_methodCall, calls_method]
      rfl
  · rfl

@[grind =] theorem calls_ref : x.ref.calls isRef = x.calls isRef := calls_unary "&"

@[grind =] theorem calls_not : x.not.calls isRef = x.calls isRef := calls_unary "!"

@[grind =] theorem calls_negate : x.negate.calls isRef = x.calls isRef := calls_unary "-"

theorem calls_lits {γ : Type} (text : γ → String) (as : List γ) :
    callsOfList isRef (as.map fun a => .lit (text a)) = 0 := by
  induction as with
  | nil => rfl
  | cons a as ih => rw [List.map_cons, callsOfList_cons, calls_lit, ih]

theorem callsOfList_take (k : Nat) : callsOfList isRef (xs.take k) ≤ callsOfList isRef xs := by
  calc callsOfList isRef (xs.take k)
      _ ≤ callsOfList isRef (xs.take k) + callsOfList isRef (xs.drop k) := Nat.le_add_right _ _
      _ = callsOfList isRef xs := by rw [← callsOfList_append, List.take_append_drop]

-- The fields of a struct as they are written, up to the last one that has a value.
theorem calls_structLit {γ : Type} {init : γ × Expr → FieldInit} (hinit : ∀ p, (init p).value = p.2) (name : String)
    (as : List γ) :
    (Expr.structLit name ((as.zip xs).map init) none).calls isRef = callsOfList isRef (xs.take as.length) := by
  have hfields : (exprsOfFields ((as.zip xs).map init)).countP (isCall isRef) =
      callsOfList isRef (xs.take as.length) := by
    induction as generalizing xs with
    | nil => rfl
    | cons a as ih =>
        cases xs with
        | nil => rfl
        | cons x xs =>
            have hvalue := hinit (a, x)
            rw [List.zip_cons_cons, List.map_cons, List.length_cons, List.take_succ_cons, callsOfList_cons, ← ih]
            rcases hi : init (a, x) with ⟨name, value⟩
            rw [hi] at hvalue
            obtain rfl : value = x := hvalue
            rw [exprsOfFields, List.countP_append, Expr.calls]
  simpa [Expr.calls, Expr.exprs, exprsOfOption, isCall] using hfields

theorem calls_ifElse (pattern : String) :
    (Expr.ifElse pattern x ⟨[], some y⟩ (some (.block ⟨[], some z⟩))).calls isRef =
      x.calls isRef + y.calls isRef + z.calls isRef := by
  simp [Expr.calls, Block.exprs, exprsOfStmts, exprsOfOption, Nat.add_assoc]

@[grind =] theorem callsOfStmts_nil : callsOfStmts isRef [] = 0 := rfl

@[grind =] theorem callsOfStmts_cons (st : Stmt) :
    callsOfStmts isRef (st :: code) = st.calls isRef + callsOfStmts isRef code := by
  simp [callsOfStmts, exprsOfStmts, Stmt.calls]

@[grind =] theorem callsOfStmts_append :
    callsOfStmts isRef (code ++ more) = callsOfStmts isRef code + callsOfStmts isRef more := by
  induction code with
  | nil => simp [callsOfStmts, exprsOfStmts]
  | cons st code ih => rw [List.cons_append, callsOfStmts_cons, callsOfStmts_cons, ih, Nat.add_assoc]

@[grind =] theorem calls_letVar (isMut : Bool) (pattern type : String) :
    (Stmt.letVar isMut pattern type (some x)).calls isRef = x.calls isRef := rfl

@[grind =] theorem calls_assign (op : String) : (Stmt.assign x op y).calls isRef = x.calls isRef + y.calls isRef := by
  simp [Stmt.calls, Stmt.exprs, Expr.calls]

@[grind =] theorem calls_stmt : (Stmt.expr x).calls isRef = x.calls isRef := rfl

-- An expression that is repeated rather than bound to a variable calls nothing, unless it is a reference itself.
theorem calls_of_isSimple {R : Rules} (hR : ∀ name, isRef name = true → R.reserved name ∧ isPath name = false)
    (hsimple : x.isSimple = true) (hx : x.Clean R) : x.calls isRef = 0 := by
  fun_induction Expr.isSimple x with
  | case1 name =>
      refine calls_variable (Bool.eq_false_iff.mpr fun href => ?_)
      rcases hx with hpath | hfree
      · exact absurd hpath (Bool.eq_false_iff.mp (hR name href).2)
      · exact hfree (hR name href).1
  | case2 text => rfl
  | case3 x name ih => exact (calls_field name).trans (ih hsimple hx)
  | case4 x ih =>
      rw [calls_methodCall, callsOfList_nil, Nat.add_zero]
      refine ih hsimple ?_
      rcases hx.2.1 with hclean | ⟨name, -, hcalls⟩
      · exact hclean
      · exact absurd rfl (R.calls_plain hcalls).1
  | case5 => cases hsimple

end Counts

end RustContracts.Rust
