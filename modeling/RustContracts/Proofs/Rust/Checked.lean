import RustContracts.Rust.Tree

-- Calls whose results are checked: `call?` hands an error on, `if let Err(e) = call` looks at it. Code of a contract
-- calls its own functions in no other way.
namespace RustContracts.Rust

mutual

-- Everything in an expression that is checked has a property.
def Expr.Checked (Q : Expr → Prop) : Expr → Prop
  | .ident _ | .lit _ | .missing => True
  | .field target _ => target.Checked Q
  | .methodCall receiver _ args => receiver.Checked Q ∧ AllChecked Q args
  | .call function args => function.Checked Q ∧ AllChecked Q args
  | .bangCall _ args | .tuple args | .array args => AllChecked Q args
  | .binary _ left right => left.Checked Q ∧ right.Checked Q
  | .index target key => target.Checked Q ∧ key.Checked Q
  | .unary _ operand => operand.Checked Q
  | .structLit _ fields base => FieldsChecked Q fields ∧ OptionChecked Q base
  | .cast value _ => value.Checked Q
  | .tryOp value => Q value ∧ value.Checked Q
  | .ifElse pattern cond whenTrue whenFalse =>
    (pattern ≠ "" → Q cond) ∧ cond.Checked Q ∧ whenTrue.Checked Q ∧ OptionChecked Q whenFalse
  | .block body => body.Checked Q

def AllChecked (Q : Expr → Prop) : List Expr → Prop
  | [] => True
  | e :: rest => e.Checked Q ∧ AllChecked Q rest

def FieldsChecked (Q : Expr → Prop) : List FieldInit → Prop
  | [] => True
  | ⟨_, value⟩ :: rest => value.Checked Q ∧ FieldsChecked Q rest

def OptionChecked (Q : Expr → Prop) : Option Expr → Prop
  | none => True
  | some e => e.Checked Q

def Block.Checked (Q : Expr → Prop) : Block → Prop
  | ⟨stmts, tail⟩ => CodeChecked Q stmts ∧ OptionChecked Q tail

def Stmt.Checked (Q : Expr → Prop) : Stmt → Prop
  | .letVar _ _ _ value | .returnValue value => OptionChecked Q value
  | .expr value => value.Checked Q
  | .assign target _ value => target.Checked Q ∧ value.Checked Q
  | .whileLoop _ cond body => cond.Checked Q ∧ body.Checked Q
  | .loop _ body | .labeled _ body => body.Checked Q
  | .breakLoop _ | .continueLoop _ => True

def CodeChecked (Q : Expr → Prop) : List Stmt → Prop
  | [] => True
  | s :: rest => s.Checked Q ∧ CodeChecked Q rest

end

attribute [grind =] Expr.Checked AllChecked FieldsChecked OptionChecked Block.Checked Stmt.Checked CodeChecked

section Imp

variable {Q R : Expr → Prop}

mutual

theorem checked_imp (hQR : ∀ x, Q x → R x) : ∀ x : Expr, x.Checked Q → x.Checked R
  | .ident _, _ | .lit _, _ | .missing, _ => trivial
  | .field target _, h => checked_imp hQR target h
  | .methodCall receiver _ args, h => ⟨checked_imp hQR receiver h.1, allChecked_imp hQR args h.2⟩
  | .call function args, h => ⟨checked_imp hQR function h.1, allChecked_imp hQR args h.2⟩
  | .bangCall _ args, h => allChecked_imp hQR args h
  | .tuple args, h => allChecked_imp hQR args h
  | .array args, h => allChecked_imp hQR args h
  | .binary _ left right, h => ⟨checked_imp hQR left h.1, checked_imp hQR right h.2⟩
  | .index target key, h => ⟨checked_imp hQR target h.1, checked_imp hQR key h.2⟩
  | .unary _ operand, h => checked_imp hQR operand h
  | .structLit _ fields base, h => ⟨fieldsChecked_imp hQR fields h.1, optionChecked_imp hQR base h.2⟩
  | .cast value _, h => checked_imp hQR value h
  | .tryOp value, h => ⟨hQR value h.1, checked_imp hQR value h.2⟩
  | .ifElse _ cond whenTrue whenFalse, h =>
    ⟨fun hp => hQR cond (h.1 hp), checked_imp hQR cond h.2.1, blockChecked_imp hQR whenTrue h.2.2.1,
      optionChecked_imp hQR whenFalse h.2.2.2⟩
  | .block body, h => blockChecked_imp hQR body h

theorem allChecked_imp (hQR : ∀ x, Q x → R x) : ∀ xs : List Expr, AllChecked Q xs → AllChecked R xs
  | [], _ => trivial
  | x :: xs, h => ⟨checked_imp hQR x h.1, allChecked_imp hQR xs h.2⟩

theorem fieldsChecked_imp (hQR : ∀ x, Q x → R x) :
    ∀ fields : List FieldInit, FieldsChecked Q fields → FieldsChecked R fields
  | [], _ => trivial
  | ⟨_, value⟩ :: rest, h => ⟨checked_imp hQR value h.1, fieldsChecked_imp hQR rest h.2⟩

theorem optionChecked_imp (hQR : ∀ x, Q x → R x) : ∀ o : Option Expr, OptionChecked Q o → OptionChecked R o
  | none, _ => trivial
  | some x, h => checked_imp hQR x h

theorem blockChecked_imp (hQR : ∀ x, Q x → R x) : ∀ b : Block, b.Checked Q → b.Checked R
  | ⟨stmts, tail⟩, h => ⟨codeChecked_imp hQR stmts h.1, optionChecked_imp hQR tail h.2⟩

theorem stmtChecked_imp (hQR : ∀ x, Q x → R x) : ∀ s : Stmt, s.Checked Q → s.Checked R
  | .letVar _ _ _ value, h => optionChecked_imp hQR value h
  | .returnValue value, h => optionChecked_imp hQR value h
  | .expr value, h => checked_imp hQR value h
  | .assign target _ value, h => ⟨checked_imp hQR target h.1, checked_imp hQR value h.2⟩
  | .whileLoop _ cond body, h => ⟨checked_imp hQR cond h.1, blockChecked_imp hQR body h.2⟩
  | .loop _ body, h => blockChecked_imp hQR body h
  | .labeled _ body, h => blockChecked_imp hQR body h
  | .breakLoop _, _ | .continueLoop _, _ => trivial

theorem codeChecked_imp (hQR : ∀ x, Q x → R x) : ∀ code : List Stmt, CodeChecked Q code → CodeChecked R code
  | [], _ => trivial
  | s :: rest, h => ⟨stmtChecked_imp hQR s h.1, codeChecked_imp hQR rest h.2⟩

end

end Imp

variable {Q : Expr → Prop} {x : Expr} {xs : List Expr}

@[grind =] theorem checked_callPath (path : String) :
    (Expr.callPath path xs).Checked Q ↔ AllChecked Q xs := ⟨fun h => h.2, fun h => ⟨trivial, h⟩⟩

@[grind =] theorem checked_method (method : String) : (x.method method).Checked Q ↔ x.Checked Q :=
  ⟨fun h => h.1, fun h => ⟨h, trivial⟩⟩

@[grind =] theorem checked_ref : x.ref.Checked Q ↔ x.Checked Q := .rfl

@[grind =] theorem checked_not : x.not.Checked Q ↔ x.Checked Q := .rfl

@[grind =] theorem checked_negate : x.negate.Checked Q ↔ x.Checked Q := .rfl

theorem allChecked_iff : AllChecked Q xs ↔ ∀ x ∈ xs, x.Checked Q := by
  induction xs with
  | nil => simp [AllChecked]
  | cons x xs ih => simp [AllChecked, ih]

@[grind =] theorem allChecked_singleton : AllChecked Q [x] ↔ x.Checked Q := ⟨fun h => h.1, fun h => ⟨h, trivial⟩⟩

@[grind =] theorem allChecked_append {ys : List Expr} :
    AllChecked Q (xs ++ ys) ↔ AllChecked Q xs ∧ AllChecked Q ys := by
  simp only [allChecked_iff, List.forall_mem_append]

theorem codeChecked_iff {code : List Stmt} : CodeChecked Q code ↔ ∀ st ∈ code, st.Checked Q := by
  induction code with
  | nil => simp [CodeChecked]
  | cons st code ih => simp [CodeChecked, ih]

@[grind =] theorem codeChecked_singleton {s : Stmt} : CodeChecked Q [s] ↔ s.Checked Q :=
  ⟨fun h => h.1, fun h => ⟨h, trivial⟩⟩

@[grind =] theorem codeChecked_append {a b : List Stmt} :
    CodeChecked Q (a ++ b) ↔ CodeChecked Q a ∧ CodeChecked Q b := by
  simp only [codeChecked_iff, List.forall_mem_append]

theorem fieldsChecked_zip {γ : Type} {as : List γ} {init : γ × Expr → FieldInit}
    (hinit : ∀ p, (init p).value = p.2) (hxs : AllChecked Q xs) : FieldsChecked Q ((as.zip xs).map init) := by
  induction as generalizing xs with
  | nil => trivial
  | cons a as ih =>
      cases xs with
      | nil => trivial
      | cons x xs =>
          have hvalue : ((init (a, x)).value).Checked Q := (hinit (a, x)).symm ▸ hxs.1
          rw [List.zip_cons_cons, List.map_cons]
          rcases hi : init (a, x) with ⟨name, value⟩
          rw [hi] at hvalue
          exact ⟨hvalue, ih hxs.2⟩

@[grind ←] theorem checked_borrowed (hx : x.Checked Q) : x.borrowed.Checked Q := by
  unfold Expr.borrowed
  split
  · split
    · exact hx.1
    · exact ⟨hx.1, trivial⟩
  · exact hx

end RustContracts.Rust
