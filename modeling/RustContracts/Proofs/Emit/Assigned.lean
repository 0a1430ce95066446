import RustContracts.Proofs.Emit.LocalNames

-- The variables that code assigns: whole, in a part, or by a method that changes an array or a mapping.
namespace RustContracts

open Program Emit

namespace Rust

-- The methods that change what they are called on.
def isChanger (method : String) : Bool :=
  method == "push" || method == "pop" || method == "push_back" || method == "pop_back" || method == "set" ||
    method == "insert"

-- The variable that a place is, or is a part of.
def Expr.roots : Expr → List String
  | .ident name => [name]
  | .field target _ => target.roots
  | .index target _ => target.roots
  | _ => []

-- The variable that a call changes.
def Expr.changed : Expr → List String
  | .methodCall place method _ => if isChanger method then place.roots else []
  | _ => []

def Stmt.assigned : Stmt → List String
  | .assign place _ _ => place.roots
  | .expr x => x.changed
  | _ => []

mutual

-- The statements that a statement runs, itself among them. A block with a value is part of an expression.
def Stmt.nested : Stmt → List Stmt
  | .expr x => .expr x :: x.nested
  | .whileLoop label c b => .whileLoop label c b :: b.nested
  | .loop label b => .loop label b :: b.nested
  | .labeled label b => .labeled label b :: b.nested
  | s => [s]

def Expr.nested : Expr → List Stmt
  | .block ⟨stmts, none⟩ => nestedAll stmts
  | .ifElse _ _ ⟨stmts, none⟩ none => nestedAll stmts
  | .ifElse _ _ ⟨stmts, none⟩ (some e) => nestedAll stmts ++ .expr e :: e.nested
  | _ => []

def Block.nested : Block → List Stmt
  | ⟨stmts, _⟩ => nestedAll stmts

def nestedAll : List Stmt → List Stmt
  | [] => []
  | s :: rest => s.nested ++ nestedAll rest

end

theorem nestedAll_append (a b : List Stmt) : nestedAll (a ++ b) = nestedAll a ++ nestedAll b := by
  induction a with
  | nil => rfl
  | cons s a ih => rw [List.cons_append, nestedAll, nestedAll, ih, List.append_assoc]

theorem nestedAll_singleton (s : Stmt) : nestedAll [s] = s.nested := by
  rw [nestedAll, nestedAll, List.append_nil]

theorem Block.nested_eq (b : Block) : b.nested = nestedAll b.stmts := by
  cases b
  rw [Block.nested]

theorem Stmt.nested_step {s : Stmt} (hs : s.isStep = true) : s.nested = [s] := by
  cases s with
  | expr x =>
      cases x with
      | block body =>
          obtain ⟨stmts, _ | x⟩ := body
          · cases hs
          · rfl
      | ifElse pattern c whenTrue whenFalse =>
          obtain ⟨stmts, _ | x⟩ := whenTrue
          · cases hs
          · rfl
      | _ => rfl
  | letVar _ _ _ _ => rfl
  | assign _ _ _ => rfl
  | _ => cases hs

theorem nestedAll_steps {code : List Stmt} (hcode : ∀ s ∈ code, s.isStep = true) : nestedAll code = code := by
  induction code with
  | nil => rfl
  | cons s code ih =>
      obtain ⟨hs, hcode⟩ := List.forall_mem_cons.mp hcode
      rw [nestedAll, Stmt.nested_step hs, ih hcode, List.singleton_append]

attribute [grind =] Expr.changed isChanger

end Rust

namespace Emit

-- The references in scope stand in variables of the compiler's own.
def RefsOwn (own : String → Prop) (s : State) : Prop := ∀ scope ∈ s.frame.scopes, ∀ r ∈ scope.refs, own r.2

-- What it means that something written changes no variable but of the compiler's own.
class Inert (α : Type) where
  inert : (String → Prop) → α → Prop

instance (priority := low) (α : Type) : Inert α := ⟨fun _ _ => True⟩
instance : Inert Rust.Expr := ⟨fun own x => ∀ n ∈ x.changed, own n⟩
instance : Inert (List Rust.Expr) := ⟨fun own xs => ∀ x ∈ xs, ∀ n ∈ x.changed, own n⟩
instance : Inert (Option Rust.Expr) := ⟨fun own x? => ∀ x ∈ x?, ∀ n ∈ x.changed, own n⟩
instance : Inert Access := ⟨fun own a => ∀ x, a = .value x → ∀ n ∈ x.changed, own n⟩

@[grind =] theorem inert_expr (own : String → Prop) (x : Rust.Expr) : Inert.inert own x = ∀ n ∈ x.changed, own n := rfl
@[grind =] theorem inert_exprs (own : String → Prop) (xs : List Rust.Expr) :
    Inert.inert own xs = ∀ x ∈ xs, ∀ n ∈ x.changed, own n := rfl
@[grind =] theorem inert_option (own : String → Prop) (x? : Option Rust.Expr) :
    Inert.inert own x? = ∀ x ∈ x?, ∀ n ∈ x.changed, own n := rfl
@[grind =] theorem inert_access (own : String → Prop) (a : Access) :
    Inert.inert own a = ∀ x, a = .value x → ∀ n ∈ x.changed, own n := rfl

def Rests {α : Type} [Inert α] (own : String → Prop) (act : Emit α) : Prop :=
  ∀ E s a s', RefsOwn own s → Writes act E s a s' → Inert.inert own a

section Steps

variable {α β : Type} [Inert α] [Inert β] {own : String → Prop}

theorem RefsOwn.of_sameNames {s s' : State} (h : RefsOwn own s) (hsame : SameNames s s') : RefsOwn own s' := by
  rw [RefsOwn, hsame.scopes_eq]
  exact h

@[grind ←] theorem rests_pure {a : α} (ha : Inert.inert own a) : Rests own (pure a) := by
  intro E s b s' _ hw
  obtain ⟨rfl, rfl⟩ := writes_pure.mp hw
  exact ha

-- An expression that is no change.
@[grind ←] theorem rests_fixed {x : Rust.Expr} (hx : x.changed = []) : Rests own (pure x) :=
  rests_pure (by simp [Inert.inert, hx])

@[grind ←] theorem rests_throw (stop : Stop) : Rests own (throw stop : Emit α) := by
  intro E s a s' _ hw
  exact absurd hw not_writes_throw

@[grind ←] theorem rests_bind {x : Emit α} {f : α → Emit β} (hsteady : Steady x) (hx : Rests own x)
    (hf : ∀ a, Inert.inert own a → Rests own (f a)) : Rests own (x >>= f) := by
  intro E s b s' hs hw
  obtain ⟨a, s₁, hx', hw⟩ := writes_bind.mp hw
  exact hf a (hx E s a s₁ hs hx') E s₁ b s' (hs.of_sameNames (hsteady.sameNames hx')) hw

-- What the last step writes is enough where it does not depend on the first.
omit [Inert α] in
@[grind ←] theorem rests_last {x : Emit α} {f : α → Emit β} (hsteady : Steady x) (hf : ∀ a, Rests own (f a)) :
    Rests own (x >>= f) := by
  intro E s b s' hs hw
  obtain ⟨a, s₁, hx, hw⟩ := writes_bind.mp hw
  exact hf a E s₁ b s' (hs.of_sameNames (hsteady.sameNames hx)) hw

@[grind ←] theorem rests_tryCatch {x : Emit α} {f : Stop → Emit α} (hsteady : Steady x) (hx : Rests own x)
    (hf : ∀ d, Rests own (f d)) : Rests own (tryCatch x f) := by
  intro E s a s' hs hw
  have hsame := hsteady E s
  rw [Writes, outcome_tryCatch] at hw
  rcases ho : outcome x E s with ⟨r, s₁⟩
  rw [ho] at hw hsame
  cases r with
  | ok b =>
      cases hw
      exact hx E s a s' hs ho
  | error d => exact hf d E s₁ a s' (hs.of_sameNames hsame) hw

end Steps

end Emit

namespace Ink

variable {own : String → Prop} {x y : Rust.Expr}

@[grind ←] theorem rests_toU256 (v : InkVersion) : Rests own (toU256 v x) := by
  unfold toU256
  grind [Rust.Expr.callPath]

@[grind ←] theorem changed_u256 (value : Nat) : (u256 value).changed = [] := by
  unfold u256
  split <;> rfl

@[grind ←] theorem rests_intLiteral (v : InkVersion) (value : Nat) (negative signed : Bool) (bits : Nat) :
    Rests own (intLiteral v value negative signed bits) := by
  unfold intLiteral
  grind

@[grind ←] theorem rests_stringLiteral (text : String) : Rests own (stringLiteral text) := by
  unfold stringLiteral
  grind [Rust.Expr.callPath]

@[grind ←] theorem rests_zero (v : InkVersion) (t : Ty) : Rests own (zero v t) := by
  unfold zero
  grind

@[grind ←] theorem rests_intBound (v : InkVersion) (signed : Bool) (bits : Nat) (isMax : Bool) :
    Rests own (intBound v signed bits isMax) := by
  unfold intBound
  grind

@[grind ←] theorem changed_binary (op : Solidity.BinaryOp) (t u : Ty) : (binary op x y t u).changed = [] := by
  unfold binary power
  grind

@[grind ←] theorem rests_unary (op : Solidity.UnaryOp) (t : Ty) : Rests own (unary op x t) := by
  unfold unary
  grind [Rust.Expr.negate, Rust.Expr.not]

@[grind ←] theorem rests_cast (v : InkVersion) (hx : Inert.inert own x) (source result : Ty) :
    Rests own (cast v x source result) := by
  unfold cast
  grind [Rust.Expr.method, Rust.Expr.callPath]

@[grind ←] theorem rests_arrayLength (v : InkVersion) : Rests own (arrayLength v x) := by
  unfold arrayLength
  grind

@[grind ←] theorem rests_newArray (v : InkVersion) (elem : Ty) (t : Ty) : Rests own (newArray v elem x t) := by
  unfold newArray
  grind

@[grind ←] theorem rests_arrayLiteral (length : Int) (xs : List Rust.Expr) : Rests own (arrayLiteral length xs) := by
  unfold arrayLiteral
  grind

@[grind ←] theorem rests_envValue (v : InkVersion) (kind : EnvKind) : Rests own (envValue v kind) := by
  unfold envValue
  grind [Rust.Expr.method]

@[grind ←] theorem inert_fieldPlace? (d : FieldDecl) : Inert.inert own (fieldPlace? d) := by
  unfold fieldPlace? selfField
  grind

@[grind ←] theorem changed_readField (d : FieldDecl) (keys : List Rust.Expr) : (readField d keys).changed = [] := by
  cases keys <;> rfl

end Ink

namespace Soroban

variable {own : String → Prop} {x y : Rust.Expr}

@[grind ←] theorem changed_hostCall (path : String) (args : List Rust.Expr) : (hostCall path args).changed = [] := rfl

@[grind ←] theorem rests_intLiteral (value : Nat) (negative signed : Bool) (bits : Nat) :
    Rests own (intLiteral value negative signed bits) := by
  unfold intLiteral
  grind

@[grind ←] theorem rests_stringLiteral (text : String) : Rests own (stringLiteral text) := by
  unfold stringLiteral
  grind

theorem rests_zeroWith {structZero : DeclRef → Emit Rust.Expr} (hsteady : ∀ r, Steady (structZero r))
    (h : ∀ r, Rests own (structZero r)) (t : Ty) : Rests own (zeroWith structZero t) := by
  cases t with
  | enum r =>
      refine rests_last steady_read fun E => ?_
      split
      · split
        · exact rests_fixed rfl
        · exact rests_throw _
      · exact rests_throw _
  | _ =>
      have hzeros := (steady_zerosWith structZero hsteady).2
      have hzero := (steady_zerosWith structZero hsteady).1
      unfold zeroWith
      grind

theorem rests_structZero (depth : Nat) (r : DeclRef) : Rests own (structZero depth r) := by
  cases depth with
  | zero => exact rests_throw _
  | succ depth =>
      have hzeros := (steady_zerosWith (structZero depth) (steady_structZero depth)).2
      exact rests_last steady_read fun E => rests_last (hzeros _) fun values => rests_fixed rfl

@[grind ←] theorem rests_zero (t : Ty) : Rests own (zero t) :=
  rests_last steady_read fun _ => rests_zeroWith (steady_structZero _) (rests_structZero _) t

@[grind ←] theorem rests_intBound (signed : Bool) (bits : Nat) (isMax : Bool) :
    Rests own (intBound signed bits isMax) := by
  unfold intBound
  grind

@[grind ←] theorem rests_binary (op : Solidity.BinaryOp) (t u : Ty) : Rests own (binary op x y t u) := by
  unfold binary wideBinary wideMethod?
  grind

@[grind ←] theorem rests_unary (op : Solidity.UnaryOp) (t : Ty) : Rests own (unary op x t) := by
  unfold unary
  grind [Rust.Expr.negate, Rust.Expr.not]

@[grind ←] theorem rests_cast (hx : Inert.inert own x) (source result : Ty) :
    Rests own (cast x source result) := by
  unfold cast
  grind

@[grind ←] theorem rests_arrayLength : Rests own (arrayLength x) := by
  unfold arrayLength
  grind

@[grind ←] theorem rests_newArray (elem : Ty) (t : Ty) : Rests own (newArray elem x t) := by
  unfold newArray
  grind

@[grind ←] theorem rests_arrayLiteral (xs : List Rust.Expr) : Rests own (arrayLiteral xs) := by
  unfold arrayLiteral
  grind

@[grind ←] theorem rests_envValue (kind : EnvKind) : Rests own (envValue kind) := by
  unfold envValue
  grind [Rust.Expr.method]

-- What is read comes from the storage of the host, which is no variable.
@[grind ←] theorem rests_readField (d : FieldDecl) (keys : List Rust.Expr) : Rests own (readField d keys) := by
  unfold readField
  grind [Rust.Expr.method]

end Soroban

namespace Emit

open Solidity (BinaryOp UnaryOp)

variable {own : String → Prop} {x y : Rust.Expr}

@[grind ←] theorem rests_intLiteral (value : Nat) (negative signed : Bool) (bits : Nat) :
    Rests own (intLiteral value negative signed bits) := by
  grind [intLiteral]

@[grind ←] theorem rests_stringLiteral (text : String) : Rests own (stringLiteral text) := by
  grind [stringLiteral]

@[grind ←] theorem rests_zero (t : Ty) : Rests own (zero t) := by grind [zero]

@[grind ←] theorem rests_intBound (signed : Bool) (bits : Nat) (isMax : Bool) :
    Rests own (intBound signed bits isMax) := by
  grind [intBound]

@[grind ←] theorem rests_applyBinary (op : BinaryOp) (t u : Ty) : Rests own (applyBinary op x y t u) := by
  grind [applyBinary]

@[grind ←] theorem rests_applyUnary (op : UnaryOp) (t : Ty) : Rests own (applyUnary op x t) := by
  grind [applyUnary]

@[grind ←] theorem rests_convert (hx : Inert.inert own x) (source result : Ty) :
    Rests own (convert x source result) := by
  grind [convert]

@[grind ←] theorem rests_arrayIndex (t : Ty) : Rests own (arrayIndex x y t) := by
  grind [arrayIndex, Ink.arrayIndex, Soroban.arrayIndex, Rust.Expr.method]

@[grind ←] theorem rests_arrayLength : Rests own (arrayLength x) := by grind [arrayLength]

@[grind ←] theorem rests_newArray (elem : Ty) (t : Ty) : Rests own (newArray elem x t) := by
  grind [newArray]

@[grind ←] theorem rests_arrayLiteral (length : Int) (xs : List Rust.Expr) : Rests own (arrayLiteral length xs) := by
  grind [arrayLiteral]

@[grind ←] theorem rests_envValue (kind : EnvKind) : Rests own (envValue kind) := by grind [envValue]

@[grind ←] theorem rests_fieldPlace? (d : FieldDecl) : Rests own (fieldPlace? d) := by
  grind [fieldPlace?]

@[grind ←] theorem rests_readField (d : FieldDecl) (keys : List Rust.Expr) : Rests own (readField d keys) := by
  grind [readField]

-- A call of another contract goes through the variable of a reference.
theorem rests_externalCall {name : String} (hname : own name) (method : Signature) (args : List Rust.Expr) :
    Rests own (externalCall method (.ident name) args) := by
  have hcall (method : String) (xs : List Rust.Expr) :
      Inert.inert own ((Rust.Expr.ident name).methodCall method xs) := by
    intro n hn
    rw [Rust.Expr.changed] at hn
    split at hn
    · exact List.mem_singleton.mp hn ▸ hname
    · cases hn
  refine rests_last steady_target fun t => ?_
  cases t with
  | ink v => exact rests_pure (hcall _ _)
  | soroban => exact rests_pure (hcall _ _)

theorem rests_ref? {α : Type} [Inert α] {key : String} {f : Option String → Emit α} (hnone : Rests own (f none))
    (hsome : ∀ name, own name → Rests own (f (some name))) : Rests own (ref? key >>= f) := by
  intro E s a s' hs hw
  obtain ⟨found, s₁, hfound, hw⟩ := writes_bind.mp hw
  have ho : outcome (ref? key) E s = (.ok (s.frame.scopes.findSome? fun scope => scope.refs.lookup key), s) := rfl
  obtain ⟨hok, rfl⟩ := Prod.mk.inj (ho.symm.trans hfound)
  obtain rfl := Except.ok.inj hok
  cases hname : s.frame.scopes.findSome? fun scope => scope.refs.lookup key with
  | none =>
      rw [hname] at hw
      exact hnone E s a s' hs hw
  | some name =>
      rw [hname] at hw
      obtain ⟨scope, hscope, hmem⟩ := mem_of_findSome hname
      exact hsome name (hs scope hscope _ hmem) E s a s' hs hw

-- Accesses.

@[grind ←] theorem rests_fieldAccess (d : FieldDecl) : Rests own (fieldAccess d) := by
  unfold fieldAccess
  grind

@[grind ←] theorem rests_member (a : Access) (start : Text.Position) (name : String) :
    Rests own (a.member start name) := by
  unfold Access.member
  grind

@[grind ←] theorem rests_index (a : Access) (start : Text.Position) (on keyType : Ty) (key : Ty → Emit Rust.Expr)
    (hkey : ∀ t, Steady (key t)) : Rests own (a.index start on keyType key) := by
  unfold Access.index
  grind

@[grind ←] theorem rests_valueOf (e : Expr) {written : Emit Access} (hsteady : Steady written)
    (h : Rests own written) : Rests own (valueOf e written) := by
  unfold valueOf
  grind

@[grind ←] theorem rests_operandOf (e : Expr) {written : Emit Access} (hsteady : Steady written)
    (h : Rests own written) : Rests own (operandOf e written) := by
  unfold operandOf
  grind [Rust.Expr.method]

@[grind ←] theorem rests_operandAs (t : Option Ty) (e : Expr) {written : Option Ty → Emit Access}
    (hsteady : ∀ t, Steady (written t)) (h : ∀ t, Rests own (written t)) : Rests own (operandAs t e written) := by
  refine rests_bind (steady_operandOf e (hsteady t)) (rests_operandOf e (hsteady t) (h t)) fun x hx => ?_
  split
  · split
    · exact rests_pure hx
    · exact rests_convert hx _ _
  · exact rests_pure hx

@[grind ←] theorem rests_numberLiteral (expected : Option Ty) (start : Text.Position) (value : Nat)
    (negative : Bool) : Rests own (numberLiteral expected start value negative) := by
  unfold numberLiteral
  grind

-- By induction along the expression; an operand is written for the whole where a tuple has one element or a conversion
-- does nothing.
theorem rests_accesses {inlined : ConstantDecl → Emit Rust.Expr} (hsteady : ∀ d, Steady (inlined d))
    (h : ∀ d, Rests own (inlined d)) :
    (∀ expected e, Rests own (access inlined expected e)) ∧ ∀ types es, Rests own (accessList inlined types es) := by
  obtain ⟨haccess, hlist⟩ := steady_access hsteady
  apply access.mutual_induct (fun expected e => Rests own (access inlined expected e))
    (fun types es => Rests own (accessList inlined types es))
  all_goals intros
  all_goals simp only [access, accessList]
  case case15 library owner f args ih =>
    refine rests_last (steady_declaredFunction _ _) fun f => rests_last (steady_libraryName _ _) fun name => ?_
    refine rests_last (steady_libraryRoutine _ _) fun r => rests_last (hlist _ _) fun xs => ?_
    exact rests_last (steady_invoke _ _) fun x => rests_pure (by rintro _ ⟨⟩; exact List.forall_mem_nil _)
  case case16 p interface method address args ihargs ihaddress =>
    refine rests_last (steady_operandAs _ _ fun t => haccess t address) fun account => ?_
    refine rests_ref? (rests_throw _) fun name hname => rests_last (hlist _ _) fun xs => ?_
    refine rests_bind (steady_externalCall _ _ _) (rests_externalCall hname method xs) fun x hx => ?_
    exact rests_pure (by rintro _ ⟨⟩; exact hx)
  case case21 cond whenTrue whenFalse t ihc iht ihf =>
    refine rests_last (steady_operandAs _ _ fun t => haccess t cond) fun c => ?_
    refine rests_last (steady_operandAs _ _ fun t => haccess t whenTrue) fun x => ?_
    refine rests_last (steady_operandAs _ _ fun t => haccess t whenFalse) fun y => ?_
    exact rests_pure (by rintro _ ⟨⟩; exact List.forall_mem_nil _)
  all_goals grind [Rust.Expr.not]

theorem rests_constantValue (depth : Nat) (d : ConstantDecl) : Rests own (constantValue depth d) := by
  induction depth generalizing d with
  | zero => exact rests_throw _
  | succ depth ih =>
      have hsteady := (steady_access (steady_constantValue depth)).1
      have haccess := (rests_accesses (steady_constantValue depth) ih).1
      unfold constantValue
      grind

theorem rests_expr (e : Expr) : Rests own (expr e) :=
  rests_valueOf e (steady_accessOf none e) <| rests_last steady_read fun _ =>
    (rests_accesses (steady_constantValue _) (rests_constantValue _)).1 none e

-- Changes.

-- All that code assigns and introduces, at whatever depth.

def assignedIn (code : List Rust.Stmt) : List String := (Rust.nestedAll code).flatMap Rust.Stmt.assigned

def introducedIn (code : List Rust.Stmt) : List (Bool × String) := (Rust.nestedAll code).flatMap introducedBy

theorem assignedIn_append (a b : List Rust.Stmt) : assignedIn (a ++ b) = assignedIn a ++ assignedIn b := by
  rw [assignedIn, Rust.nestedAll_append, List.flatMap_append, assignedIn, assignedIn]

theorem introducedIn_append (a b : List Rust.Stmt) : introducedIn (a ++ b) = introducedIn a ++ introducedIn b := by
  rw [introducedIn, Rust.nestedAll_append, List.flatMap_append, introducedIn, introducedIn]

theorem assignedIn_step {st : Rust.Stmt} (hst : st.isStep = true) : assignedIn [st] = st.assigned := by
  rw [assignedIn, Rust.nestedAll_singleton, Rust.Stmt.nested_step hst, List.flatMap_singleton]

theorem introducedIn_step {st : Rust.Stmt} (hst : st.isStep = true) : introducedIn [st] = introducedBy st := by
  rw [introducedIn, Rust.nestedAll_singleton, Rust.Stmt.nested_step hst, List.flatMap_singleton]

-- What is found is these items, and beyond them only what is the compiler's own.
structure Amounts {α : Type} (own : α → Prop) (items found : List α) : Prop where
  only : ∀ x ∈ found, own x ∨ x ∈ items
  all : ∀ x ∈ items, x ∈ found

namespace Amounts

variable {α : Type} {own : α → Prop} {items items' found found' : List α}

theorem nil : Amounts own [] ([] : List α) := ⟨by nofun, by nofun⟩

theorem self : Amounts own items items := ⟨fun _ hx => .inr hx, fun _ hx => hx⟩

theorem of_own (h : ∀ x ∈ found, own x) : Amounts own [] found := ⟨fun x hx => .inl (h x hx), by nofun⟩

theorem append (h : Amounts own items found) (h' : Amounts own items' found') :
    Amounts own (items ++ items') (found ++ found') where
  only := by
    intro x hx
    rcases List.mem_append.mp hx with hx | hx
    · exact (h.only x hx).imp_right (List.mem_append_left _)
    · exact (h'.only x hx).imp_right (List.mem_append_right _)
  all := by
    intro x hx
    rcases List.mem_append.mp hx with hx | hx
    · exact List.mem_append_left _ (h.all x hx)
    · exact List.mem_append_right _ (h'.all x hx)

theorem of_mem (h : Amounts own items found) (hitems : ∀ x, x ∈ items' ↔ x ∈ items) : Amounts own items' found :=
  ⟨fun x hx => (h.only x hx).imp_right (hitems x).mpr, fun x hx => h.all x ((hitems x).mp hx)⟩

-- The items stand last first.
theorem behind (h : Amounts own items found) (h' : Amounts own items' found') :
    Amounts own (items' ++ items) (found ++ found') :=
  (h.append h').of_mem fun x => by rw [List.mem_append, List.mem_append, or_comm]

end Amounts

-- Code assigns variables with these identifiers, and beyond them only the contract itself and names of the compiler's own.
def Assigns (own : String → Prop) (idents : List String) (code : List Rust.Stmt) : Prop :=
  Amounts (fun x => x = "self" ∨ own x) idents (assignedIn code)

theorem Assigns.append {idents idents' : List String} {a b : List Rust.Stmt} (ha : Assigns own idents a)
    (hb : Assigns own idents' b) : Assigns own (idents ++ idents') (a ++ b) := by
  rw [Assigns, assignedIn_append]
  exact Amounts.append ha hb

theorem Assigns.of_step {st : Rust.Stmt} {idents : List String} (hst : st.isStep = true) (hidents : st.assigned = idents) :
    Assigns own idents [st] := by
  rw [Assigns, assignedIn_step hst, hidents]
  exact .self

-- The contract itself is no variable.
theorem Assigns.of_self {code : List Rust.Stmt} (h : Assigns own ["self"] code) : Assigns own [] code := by
  refine .of_own fun x hx => (h.only x hx).elim id fun hx => ?_
  exact .inl (List.mem_singleton.mp hx)

theorem assigns_let (isMut : Bool) (pattern type : String) (value : Option Rust.Expr) :
    Assigns own [] [.letVar isMut pattern type value] := .of_step rfl rfl

section Changes

variable {E : Env} {s s' : State} {code : List Rust.Stmt}

theorem assigned_changeAt {change : Change} {place : Rust.Expr} {st : Rust.Stmt}
    (hw : Writes (change.at place) E s st s') : st.isStep = true ∧ st.assigned = place.roots := by
  cases change with
  | set value =>
      obtain ⟨rfl, -⟩ := writes_pure.mp hw
      exact ⟨rfl, rfl⟩
  | push value | pop =>
      obtain ⟨x, s₁, hx, hw⟩ := writes_bind.mp hw
      obtain ⟨rfl, -⟩ := writes_pure.mp hw
      first | unfold arrayPush at hx | unfold arrayPop at hx
      rw [writes_of_target] at hx
      split at hx
      · obtain ⟨rfl, -⟩ := writes_pure.mp hx
        exact ⟨rfl, rfl⟩
      · obtain ⟨rfl, -⟩ := writes_pure.mp hx
        exact ⟨rfl, rfl⟩

theorem assigned_arraySet {array key value : Rust.Expr} {t : Ty} {st : Rust.Stmt}
    (hw : Writes (arraySet array key t value) E s st s') : st.isStep = true ∧ st.assigned = array.roots := by
  unfold arraySet at hw
  rw [writes_of_target] at hw
  split at hw
  · obtain ⟨rfl, -⟩ := writes_pure.mp hw
    exact ⟨rfl, rfl⟩
  · obtain ⟨rfl, -⟩ := writes_pure.mp hw
    exact ⟨rfl, rfl⟩

theorem assigned_writeField {d : FieldDecl} {keys : List Rust.Expr} {value : Rust.Expr} {st : Rust.Stmt}
    (hw : Writes (writeField d keys value) E s st s') : Assigns own [] [st] := by
  unfold writeField at hw
  rw [writes_of_target] at hw
  split at hw
  · obtain ⟨rfl, -⟩ := writes_pure.mp hw
    refine Assigns.of_self ?_
    cases keys with
    | nil => exact .of_step rfl rfl
    | cons key keys => exact .of_step rfl rfl
  · obtain ⟨rfl, -⟩ := writes_pure.mp hw
    exact .of_step rfl rfl

theorem roots_elementPlace {base key element : Rust.Expr} {t : Ty} {s₁ s₂ : State}
    (hplace : Writes elementsArePlaces E s true s₁) (hw : Writes (arrayIndex base key t) E s₂ element s') :
    element.roots = base.roots := by
  unfold elementsArePlaces at hplace
  unfold arrayIndex at hw
  rw [writes_of_target] at hplace hw
  cases htarget : E.target with
  | ink v =>
      rw [htarget] at hw
      obtain ⟨rfl, -⟩ := writes_pure.mp hw
      rfl
  | soroban =>
      rw [htarget] at hplace
      cases (writes_pure.mp hplace).1

-- The variables that hold keys and elements on the way are not assigned before they hold them.
theorem assigns_bindUnlessSimple {stem : String} {x : Rust.Expr} {b : List Rust.Stmt × Rust.Expr}
    (hw : Writes (bindUnlessSimple stem x) E s b s') : Assigns own [] b.1 := by
  unfold bindUnlessSimple at hw
  split at hw
  · obtain ⟨rfl, -⟩ := writes_pure.mp hw
    exact .nil
  · obtain ⟨name, s₁, -, hw⟩ := writes_bind.mp hw
    obtain ⟨rfl, -⟩ := writes_pure.mp hw
    exact assigns_let _ _ _ _

theorem assigns_bindAll {stem : String} {xs : List Rust.Expr} {b : List Rust.Stmt × List Rust.Expr}
    (hw : Writes (bindAll stem xs) E s b s') : Assigns own [] b.1 := by
  induction xs generalizing s s' b with
  | nil =>
      obtain ⟨rfl, -⟩ := writes_pure.mp hw
      exact .nil
  | cons x xs ih =>
      obtain ⟨first, s₁, hfirst, hw⟩ := writes_bind.mp hw
      obtain ⟨more, s₂, hmore, hw⟩ := writes_bind.mp hw
      obtain ⟨rfl, -⟩ := writes_pure.mp hw
      exact Assigns.append (assigns_bindUnlessSimple hfirst) (ih hmore)

variable (htemp : ∀ n, Temporary n → own n)
include htemp

-- What is read into a variable, changed there and written back.
theorem assigns_detour {bound inner back : List Rust.Stmt} {name : String} {idents : List String}
    (hbound : Assigns own [] bound) (hname : Temporary name) (old : Rust.Expr) (hinner : Assigns own [name] inner)
    (hback : Assigns own idents back) :
    Assigns own idents (bound ++ [Rust.Stmt.letVar true name "" (some old)] ++ inner ++ back) := by
  have hinner : Assigns own [] inner := .of_own fun x hx => by
    rcases hinner.only x hx with hx | hx
    · exact hx
    · exact .inr (htemp x (List.mem_singleton.mp hx ▸ hname))
  exact ((hbound.append (assigns_let _ _ _ _)).append hinner).append hback

-- A change at the end of a path changes the variable at its start, and none other.
theorem assigns_changePath {change : Change} {base : Rust.Expr} {path : List Step}
    (hw : Writes (changePath change base path) E s code s') : Assigns own base.roots code := by
  induction path generalizing base s s' code with
  | nil =>
      obtain ⟨st, s₁, hst, hw⟩ := writes_bind.mp hw
      obtain ⟨rfl, -⟩ := writes_pure.mp hw
      obtain ⟨hstep, hassigned⟩ := assigned_changeAt hst
      exact .of_step hstep hassigned
  | cons step rest ih =>
      cases step with
      | member p name on =>
          have hfield := ih hw
          exact hfield
      | index start key on =>
          rw [changePath] at hw
          split at hw
          · obtain ⟨_, _, hthrow, -⟩ := writes_bind.mp hw
            exact absurd hthrow not_writes_throw
          · obtain ⟨k, s₁, -, hw⟩ := writes_bind.mp hw
            obtain ⟨inPlace, s₂, hinPlace, hw⟩ := writes_bind.mp hw
            split at hw
            · next htrue =>
                obtain rfl : inPlace = true := htrue
                obtain ⟨element, s₃, helement, hw⟩ := writes_bind.mp hw
                exact roots_elementPlace hinPlace helement ▸ ih hw
            · split at hw
              · obtain ⟨back, s₃, hback, hw⟩ := writes_bind.mp hw
                obtain ⟨rfl, -⟩ := writes_pure.mp hw
                obtain ⟨hstep, hassigned⟩ := assigned_arraySet hback
                exact .of_step hstep hassigned
              · obtain ⟨b, s₃, hb, hw⟩ := writes_bind.mp hw
                obtain ⟨old, s₄, -, hw⟩ := writes_bind.mp hw
                obtain ⟨name, s₅, hname, hw⟩ := writes_bind.mp hw
                obtain ⟨inner, s₆, hinner, hw⟩ := writes_bind.mp hw
                obtain ⟨back, s₇, hback, hw⟩ := writes_bind.mp hw
                obtain ⟨rfl, -⟩ := writes_pure.mp hw
                obtain ⟨hstep, hassigned⟩ := assigned_arraySet hback
                exact assigns_detour htemp (assigns_bindUnlessSimple hb) (temporary_temp (by decide) hname) old
                  (ih hinner) (.of_step hstep hassigned)

theorem assigns_changeField {start : Text.Position} {d : FieldDecl} {path : List Step} {change : Change}
    (hw : Writes (changeField start d path change) E s code s') : Assigns own [] code := by
  unfold changeField at hw
  dsimp only at hw
  split at hw
  · obtain ⟨_, _, hthrow, -⟩ := writes_bind.mp hw
    exact absurd hthrow not_writes_throw
  · obtain ⟨keys, s₁, -, hw⟩ := writes_bind.mp hw
    obtain ⟨place, s₂, hplace, hw⟩ := writes_bind.mp hw
    split at hw
    · next place =>
        have hroots : place.roots = ["self"] := by
          unfold fieldPlace? at hplace
          rw [writes_of_target] at hplace
          split at hplace
          · have hsome := (writes_pure.mp hplace).1
            unfold Ink.fieldPlace? at hsome
            split at hsome
            · cases hsome
            · obtain rfl := Option.some.inj hsome
              rfl
          · cases (writes_pure.mp hplace).1
        exact .of_self (hroots ▸ assigns_changePath htemp hw)
    · split at hw
      · obtain ⟨st, s₃, hst, hw⟩ := writes_bind.mp hw
        obtain ⟨rfl, -⟩ := writes_pure.mp hw
        exact assigned_writeField hst
      · obtain ⟨b, s₃, hb, hw⟩ := writes_bind.mp hw
        obtain ⟨old, s₄, -, hw⟩ := writes_bind.mp hw
        obtain ⟨name, s₅, hname, hw⟩ := writes_bind.mp hw
        obtain ⟨inner, s₆, hinner, hw⟩ := writes_bind.mp hw
        obtain ⟨back, s₇, hback, hw⟩ := writes_bind.mp hw
        obtain ⟨rfl, -⟩ := writes_pure.mp hw
        exact assigns_detour htemp (assigns_bindAll hb) (temporary_temp (by decide) hname) old
          (assigns_changePath htemp hinner) (assigned_writeField hback)

end Changes

-- What is known of a state in a function with these variables of which some change: every variable in scope has the
-- identifier of its name, every reference in scope stands in a variable of the compiler's own.
structure VarsNamed (own : String → Prop) (vars changed : List String) (s : State) : Prop where
  mutated : s.frame.mutated = changed
  locals : ∀ scope ∈ s.frame.scopes, ∀ v ∈ scope.locals, v.1 ∈ vars ∧ v.2 = Rust.Name.value v.1
  refs : RefsOwn own s

section Variables

variable {vars changed : List String} {E : Env} {s s' : State} {code : List Rust.Stmt}

theorem VarsNamed.of_sameNames (h : VarsNamed own vars changed s) (hsame : SameNames s s') : VarsNamed own vars changed s' where
  mutated := by rw [hsame.1, h.mutated]
  locals := by
    rw [hsame.scopes_eq]
    exact h.locals
  refs := h.refs.of_sameNames hsame

theorem VarsNamed.steady {α : Type} {act : Emit α} {a : α} (h : VarsNamed own vars changed s) (hact : Steady act)
    (hw : Writes act E s a s') : VarsNamed own vars changed s' := h.of_sameNames (hact.sameNames hw)

theorem VarsNamed.local? (h : VarsNamed own vars changed s) {name ident : String} (hlocal : s.local? name = some ident) :
    name ∈ vars ∧ ident = Rust.Name.value name := by
  obtain ⟨scope, hscope, hmem⟩ := mem_of_findSome hlocal
  exact h.locals scope hscope (name, ident) hmem

-- The identifiers of variables.
def idents (names : List String) : List String := names.map Rust.Name.value

-- Code assigns these variables.
def AssignsVars (own : String → Prop) (vars names : List String) (code : List Rust.Stmt) : Prop :=
  (∀ n ∈ names, n ∈ vars) ∧ Assigns own (idents names) code

-- Code that assigns no variables at all.
theorem AssignsVars.silent {code : List Rust.Stmt} (h : Assigns own [] code) : AssignsVars own vars [] code :=
  ⟨List.forall_mem_nil _, h⟩

theorem AssignsVars.nil : AssignsVars own vars [] [] := .silent Amounts.nil

theorem AssignsVars.append {names names' : List String} {a b : List Rust.Stmt} (ha : AssignsVars own vars names a)
    (hb : AssignsVars own vars names' b) : AssignsVars own vars (names ++ names') (a ++ b) := by
  refine ⟨List.forall_mem_append.mpr ⟨ha.1, hb.1⟩, ?_⟩
  rw [idents, List.map_append]
  exact Assigns.append ha.2 hb.2

theorem length_tupleTemps {es : List Expr} {names : List String} (hw : Writes (tupleTemps es) E s names s') :
    names.length = es.length := by
  induction es generalizing s s' names with
  | nil =>
      obtain ⟨rfl, -⟩ := writes_pure.mp hw
      rfl
  | cons e es ih =>
      obtain ⟨name, s₁, -, hw⟩ := writes_bind.mp hw
      obtain ⟨more, s₂, hmore, hw⟩ := writes_bind.mp hw
      obtain ⟨rfl, -⟩ := writes_pure.mp hw
      rw [List.length_cons, List.length_cons, ih hmore]

-- A place changes the variable that it leads from, and none where it leads from the contract's storage.

theorem changedBy_var {target : Expr} {p : Text.Position} {name : String} {t : Ty} {path : List Step}
    (hpath : accessPath target = (.var p name t, path)) : changedBy target = [name] := by
  cases target with
  | tuple => cases hpath
  | _ => simp only [changedBy, hpath]

theorem changedBy_field {target : Expr} {p : Text.Position} {d : FieldDecl} {path : List Step}
    (hpath : accessPath target = (.field p d, path)) : changedBy target = [] := by
  cases target with
  | tuple => cases hpath
  | _ => simp only [changedBy, hpath]

variable (htemp : ∀ n, Temporary n → own n)
include htemp

theorem assigns_changeTarget {target : Expr} {change : Change} (hs : VarsNamed own vars changed s)
    (hw : Writes (changeTarget target change) E s code s') : AssignsVars own vars (changedBy target) code := by
  unfold changeTarget at hw
  split at hw
  · next p name t path hpath =>
      obtain ⟨found, s₁, hfound, hw⟩ := writes_bind.mp hw
      obtain ⟨hlocal, rfl⟩ := writes_local?.mp hfound
      split at hw
      · next ident =>
          obtain ⟨hname, rfl⟩ := hs.local? hlocal
          rw [changedBy_var hpath]
          exact ⟨List.forall_mem_singleton.mpr hname, assigns_changePath htemp hw⟩
      · exact absurd hw not_writes_throw
  · next p d path hpath =>
      rw [changedBy_field hpath]
      exact .silent (assigns_changeField htemp hw)
  · exact absurd hw not_writes_throw

-- The parts of a tuple are assigned one by one.
theorem assigns_assign :
    (∀ value target s code s', VarsNamed own vars changed s → Writes (assign value target) E s code s' →
      AssignsVars own vars (changedBy target) code) ∧
    ∀ names targets s code s', names.length = targets.length → VarsNamed own vars changed s →
      Writes (assignAll names targets) E s code s' → AssignsVars own vars (changedByAll targets) code := by
  apply assign.mutual_induct
    (fun value target => ∀ s code s', VarsNamed own vars changed s → Writes (assign value target) E s code s' →
      AssignsVars own vars (changedBy target) code)
    (fun names targets => ∀ s code s', names.length = targets.length → VarsNamed own vars changed s →
      Writes (assignAll names targets) E s code s' → AssignsVars own vars (changedByAll targets) code)
  · intro value p elements ih s code s' hs hw
    rw [assign] at hw
    obtain ⟨names, s₁, hnames, hw⟩ := writes_bind.mp hw
    obtain ⟨parts, s₂, hparts, hw⟩ := writes_bind.mp hw
    obtain ⟨rfl, -⟩ := writes_pure.mp hw
    have hs₁ := hs.steady (steady_tupleTemps elements) hnames
    have hfirst : AssignsVars own vars [] [.letVar false ("(" ++ ", ".intercalate names ++ ")") "" (some value)] :=
      .silent (assigns_let _ _ _ _)
    rw [changedBy]
    exact hfirst.append (ih names s₁ parts s₂ (length_tupleTemps hnames) hs₁ hparts)
  · intro value target htuple s code s' hs hw
    rw [assign] at hw
    · exact assigns_changeTarget htemp hs hw
    · exact htuple
  · intro name names e rest ihe ihrest s code s' hlength hs hw
    rw [assignAll] at hw
    obtain ⟨first, s₁, hfirst, hw⟩ := writes_bind.mp hw
    obtain ⟨more, s₂, hmore, hw⟩ := writes_bind.mp hw
    obtain ⟨rfl, -⟩ := writes_pure.mp hw
    have hs₁ := hs.steady (steady_assign.1 (.ident name) e) hfirst
    rw [changedByAll]
    exact (ihe s first s₁ hs hfirst).append (ihrest s₁ more s₂ (Nat.succ.inj hlength) hs₁ hmore)
  · intro targets names hnil s code s' hlength hs hw
    rw [assignAll] at hw
    · obtain ⟨rfl, -⟩ := writes_pure.mp hw
      cases targets with
      | nil => exact .nil
      | cons e rest =>
          cases names with
          | nil => cases hlength
          | cons name names => exact absurd rfl (hnil name names e rest rfl)
    · exact hnil

theorem assigns_exprStmt {p : Text.Position} {e : Expr} (hs : VarsNamed own vars changed s)
    (hw : Writes (exprStmt e) E s code s') : AssignsVars own vars (changedIn (.expr p e)) code := by
  unfold exprStmt at hw
  split at hw
  · obtain ⟨x, s₁, hx, hw⟩ := writes_bind.mp hw
    exact assigns_changeTarget htemp (hs.steady (steady_exprAs _ _) hx) hw
  · exact assigns_changeTarget htemp hs hw
  · next hpush hpop =>
      obtain ⟨x, s₁, hx, hw⟩ := writes_bind.mp hw
      obtain ⟨rfl, -⟩ := writes_pure.mp hw
      have hcontrol : x.isControl = false := yields_expr e E s x s₁ hx
      have hstep : (Rust.Stmt.expr x).isStep = true := by rw [Rust.Stmt.isStep, hcontrol, Bool.not_false]
      have hnone : changedIn (.expr p e) = [] := by
        cases e <;> simp_all [changedIn]
      rw [hnone]
      refine .silent (.of_own fun y hy => .inr ?_)
      rw [assignedIn_step hstep] at hy
      exact rests_expr e E s x s₁ hs.refs hx y hy

end Variables

end Emit

end RustContracts
