import RustContracts.Proofs.Emit.Steady
import RustContracts.Proofs.Rust.Flow

-- What is written for an expression is one step of control: it is no block and no `if` without a value.
namespace RustContracts

open Program Emit

namespace Rust

-- Whether an expression stands for control as a statement.
def Expr.isControl : Expr → Bool
  | .block ⟨_, none⟩ | .ifElse _ _ ⟨_, none⟩ _ => true
  | _ => false

-- A statement that is a single step.
def Stmt.isStep : Stmt → Bool
  | .expr x => !x.isControl
  | .letVar _ _ _ _ | .assign _ _ _ => true
  | _ => false

attribute [grind =] Expr.isControl Stmt.isStep

variable {σ : Type} (W : World σ) (fuel : Nat)

theorem Stmt.flow_step {s : Stmt} (hs : s.isStep = true) : s.flow W fuel = W.act .stopped s := by
  cases s with
  | expr x =>
      cases x with
      | block body =>
          obtain ⟨stmts, _ | x⟩ := body
          · cases hs
          · rfl
      | ifElse pattern c whenTrue whenFalse =>
          obtain ⟨stmts, _ | x⟩ := whenTrue
          · cases hs
          · rfl
      | _ => rfl
  | letVar _ _ _ _ => rfl
  | assign _ _ _ => rfl
  | _ => cases hs

theorem flowAll_steps {code : List Stmt} (hcode : ∀ s ∈ code, s.isStep = true) :
    flowAll W fuel code = W.acts .stopped code := by
  induction code with
  | nil => rfl
  | cons s code ih =>
      obtain ⟨hs, hcode⟩ := List.forall_mem_cons.mp hcode
      rw [flowAll, World.acts, Stmt.flow_step W fuel hs, ih hcode]

theorem flowAll_append (a b : List Stmt) :
    flowAll W fuel (a ++ b) = Flow.seq (flowAll W fuel a) (flowAll W fuel b) := by
  induction a with
  | nil => rfl
  | cons s a ih => simp only [List.cons_append, flowAll, ih, Flow.seq_assoc]

theorem flowAll_singleton (s : Stmt) : flowAll W fuel [s] = s.flow W fuel := by
  rw [flowAll, flowAll, Flow.seq_skip]

end Rust

namespace Emit

-- What it means that something written is no control.
class Shaped (α : Type) where
  plain : α → Prop

instance (priority := low) (α : Type) : Shaped α := ⟨fun _ => True⟩
instance : Shaped Rust.Expr := ⟨fun x => x.isControl = false⟩
instance : Shaped Rust.Stmt := ⟨fun s => s.isStep = true⟩
instance : Shaped (List Rust.Expr) := ⟨fun xs => ∀ x ∈ xs, x.isControl = false⟩
instance : Shaped (List Rust.Stmt) := ⟨fun code => ∀ s ∈ code, s.isStep = true⟩
instance : Shaped (Option Rust.Expr) := ⟨fun x? => ∀ x ∈ x?, x.isControl = false⟩
instance : Shaped Access := ⟨fun a => ∀ x, a = .value x → x.isControl = false⟩
instance {α β : Type} [Shaped α] [Shaped β] : Shaped (α × β) :=
  ⟨fun p => Shaped.plain p.1 ∧ Shaped.plain p.2⟩

@[grind =] theorem plain_expr (x : Rust.Expr) : Shaped.plain x = (x.isControl = false) := rfl
@[grind =] theorem plain_stmt (s : Rust.Stmt) : Shaped.plain s = (s.isStep = true) := rfl
@[grind =] theorem plain_exprs (xs : List Rust.Expr) :
    Shaped.plain xs = ∀ x ∈ xs, x.isControl = false := rfl
@[grind =] theorem plain_stmts (code : List Rust.Stmt) :
    Shaped.plain code = ∀ s ∈ code, s.isStep = true := rfl
@[grind =] theorem plain_option (x? : Option Rust.Expr) :
    Shaped.plain x? = ∀ x ∈ x?, x.isControl = false := rfl
@[grind =] theorem plain_access (a : Access) :
    Shaped.plain a = ∀ x, a = .value x → x.isControl = false := rfl

-- A step that writes no control.
def Yields {α : Type} [Shaped α] (act : Emit α) : Prop :=
  ∀ E s a s', Writes act E s a s' → Shaped.plain a

variable {α β : Type} [Shaped α] [Shaped β]

@[grind ←] theorem yields_pure {a : α} (ha : Shaped.plain a) : Yields (pure a) := by
  intro E s b s' hw
  obtain ⟨rfl, -⟩ := writes_pure.mp hw
  exact ha

@[grind ←] theorem yields_throw (stop : Stop) : Yields (throw stop : Emit α) := by
  intro E s b s' hw
  exact absurd hw not_writes_throw

omit [Shaped α] in
theorem yields_throw_bind (stop : Stop) (f : α → Emit β) : Yields ((throw stop : Emit α) >>= f) := by
  intro E s b s' hw
  obtain ⟨a, s₁, hthrow, -⟩ := writes_bind.mp hw
  exact absurd hthrow not_writes_throw

@[grind ←] theorem yields_bind {x : Emit α} {f : α → Emit β} (hx : Yields x)
    (hf : ∀ a, Shaped.plain a → Yields (f a)) : Yields (x >>= f) := by
  intro E s b s' hw
  obtain ⟨a, s₁, hx', hw⟩ := writes_bind.mp hw
  exact hf a (hx E s a s₁ hx') E s₁ b s' hw

-- What the last step writes is enough where it does not depend on the first.
omit [Shaped α] in
@[grind ←] theorem yields_last {x : Emit α} {f : α → Emit β} (hf : ∀ a, Yields (f a)) :
    Yields (x >>= f) := by
  intro E s b s' hw
  obtain ⟨a, s₁, -, hw⟩ := writes_bind.mp hw
  exact hf a E s₁ b s' hw

@[grind ←] theorem yields_tryCatch {x : Emit α} {f : Stop → Emit α} (hx : Yields x)
    (hf : ∀ d, Yields (f d)) : Yields (tryCatch x f) := by
  intro E s a s' hw
  rw [Writes, outcome_tryCatch] at hw
  rcases ho : outcome x E s with ⟨r, s₁⟩
  rw [ho] at hw
  cases r with
  | ok b =>
      cases hw
      exact hx E s a s' ho
  | error d => exact hf d E s₁ a s' hw

end Emit

namespace Ink

variable {x y : Rust.Expr}

@[grind ←] theorem yields_toU256 (v : InkVersion) : Yields (toU256 v x) := by
  unfold toU256
  grind [Rust.Expr.callPath]

@[grind ←] theorem plain_u256 (value : Nat) : (u256 value).isControl = false := by
  unfold u256
  split <;> rfl

@[grind ←] theorem yields_intLiteral (v : InkVersion) (value : Nat) (negative signed : Bool) (bits : Nat) :
    Yields (intLiteral v value negative signed bits) := by
  unfold intLiteral
  grind

@[grind ←] theorem yields_stringLiteral (text : String) : Yields (stringLiteral text) := by
  unfold stringLiteral
  grind [Rust.Expr.callPath]

@[grind ←] theorem yields_zero (v : InkVersion) (t : Ty) : Yields (zero v t) := by
  unfold zero
  grind

@[grind ←] theorem yields_intBound (v : InkVersion) (signed : Bool) (bits : Nat) (isMax : Bool) :
    Yields (intBound v signed bits isMax) := by
  unfold intBound
  grind

@[grind ←] theorem plain_binary (op : Solidity.BinaryOp) (t u : Ty) :
    (binary op x y t u).isControl = false := by
  unfold binary
  split
  · unfold power
    split
    · rfl
    · split <;> rfl
  · rfl
  · rfl
  · rfl

@[grind ←] theorem yields_unary (op : Solidity.UnaryOp) (t : Ty) : Yields (unary op x t) := by
  unfold unary
  grind [Rust.Expr.negate, Rust.Expr.not]

@[grind ←] theorem yields_cast (v : InkVersion) (hx : x.isControl = false) (source result : Ty) :
    Yields (cast v x source result) := by
  unfold cast
  grind [Rust.Expr.method, Rust.Expr.callPath]

@[grind ←] theorem yields_arrayLength (v : InkVersion) : Yields (arrayLength v x) := by
  unfold arrayLength
  grind

@[grind ←] theorem yields_newArray (v : InkVersion) (elem : Ty) (t : Ty) : Yields (newArray v elem x t) := by
  unfold newArray
  grind

@[grind ←] theorem yields_arrayLiteral (length : Int) (xs : List Rust.Expr) :
    Yields (arrayLiteral length xs) := by
  unfold arrayLiteral
  grind

@[grind ←] theorem yields_envValue (v : InkVersion) (kind : EnvKind) : Yields (envValue v kind) := by
  unfold envValue
  grind [Rust.Expr.method]

@[grind ←] theorem plain_fieldPlace? (d : FieldDecl) : Shaped.plain (fieldPlace? d) := by
  unfold fieldPlace? selfField
  grind

@[grind ←] theorem plain_readField (d : FieldDecl) (keys : List Rust.Expr) :
    (readField d keys).isControl = false := by
  cases keys <;> rfl

end Ink

namespace Soroban

variable {x y : Rust.Expr}

@[grind ←] theorem plain_hostCall (path : String) (args : List Rust.Expr) :
    (hostCall path args).isControl = false := rfl

@[grind ←] theorem yields_intLiteral (value : Nat) (negative signed : Bool) (bits : Nat) :
    Yields (intLiteral value negative signed bits) := by
  unfold intLiteral
  grind

@[grind ←] theorem yields_stringLiteral (text : String) : Yields (stringLiteral text) := by
  unfold stringLiteral
  grind

theorem yields_zeroWith {structZero : DeclRef → Emit Rust.Expr} (h : ∀ r, Yields (structZero r)) (t : Ty) :
    Yields (zeroWith structZero t) := by
  cases t with
  | enum r =>
      refine yields_last fun E => ?_
      split
      · split
        · exact yields_pure rfl
        · exact yields_throw _
      · exact yields_throw _
  | _ =>
      unfold zeroWith
      grind

theorem yields_structZero (depth : Nat) (r : DeclRef) : Yields (structZero depth r) := by
  cases depth with
  | zero => exact yields_throw _
  | succ depth => exact yields_last fun E => yields_last fun values => yields_pure rfl

@[grind ←] theorem yields_zero (t : Ty) : Yields (zero t) :=
  yields_last fun _ => yields_zeroWith (yields_structZero _) t

@[grind ←] theorem yields_intBound (signed : Bool) (bits : Nat) (isMax : Bool) :
    Yields (intBound signed bits isMax) := by
  unfold intBound
  grind

@[grind ←] theorem yields_binary (op : Solidity.BinaryOp) (t u : Ty) : Yields (binary op x y t u) := by
  unfold binary wideBinary
  grind

@[grind ←] theorem yields_unary (op : Solidity.UnaryOp) (t : Ty) : Yields (unary op x t) := by
  unfold unary
  grind [Rust.Expr.negate, Rust.Expr.not]

@[grind ←] theorem yields_cast (hx : x.isControl = false) (source result : Ty) :
    Yields (cast x source result) := by
  unfold cast
  grind

@[grind ←] theorem yields_arrayLength : Yields (arrayLength x) := by
  unfold arrayLength
  grind

-- The loop that fills an array stands in a block with a value.
@[grind ←] theorem yields_newArray (elem : Ty) (t : Ty) : Yields (newArray elem x t) := by
  unfold newArray
  grind

@[grind ←] theorem yields_arrayLiteral (xs : List Rust.Expr) : Yields (arrayLiteral xs) := by
  unfold arrayLiteral
  grind

@[grind ←] theorem yields_envValue (kind : EnvKind) : Yields (envValue kind) := by
  unfold envValue
  grind [Rust.Expr.method]

@[grind ←] theorem yields_readField (d : FieldDecl) (keys : List Rust.Expr) : Yields (readField d keys) := by
  unfold readField
  grind [Rust.Expr.method]

end Soroban

namespace Emit

open Solidity (BinaryOp UnaryOp)

variable {x y : Rust.Expr}

@[grind ←] theorem yields_intLiteral (value : Nat) (negative signed : Bool) (bits : Nat) :
    Yields (intLiteral value negative signed bits) := by
  grind [intLiteral]

@[grind ←] theorem yields_stringLiteral (text : String) : Yields (stringLiteral text) := by
  grind [stringLiteral]

@[grind ←] theorem yields_zero (t : Ty) : Yields (zero t) := by grind [zero]

@[grind ←] theorem yields_intBound (signed : Bool) (bits : Nat) (isMax : Bool) :
    Yields (intBound signed bits isMax) := by
  grind [intBound]

@[grind ←] theorem yields_applyBinary (op : BinaryOp) (t u : Ty) : Yields (applyBinary op x y t u) := by
  grind [applyBinary]

@[grind ←] theorem yields_applyUnary (op : UnaryOp) (t : Ty) : Yields (applyUnary op x t) := by
  grind [applyUnary]

@[grind ←] theorem yields_convert (hx : x.isControl = false) (source result : Ty) :
    Yields (convert x source result) := by
  grind [convert]

@[grind ←] theorem yields_arrayIndex (t : Ty) : Yields (arrayIndex x y t) := by
  grind [arrayIndex, Ink.arrayIndex, Soroban.arrayIndex, Rust.Expr.method]

@[grind ←] theorem yields_arrayLength : Yields (arrayLength x) := by grind [arrayLength]

@[grind ←] theorem yields_newArray (elem : Ty) (t : Ty) : Yields (newArray elem x t) := by
  grind [newArray]

@[grind ←] theorem yields_arrayLiteral (length : Int) (xs : List Rust.Expr) :
    Yields (arrayLiteral length xs) := by
  grind [arrayLiteral]

@[grind ←] theorem yields_envValue (kind : EnvKind) : Yields (envValue kind) := by grind [envValue]

@[grind ←] theorem yields_fieldPlace? (d : FieldDecl) : Yields (fieldPlace? d) := by
  grind [fieldPlace?]

@[grind ←] theorem yields_readField (d : FieldDecl) (keys : List Rust.Expr) : Yields (readField d keys) := by
  grind [readField]

@[grind ←] theorem yields_writeField (d : FieldDecl) (keys : List Rust.Expr) :
    Yields (writeField d keys x) := by
  refine yields_last fun t => ?_
  cases t with
  | ink v => exact yields_pure (by cases keys <;> rfl)
  | soroban => exact yields_pure rfl

@[grind ←] theorem yields_arraySet (t : Ty) (z : Rust.Expr) : Yields (arraySet x y t z) := by
  refine yields_last fun target => ?_
  cases target <;> exact yields_pure rfl

@[grind ←] theorem yields_emitEvent (ev : EventDecl) (xs : List Rust.Expr) : Yields (emitEvent ev xs) := by
  refine yields_last fun t => ?_
  cases t with
  | ink v => exact yields_pure rfl
  | soroban => exact yields_last fun _ => yields_pure rfl

@[grind ←] theorem yields_externalCall (method : Signature) (args : List Rust.Expr) :
    Yields (externalCall method x args) := by
  grind [externalCall, Ink.externalCall, Soroban.externalCall]

-- Accesses.

@[grind ←] theorem yields_fieldAccess (d : FieldDecl) : Yields (fieldAccess d) := by
  unfold fieldAccess
  grind

@[grind ←] theorem yields_member (a : Access) (start : Text.Position) (name : String) :
    Yields (a.member start name) := by
  unfold Access.member
  grind

@[grind ←] theorem yields_index (a : Access) (start : Text.Position) (on keyType : Ty)
    (key : Ty → Emit Rust.Expr) : Yields (a.index start on keyType key) := by
  unfold Access.index
  grind

@[grind ←] theorem yields_valueOf (e : Expr) {written : Emit Access} (h : Yields written) :
    Yields (valueOf e written) := by
  unfold valueOf
  grind

@[grind ←] theorem yields_operandOf (e : Expr) {written : Emit Access} (h : Yields written) :
    Yields (operandOf e written) := by
  unfold operandOf
  grind [Rust.Expr.method]

@[grind ←] theorem yields_operandAs (t : Option Ty) (e : Expr) {written : Option Ty → Emit Access}
    (h : ∀ t, Yields (written t)) : Yields (operandAs t e written) := by
  refine yields_bind (yields_operandOf e (h t)) fun x hx => ?_
  split
  · split
    · exact yields_pure hx
    · exact yields_convert hx _ _
  · exact yields_pure hx

@[grind ←] theorem yields_numberLiteral (expected : Option Ty) (start : Text.Position) (value : Nat)
    (negative : Bool) : Yields (numberLiteral expected start value negative) := by
  unfold numberLiteral
  grind

-- By induction along the expression; what an operand is written as is written for the whole where a tuple
-- has one element or a conversion does nothing.
theorem yields_accesses {inlined : ConstantDecl → Emit Rust.Expr} (h : ∀ d, Yields (inlined d)) :
    (∀ expected e, Yields (access inlined expected e)) ∧
      ∀ types es, Yields (accessList inlined types es) := by
  apply access.mutual_induct (fun expected e => Yields (access inlined expected e))
    (fun types es => Yields (accessList inlined types es))
  all_goals intros
  all_goals simp only [access, accessList]
  case case21 =>
    refine yields_last fun c => yields_last fun x => yields_last fun y => yields_pure ?_
    rintro _ ⟨⟩
    rfl
  all_goals grind [Rust.Expr.not]

theorem yields_constantValue (depth : Nat) (d : ConstantDecl) : Yields (constantValue depth d) := by
  induction depth generalizing d with
  | zero => exact yields_throw _
  | succ depth ih =>
      have haccess := (yields_accesses ih).1
      unfold constantValue
      grind

@[grind ←] theorem yields_accessOf (expected : Option Ty) (e : Expr) : Yields (accessOf expected e) :=
  yields_last fun _ => (yields_accesses (yields_constantValue _)).1 expected e

@[grind ←] theorem yields_expr (e : Expr) : Yields (expr e) := yields_valueOf e (yields_accessOf none e)

@[grind ←] theorem yields_exprAs (t : Ty) (e : Expr) : Yields (exprAs t e) :=
  yields_operandAs (some t) e fun t => yields_accessOf t e

-- Changes.

theorem yields_arrayPush : Yields (arrayPush x y) := by
  unfold arrayPush
  grind

theorem yields_arrayPop : Yields (arrayPop x) := by
  unfold arrayPop Rust.Expr.method
  grind

theorem yields_changeAt (change : Change) : Yields (change.at x) := by
  cases change with
  | set value => exact yields_pure rfl
  | push value =>
      refine yields_bind yields_arrayPush fun z hz => yields_pure ?_
      simpa [Shaped.plain, Rust.Stmt.isStep] using hz
  | pop =>
      refine yields_bind yields_arrayPop fun z hz => yields_pure ?_
      simpa [Shaped.plain, Rust.Stmt.isStep] using hz

theorem yields_one {act : Emit Rust.Stmt} (hact : Yields act) :
    Yields (do return [← act] : Emit (List Rust.Stmt)) :=
  yields_bind hact fun s hs => yields_pure (by simpa [Shaped.plain] using hs)

theorem yields_bindUnlessSimple (stem : String) (hx : x.isControl = false) :
    Yields (bindUnlessSimple stem x) := by
  unfold bindUnlessSimple
  split
  · exact yields_pure ⟨by simp [Shaped.plain], hx⟩
  · exact yields_last fun name => yields_pure ⟨by simp [Shaped.plain, Rust.Stmt.isStep], rfl⟩

theorem yields_bindAll (stem : String) {xs : List Rust.Expr} (hxs : ∀ x ∈ xs, x.isControl = false) :
    Yields (bindAll stem xs) := by
  induction xs with
  | nil => exact yields_pure ⟨by simp [Shaped.plain], by simp [Shaped.plain]⟩
  | cons x xs ih =>
      obtain ⟨hx, hxs⟩ := List.forall_mem_cons.mp hxs
      refine yields_bind (yields_bindUnlessSimple stem hx) fun b hb => ?_
      refine yields_bind (ih hxs) fun bs hbs => yields_pure ⟨?_, ?_⟩
      · exact List.forall_mem_append.mpr ⟨hb.1, hbs.1⟩
      · exact List.forall_mem_cons.mpr ⟨hb.2, hbs.2⟩

-- What is read into a variable, changed there and written back, all by steps.
theorem steps_detour {bound inner : List Rust.Stmt} {back : Rust.Stmt} (isMut : Bool) (name : String)
    (old : Rust.Expr) (hbound : Shaped.plain bound) (hinner : Shaped.plain inner)
    (hback : Shaped.plain back) :
    Shaped.plain (bound ++ [Rust.Stmt.letVar isMut name "" (some old)] ++ inner ++ [back]) := by
  intro s hs
  simp only [List.mem_append, List.mem_singleton] at hs
  rcases hs with ((hs | rfl) | hs) | rfl
  · exact hbound s hs
  · rfl
  · exact hinner s hs
  · exact hback

theorem yields_changePath (change : Change) (path : List Step) : Yields (changePath change x path) := by
  induction path generalizing x with
  | nil => exact yields_one (yields_changeAt change)
  | cons step rest ih =>
      cases step with
      | member p name on => exact ih
      | index start key on =>
          rw [changePath]
          split
          · exact yields_throw_bind _ _
          · refine yields_bind (yields_exprAs _ key) fun k hk => yields_last fun inPlace => ?_
            split
            · exact yields_last fun element => ih
            · split
              · exact yields_one (yields_arraySet _ _)
              · refine yields_bind (yields_bindUnlessSimple "idx" hk) fun b hb => ?_
                refine yields_last fun old => yields_last fun name => ?_
                refine yields_bind ih fun inner hinner => ?_
                refine yields_bind (yields_arraySet _ _) fun back hback => yields_pure ?_
                exact steps_detour true name old hb.1 hinner hback

theorem yields_mappingKeys (d : FieldDecl) (types : List Ty) (path : List Step) :
    Yields (mappingKeys d types path) := by
  fun_induction mappingKeys d types path with
  | case1 => exact yields_pure (by simp [Shaped.plain])
  | case2 => exact yields_pure (by simp [Shaped.plain])
  | case3 t types p key on path ih =>
      refine yields_bind (yields_exprAs t key) fun k hk => yields_bind ih fun ks hks => yields_pure ?_
      exact List.forall_mem_cons.mpr ⟨hk, hks⟩
  | case4 => exact yields_throw _

theorem yields_changeField (start : Text.Position) (d : FieldDecl) (path : List Step) (change : Change) :
    Yields (changeField start d path change) := by
  unfold changeField
  dsimp only
  split
  · exact yields_throw_bind _ _
  · refine yields_bind (yields_mappingKeys d _ path) fun keys hkeys => yields_last fun place => ?_
    split
    · exact yields_changePath change path
    · split
      · exact yields_one (yields_writeField d _)
      · refine yields_bind (yields_bindAll "key" hkeys) fun b hb => ?_
        refine yields_last fun old => yields_last fun name => ?_
        refine yields_bind (yields_changePath _ _) fun inner hinner => ?_
        refine yields_bind (yields_writeField d _) fun back hback => yields_pure ?_
        exact steps_detour true name old hb.1 hinner hback

theorem yields_changeTarget (target : Expr) (change : Change) : Yields (changeTarget target change) := by
  unfold changeTarget
  split
  · refine yields_last fun found => ?_
    split
    · exact yields_changePath change _
    · exact yields_throw _
  · exact yields_changeField _ _ _ change
  · exact yields_throw _

theorem yields_assign :
    (∀ value target, Yields (assign value target)) ∧ ∀ names targets, Yields (assignAll names targets) := by
  apply assign.mutual_induct (fun value target => Yields (assign value target))
    (fun names targets => Yields (assignAll names targets))
  · intro value p elements ih
    rw [assign]
    refine yields_last fun names => yields_bind (ih names) fun parts hparts => yields_pure ?_
    exact List.forall_mem_cons.mpr ⟨rfl, hparts⟩
  · intro value target htuple
    rw [assign]
    · exact yields_changeTarget target (.set value)
    · exact htuple
  · intro name names e rest ihe ihrest
    rw [assignAll]
    refine yields_bind ihe fun stmts hstmts => yields_bind ihrest fun more hmore => yields_pure ?_
    exact List.forall_mem_append.mpr ⟨hstmts, hmore⟩
  · intro names targets hnil
    rw [assignAll]
    · exact yields_pure (by simp [Shaped.plain])
    · exact hnil

theorem yields_exprStmt (e : Expr) : Yields (exprStmt e) := by
  unfold exprStmt
  split
  · exact yields_last fun x => yields_changeTarget _ (.push x)
  · exact yields_changeTarget _ .pop
  · refine yields_bind (yields_expr _) fun x hx => yields_pure ?_
    simpa [Shaped.plain, Rust.Stmt.isStep] using hx

theorem yields_declareVars (vars : List Param) (value : Expr) : Yields (declareVars vars value) := by
  have hlet (isMut : Bool) (pattern type : String) (x : Rust.Expr) :
      Shaped.plain [Rust.Stmt.letVar isMut pattern type (some x)] := by
    simp [Shaped.plain, Rust.Stmt.isStep]
  unfold declareVars
  split
  · refine yields_last fun t => yields_last fun x => yields_last fun _ => yields_last fun _ => ?_
    exact yields_pure (hlet _ _ _ _)
  · exact yields_last fun x => yields_last fun names => yields_pure (hlet _ _ _ _)

end Emit

end RustContracts
