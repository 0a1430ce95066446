import RustContracts.Proofs.Emit.Writes

-- Every step that writes an expression is steady.
namespace RustContracts

open Program Emit

namespace Ink

@[grind ←] theorem steady_intName (signed : Bool) (bits : Nat) : Steady (intName signed bits) := by
  unfold intName
  grind

@[grind ←] theorem steady_useU256 (v : InkVersion) : Steady (useU256 v) := by
  unfold useU256
  grind

@[grind .] theorem steady_useString : Steady useString := by grind [useString]

@[grind .] theorem steady_useVec : Steady useVec := by grind [useVec]

@[grind ←] theorem steady_toU256 (v : InkVersion) (x : Rust.Expr) : Steady (toU256 v x) := by
  grind [toU256]

@[grind ←] theorem steady_type (v : InkVersion) (t : Ty) : Steady (type v t) := by
  induction t using type.induct (motive_2 := fun ts => Steady (types v ts)) <;>
    grind [type, types, addressType]

@[grind ←] theorem steady_intLiteral (v : InkVersion) (value : Nat) (negative signed : Bool)
    (bits : Nat) : Steady (intLiteral v value negative signed bits) := by
  grind [intLiteral]

@[grind ←] theorem steady_stringLiteral (text : String) : Steady (stringLiteral text) := by
  grind [stringLiteral]

@[grind ←] theorem steady_zero (v : InkVersion) (t : Ty) : Steady (zero v t) := by
  unfold zero
  grind

@[grind ←] theorem steady_intBound (v : InkVersion) (signed : Bool) (bits : Nat) (isMax : Bool) :
    Steady (intBound v signed bits isMax) := by
  grind [intBound]

@[grind ←] theorem steady_unary (op : Solidity.UnaryOp) (x : Rust.Expr) (t : Ty) :
    Steady (unary op x t) := by
  unfold unary
  grind

@[grind ←] theorem steady_cast (v : InkVersion) (x : Rust.Expr) (source result : Ty) :
    Steady (cast v x source result) := by
  unfold cast
  grind

@[grind ←] theorem steady_arrayLength (v : InkVersion) (x : Rust.Expr) :
    Steady (arrayLength v x) := by
  grind [arrayLength]

@[grind ←] theorem steady_newArray (v : InkVersion) (elem : Ty) (size : Rust.Expr) (t : Ty) :
    Steady (newArray v elem size t) := by
  grind [newArray]

@[grind ←] theorem steady_arrayLiteral (length : Int) (xs : List Rust.Expr) :
    Steady (arrayLiteral length xs) := by
  grind [arrayLiteral]

@[grind ←] theorem steady_envValue (v : InkVersion) (kind : EnvKind) : Steady (envValue v kind) := by
  unfold envValue
  grind

end Ink

namespace Soroban

@[grind ←] theorem steady_named (name : String) : Steady (named name) := by grind [named]

@[grind ←] theorem steady_type (t : Ty) : Steady (type t) := by
  induction t using type.induct (motive_2 := fun ts => Steady (types ts)) <;> grind [type, types]

@[grind ←] theorem steady_intLiteral (value : Nat) (negative signed : Bool) (bits : Nat) :
    Steady (intLiteral value negative signed bits) := by
  grind [intLiteral]

@[grind ←] theorem steady_stringLiteral (text : String) : Steady (stringLiteral text) := by
  grind [stringLiteral]

theorem steady_zerosWith (structZero : DeclRef → Emit Rust.Expr)
    (h : ∀ r, Steady (structZero r)) :
    (∀ t, Steady (zeroWith structZero t)) ∧ ∀ ts, Steady (zerosWith structZero ts) := by
  apply zeroWith.mutual_induct (fun t => Steady (zeroWith structZero t))
    (fun ts => Steady (zerosWith structZero ts))
  all_goals grind [zeroWith, zerosWith]

theorem steady_structZero (depth : Nat) (r : DeclRef) : Steady (structZero depth r) := by
  induction depth generalizing r with
  | zero => exact steady_throw _
  | succ depth ih =>
      refine steady_bind steady_read fun E => ?_
      exact steady_bind ((steady_zerosWith _ ih).2 _) fun _ => steady_pure _

@[grind ←] theorem steady_zero (t : Ty) : Steady (zero t) :=
  steady_bind steady_read fun _ => (steady_zerosWith _ (steady_structZero _)).1 t

@[grind ←] theorem steady_intBound (signed : Bool) (bits : Nat) (isMax : Bool) :
    Steady (intBound signed bits isMax) := by
  unfold intBound
  grind

@[grind ←] theorem steady_binary (op : Solidity.BinaryOp) (left right : Rust.Expr) (t u : Ty) :
    Steady (binary op left right t u) := by
  unfold binary wideBinary
  grind

@[grind ←] theorem steady_unary (op : Solidity.UnaryOp) (x : Rust.Expr) (t : Ty) :
    Steady (unary op x t) := by
  unfold unary
  grind

@[grind ←] theorem steady_cast (x : Rust.Expr) (source result : Ty) :
    Steady (cast x source result) := by
  unfold cast
  grind

@[grind ←] theorem steady_arrayLength (x : Rust.Expr) : Steady (arrayLength x) := by
  grind [arrayLength]

@[grind ←] theorem steady_newArray (elem : Ty) (size : Rust.Expr) (t : Ty) :
    Steady (newArray elem size t) := by
  grind [newArray]

@[grind ←] theorem steady_arrayLiteral (xs : List Rust.Expr) : Steady (arrayLiteral xs) := by
  grind [arrayLiteral]

@[grind ←] theorem steady_envValue (kind : EnvKind) : Steady (envValue kind) := by
  unfold envValue
  grind

@[grind ←] theorem steady_readField (d : FieldDecl) (keys : List Rust.Expr) :
    Steady (readField d keys) := by
  grind [readField]

@[grind ←] theorem steady_call (callee : Routine) (args : List Rust.Expr) :
    Steady (call callee args) := by
  grind [call]

end Soroban

namespace Emit

open Solidity (BinaryOp UnaryOp)

@[grind ←] theorem steady_typeText (t : Ty) : Steady (typeText t) := by grind [typeText]

@[grind ←] theorem steady_isCopy (t : Ty) : Steady (isCopy t) := by grind [isCopy]

@[grind ←] theorem steady_intLiteral (value : Nat) (negative signed : Bool) (bits : Nat) :
    Steady (intLiteral value negative signed bits) := by
  grind [intLiteral]

@[grind ←] theorem steady_stringLiteral (text : String) : Steady (stringLiteral text) := by
  grind [stringLiteral]

@[grind ←] theorem steady_zero (t : Ty) : Steady (zero t) := by grind [zero]

@[grind ←] theorem steady_intBound (signed : Bool) (bits : Nat) (isMax : Bool) :
    Steady (intBound signed bits isMax) := by
  grind [intBound]

@[grind ←] theorem steady_applyBinary (op : BinaryOp) (left right : Rust.Expr) (t u : Ty) :
    Steady (applyBinary op left right t u) := by
  grind [applyBinary]

@[grind ←] theorem steady_applyUnary (op : UnaryOp) (x : Rust.Expr) (t : Ty) :
    Steady (applyUnary op x t) := by
  grind [applyUnary]

@[grind ←] theorem steady_convert (x : Rust.Expr) (source result : Ty) :
    Steady (convert x source result) := by
  grind [convert]

@[grind .] theorem steady_elementsArePlaces : Steady elementsArePlaces := by
  grind [elementsArePlaces]

@[grind ←] theorem steady_arrayIndex (array key : Rust.Expr) (t : Ty) :
    Steady (arrayIndex array key t) := by
  grind [arrayIndex]

@[grind ←] theorem steady_arrayLength (array : Rust.Expr) : Steady (arrayLength array) := by
  grind [arrayLength]

@[grind ←] theorem steady_newArray (elem : Ty) (size : Rust.Expr) (t : Ty) :
    Steady (newArray elem size t) := by
  grind [newArray]

@[grind ←] theorem steady_arrayLiteral (length : Int) (xs : List Rust.Expr) :
    Steady (arrayLiteral length xs) := by
  grind [arrayLiteral]

@[grind ←] theorem steady_envValue (kind : EnvKind) : Steady (envValue kind) := by
  grind [envValue]

@[grind ←] theorem steady_fieldPlace? (d : FieldDecl) : Steady (fieldPlace? d) := by
  grind [fieldPlace?]

@[grind ←] theorem steady_readField (d : FieldDecl) (keys : List Rust.Expr) :
    Steady (readField d keys) := by
  grind [readField]

@[grind ←] theorem steady_writeField (d : FieldDecl) (keys : List Rust.Expr) (value : Rust.Expr) :
    Steady (writeField d keys value) := by
  grind [writeField]

@[grind ←] theorem steady_arraySet (array key : Rust.Expr) (t : Ty) (value : Rust.Expr) :
    Steady (arraySet array key t value) := by
  grind [arraySet]

@[grind ←] theorem steady_externalCall (method : Signature) (ref : Rust.Expr)
    (args : List Rust.Expr) : Steady (externalCall method ref args) := by
  grind [externalCall]

@[grind ←] theorem steady_invoke (callee : Routine) (args : List Rust.Expr) :
    Steady (invoke callee args) := by
  grind [invoke]

-- Calls.

@[grind ←] theorem steady_functionRoutine (f : Function) (impl : Option Implementation)
    (name : String) (entry : Option Signature) : Steady (functionRoutine f impl name entry) := by
  have hparams (params : List Param) : Steady (rustParams params) := by
    exact steady_mapM (fun _ => steady_bind (steady_typeText _) fun _ => steady_pure _) _
  have hresult (returns : List Param) : Steady (resultText returns) := by
    unfold resultText
    refine steady_bind (steady_mapM (fun _ => steady_typeText _) _) fun _ => ?_
    grind
  unfold functionRoutine
  grind

@[grind ←] theorem steady_callRoutine (f : Function) (impl : Implementation) :
    Steady (callRoutine f impl) := by
  grind [callRoutine, dispatchRoutine, implementationName]

@[grind ←] theorem steady_libraryRoutine (f : Function) (name : String) :
    Steady (libraryRoutine f name) := by
  grind [libraryRoutine]

@[grind ←] theorem steady_callee (start : Text.Position) (name : String) (arity : Nat)
    (isSuper : Bool) (inClass base : String) :
    Steady (callee start name arity isSuper inClass base) := by
  unfold callee
  grind

@[grind ←] theorem steady_declaredFunction (owner : String) (f : Signature) :
    Steady (declaredFunction owner f) := by
  grind [declaredFunction]

@[grind ←] theorem steady_libraryName (library : String) (f : Function) :
    Steady (libraryName library f) := by
  grind [libraryName]

-- Expressions.

@[grind ←] theorem steady_isPlace (e : Expr) : Steady (isPlace e) := by
  unfold isPlace
  grind

@[grind ←] theorem steady_checkKeys (e : Expr) : Steady (checkKeys e) := by
  unfold checkKeys
  grind

@[grind ←] theorem steady_fieldAccess (d : FieldDecl) : Steady (fieldAccess d) := by
  unfold fieldAccess
  grind

@[grind ←] theorem steady_member (a : Access) (start : Text.Position) (name : String) :
    Steady (a.member start name) := by
  unfold Access.member
  grind

@[grind ←] theorem steady_index (a : Access) (start : Text.Position) (on keyType : Ty)
    {key : Ty → Emit Rust.Expr} (hk : ∀ t, Steady (key t)) :
    Steady (a.index start on keyType key) := by
  unfold Access.index
  grind

@[grind ←] theorem steady_valueOf (e : Expr) {written : Emit Access} (h : Steady written) :
    Steady (valueOf e written) := by
  unfold valueOf
  grind

@[grind ←] theorem steady_operandOf (e : Expr) {written : Emit Access} (h : Steady written) :
    Steady (operandOf e written) := by
  grind [operandOf]

@[grind ←] theorem steady_operandAs (t : Option Ty) (e : Expr) {written : Option Ty → Emit Access}
    (h : ∀ t, Steady (written t)) : Steady (operandAs t e written) := by
  unfold operandAs
  grind

@[grind ←] theorem steady_numberLiteral (expected : Option Ty) (start : Text.Position)
    (value : Nat) (negative : Bool) : Steady (numberLiteral expected start value negative) := by
  unfold numberLiteral
  grind

-- By induction along the expression; every case puts steady steps together.
theorem steady_access {inlined : ConstantDecl → Emit Rust.Expr} (h : ∀ d, Steady (inlined d)) :
    (∀ expected e, Steady (access inlined expected e)) ∧
      ∀ types es, Steady (accessList inlined types es) := by
  apply access.mutual_induct (fun expected e => Steady (access inlined expected e))
    (fun types es => Steady (accessList inlined types es))
  all_goals intros
  all_goals simp only [access, accessList]
  all_goals grind

@[grind ←] theorem steady_constantValue (depth : Nat) (d : ConstantDecl) :
    Steady (constantValue depth d) := by
  induction depth generalizing d with
  | zero => exact steady_throw _
  | succ depth ih =>
      have haccess := (steady_access ih).1
      unfold constantValue
      grind

@[grind ←] theorem steady_accessOf (expected : Option Ty) (e : Expr) :
    Steady (accessOf expected e) :=
  steady_bind steady_read fun _ => (steady_access (steady_constantValue _)).1 expected e

@[grind ←] theorem steady_exprAs (t : Ty) (e : Expr) : Steady (exprAs t e) := by grind [exprAs]

@[grind ←] theorem steady_expr (e : Expr) : Steady (expr e) := by grind [expr]

@[grind ←] theorem steady_exprsAs (types : List Ty) (es : List Expr) : Steady (exprsAs types es) := by
  induction es generalizing types with
  | nil => exact steady_pure []
  | cons e es ih => exact steady_bind (steady_exprAs _ e) fun _ => steady_bind (ih _) fun _ => steady_pure _

@[grind ←] theorem steady_throw_bind {α β : Type} (stop : Stop) (f : α → Emit β) :
    Steady ((throw stop : Emit α) >>= f) := fun _ s => .refl s

-- Changes of places, and the other steps that write statements without a scope of their own.

@[grind ←] theorem steady_changeAt (change : Change) (x : Rust.Expr) : Steady (change.at x) := by
  cases change <;> grind [Change.at, arrayPush, arrayPop]

@[grind ←] theorem steady_bindUnlessSimple (stem : String) (x : Rust.Expr) :
    Steady (bindUnlessSimple stem x) := by
  grind [bindUnlessSimple]

@[grind ←] theorem steady_bindAll (stem : String) (xs : List Rust.Expr) : Steady (bindAll stem xs) := by
  induction xs with
  | nil => exact steady_pure _
  | cons x xs ih =>
      exact steady_bind (steady_bindUnlessSimple stem x) fun _ => steady_bind ih fun _ => steady_pure _

@[grind ←] theorem steady_changePath (change : Change) (x : Rust.Expr) (path : List Step) :
    Steady (changePath change x path) := by
  induction path generalizing x with
  | nil => exact steady_bind (steady_changeAt change x) fun _ => steady_pure _
  | cons step rest ih =>
      cases step with
      | member p name on => exact ih _
      | index start key on =>
          rw [changePath]
          split
          · exact steady_throw_bind _ _
          · refine steady_bind (steady_exprAs _ key) fun k => steady_bind steady_elementsArePlaces fun _ => ?_
            split
            · exact steady_bind (steady_arrayIndex _ _ _) fun _ => ih _
            · split
              · exact steady_bind (steady_arraySet _ _ _ _) fun _ => steady_pure _
              · refine steady_bind (steady_bindUnlessSimple _ k) fun b => ?_
                refine steady_bind (steady_arrayIndex _ _ _) fun _ => steady_bind (steady_temp _) fun _ => ?_
                exact steady_bind (ih _) fun _ => steady_bind (steady_arraySet _ _ _ _) fun _ => steady_pure _

@[grind ←] theorem steady_mappingKeys (d : FieldDecl) (types : List Ty) (path : List Step) :
    Steady (mappingKeys d types path) := by
  fun_induction mappingKeys d types path with
  | case1 => exact steady_pure _
  | case2 => exact steady_pure _
  | case3 t types p key on path ih =>
      exact steady_bind (steady_exprAs t key) fun _ => steady_bind ih fun _ => steady_pure _
  | case4 => exact steady_throw _

@[grind ←] theorem steady_changeField (start : Text.Position) (d : FieldDecl) (path : List Step)
    (change : Change) : Steady (changeField start d path change) := by
  unfold changeField
  dsimp only
  split
  · exact steady_throw_bind _ _
  · refine steady_bind (steady_mappingKeys d _ path) fun keys => steady_bind (steady_fieldPlace? d) fun _ => ?_
    split
    · exact steady_changePath change _ path
    · split
      · exact steady_bind (steady_writeField d _ _) fun _ => steady_pure _
      · refine steady_bind (steady_bindAll _ keys) fun b => steady_bind (steady_readField d _) fun _ => ?_
        refine steady_bind (steady_temp _) fun _ => steady_bind (steady_changePath _ _ _) fun _ => ?_
        exact steady_bind (steady_writeField d _ _) fun _ => steady_pure _

@[grind ←] theorem steady_changeTarget (target : Expr) (change : Change) :
    Steady (changeTarget target change) := by
  unfold changeTarget
  grind

theorem steady_tupleTemps (es : List Expr) : Steady (tupleTemps es) := by
  induction es with
  | nil => exact steady_pure _
  | cons e es ih => exact steady_bind (steady_temp _) fun _ => steady_bind ih fun _ => steady_pure _

theorem steady_assign :
    (∀ value target, Steady (assign value target)) ∧ ∀ names targets, Steady (assignAll names targets) := by
  apply assign.mutual_induct (fun value target => Steady (assign value target))
    (fun names targets => Steady (assignAll names targets))
  · intro value p elements ih
    rw [assign]
    exact steady_bind (steady_tupleTemps elements) fun names => steady_bind (ih names) fun _ => steady_pure _
  · intro value target htuple
    rw [assign]
    · exact steady_changeTarget target _
    · exact htuple
  · intro name names e rest ihe ihrest
    rw [assignAll]
    exact steady_bind ihe fun _ => steady_bind ihrest fun _ => steady_pure _
  · intro names targets hnil
    rw [assignAll]
    · exact steady_pure _
    · exact hnil

theorem steady_exprStmt (e : Expr) : Steady (exprStmt e) := by
  unfold exprStmt
  grind

theorem steady_emitEvent (ev : EventDecl) (xs : List Rust.Expr) : Steady (emitEvent ev xs) := by
  grind [emitEvent, Soroban.emitEvent]

theorem steady_errorValue (entry : ErrorEntry) (xs : List Rust.Expr) : Steady (errorValue entry xs) := by
  refine steady_bind steady_target fun t => ?_
  cases t with
  | ink v =>
      unfold Ink.revert
      grind
  | soroban => exact steady_bind steady_read fun _ => steady_pure _

theorem steady_abort (entry : ErrorEntry) (args : List Expr) : Steady (abort entry args) :=
  steady_bind (steady_exprsAs _ args) fun xs => steady_bind (steady_errorValue entry xs) fun _ => steady_pure _

theorem steady_defaultResults (results : List Param) : Steady (defaultResults results) := by
  induction results with
  | nil => exact steady_pure _
  | cons r results ih =>
      rw [defaultResults]
      grind

theorem steady_resultValue (value : Option Expr) : Steady (resultValue value) := by
  have hdefault := steady_defaultResults
  unfold resultValue defaultResult
  grind

theorem steady_breakStmt (start : Text.Position) : Steady (breakStmt start) := by
  grind [breakStmt, currentLoop?]

theorem steady_continueStmt (start : Text.Position) : Steady (continueStmt start) := by
  grind [continueStmt, currentLoop?]

end Emit

end RustContracts
