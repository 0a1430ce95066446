import RustContracts.Proofs.Emit.Conforms

-- Every step that writes an expression keeps to a form, where the expressions of the source suit it.
namespace RustContracts.Emit

open Program
open Solidity (BinaryOp UnaryOp)

variable {F : Rust.Form} {E : Env} {s s' : State} {x y : Rust.Expr} {xs : List Rust.Expr}

-- What has to hold of an expression of the source: a form that tells `caller` apart allows it where the caller is read
-- or passed on, and it allows what stands to the left of `<` and `<<` and what is tested.
def Suits (F : Rust.Form) (E : Env) : Expr → Prop
  | .env _ .sender => E.target = .soroban → F.ident "caller"
  | .call _ name args _ _ _ _ => E.target = .soroban → ∀ f, E.contract.lookup? name args.length = some f →
      E.contract.needsCaller f.toSignature = true → F.ident "caller"
  | .binary _ op left right _ => op = .lt ∨ op = .shl → ∀ t x, Operand E left x (operandType t op left.type right.type) →
      F.left op.text x ∧ F.left op.text x.borrowed
  | .ternary _ cond _ _ _ => ∀ x, Operand E cond x .bool → F.cond x
  | _ => True

section Target

variable (hF : Mild F E.target)
include hF

omit hF in
@[grind ←] theorem conforms_typeText (t : Ty) : Conforms F E (typeText t) := by
  unfold typeText
  grind

omit hF in
@[grind ←] theorem conforms_isCopy (t : Ty) : Conforms F E (isCopy t) := by
  unfold isCopy
  grind

@[grind ←] theorem conforms_intLiteral (value : Nat) (negative signed : Bool) (bits : Nat) :
    Conforms F E (intLiteral value negative signed bits) := by
  unfold intLiteral
  grind

@[grind ←] theorem conforms_stringLiteral (text : String) : Conforms F E (stringLiteral text) := by
  unfold stringLiteral
  grind

@[grind ←] theorem conforms_zero (t : Ty) : Conforms F E (zero t) := by
  unfold zero
  grind

@[grind ←] theorem conforms_intBound (signed : Bool) (bits : Nat) (isMax : Bool) :
    Conforms F E (intBound signed bits isMax) := by
  unfold intBound
  grind

@[grind ←] theorem conforms_applyBinary (op : BinaryOp) (hleft : op = .lt ∨ op = .shl → F.left op.text x)
    (hx : x.Fits F) (hy : y.Fits F) (t u : Ty) : Conforms F E (applyBinary op x y t u) := by
  unfold applyBinary
  grind [Ink.fits_binary]

@[grind ←] theorem conforms_applyUnary (op : UnaryOp) (hx : x.Fits F) (t : Ty) : Conforms F E (applyUnary op x t) := by
  unfold applyUnary
  grind

@[grind ←] theorem conforms_convert (hx : x.Fits F) (source result : Ty) : Conforms F E (convert x source result) := by
  unfold convert
  grind

omit hF in
@[grind .] theorem conforms_elementsArePlaces : Conforms F E elementsArePlaces := by
  unfold elementsArePlaces
  grind

omit hF in
@[grind ←] theorem conforms_arrayIndex (hx : x.Fits F) (hy : y.Fits F) (t : Ty) : Conforms F E (arrayIndex x y t) := by
  unfold arrayIndex
  grind

omit hF in
@[grind ←] theorem conforms_arraySet (hx : x.Fits F) (hy : y.Fits F) (t : Ty) {z : Rust.Expr} (hz : z.Fits F) :
    Conforms F E (arraySet x y t z) := by
  unfold arraySet
  grind

@[grind ←] theorem conforms_arrayLength (hx : x.Fits F) : Conforms F E (arrayLength x) := by
  unfold arrayLength
  grind

omit hF in
@[grind ←] theorem conforms_arrayPush (hx : x.Fits F) (hy : y.Fits F) : Conforms F E (arrayPush x y) := by
  unfold arrayPush
  grind

omit hF in
@[grind ←] theorem conforms_arrayPop (hx : x.Fits F) : Conforms F E (arrayPop x) := by
  unfold arrayPop
  grind

@[grind ←] theorem conforms_newArray (elem : Ty) (hx : x.Fits F) (t : Ty) : Conforms F E (newArray elem x t) := by
  unfold newArray
  grind

@[grind ←] theorem conforms_arrayLiteral (length : Int) (hxs : ∀ x ∈ xs, x.Fits F) :
    Conforms F E (arrayLiteral length xs) := by
  unfold arrayLiteral
  grind

@[grind ←] theorem conforms_envValue {kind : EnvKind}
    (hcaller : kind = .sender → E.target = .soroban → F.ident "caller") : Conforms F E (envValue kind) := by
  unfold envValue
  refine conforms_target_bind ?_
  cases ht : E.target with
  | ink v => exact Ink.conforms_envValue (hF.ink v ht) v kind
  | soroban => exact Soroban.conforms_envValue hF.env fun hkind => hcaller hkind ht

@[grind ←] theorem conforms_fieldPlace? (d : FieldDecl) : Conforms F E (fieldPlace? d) := by
  unfold fieldPlace?
  refine conforms_target_bind ?_
  cases ht : E.target with
  | ink v =>
      refine conforms_pure ?_
      unfold Ink.fieldPlace?
      split
      · nofun
      · rintro x ⟨⟩
        exact Ink.fits_selfField (hF.ink v ht) _
  | soroban => exact conforms_pure (by nofun)

@[grind ←] theorem conforms_readField (d : FieldDecl) (hxs : ∀ x ∈ xs, x.Fits F) : Conforms F E (readField d xs) := by
  unfold readField
  refine conforms_target_bind ?_
  cases ht : E.target with
  | ink v => exact conforms_pure (Ink.fits_readField (hF.ink v ht) d hxs)
  | soroban => exact Soroban.conforms_readField hF d hxs

@[grind ←] theorem conforms_writeField (d : FieldDecl) (hxs : ∀ x ∈ xs, x.Fits F) (hx : x.Fits F) :
    Conforms F E (writeField d xs x) := by
  unfold writeField
  refine conforms_target_bind ?_
  cases ht : E.target with
  | ink v => exact conforms_pure (Ink.fits_writeField (hF.ink v ht) d hx hxs)
  | soroban => exact conforms_pure (Soroban.fits_writeField hF d hx hxs)

@[grind ←] theorem conforms_emitEvent (ev : EventDecl) (hxs : ∀ x ∈ xs, x.Fits F) : Conforms F E (emitEvent ev xs) := by
  unfold emitEvent
  refine conforms_target_bind ?_
  cases ht : E.target with
  | ink v => exact conforms_pure (Ink.fits_emitEvent (hF.ink v ht) ev hxs)
  | soroban => exact Soroban.conforms_emitEvent hF.env ev hxs

@[grind ←] theorem conforms_errorValue (entry : ErrorEntry) (hxs : ∀ x ∈ xs, x.Fits F) :
    Conforms F E (errorValue entry xs) := by
  unfold errorValue
  refine conforms_target_bind ?_
  cases ht : E.target with
  | ink v => exact Ink.conforms_revert (hF.ink v ht) entry hxs
  | soroban => exact Soroban.conforms_revert hF entry

@[grind ←] theorem conforms_externalRef (interface : String) (hx : x.Fits F) :
    Conforms F E (externalRef interface x) := by
  unfold externalRef Ink.externalRef
  refine conforms_target_bind ?_
  cases E.target with
  | ink v => exact conforms_pure ⟨Rust.fits_method hx _, trivial⟩
  | soroban => exact conforms_pure ⟨Soroban.fits_externalRef hF.env interface hx, trivial⟩

omit hF in
@[grind ←] theorem conforms_externalCall (method : Signature) (hx : x.Fits F) (hxs : ∀ x ∈ xs, x.Fits F) :
    Conforms F E (externalCall method x xs) := by
  unfold externalCall Ink.externalCall
  grind

-- Calls.

theorem conforms_invoke {r : Routine} (hcaller : E.target = .soroban → r.caller = true → F.ident "caller")
    (hxs : ∀ x ∈ xs, x.Fits F) : Conforms F E (invoke r xs) := by
  unfold invoke
  refine conforms_target_bind ?_
  cases ht : E.target with
  | ink v => exact conforms_pure (.methodCall (.ident (hF.ink v ht _)) hxs)
  | soroban =>
      have henv : (Rust.Expr.ident "env").Fits F := .ident hF.env
      refine conforms_bind conforms_frame fun fr _ => conforms_pure (.call ?_)
      simp only [List.cons_append, List.forall_mem_cons, List.forall_mem_append]
      refine ⟨?_, ?_, hxs⟩
      · split
        · exact Rust.fits_method henv _
        · split
          · exact .unary henv
          · exact henv
      · split
        · next hr => exact List.forall_mem_singleton.mpr (Rust.fits_method (.ident (hcaller ht hr)) _)
        · exact List.forall_mem_nil _

omit hF in
@[grind ←] theorem conforms_callee (start : Text.Position) (name : String) (arity : Nat) (isSuper : Bool)
    (inClass base : String) : Conforms F E (callee start name arity isSuper inClass base) := by
  unfold callee
  grind

omit hF in
theorem conforms_rustParams (params : List Param) : Conforms F E (rustParams params) :=
  conforms_mapM (fun _ => conforms_bind (conforms_typeText _) fun _ _ => conforms_pure trivial) _

omit hF in
theorem conforms_resultText (returns : List Param) : Conforms F E (resultText returns) := by
  have htypes : Conforms F E (returns.mapM fun r => typeText r.type) := by
    refine conforms_mapM ?_ returns
    exact fun r => conforms_typeText r.type
  unfold resultText
  refine conforms_bind htypes fun ts _ => ?_
  grind

omit hF in
@[grind ←] theorem conforms_functionRoutine (f : Function) (impl : Option Implementation) (name : String)
    (entry : Option Signature) : Conforms F E (functionRoutine f impl name entry) := by
  refine conforms_bind (conforms_rustParams _) fun _ _ => conforms_bind (conforms_resultText _) fun _ _ => ?_
  exact conforms_read_bind (conforms_pure trivial)

omit hF in
theorem conforms_libraryRoutine (f : Function) (name : String) : Conforms F E (libraryRoutine f name) :=
  conforms_bind (conforms_functionRoutine f _ name none) fun _ _ => conforms_pure trivial

omit hF in
theorem conforms_callRoutine (f : Function) (impl : Implementation) : Conforms F E (callRoutine f impl) := by
  unfold callRoutine
  split
  · exact conforms_functionRoutine _ _ _ _
  · exact conforms_bind (conforms_helperName _ _) fun _ _ => conforms_functionRoutine _ _ _ _

omit hF in
theorem caller_callRoutine {f : Function} {impl : Implementation} {r : Routine}
    (h : Writes (callRoutine f impl) E s r s') : r.caller = E.contract.needsCaller f.toSignature := by
  unfold callRoutine at h
  split at h
  · exact caller_functionRoutine h
  · obtain ⟨name, s₁, -, h⟩ := writes_bind.mp h
    exact caller_functionRoutine h

omit hF in
theorem caller_libraryRoutine {f : Function} {name : String} {r : Routine}
    (h : Writes (libraryRoutine f name) E s r s') : r.caller = false := by
  obtain ⟨r', s₁, -, h⟩ := writes_bind.mp h
  obtain ⟨rfl, -⟩ := writes_pure.mp h
  rfl

-- Expressions.

omit hF in
@[grind ←] theorem conforms_checkKeys (e : Expr) : Conforms F E (checkKeys e) := by
  unfold checkKeys
  grind

@[grind ←] theorem conforms_isPlace (e : Expr) : Conforms F E (isPlace e) := by
  unfold isPlace
  grind

@[grind ←] theorem conforms_fieldAccess (d : FieldDecl) : Conforms F E (fieldAccess d) := by
  unfold fieldAccess
  split
  · exact conforms_pure (by nofun)
  · refine conforms_bind (conforms_fieldPlace? hF d) fun place hplace => ?_
    split
    · exact conforms_pure (hplace _ rfl)
    · exact conforms_bind (conforms_readField hF d (by nofun)) fun x hx => conforms_pure hx

omit hF in
@[grind ←] theorem conforms_member {a : Access} (ha : a.Fits F) (start : Text.Position) (name : String) :
    Conforms F E (a.member start name) := by
  unfold Access.member
  grind

@[grind ←] theorem conforms_index {a : Access} (ha : a.Fits F) (start : Text.Position) (on keyType : Ty)
    {key : Ty → Emit Rust.Expr} (hk : ∀ t, Conforms F E (key t)) : Conforms F E (a.index start on keyType key) := by
  unfold Access.index
  split
  all_goals grind

omit hF in
@[grind ←] theorem conforms_valueOf (e : Expr) {written : Emit Access} (h : Conforms F E written) :
    Conforms F E (valueOf e written) := by
  unfold valueOf
  grind

@[grind ←] theorem conforms_operandOf (e : Expr) {written : Emit Access} (h : Conforms F E written) :
    Conforms F E (operandOf e written) := by
  unfold operandOf
  grind

@[grind ←] theorem conforms_operandAs (t : Option Ty) (e : Expr) {written : Option Ty → Emit Access}
    (h : ∀ t, Conforms F E (written t)) : Conforms F E (operandAs t e written) := by
  unfold operandAs
  grind

@[grind ←] theorem conforms_numberLiteral (expected : Option Ty) (start : Text.Position) (value : Nat)
    (negative : Bool) : Conforms F E (numberLiteral expected start value negative) := by
  unfold numberLiteral
  grind

theorem conforms_call {start : Text.Position} {name : String} {args : List Expr} {isSuper : Bool} {inClass base : String}
    {t : Ty} {depth : Nat} (hsuits : Suits F E (.call start name args isSuper inClass base t))
    (hargs : ∀ impl : Implementation,
      Conforms F E (accessList (constantValue depth) (impl.params.map Param.type) args)) : Conforms F E (do
      let (f, impl) ← callee start name args.length isSuper inClass base
      let routine ← callRoutine f impl
      let xs ← accessList (constantValue depth) (impl.params.map Param.type) args
      let x ← invoke routine xs
      return Access.value (.tryOp x)) := by
  refine conforms_bind_of_writes (conforms_callee start name args.length isSuper inClass base) ?_
  rintro ⟨f, impl⟩ s s' hcallee -
  obtain ⟨hlookup, -⟩ := writes_callee hcallee
  refine conforms_bind_of_writes (conforms_callRoutine f impl) fun r s₁ s₂ hr _ => ?_
  refine conforms_bind (hargs impl) fun xs hxs => ?_
  have hcaller (hs : E.target = .soroban) (hr' : r.caller = true) : F.ident "caller" :=
    hsuits hs f hlookup (caller_callRoutine hr ▸ hr')
  exact conforms_bind (conforms_invoke hF hcaller hxs) fun x hx => conforms_pure (.tryOp hx)

theorem conforms_libraryCall {owner library : String} {sig : Signature} {written : Emit (List Rust.Expr)}
    (hargs : Conforms F E written) : Conforms F E (do
      let f ← declaredFunction owner sig
      let name ← libraryName library f
      let routine ← libraryRoutine f name
      let xs ← written
      let x ← invoke routine xs
      return Access.value (.tryOp x)) := by
  refine conforms_bind (conforms_read_bind (conforms_pure trivial)) fun f _ => ?_
  refine conforms_bind (conforms_helperName _ _) fun name _ => ?_
  refine conforms_bind_of_writes (conforms_libraryRoutine f name) fun r s s' hr _ => ?_
  refine conforms_bind hargs fun xs hxs => ?_
  have hcaller (hr' : r.caller = true) : F.ident "caller" := absurd (caller_libraryRoutine hr) (by simp [hr'])
  exact conforms_bind (conforms_invoke hF (fun _ => hcaller) hxs) fun x hx => conforms_pure (.tryOp hx)

end Target

-- Variables in scope.

theorem mem_of_lookup {name ident : String} {bs : List (String × String)} (h : bs.lookup name = some ident) :
    (name, ident) ∈ bs := by
  obtain ⟨before, after, rfl, -⟩ := List.lookup_eq_some_iff.mp h
  simp

variable {β : Type} [Fitting β]

theorem conforms_local?_bind {name : String} {f : Option String → Emit β}
    (hsome : ∀ ident, F.ident ident → Conforms F E (f (some ident))) (hnone : Conforms F E (f none)) :
    Conforms F E (local? name >>= f) := by
  intro s hs
  change (outcome (f (s.local? name)) E s).2.Fits F ∧ ∀ a s', Writes (f (s.local? name)) E s a s' → Fitting.fits F a
  cases h : s.local? name with
  | none => exact hnone s hs
  | some ident =>
      obtain ⟨scope, hscope, h⟩ := List.exists_of_findSome?_eq_some h
      exact hsome ident ((hs scope hscope).1 _ (mem_of_lookup h)) s hs

theorem conforms_ref?_bind {key : String} {f : Option String → Emit β}
    (hsome : ∀ name, F.ident name → Conforms F E (f (some name))) (hnone : Conforms F E (f none)) :
    Conforms F E (ref? key >>= f) := by
  intro s hs
  let found := s.frame.scopes.findSome? fun scope => scope.refs.lookup key
  change (outcome (f found) E s).2.Fits F ∧ ∀ a s', Writes (f found) E s a s' → Fitting.fits F a
  cases h : found with
  | none => exact hnone s hs
  | some name =>
      obtain ⟨scope, hscope, h⟩ := List.exists_of_findSome?_eq_some h
      exact hsome name ((hs scope hscope).2 _ (mem_of_lookup h)) s hs

-- Along an expression.

theorem fits_ifElse {c : Rust.Expr} (hcond : F.cond c) (hc : c.Fits F) (hx : x.Fits F) (hy : y.Fits F) :
    (Rust.Expr.ifElse "" c ⟨[], some x⟩ (some (.block ⟨[], some y⟩))).Fits F := by
  have hblock {z : Rust.Expr} (hz : z.Fits F) : Rust.Block.Fits F ⟨[], some z⟩ := .mk (by nofun) (by rintro _ ⟨⟩; exact hz)
  exact .ifElse hcond hc (hblock hx) (by rintro _ ⟨⟩; exact .block (hblock hy))

-- By induction along the expression; every case puts steps together.
theorem conforms_access (hF : Mild F E.target) {depth : Nat} (h : ∀ d, Conforms F E (constantValue depth d)) :
    (∀ expected e, e.Each (Suits F E) → Conforms F E (access (constantValue depth) expected e)) ∧
      ∀ types es, (∀ e ∈ es, e.Each (Suits F E)) → Conforms F E (accessList (constantValue depth) types es) := by
  apply access.mutual_induct
    (fun expected e => e.Each (Suits F E) → Conforms F E (access (constantValue depth) expected e))
    (fun types es => (∀ e ∈ es, e.Each (Suits F E)) → Conforms F E (accessList (constantValue depth) types es))
  all_goals intros
  all_goals rename_i hsuits
  all_goals first
    | have hchildren := (Expr.each_iff.mp hsuits).2
      have hself := (Expr.each_iff.mp hsuits).1
      simp only [Expr.children, List.forall_mem_cons] at hchildren
    | simp only [List.forall_mem_cons] at hsuits
    | skip
  all_goals simp only [access, accessList]
  case case2 b =>
    refine conforms_pure (fits_lit ?_)
    cases b <;> decide
  case case4 => exact conforms_local?_bind (fun ident hident => conforms_pure (.ident hident)) (conforms_throw _)
  case case9 hlogical hleft hright =>
    rw [if_pos hlogical]
    refine conforms_bind (conforms_operandAs hF _ _ fun t => hleft t hchildren.1) fun l hl => ?_
    refine conforms_bind (conforms_operandAs hF _ _ fun t => hright t hchildren.2.1) fun r hr => conforms_pure ?_
    refine .binary (hF.left_text _ fun hop => ?_) hl hr
    rcases hop with rfl | rfl <;> simp at hlogical
  case case10 hlogical hleft hright =>
    rw [if_neg hlogical]
    refine conforms_bind_of_writes (conforms_operandAs hF _ _ fun t => hleft t hchildren.1) fun l s s' hwl hl => ?_
    refine conforms_bind (conforms_operandAs hF _ _ fun t => hright t hchildren.2.1) fun r hr => ?_
    refine conforms_bind (conforms_applyBinary hF _ (fun hop => ?_) ?_ ?_ _ _) fun x hx => conforms_pure hx
    · obtain ⟨hl, hborrowed⟩ := hself hop _ l ⟨depth, s, s', hwl⟩
      split
      · exact hborrowed
      · exact hl
    · split
      · exact Rust.fits_borrowed hl
      · exact hl
    · split
      · exact Rust.fits_borrowed hr
      · exact hr
  case case14 hargs => exact conforms_call hF hself fun impl => hargs impl hchildren
  case case15 hargs => exact conforms_libraryCall hF (hargs hchildren)
  case case16 haddress hargs =>
    refine conforms_bind (conforms_operandAs hF _ _ fun t => haddress t hchildren.1) fun account _ => ?_
    refine conforms_ref?_bind (fun name hname => ?_) (conforms_throw _)
    refine conforms_bind (hargs hchildren.2) fun xs hxs => ?_
    exact conforms_bind (conforms_externalCall _ (.ident hname) hxs) fun x hx => conforms_pure hx
  case case20 kind =>
    refine conforms_bind (conforms_envValue hF ?_) fun x hx => conforms_pure hx
    rintro rfl
    exact hself
  case case21 hcond htrue hfalse =>
    obtain ⟨hc, ht, hf, -⟩ := hchildren
    refine conforms_bind_of_writes (conforms_operandAs hF _ _ fun t => hcond t hc) fun c s s' hw hc => ?_
    refine conforms_bind (conforms_operandAs hF _ _ fun t => htrue t ht) fun x hx => ?_
    refine conforms_bind (conforms_operandAs hF _ _ fun t => hfalse t hf) fun y hy => conforms_pure ?_
    exact fits_ifElse (hself c ⟨depth, s, s', hw⟩) hc hx hy
  case case22 helements =>
    refine conforms_bind (helements hchildren) fun xs hxs => ?_
    split
    · exact conforms_pure (hxs _ List.mem_cons_self)
    · exact conforms_pure (.tuple hxs)
  case case26 => exact conforms_pure (.ident (hF.path _ (by simp)))
  case case27 hvalues =>
    refine conforms_read_bind (conforms_bind (hvalues E hchildren) fun xs hxs => conforms_pure ?_)
    exact Rust.fits_structLit_zip (fun _ => rfl) hxs
  all_goals grind

theorem conforms_constantValue (hF : Mild F E.target)
    (hconstants : ∀ r c v, E.package.constant? r = some c → c.value = some v → v.Each (Suits F E)) (depth : Nat)
    (d : ConstantDecl) : Conforms F E (constantValue depth d) := by
  induction depth generalizing d with
  | zero => exact conforms_throw _
  | succ depth ih =>
      refine conforms_read_bind ?_
      split
      · rename_i v hv
        obtain ⟨c, hc, hv⟩ := Option.bind_eq_some_iff.mp hv
        exact conforms_valueOf v ((conforms_access hF ih).1 _ v (hconstants _ c v hc hv))
      · exact conforms_throw _

-- An environment in which the constants suit a form.
structure Lawful (F : Rust.Form) (E : Env) : Prop where
  mild : Mild F E.target
  constants : ∀ r c v, E.package.constant? r = some c → c.value = some v → v.Each (Suits F E)

section Operands

variable (hE : Lawful F E)
include hE

theorem conforms_accessOf (expected : Option Ty) {e : Expr} (he : e.Each (Suits F E)) :
    Conforms F E (accessOf expected e) :=
  conforms_read_bind ((conforms_access hE.mild (conforms_constantValue hE.mild hE.constants _)).1 expected e he)

theorem conforms_expr {e : Expr} (he : e.Each (Suits F E)) : Conforms F E (expr e) :=
  conforms_valueOf e (conforms_accessOf hE none he)

theorem conforms_exprAs (t : Ty) {e : Expr} (he : e.Each (Suits F E)) : Conforms F E (exprAs t e) :=
  conforms_operandAs hE.mild (some t) e fun t => conforms_accessOf hE t he

theorem conforms_exprsAs (types : List Ty) {es : List Expr} (hes : ∀ e ∈ es, e.Each (Suits F E)) :
    Conforms F E (exprsAs types es) := by
  induction es generalizing types with
  | nil => exact conforms_pure (by nofun)
  | cons e es ih =>
      obtain ⟨he, hes⟩ := List.forall_mem_cons.mp hes
      refine conforms_bind (conforms_exprAs hE _ he) fun x hx => ?_
      exact conforms_bind (ih _ hes) fun xs hxs => conforms_pure (List.forall_mem_cons.mpr ⟨hx, hxs⟩)

end Operands

end RustContracts.Emit
