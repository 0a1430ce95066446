import RustContracts.Proofs.Emit.Links
import RustContracts.Proofs.Emit.Overload

-- Every step that writes an expression calls by the conventions.
namespace RustContracts.Emit

open Program
open Rust (AllChecked FieldsChecked OptionChecked CodeChecked)
open Solidity (BinaryOp UnaryOp)

variable {E : Env} {K : List (String × String)} {here : Bool} {H : Prop} {s s' : State}
variable {x y : Rust.Expr} {xs : List Rust.Expr}

@[grind ←] theorem links_typeText (t : Ty) : Links E K here H (typeText t) := by
  unfold typeText
  grind

@[grind ←] theorem links_isCopy (t : Ty) : Links E K here H (isCopy t) := by
  unfold isCopy
  grind

@[grind ←] theorem links_intLiteral (value : Nat) (negative signed : Bool) (bits : Nat) :
    Links E K here H (intLiteral value negative signed bits) := by
  unfold intLiteral
  grind

@[grind ←] theorem links_stringLiteral (text : String) : Links E K here H (stringLiteral text) := by
  unfold stringLiteral
  grind

@[grind ←] theorem links_zero (t : Ty) : Links E K here H (zero t) := by
  unfold zero
  grind

@[grind ←] theorem links_intBound (signed : Bool) (bits : Nat) (isMax : Bool) :
    Links E K here H (intBound signed bits isMax) := by
  unfold intBound
  grind

@[grind ←] theorem links_applyBinary (op : BinaryOp) (hx : H → x.Checked (Site E K here))
    (hy : H → y.Checked (Site E K here)) (t u : Ty) : Links E K here H (applyBinary op x y t u) := by
  unfold applyBinary
  grind

@[grind ←] theorem links_applyUnary (op : UnaryOp) (hx : H → x.Checked (Site E K here)) (t : Ty) :
    Links E K here H (applyUnary op x t) := by
  unfold applyUnary
  grind

@[grind ←] theorem links_convert (hx : H → x.Checked (Site E K here)) (source result : Ty) :
    Links E K here H (convert x source result) := by
  unfold convert
  grind

@[grind .] theorem links_elementsArePlaces : Links E K here H elementsArePlaces := by
  unfold elementsArePlaces
  grind

@[grind ←] theorem links_arrayIndex (hx : H → x.Checked (Site E K here)) (hy : H → y.Checked (Site E K here))
    (t : Ty) : Links E K here H (arrayIndex x y t) := by
  unfold arrayIndex
  grind

@[grind ←] theorem links_arraySet (hx : H → x.Checked (Site E K here)) (hy : H → y.Checked (Site E K here))
    (t : Ty) {z : Rust.Expr} (hz : H → z.Checked (Site E K here)) : Links E K here H (arraySet x y t z) := by
  unfold arraySet
  grind

@[grind ←] theorem links_arrayLength (hx : H → x.Checked (Site E K here)) :
    Links E K here H (arrayLength x) := by
  unfold arrayLength
  grind

@[grind ←] theorem links_arrayPush (hx : H → x.Checked (Site E K here)) (hy : H → y.Checked (Site E K here)) :
    Links E K here H (arrayPush x y) := by
  have hargs (hH : H) : AllChecked (Site E K here) [y] := ⟨hy hH, trivial⟩
  unfold arrayPush
  grind

@[grind ←] theorem links_arrayPop (hx : H → x.Checked (Site E K here)) : Links E K here H (arrayPop x) := by
  unfold arrayPop
  grind

@[grind ←] theorem links_newArray (elem : Ty) (hx : H → x.Checked (Site E K here)) (t : Ty) :
    Links E K here H (newArray elem x t) := by
  unfold newArray
  grind

@[grind ←] theorem links_arrayLiteral (length : Int) (hxs : H → AllChecked (Site E K here) xs) :
    Links E K here H (arrayLiteral length xs) := by
  unfold arrayLiteral
  grind

@[grind ←] theorem links_envValue (kind : EnvKind) : Links E K here H (envValue kind) := by
  unfold envValue
  grind

@[grind ←] theorem links_fieldPlace? (d : FieldDecl) : Links E K here H (fieldPlace? d) := by
  unfold fieldPlace?
  grind

@[grind ←] theorem links_readField (d : FieldDecl) (hxs : H → AllChecked (Site E K here) xs) :
    Links E K here H (readField d xs) := by
  unfold readField
  grind

@[grind ←] theorem links_writeField (d : FieldDecl) (hxs : H → AllChecked (Site E K here) xs)
    (hx : H → x.Checked (Site E K here)) : Links E K here H (writeField d xs x) := by
  unfold writeField
  grind

@[grind ←] theorem links_emitEvent (ev : EventDecl) (hxs : H → AllChecked (Site E K here) xs) :
    Links E K here H (emitEvent ev xs) := by
  unfold emitEvent
  grind

@[grind ←] theorem links_errorValue (entry : ErrorEntry) (hxs : H → AllChecked (Site E K here) xs) :
    Links E K here H (errorValue entry xs) := by
  unfold errorValue
  grind

@[grind ←] theorem links_externalRef (interface : String) (hx : H → x.Checked (Site E K here)) :
    Links E K here H (externalRef interface x) := by
  have hclient (hH : H) (path : String) : (Soroban.hostCall path [Soroban.borrow x]).Checked (Site E K here) :=
    Soroban.checked_hostCall path ⟨Soroban.checked_borrow (hx hH), trivial⟩
  unfold externalRef Ink.externalRef Soroban.externalRef
  grind

@[grind ←] theorem links_externalCall (method : Signature) (hx : H → x.Checked (Site E K here))
    (hxs : H → AllChecked (Site E K here) xs) : Links E K here H (externalCall method x xs) := by
  unfold externalCall Ink.externalCall
  grind

-- Calls.

theorem checked_callText {Q : Rust.Expr → Prop} (target : Target) (here : Bool) (v : Convention)
    (hxs : AllChecked Q xs) : (callText target here v xs).Checked Q := by
  cases target with
  | ink version => exact ⟨trivial, hxs⟩
  | soroban =>
      refine ⟨trivial, ?_⟩
      rw [Rust.allChecked_append]
      refine ⟨⟨?_, ?_⟩, hxs⟩
      · grind
      · grind

-- A call is written by the convention of the routine that is called.
theorem writes_invoke {r : Routine} (types : List Ty) (h : Writes (invoke r xs) E s x s') :
    x = callText E.target s.frame.exposed ⟨r.name, r.isExposed, r.caller, types⟩ xs ∧ s' = s := by
  unfold invoke at h
  rw [writes_of_target] at h
  cases ht : E.target with
  | ink v =>
      rw [ht] at h
      obtain ⟨rfl, rfl⟩ := writes_pure.mp h
      exact ⟨rfl, rfl⟩
  | soroban =>
      rw [ht] at h
      cases h
      exact ⟨rfl, rfl⟩

@[grind ←] theorem links_invoke (r : Routine) (hxs : H → AllChecked (Site E K here) xs) :
    Links E K here H (invoke r xs) := by
  refine links_bind links_target fun t => ?_
  cases t with
  | ink v => exact links_pure fun ⟨hH, _⟩ => ⟨trivial, hxs hH⟩
  | soroban =>
      refine links_bind links_frame fun fr => links_pure fun ⟨⟨hH, _⟩, _⟩ => ?_
      exact checked_callText .soroban fr.exposed ⟨r.name, r.isExposed, r.caller, []⟩ (hxs hH)

-- A call whose result is checked.
theorem links_checkedCall {r : Routine} {args : List Expr} {types : List Ty}
    (hnames : H → Names E K args ⟨r.name, r.isExposed, r.caller, types⟩)
    (hoperands : H → Operands E args xs types) (hxs : H → AllChecked (Site E K here) xs) :
    Links E K here H (do return Access.value (.tryOp (← invoke r xs))) := by
  refine links_bind_of_writes (links_invoke r hxs) fun x s s' hs hw => links_pure fun ⟨hH, _, hx⟩ => ?_
  obtain ⟨rfl, -⟩ := writes_invoke types hw
  exact ⟨⟨args, _, xs, hnames hH, by rw [hs], hoperands hH⟩, hx⟩

@[grind ←] theorem links_callee (start : Text.Position) (name : String) (arity : Nat) (isSuper : Bool)
    (inClass base : String) : Links E K here H (callee start name arity isSuper inClass base) := by
  unfold callee
  grind

@[grind ←] theorem links_declaredFunction (owner : String) (s : Signature) :
    Links E K here H (declaredFunction owner s) := links_read_bind (links_pure fun _ => trivial)

theorem links_rustParams (params : List Param) : Links E K here H (rustParams params) :=
  links_mapM (fun _ => links_bind (links_typeText _) fun _ => links_pure fun _ => trivial) _

theorem links_resultText (returns : List Param) : Links E K here H (resultText returns) := by
  have htypes : Links E K here H (returns.mapM fun r => typeText r.type) := by
    refine links_mapM ?_ returns
    exact fun r => links_typeText r.type
  unfold resultText
  refine links_bind htypes fun ts => ?_
  grind

@[grind ←] theorem links_functionRoutine (f : Function) (impl : Option Implementation) (name : String)
    (entry : Option Signature) : Links E K here H (functionRoutine f impl name entry) := by
  refine links_bind (links_rustParams _) fun _ => links_bind (links_resultText _) fun _ => ?_
  exact links_read_bind (links_pure fun _ => trivial)

@[grind ←] theorem links_libraryRoutine (f : Function) (name : String) :
    Links E K here H (libraryRoutine f name) :=
  links_bind (links_functionRoutine f _ name none) fun _ => links_pure fun _ => trivial

-- Helpers.

theorem outcome_helperName (key : String) (h : Helper) : outcome (helperName key h) E s =
    match s.helperNames.lookup key with
    | some name => (.ok name, s)
    | none =>
      (.ok h.name, { s with queue := s.queue ++ [h], helperNames := (key, h.name) :: s.helperNames }) := by
  unfold helperName
  rw [outcome_bind, outcome_get]
  dsimp only
  cases s.helperNames.lookup key with
  | some name => rfl
  | none => rfl

theorem links_helperName {key : String} {h : Helper} (hasked : Asked E key h) :
    Links E K here H (helperName key h) := by
  intro s hs
  rw [outcome_helperName]
  split
  · exact ⟨hs, .refl s, fun _ _ _ _ _ => trivial⟩
  · next hnone =>
      have hfresh : key ∉ s.helperNames.map Prod.fst := by
        intro hkey
        obtain ⟨⟨k, name⟩, hmem, rfl⟩ := List.mem_map.mp hkey
        exact absurd (List.lookup_eq_none_iff.mp hnone (k, name) hmem) (by simp)
      refine ⟨hs, ⟨[(key, h)], ?_, ?_, ?_, ?_, ?_⟩, fun _ _ _ _ _ => trivial⟩
      · rfl
      · rfl
      · exact List.nodup_singleton key
      · simpa using hfresh
      · simpa using hasked

theorem mem_of_helperName {key name : String} {h : Helper} (hw : Writes (helperName key h) E s name s') :
    (key, name) ∈ s'.helperNames := by
  rw [Writes, outcome_helperName] at hw
  split at hw
  · next found hsome =>
      cases hw
      obtain ⟨before, after, heq, -⟩ := List.lookup_eq_some_iff.mp hsome
      simp [heq]
  · cases hw
    exact List.mem_cons_self

theorem links_callRoutine {f : Function} {impl : Implementation} (hf : f ∈ E.contract.dispatch)
    (himpl : impl ∈ f.implementations) : Links E K here H (callRoutine f impl) := by
  unfold callRoutine
  split
  · exact links_functionRoutine _ _ _ _
  · next hother =>
      have hasked := Asked.implementation hf himpl (Bool.eq_false_iff.mpr hother)
      exact links_bind (links_helperName hasked) fun _ => links_functionRoutine _ _ _ _

theorem Links.growth {α : Type} [Calling α] {act : Emit α} {a : α} (h : ∀ K here, Links E K here True act)
    (hw : Writes act E s a s') : Growth E s s' := by
  have := (h [] s.frame.exposed s rfl).2.1
  rwa [hw] at this

theorem caller_functionRoutine {f : Function} {impl : Option Implementation} {name : String}
    {entry : Option Signature} {r : Routine} (h : Writes (functionRoutine f impl name entry) E s r s') :
    r.caller = E.contract.needsCaller f.toSignature := by
  unfold functionRoutine at h
  obtain ⟨params, s₁, -, h⟩ := writes_bind.mp h
  obtain ⟨result, s₂, -, h⟩ := writes_bind.mp h
  obtain ⟨env, s₃, henv, h⟩ := writes_bind.mp h
  obtain ⟨rfl, -⟩ := writes_read.mp henv
  obtain ⟨rfl, -⟩ := writes_pure.mp h
  rfl

theorem names_callRoutine {start : Text.Position} {name : String} {args : List Expr} {isSuper : Bool}
    {inClass base : String} {t : Ty} {f : Function} {impl : Implementation} {r : Routine}
    (hcall : E.package.Holds (.call start name args isSuper inClass base t))
    (hlookup : E.contract.lookup? name args.length = some f)
    (hcalled : calledImplementation? E.package f isSuper inClass base = some impl)
    (hw : Writes (callRoutine f impl) E s r s') (hK : s'.helperNames ⊆ K) :
    Names E K args ⟨r.name, r.isExposed, r.caller, impl.params.map Param.type⟩ := by
  unfold callRoutine at hw
  split at hw
  · next hprimary =>
      obtain ⟨hname, hentry, -⟩ := writes_functionRoutine hw
      have hexposed : r.isExposed = isMessage f.toSignature := by
        rw [Routine.isExposed, hentry]
        split <;> simp_all
      rw [hname, hexposed, caller_functionRoutine hw]
      exact .entry hcall hlookup hcalled hprimary
  · next hother =>
      obtain ⟨helper, s₁, hhelper, hw⟩ := writes_bind.mp hw
      obtain ⟨hrname, hentry, -⟩ := writes_functionRoutine hw
      have hgrowth : Growth E s₁ s' := Links.growth (fun _ _ => links_functionRoutine _ _ _ _) hw
      rw [hrname, Routine.isExposed, hentry, caller_functionRoutine hw]
      exact .implementation hcall hlookup hcalled (Bool.eq_false_iff.mpr hother)
        (hK (hgrowth.subset (mem_of_helperName hhelper)))

theorem names_libraryRoutine {start : Text.Position} {library owner name : String} {s : Signature}
    {args : List Expr} {r : Routine} {s₁ s₂ : State}
    (hcall : E.package.Holds (.libraryCall start library owner s args))
    (hname : (libraryKey library (functionIn E.package owner s), name) ∈ K)
    (hw : Writes (libraryRoutine (functionIn E.package owner s) name) E s₁ r s₂) :
    Names E K args ⟨r.name, r.isExposed, r.caller, s.params.map Param.type⟩ := by
  unfold libraryRoutine at hw
  obtain ⟨r', s₃, hr, hw⟩ := writes_bind.mp hw
  obtain ⟨rfl, -⟩ := writes_pure.mp hw
  obtain ⟨hrname, hentry, -⟩ := writes_functionRoutine hr
  rw [hrname, Routine.isExposed, hentry]
  exact .library hcall hname

-- Expressions.

@[grind ←] theorem links_isPlace (e : Expr) : Links E K here H (isPlace e) := by
  unfold isPlace
  grind

@[grind ←] theorem links_checkKeys (e : Expr) : Links E K here H (checkKeys e) := by
  unfold checkKeys
  grind

@[grind ←] theorem links_fieldAccess (d : FieldDecl) : Links E K here H (fieldAccess d) := by
  unfold fieldAccess
  grind

@[grind ←] theorem links_member {a : Access} (ha : H → a.Checked (Site E K here)) (start : Text.Position)
    (name : String) : Links E K here H (a.member start name) := by
  unfold Access.member
  grind

@[grind ←] theorem links_index {a : Access} (ha : H → a.Checked (Site E K here)) (start : Text.Position)
    (on keyType : Ty) {key : Ty → Emit Rust.Expr} (hk : ∀ H t, Links E K here H (key t)) :
    Links E K here H (a.index start on keyType key) := by
  unfold Access.index
  split
  all_goals grind

@[grind ←] theorem links_valueOf (e : Expr) {written : Emit Access} (h : ∀ H, Links E K here H written) :
    Links E K here H (valueOf e written) := by
  unfold valueOf
  grind

@[grind ←] theorem links_operandOf (e : Expr) {written : Emit Access} (h : ∀ H, Links E K here H written) :
    Links E K here H (operandOf e written) := by
  unfold operandOf
  grind

@[grind ←] theorem links_operandAs (t : Option Ty) (e : Expr) {written : Option Ty → Emit Access}
    (h : ∀ H t, Links E K here H (written t)) : Links E K here H (operandAs t e written) := by
  unfold operandAs
  grind

@[grind ←] theorem links_numberLiteral (expected : Option Ty) (start : Text.Position) (value : Nat)
    (negative : Bool) : Links E K here H (numberLiteral expected start value negative) := by
  unfold numberLiteral
  grind

-- The arguments of a call, one for each type.
theorem operands_of_accessList {depth : Nat} {types : List Ty} {es : List Expr}
    (hlength : types.length = es.length) (hw : Writes (accessList (constantValue depth) types es) E s xs s') :
    Operands E es xs types := by
  induction es generalizing types s s' xs with
  | nil =>
      obtain rfl := List.length_eq_zero_iff.mp hlength
      rw [accessList] at hw
      obtain ⟨rfl, -⟩ := writes_pure.mp hw
      exact .nil
  | cons e es ih =>
      cases types with
      | nil => cases hlength
      | cons t types =>
          rw [accessList] at hw
          obtain ⟨x, s₁, hx, hw⟩ := writes_bind.mp hw
          obtain ⟨xs, s₂, hxs, hw⟩ := writes_bind.mp hw
          obtain ⟨rfl, -⟩ := writes_pure.mp hw
          exact .cons ⟨depth, s, s₁, hx⟩ (ih (by simpa using hlength) hxs)

theorem links_functionCall (hE : Sourced E) {depth : Nat} {args : List Expr} {start : Text.Position} {name : String}
    {isSuper : Bool} {inClass base : String} {t : Ty}
    (hargs : ∀ (impl : Implementation) H,
      Links E K here H (accessList (constantValue depth) (impl.params.map Param.type) args))
    (hcall : E.package.Holds (.call start name args isSuper inClass base t)) : Links E K here H (do
      let (f, impl) ← callee start name args.length isSuper inClass base
      let routine ← callRoutine f impl
      let xs ← accessList (constantValue depth) (impl.params.map Param.type) args
      let x ← invoke routine xs
      return Access.value (.tryOp x)) := by
  refine links_bind_of_writes (links_callee start name args.length isSuper inClass base) ?_
  rintro ⟨f, impl⟩ s s₁ - hcallee
  obtain ⟨hlookup, hcalled⟩ := writes_callee hcallee
  have hf : f ∈ E.contract.dispatch := List.mem_of_find?_eq_some hlookup
  have himpl := (mem_of_calledImplementation? hcalled).1
  have hkey : f.key = functionKey name args.length := by simpa using List.find?_some hlookup
  have hlength : (impl.params.map Param.type).length = args.length := by
    exact (List.length_map _).trans ((hE.entries f hf impl himpl).2.trans (functionKey_inj hkey).2)
  refine links_bind_of_writes (links_callRoutine hf himpl) fun r s₂ s₃ _ hr => ?_
  refine links_bind_of_writes (hargs _ _) fun xs s₄ s₅ _ hxs => ?_
  refine links_checkedCall (fun h => ?_) (fun _ => operands_of_accessList hlength hxs) fun h => h.2.2
  exact names_callRoutine hcall hlookup hcalled hr h.1.2.1

theorem links_libraryCall (hE : Sourced E) {depth : Nat} {args : List Expr} {start : Text.Position}
    {library owner : String} {s : Signature}
    (hargs : ∀ H, Links E K here H (accessList (constantValue depth) (s.params.map Param.type) args))
    (hcall : E.package.Holds (.libraryCall start library owner s args)) : Links E K here H (do
      let f ← declaredFunction owner s
      let name ← libraryName library f
      let routine ← libraryRoutine f name
      let xs ← accessList (constantValue depth) (s.params.map Param.type) args
      let x ← invoke routine xs
      return Access.value (.tryOp x)) := by
  have hlength : (s.params.map Param.type).length = args.length := by
    rw [List.length_map, (hE.libraries _ _ _ _ _ hcall).params_length]
  refine links_bind_of_writes (links_declaredFunction owner s) fun f s₁ s₂ _ hf => ?_
  obtain rfl : functionIn E.package owner s = f := by
    cases hf
    rfl
  refine links_bind_of_writes (links_helperName (.library hcall)) fun name s₃ s₄ _ hname => ?_
  refine links_bind_of_writes (links_libraryRoutine _ name) fun r s₅ s₆ _ hr => ?_
  refine links_bind_of_writes (hargs _) fun xs s₇ s₈ _ hxs => ?_
  refine links_checkedCall (fun h => ?_) (fun _ => operands_of_accessList hlength hxs) fun h => h.2.2
  exact names_libraryRoutine hcall (h.1.1.2.1 (mem_of_helperName hname)) hr

-- By induction along the expression; every case puts steps together.
theorem links_access (hE : Sourced E) {depth : Nat} (h : ∀ H d, Links E K here H (constantValue depth d)) :
    (∀ expected e, e.From E.package → ∀ H, Links E K here H (access (constantValue depth) expected e)) ∧
      ∀ types es, (∀ e ∈ es, e.From E.package) → ∀ H, Links E K here H (accessList (constantValue depth) types es) := by
  apply access.mutual_induct
    (fun expected e => e.From E.package → ∀ H, Links E K here H (access (constantValue depth) expected e))
    (fun types es => (∀ e ∈ es, e.From E.package) → ∀ H, Links E K here H (accessList (constantValue depth) types es))
  all_goals intros
  all_goals rename_i hfrom H
  all_goals first
    | have hchildren := Expr.From.children hfrom
      simp only [Expr.children, List.forall_mem_cons] at hchildren
    | simp only [List.forall_mem_cons] at hfrom
    | skip
  all_goals simp only [access, accessList]
  case case14 hargs =>
    have hcall := hfrom _ (mem_subexprs.mpr (.inl rfl)) rfl
    exact links_functionCall hE (fun impl => hargs impl hchildren) hcall
  case case15 hargs =>
    have hcall := hfrom _ (mem_subexprs.mpr (.inl rfl)) rfl
    exact links_libraryCall hE (hargs hchildren) hcall
  case case16 haddress hargs =>
    refine links_bind (links_operandAs _ _ fun H t => haddress t hchildren.1 H) fun account => ?_
    refine links_bind (links_ref? _) fun found => ?_
    cases found with
    | none => exact links_throw _
    | some name =>
        refine links_bind (hargs hchildren.2 _) fun xs => ?_
        refine links_bind (links_externalCall _ (fun _ => trivial) fun h => h.2) fun x => links_pure fun h => h.2
  case case21 hcond htrue hfalse =>
    obtain ⟨hc, ht, hf, -⟩ := hchildren
    refine links_bind (links_operandAs _ _ fun H t => hcond t hc H) fun c => ?_
    refine links_bind (links_operandAs _ _ fun H t => htrue t ht H) fun x => ?_
    refine links_bind (links_operandAs _ _ fun H t => hfalse t hf H) fun y => links_pure ?_
    rintro ⟨⟨⟨-, hc⟩, hx⟩, hy⟩
    exact ⟨fun h => absurd rfl h, hc, ⟨trivial, hx⟩, trivial, hy⟩
  case case27 hvalues =>
    refine links_read_bind (links_bind (hvalues E hchildren _) fun xs => links_pure fun h => ?_)
    exact ⟨Rust.fieldsChecked_zip (fun _ => rfl) h.2, trivial⟩
  all_goals grind

theorem links_constantValue (hE : Sourced E) (depth : Nat) (d : ConstantDecl) :
    Links E K here H (constantValue depth d) := by
  induction depth generalizing d H with
  | zero => exact links_throw _
  | succ depth ih =>
      refine links_read_bind ?_
      split
      · rename_i v hv
        obtain ⟨c, hc, hv⟩ := Option.bind_eq_some_iff.mp hv
        exact links_valueOf v ((links_access hE fun _ d => ih d).1 _ v (hE.constants _ c v hc hv))
      · exact links_throw _

section Operands

variable (hE : Sourced E)
include hE

theorem links_accessOf (expected : Option Ty) {e : Expr} (he : e.From E.package) :
    Links E K here H (accessOf expected e) :=
  links_read_bind ((links_access hE fun _ => links_constantValue hE _).1 expected e he H)

theorem links_expr {e : Expr} (he : e.From E.package) : Links E K here H (expr e) :=
  links_valueOf e fun _ => links_accessOf hE none he

theorem links_exprAs (t : Ty) {e : Expr} (he : e.From E.package) : Links E K here H (exprAs t e) :=
  links_operandAs (some t) e fun _ t => links_accessOf hE t he

theorem links_exprsAs (types : List Ty) {es : List Expr} (hes : ∀ e ∈ es, e.From E.package) :
    Links E K here H (exprsAs types es) := by
  induction es generalizing types H with
  | nil => exact links_pure fun _ => trivial
  | cons e es ih =>
      obtain ⟨he, hes⟩ := List.forall_mem_cons.mp hes
      refine links_bind (links_exprAs hE _ he) fun x => ?_
      exact links_bind (ih _ hes) fun xs => links_pure fun h => ⟨h.1.2, h.2⟩

end Operands

end RustContracts.Emit
