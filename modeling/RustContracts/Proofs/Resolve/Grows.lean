import RustContracts.Proofs.Resolve.Steps

-- What code is seen to use only grows while it is resolved: reading the caller and calls that are noted stay noted.
-- Variables come into scope where they are declared, and only there.
namespace RustContracts.Resolve

open Program

-- `declares` tells whether variables may have come into scope.
structure Below (declares : Bool) (g g' : Gathered) : Prop where
  usesCaller : g.usesCaller = true → g'.usesCaller = true
  calls : g.calls ⊆ g'.calls
  locals : g.locals ⊆ g'.locals
  same : declares = false → g'.locals = g.locals

variable {declares : Bool}

theorem Below.of_same {g g' : Gathered} (hcaller : g.usesCaller = true → g'.usesCaller = true) (hcalls : g.calls ⊆ g'.calls)
    (hlocals : g'.locals = g.locals) : Below declares g g' :=
  ⟨hcaller, hcalls, hlocals ▸ List.Subset.refl _, fun _ => hlocals⟩

theorem Below.refl (g : Gathered) : Below declares g g := .of_same id (List.Subset.refl _) rfl

theorem Below.trans {g g' g'' : Gathered} (h : Below declares g g') (h' : Below declares g' g'') :
    Below declares g g'' where
  usesCaller := h'.usesCaller ∘ h.usesCaller
  calls := List.Subset.trans h.calls h'.calls
  locals := List.Subset.trans h.locals h'.locals
  same hnone := (h'.same hnone).trans (h.same hnone)

-- A step that forgets nothing of what was noted before.
def Grows {α : Type} (declares : Bool) (env : Env) (act : Resolving α) : Prop :=
  ∀ g a g', Resolves act env g a g' → Below declares g g'

variable {α β : Type} {env : Env}

@[grind ←] theorem grows_pure (a : α) : Grows declares env (pure a) := by
  intro g b g' h
  obtain ⟨-, rfl⟩ := resolves_pure.mp h
  exact .refl g

@[grind ←] theorem grows_throw (d : Diagnostic) : Grows declares env (throw d : Resolving α) :=
  fun _ _ _ h => absurd h not_resolves_throw

@[grind ←] theorem grows_bind {x : Resolving α} {f : α → Resolving β} (hx : Grows declares env x)
    (hf : ∀ a, Grows declares env (f a)) : Grows declares env (x >>= f) := by
  intro g b g' h
  obtain ⟨a, g₁, hx', hf'⟩ := resolves_bind.mp h
  exact (hx g a g₁ hx').trans (hf a g₁ b g' hf')

@[grind .] theorem grows_read : Grows declares env (read : Resolving Env) := by
  intro g e g' h
  obtain ⟨-, rfl⟩ := resolves_read.mp h
  exact .refl g

@[grind .] theorem grows_get : Grows declares env (get : Resolving Gathered) := by
  intro g s g' h
  cases h
  exact .refl g

theorem grows_modify {f : Gathered → Gathered} (hf : ∀ g, Below declares g (f g)) :
    Grows declares env (modify f : Resolving Unit) := by
  intro g u g' h
  cases h
  exact hf g

@[grind ←] theorem grows_tryCatch {x : Resolving α} {f : Diagnostic → Resolving α} (hx : Grows declares env x)
    (hf : ∀ d, Grows declares env (f d)) : Grows declares env (tryCatch x f) := by
  intro g a g' h
  change tryCatch ((x.run env).run g) (fun d => ((f d).run env).run g) = .ok (a, g') at h
  cases hr : (x.run env).run g with
  | error d =>
      rw [hr] at h
      exact hf d g a g' h
  | ok r =>
      rw [hr] at h
      cases h
      exact hx g a g' hr

theorem grows_mapM {γ : Type} {f : γ → Resolving α} {xs : List γ} (hf : ∀ x ∈ xs, Grows declares env (f x)) :
    Grows declares env (xs.mapM f) := by
  induction xs with
  | nil => exact grows_pure []
  | cons x xs ih =>
      obtain ⟨hx, hxs⟩ := List.forall_mem_cons.mp hf
      rw [List.mapM_cons]
      exact grows_bind hx fun _ => grows_bind (ih hxs) fun _ => grows_pure _

@[grind ←] theorem grows_option_mapM {γ : Type} {f : γ → Resolving α} (o : Option γ) (hf : ∀ x ∈ o, Grows declares env (f x)) :
    Grows declares env (o.mapM f) := by
  cases o with
  | none => exact grows_pure none
  | some x => exact grows_bind (hf x rfl) fun _ => grows_pure _

-- Variables in scope come and go.

@[grind .] theorem grows_chain : Grows declares env chain := by grind [chain]

@[grind ←] theorem grows_local? (name : String) : Grows declares env (local? name) := by grind [local?]

@[grind ←] theorem grows_declareLocal (p : Param) : Grows true env (declareLocal p) :=
  grows_modify fun _ => ⟨id, List.Subset.refl _, List.subset_cons_self _ _, by nofun⟩

-- What is declared inside goes out of scope.
theorem resolves_inScope {act : Resolving α} {g g' : Gathered} {a : α} (h : Resolves (inScope act) env g a g') :
    ∃ inner, Resolves act env g a inner ∧ g' = { inner with locals := g.locals } := by
  obtain ⟨before, g₁, hget, h⟩ := resolves_bind.mp h
  obtain ⟨result, inner, hact, h⟩ := resolves_bind.mp h
  obtain ⟨u, g₃, hrestore, h⟩ := resolves_bind.mp h
  obtain ⟨rfl, rfl⟩ := resolves_pure.mp h
  cases hget
  cases hrestore
  exact ⟨inner, hact, rfl⟩

@[grind ←] theorem grows_inScope {act : Resolving α} (hact : Grows true env act) :
    Grows declares env (inScope act) := by
  intro g a g' h
  obtain ⟨inner, hinner, rfl⟩ := resolves_inScope h
  have hbelow := hact _ _ _ hinner
  exact .of_same hbelow.usesCaller hbelow.calls rfl

@[grind ←] theorem grows_registerMessage (message : String) : Grows declares env (registerMessage message) :=
  grows_bind grows_get fun _ =>
    grows_bind (grows_modify fun _ => .of_same id (List.Subset.refl _) rfl) fun _ => grows_pure _

-- Terms.

@[grind ←] theorem grows_toExpr (t : Term) : Grows declares env t.toExpr := by
  unfold Term.toExpr
  grind

@[grind ←] theorem grows_useCaller (start : Text.Position) : Grows declares env (useCaller start) := by
  have hnote : Grows declares env (modify fun g => { g with usesCaller := true } : Resolving Unit) :=
    grows_modify fun _ => .of_same (fun _ => rfl) (List.Subset.refl _) rfl
  unfold useCaller
  grind

@[grind ←] theorem grows_resolveName (name : String) (start : Text.Position) : Grows declares env (resolveName name start) := by
  refine grows_bind (grows_local? name) fun found => ?_
  split
  · exact grows_pure _
  · split
    · exact grows_pure _
    · exact grows_pure _
    · exact grows_pure _
    · exact grows_pure _
    · exact grows_pure _
    · exact grows_pure _
    · exact grows_pure _
    · exact grows_pure _
    · refine grows_bind grows_read fun e => grows_bind grows_chain fun classes => ?_
      dsimp only
      split
      · exact grows_pure _
      · split
        · exact grows_pure _
        · split
          · exact grows_pure _
          · grind

@[grind ←] theorem grows_attachedLibrary? (t : Ty) (name : String) : Grows declares env (attachedLibrary? t name) := by
  unfold attachedLibrary?
  grind

@[grind ←] theorem grows_valueMember (x : Expr) (name : String) (start : Text.Position) :
    Grows declares env (valueMember x name start) := by
  refine grows_bind grows_read fun e => ?_
  split
  · grind
  · refine grows_bind (grows_attachedLibrary? _ _) fun lib => ?_
    split
    · exact grows_pure _
    · dsimp only
      split
      · grind
      · split
        · split
          · exact grows_pure _
          · exact grows_throw _
        · exact grows_throw _
      · exact grows_throw _
      · exact grows_throw _
      · exact grows_throw _

@[grind ←] theorem grows_spaceMember (space name : String) (start : Text.Position) :
    Grows declares env (spaceMember space name start) := by
  unfold spaceMember
  grind

@[grind ←] theorem grows_contractMember (c : ContractDecl) (name : String) (start : Text.Position) :
    Grows declares env (contractMember c name start) := by
  unfold contractMember
  grind

@[grind ←] theorem grows_member (t : Term) (name : String) (start : Text.Position) :
    Grows declares env (t.member name start) := by
  unfold Term.member
  grind

@[grind ←] theorem grows_elementAt (x key : Expr) (start : Text.Position) :
    Grows declares env (Term.elementAt x key start) := by
  unfold Term.elementAt
  grind

-- Calls.

structure CallArgs.Grow (declares : Bool) (env : Env) (c : CallArgs) : Prop where
  positional : ∀ x ∈ c.positional, Grows declares env x
  named : ∀ x ∈ c.named, Grows declares env x.2.2

theorem grows_place (names : List String) (filled : List (Option Expr))
    {named : List (Text.Position × String × Resolving Expr)} (hnamed : ∀ x ∈ named, Grows declares env x.2.2) :
    Grows declares env (CallArgs.place names filled named) := by
  induction named generalizing filled with
  | nil => exact grows_pure _
  | cons arg named ih =>
      obtain ⟨start, name, value⟩ := arg
      obtain ⟨hvalue, hnamed⟩ := List.forall_mem_cons.mp hnamed
      rw [CallArgs.place]
      grind

section Calls

variable {c : CallArgs} (hc : c.Grow declares env)
include hc

@[grind ←] theorem grows_exactly (n : Nat) : Grows declares env (c.exactly n) := by
  have hpositional : Grows declares env (c.positional.mapM id) := grows_mapM hc.positional
  unfold CallArgs.exactly
  grind

@[grind ←] theorem grows_inOrder (names : List String) : Grows declares env (c.inOrder names) := by
  have hpositional : Grows declares env (c.positional.mapM id) := grows_mapM hc.positional
  have hnamed : Grows declares env (CallArgs.place names (names.map fun _ => none) c.named) := grows_place names _ hc.named
  unfold CallArgs.inOrder
  grind

@[grind ←] theorem grows_conversion (t : Ty) : Grows declares env (conversion t c) := by
  unfold conversion
  grind

omit hc in
theorem grows_noteCall (key : String) : Grows declares env (modify fun g =>
    { g with calls := if g.calls.contains key then g.calls else g.calls ++ [key] } : Resolving Unit) := by
  refine grows_modify fun g => .of_same id ?_ rfl
  dsimp only
  split
  · exact List.Subset.refl _
  · exact List.subset_append_left _ _

omit hc in
theorem mem_noteCall {key : String} {g g' : Gathered} {u : Unit} (h : Resolves (modify fun g =>
    { g with calls := if g.calls.contains key then g.calls else g.calls ++ [key] }) env g u g') : key ∈ g'.calls := by
  cases h
  dsimp only
  split
  · next hknown => exact List.contains_iff_mem.mp hknown
  · exact List.mem_append_right _ (List.mem_singleton.mpr rfl)

omit hc in
theorem grows_noteInterface (interface : String) : Grows declares env (modify fun g => { g with
    externalCalls :=
      if g.externalCalls.contains interface then g.externalCalls
      else g.externalCalls ++ [interface] } : Resolving Unit) :=
  grows_modify fun _ => .of_same id (List.Subset.refl _) rfl

@[grind ←] theorem grows_internalCall (name : String) (isSuper : Bool) (target : String) :
    Grows declares env (internalCall name isSuper target c) := by
  refine grows_bind grows_read fun e => ?_
  split
  · exact grows_throw _
  · dsimp only
    split
    · exact grows_throw _
    · refine grows_bind (grows_inOrder hc _) fun args => ?_
      split
      · exact grows_pure _
      · split
        · exact grows_bind (grows_noteCall _) fun _ => grows_pure _
        · exact grows_pure _

@[grind ←] theorem grows_libraryCall (lib : ContractDecl) (name : String) (receiver : Option Expr) :
    Grows declares env (libraryCall lib name receiver c) := by
  unfold libraryCall
  grind

@[grind ←] theorem grows_externalCall (interface : String) (receiver : Expr) (name : String) :
    Grows declares env (externalCall interface receiver name c) := by
  refine grows_bind grows_read fun e => ?_
  split
  · exact grows_throw _
  · refine grows_bind (grows_inOrder hc _) fun args => ?_
    dsimp only
    split
    · exact grows_bind (grows_noteInterface interface) fun _ => grows_pure _
    · exact grows_pure _

@[grind ←] theorem grows_call (t : Term) : Grows declares env (t.call c) := by
  unfold Term.call
  grind

end Calls

-- Expressions and types.

@[grind ←] theorem grows_namedType (path : String) (start : Text.Position) (scope : Option ContractDecl) :
    Grows declares env (namedType path start scope) := by
  unfold namedType
  grind

mutual

theorem grows_expr : ∀ e, Grows declares env (expr e)
  | ⟨start, _, target, none⟩ => by
      rw [expr]
      exact grows_conditional start target
  | ⟨_, _, _, some _⟩ => by
      rw [expr]
      exact grows_throw _

theorem grows_conditional (start : Text.Position) : ∀ c, Grows declares env (conditional start c)
  | ⟨cond, none⟩ => by
      rw [conditional]
      exact grows_operatorChain cond
  | ⟨cond, some branches⟩ => by
      rw [conditional]
      exact grows_bind (grows_operatorChain cond) fun c => grows_ternary start c branches

theorem grows_ternary (start : Text.Position) (cond : Expr) : ∀ b, Grows declares env (ternary start cond b)
  | ⟨whenTrue, whenFalse⟩ => by
      rw [ternary]
      exact grows_bind (grows_expr whenTrue) fun _ => grows_bind (grows_expr whenFalse) fun _ => grows_pure _

theorem grows_operatorChain : ∀ c, Grows declares env (operatorChain c)
  | ⟨first, rest⟩ => by
      rw [operatorChain]
      exact grows_bind (grows_operand first) fun _ => grows_bind (grows_links rest) fun _ => grows_pure _

theorem grows_links : ∀ ls, Grows declares env (links ls)
  | [] => by
      rw [links]
      exact grows_pure _
  | ⟨start, op, right⟩ :: rest => by
      rw [links]
      exact grows_bind (grows_operand right) fun _ => grows_bind (grows_links rest) fun _ => grows_pure _

theorem grows_operand : ∀ o, Grows declares env (operand o)
  | .unary start (.unary op) inner => by
      rw [operand]
      exact grows_bind (grows_operand inner) fun _ => grows_pure _
  | .unary start (.step op) _ => by
      rw [operand]
      · exact grows_throw _
      · nofun
  | .unary start .delete _ => by
      rw [operand]
      · exact grows_throw _
      · nofun
  | .term start primary suffixes => by
      have hprimary : Grows declares env (orUndeclared start primary suffixes (primaryTerm start primary)) := by
        refine grows_tryCatch (grows_primaryTerm start primary) fun d => ?_
        grind
      rw [operand]
      refine grows_bind hprimary fun t => grows_bind (grows_applySuffixes t suffixes) fun u => grows_toExpr u

theorem grows_applySuffixes (t : Term) : ∀ ss, Grows declares env (applySuffixes t ss)
  | [] => by
      rw [applySuffixes]
      exact grows_pure _
  | s :: rest => by
      rw [applySuffixes]
      exact grows_bind (grows_applySuffix t s) fun u => grows_applySuffixes u rest

theorem grows_applySuffix (t : Term) : ∀ s, Grows declares env (applySuffix t s)
  | .member start name => by
      rw [applySuffix]
      exact grows_member t name start
  | .index start none => by
      cases t with
      | type ty p => exact grows_pure _
      | _ => exact grows_throw _
  | .index start (some e) => by
      cases t with
      | type ty p => exact grows_bind (grows_arrayLength e) fun _ => grows_pure _
      | value x => exact grows_bind (grows_expr e) fun key => grows_elementAt x key start
      | _ => exact grows_throw _
  | .call start args => by
      rw [applySuffix]
      exact grows_call ⟨grows_actions args, by nofun⟩ t
  | .namedCall start args => by
      rw [applySuffix]
      exact grows_call ⟨by nofun, grows_namedActions args⟩ t
  | .step start op => by
      rw [applySuffix]
      exact grows_throw _

theorem grows_actions : ∀ es, ∀ x ∈ actions es, Grows declares env x
  | [] => by
      rw [actions]
      nofun
  | e :: rest => by
      rw [actions]
      exact List.forall_mem_cons.mpr ⟨grows_expr e, grows_actions rest⟩

theorem grows_namedActions : ∀ args, ∀ x ∈ namedActions args, Grows declares env x.2.2
  | [] => by
      rw [namedActions]
      nofun
  | ⟨start, name, value⟩ :: rest => by
      rw [namedActions]
      exact List.forall_mem_cons.mpr ⟨grows_expr value, grows_namedActions rest⟩

theorem grows_exprs : ∀ es, Grows declares env (exprs es)
  | [] => by
      rw [exprs]
      exact grows_pure _
  | e :: rest => by
      rw [exprs]
      exact grows_bind (grows_expr e) fun _ => grows_bind (grows_exprs rest) fun _ => grows_pure _

theorem grows_primaryTerm (start : Text.Position) : ∀ p, Grows declares env (primaryTerm start p)
  | .number _ digits unit => by
      rw [primaryTerm]
      grind
  | .strings parts => by
      rw [primaryTerm]
      exact grows_pure _
  | .bool b => by
      rw [primaryTerm]
      exact grows_pure _
  | .typeOf t => by
      rw [primaryTerm]
      exact grows_bind grows_read fun e => grows_bind (grows_typeName e.contract t) fun _ => grows_pure _
  | .new t => by
      rw [primaryTerm]
      exact grows_bind grows_read fun e => grows_bind (grows_typeName e.contract t) fun _ => grows_pure _
  | .tuple elements => by
      rw [primaryTerm]
      refine grows_bind (grows_exprs elements) fun xs => ?_
      grind
  | .array elements => by
      rw [primaryTerm]
      exact grows_bind (grows_exprs elements) fun _ => grows_pure _
  | .ident name => by
      rw [primaryTerm]
      exact grows_resolveName name start

theorem grows_typeName (scope : Option ContractDecl) : ∀ t, Grows declares env (typeName scope t)
  | ⟨start, base, payable, dims⟩ => by
      rw [typeName]
      exact grows_bind (grows_typeBase scope start payable base) fun t => grows_arrayOf t dims

theorem grows_typeBase (scope : Option ContractDecl) (start : Text.Position) (payable : Bool) :
    ∀ t, Grows declares env (typeBase scope start payable t)
  | .mapping _ key _ value _ => by
      have hvalue : Grows declares env (typeName scope value) := grows_typeName scope value
      rw [typeBase]
      refine grows_bind (grows_typeName scope key) fun k => ?_
      grind
  | .path name => by
      rw [typeBase]
      refine grows_bind (grows_namedType name start scope) fun t => ?_
      grind

theorem grows_arrayOf (t : Ty) : ∀ ds, Grows declares env (arrayOf t ds)
  | [] => by
      rw [arrayOf]
      exact grows_pure _
  | ⟨_, none⟩ :: rest => by
      rw [arrayOf]
      exact grows_arrayOf _ rest
  | ⟨_, some size⟩ :: rest => by
      rw [arrayOf]
      exact grows_bind (grows_arrayLength size) fun n => grows_arrayOf _ rest

theorem grows_arrayLength : ∀ e, Grows declares env (arrayLength e)
  | ⟨start, stop, target, none⟩ => by
      rw [arrayLength]
      refine grows_bind (grows_conditional start target) fun x => ?_
      grind
  | ⟨_, _, _, some _⟩ => by
      rw [arrayLength]
      exact grows_throw _

end

attribute [grind ←] grows_expr grows_conditional grows_ternary grows_operatorChain grows_links grows_operand
  grows_applySuffixes grows_applySuffix grows_exprs grows_primaryTerm grows_typeName grows_arrayLength

-- Statements.

@[grind ←] theorem grows_assignable (start : Text.Position) (e : Expr) : Grows declares env (assignable start e) := by
  induction e using assignable.induct (motive_2 := fun es => Grows declares env (allAssignable start es))
  all_goals simp only [assignable, allAssignable]
  all_goals grind

@[grind ←] theorem grows_stepStmt (start : Text.Position) (op : Solidity.StepOp) {target : Resolving Expr}
    (htarget : Grows declares env target) : Grows declares env (stepStmt start op target) := by
  unfold stepStmt
  grind

@[grind ←] theorem grows_message (e : Solidity.Expression) : Grows declares env (message e) := by
  unfold message
  grind

@[grind ←] theorem grows_requireStmt? (start : Text.Position) (primary : Solidity.Primary)
    (suffixes : List Solidity.Suffix) : Grows declares env (requireStmt? start primary suffixes) := by
  unfold requireStmt?
  split
  · refine grows_bind (grows_local? _) fun found => ?_
    grind
  · exact grows_pure _

@[grind ←] theorem grows_exprStmt (e : Solidity.Expression) : Grows declares env (exprStmt e) := by
  unfold exprStmt
  grind

@[grind ←] theorem grows_varDecl (d : Solidity.VariableDeclaration) : Grows true env (varDecl d) := by
  unfold varDecl
  grind

@[grind ←] theorem grows_tupleVars (vars : List Solidity.TupleVariable) : Grows true env (tupleVars vars) := by
  induction vars with
  | nil => exact grows_pure _
  | cons v vars ih =>
      rw [tupleVars]
      grind

theorem grow_calledName? {e : Solidity.Expression} {name : String} {args : CallArgs}
    (h : calledName? e = some (name, args)) : args.Grow declares env := by
  unfold calledName? at h
  split at h
  · cases h
    exact ⟨grows_actions _, by nofun⟩
  · cases h
    exact ⟨by nofun, grows_namedActions _⟩
  · cases h

@[grind ←] theorem grows_event? (name : String) : Grows declares env (event? name) := by grind [event?]

@[grind ←] theorem grows_error? (name : String) : Grows declares env (error? name) := by grind [error?]

@[grind ←] theorem grows_emitStmt (start : Text.Position) (e : Solidity.Expression) :
    Grows declares env (emitStmt start e) := by
  unfold emitStmt
  split
  · exact grows_throw _
  · next hcalled =>
      have hargs : CallArgs.Grow declares env _ := grow_calledName? hcalled
      grind

@[grind ←] theorem grows_revertStmt (start : Text.Position) (e : Solidity.Expression) :
    Grows declares env (revertStmt start e) := by
  unfold revertStmt
  split
  · grind
  · split
    · exact grows_throw _
    · next hcalled =>
        have hargs : CallArgs.Grow declares env _ := grow_calledName? hcalled
        grind

@[grind ←] theorem grows_initStmt (s : Solidity.SimpleStatement) : Grows true env (initStmt s) := by
  cases s with
  | expr _ e => exact grows_exprStmt e
  | varDecl _ d => exact grows_varDecl d

-- Loops change only how their bodies can be left.
theorem grows_looping {act : Resolving α} (hact : Grows declares { env with inLoop := true } act) : Grows declares env (looping act) :=
  fun g a g' h => hact g a g' h

theorem locals_block {b : Solidity.Block} {g g' : Gathered} {body : Block} (h : Resolves (block b) env g body g') :
    g'.locals = g.locals := by
  obtain ⟨start, stop, statements⟩ := b
  rw [block] at h
  obtain ⟨inner, g₁, hinner, h⟩ := resolves_bind.mp h
  obtain ⟨-, rfl⟩ := resolves_pure.mp h
  obtain ⟨_, -, rfl⟩ := resolves_inScope hinner
  rfl

-- A branch is a block or a statement that stands alone.
theorem grows_nested {s : Solidity.Statement} (hs : Grows true env (stmt s)) : Grows declares env (nested s) := by
  have hother (h : ∀ p b, s ≠ .block p b) : Grows declares env (nested s) := by
    rw [nested]
    · exact grows_bind (grows_inScope hs) fun _ => grows_pure _
    · exact h
  cases s with
  | block p b =>
      intro g body g' h
      rw [nested] at h
      have hbelow : Below true g g' := by
        refine hs g (.block body) g' ?_
        rw [stmt]
        exact resolves_bind.mpr ⟨body, g', h, rfl⟩
      exact .of_same hbelow.usesCaller hbelow.calls (locals_block h)
  | _ => exact hother fun _ _ h => by cases h

mutual

theorem grows_block (declares : Bool) (env : Env) : ∀ b, Grows declares env (block b)
  | ⟨start, _, statements⟩ => by
      rw [block]
      exact grows_bind (grows_inScope (grows_stmts env statements)) fun _ => grows_pure _

theorem grows_stmts (env : Env) : ∀ ss, Grows true env (stmts ss)
  | [] => by
      rw [stmts]
      exact grows_pure _
  | s :: rest => by
      rw [stmts]
      exact grows_bind (grows_stmt env s) fun _ => grows_bind (grows_stmts env rest) fun _ => grows_pure _

theorem grows_stmt (env : Env) : ∀ s, Grows true env (stmt s)
  | .block _ b | .unchecked _ b => by
      rw [stmt]
      exact grows_bind (grows_block true env b) fun _ => grows_pure _
  | .ifElse start cond whenTrue none => by
      have htrue : Grows true env (nested whenTrue) := grows_nested (grows_stmt env whenTrue)
      rw [stmt]
      grind
  | .ifElse start cond whenTrue (some whenFalse) => by
      have htrue : Grows true env (nested whenTrue) := grows_nested (grows_stmt env whenTrue)
      have hfalse : Grows true env (nested whenFalse) := grows_nested (grows_stmt env whenFalse)
      rw [stmt]
      grind
  | .forLoop start init cond post body => by
      have hbody : Grows true env (looping (nested body)) :=
        grows_looping (grows_nested (grows_stmt { env with inLoop := true } body))
      have hinit : Grows true env (init.mapM initStmt) := grows_option_mapM init fun s _ => grows_initStmt s
      have hcond : Grows true env (cond.mapM expr) := grows_option_mapM cond fun e _ => grows_expr e
      have hpost : Grows true env (post.mapM exprStmt) := grows_option_mapM post fun e _ => grows_exprStmt e
      rw [stmt]
      grind
  | .whileLoop start cond body => by
      have hbody : Grows true env (looping (nested body)) :=
        grows_looping (grows_nested (grows_stmt { env with inLoop := true } body))
      rw [stmt]
      grind
  | .doWhile start body cond => by
      have hbody : Grows true env (looping (nested body)) :=
        grows_looping (grows_nested (grows_stmt { env with inLoop := true } body))
      rw [stmt]
      grind
  | .returnValue start value => by
      have hvalue : Grows true env (value.mapM expr) := grows_option_mapM value fun e _ => grows_expr e
      rw [stmt]
      grind
  | .emit start e => by
      rw [stmt]
      exact grows_emitStmt start e
  | .revert start e => by
      rw [stmt]
      exact grows_revertStmt start e
  | .breakLoop start | .continueLoop start | .placeholder start => by
      rw [stmt]
      grind
  | .expr _ e => by
      rw [stmt]
      exact grows_exprStmt e
  | .tupleDecl start vars value => by
      rw [stmt]
      grind
  | .varDecl _ d => by
      rw [stmt]
      exact grows_varDecl d

end

attribute [grind ←] grows_block grows_stmts grows_stmt grows_nested grows_looping

end RustContracts.Resolve
