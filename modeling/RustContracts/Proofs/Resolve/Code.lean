import RustContracts.Proofs.Program.Subterms
import RustContracts.Proofs.Resolve.Grows

-- What holds of the calls that code makes holds of all the code that is resolved: a call of a function was
-- found along the chain of its class, a call of a library function in a library. Where code reads its caller or calls
-- a function of its contract, this is noted while it is resolved.
namespace RustContracts.Resolve

open Program
open Text (Position)

-- The classes in which a call looks for its function.
def calledClasses (o : Outline) (self : ContractDecl) (isSuper : Bool) (target : String) :
    List ContractDecl :=
  if target != "" then ((o.class? target).map o.chainOf).getD []
  else if isSuper then (o.chainOf self).drop 1
  else o.chainOf self

-- A function that is looked up in a library: by code of another class in the library alone, and by its own
-- code as in any other class.
def FoundIn (o : Outline) (here : Option ContractDecl) (lib owner : ContractDecl) (f : Function)
    (arity : Nat) : Prop :=
  ∃ name, findFunction? [lib] name (some arity) = some (owner, f) ∧ lib ∈ o.classes ∨
    here = some lib ∧ lib.kind = .library ∧ ∃ isSuper target,
      findFunction? (calledClasses o lib isSuper target) name (some arity) = some (owner, f)

def isFunctionCall : Expr → Bool
  | .call _ _ _ _ _ _ _ | .libraryCall _ _ _ _ _ => true
  | _ => false

-- An expression that itself neither names a variable nor calls a function nor reads the caller.
def isPlain : Expr → Bool
  | .var _ _ _ | .call _ _ _ _ _ _ _ | .libraryCall _ _ _ _ _ | .env _ .sender => false
  | _ => true

-- What code may use: its caller, functions of its contract by their keys, and variables.
structure Uses where
  caller : Prop
  calls : String → Prop
  names : String → Prop := fun _ => True

def Uses.all : Uses := { caller := True, calls := fun _ => True }

-- Code that may use any variable.
def Uses.Open (U : Uses) : Prop := ∀ name, U.names name

theorem Uses.open_all : Uses.all.Open := fun _ => trivial

structure Gathered.Within (U : Uses) (g : Gathered) : Prop where
  caller : g.usesCaller = true → U.caller
  calls : ∀ key ∈ g.calls, U.calls key
  locals : ∀ p ∈ g.locals, U.names p.name

theorem Gathered.within_all (g : Gathered) : g.Within .all :=
  ⟨fun _ => trivial, fun _ _ => trivial, fun _ _ => trivial⟩

theorem Gathered.Within.of_below {U : Uses} {g g' : Gathered} {declares : Bool} (h : g'.Within U)
    (hbelow : Below declares g g') : g.Within U :=
  ⟨h.caller ∘ hbelow.usesCaller, fun key hkey => h.calls key (hbelow.calls hkey),
    fun p hp => h.locals p (hbelow.locals hp)⟩

-- A property of expressions that code of a class has by the way its names are looked up, where the code uses no more
-- than it may. Calls are noted in functions only, and a library has neither a caller nor functions of its contract.
structure Accepts (U : Uses) (P : Expr → Prop) (o : Outline) (here : Option ContractDecl) (inFunction : Bool) :
    Prop where
  other : ∀ e, isPlain e = true → P e
  var : ∀ name, U.names name → ∀ p t, P (.var p name t)
  sender : U.caller → (∀ c, here = some c → c.kind ≠ .library) → ∀ p, P (.env p .sender)
  call : ∀ c, here = some c → c.kind ≠ .library → ∀ p name args isSuper target t, (isSuper = true → target = "") →
    (findFunction? (calledClasses o c isSuper target) name (some args.length)).isSome →
      (inFunction = true → U.calls (functionKey name args.length)) →
        P (.call p name args isSuper c.name target t)
  library : ∀ lib owner f args, FoundIn o here lib owner f args.length →
    ∀ p, P (.libraryCall p lib.name owner.name f.toSignature args)

-- What it means that a property holds of something resolved; a term may hold classes besides, and `super` goes
-- with no other class.
class Legal (α : Type) where
  legal : (Expr → Prop) → Outline → α → Prop

def Term.Legal (P : Expr → Prop) (o : Outline) : Term → Prop
  | value e | external e _ _ _ | arrayMethod e _ _ => e.Each P
  | space _ v _ => ∀ e ∈ v, e.Each P
  | contract c _ | libraryFunction c _ _ => c ∈ o.classes
  | attached e c _ _ => e.Each P ∧ c ∈ o.classes
  | function _ isSuper target _ => isSuper = true → target = ""
  | type _ _ | typeOf _ _ | new _ _ | builtin _ _ => True

instance (priority := low) (α : Type) : Legal α := ⟨fun _ _ _ => True⟩
instance : Legal Expr := ⟨fun P _ e => e.Each P⟩
instance : Legal (List Expr) := ⟨fun P _ es => ∀ e ∈ es, e.Each P⟩
instance : Legal (List (Option Expr)) := ⟨fun P _ es => ∀ e ∈ es, ∀ x ∈ e, x.Each P⟩
instance : Legal (Option Expr) := ⟨fun P _ e => ∀ x ∈ e, x.Each P⟩
instance : Legal (List (Step Expr)) := ⟨fun P _ steps => ∀ s ∈ steps, s.right.Each P⟩
instance : Legal Term := ⟨Term.Legal⟩
instance : Legal Stmt := ⟨fun P _ s => ∀ e ∈ s.exprs, e.Each P⟩
instance : Legal (Option Stmt) := ⟨fun P _ s => ∀ x ∈ s, ∀ e ∈ x.exprs, e.Each P⟩
instance : Legal (List Stmt) := ⟨fun P _ ss => ∀ s ∈ ss, ∀ e ∈ s.exprs, e.Each P⟩
instance : Legal Block := ⟨fun P _ b => ∀ e ∈ b.exprs, e.Each P⟩
instance : Legal (Option ContractDecl) := ⟨fun _ o c => ∀ x ∈ c, x ∈ o.classes⟩

-- A step whose results have the property, where no more is noted than what code may use.
def Makes {α : Type} [Legal α] (U : Uses) (P : Expr → Prop) (env : Env) (act : Resolving α) : Prop :=
  ∀ g a g', Resolves act env g a g' → g'.Within U → Legal.legal P env.outline a

variable {U : Uses} {P : Expr → Prop} {env : Env} {α β : Type} [Legal α] [Legal β]

theorem makes_pure {a : α} (ha : Legal.legal P env.outline a) : Makes U P env (pure a) := by
  intro g b g' h _
  obtain ⟨rfl, -⟩ := resolves_pure.mp h
  exact ha

theorem makes_throw (d : Diagnostic) : Makes U P env (throw d : Resolving α) :=
  fun _ _ _ h => absurd h not_resolves_throw

omit [Legal α] in
theorem makes_throw_bind (d : Diagnostic) (f : α → Resolving β) :
    Makes U P env ((throw d : Resolving α) >>= f) := by
  intro g b g' h
  obtain ⟨a, g₁, hthrow, -⟩ := resolves_bind.mp h
  exact absurd hthrow not_resolves_throw

-- The second step may use that the first has made its result, and notes no less.
theorem makes_bind_of_resolves {x : Resolving α} {f : α → Resolving β} (hx : Makes U P env x)
    (hgrows : ∀ a, Grows true env (f a))
    (hf : ∀ a, Legal.legal P env.outline a → (∃ g g', Resolves x env g a g') → Makes U P env (f a)) :
    Makes U P env (x >>= f) := by
  intro g b g' h hwithin
  obtain ⟨a, g₁, ha, h⟩ := resolves_bind.mp h
  exact hf a (hx g a g₁ ha (hwithin.of_below (hgrows a g₁ b g' h))) ⟨g, g₁, ha⟩ g₁ b g' h hwithin

theorem makes_bind {x : Resolving α} {f : α → Resolving β} (hx : Makes U P env x)
    (hgrows : ∀ a, Grows true env (f a)) (hf : ∀ a, Legal.legal P env.outline a → Makes U P env (f a)) :
    Makes U P env (x >>= f) :=
  makes_bind_of_resolves hx hgrows fun a ha _ => hf a ha

theorem makes_read_bind {f : Env → Resolving β} (hf : Makes U P env (f env)) :
    Makes U P env (read >>= f) := by
  intro g b g' h
  obtain ⟨e, g₁, hread, h⟩ := resolves_bind.mp h
  obtain ⟨rfl, rfl⟩ := resolves_read.mp hread
  exact hf g b g' h

-- A first step of which nothing is used but that it ends.
omit [Legal α] in
theorem makes_after {x : Resolving α} {f : α → Resolving β} (hf : ∀ a, Makes U P env (f a)) :
    Makes U P env (x >>= f) := by
  intro g b g' h
  obtain ⟨a, g₁, -, h⟩ := resolves_bind.mp h
  exact hf a g₁ b g' h

theorem makes_tryCatch {x : Resolving α} {f : Diagnostic → Resolving α} (hx : Makes U P env x)
    (hf : ∀ d, Makes U P env (f d)) : Makes U P env (tryCatch x f) := by
  intro g a g' h hwithin
  change tryCatch ((x.run env).run g) (fun d => ((f d).run env).run g) = .ok (a, g') at h
  cases hr : (x.run env).run g with
  | error d =>
      rw [hr] at h
      exact hf d g a g' h hwithin
  | ok r =>
      rw [hr] at h
      cases h
      exact hx g a g' hr hwithin

theorem makes_option_mapM {γ : Type} {f : γ → Resolving α} [Legal (Option α)]
    (hsome : ∀ a : α, Legal.legal P env.outline a → Legal.legal P env.outline (some a))
    (hnone : Legal.legal P env.outline (none : Option α)) (o : Option γ) (hf : ∀ c ∈ o, Makes U P env (f c)) :
    Makes U P env (o.mapM f) := by
  cases o with
  | none => exact makes_pure hnone
  | some c => exact makes_bind (hf c rfl) (by grind) fun a ha => makes_pure (hsome a ha)

theorem makes_inScope (hopen : U.Open) {act : Resolving α} (hact : Makes U P env act) :
    Makes U P env (inScope act) := by
  intro g a g' h hwithin
  obtain ⟨inner, hinner, rfl⟩ := resolves_inScope h
  exact hact g a inner hinner ⟨hwithin.caller, hwithin.calls, fun p _ => hopen p.name⟩

-- A variable that is found is one that code may use.
theorem makes_local?_bind {name : String} {f : Option Param → Resolving β}
    (hgrows : ∀ p, Grows true env (f (some p)))
    (hsome : ∀ p, U.names p.name → Makes U P env (f (some p))) (hnone : Makes U P env (f none)) :
    Makes U P env (local? name >>= f) := by
  intro g b g' h hwithin
  obtain ⟨found, g₁, hfound, h⟩ := resolves_bind.mp h
  cases hfound
  cases hfind : g.locals.find? (·.name = name) with
  | none =>
      rw [hfind] at h
      exact hnone g b g' h hwithin
  | some p =>
      rw [hfind] at h
      have hlocals := (hwithin.of_below (hgrows _ _ _ _ h)).locals p (List.mem_of_find?_eq_some hfind)
      exact hsome p hlocals g b g' h hwithin

-- Terms.

-- Of a plain expression only the parts matter.
theorem Accepts.each {o : Outline} {here : Option ContractDecl} {inFunction : Bool} (h : Accepts U P o here inFunction)
    {e : Expr} (hplain : isPlain e = true) (hparts : ∀ c ∈ e.children, c.Each P) : e.Each P :=
  Expr.each_iff.mpr ⟨h.other e hplain, hparts⟩

theorem Accepts.leaf {o : Outline} {here : Option ContractDecl} {inFunction : Bool} (h : Accepts U P o here inFunction)
    {e : Expr} (hplain : isPlain e = true) (hparts : e.children = []) : e.Each P :=
  h.each hplain (by simp [hparts])

theorem class?_mem {o : Outline} {name : String} {c : ContractDecl} (h : o.class? name = some c) :
    c ∈ o.classes := List.mem_of_find?_eq_some h

-- A function that is found is the first of its class with that name and number of parameters.
theorem mem_of_findFunction? {classes : List ContractDecl} {name : String} {arity : Option Nat}
    {c : ContractDecl} {f : Function} (h : findFunction? classes name arity = some (c, f)) :
    c ∈ classes ∧
      c.functions.find? (fun f => f.sourceName = name && arity.all (f.params.length = ·)) = some f := by
  obtain ⟨k, hk, h⟩ := List.exists_of_findSome?_eq_some h
  obtain ⟨f', hf', heq⟩ := Option.map_eq_some_iff.mp h
  cases heq
  exact ⟨hk, hf'⟩

theorem makes_toExpr {t : Term} (ht : t.Legal P env.outline) : Makes U P env t.toExpr := by
  unfold Term.toExpr
  split
  · exact makes_pure ht
  · exact makes_pure (ht _ rfl)
  · exact makes_throw _

-- Reading the caller is noted, and ends only outside libraries.
theorem resolves_useCaller {start : Position} {g g' : Gathered} {u : Unit} (h : Resolves (useCaller start) env g u g') :
    g'.usesCaller = true ∧ ∀ c, env.contract = some c → c.kind ≠ .library := by
  have hnoted {g : Gathered} (h : Resolves (modify fun g => { g with usesCaller := true }) env g u g') :
      g'.usesCaller = true := by
    cases h
    rfl
  unfold useCaller at h
  obtain ⟨e, g₁, hread, h⟩ := resolves_bind.mp h
  obtain ⟨rfl, rfl⟩ := resolves_read.mp hread
  split at h
  · next c hc =>
      split at h
      · obtain ⟨_, _, hthrow, -⟩ := resolves_bind.mp h
        exact absurd hthrow not_resolves_throw
      · next hkind =>
          refine ⟨hnoted h, fun c' hc' => ?_⟩
          rwa [← Option.some.inj (hc.symm.trans hc')]
  · next hc => exact ⟨hnoted h, fun c hc' => absurd (hc.symm.trans hc') (by nofun)⟩

theorem makes_attachedLibrary? (t : Ty) (name : String) : Makes U P env (attachedLibrary? t name) := by
  unfold attachedLibrary?
  refine makes_read_bind (makes_after fun classes => makes_pure fun lib hlib => ?_)
  obtain ⟨u, -, hu⟩ := List.exists_of_findSome?_eq_some hlib
  split at hu
  · obtain ⟨found, hfound, hu⟩ := Option.bind_eq_some_iff.mp hu
    split at hu
    · split at hu
      · cases hu
      · cases hu
        exact class?_mem hfound
    · cases hu
  · cases hu

section Terms

variable (hP : Accepts U P env.outline env.contract env.inFunction)
include hP

theorem makes_resolveName (name : String) (start : Position) : Makes U P env (resolveName name start) := by
  refine makes_local?_bind (fun _ => grows_pure _) (fun p hp => makes_pure ?_) ?_
  · exact Expr.each_iff.mpr ⟨hP.var p.name hp start p.type, by simp [Expr.children]⟩
  · simp only
    split
    · exact makes_pure fun e he => by
        cases he
        exact hP.leaf rfl rfl
    · exact makes_pure (by nofun)
    · exact makes_pure (by nofun)
    · exact makes_pure (by nofun)
    · exact makes_pure (by nofun)
    · exact makes_pure (by nofun)
    · exact makes_pure (hP.leaf rfl rfl)
    · exact makes_pure trivial
    · refine makes_read_bind (makes_after fun classes => ?_)
      split
      · next e he =>
          obtain ⟨c, -, hc⟩ := List.exists_of_findSome?_eq_some he
          obtain hc | ⟨-, hc⟩ := Option.or_eq_some_iff.mp hc
          · obtain ⟨f, -, rfl⟩ := Option.map_eq_some_iff.mp hc
            exact makes_pure (hP.leaf rfl rfl)
          · obtain ⟨k, -, rfl⟩ := Option.map_eq_some_iff.mp hc
            exact makes_pure (hP.leaf rfl rfl)
      · split
        · exact makes_pure (hP.leaf rfl rfl)
        · split
          · exact makes_pure (by nofun)
          · split
            · exact makes_pure trivial
            · exact makes_throw _
            · split
              · split
                · next hdecl => exact makes_pure (class?_mem hdecl)
                · exact makes_pure trivial
              · exact makes_pure trivial
              · split
                · exact makes_pure trivial
                · exact makes_throw _

theorem makes_valueMember {x : Expr} (hx : x.Each P) (name : String) (start : Position) :
    Makes U P env (valueMember x name start) := by
  unfold valueMember
  refine makes_read_bind ?_
  split
  · split
    · exact makes_pure (hP.each rfl (List.forall_mem_singleton.mpr hx))
    · exact makes_throw _
  · refine makes_bind (makes_attachedLibrary? _ _) (by grind) fun lib hlib => ?_
    split
    · exact makes_pure ⟨hx, hlib _ rfl⟩
    · dsimp only
      split
      · split
        · exact makes_pure (hP.each rfl (List.forall_mem_singleton.mpr hx))
        · exact makes_pure hx
        · exact makes_pure hx
        · exact makes_throw _
      · split
        · split
          · exact makes_pure hx
          · exact makes_throw _
        · exact makes_throw _
      · exact makes_throw _
      · exact makes_throw _
      · exact makes_throw _

theorem makes_spaceMember (space name : String) (start : Position) :
    Makes U P env (spaceMember space name start) := by
  unfold spaceMember
  split
  · intro g t g' h hwithin
    obtain ⟨u, g₁, hcaller, h⟩ := resolves_bind.mp h
    obtain ⟨rfl, rfl⟩ := resolves_pure.mp h
    obtain ⟨hnoted, hkind⟩ := resolves_useCaller hcaller
    exact Expr.each_iff.mpr ⟨hP.sender (hwithin.caller hnoted) hkind start, by simp [Expr.children]⟩
  · exact makes_pure (hP.leaf rfl rfl)
  · exact makes_pure (hP.leaf rfl rfl)
  · exact makes_pure (hP.leaf rfl rfl)
  · exact makes_pure (by nofun)
  · exact makes_pure fun _ => rfl
  · exact makes_throw _

theorem makes_contractMember {c : ContractDecl} (hc : c ∈ env.outline.classes) (name : String)
    (start : Position) : Makes U P env (contractMember c name start) := by
  unfold contractMember
  refine makes_read_bind ?_
  split
  · exact makes_pure hc
  · split
    · exact makes_pure trivial
    · split
      · exact makes_pure (hP.leaf rfl rfl)
      · dsimp only
        split
        · exact makes_pure (by nofun)
        · exact makes_throw _

theorem makes_member {t : Term} (ht : t.Legal P env.outline) (name : String) (start : Position) :
    Makes U P env (t.member name start) := by
  unfold Term.member
  split
  · exact makes_spaceMember hP _ _ _
  · exact makes_contractMember hP ht _ _
  · refine makes_read_bind ?_
    split
    · exact makes_pure (hP.leaf rfl rfl)
    · exact makes_throw _
  · split
    · exact makes_pure (hP.leaf rfl rfl)
    · exact makes_pure (hP.leaf rfl rfl)
    · exact makes_throw _
  · exact makes_valueMember hP ht _ _
  · exact makes_throw _

theorem makes_elementAt {x key : Expr} (hx : x.Each P) (hkey : key.Each P) (start : Position) :
    Makes U P env (Term.elementAt x key start) := by
  have hindex (t : Ty) : (Expr.index start x key t).Each P :=
    hP.each rfl (by simp [Expr.children, hx, hkey])
  unfold Term.elementAt
  split
  · exact makes_pure (hindex _)
  · exact makes_pure (hindex _)
  · exact makes_throw _
  · exact makes_throw _

end Terms

-- Calls.

-- Arguments by position or by name, but not both.
structure CallArgs.Legal (U : Uses) (P : Expr → Prop) (env : Env) (c : CallArgs) : Prop where
  one : c.named = [] ∨ c.positional = []
  positional : ∀ x ∈ c.positional, Makes U P env x
  named : ∀ x ∈ c.named, Makes U P env x.2.2
  grow : c.Grow true env

theorem makes_mapM {xs : List (Resolving Expr)} (hxs : ∀ x ∈ xs, Makes U P env x) (hgrow : ∀ x ∈ xs, Grows true env x) :
    Makes U P env (xs.mapM id) := by
  induction xs with
  | nil => exact makes_pure (by nofun)
  | cons x xs ih =>
      obtain ⟨hx, hxs⟩ := List.forall_mem_cons.mp hxs
      have hmore : Grows true env (xs.mapM id) := grows_mapM fun y hy => hgrow y (List.mem_cons_of_mem x hy)
      rw [List.mapM_cons]
      refine makes_bind hx (by grind) fun y hy => ?_
      refine makes_bind (ih hxs (List.forall_mem_cons.mp hgrow).2) (by grind) fun ys hys => ?_
      exact makes_pure (List.forall_mem_cons.mpr ⟨hy, hys⟩)

theorem makes_place (names : List String) {filled : List (Option Expr)}
    {named : List (Position × String × Resolving Expr)} (hfilled : ∀ e ∈ filled, ∀ x ∈ e, x.Each P)
    (hnamed : ∀ x ∈ named, Makes U P env x.2.2) (hgrow : ∀ x ∈ named, Grows true env x.2.2) :
    Makes U P env (CallArgs.place names filled named) := by
  induction named generalizing filled with
  | nil => exact makes_pure hfilled
  | cons arg named ih =>
      obtain ⟨start, name, value⟩ := arg
      obtain ⟨hvalue, hnamed⟩ := List.forall_mem_cons.mp hnamed
      obtain ⟨-, hgrow⟩ := List.forall_mem_cons.mp hgrow
      rw [CallArgs.place]
      split
      · exact makes_throw _
      · split
        · exact makes_throw_bind _ _
        · refine makes_bind hvalue (fun x => grows_place names _ hgrow) fun x hx => ih (fun e he => ?_) hnamed hgrow
          rcases List.mem_or_eq_of_mem_set he with he | rfl
          · exact hfilled e he
          · rintro y ⟨⟩
            exact hx

section Calls

variable {c : CallArgs} (hc : c.Legal U P env)
include hc

theorem makes_exactly (n : Nat) : Makes U P env (c.exactly n) := by
  unfold CallArgs.exactly
  split
  · exact makes_throw_bind _ _
  · exact makes_mapM hc.positional hc.grow.positional

theorem makes_inOrder (names : List String) : Makes U P env (c.inOrder names) := by
  unfold CallArgs.inOrder
  split
  · exact makes_mapM hc.positional hc.grow.positional
  · refine makes_bind (makes_place names (by simp) hc.named hc.grow.named) (by grind) fun filled hfilled => ?_
    split
    · exact makes_throw_bind _ _
    · refine makes_pure fun e he => ?_
      obtain ⟨o, ho, heq⟩ := List.mem_filterMap.mp he
      exact hfilled o ho e heq

variable (hP : Accepts U P env.outline env.contract env.inFunction)
include hP

theorem makes_conversion (t : Ty) : Makes U P env (conversion t c) := by
  unfold conversion
  split
  · refine makes_read_bind (makes_bind (makes_inOrder hc _) (by grind) fun fields hfields => ?_)
    split
    · exact makes_throw_bind _ _
    · exact makes_pure (hP.each rfl hfields)
  · refine makes_bind (makes_exactly hc 1) (by grind) fun args hargs => ?_
    split
    · split
      · exact makes_pure (hP.leaf rfl rfl)
      · exact makes_pure (hargs _ List.mem_cons_self)
      · exact makes_pure (hP.each rfl hargs)
    · exact makes_throw _

-- A call keeps what its look-up found.
theorem makes_internalCall (name : String) {isSuper : Bool} {target : String}
    (htarget : isSuper = true → target = "") : Makes U P env (internalCall name isSuper target c) := by
  unfold internalCall
  refine makes_read_bind ?_
  split
  · exact makes_throw _
  · next self hself =>
      dsimp only
      split
      · exact makes_throw _
      · next owner f hf =>
          change findFunction? (calledClasses env.outline self isSuper target) name (some c.arity) = some (owner, f) at hf
          refine makes_bind_of_resolves (makes_inOrder hc _) (fun args => ?grows) fun args hargs hresolved => ?_
          case grows =>
            split
            · exact grows_pure _
            · split
              · exact grows_bind (grows_noteCall _) fun _ => grows_pure _
              · exact grows_pure _
          obtain ⟨g, g', hresolved⟩ := hresolved
          rw [← length_inOrder hc.one hresolved] at hf
          split
          · next hkind =>
              refine makes_pure (Expr.each_iff.mpr ⟨?_, hargs⟩)
              exact hP.library self owner f args ⟨name, .inr ⟨hself, hkind, isSuper, target, hf⟩⟩ _
          · next hkind =>
              have hcall (hnoted : env.inFunction = true → U.calls (functionKey name args.length)) :
                  (Expr.call c.start name args isSuper self.name target f.toSignature.returnType).Each P :=
                Expr.each_iff.mpr ⟨hP.call self hself hkind _ _ _ _ _ _ htarget (by simp [hf]) hnoted, hargs⟩
              split
              · intro g t g' h hwithin
                obtain ⟨u, g₁, hnote, h⟩ := resolves_bind.mp h
                obtain ⟨rfl, rfl⟩ := resolves_pure.mp h
                have hkey := mem_noteCall hnote
                rw [← length_inOrder hc.one hresolved] at hkey
                exact hcall fun _ => hwithin.calls _ hkey
              · next hfunction => exact makes_pure (hcall fun h => absurd h hfunction)

theorem makes_libraryCall {lib : ContractDecl} (hlib : lib ∈ env.outline.classes) (name : String)
    {receiver : Option Expr} (hreceiver : ∀ e ∈ receiver, e.Each P) :
    Makes U P env (libraryCall lib name receiver c) := by
  unfold libraryCall
  dsimp only
  split
  · exact makes_throw _
  · next owner f hf =>
      obtain rfl : owner = lib := List.mem_singleton.mp (mem_of_findFunction? hf).1
      refine makes_bind_of_resolves (makes_inOrder hc _) (by grind) fun args hargs hresolved => ?_
      obtain ⟨g, g', hresolved⟩ := hresolved
      have hall : ∀ e ∈ receiver.toList ++ args, e.Each P := by
        simp only [List.forall_mem_append, Option.mem_toList]
        exact ⟨hreceiver, hargs⟩
      rw [← length_inOrder hc.one hresolved, ← List.length_append] at hf
      refine makes_pure (Expr.each_iff.mpr ⟨?_, hall⟩)
      exact hP.library _ _ f _ ⟨name, .inl ⟨hf, hlib⟩⟩ _

omit hc hP in
-- The address in the conversion of one.
theorem each_addressOf {receiver : Expr} (hreceiver : receiver.Each P) :
    (match receiver with
      | .cast _ _ v => v
      | x => x).Each P := by
  split
  · exact (Expr.each_iff.mp hreceiver).2 _ (by simp [Expr.children])
  · exact hreceiver

theorem makes_externalCall {receiver : Expr} (hreceiver : receiver.Each P) (interface name : String) :
    Makes U P env (externalCall interface receiver name c) := by
  have haddress := each_addressOf hreceiver
  unfold externalCall
  refine makes_read_bind ?_
  split
  · exact makes_throw _
  · refine makes_bind (makes_inOrder hc _) (fun args => ?grows) fun args hargs => ?_
    case grows =>
      dsimp only
      split
      · exact grows_bind (grows_noteInterface interface) fun _ => grows_pure _
      · exact grows_pure _
    have hcall (method : Signature) (address : Expr) (ha : address.Each P) :
        (Expr.externalCall c.start interface method address args).Each P :=
      hP.each rfl (by simpa [Expr.children] using ⟨ha, hargs⟩)
    dsimp only
    split
    · exact makes_after fun _ => makes_pure (hcall _ _ haddress)
    · exact makes_pure (hcall _ _ haddress)

theorem makes_call {t : Term} (ht : t.Legal P env.outline) : Makes U P env (t.call c) := by
  have hhead {args : List Expr} (hargs : ∀ e ∈ args, e.Each P) : (args.headD default).Each P := by
    cases args with
    | nil => exact hP.leaf rfl rfl
    | cons x xs => exact hargs x List.mem_cons_self
  unfold Term.call
  split
  · exact makes_conversion hc hP _
  · split
    · exact makes_throw_bind _ _
    · refine makes_bind (makes_exactly hc 1) (by grind) fun args hargs => makes_pure (hP.each rfl ?_)
      exact List.forall_mem_singleton.mpr (hhead hargs)
  · exact makes_internalCall hc hP _ ht
  · exact makes_libraryCall hc hP ht _ (by nofun)
  · refine makes_libraryCall hc hP ht.2 _ ?_
    rintro e ⟨⟩
    exact ht.1
  · exact makes_externalCall hc hP ht _ _
  · split
    · split
      · exact makes_throw_bind _ _
      · refine makes_bind (makes_exactly hc 1) (by grind) fun args hargs => makes_pure (hP.each rfl ?_)
        exact List.forall_mem_cons.mpr ⟨ht, List.forall_mem_singleton.mpr (hhead hargs)⟩
    · refine makes_bind (makes_exactly hc 0) (by grind) fun args _ => makes_pure (hP.each rfl ?_)
      exact List.forall_mem_singleton.mpr ht
  · refine makes_bind (makes_exactly hc 1) (by grind) fun args hargs => makes_pure (hP.each rfl ?_)
    exact List.forall_mem_singleton.mpr (hhead hargs)
  · exact makes_throw _
  · exact makes_throw _
  · exact makes_throw _

end Calls

-- Expressions.

-- Grouping operands keeps what combining them keeps.
theorem climb_tighten {γ : Type} {Q : γ → Prop} {combine : Position → Solidity.BinaryOp → γ → γ → γ}
    (hcombine : ∀ p op l r, Q l → Q r → Q (combine p op l r)) (fuel : Nat) :
    (∀ least left rest, Q left → (∀ s ∈ rest, Q s.right) →
      Q (climb combine fuel least left rest).1 ∧ ∀ s ∈ (climb combine fuel least left rest).2, Q s.right) ∧
    (∀ op right rest, Q right → (∀ s ∈ rest, Q s.right) →
      Q (tighten combine fuel op right rest).1 ∧
        ∀ s ∈ (tighten combine fuel op right rest).2, Q s.right) := by
  induction fuel with
  | zero => exact ⟨fun _ _ _ hl hr => ⟨hl, hr⟩, fun _ _ _ hl hr => ⟨hl, hr⟩⟩
  | succ fuel ih =>
      obtain ⟨ihclimb, ihtighten⟩ := ih
      constructor
      · intro least left rest hleft hrest
        cases rest with
        | nil => exact ⟨hleft, hrest⟩
        | cons s rest =>
            obtain ⟨hs, htail⟩ := List.forall_mem_cons.mp hrest
            rw [climb]
            split
            · exact ⟨hleft, hrest⟩
            · obtain ⟨hright, hmore⟩ := ihtighten s.op s.right rest hs htail
              exact ihclimb _ _ _ (hcombine _ _ _ _ hleft hright) hmore
      · intro op right rest hright hrest
        cases rest with
        | nil => exact ⟨hright, hrest⟩
        | cons s rest =>
            rw [tighten]
            split
            · obtain ⟨hinner, hmore⟩ := ihclimb (op.precedence + 1) right (s :: rest) hright hrest
              exact ihtighten _ _ _ hinner hmore
            · split
              · obtain ⟨hinner, hmore⟩ := ihclimb op.precedence right (s :: rest) hright hrest
                exact ihtighten _ _ _ hinner hmore
              · exact ⟨hright, hrest⟩

theorem Accepts.newBinary {o : Outline} {here : Option ContractDecl} {inFunction : Bool}
    (h : Accepts U P o here inFunction) (p : Position) (op : Solidity.BinaryOp) {l r : Expr} (hl : l.Each P)
    (hr : r.Each P) :
    (newBinary p op l r).Each P := by
  have hbinary (t : Ty) : (Expr.binary p op l r t).Each P :=
    h.each rfl (by simp [Expr.children, hl, hr])
  unfold Resolve.newBinary
  split
  · split
    · exact h.leaf rfl rfl
    · exact hbinary _
  · exact hbinary _

mutual

theorem makes_expr (hP : Accepts U P env.outline env.contract env.inFunction) : ∀ e, Makes U P env (expr e)
  | ⟨start, _, target, none⟩ => by
    rw [expr]
    exact makes_conditional hP start target
  | ⟨_, _, _, some _⟩ => by
    rw [expr]
    exact makes_throw _

theorem makes_conditional (hP : Accepts U P env.outline env.contract env.inFunction) (start : Position) :
    ∀ c, Makes U P env (conditional start c)
  | ⟨cond, none⟩ => by
    rw [conditional]
    exact makes_operatorChain hP cond
  | ⟨cond, some branches⟩ => by
    rw [conditional]
    exact makes_bind (makes_operatorChain hP cond) (by grind) fun c hc => makes_ternary hP start c hc branches

theorem makes_ternary (hP : Accepts U P env.outline env.contract env.inFunction) (start : Position) (cond : Expr)
    (hcond : cond.Each P) : ∀ b, Makes U P env (ternary start cond b)
  | ⟨whenTrue, whenFalse⟩ => by
    rw [ternary]
    refine makes_bind (makes_expr hP whenTrue) (by grind) fun t ht => ?_
    refine makes_bind (makes_expr hP whenFalse) (by grind) fun e he => ?_
    exact makes_pure (hP.each rfl (by simpa [Expr.children] using ⟨hcond, ht, he⟩))

theorem makes_operatorChain (hP : Accepts U P env.outline env.contract env.inFunction) : ∀ c, Makes U P env (operatorChain c)
  | ⟨first, rest⟩ => by
    rw [operatorChain]
    refine makes_bind (makes_operand hP first) (by grind) fun left hleft => ?_
    refine makes_bind (makes_links hP rest) (by grind) fun steps hsteps => makes_pure ?_
    exact ((climb_tighten (fun p op _ _ => hP.newBinary p op) _).1 _ _ _ hleft hsteps).1

theorem makes_links (hP : Accepts U P env.outline env.contract env.inFunction) : ∀ ls, Makes U P env (links ls)
  | [] => by
    rw [links]
    exact makes_pure (by nofun)
  | ⟨start, op, right⟩ :: rest => by
    rw [links]
    refine makes_bind (makes_operand hP right) (by grind) fun r hr => ?_
    refine makes_bind (makes_links hP rest) (by grind) fun more hmore => ?_
    exact makes_pure (List.forall_mem_cons.mpr ⟨hr, hmore⟩)

theorem makes_operand (hP : Accepts U P env.outline env.contract env.inFunction) : ∀ o, Makes U P env (operand o)
  | .unary start (.unary op) inner => by
    rw [operand]
    refine makes_bind (makes_operand hP inner) (by grind) fun x hx => makes_pure (hP.each rfl ?_)
    exact List.forall_mem_singleton.mpr hx
  | .unary start (.step op) _ => by
    rw [operand]
    · exact makes_throw _
    · nofun
  | .unary start .delete _ => by
    rw [operand]
    · exact makes_throw _
    · nofun
  | .term start primary suffixes => by
    rw [operand]
    have hprimary : Makes U P env (orUndeclared start primary suffixes (primaryTerm start primary)) := by
      refine makes_tryCatch (makes_primaryTerm hP start primary) fun d => ?_
      split
      · exact makes_throw _
      · exact makes_throw _
    refine makes_bind hprimary (by grind) fun t ht => ?_
    exact makes_bind (makes_applySuffixes hP t ht suffixes) (by grind) fun u hu => makes_toExpr hu

theorem makes_applySuffixes (hP : Accepts U P env.outline env.contract env.inFunction) (t : Term)
    (ht : t.Legal P env.outline) : ∀ ss, Makes U P env (applySuffixes t ss)
  | [] => by
    rw [applySuffixes]
    exact makes_pure ht
  | s :: rest => by
    rw [applySuffixes]
    exact makes_bind (makes_applySuffix hP t ht s) (by grind) fun u hu => makes_applySuffixes hP u hu rest

theorem makes_applySuffix (hP : Accepts U P env.outline env.contract env.inFunction) (t : Term)
    (ht : t.Legal P env.outline) : ∀ s, Makes U P env (applySuffix t s)
  | .member start name => by
    rw [applySuffix]
    exact makes_member hP ht name start
  | .index start none => by
    cases t with
    | type ty p => exact makes_pure trivial
    | _ => exact makes_throw _
  | .index start (some e) => by
    cases t with
    | type ty p => exact makes_after fun _ => makes_pure trivial
    | value x => exact makes_bind (makes_expr hP e) (by grind) fun key hkey => makes_elementAt hP ht hkey start
    | _ => exact makes_throw _
  | .call start args => by
    rw [applySuffix]
    exact makes_call ⟨.inl rfl, makes_actions hP args, by nofun, grows_actions args, by nofun⟩ hP ht
  | .namedCall start args => by
    rw [applySuffix]
    exact makes_call ⟨.inr rfl, by nofun, makes_namedActions hP args, by nofun, grows_namedActions args⟩ hP ht
  | .step start op => by
    rw [applySuffix]
    exact makes_throw _

theorem makes_actions (hP : Accepts U P env.outline env.contract env.inFunction) : ∀ es, ∀ x ∈ actions es, Makes U P env x
  | [] => by
    rw [actions]
    nofun
  | e :: rest => by
    rw [actions]
    exact List.forall_mem_cons.mpr ⟨makes_expr hP e, makes_actions hP rest⟩

theorem makes_namedActions (hP : Accepts U P env.outline env.contract env.inFunction) :
    ∀ args, ∀ x ∈ namedActions args, Makes U P env x.2.2
  | [] => by
    rw [namedActions]
    nofun
  | ⟨start, name, value⟩ :: rest => by
    rw [namedActions]
    exact List.forall_mem_cons.mpr ⟨makes_expr hP value, makes_namedActions hP rest⟩

theorem makes_exprs (hP : Accepts U P env.outline env.contract env.inFunction) : ∀ es, Makes U P env (exprs es)
  | [] => by
    rw [exprs]
    exact makes_pure (by nofun)
  | e :: rest => by
    rw [exprs]
    refine makes_bind (makes_expr hP e) (by grind) fun x hx => ?_
    refine makes_bind (makes_exprs hP rest) (by grind) fun more hmore => ?_
    exact makes_pure (List.forall_mem_cons.mpr ⟨hx, hmore⟩)

theorem makes_primaryTerm (hP : Accepts U P env.outline env.contract env.inFunction) (start : Position) :
    ∀ p, Makes U P env (primaryTerm start p)
  | .number _ digits unit => by
    rw [primaryTerm]
    split
    · exact makes_pure (hP.leaf rfl rfl)
    · exact makes_throw _
  | .strings parts => by
    rw [primaryTerm]
    exact makes_pure (hP.leaf rfl rfl)
  | .bool b => by
    rw [primaryTerm]
    exact makes_pure (hP.leaf rfl rfl)
  | .typeOf t => by
    rw [primaryTerm]
    exact makes_after fun _ => makes_after fun _ => makes_pure trivial
  | .new t => by
    rw [primaryTerm]
    exact makes_after fun _ => makes_after fun _ => makes_pure trivial
  | .tuple elements => by
    rw [primaryTerm]
    refine makes_bind (makes_exprs hP elements) (by grind) fun xs hxs => ?_
    split
    · exact makes_pure (hxs _ List.mem_cons_self)
    · exact makes_pure (hP.each rfl hxs)
  | .array elements => by
    rw [primaryTerm]
    exact makes_bind (makes_exprs hP elements) (by grind) fun xs hxs => makes_pure (hP.each rfl hxs)
  | .ident name => by
    rw [primaryTerm]
    exact makes_resolveName hP name start

end

-- Statements.

theorem legal_stmt (s : Stmt) : Legal.legal P env.outline s = ∀ e ∈ s.exprs, e.Each P := rfl

theorem legal_block (b : Block) : Legal.legal P env.outline b = ∀ e ∈ b.exprs, e.Each P := rfl

theorem legal_of_directExprs {s : Stmt} (hs : s.substmts = [s]) (h : ∀ e ∈ s.directExprs, e.Each P) :
    ∀ e ∈ s.exprs, e.Each P := by
  rwa [Stmt.exprs_eq_directExprs hs]

-- The checks of what is assigned have no result.
theorem makes_assignable (start : Position) (e : Expr) : Makes U P env (assignable start e) :=
  fun _ _ _ _ _ => trivial

section Statements

variable (hP : Accepts U P env.outline env.contract env.inFunction)
include hP

theorem makes_stepStmt (start : Position) (op : Solidity.StepOp) {target : Resolving Expr}
    (htarget : Makes U P env target) : Makes U P env (stepStmt start op target) := by
  refine makes_bind htarget (by grind) fun x hx => ?_
  refine makes_bind (makes_assignable start x) (by grind) fun _ _ => makes_pure ?_
  refine legal_of_directExprs rfl (List.forall_mem_cons.mpr ⟨hx, List.forall_mem_singleton.mpr ?_⟩)
  exact hP.newBinary start op.binary hx (hP.leaf rfl rfl)

theorem makes_requireStmt? (start : Position) (primary : Solidity.Primary)
    (suffixes : List Solidity.Suffix) : Makes U P env (requireStmt? start primary suffixes) := by
  have hrequire {c : Expr} (hc : c.Each P) (entry : ErrorEntry) :
      Legal.legal P env.outline (some (Stmt.require start c entry)) := by
    rintro s ⟨⟩
    exact legal_of_directExprs rfl (List.forall_mem_singleton.mpr hc)
  have hnone : Legal.legal P env.outline (none : Option Stmt) := by nofun
  unfold requireStmt?
  split
  · refine makes_after fun found => ?_
    split
    · exact makes_pure hnone
    · dsimp only
      split
      · split
        · refine makes_bind (makes_expr hP _) (by grind) fun c hc => makes_after fun entry => ?_
          exact makes_pure (hrequire hc entry)
        · split
          · exact makes_throw _
          · refine makes_bind (makes_expr hP _) (by grind) fun c hc => makes_after fun _ => makes_after fun entry => ?_
            exact makes_pure (hrequire hc entry)
        · exact makes_throw _
      · exact makes_throw _
      · exact makes_pure hnone
  · exact makes_pure hnone

theorem makes_exprStmt (e : Solidity.Expression) : Makes U P env (exprStmt e) := by
  unfold exprStmt
  split
  · next assigned _ =>
      refine makes_bind (makes_conditional hP _ _) (by grind) fun target htarget => ?_
      refine makes_bind (makes_assignable _ _) (by grind) fun _ _ => ?_
      refine makes_bind (makes_expr hP _) (by grind) fun value hvalue => ?_
      split
      · refine makes_pure (legal_of_directExprs rfl ?_)
        exact List.forall_mem_cons.mpr ⟨htarget, List.forall_mem_singleton.mpr
          (hP.newBinary _ _ htarget hvalue)⟩
      · refine makes_pure (legal_of_directExprs rfl ?_)
        exact List.forall_mem_cons.mpr ⟨htarget, List.forall_mem_singleton.mpr hvalue⟩
  · have hexpr : Makes U P env (do return Stmt.expr e.start (← expr e)) :=
      makes_bind (makes_expr hP e) (by grind) fun x hx =>
        makes_pure (legal_of_directExprs rfl (List.forall_mem_singleton.mpr hx))
    split
    · exact makes_stepStmt hP _ _ (makes_operand hP _)
    · refine makes_bind (makes_operand hP _) (by grind) fun target htarget => ?_
      refine makes_bind (makes_assignable _ _) (by grind) fun _ _ => makes_pure (legal_of_directExprs rfl ?_)
      exact List.forall_mem_cons.mpr ⟨htarget, List.forall_mem_singleton.mpr (hP.leaf rfl rfl)⟩
    · split
      · exact makes_stepStmt hP _ _ (makes_operand hP _)
      · refine makes_bind (makes_requireStmt? hP _ _ _) (by grind) fun found hfound => ?_
        split
        · exact makes_pure (hfound _ rfl)
        · exact hexpr
    · exact hexpr

theorem makes_varDecl (d : Solidity.VariableDeclaration) : Makes U P env (varDecl d) := by
  have hdecl {x : Expr} (hx : x.Each P) (p : Param) :
      Makes U P env (do declareLocal p; return Stmt.decl d.start [p] x) :=
    makes_after fun _ => makes_pure (legal_of_directExprs rfl (List.forall_mem_singleton.mpr hx))
  unfold varDecl
  refine makes_after fun _ => makes_after fun t => ?_
  dsimp only
  cases d.value with
  | none =>
      split
      · exact makes_throw_bind _ _
      · exact makes_bind (makes_pure (hP.leaf rfl rfl)) (by grind) fun x hx => hdecl hx _
  | some v =>
      split
      · exact makes_throw_bind _ _
      · exact makes_bind (makes_expr hP v) (by grind) fun x hx => hdecl hx _

omit hP in
theorem calledName?_legal (hP : Accepts U P env.outline env.contract env.inFunction) {e : Solidity.Expression} {name : String}
    {args : CallArgs} (h : calledName? e = some (name, args)) : args.Legal U P env := by
  have h' := h
  unfold calledName? at h
  split at h
  · cases h
    exact ⟨.inl rfl, makes_actions hP _, by nofun, grow_calledName? h'⟩
  · cases h
    exact ⟨.inr rfl, by nofun, makes_namedActions hP _, grow_calledName? h'⟩
  · cases h

theorem makes_emitStmt (start : Position) (e : Solidity.Expression) : Makes U P env (emitStmt start e) := by
  unfold emitStmt
  split
  · exact makes_throw _
  · next hcalled =>
      refine makes_after fun found => ?_
      split
      · exact makes_throw _
      · refine makes_bind (makes_inOrder (calledName?_legal hP hcalled) _) (by grind) fun xs hxs => ?_
        split
        · exact makes_throw_bind _ _
        · exact makes_pure (legal_of_directExprs rfl hxs)

theorem makes_revertStmt (start : Position) (e : Solidity.Expression) :
    Makes U P env (revertStmt start e) := by
  unfold revertStmt
  split
  · split
    · exact makes_after fun _ => makes_pure (legal_of_directExprs rfl (by nofun))
    · exact makes_after fun _ => makes_after fun _ => makes_pure (legal_of_directExprs rfl (by nofun))
    · exact makes_throw _
  · split
    · exact makes_throw _
    · next hcalled =>
        refine makes_after fun found => ?_
        split
        · exact makes_throw _
        · refine makes_bind (makes_inOrder (calledName?_legal hP hcalled) _) (by grind) fun xs hxs => ?_
          split
          · exact makes_throw_bind _ _
          · exact makes_pure (legal_of_directExprs rfl hxs)

theorem makes_initStmt (s : Solidity.SimpleStatement) : Makes U P env (initStmt s) := by
  cases s with
  | expr _ e => exact makes_exprStmt hP e
  | varDecl _ d => exact makes_varDecl hP d

theorem makes_returnStmt (start : Position) (value : Option Solidity.Expression) :
    Makes U P env (stmt (.returnValue start value)) := by
  rw [stmt]
  have hvalue : Makes U P env (value.mapM expr) :=
    makes_option_mapM (fun _ h => by rintro _ ⟨⟩; exact h) (by nofun) value fun e _ => makes_expr hP e
  refine makes_bind hvalue (by grind) fun v hv => makes_pure (legal_of_directExprs rfl ?_)
  exact fun e he => hv e (Option.mem_toList.mp he)

end Statements

-- Statements that stand only inside a loop or a modifier.
theorem makes_allowed {f : Env → Bool} {s : Stmt} {d : Diagnostic} (hs : s.substmts = [s]) (hnone : s.directExprs = []) :
    Makes U P env (do
      if f (← read) then return s
      throw d) := by
  refine makes_read_bind ?_
  split
  · exact makes_pure (legal_of_directExprs hs (by simp [hnone]))
  · exact makes_throw _

-- Loops change only how their bodies can be left.
theorem makes_looping {act : Resolving α} (hact : Makes U P { env with inLoop := true } act) :
    Makes U P env (looping act) := fun g a g' h hwithin => hact g a g' h hwithin

-- A branch is a block or a statement that stands alone.
theorem makes_nested (hopen : U.Open) {s : Solidity.Statement} (hs : Makes U P env (stmt s)) : Makes U P env (nested s) := by
  have hother (h : ∀ p b, s ≠ .block p b) : Makes U P env (nested s) := by
    rw [nested]
    · refine makes_bind (makes_inScope hopen hs) (by grind) fun x hx => makes_pure ?_
      rw [legal_block, Block.exprs_eq, List.flatMap_singleton]
      exact hx
    · exact h
  cases s with
  | block p b =>
      intro g body g' h hwithin
      rw [nested] at h
      have hblock : Resolves (stmt (.block p b)) env g (.block body) g' := by
        rw [stmt]
        exact resolves_bind.mpr ⟨body, g', h, rfl⟩
      have hlegal := hs g _ g' hblock hwithin
      rwa [legal_stmt, Stmt.exprs_block] at hlegal
  | _ => exact hother fun _ _ h => by cases h

mutual

theorem makes_block (env : Env) (hopen : U.Open) (hP : Accepts U P env.outline env.contract env.inFunction) :
    ∀ b, Makes U P env (block b)
  | ⟨start, _, statements⟩ => by
    rw [block]
    refine makes_bind (makes_inScope hopen (makes_stmts env hopen hP statements)) (by grind) fun body hbody => makes_pure ?_
    intro e he
    rw [Block.exprs_eq] at he
    obtain ⟨s, hs, he⟩ := List.mem_flatMap.mp he
    exact hbody s hs e he

theorem makes_stmts (env : Env) (hopen : U.Open) (hP : Accepts U P env.outline env.contract env.inFunction) :
    ∀ ss, Makes U P env (stmts ss)
  | [] => by
    rw [stmts]
    exact makes_pure (by nofun)
  | s :: rest => by
    rw [stmts]
    refine makes_bind (makes_stmt env hopen hP s) (by grind) fun x hx => ?_
    refine makes_bind (makes_stmts env hopen hP rest) (by grind) fun more hmore => ?_
    exact makes_pure (List.forall_mem_cons.mpr ⟨hx, hmore⟩)

theorem makes_stmt (env : Env) (hopen : U.Open) (hP : Accepts U P env.outline env.contract env.inFunction) :
    ∀ s, Makes U P env (stmt s)
  | .block _ b => by
    rw [stmt]
    refine makes_bind (makes_block env hopen hP b) (by grind) fun body hbody => makes_pure ?_
    rwa [legal_stmt, Stmt.exprs_block]
  | .unchecked _ b => by
    rw [stmt]
    refine makes_bind (makes_block env hopen hP b) (by grind) fun body hbody => makes_pure ?_
    rw [legal_stmt, Stmt.exprs_block, Block.exprs_eq]
    rwa [legal_block, Block.exprs_eq] at hbody
  | .ifElse start cond whenTrue none => by
    rw [stmt]
    refine makes_bind (makes_expr hP cond) (by grind) fun c hc => ?_
    refine makes_bind (makes_nested hopen (makes_stmt env hopen hP whenTrue)) (by grind) fun t ht => makes_pure ?_
    rw [legal_stmt, Stmt.exprs_ifElse]
    simpa using ⟨hc, ht⟩
  | .ifElse start cond whenTrue (some whenFalse) => by
    rw [stmt]
    refine makes_bind (makes_expr hP cond) (by grind) fun c hc => ?_
    refine makes_bind (makes_nested hopen (makes_stmt env hopen hP whenTrue)) (by grind) fun t ht => ?_
    refine makes_bind (makes_nested hopen (makes_stmt env hopen hP whenFalse)) (by grind) fun e he => makes_pure ?_
    rw [legal_stmt, Stmt.exprs_ifElse]
    simp only [List.forall_mem_cons, List.forall_mem_append, Option.toList_some, List.flatMap_singleton]
    exact ⟨hc, ht, he⟩
  | .forLoop start init cond post body => by
    rw [stmt]
    have hinit : Makes U P env (init.mapM initStmt) :=
      makes_option_mapM (fun _ h => by rintro _ ⟨⟩; exact h) (by nofun) init fun s _ => makes_initStmt hP s
    have hcond : Makes U P env (cond.mapM expr) :=
      makes_option_mapM (fun _ h => by rintro _ ⟨⟩; exact h) (by nofun) cond fun e _ => makes_expr hP e
    have hpost : Makes U P env (post.mapM exprStmt) :=
      makes_option_mapM (fun _ h => by rintro _ ⟨⟩; exact h) (by nofun) post fun e _ => makes_exprStmt hP e
    refine makes_inScope hopen (makes_bind hinit (by grind) fun i hi => makes_bind hcond (by grind) fun c hc => ?_)
    refine makes_bind hpost (by grind) fun p hp => ?_
    have hbody : Makes U P env (looping (nested body)) :=
      makes_looping (makes_nested hopen (makes_stmt { env with inLoop := true } hopen hP body))
    refine makes_bind hbody (by grind) fun b hb => makes_pure ?_
    rw [legal_stmt, Stmt.exprs_forLoop]
    simp only [List.forall_mem_append, List.forall_mem_flatMap, Option.mem_toList]
    exact ⟨hc, ⟨hi, hp⟩, hb⟩
  | .whileLoop start cond body => by
    rw [stmt]
    refine makes_bind (makes_expr hP cond) (by grind) fun c hc => ?_
    have hbody : Makes U P env (looping (nested body)) :=
      makes_looping (makes_nested hopen (makes_stmt { env with inLoop := true } hopen hP body))
    refine makes_bind hbody (by grind) fun b hb => makes_pure ?_
    rw [legal_stmt, Stmt.exprs_whileLoop]
    exact List.forall_mem_cons.mpr ⟨hc, hb⟩
  | .doWhile start body cond => by
    rw [stmt]
    have hbody : Makes U P env (looping (nested body)) :=
      makes_looping (makes_nested hopen (makes_stmt { env with inLoop := true } hopen hP body))
    refine makes_bind hbody (by grind) fun b hb => ?_
    refine makes_bind (makes_expr hP cond) (by grind) fun c hc => makes_pure ?_
    rw [legal_stmt, Stmt.exprs_whileLoop]
    exact List.forall_mem_cons.mpr ⟨hc, hb⟩
  | .returnValue start value => makes_returnStmt hP start value
  | .emit start e => by
    rw [stmt]
    exact makes_emitStmt hP start e
  | .revert start e => by
    rw [stmt]
    exact makes_revertStmt hP start e
  | .breakLoop start => by
    rw [stmt]
    exact makes_allowed rfl rfl
  | .continueLoop start => by
    rw [stmt]
    exact makes_allowed rfl rfl
  | .placeholder start => by
    rw [stmt]
    exact makes_allowed rfl rfl
  | .expr _ e => by
    rw [stmt]
    exact makes_exprStmt hP e
  | .tupleDecl start vars value => by
    rw [stmt]
    refine makes_bind (makes_expr hP value) (by grind) fun v hv => makes_after fun params => makes_pure ?_
    exact legal_of_directExprs rfl (List.forall_mem_singleton.mpr hv)
  | .varDecl _ d => by
    rw [stmt]
    exact makes_varDecl hP d

end

end RustContracts.Resolve
