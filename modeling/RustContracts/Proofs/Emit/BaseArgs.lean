import RustContracts.Proofs.Emit.Initialize
import RustContracts.Proofs.Emit.Setting

-- The arguments of base constructors: what the constructor of each class is given, and the variables of `_init` that
-- hold it.
namespace RustContracts

open Program
open Rust (Machine Host Value Store Run runAll)

-- The machines differ in variables of these names and in storage only.
def Rust.Machine.SameBut (names : List String) (m m' : Machine) : Prop :=
  ∀ n, n ∉ names → m'.locals.lookup n = m.locals.lookup n

namespace Rust.Machine.SameBut

variable {names : List String} {m m₁ m₂ : Machine}

theorem refl (names : List String) (m : Machine) : m.SameBut names m := fun _ _ => rfl

theorem trans (h : m.SameBut names m₁) (h' : m₁.SameBut names m₂) : m.SameBut names m₂ :=
  fun n hn => (h' n hn).trans (h n hn)

theorem mono {more : List String} (h : m.SameBut names m₁) (hsubset : names ⊆ more) : m.SameBut more m₁ :=
  fun n hn => h n fun hmem => hn (hsubset hmem)

theorem push (store : Store) (name : String) (v : Value) :
    m.SameBut [name] ({ m with store := store }.push name v) :=
  fun _ hn => Machine.lookup_push_of_ne fun heq => hn (List.mem_singleton.mpr heq)

end Rust.Machine.SameBut

namespace Emit

-- What constructors are given.

-- What an expression of the source is where variables have values: its value for a type, and storage behind it.
abbrev Meaning := Ty → Expr → List (String × Value) → Store → Option (Value × Store)

-- The parameters of constructors with their values, by class.
abbrev Given := List (String × List (String × Value))

def evalArgs (M : Meaning) (scope : List (String × Value)) :
    List Param → List Expr → Store → Option (List (String × Value) × Store)
  | p :: params, arg :: args, store => do
    let (v, store) ← M p.type arg scope store
    let (more, store) ← evalArgs M scope params args store
    return ((p.name, v) :: more, store)
  | _, _, store => some ([], store)

-- The arguments for a class are those of the most derived class that gives some. They are evaluated with what the
-- constructor of that class was given itself, derived classes first.
def giveBases (E : Env) (M : Meaning) : List Contract → Given → Store → Option (Given × Store)
  | [], given, store => some (given, store)
  | k :: rest, given, store =>
    if (constructorParams k).isEmpty then giveBases E M rest ((k.name, []) :: given) store
    else do
      let call ← supplier? E k
      let scope ← given.lookup call.declarer
      let (own, store) ← evalArgs M scope (constructorParams k) call.args store
      giveBases E M rest ((k.name, own) :: given) store

variable {M : Meaning}

theorem evalArgs_cons {scope own : List (String × Value)} {p : Param} {params : List Param} {arg : Expr}
    {args : List Expr} {store store' : Store}
    (h : evalArgs M scope (p :: params) (arg :: args) store = some (own, store')) :
    ∃ v mid more, M p.type arg scope store = some (v, mid) ∧
      evalArgs M scope params args mid = some (more, store') ∧ own = (p.name, v) :: more := by
  obtain ⟨⟨v, mid⟩, hv, h⟩ := Option.bind_eq_some_iff.mp h
  obtain ⟨⟨more, last⟩, hmore, h⟩ := Option.bind_eq_some_iff.mp h
  cases h
  exact ⟨v, mid, more, hv, hmore, rfl⟩

theorem giveBases_cons {E : Env} {k : Contract} {rest : List Contract} {given given' : Given} {store store' : Store}
    (hparams : constructorParams k ≠ [])
    (h : giveBases E M (k :: rest) given store = some (given', store')) :
    ∃ call scope own mid, supplier? E k = some call ∧ given.lookup call.declarer = some scope ∧
      evalArgs M scope (constructorParams k) call.args store = some (own, mid) ∧
      giveBases E M rest ((k.name, own) :: given) mid = some (given', store') := by
  rw [giveBases, if_neg (by simpa using hparams)] at h
  obtain ⟨call, hcall, h⟩ := Option.bind_eq_some_iff.mp h
  obtain ⟨scope, hscope, h⟩ := Option.bind_eq_some_iff.mp h
  obtain ⟨⟨own, mid⟩, hown, h⟩ := Option.bind_eq_some_iff.mp h
  exact ⟨call, scope, own, mid, hcall, hscope, hown, h⟩

-- What a class has been given stays.
theorem lookup_giveBases {E : Env} {classes : List Contract} {given given' : Given} {store store' : Store} {name : String}
    (hname : name ∉ classes.map (·.name)) (h : giveBases E M classes given store = some (given', store')) :
    given'.lookup name = given.lookup name := by
  induction classes generalizing given store with
  | nil =>
      cases h
      rfl
  | cons k rest ih =>
      obtain ⟨hne, hname⟩ := not_or.mp (List.mem_cons.not.mp hname)
      have hcons (own : List (String × Value)) : ((k.name, own) :: given).lookup name = given.lookup name := by
        rw [List.lookup_cons, beq_false_of_ne hne]
      by_cases hparams : constructorParams k = []
      · rw [giveBases, if_pos (by simp [hparams])] at h
        rw [ih hname h, hcons]
      · obtain ⟨call, scope, own, mid, -, -, -, h⟩ := giveBases_cons hparams h
        rw [ih hname h, hcons]

-- Variables.

variable {E : Env} {s s' t : State}

-- Parameters that are declared under identifiers which depend on their names alone.
theorem local_forM {f : String → Option String} {params : List Param} {u : Unit}
    (hw : Writes (params.forM fun p => match f p.name with
      | some ident => declare p.name ident
      | none => pure ⟨⟩) E s u s') (name ident : String) (hf : f name = some ident)
    (hname : name ∈ params.map Param.name ∨ s.local? name = some ident) : s'.local? name = some ident := by
  induction params generalizing s with
  | nil =>
      obtain ⟨-, rfl⟩ := writes_pure.mp hw
      simpa using hname
  | cons p params ih =>
      obtain ⟨_, s₁, hp, hw⟩ := writes_bind.mp hw
      refine ih hw ?_
      rw [List.map_cons, List.mem_cons] at hname
      dsimp only at hp
      by_cases hsame : name = p.name
      · rw [← hsame, hf] at hp
        refine .inr ?_
        rw [local_declare hp, if_pos rfl]
      · refine (hname.imp_left fun h => h.resolve_left hsame).imp_right fun h => ?_
        split at hp
        · rw [local_declare hp, if_neg hsame, h]
        · obtain ⟨-, rfl⟩ := writes_pure.mp hp
          exact h

-- What is declared for a block is forgotten with it.
theorem frame_forM {f : String → Option String} {params : List Param} {u : Unit}
    (hw : Writes (params.forM fun p => match f p.name with
      | some ident => declare p.name ident
      | none => pure ⟨⟩) E s u s') :
    s'.frame.exposed = s.frame.exposed ∧ s'.frame.scopes.tail = s.frame.scopes.tail := by
  induction params generalizing s with
  | nil =>
      obtain ⟨-, rfl⟩ := writes_pure.mp hw
      exact ⟨rfl, rfl⟩
  | cons p params ih =>
      obtain ⟨_, s₁, hp, hw⟩ := writes_bind.mp hw
      obtain ⟨hexposed, htail⟩ := ih hw
      dsimp only at hp
      split at hp
      · obtain rfl := writes_modify.mp hp
        refine ⟨hexposed, htail.trans ?_⟩
        dsimp only
        cases s.frame.scopes <;> rfl
      · obtain ⟨-, rfl⟩ := writes_pure.mp hp
        exact ⟨hexposed, htail⟩

theorem frame_declareGiver {bound : List BoundArg} {giver : String} {u : Unit}
    (hw : Writes (declareGiver bound giver) E s u s') :
    s'.frame.exposed = s.frame.exposed ∧ s'.frame.scopes.tail = s.frame.scopes.tail := by
  obtain ⟨env, s₁, henv, hw⟩ := writes_bind.mp hw
  obtain ⟨rfl, rfl⟩ := writes_read.mp henv
  dsimp only at hw
  split at hw
  · exact @frame_forM _ _ _ (boundIdent? bound giver) _ _ hw
  · obtain ⟨-, rfl⟩ := writes_pure.mp hw
    exact ⟨rfl, rfl⟩

-- What a function of deployment always has: these are no names for its variables.
def surroundings : List String := ["self", "env", "caller"]

def argName (base : String) (p : Param) (i : Nat) : String :=
  Rust.Name.value base ++ "_" ++ trimRaw (paramName p i)

def argNames (base : String) (i : Nat) (params : List Param) : List String :=
  (params.zipIdx i).map fun (p, i) => argName base p i

theorem argNames_cons (base : String) (i : Nat) (p : Param) (params : List Param) :
    argNames base i (p :: params) = argName base p i :: argNames base (i + 1) params := by
  rw [argNames, List.zipIdx_cons, List.map_cons, argNames]

-- The variable of `_init` for a parameter of a class's constructor.
def variableOf (E : Env) (k : Contract) (p : Param) (i : Nat) : String :=
  if k.name = E.contract.name then paramName p i else argName k.name p i

def variablesOf (E : Env) (k : Contract) : List String :=
  (constructorParams k).zipIdx.map fun (p, i) => variableOf E k p i

theorem mem_variablesOf {k : Contract} {p : Param} {i : Nat} (hp : (p, i) ∈ (constructorParams k).zipIdx) :
    variableOf E k p i ∈ variablesOf E k := List.mem_map.mpr ⟨(p, i), hp, rfl⟩

-- All variables of `_init` have names of their own.
structure NamesApart (E : Env) : Prop where
  nodup : ((E.package.chainOf E.contract).flatMap (variablesOf E)).Nodup
  plain : ∀ n ∈ (E.package.chainOf E.contract).flatMap (variablesOf E),
    n ∉ surroundings ∧ Rust.isPath n = false ∧ Rust.isTuplePattern n = false

-- The hierarchy split between the classes that have been given arguments and the others, and the names in it.
structure Splits (E : Env) (done rest : List Contract) : Prop where
  chain : E.package.chainOf E.contract = E.contract :: (done ++ rest)
  apart : NamesApart E
  nodup : ((E.contract :: (done ++ rest)).map (·.name)).Nodup
  class_eq : ∀ k ∈ E.contract :: (done ++ rest), E.package.class? k.name = some k

namespace Splits

variable {done rest : List Contract} {k : Contract}

theorem next (h : Splits E done (k :: rest)) : Splits E (done ++ [k]) rest := by
  have happend : done ++ [k] ++ rest = done ++ k :: rest := by simp
  exact ⟨happend ▸ h.chain, h.apart, happend ▸ h.nodup, happend ▸ h.class_eq⟩

theorem name_fresh (h : Splits E done (k :: rest)) : k.name ∉ (E.contract :: done).map (·.name) := by
  have hnodup := h.nodup
  rw [← List.cons_append, List.map_append, List.map_cons] at hnodup
  exact fun hmem => (List.nodup_append.mp hnodup).2.2 _ hmem _ List.mem_cons_self rfl

theorem variables_nodup (h : Splits E done (k :: rest)) : (variablesOf E k).Nodup ∧
    ∀ k' ∈ E.contract :: done, ∀ n ∈ variablesOf E k', n ∉ variablesOf E k := by
  have hnodup := h.apart.nodup
  rw [h.chain, ← List.cons_append, List.flatMap_append, List.flatMap_cons] at hnodup
  obtain ⟨-, hrest, hfront⟩ := List.nodup_append.mp hnodup
  refine ⟨(List.nodup_append.mp hrest).1, fun k' hk' n hn hmem => ?_⟩
  exact hfront n (List.mem_flatMap.mpr ⟨k', hk', hn⟩) n (List.mem_append_left _ hmem) rfl

theorem variablesOf_eq (h : Splits E done (k :: rest)) :
    variableOf E k = argName k.name ∧ variablesOf E k = argNames k.name 0 (constructorParams k) := by
  have hne : k.name ≠ E.contract.name := fun heq => h.name_fresh (heq ▸ List.mem_cons_self)
  have hvariable : variableOf E k = argName k.name := by
    funext p i
    rw [variableOf, if_neg hne]
  exact ⟨hvariable, by rw [variablesOf, argNames, hvariable]⟩

theorem plain (h : Splits E done (k :: rest)) :
    ∀ n ∈ variablesOf E k, n ∉ surroundings ∧ Rust.isPath n = false ∧ Rust.isTuplePattern n = false := by
  refine fun n hn => h.apart.plain n ?_
  rw [h.chain]
  exact List.mem_flatMap.mpr ⟨k, by simp, hn⟩

end Splits

-- The variables that are bound for a class.
def boundOf (k : Contract) : List BoundArg :=
  (constructorParams k).zipIdx.map fun (p, i) => ⟨k.name, p.name, argName k.name p i⟩

theorem boundOf_nil {k : Contract} (h : constructorParams k = []) : boundOf k = [] := by
  rw [boundOf, h]
  rfl

theorem bound_bindArgs {base : String} {i : Nat} {params : List Param} {args : List Expr}
    {written : List Rust.Stmt × List BoundArg} (hlength : args.length = params.length)
    (hw : Writes (bindArgs base i params args) E s written s') :
    written.2 = (params.zipIdx i).map fun (p, i) => ⟨base, p.name, argName base p i⟩ := by
  induction params generalizing i args written s s' with
  | nil =>
      obtain ⟨rfl, -⟩ := writes_pure.mp hw
      rfl
  | cons p params ih =>
      cases args with
      | nil => cases hlength
      | cons arg args =>
          rw [bindArgs] at hw
          obtain ⟨x, s₁, -, hw⟩ := writes_bind.mp hw
          obtain ⟨more, s₂, hmore, hw⟩ := writes_bind.mp hw
          obtain ⟨rfl, -⟩ := writes_pure.mp hw
          rw [List.zipIdx_cons, List.map_cons, ← ih (by simpa using hlength) hmore]
          rfl

section BaseArgs

variable {calls : List BaseCall} {bound : List BoundArg} {classes : List Contract} {k : Contract}

theorem bound_bindBaseArgs {written : List Rust.Stmt × List BoundArg}
    (hw : Writes (bindBaseArgs calls bound classes) E s written s') : written.2 = bound ++ classes.flatMap boundOf := by
  induction classes generalizing bound written s with
  | nil =>
      obtain ⟨rfl, -⟩ := writes_pure.mp hw
      simp
  | cons k rest ih =>
      rcases writes_bindBaseArgs_cons hw with ⟨hparams, hw⟩ |
        ⟨call, t, stmts, own, t', later, all, -, -, hlength, -, hown, hlater, rfl⟩
      · rw [ih hw, List.flatMap_cons, boundOf_nil hparams, List.nil_append]
      · have hbound : own = boundOf k := bound_bindArgs hlength hown
        have hall : all = _ := ih hlater
        rw [hall, hbound, List.flatMap_cons, List.append_assoc]

theorem base_boundOf {b : BoundArg} (hb : b ∈ boundOf k) : b.base = k.name := by
  obtain ⟨pi, -, rfl⟩ := List.mem_map.mp hb
  rfl

theorem filter_boundOf (hnodup : (classes.map (·.name)).Nodup) (hk : k ∈ classes) :
    (classes.flatMap boundOf).filter (·.base = k.name) = boundOf k := by
  induction classes with
  | nil => cases hk
  | cons k' rest ih =>
      obtain ⟨hfresh, hnodup⟩ := List.nodup_cons.mp hnodup
      rw [List.flatMap_cons, List.filter_append]
      rcases List.mem_cons.mp hk with rfl | hk
      · have hself : (boundOf k).filter (·.base = k.name) = boundOf k :=
          List.filter_eq_self.mpr fun b hb => decide_eq_true (base_boundOf hb)
        have hrest : (rest.flatMap boundOf).filter (·.base = k.name) = [] := by
          refine filter_base_of_fresh (fun b hb => ?_) hfresh
          obtain ⟨k', hk', hb⟩ := List.mem_flatMap.mp hb
          exact List.mem_map.mpr ⟨k', hk', (base_boundOf hb).symm⟩
        rw [hself, hrest, List.append_nil]
      · have hother : (boundOf k').filter (·.base = k.name) = [] := by
          refine @filter_base_of_fresh _ [k'.name] k.name (fun b hb => ?_) fun hname => hfresh ?_
          · exact List.mem_singleton.mpr (base_boundOf hb)
          · exact List.mem_map.mpr ⟨k, hk, List.mem_singleton.mp hname⟩
        rw [hother, List.nil_append, ih hnodup hk]

-- A parameter with a name is found again by it.
theorem boundIdent_eq {p : Param} {i : Nat} (hbound : bound.filter (·.base = k.name) = boundOf k)
    (hp : (p, i) ∈ (constructorParams k).zipIdx) (hname : p.name ≠ "") :
    boundIdent? bound k.name p.name = some (argName k.name p i) := by
  have hmem : (⟨k.name, p.name, argName k.name p i⟩ : BoundArg) ∈ boundOf k := List.mem_map.mpr ⟨(p, i), hp, rfl⟩
  cases hfind : bound.reverse.find? fun b => b.base = k.name && b.param = p.name with
  | none =>
      have hnone := List.find?_eq_none.mp hfind _ (List.mem_reverse.mpr (List.mem_of_mem_filter (hbound ▸ hmem)))
      simp at hnone
  | some b =>
      have hb : b.base = k.name ∧ b.param = p.name := by simpa using List.find?_some hfind
      have hown : b ∈ boundOf k :=
        hbound ▸ List.mem_filter.mpr ⟨List.mem_reverse.mp (List.mem_of_find?_eq_some hfind), by simp [hb.1]⟩
      obtain ⟨⟨q, j⟩, -, rfl⟩ := List.mem_map.mp hown
      have hq : q.name = p.name := hb.2
      rw [boundIdent?, hfind, Option.map_some]
      simp only [argName, paramName, hq, if_neg hname]

end BaseArgs

-- A run of `_init`.
structure Launch where
  host : Host
  fuel : Nat
  env : Env
  meaning : Meaning
  -- where the run starts
  machine : Machine

namespace Launch

variable (L : Launch)

-- Where an argument stands: each variable that is in scope there has its value.
structure Sees (s : State) (m : Machine) (scope : List (String × Value)) : Prop where
  inside : s.frame.exposed = false
  values : ∀ nv ∈ scope, nv.1 ≠ "" →
    ∃ ident, s.local? nv.1 = some ident ∧ (Rust.Expr.ident ident).Reads L.host L.fuel m nv.2
  surroundings : ∀ n ∈ surroundings, m.locals.lookup n = L.machine.locals.lookup n

-- The code that is written for an expression does what the expression means.
def Meets (t : Ty) (e : Expr) : Prop :=
  ∀ s m scope, L.Sees s m scope → ∀ x s' v store, Writes (exprAs t e) L.env s x s' →
    L.meaning t e scope m.store = some (v, store) →
      ∃ es, (x.eval L.host L.fuel).run m = ⟨.ok v, { m with store := store }, es⟩

-- The code of all arguments for base constructors does what they mean.
def MeetsAll (classes : List Contract) : Prop :=
  ∀ k ∈ classes, ∀ call, supplier? L.env k = some call →
    ∀ pa ∈ (constructorParams k).zip call.args, L.Meets pa.1.type pa.2

variable {L} {m m₁ : Machine} {scope own : List (String × Value)}

theorem Sees.of_sameNames (h : L.Sees s m scope) (hs : SameNames s s') : L.Sees s' m scope where
  inside := by rw [hs.1, h.inside]
  values := by
    simp only [State.local?, hs.scopes_eq]
    exact h.values
  surroundings := h.surroundings

-- The variables for parameters have their values.
def Bound (variableFor : Param → Nat → String) (m : Machine) : List (Param × Nat) → List (String × Value) → Prop :=
  List.Forall₂ fun pi nv => nv.1 = pi.1.name ∧ m.locals.lookup (variableFor pi.1 pi.2) = some (.value nv.2)

-- Each argument is evaluated and bound to the variable for its parameter.
theorem run_bindArgs {base : String} {i : Nat} {params : List Param} {args : List Expr} {store : Store}
    {stmts : List Rust.Stmt} {bound : List BoundArg} (hlength : args.length = params.length)
    (hw : Writes (bindArgs base i params args) L.env s (stmts, bound) s')
    (hnodup : (argNames base i params).Nodup) (hplain : ∀ n ∈ argNames base i params, Rust.isTuplePattern n = false)
    (hsees : ∀ m', m.SameBut (argNames base i params) m' → L.Sees s m' scope)
    (hmeets : ∀ pa ∈ params.zip args, L.Meets pa.1.type pa.2)
    (hown : evalArgs L.meaning scope params args m.store = some (own, store)) :
    ∃ m₁ es, (runAll L.host L.fuel stmts).run m = ⟨.ok (), m₁, es⟩ ∧ m₁.store = store ∧
      m.SameBut (argNames base i params) m₁ ∧ Bound (argName base) m₁ (params.zipIdx i) own := by
  induction params generalizing i args s s' m stmts bound own store with
  | nil =>
      obtain ⟨heq, -⟩ := writes_pure.mp hw
      cases heq
      cases hown
      exact ⟨m, [], rfl, rfl, .refl _ m, .nil⟩
  | cons p params ih =>
      cases args with
      | nil => cases hlength
      | cons arg args =>
          obtain ⟨v, mid, more, hv, hmore, rfl⟩ := evalArgs_cons hown
          rw [bindArgs] at hw
          obtain ⟨x, s₁, hx, hw⟩ := writes_bind.mp hw
          obtain ⟨⟨rest, bound'⟩, s₂, hrest, hw⟩ := writes_bind.mp hw
          obtain ⟨heq, -⟩ := writes_pure.mp hw
          cases heq
          rw [argNames_cons] at hnodup hplain hsees ⊢
          obtain ⟨hfresh, hnodup⟩ := List.nodup_cons.mp hnodup
          obtain ⟨hpattern, hplain⟩ := List.forall_mem_cons.mp hplain
          obtain ⟨harg, hmeets⟩ := List.forall_mem_cons.mp hmeets
          obtain ⟨es, heval⟩ := harg s m scope (hsees m (.refl _ m)) x s₁ v mid hx hv
          have hpush : m.SameBut [argName base p i] ({ m with store := mid }.push (argName base p i) v) :=
            .push mid _ v
          obtain ⟨m₁, es', hrun, hstore, hsame, hbound⟩ := ih (by simpa using hlength) hrest hnodup hplain
            (fun m' hm' => (hsees m' ((hpush.mono (by simp)).trans (hm'.mono (by simp)))).of_sameNames
              ((steady_exprAs _ _).sameNames hx)) hmeets hmore
          refine ⟨m₁, es ++ es', ?_, hstore, (hpush.mono (by simp)).trans (hsame.mono (by simp)), .cons ⟨rfl, ?_⟩ hbound⟩
          · rw [runAll]
            refine (Run.run_bind_ok (Rust.run_letVar_of_eval hpattern heval)).trans ?_
            rw [hrun, Rust.Outcome.behind_mk]
          · rw [hsame _ hfresh, Machine.lookup_push_self]

variable (L) in
-- A class's constructor was given these values.
def Gave (m : Machine) (k : Contract) (own : List (String × Value)) : Prop :=
  Bound (variableOf L.env k) m (constructorParams k).zipIdx own

theorem Gave.of_sameBut {names : List String} {k : Contract} (h : L.Gave m k own) (hm : m.SameBut names m₁)
    (hnames : ∀ n ∈ variablesOf L.env k, n ∉ names) : L.Gave m₁ k own := by
  have hall : List.Forall₂ (fun pi nv => variableOf L.env k pi.1 pi.2 ∉ names ∧ (nv.1 = pi.1.name ∧
      m.locals.lookup (variableOf L.env k pi.1 pi.2) = some (.value nv.2))) (constructorParams k).zipIdx own :=
    (List.forall₂_and_left _ _).mpr ⟨fun pi hpi => hnames _ (List.mem_map_of_mem hpi), h⟩
  exact hall.imp fun pi nv ⟨hn, hname, hlook⟩ => ⟨hname, (hm _ hn).trans hlook⟩

variable (L) in
-- Where `_init` stands between the arguments for two classes.
structure Between (s : State) : Prop where
  inside : s.frame.exposed = false
  own : ∀ p ∈ constructorParams L.env.contract, p.name ≠ "" → s.local? p.name = some (Rust.Name.value p.name)

variable (L) in
-- What the classes have been given so far.
structure Reached (done : List Contract) (m : Machine) (given : Given) : Prop where
  params : ∀ k ∈ L.env.contract :: done, ∃ own, given.lookup k.name = some own ∧ L.Gave m k own
  classes : ∀ name own, given.lookup name = some own → ∃ k ∈ L.env.contract :: done, k.name = name
  surroundings : ∀ n ∈ surroundings, m.locals.lookup n = L.machine.locals.lookup n

-- The arguments that a class gives are evaluated in the scope of its constructor.
theorem Reached.sees {done rest : List Contract} {given : Given} {giver : String} {u : Unit}
    (hr : L.Reached done m given) (hsplits : Splits L.env done rest) (hs : L.Between s)
    (hscope : given.lookup giver = some scope)
    (hw : Writes (declareGiver (done.flatMap boundOf) giver) L.env s.opened u t) : L.Sees t m scope := by
  obtain ⟨k, hk, rfl⟩ := hr.classes _ _ hscope
  obtain ⟨own, hown, hgave⟩ := hr.params k hk
  obtain rfl : own = scope := Option.some.inj (hown.symm.trans hscope)
  have hchain : k ∈ L.env.contract :: (done ++ rest) :=
    List.cons_subset_cons _ (List.subset_append_left done rest) hk
  have hident (p : Param) (i : Nat) (hp : (p, i) ∈ (constructorParams k).zipIdx) (hname : p.name ≠ "") :
      t.local? p.name = some (variableOf L.env k p i) := by
    unfold declareGiver at hw
    obtain ⟨env, s₁, henv, hw⟩ := writes_bind.mp hw
    obtain ⟨rfl, rfl⟩ := writes_read.mp henv
    dsimp only at hw
    have hparam : p ∈ constructorParams k := List.fst_mem_of_mem_zipIdx hp
    by_cases hmain : k.name = L.env.contract.name
    · rw [hmain, bne_self_eq_false, if_neg Bool.false_ne_true] at hw
      obtain ⟨-, rfl⟩ := writes_pure.mp hw
      obtain rfl : k = L.env.contract :=
        List.inj_on_of_nodup_map hsplits.nodup hchain List.mem_cons_self hmain
      rw [variableOf, if_pos rfl, paramName, if_neg hname]
      exact hs.own p hparam hname
    · rw [if_pos (bne_iff_ne.mpr hmain), hsplits.class_eq k hchain, Option.map_some, Option.getD_some] at hw
      have hdone : k ∈ done := (List.mem_cons.mp hk).resolve_left fun heq => hmain (heq ▸ rfl)
      have hfilter := filter_boundOf (((List.nodup_cons.mp hsplits.nodup).2).sublist
        ((List.sublist_append_left done rest).map _)) hdone
      rw [variableOf, if_neg hmain]
      exact local_forM hw p.name _ (boundIdent_eq hfilter hp hname) (.inl (List.mem_map_of_mem hparam))
  refine ⟨(frame_declareGiver hw).1.trans hs.inside, fun nv hnv hname => ?_, hr.surroundings⟩
  obtain ⟨⟨p, i⟩, hp, heq, hlook⟩ := forall₂_exists hgave.flip hnv
  dsimp only at heq hlook
  have hmem : variableOf L.env k p i ∈ (L.env.package.chainOf L.env.contract).flatMap (variablesOf L.env) := by
    exact List.mem_flatMap.mpr ⟨k, hsplits.chain ▸ hchain, mem_variablesOf hp⟩
  obtain ⟨hfree, hpath, -⟩ := hsplits.apart.plain _ hmem
  refine ⟨_, heq ▸ hident p i hp (heq ▸ hname), .ident (fun hself => hfree ?_) hpath hlook⟩
  exact hself ▸ List.mem_cons_self

theorem steady_bindArgs (base : String) (i : Nat) (params : List Param) (args : List Expr) :
    Steady (bindArgs base i params args) := by
  induction params generalizing i args with
  | nil => exact steady_pure _
  | cons p params ih =>
      cases args with
      | nil => exact steady_pure _
      | cons arg args =>
          exact steady_bind (steady_exprAs _ _) fun x => steady_bind (ih _ _) fun more => steady_pure _

-- Behind the scope of the constructor that gives the arguments `_init` stands where it stood.
theorem Between.closed {bound : List BoundArg} {giver base : String} {params : List Param} {args : List Expr}
    {u : Unit} {written : List Rust.Stmt × List BoundArg} (h : L.Between s)
    (hgiver : Writes (declareGiver bound giver) L.env s.opened u t)
    (hargs : Writes (bindArgs base 0 params args) L.env t written s') : L.Between s'.closed := by
  obtain ⟨hexposed, htail⟩ := frame_declareGiver hgiver
  have hsame := (steady_bindArgs base 0 params args).sameNames hargs
  have hscopes : s'.closed.frame.scopes = s.frame.scopes := by
    change s'.frame.scopes.tail = s.frame.scopes
    rw [hsame.scopes_eq, htail]
    rfl
  refine ⟨?_, ?_⟩
  · change s'.frame.exposed = false
    rw [hsame.1]
    exact hexposed.trans h.inside
  · simp only [State.local?, hscopes]
    exact h.own

theorem Reached.of_sameBut {done rest : List Contract} {given : Given} {k : Contract} (hr : L.Reached done m given)
    (hsplits : Splits L.env done (k :: rest)) (hm : m.SameBut (variablesOf L.env k) m₁) : L.Reached done m₁ given := by
  obtain ⟨-, hapart⟩ := hsplits.variables_nodup
  refine ⟨fun k' hk' => ?_, hr.classes, fun n hn => ?_⟩
  · obtain ⟨own, hown, hgave⟩ := hr.params k' hk'
    exact ⟨own, hown, hgave.of_sameBut hm (hapart k' hk')⟩
  · rw [hm n fun hmem => (hsplits.plain n hmem).1 hn]
    exact hr.surroundings n hn

theorem Reached.cons {done rest : List Contract} {given : Given} {k : Contract} (hr : L.Reached done m given)
    (hsplits : Splits L.env done (k :: rest)) (hgave : L.Gave m k own) :
    L.Reached (done ++ [k]) m ((k.name, own) :: given) := by
  refine ⟨fun k' hk' => ?_, fun name other hother => ?_, hr.surroundings⟩
  · rw [← List.cons_append, List.mem_append, List.mem_singleton] at hk'
    rcases hk' with hk' | rfl
    · obtain ⟨own', hown', hgave'⟩ := hr.params k' hk'
      have hne : k'.name ≠ k.name := fun heq => hsplits.name_fresh (heq ▸ List.mem_map_of_mem hk')
      exact ⟨own', by rw [List.lookup_cons, beq_false_of_ne hne, hown'], hgave'⟩
    · exact ⟨own, by simp, hgave⟩
  · rw [List.lookup_cons] at hother
    split at hother
    · next hname => exact ⟨k, by simp, (beq_iff_eq.mp hname).symm⟩
    · obtain ⟨k', hk', hname⟩ := hr.classes name other hother
      exact ⟨k', List.cons_subset_cons _ (List.subset_append_left _ _) hk', hname⟩

-- Each class is given what it is to be given.
theorem run_bindBaseArgs {done classes : List Contract} {given given' : Given} {store : Store}
    {written : List Rust.Stmt × List BoundArg} (hsplits : Splits L.env done classes) (hs : L.Between s)
    (hr : L.Reached done m given)
    (hmeets : L.MeetsAll classes)
    (hw : Writes (bindBaseArgs (baseCallsOf (L.env.package.chainOf L.env.contract)) (done.flatMap boundOf) classes)
      L.env s written s')
    (hgiven : giveBases L.env L.meaning classes given m.store = some (given', store)) :
    ∃ m₁ es, (runAll L.host L.fuel written.1).run m = ⟨.ok (), m₁, es⟩ ∧ m₁.store = store ∧
      L.Reached (done ++ classes) m₁ given' := by
  induction classes generalizing done s m given written with
  | nil =>
      obtain ⟨rfl, -⟩ := writes_pure.mp hw
      cases hgiven
      exact ⟨m, [], rfl, rfl, by rwa [List.append_nil]⟩
  | cons k rest ih =>
      obtain ⟨hown, hmeets⟩ := List.forall_mem_cons.mp hmeets
      have happend : done ++ [k] ++ rest = done ++ k :: rest := by simp
      have hbound : done.flatMap boundOf ++ boundOf k = (done ++ [k]).flatMap boundOf := by simp
      rcases writes_bindBaseArgs_cons hw with ⟨hparams, hw⟩ |
        ⟨call, t, stmts, bound, t', later, all, hparams, hcall, hlength, hgiver, hargs, hlater, rfl⟩
      · rw [giveBases, if_pos (by simp [hparams])] at hgiven
        rw [← List.append_nil (done.flatMap boundOf), ← boundOf_nil hparams, hbound] at hw
        have hgave : L.Gave m k [] := by
          rw [Gave, hparams]
          exact .nil
        obtain ⟨m₁, es, hrun, hstore, hreached⟩ := ih hsplits.next hs (hr.cons hsplits hgave) hmeets hw hgiven
        exact ⟨m₁, es, hrun, hstore, happend ▸ hreached⟩
      · obtain ⟨call', scope, own, mid, hsupplier, hscope, hvalues, hgiven⟩ := giveBases_cons hparams hgiven
        obtain rfl : call = call' := Option.some.inj (hcall.symm.trans hsupplier)
        obtain rfl : bound = boundOf k := bound_bindArgs hlength hargs
        rw [hbound] at hlater
        obtain ⟨hvariable, hvariables⟩ := hsplits.variablesOf_eq
        have hplain := hsplits.plain
        have hnodup := hsplits.variables_nodup.1
        have hsees (m' : Machine) (hm' : m.SameBut (variablesOf L.env k) m') : L.Sees t m' scope :=
          (hr.of_sameBut hsplits hm').sees hsplits hs hscope hgiver
        rw [hvariables] at hplain hnodup hsees
        obtain ⟨m₁, es, hrun, hstore, hsame, hgave⟩ := run_bindArgs hlength hargs hnodup
          (fun n hn => (hplain n hn).2.2) hsees (hown call hsupplier) hvalues
        rw [← hvariables] at hsame
        rw [← hvariable] at hgave
        obtain ⟨m₂, es', hrun', hstore', hreached⟩ := ih hsplits.next (hs.closed hgiver hargs)
          ((hr.of_sameBut hsplits hsame).cons hsplits hgave) hmeets hlater (hstore ▸ hgiven)
        refine ⟨m₂, es ++ es', ?_, hstore', happend ▸ hreached⟩
        rw [Rust.run_append_of_ok hrun, hrun', Rust.Outcome.behind_mk]

end Launch

end Emit

end RustContracts
