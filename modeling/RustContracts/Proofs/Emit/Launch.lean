import RustContracts.Proofs.Emit.BaseArgs

-- What `_init` does when it runs: each initializer is called with the values that the constructor of its class is given.
namespace RustContracts

open Program
open Rust (Machine Host Value Store Exit Run runAll)

-- A step that declares and changes no variables.
def Rust.Run.KeepsLocals {α : Type} (x : Run α) : Prop := ∀ m, (x.run m).machine.locals = m.locals

namespace Rust.Run.KeepsLocals

variable {α β : Type}

theorem pure (a : α) : (Pure.pure a : Run α).KeepsLocals := fun _ => rfl

theorem exit (e : Exit) : (Run.exit e : Run α).KeepsLocals := fun _ => rfl

theorem bind {x : Run α} {f : α → Run β} (hx : x.KeepsLocals) (hf : ∀ a, (f a).KeepsLocals) : (x >>= f).KeepsLocals := by
  intro m
  have hlocals := hx m
  rw [Run.run_bind]
  rcases hr : x.run m with ⟨r, m₁, es⟩
  rw [hr] at hlocals
  cases r with
  | error e => exact hlocals
  | ok a => exact (hf a m₁).trans hlocals

theorem effect (f : Store → Option (Value × Store)) : (Run.effect f).KeepsLocals := by
  intro m
  unfold Run.effect
  dsimp only
  split <;> rfl

theorem callFunction (h : Host) (path : String) (args : List Value) : (Rust.callFunction h path args).KeepsLocals := by
  unfold Rust.callFunction
  repeat' split
  all_goals first | exact .exit _ | exact .pure _ | exact .effect _

theorem tryValue (v : Value) : (Rust.tryValue v).KeepsLocals := by
  unfold Rust.tryValue
  split
  · exact .pure _
  · exact .exit _
  · exact .exit _

end Rust.Run.KeepsLocals

namespace Emit

variable {E : Env}

-- What every call of an initializer passes on besides the arguments.
def context (E : Env) : List Rust.Expr :=
  match E.target with
  | .ink _ => []
  | .soroban =>
    .ident "env" ::
      if E.package.constructorNeedsCaller E.contract then [(Rust.Expr.ident "caller").method "clone"] else []

namespace Launch

variable {L : Launch} {m m₁ : Machine} {own : List (String × Value)}

-- Calls of initializers.

variable (L) in
-- What the call of a class's initializer with these values comes to.
def reach (before vs : List Value) (k : Contract) : Run Value :=
  match L.env.target with
  | .ink _ => Run.effect (L.host.method (classConvention L.env k).name .unit vs)
  | .soroban => Rust.callFunction L.host ("Self::" ++ (classConvention L.env k).name) (before ++ vs)

variable (L) in
-- The initializer of a class runs with what its constructor is given.
def callInit (before : List Value) (given : Given) (k : Contract) : Run Unit := do
  let v ← L.reach before (((given.lookup k.name).getD []).map Prod.snd) k
  let _ ← Rust.tryValue v

variable (L) in
-- What stands around a call: the contract, and what is passed on to every initializer.
structure Surrounded (m : Machine) (before : List Value) : Prop where
  self : (Rust.Expr.ident "self").reference? m = none
  context : Rust.Expr.AllRead L.host L.fuel m (context L.env) before

theorem Surrounded.of_lookup {before : List Value} (h : L.Surrounded m before)
    (hm : ∀ n ∈ surroundings, m₁.locals.lookup n = m.locals.lookup n) : L.Surrounded m₁ before := by
  obtain ⟨hself, hcontext⟩ := h
  refine ⟨?_, ?_⟩
  · rw [Rust.Expr.reference?, hm "self" List.mem_cons_self]
    exact hself
  · have hreads : ∀ x ∈ Emit.context L.env, ∀ v, x.Reads L.host L.fuel m v → x.Reads L.host L.fuel m₁ v := by
      intro x hx v hv
      unfold Emit.context at hx
      split at hx
      · cases hx
      · rcases List.mem_cons.mp hx with rfl | hx
        · exact hv.of_lookup (hm "env" (by decide))
        · split at hx
          · obtain rfl := List.mem_singleton.mp hx
            exact (hv.of_clone.of_lookup (hm "caller" (by decide))).clone
          · cases hx
    exact ((List.forall₂_and_left _ _).mpr ⟨hreads, hcontext⟩).imp fun x v h => h.1 v h.2

theorem eval_callText {k : Contract} {xs : List Rust.Expr} {before vs : List Value}
    (hsurrounded : L.Surrounded m before) (hxs : Rust.Expr.AllRead L.host L.fuel m xs vs) :
    ((callText L.env.target false (classConvention L.env k) xs).eval L.host L.fuel).run m =
      (L.reach before vs k).run m := by
  obtain ⟨hself, hcontext⟩ := hsurrounded
  unfold Emit.context at hcontext
  unfold callText reach
  cases ht : L.env.target with
  | ink version =>
      have hclone : (classConvention L.env k).name ≠ "clone" := by
        intro heq
        have hchars := congrArg String.toList heq
        simp [classConvention, String.toList_append] at hchars
      rw [Rust.Expr.eval, Run.run_bind_of_ok (Run.run_machine m)]
      simp only [hself, Rust.Expr.isSelf, beq_self_eq_true, if_true, hclone, if_false]
      rw [Run.run_bind_of_ok hxs.eval]
  | soroban =>
      rw [ht] at hcontext
      have hargs : Rust.Expr.AllRead L.host L.fuel m _ (before ++ vs) := List.rel_append hcontext hxs
      simp only [Rust.Expr.callPath, Rust.Expr.eval, Rust.Expr.name]
      exact Run.run_bind_of_ok hargs.eval

theorem keepsLocals_callInit (before : List Value) (given : Given) (k : Contract) :
    (L.callInit before given k).KeepsLocals := by
  have hreach (vs : List Value) : (L.reach before vs k).KeepsLocals := by
    unfold reach
    split
    · exact .effect _
    · exact .callFunction _ _ _
  exact (hreach _).bind fun v => Run.KeepsLocals.bind (.tryValue v) fun _ => .pure ()

theorem run_initCalls {args : Contract → List Rust.Expr} {before : List Value} {given : Given}
    {classes : List Contract}
    (hargs : ∀ k ∈ classes, ∀ m', m'.locals = m.locals → ∃ own, given.lookup k.name = some own ∧
      Rust.Expr.AllRead L.host L.fuel m' (args k) (own.map Prod.snd))
    (hsurrounded : ∀ m', m'.locals = m.locals → L.Surrounded m' before) (hm : m₁.locals = m.locals) :
    (runAll L.host L.fuel (classes.map (initCall L.env args))).run m₁ =
      (classes.forM (L.callInit before given)).run m₁ := by
  induction classes generalizing m₁ with
  | nil => rfl
  | cons k rest ih =>
      obtain ⟨hown, hargs⟩ := List.forall_mem_cons.mp hargs
      obtain ⟨own, hlook, hxs⟩ := hown m₁ hm
      have hcall : ((initCall L.env args k).run L.host L.fuel).run m₁ = (L.callInit before given k).run m₁ := by
        rw [initCall, Rust.Stmt.run, Rust.Expr.eval, Run.bind_assoc, Run.run_bind, eval_callText (hsurrounded m₁ hm) hxs,
          ← Run.run_bind, callInit, hlook]
        rfl
      have hlocals := (keepsLocals_callInit (L := L) before given k m₁).trans hm
      have hforM : (k :: rest).forM (L.callInit before given) =
          L.callInit before given k >>= fun _ => rest.forM (L.callInit before given) := rfl
      rw [List.map_cons, runAll, hforM, Run.run_bind, Run.run_bind, hcall]
      rcases hr : (L.callInit before given k).run m₁ with ⟨r, m₂, es⟩
      rw [hr] at hlocals
      cases r with
      | error e => rfl
      | ok u => exact congrArg (Rust.Outcome.behind es) (ih hargs hlocals)

-- An initializer is called with the variables for its parameters.
theorem initArgs_eq {classes : List Contract} {k : Contract} (hsplits : Splits E classes [])
    (hk : k ∈ E.contract :: classes) :
    initArgs E.contract (classes.flatMap boundOf) k = (variablesOf E k).map Rust.Expr.ident := by
  have hnodup := hsplits.nodup
  rw [List.append_nil] at hnodup
  by_cases hmain : k.name = E.contract.name
  · obtain rfl : k = E.contract := List.inj_on_of_nodup_map hnodup hk List.mem_cons_self hmain
    simp [initArgs, variablesOf, variableOf]
  · have hclass : k ∈ classes := (List.mem_cons.mp hk).resolve_left fun heq => hmain (heq ▸ rfl)
    rw [initArgs, if_neg hmain, filter_boundOf (List.nodup_cons.mp hnodup).2 hclass]
    simp [boundOf, variablesOf, variableOf, hmain]

theorem Gave.reads {k : Contract} (h : L.Gave m k own)
    (hplain : ∀ n ∈ variablesOf L.env k, n ∉ surroundings ∧ Rust.isPath n = false ∧ Rust.isTuplePattern n = false) :
    Rust.Expr.AllRead L.host L.fuel m ((variablesOf L.env k).map Rust.Expr.ident) (own.map Prod.snd) := by
  rw [Rust.Expr.AllRead, variablesOf, List.map_map, List.forall₂_map_left_iff, List.forall₂_map_right_iff]
  refine ((List.forall₂_and_left _ _).mpr ⟨fun pi hpi => hplain _ (mem_variablesOf hpi), h⟩).imp ?_
  rintro ⟨p, i⟩ nv ⟨⟨hfree, hpath, -⟩, -, hlook⟩
  have hself : variableOf L.env k p i ≠ "self" := fun heq => hfree (heq ▸ List.mem_cons_self)
  exact .ident hself hpath hlook

theorem between_start {start : State} (h : StartsInit L.env start) : L.Between start := by
  obtain ⟨s, hframe, hw⟩ := h
  refine ⟨?_, fun p hp _ => ?_⟩
  · rw [(@frame_forM _ _ _ (fun name => some (Rust.Name.value name)) _ _ hw).1, hframe]
  · exact @local_forM _ _ _ (fun name => some (Rust.Name.value name)) _ _ hw p.name _ rfl (.inl (List.mem_map_of_mem hp))

theorem reached_start (hgave : L.Gave L.machine L.env.contract own) :
    L.Reached [] L.machine [(L.env.contract.name, own)] := by
  refine ⟨fun k hk => ?_, fun name other hother => ?_, fun _ _ => rfl⟩
  · obtain rfl := List.mem_singleton.mp hk
    exact ⟨own, by simp, hgave⟩
  · rw [List.lookup_cons] at hother
    split at hother
    · next hname => exact ⟨_, List.mem_cons_self, (beq_iff_eq.mp hname).symm⟩
    · cases hother

-- `_init` evaluates the arguments for base constructors and calls the initializers with them.
theorem run_init {init : Rust.Function} {binds : List Rust.Stmt} {bound : List BoundArg} {before : List Value}
    {given : Given} {store : Store} (hsplits : Splits L.env [] ((L.env.package.chainOf L.env.contract).drop 1))
    (hinit : WritesInit L.env init binds bound)
    (hmeets : L.MeetsAll ((L.env.package.chainOf L.env.contract).drop 1))
    (hgave : L.Gave L.machine L.env.contract own) (hsurrounded : L.Surrounded L.machine before)
    (hgiven : giveBases L.env L.meaning ((L.env.package.chainOf L.env.contract).drop 1)
      [(L.env.contract.name, own)] L.machine.store = some (given, store)) :
    ∃ m₁ es, m₁.store = store ∧
      (runAll L.host L.fuel (binds ++ (initClasses L.env).map (initCall L.env (initArgs L.env.contract bound)))).run
        L.machine = (((initClasses L.env).forM (L.callInit before given)).run m₁).behind es := by
  obtain ⟨start, s', hstart, hargs⟩ := hinit.args
  obtain ⟨m₁, es, hrun, hstore, hreached⟩ :=
    run_bindBaseArgs hsplits (between_start hstart) (reached_start hgave) hmeets hargs hgiven
  have hdone : Splits L.env ((L.env.package.chainOf L.env.contract).drop 1) [] := by
    obtain ⟨hchain, hapart, hnodup, hclass⟩ := hsplits
    rw [List.nil_append] at hchain hnodup hclass
    exact ⟨by simpa using hchain, hapart, by simpa using hnodup, by simpa using hclass⟩
  have hbound : bound = ((L.env.package.chainOf L.env.contract).drop 1).flatMap boundOf := bound_bindBaseArgs hargs
  refine ⟨m₁, es, hstore, ?_⟩
  rw [Rust.run_append_of_ok hrun, hbound]
  refine congrArg _ (run_initCalls (fun k hk m' hm' => ?_) (fun m' hm' => ?_) rfl)
  · have hchain : k ∈ L.env.contract :: (L.env.package.chainOf L.env.contract).drop 1 := by
      have hmem := (mem_initClasses.mp hk).1
      rwa [hdone.chain, List.append_nil] at hmem
    obtain ⟨own', hlook, hgave'⟩ := hreached.params k hchain
    have hsame : m₁.SameBut [] m' := fun n _ => by rw [hm']
    rw [initArgs_eq hdone hchain]
    refine ⟨own', hlook, (hgave'.of_sameBut hsame (by simp)).reads fun n hn => ?_⟩
    exact hdone.apart.plain n (List.mem_flatMap.mpr ⟨k, (mem_initClasses.mp hk).1, hn⟩)
  · exact hsurrounded.of_lookup fun n hn => by rw [hm', hreached.surroundings n hn]

end Launch

theorem splits_start (hcode : Resolve.PackageCode E.package) (hE : Sourced E) (hapart : NamesApart E) :
    Splits E [] ((E.package.chainOf E.contract).drop 1) := by
  obtain ⟨bases, hbases⟩ := hE.chain
  have hchain : E.contract :: ([] ++ (E.package.chainOf E.contract).drop 1) = E.package.chainOf E.contract := by
    simp [hbases]
  refine ⟨hchain.symm, hapart, ?_, fun k hk => hcode.class_eq (mem_of_chainOf (hchain ▸ hk))⟩
  rw [hchain]
  exact hE.chain_nodup

-- Where all variables of `_init` have different names, each initializer is called with what the constructor of its
-- class is given; the contract's own is given what `_init` is.
theorem initializers_given {name : String} {unit : Solidity.SourceUnit} {p : Package} {c : Contract} {target : Target}
    {out : Rust.File} (hp : Resolve.package name unit = .ok p) (hc : c ∈ p.classes)
    (hfile : file p c target = .ok out) (hruns : runsInit ⟨p, c, target⟩ = true) (hapart : NamesApart ⟨p, c, target⟩) :
    ∃ init ∈ out.methods, init.name = "_init" ∧ ∃ code, init.body = some code ∧
      ∀ (L : Launch) (own : List (String × Value)) (before : List Value) (given : Given) (store : Store),
        L.env = ⟨p, c, target⟩ → L.MeetsAll ((p.chainOf c).drop 1) → L.Gave L.machine c own →
        L.Surrounded L.machine before →
        giveBases L.env L.meaning ((p.chainOf c).drop 1) [(c.name, own)] L.machine.store = some (given, store) →
        given.lookup c.name = some own ∧ ∃ m₁ es, m₁.store = store ∧
          (runAll L.host L.fuel code.stmts).run L.machine =
            (((initClasses L.env).forM (L.callInit before given)).run m₁).behind es := by
  have hE := sourced_package hp hc target
  obtain ⟨s, s', deployed, inits, messages, others, hdeployment, hmethods⟩ :=
    methods_of_file (E := ⟨p, c, target⟩) hfile
  obtain ⟨init, binds, bound, classInits, rfl, hinit, -⟩ := writes_deployment hE hruns hdeployment
  refine ⟨init, by simp [hmethods], hinit.name, _, hinit.body, ?_⟩
  rintro ⟨host, fuel, env, meaning, machine⟩ own before given store rfl hmeets hgave hsurrounded hgiven
  have hsplits := splits_start (Resolve.package_code hp) hE hapart
  refine ⟨?_, Launch.run_init hsplits hinit hmeets hgave hsurrounded hgiven⟩
  have hfresh : c.name ∉ ((p.chainOf c).drop 1).map (·.name) := (List.nodup_cons.mp hsplits.nodup).1
  rw [lookup_giveBases hfresh hgiven]
  simp

namespace Deploy

-- What variables and truth values mean.
def scopeValue : Meaning := fun _ e scope store =>
  match e with
  | .var _ name _ => if name = "" then none else (scope.lookup name).map fun v => (v, store)
  | .bool _ b => some (.bool b, store)
  | _ => none

-- Initializers note what they are called with.
def noting : Host where
  field _ := ⟨false, .unit⟩
  literal _ := none
  unary _ _ := none
  binary _ _ _ := none
  cast _ _ := none
  function path args store := some (.variant "Ok" [.unit], store.write ⟨path, []⟩ (.tuple args))
  method name _ args store := some (.variant "Ok" [.unit], store.write ⟨name, []⟩ (.tuple args))
  contract _ _ _ _ _ := none

def launch (E : Env) (locals : List (String × Rust.Binding)) : Launch where
  host := noting
  fuel := 0
  env := E
  meaning := scopeValue
  machine := ⟨locals, fun _ => none⟩

-- Truth values are copied, so that a variable of that type is written by its name.
theorem writes_var {E : Env} {s : State} {start : Text.Position} {name ident : String}
    (hlocal : s.local? name = some ident) : ∃ s', Writes (exprAs .bool (.var start name .bool)) E s (.ident ident) s' := by
  have hname : Writes (local? name) E s (some ident) s := hlocal ▸ rfl
  have haccess : Writes (accessOf (some .bool) (.var start name .bool)) E s (.value (.ident ident)) s :=
    writes_bind.mpr ⟨E, s, rfl, writes_bind.mpr ⟨_, s, hname, rfl⟩⟩
  have hvalue : Writes (valueOf (.var start name .bool) (accessOf (some .bool) (.var start name .bool))) E s
      (.ident ident) s := writes_bind.mpr ⟨⟨⟩, s, rfl, writes_bind.mpr ⟨_, s, haccess, rfl⟩⟩
  obtain ⟨p, c, target⟩ := E
  cases target <;> exact ⟨s, writes_bind.mpr ⟨_, s, writes_bind.mpr ⟨_, s, hvalue, rfl⟩, rfl⟩⟩

theorem meets_var {E : Env} {locals : List (String × Rust.Binding)} {start : Text.Position} {name : String} :
    (launch E locals).Meets .bool (.var start name .bool) := by
  intro s m scope hsees x s' v store hw hv
  by_cases hname : name = ""
  · simp [launch, scopeValue, hname] at hv
  · obtain ⟨w, hlook, hw'⟩ : ∃ w, scope.lookup name = some w ∧ (w, m.store) = (v, store) := by
      simpa [launch, scopeValue, hname] using hv
    cases hw'
    obtain ⟨pre, post, hscope, -⟩ := List.lookup_eq_some_iff.mp hlook
    obtain ⟨ident, hlocal, hreads⟩ := hsees.values (name, v) (by simp [hscope]) hname
    obtain ⟨s₁, hwritten⟩ := @writes_var E s start name ident hlocal
    obtain ⟨rfl, -⟩ := hw.unique hwritten
    exact ⟨[], hreads⟩

def stackedLaunch : Launch := launch ⟨stackedPackage, derived, .soroban⟩ [("z", .value (.bool true))]

def stackedGiven : Given := [("A", [("x", .bool true)]), ("B", [("y", .bool true)]), ("C", [("z", .bool true)])]

theorem stacked_given : ∃ out, file stackedPackage derived .soroban = .ok out ∧
    NamesApart ⟨stackedPackage, derived, .soroban⟩ ∧
    giveBases stackedLaunch.env scopeValue ((stackedPackage.chainOf derived).drop 1) [("C", [("z", .bool true)])]
      (fun _ => none) = some (stackedGiven, fun _ => none) ∧
    ∃ init ∈ out.methods, init.name = "_init" ∧ ∃ code, init.body = some code ∧
      ∃ m₁ es, m₁.store = (fun _ => none) ∧ (runAll noting 0 code.stmts).run stackedLaunch.machine =
        (((initClasses stackedLaunch.env).forM
          (stackedLaunch.callInit [.variant "env" []] stackedGiven)).run m₁).behind es := by
  have hapart : NamesApart ⟨stackedPackage, derived, .soroban⟩ := ⟨by decide, by decide⟩
  have hgiven : giveBases stackedLaunch.env scopeValue ((stackedPackage.chainOf derived).drop 1)
      [("C", [("z", .bool true)])] (fun _ => none) = some (stackedGiven, fun _ => none) := rfl
  have hmeets : stackedLaunch.MeetsAll ((stackedPackage.chainOf derived).drop 1) := by
    refine List.forall_mem_cons.mpr ⟨fun call hcall pa hpa => ?_,
      List.forall_mem_cons.mpr ⟨fun call hcall pa hpa => ?_, fun k hk => by cases hk⟩⟩
    · obtain rfl : handed "B" "C" (.var default "z" .bool) = call := Option.some.inj hcall
      obtain rfl := List.mem_singleton.mp hpa
      exact meets_var
    · obtain rfl : handed "A" "B" (.var default "y" .bool) = call := Option.some.inj hcall
      obtain rfl := List.mem_singleton.mp hpa
      exact meets_var
  have hfile := file_stacked
  cases hout : file stackedPackage derived .soroban with
  | error d =>
      rw [hout] at hfile
      cases hfile
  | ok out =>
      have hderived : derived ∈ stackedPackage.classes := List.mem_of_getElem? (i := 2) rfl
      obtain ⟨init, hinit, hname, code, hcode, hruns⟩ :=
        initializers_given package_stacked hderived hout (by decide) hapart
      refine ⟨out, rfl, hapart, hgiven, init, hinit, hname, code, hcode, ?_⟩
      exact (hruns stackedLaunch _ [.variant "env" []] _ _ rfl hmeets (.cons ⟨rfl, rfl⟩ .nil)
        ⟨rfl, .cons rfl .nil⟩ hgiven).2

-- A parameter of the contract's own constructor with the name of the variable for an argument.

def shadowing : Solidity.SourceUnit :=
  ⟨default, [
    Resolve.plainContract "A" false [] [constructorOf "x" []],
    Resolve.plainContract "B" false ["A"] [constructorOf "a_x" [hands "A" (.bool true)]]]⟩

def shadowingPackage : Package :=
  { name := "sample"
    classes := [
      classOf "A" [] ["A"] [] [] [] "x",
      classOf "B" ["A"] ["B", "A"] [] [] [handed "A" "B" (.bool default true)] "a_x"] }

theorem package_shadowing : Resolve.package "sample" shadowing = .ok shadowingPackage := by cbv

def shadowed : Contract := shadowingPackage.classes.getD 1 default

def shadowedLaunch : Launch := launch ⟨shadowingPackage, shadowed, .ink .v5⟩ [("a_x", .value (.bool false))]

-- What is noted for an initializer when the `_init` of a contract runs.
def noted? (L : Launch) (name : String) : Option Value := do
  let out ← (file L.env.package L.env.contract L.env.target).toOption
  let init ← out.methods.find? (·.name = "_init")
  let code ← init.body
  ((runAll L.host L.fuel code.stmts).run L.machine).machine.store ⟨name, []⟩

def shadowedGiven : Given := [("A", [("x", .bool true)]), ("B", [("a_x", .bool false)])]

-- The contract is deployed with `false`, and its initializer is called with `true`.
theorem parameter_shadowed :
    Resolve.package "sample" shadowing = .ok shadowingPackage ∧
    giveBases shadowedLaunch.env scopeValue ((shadowingPackage.chainOf shadowed).drop 1) [("B", [("a_x", .bool false)])]
      (fun _ => none) = some (shadowedGiven, fun _ => none) ∧
    (((initClasses shadowedLaunch.env).forM (shadowedLaunch.callInit [] shadowedGiven)).run
      shadowedLaunch.machine).machine.store ⟨"_init_b", []⟩ = some (.tuple [.bool false]) ∧
    noted? shadowedLaunch "_init_b" = some (.tuple [.bool true]) :=
  ⟨package_shadowing, rfl, by decide +kernel, by decide +kernel⟩

end Deploy

end Emit

end RustContracts
