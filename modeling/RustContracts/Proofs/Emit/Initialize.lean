import RustContracts.Proofs.Emit.Layout

-- The order of deployment: `_init` evaluates the arguments for base constructors, derived classes first, and then calls
-- the initializer of each class, base classes first.
namespace RustContracts

open Program

namespace Emit

variable {E : Env} {s s' : State}

-- Arguments for base constructors.

-- The call that gives the arguments for a base: that of the most derived class that has one.
def supplier? (E : Env) (k : Contract) : Option BaseCall :=
  (baseCallsOf (E.package.chainOf E.contract)).find? (·.base = k.name)

-- A variable for each parameter of a base's constructor, with the argument for it as value.
def BindsArgs (E : Env) (k : Contract) (code : List Rust.Stmt) : Prop :=
  ∃ args : List Expr, args.length = (constructorParams k).length ∧
    (constructorParams k ≠ [] → (supplier? E k).map BaseCall.args = some args) ∧
    List.Forall₂ (fun pa st => ∃ ident x, st = .letVar false ident "" (some x) ∧ Operand E pa.2 x pa.1.type)
      ((constructorParams k).zip args) code

theorem binds_of_bindArgs {base : String} {i : Nat} {params : List Param} {args : List Expr}
    {written : List Rust.Stmt × List BoundArg} (hw : Writes (bindArgs base i params args) E s written s') :
    List.Forall₂ (fun pa st => ∃ ident x, st = Rust.Stmt.letVar false ident "" (some x) ∧ Operand E pa.2 x pa.1.type)
      (params.zip args) written.1 := by
  induction params generalizing i args written s s' with
  | nil =>
      obtain ⟨rfl, -⟩ := writes_pure.mp hw
      exact .nil
  | cons p params ih =>
      cases args with
      | nil =>
          obtain ⟨rfl, -⟩ := writes_pure.mp hw
          exact .nil
      | cons arg args =>
          rw [bindArgs] at hw
          obtain ⟨x, s₁, hx, hw⟩ := writes_bind.mp hw
          obtain ⟨⟨stmts, bound⟩, s₂, hmore, hw⟩ := writes_bind.mp hw
          obtain ⟨rfl, -⟩ := writes_pure.mp hw
          exact .cons ⟨_, x, rfl, operand_of_exprAs hx⟩ (ih hmore)

theorem binds_of_bindBaseArgs {bound : List BoundArg} {classes : List Contract}
    {written : List Rust.Stmt × List BoundArg}
    (hw : Writes (bindBaseArgs (baseCallsOf (E.package.chainOf E.contract)) bound classes) E s written s') :
    ∃ binds, List.Forall₂ (BindsArgs E) classes binds ∧ written.1 = binds.flatten := by
  induction classes generalizing bound written s with
  | nil =>
      obtain ⟨rfl, -⟩ := writes_pure.mp hw
      exact ⟨[], .nil, rfl⟩
  | cons k rest ih =>
      rcases writes_bindBaseArgs_cons hw with ⟨hparams, hw⟩ |
        ⟨call, t, stmts, own, t', later, all, -, hcall, hlength, -, hown, hlater, rfl⟩
      · obtain ⟨binds, hbinds, hcode⟩ := ih hw
        refine ⟨[] :: binds, .cons ⟨[], by rw [hparams]; rfl, fun hne => absurd hparams hne, ?_⟩ hbinds, hcode⟩
        rw [hparams]
        exact .nil
      · obtain ⟨binds, hbinds, hcode⟩ := ih hlater
        refine ⟨stmts :: binds, .cons ⟨call.args, hlength, fun _ => ?_, binds_of_bindArgs hown⟩ hbinds, ?_⟩
        · rw [supplier?, hcall, Option.map_some]
        · rw [List.flatten_cons, ← hcode]

-- Initializers of classes.

-- Assignments for the fields that are declared with a value, in the order of their declaration.
inductive AssignsFields : List StorageField → List Stmt → Prop
  | nil : AssignsFields [] []
  | skip {f : StorageField} {fields : List StorageField} {assigns : List Stmt} (hvalue : f.value = none)
      (hrest : AssignsFields fields assigns) : AssignsFields (f :: fields) assigns
  | assign {f : StorageField} {fields : List StorageField} {assigns : List Stmt} {value : Expr}
      (hvalue : f.value = some value) (hrest : AssignsFields fields assigns) :
      AssignsFields (f :: fields) (.assign {} (.field {} f.toFieldDecl) value :: assigns)

theorem assignsFields_fieldInits (k : Contract) : AssignsFields k.fields (fieldInits k) := by
  unfold fieldInits
  induction k.fields with
  | nil => exact .nil
  | cons f fields ih =>
      cases hvalue : f.value with
      | none =>
          rw [List.filterMap_cons_none (by rw [hvalue, Option.map_none])]
          exact .skip hvalue ih
      | some value =>
          rw [List.filterMap_cons_some (by rw [hvalue, Option.map_some])]
          exact .assign hvalue ih

-- Code for statements one after another, each written where the one before it ended.
inductive CodesFor (E : Env) : State → List Stmt → List (List Rust.Stmt) → State → Prop
  | nil {s : State} : CodesFor E s [] [] s
  | cons {s s₁ s' : State} {st : Stmt} {sts : List Stmt} {code : List Rust.Stmt} {codes : List (List Rust.Stmt)}
      (hfirst : Writes (withRefs st (stmt st)) E s code s₁) (hrest : CodesFor E s₁ sts codes s') :
      CodesFor E s (st :: sts) (code :: codes) s'

theorem codesFor_stmts {sts : List Stmt} {code : List Rust.Stmt} (hw : Writes (stmts sts) E s code s') :
    ∃ codes, CodesFor E s sts codes s' ∧ code = codes.flatten := by
  induction sts generalizing code s with
  | nil =>
      obtain ⟨rfl, rfl⟩ := writes_pure.mp hw
      exact ⟨[], .nil, rfl⟩
  | cons st sts ih =>
      rw [stmts] at hw
      obtain ⟨first, s₁, hfirst, hw⟩ := writes_bind.mp hw
      obtain ⟨more, s₂, hmore, hw⟩ := writes_bind.mp hw
      obtain ⟨rfl, rfl⟩ := writes_pure.mp hw
      obtain ⟨codes, hcodes, rfl⟩ := ih hmore
      exact ⟨first :: codes, .cons hfirst hcodes, rfl⟩

theorem codesFor_append {front back : List Stmt} {codes : List (List Rust.Stmt)}
    (h : CodesFor E s (front ++ back) codes s') :
    ∃ s₁ before after, CodesFor E s front before s₁ ∧ CodesFor E s₁ back after s' ∧ codes = before ++ after := by
  induction front generalizing s codes with
  | nil => exact ⟨s, [], codes, .nil, h, rfl⟩
  | cons st front ih =>
      cases h with
      | cons hfirst hrest =>
          obtain ⟨s₁, before, after, hbefore, hafter, rfl⟩ := ih hrest
          exact ⟨s₁, _ :: before, after, .cons hfirst hbefore, hafter, rfl⟩

-- The body of a class's constructor inside its modifiers.
def ConstructorBody (E : Env) (k : Contract) (body : List Stmt) : Prop :=
  match constructorImpl? k, (constructorImpl? k).bind (·.body) with
  | some i, some b => ∃ inner s s', Writes (guarded b i.modifiers) E s inner s' ∧ body = inner.stmts
  | _, _ => body = []

theorem constructorBody_of_code {k : Contract} {body : List Stmt} (hw : Writes (constructorCode k) E s body s') :
    ConstructorBody E k body := by
  unfold constructorCode at hw
  unfold ConstructorBody
  generalize constructorImpl? k = impl at hw ⊢
  cases impl with
  | none => exact (writes_pure.mp hw).1.symm
  | some i =>
      rw [Option.bind_some] at hw ⊢
      cases hb : i.body with
      | none =>
          rw [hb] at hw
          exact (writes_pure.mp hw).1.symm
      | some b =>
          rw [hb] at hw
          obtain ⟨inner, s₁, hinner, hw⟩ := writes_bind.mp hw
          exact ⟨inner, s, s₁, hinner, (writes_pure.mp hw).1.symm⟩

-- The initializer of a class: an assignment for each field that is declared with a value, in the order of their
-- declaration, and behind them the body of the constructor.
structure InitializesClass (E : Env) (k : Contract) (g : Rust.Function) : Prop where
  name : g.name = "_init_" ++ trimRaw (Rust.Name.value k.name)
  body : ∃ assigns body fields codes tail start s₁ s', AssignsFields k.fields assigns ∧ ConstructorBody E k body ∧
    CodesFor E start assigns fields s₁ ∧ CodesFor E s₁ body codes s' ∧
    g.body = some ⟨fields.flatten ++ codes.flatten, tail⟩

theorem writes_preamble {r : Routine} (hr : r.isExposed = false) {before : List Rust.Stmt}
    (hw : Writes (preamble r) E s before s') : before = [] := by
  unfold preamble at hw
  rw [writes_of_target] at hw
  cases ht : E.target with
  | ink v =>
      rw [ht] at hw
      exact (writes_pure.mp hw).1.symm
  | soroban =>
      rw [ht] at hw
      rw [← (writes_pure.mp hw).1, Soroban.preamble, hr, Bool.and_false]
      rfl

theorem initializes_classInit {k : Contract} {r : Routine} {g : Rust.Function}
    (hr : Describes E (classConvention E k) r) (hw : Writes (classInit k r) E s g s') : InitializesClass E k g := by
  rw [classInit_eq] at hw
  obtain ⟨_, s₁, -, hw⟩ := writes_bind.mp hw
  obtain ⟨body, s₂, hbody, hw⟩ := writes_bind.mp hw
  unfold initializer at hw
  obtain ⟨_, s₃, -, hw⟩ := writes_bind.mp hw
  obtain ⟨params, s₄, hparams, hw⟩ := writes_bind.mp hw
  obtain ⟨shell, s₅, hshell, hw⟩ := writes_bind.mp hw
  obtain ⟨written, s₆, hwritten, hw⟩ := writes_bind.mp hw
  obtain ⟨before, s₇, hbefore, hw⟩ := writes_bind.mp hw
  obtain ⟨rfl, -⟩ := writes_pure.mp hw
  obtain rfl := writes_preamble hr.exposed hbefore
  obtain ⟨codes, hcodes, rfl⟩ := codesFor_stmts hwritten
  obtain ⟨s', fields, rest, hfields, hrest, rfl⟩ := codesFor_append hcodes
  refine ⟨(declares_routineShell (hr.with_params (types_declareParams hparams)) hshell).name, ?_⟩
  exact ⟨fieldInits k, body, fields, rest, _, _, _, _, assignsFields_fieldInits k, constructorBody_of_code hbody,
    hfields, hrest, congrArg (fun code => some (Rust.Block.mk code _)) List.flatten_append⟩

theorem initializes_classInits {classes : List Contract} {routines : List (Contract × Routine)}
    {gs : List Rust.Function}
    (hroutines : List.Forall₂ (fun k cr => cr.1 = k ∧ Describes E (classConvention E k) cr.2) classes routines)
    (hw : Writes (classInits routines) E s gs s') : List.Forall₂ (InitializesClass E) classes gs := by
  induction hroutines generalizing s gs with
  | nil =>
      obtain ⟨rfl, -⟩ := writes_pure.mp hw
      exact .nil
  | @cons k cr classes routines hr _ ih =>
      obtain ⟨k, r⟩ := cr
      obtain ⟨rfl, hr⟩ := hr
      rw [classInits] at hw
      obtain ⟨g, s₁, hg, hw⟩ := writes_bind.mp hw
      obtain ⟨more, s₂, hmore, hw⟩ := writes_bind.mp hw
      obtain ⟨rfl, rfl⟩ := writes_pure.mp hw
      exact .cons (initializes_classInit hr hg) (ih hmore)

-- Deployment.

-- The call of a class's initializer.
def initCall (E : Env) (args : Contract → List Rust.Expr) (k : Contract) : Rust.Stmt :=
  .expr (.tryOp (callText E.target false (classConvention E k) (args k)))

-- Where `_init` starts: with its own parameters in scope.
def StartsInit (E : Env) (start : State) : Prop :=
  ∃ s, s.frame = {} ∧
    Writes ((constructorParams E.contract).forM fun p => declare p.name (Rust.Name.value p.name)) E s ⟨⟩ start

-- The parts of `_init`.
structure WritesInit (E : Env) (init : Rust.Function) (binds : List Rust.Stmt) (bound : List BoundArg) : Prop where
  name : init.name = "_init"
  args : ∃ start s', StartsInit E start ∧
    Writes (bindBaseArgs (baseCallsOf (E.package.chainOf E.contract)) [] ((E.package.chainOf E.contract).drop 1)) E start
      (binds, bound) s'
  body : init.body = some ⟨binds ++ (initClasses E).map (initCall E (initArgs E.contract bound)),
    some (.callPath "Ok" [.lit "()"])⟩

theorem writes_deployment (hE : Sourced E) (hruns : runsInit E = true) {deployed inits : List Rust.Function}
    (hw : Writes deployment E s (deployed, inits) s') : ∃ init binds bound classInits, inits = init :: classInits ∧
      WritesInit E init binds bound ∧ List.Forall₂ (InitializesClass E) (initClasses E) classInits := by
  unfold deployment at hw
  obtain ⟨env, s₁, henv, hw⟩ := writes_bind.mp hw
  obtain ⟨rfl, rfl⟩ := writes_read.mp henv
  dsimp only at hw
  split at hw
  · next hnothing => simp [runsInit, hnothing] at hruns
  · obtain ⟨rparams, s₂, hrparams, hw⟩ := writes_bind.mp hw
    obtain ⟨_, s₃, henter, hw⟩ := writes_bind.mp hw
    obtain rfl := writes_modify.mp henter
    obtain ⟨_, s₄, hdeclare, hw⟩ := writes_bind.mp hw
    obtain ⟨⟨binds, bound⟩, s₅, hbinds, hw⟩ := writes_bind.mp hw
    obtain ⟨⟨runs, routines⟩, s₆, hcalls, hw⟩ := writes_bind.mp hw
    obtain ⟨shell, s₇, hshell, hw⟩ := writes_bind.mp hw
    obtain ⟨classInits, s₈, hinits, hw⟩ := writes_bind.mp hw
    obtain ⟨gs, s₉, -, hw⟩ := writes_bind.mp hw
    obtain ⟨heq, -⟩ := writes_pure.mp hw
    obtain ⟨-, rfl⟩ := Prod.mk.inj heq
    obtain ⟨hs₄, -⟩ := Links.run (fun K => links_forM (fun p H => links_declare _ _) _) rfl hdeclare
    obtain ⟨hs₅, -⟩ := Links.run (fun K => links_bindBaseArgs hE from_baseCalls) hs₄ hbinds
    obtain ⟨-, -, hstmts, hroutines⟩ := writes_initCalls hs₅ hcalls
    have hinit : Describes E (initConvention E) ⟨"_init", none, rparams, "()", true,
        E.package.constructorNeedsCaller E.contract, false⟩ := ⟨rfl, rfl, rfl, types_rustParams hrparams⟩
    refine ⟨_, binds, bound, classInits, rfl, ⟨?_, ⟨s₄, s₅, ⟨_, rfl, hdeclare⟩, hbinds⟩, ?_⟩,
      initializes_classInits hroutines hinits⟩
    · exact (declares_routineShell hinit hshell).name
    · rw [show runs = _ from hstmts]
      rfl

-- The functions of a file: what deployment runs among the others.
theorem methods_of_file {out : Rust.File} (hfile : file E.package E.contract E.target = .ok out) :
    ∃ s s' deployed inits messages others, Writes deployment E s (deployed, inits) s' ∧
      out.methods = deployed ++ messages ++ (inits ++ others) := by
  obtain ⟨s₁, deployed, inits, s₂, messages, internals, s₃, helpers, s₄, -, hdeployment, -, -, -, -, hmethods⟩ :=
    writes_contract (writes_of_file hfile)
  refine ⟨s₁, s₂, deployed, inits, messages, internals ++ helpers, hdeployment, ?_⟩
  rw [hmethods, List.append_assoc inits]

-- The order of `_init`: the arguments for base constructors, derived classes first, and then the initializers.
structure InitializesAll (E : Env) (init : Rust.Function) (inits : List Rust.Function) : Prop where
  name : init.name = "_init"
  body : ∃ binds args, List.Forall₂ (BindsArgs E) ((E.package.chainOf E.contract).drop 1) binds ∧
    init.body = some ⟨binds.flatten ++ (initClasses E).map (initCall E args), some (.callPath "Ok" [.lit "()"])⟩
  inits : List.Forall₂ (InitializesClass E) (initClasses E) inits

theorem needsInit_iff {k : Contract} :
    needsInit k = true ↔ k.constructor.isSome = true ∨ ∃ f ∈ k.fields, f.value.isSome = true := by
  simp [needsInit]

theorem mem_initClasses {k : Contract} : k ∈ initClasses E ↔ k ∈ E.package.chainOf E.contract ∧
    (k.constructor.isSome = true ∨ ∃ f ∈ k.fields, f.value.isSome = true) := by
  rw [initClasses, List.mem_reverse, List.mem_filter, needsInit_iff]

theorem runsInit_of_mem {k : Contract} (hk : k ∈ initClasses E) : runsInit E = true := by
  have hne : (E.package.chainOf E.contract).filter needsInit ≠ [] :=
    List.ne_nil_of_mem (List.mem_reverse.mp hk)
  rw [runsInit, List.isEmpty_eq_false_iff.mpr hne, Bool.false_and, Bool.false_and, Bool.not_false]

-- A contract with something to initialize has an `_init`, which calls the initializer of each class once, and none
-- before those of its ancestors.
theorem initializers_in_order {name : String} {unit : Solidity.SourceUnit} {p : Package} {c : Contract}
    {target : Target} {out : Rust.File} (hp : Resolve.package name unit = .ok p) (hc : c ∈ p.classes)
    (hfile : file p c target = .ok out)
    (hneeds : ∃ k ∈ p.chainOf c, k.constructor.isSome = true ∨ ∃ f ∈ k.fields, f.value.isSome = true) :
    (∃ before init inits after, out.methods = before ++ init :: inits ++ after ∧
      InitializesAll ⟨p, c, target⟩ init inits) ∧
    initClasses ⟨p, c, target⟩ = ((p.chainOf c).filter needsInit).reverse ∧
    (∀ k, k ∈ initClasses ⟨p, c, target⟩ ↔
      k ∈ p.chainOf c ∧ (k.constructor.isSome = true ∨ ∃ f ∈ k.fields, f.value.isSome = true)) ∧
    ((initClasses ⟨p, c, target⟩).map (·.name)).Nodup ∧
    (initClasses ⟨p, c, target⟩).Pairwise fun earlier later => later.name ∉ earlier.chain := by
  have hE := sourced_package hp hc target
  obtain ⟨k, hk, hneeds⟩ := hneeds
  have hruns : runsInit ⟨p, c, target⟩ = true := runsInit_of_mem (mem_initClasses.mpr ⟨hk, hneeds⟩)
  refine ⟨?_, rfl, fun k => mem_initClasses, ?_, ?_⟩
  · obtain ⟨s, s', deployed, inits, messages, others, hdeployment, hmethods⟩ :=
      methods_of_file (E := ⟨p, c, target⟩) hfile
    obtain ⟨init, binds, bound, classInits, rfl, hinit, hclasses⟩ := writes_deployment hE hruns hdeployment
    obtain ⟨start, s₁, -, hargs⟩ := hinit.args
    obtain ⟨parts, hparts, hbinds⟩ := binds_of_bindBaseArgs hargs
    refine ⟨deployed ++ messages, init, classInits, others, by simp [hmethods], hinit.name, ?_, hclasses⟩
    exact ⟨parts, _, hparts, by rw [hinit.body, ← hbinds]⟩
  · refine List.Nodup.sublist ?_ (List.nodup_reverse.mpr hE.chain_nodup)
    rw [initClasses, ← List.map_reverse, ← List.filter_reverse]
    exact List.filter_sublist.map _
  · have hordered := (Resolve.package_code hp).pairwise_chainOf hc
    exact List.pairwise_reverse.mpr (hordered.filter _)

namespace Deploy

-- Three classes, each of which hands its own argument on to the constructor of its base.

-- `constructor(bool param) attrs { }`
def constructorOf (param : String) (attrs : List Solidity.FunctionAttribute) : Solidity.ContractPart :=
  .function default
    { start := default, stop := default, kind := "constructor", name := ""
      params := [⟨default, Resolve.plainType "bool", "", param⟩], attrs := attrs, returns := []
      body := some ⟨default, default, []⟩ }

-- `bool name = true;`
def fieldOf (name : String) : Solidity.ContractPart :=
  .variable default ⟨default, Resolve.plainType "bool", [], name, some (argument (.bool true))⟩
where argument (value : Solidity.Primary) : Solidity.Expression :=
  ⟨default, default, ⟨⟨.term default value [], []⟩, none⟩, none⟩

-- `base(value)` in the head of a constructor
def hands (base : String) (value : Solidity.Primary) : Solidity.FunctionAttribute :=
  .modifier default ⟨default, base, true, [fieldOf.argument value]⟩

def stacked : Solidity.SourceUnit :=
  ⟨default, [
    Resolve.plainContract "A" false [] [fieldOf "n", constructorOf "x" []],
    Resolve.plainContract "B" false ["A"] [constructorOf "y" [hands "A" (.ident "y")]],
    Resolve.plainContract "C" false ["B"] [fieldOf "m", constructorOf "z" [hands "B" (.ident "z")]]]⟩

-- The classes that these become.

def constructorIn (owner param : String) : Function :=
  { name := "new", sourceName := "constructor", kind := .constructor, params := [⟨param, .bool⟩]
    implementations :=
      [{ owner := owner, params := [⟨param, .bool⟩], body := some ⟨default, [], false⟩, implemented := true
         start := default }] }

def fieldIn (owner name : String) : StorageField :=
  { name := name, sourceName := name, type := .bool, owner := owner, start := default
    value := some (.bool default true) }

def handed (base declarer : String) (arg : Expr) : BaseCall :=
  { base := base, declarer := declarer, args := [arg], start := default }

def classOf (name : String) (bases chain : List String) (fields storage : List StorageField) (calls : List BaseCall)
    (param : String) : Contract :=
  { name := name, kind := .contract, isAbstract := false, bases := bases, start := default, chain := chain
    fields := fields, baseCalls := calls, constructor := some (constructorIn name param), storage := storage
    dispatch := [], modifierTable := [] }

def stackedPackage : Package :=
  let n := fieldIn "A" "n"
  let m := fieldIn "C" "m"
  { name := "sample"
    classes := [
      classOf "A" [] ["A"] [n] [n] [] "x",
      classOf "B" ["A"] ["B", "A"] [] [n] [handed "A" "B" (.var default "y" .bool)] "y",
      classOf "C" ["B"] ["C", "B", "A"] [m] [n, m] [handed "B" "C" (.var default "z" .bool)] "z"] }

theorem package_stacked : Resolve.package "sample" stacked = .ok stackedPackage := by cbv

def derived : Contract := stackedPackage.classes.getD 2 default

theorem file_stacked : (file stackedPackage derived .soroban).toOption.map
    (fun out => out.methods.map fun g => (g.name, g.params.map (·.name))) =
      some [("__constructor", ["env", "z"]), ("_init", ["env", "z"]), ("_init_a", ["env", "x"]),
        ("_init_b", ["env", "y"]), ("_init_c", ["env", "z"])] := by
  decide

-- `env.storage().persistent().set(&DataKey::N, &true); Ok(())`
def setsFirst : Rust.Block :=
  ⟨[.expr ((((Rust.Expr.ident "env").method "storage").method "persistent").methodCall "set"
      [(Rust.Expr.ident "DataKey::N").ref, (Rust.Expr.lit "true").ref])],
    some (.callPath "Ok" [.lit "()"])⟩

theorem body_stacked : (file stackedPackage derived .soroban).toOption.map
    (fun out => (out.methods.filter (·.name = "_init_a")).map (·.body)) = some [some setsFirst] := rfl

theorem stacked_in_order : ∃ out, Resolve.package "sample" stacked = .ok stackedPackage ∧
    file stackedPackage derived .soroban = .ok out ∧
    (∃ g ∈ out.methods, g.name = "_init_a" ∧ g.body = some setsFirst) ∧
    (initClasses ⟨stackedPackage, derived, .soroban⟩).map (·.name) = ["A", "B", "C"] ∧
    (∃ before init inits after, out.methods = before ++ init :: inits ++ after ∧
      InitializesAll ⟨stackedPackage, derived, .soroban⟩ init inits) ∧
    (initClasses ⟨stackedPackage, derived, .soroban⟩).Pairwise fun earlier later => later.name ∉ earlier.chain := by
  have hfile := file_stacked
  cases hout : file stackedPackage derived .soroban with
  | error d =>
      rw [hout] at hfile
      cases hfile
  | ok out =>
      have hderived : derived ∈ stackedPackage.classes := List.mem_of_getElem? (i := 2) rfl
      have hneeds : ∃ k ∈ stackedPackage.chainOf derived,
          k.constructor.isSome = true ∨ ∃ f ∈ k.fields, f.value.isSome = true :=
        ⟨derived, List.mem_cons_self, .inl rfl⟩
      obtain ⟨hmethods, -, -, -, hordered⟩ := initializers_in_order package_stacked hderived hout hneeds
      have hbody := body_stacked
      rw [hout] at hbody
      have hbodies : (out.methods.filter (·.name = "_init_a")).map (·.body) = [some setsFirst] := Option.some.inj hbody
      obtain ⟨g, hg, hsets⟩ := List.mem_map.mp (hbodies ▸ List.mem_singleton.mpr rfl)
      obtain ⟨hg, hname⟩ := List.mem_filter.mp hg
      exact ⟨out, package_stacked, rfl, ⟨g, hg, of_decide_eq_true hname, hsets⟩, rfl, hmethods, hordered⟩

end Deploy

end Emit

end RustContracts
