import Mathlib
import RustContracts.Proofs.Emit.ConformsFile
import RustContracts.Proofs.Resolve.Noted

-- The caller in Soroban contracts: a function that names it has it as a parameter, where everything that needs it is
-- known to.
namespace RustContracts

namespace Program

-- The variables of an implementation.
def Implementation.variables (i : Implementation) : List Param :=
  i.params ++ i.returns ++ i.body.toList.flatMap fun b => b.substmts.flatMap Emit.declaredVars

-- The code that the functions of a contract are written from: its own, that of its modifiers, the constructors along
-- the chain and the functions of libraries.
def Package.codeOf (p : Package) (c : Contract) : List Implementation :=
  (c.dispatch ++ c.modifierTable ++ (p.chainOf c).flatMap (fun k => k.constructor.toList) ++
    (p.ofKind .library).flatMap fun k => k.functions).flatMap (·.implementations)

-- An expression that calls no function of a contract which needs the caller.
def Contract.CallsFree (c : Contract) : Expr → Prop
  | .call _ name args _ _ _ _ => ∀ f, c.lookup? name args.length = some f → c.needsCaller f.toSignature = false
  | _ => True

-- An expression that does not read the caller either.
def Contract.Ignores (c : Contract) : Expr → Prop
  | .env _ .sender => False
  | e => c.CallsFree e

end Program

namespace Emit

open Program

variable {E : Env} {s s' : State}

-- A function that is told its caller.
def TakesCaller (g : Rust.Function) : Prop := ⟨"caller", "Address"⟩ ∈ g.params

section TakesCaller

variable (ht : E.target = .soroban)
include ht

theorem takesCaller_routineShell {r : Routine} (hr : r.caller = true) {g : Rust.Function}
    (hw : Writes (routineShell r) E s g s') : TakesCaller g := by
  unfold routineShell at hw
  rw [writes_of_target, ht] at hw
  unfold Soroban.routine at hw
  obtain ⟨_, _, -, hw⟩ := writes_bind.mp hw
  dsimp only at hw
  rw [if_pos hr] at hw
  obtain ⟨_, _, -, hw⟩ := writes_bind.mp hw
  obtain ⟨rfl, -⟩ := writes_pure.mp hw
  simp [TakesCaller, hr]

theorem takesCaller_function {r : Routine} (hr : r.caller = true) {f : Function} {impl : Option Implementation}
    {g : Rust.Function} (hw : Writes (function r f impl) E s g s') : TakesCaller g := by
  obtain ⟨_, declared, shell, code, _, _, _, -, hshell, rfl⟩ := shell_of_function hw
  have htakes : TakesCaller shell := takesCaller_routineShell ht (r := { r with params := declared }) hr hshell
  exact htakes

theorem takesCaller_classInits {routines : List (Contract × Routine)} (hroutines : ∀ cr ∈ routines, cr.2.caller = true)
    {gs : List Rust.Function} (hw : Writes (classInits routines) E s gs s') : ∀ g ∈ gs, TakesCaller g := by
  induction routines generalizing s s' gs with
  | nil =>
      obtain ⟨rfl, -⟩ := writes_pure.mp hw
      simp
  | cons cr routines ih =>
      obtain ⟨hr, hroutines⟩ := List.forall_mem_cons.mp hroutines
      rw [classInits] at hw
      obtain ⟨g, s₁, hg, hw⟩ := writes_bind.mp hw
      obtain ⟨more, s₂, hmore, hw⟩ := writes_bind.mp hw
      obtain ⟨rfl, -⟩ := writes_pure.mp hw
      obtain ⟨declared, shell, code, _, _, _, -, hshell, rfl⟩ := shell_of_classInit hg
      have htakes : TakesCaller shell :=
        takesCaller_routineShell ht (r := { cr.2 with params := declared }) hr hshell
      exact List.forall_mem_cons.mpr ⟨htakes, ih hroutines hmore⟩

theorem takesCaller_constructors {init : Option Routine} (hinit : ∀ r ∈ init, r.caller = true)
    {gs : List Rust.Function} (hw : Writes (constructors init) E s gs s') : ∀ g ∈ gs, TakesCaller g := by
  unfold constructors at hw
  rw [writes_of_target, ht] at hw
  cases init with
  | none =>
      obtain ⟨rfl, -⟩ := writes_pure.mp hw
      simp
  | some r =>
      have hr := hinit r rfl
      simp only [Soroban.constructors, hr, if_true] at hw
      obtain ⟨_, _, -, hw⟩ := writes_bind.mp hw
      obtain ⟨_, _, -, hw⟩ := writes_bind.mp hw
      obtain ⟨_, _, -, hw⟩ := writes_bind.mp hw
      obtain ⟨rfl, -⟩ := writes_pure.mp hw
      simp [TakesCaller]

theorem takesCaller_deployment (hcaller : E.package.constructorNeedsCaller E.contract = true)
    {written : List Rust.Function × List Rust.Function} (hw : Writes deployment E s written s') :
    ∀ g ∈ written.1 ++ written.2, TakesCaller g := by
  unfold deployment at hw
  obtain ⟨env, s₁, henv, hw⟩ := writes_bind.mp hw
  obtain ⟨rfl, rfl⟩ := writes_read.mp henv
  dsimp only at hw
  split at hw
  · obtain ⟨gs, s₂, hgs, hw⟩ := writes_bind.mp hw
    obtain ⟨rfl, -⟩ := writes_pure.mp hw
    rw [List.append_nil]
    exact takesCaller_constructors ht (by simp) hgs
  · obtain ⟨rparams, s₂, -, hw⟩ := writes_bind.mp hw
    obtain ⟨_, s₃, -, hw⟩ := writes_bind.mp hw
    obtain ⟨_, s₄, -, hw⟩ := writes_bind.mp hw
    obtain ⟨⟨binds, bound⟩, s₅, -, hw⟩ := writes_bind.mp hw
    obtain ⟨⟨runs, routines⟩, s₆, hruns, hw⟩ := writes_bind.mp hw
    obtain ⟨shell, s₇, hshell, hw⟩ := writes_bind.mp hw
    obtain ⟨inits, s₈, hinits, hw⟩ := writes_bind.mp hw
    obtain ⟨gs, s₉, hgs, hw⟩ := writes_bind.mp hw
    obtain ⟨rfl, -⟩ := writes_pure.mp hw
    have htakes : TakesCaller shell := takesCaller_routineShell ht hcaller hshell
    refine List.forall_mem_append.mpr ⟨takesCaller_constructors ht ?_ hgs, List.forall_mem_cons.mpr ⟨htakes, ?_⟩⟩
    · rintro r ⟨⟩
      exact hcaller
    · exact takesCaller_classInits ht (fun cr hcr => (routines_initCalls hruns cr hcr).2.trans hcaller) hinits

end TakesCaller

-- Code that names no caller.

def withoutCaller : Rust.Form := ⟨(· ≠ "caller"), fun _ _ => True, fun _ => True⟩

theorem mild_withoutCaller (target : Target) (ht : target = .soroban) : Mild withoutCaller target where
  ink v hv := by simp [ht] at hv
  env := show "env" ≠ "caller" by decide
  failure := show "e" ≠ "caller" by decide
  nameless := show "" ≠ "caller" by decide
  path name hname h := by
    rw [show name = "caller" from h] at hname
    exact absurd hname (by decide)
  joined a b h := by
    have hmem : '_' ∈ (a ++ "_" ++ b).toList := by simp
    rw [show a ++ "_" ++ b = "caller" from h] at hmem
    exact absurd hmem (by decide)
  left _ _ _ _ := trivial
  count _ _ := ⟨trivial, trivial⟩
  call _ _ := trivial

theorem suits_of_ignores {e : Expr} (he : e.Each E.contract.Ignores) : e.Each (Suits withoutCaller E) := by
  intro x hx
  have hignores := he x hx
  unfold Contract.Ignores at hignores
  unfold Suits
  split
  · exact hignores.elim
  · next start name args _ _ _ _ =>
      intro _ f hf hneeds
      exact absurd hneeds (by simp [show E.contract.needsCaller f.toSignature = false from hignores f hf])
  · exact fun _ _ _ _ => ⟨trivial, trivial⟩
  · exact fun _ _ => trivial
  · trivial

-- An implementation that ignores the caller and names no variable like it.
theorem suitsCode_of_ignores {i : Implementation} (hexprs : ∀ e ∈ i.exprs, e.Each E.contract.Ignores)
    (hnames : ∀ v ∈ i.variables, Rust.Name.value v.name ≠ "caller") : SuitsCode withoutCaller E i where
  stmts b hb st hst := by
    have hmem : st ∈ b.substmts := by
      cases b
      exact List.mem_cons_of_mem _ hst
    refine ⟨fun e he => suits_of_ignores (hexprs e ?_), fun v hv => hnames v ?_, fun _ _ _ _ => trivial⟩
    · refine List.mem_append_left _ (List.mem_flatMap.mpr ⟨b, Option.mem_toList.mpr hb, ?_⟩)
      exact List.mem_flatMap.mpr ⟨st, hmem, he⟩
    · refine List.mem_append_right _ (List.mem_flatMap.mpr ⟨b, Option.mem_toList.mpr hb, ?_⟩)
      exact List.mem_flatMap.mpr ⟨st, hmem, hv⟩
  args m hm e he := suits_of_ignores (hexprs e (List.mem_append_right _ (List.mem_flatMap.mpr ⟨m, hm, he⟩)))
  names p hp := hnames p (List.mem_append_left _ hp)

-- Functions whose code names no caller.

section Ignores

variable {p : Package} {c : Contract} {e : Expr} {name : String} {unit : Solidity.SourceUnit}

theorem key_of_lookup? {fname : String} {arity : Nat} {f : Function} (h : c.lookup? fname arity = some f) :
    f.key = functionKey fname arity := by
  simpa using List.find?_some h

theorem ignores_of_callsFree {U : Resolve.Uses} (he : e.Each (Resolve.Told U)) (hcaller : ¬ U.caller)
    (hfree : e.Each c.CallsFree) : e.Each c.Ignores := by
  intro x hx
  have htold := he x hx
  have hcalls := hfree x hx
  unfold Resolve.Told at htold
  unfold Contract.Ignores
  split
  · exact hcaller htold
  · exact hcalls

-- Where what an expression uses is noted, and does not lead to the caller, it ignores the caller.
theorem ignores_of_told {U : Resolve.Uses} (he : e.Each (Resolve.Told U)) (hcaller : ¬ U.caller)
    (hcalls : ∀ key, U.calls key → key ∉ c.callerUsers) : e.Each c.Ignores := by
  refine ignores_of_callsFree he hcaller fun x hx => ?_
  have htold := he x hx
  unfold Resolve.Told at htold
  unfold Contract.CallsFree
  split
  · intro f hf
    have hkey := hcalls _ htold
    rw [← key_of_lookup? hf] at hkey
    simpa [Contract.needsCaller] using hkey
  · trivial

theorem none_below (U : Resolve.Uses) : Resolve.Uses.none.Below U := ⟨False.elim, fun _ => False.elim⟩

-- Everything that the functions and modifiers of a contract use is noted in them.
theorem told_gathered (hp : Resolve.package name unit = .ok p) (hc : c ∈ p.classes) :
    (∀ f ∈ c.dispatch, f.Has fun i => ∀ e ∈ i.exprs, e.Each (Resolve.Told i.uses)) ∧
      ∀ m ∈ c.modifierTable, ∀ i ∈ m.implementations, ∀ e ∈ i.exprs, e.Each (Resolve.Told i.uses) := by
  refine implementations_gathered hp hc (fun k hk f hf i hi => ?_) fun field i hi => ?_
  · refine (Resolve.package_noted hp k hk).code i (List.mem_flatMap.mpr ⟨f, ?_, hi⟩)
    rw [List.append_assoc]
    exact List.mem_append_right _ hf
  · have hread (e : Expr) (he : e.isRead = true) : Resolve.Told .none e := by
      unfold Resolve.Told
      split
      · cases he
      · cases he
      · trivial
    refine (has_getter hread field i hi).imp_left fun htold e he => ?_
    exact Resolve.each_told_mono (none_below i.uses) (htold e he)

theorem told_guarded (hp : Resolve.package name unit = .ok p) (hc : c ∈ p.classes) {i j : Implementation}
    (hi : ∀ e ∈ i.exprs, e.Each (Resolve.Told i.uses)) (hj : j ∈ c.guarded i) :
    ∀ e ∈ j.exprs, e.Each (Resolve.Told j.uses) := by
  rcases mem_guarded.mp hj with rfl | ⟨m, -, guard, hguard, hj⟩
  · exact hi
  · exact (told_gathered hp hc).2 guard (List.mem_of_find?_eq_some hguard) j hj

-- The code of a function that does not need its caller ignores the caller.
theorem ignores_entry (hp : Resolve.package name unit = .ok p) (hc : c ∈ p.contracts) {f : Function}
    (hf : f ∈ c.dispatch) (hneeds : c.needsCaller f.toSignature = false) {i j : Implementation}
    (hi : i ∈ f.implementations) (hj : j ∈ c.guarded i) : ∀ e ∈ j.exprs, e.Each c.Ignores := by
  have hknows := Resolve.package_knowsCallers hp hc
  have hclass := List.mem_of_mem_filter hc
  have hcode : j ∈ c.codeOf f := List.mem_flatMap.mpr ⟨i, hi, hj⟩
  have hkey : f.key ∉ c.callerUsers := by simpa [Contract.needsCaller] using hneeds
  intro e he
  refine ignores_of_told (told_guarded hp hclass ((told_gathered hp hclass).1 f hf i hi).1 hj e he) ?_ ?_
  · intro hcaller
    exact hkey (hknows.mem_iff.mpr ⟨f, hf, rfl, f, .refl, j, hcode, hcaller⟩)
  · intro key hcalls hmem
    refine hkey (closed_of_walk ((addCallers_eq c _).symm.trans hknows.closed) f hf ?_)
    exact callsAny_iff.mpr ⟨j, hcode, key, hcalls, hmem⟩

section Constructor

variable (hneeds : p.constructorNeedsCaller c = false) {k : Contract} (hk : k ∈ p.chainOf c)
include hneeds hk

theorem not_initUsesCaller : ¬ k.initUses.caller := by
  have hall := List.any_eq_false.mp hneeds k hk
  intro hcaller
  exact hall (Bool.or_eq_true_iff.mpr (.inl hcaller))

-- The code of a constructor leads to no caller where the deployment does not need it.
theorem free_constructor {f : Function} (hf : k.constructor = some f) {i j : Implementation}
    (hi : i ∈ f.implementations) (hj : j ∈ c.guarded i) :
    ¬ j.uses.caller ∧ ∀ key, j.uses.calls key → key ∉ c.callerUsers := by
  have hall := List.any_eq_false.mp hneeds k hk
  have hcode : j ∈ c.codeOf f := List.mem_flatMap.mpr ⟨i, hi, hj⟩
  simp only [hf, Bool.or_eq_true, not_or] at hall
  refine ⟨fun hcaller => hall.2.1 (readsCaller_iff.mpr ⟨j, hcode, hcaller⟩), fun key hcalls hmem => hall.2.2 ?_⟩
  exact callsAny_iff.mpr ⟨j, hcode, key, hcalls, hmem⟩

theorem ignores_constructor (hp : Resolve.package name unit = .ok p) (hc : c ∈ p.classes) {f : Function}
    (hf : k.constructor = some f) {i j : Implementation} (hi : i ∈ f.implementations) (hj : j ∈ c.guarded i) :
    ∀ e ∈ j.exprs, e.Each c.Ignores := by
  obtain ⟨hcaller, hcalls⟩ := free_constructor hneeds hk hf hi hj
  have htold : ∀ e ∈ i.exprs, e.Each (Resolve.Told i.uses) :=
    (Resolve.package_noted hp k (mem_of_chainOf hk)).code i (List.mem_flatMap.mpr ⟨f, by simp [hf], hi⟩)
  exact fun e he => ignores_of_told (told_guarded hp hc htold hj e he) hcaller hcalls

end Constructor

end Ignores

end Emit

namespace Program

-- Where everything that needs the caller is known to.
structure Package.KnowsNeeds (p : Package) (c : Contract) : Prop where
  names : ∀ i ∈ p.codeOf c, ∀ v ∈ i.variables, Rust.Name.value v.name ≠ "caller"
  constants : ∀ r k v, p.constant? r = some k → k.value = some v → v.Each c.Ignores
  -- what is called as a library is one, and the modifiers that it finds in the contract ignore the caller
  libraries : ∀ start library owner s args, p.Holds (.libraryCall start library owner s args) →
    ∀ k, p.class? owner = some k → k.kind = .library
  guards : ∀ k ∈ p.ofKind .library, ∀ f ∈ k.functions, ∀ i ∈ f.implementations, ∀ m ∈ i.modifiers, ∀ guard,
    c.modifier? m.name = some guard → ∀ j ∈ guard.implementations, ∀ e ∈ j.exprs, e.Each c.Ignores
  -- calls in initial values, and in arguments for bases outside the constructor, lead to no caller, where the
  -- constructor is not told it for another reason
  deployed : p.constructorNeedsCaller c = true ∨ ∀ k ∈ p.chainOf c,
    (∀ f ∈ k.fields, ∀ v ∈ f.value, v.Each c.CallsFree) ∧
    ∀ b ∈ k.baseCalls, (∀ e ∈ b.args, e.Each c.CallsFree) ∨
      ∃ f, k.constructor = some f ∧ ∃ i ∈ f.implementations, ∀ e ∈ b.args, e.Each (Resolve.Told i.uses)

end Program

namespace Emit

open Program

section Threaded

variable {p : Package} {c : Contract} {name : String} {unit : Solidity.SourceUnit}

theorem mem_codeOf_guarded {i j : Implementation} (hi : i ∈ p.codeOf c) (hj : j ∈ c.guarded i) : j ∈ p.codeOf c := by
  rcases mem_guarded.mp hj with rfl | ⟨m, -, guard, hguard, hj⟩
  · exact hi
  · refine List.mem_flatMap.mpr ⟨guard, ?_, hj⟩
    simp [show guard ∈ c.modifierTable from List.mem_of_find?_eq_some hguard]

theorem lawful_withoutCaller (hknows : p.KnowsNeeds c) : Lawful withoutCaller ⟨p, c, .soroban⟩ where
  mild := mild_withoutCaller .soroban rfl
  constants r k v hk hv := suits_of_ignores (hknows.constants r k v hk hv)

theorem suitsDeployment_withoutCaller (hp : Resolve.package name unit = .ok p) (hc : c ∈ p.classes)
    (hknows : p.KnowsNeeds c) (hneeds : p.constructorNeedsCaller c = false) :
    SuitsDeployment withoutCaller ⟨p, c, .soroban⟩ := by
  have hdeployed := hknows.deployed.resolve_left (by simp [hneeds])
  refine ⟨fun k hk i hi j hj => ?_, fun k hk f hf v hv => ?_, fun k hk b hb e he => ?_, fun _ h => ?_⟩
  · obtain ⟨f, hf, hprimary⟩ := Option.bind_eq_some_iff.mp hi
    have himpl := mem_of_primary? hprimary
    have hcode : i ∈ p.codeOf c := by
      refine List.mem_flatMap.mpr ⟨f, ?_, himpl⟩
      have hmem : f ∈ (p.chainOf c).flatMap fun k => k.constructor.toList :=
        List.mem_flatMap.mpr ⟨k, hk, by simp [hf]⟩
      simp [hmem]
    refine suitsCode_of_ignores (ignores_constructor hneeds hk hp hc hf himpl hj) ?_
    exact hknows.names j (mem_codeOf_guarded hcode hj)
  · have htold := (Resolve.package_noted hp k (mem_of_chainOf hk)).fields f hf v hv
    exact suits_of_ignores (ignores_of_callsFree htold (not_initUsesCaller hneeds hk) ((hdeployed k hk).1 f hf v hv))
  · have hconstructor {f : Function} (hf : k.constructor = some f) {i : Implementation}
        (hi : i ∈ f.implementations) (htold : e.Each (Resolve.Told i.uses)) : e.Each c.Ignores := by
      obtain ⟨hcaller, hcalls⟩ := free_constructor hneeds hk hf hi (mem_guarded.mpr (.inl rfl))
      exact ignores_of_told htold hcaller hcalls
    refine suits_of_ignores ?_
    rcases (hdeployed k hk).2 b hb with hfree | ⟨f, hf, i, hi, hargs⟩
    · rcases (Resolve.package_noted hp k (mem_of_chainOf hk)).baseCalls b hb with hargs | ⟨f, hf, i, hi, hargs⟩
      · exact ignores_of_callsFree (hargs e he) (not_initUsesCaller hneeds hk) (hfree e he)
      · exact hconstructor hf hi (hargs e he)
    · exact hconstructor hf hi (hargs e he)
  · exact absurd h (by simp [hneeds])

-- A function that is written for an implementation in the dispatch table.
theorem caller_or_fits_entry (hp : Resolve.package name unit = .ok p) (hc : c ∈ p.contracts) (hknows : p.KnowsNeeds c)
    {f : Function} (hf : f ∈ c.dispatch) {impl : Option Implementation} (himpl : ∀ i ∈ impl, i ∈ f.implementations)
    {fname : String} {entry : Option Signature} {r : Routine} {g : Rust.Function} {s s₁ s' : State}
    (hr : Writes (functionRoutine f impl fname entry) ⟨p, c, .soroban⟩ s r s₁)
    (hw : Writes (function r f impl) ⟨p, c, .soroban⟩ s₁ g s') :
    TakesCaller g ∨ ∀ code ∈ g.body, code.Fits withoutCaller := by
  have hcaller := caller_functionRoutine hr
  cases hneeds : c.needsCaller f.toSignature with
  | true => exact .inl (takesCaller_function rfl (hcaller.trans hneeds) hw)
  | false =>
      have hparams := (sourced_package hp (List.mem_of_mem_filter hc) .soroban).entries f hf
      refine .inr (fits_function (lawful_withoutCaller hknows) (fun i hi j hj => ?_) (fun i hi => ?_) ?_ hw)
      · refine suitsCode_of_ignores (ignores_entry hp hc hf hneeds (himpl i hi) hj) ?_
        refine hknows.names j (mem_codeOf_guarded (List.mem_flatMap.mpr ⟨f, ?_, himpl i hi⟩) hj)
        simp [hf]
      · obtain rfl := Option.mem_def.mp hi
        have htypes := (describes_functionRoutine hr).types.length_eq
        simpa [declaredTypes, (hparams i (himpl i rfl)).2] using htypes
      · exact fun _ hcalled => absurd (hcaller.symm.trans hcalled) (by simp [hneeds])

-- A function of a library is told no caller.
theorem fits_libraryHelper (hp : Resolve.package name unit = .ok p) (hknows : p.KnowsNeeds c)
    {k : Contract} (hk : k ∈ p.ofKind .library) {f : Function} (hf : f ∈ k.functions) {fname : String} {r : Routine}
    {g : Rust.Function} {s s₁ s' : State} (hr : Writes (libraryRoutine f fname) ⟨p, c, .soroban⟩ s r s₁)
    (hw : Writes (function r f f.primary?) ⟨p, c, .soroban⟩ s₁ g s') : ∀ code ∈ g.body, code.Fits withoutCaller := by
  obtain ⟨hclass, hkind⟩ := List.mem_filter.mp hk
  have hdescribes := describes_libraryRoutine hr
  refine fits_function (lawful_withoutCaller hknows) (fun i hi j hj => ?_) (fun i hi => ?_) ?_ hw
  · have himpl := mem_of_primary? hi
    refine suitsCode_of_ignores ?_ (hknows.names j (mem_codeOf_guarded (List.mem_flatMap.mpr ⟨f, ?_, himpl⟩) hj))
    · rcases mem_guarded.mp hj with rfl | ⟨m, hm, guard, hguard, hj⟩
      · intro e he
        have htold := (Resolve.package_noted hp k hclass).library (of_decide_eq_true hkind) e
          (ContractDecl.mem_exprs (f := f) (by simp [hf]) himpl he)
        exact ignores_of_told htold id fun _ => False.elim
      · exact hknows.guards k hk f hf i himpl m hm guard hguard j hj
    · simp only [List.mem_append, List.mem_flatMap]
      exact .inr ⟨k, hk, hf⟩
  · obtain ⟨impl, hsingle, -, hparams, -⟩ := (package_declared hp hclass hf).single
    have hi' := mem_of_primary? hi
    rw [hsingle, List.mem_singleton] at hi'
    subst hi'
    have htypes := hdescribes.types.length_eq
    rw [Option.mem_def.mp hi] at htypes
    simpa [declaredTypes, hparams] using htypes
  · exact fun _ hcalled => absurd (hdescribes.caller.symm.trans hcalled) (by simp)

-- In a contract that knows what needs the caller, each function is told its caller or names none.
theorem caller_or_fits_methods (hp : Resolve.package name unit = .ok p) (hc : c ∈ p.contracts)
    (hknows : p.KnowsNeeds c) {out : Rust.File} (hfile : file p c .soroban = .ok out) :
    ∀ g ∈ out.methods, TakesCaller g ∨ ∀ code ∈ g.body, code.Fits withoutCaller := by
  have hclass := List.mem_of_mem_filter hc
  have hsourced := sourced_package hp hclass .soroban
  intro g hg
  cases origin_of_methods hsourced hfile g hg with
  | deployed hw hg =>
      cases hneeds : p.constructorNeedsCaller c with
      | true => exact .inl (takesCaller_deployment rfl hneeds hw g hg)
      | false =>
          have hsuits := suitsDeployment_withoutCaller hp hclass hknows hneeds
          exact .inr (fits_deployment (lawful_withoutCaller hknows) hsourced hsuits hw g hg)
  | entry hf hr hw => exact caller_or_fits_entry hp hc hknows hf (fun _ => mem_of_primary?) hr hw
  | helper hasked hw =>
      cases hasked with
      | implementation hf himpl _ =>
          obtain ⟨r, s₁, hr, hw⟩ := writes_bind.mp hw
          exact caller_or_fits_entry hp hc hknows hf (by rintro i ⟨⟩; exact himpl) hr hw
      | @library start library owner sig args hcall =>
          obtain ⟨r, s₁, hr, hw⟩ := writes_bind.mp hw
          obtain ⟨k, hk, howner, hf⟩ := (hsourced.libraries _ _ _ _ _ hcall).declared
          have hkind := hknows.libraries _ _ _ _ _ hcall k howner
          have hlibrary : k ∈ p.ofKind .library := List.mem_filter.mpr ⟨hk, decide_eq_true hkind⟩
          exact .inr (fits_libraryHelper hp hknows hlibrary hf hr hw)

end Threaded

namespace Initial

-- A contract with an owner from the start, and a function that gives its caller.

open Resolve (plainContract plainType)

def term (primary : String) (suffixes : List Solidity.Suffix) : Solidity.Expression :=
  ⟨default, default, ⟨⟨.term default (.ident primary) suffixes, []⟩, none⟩, none⟩

-- `address o = value;`
def ownerField (value : Solidity.Expression) : Solidity.ContractPart :=
  .variable default ⟨default, plainType "address", [], "o", some value⟩

-- `function g() internal returns (address) { return msg.sender; }`
def givesCaller : Solidity.ContractPart :=
  .function default
    { start := default, stop := default, kind := "function", name := "g", params := []
      attrs := [.visibility default "internal"], returns := [⟨default, plainType "address", "", ""⟩]
      body := some ⟨default, default, [.returnValue default (some (term "msg" [.member default "sender"]))]⟩ }

def owned (value : Solidity.Expression) : Solidity.SourceUnit :=
  ⟨default, [plainContract "C" false [] [ownerField value, givesCaller]]⟩

-- The package that it becomes.

def fieldOwner (value : Expr) : StorageField :=
  { name := "o", sourceName := "o", type := .address false, owner := "C", start := default, value := some value }

def giver : Function :=
  { name := "g", sourceName := "g", kind := .function, visibility := .isInternal, returns := [⟨"", .address false⟩]
    implementations := [
      { owner := "C", returns := [⟨"", .address false⟩], implemented := true, usesCaller := true, start := default
        body := some ⟨default, [.returnValue default (some (.env default .sender))], false⟩ }] }

def ownedContract (value : Expr) (readsCaller : Bool) : Contract :=
  { name := "C", kind := .contract, isAbstract := false, bases := [], start := default, chain := ["C"]
    fields := [fieldOwner value], functions := [giver], storage := [fieldOwner value], dispatch := [giver], modifierTable := []
    callerUsers := ["g/0"], initUsesCaller := readsCaller }

-- `address o = msg.sender;`
def reading : Contract := ownedContract (.env default .sender) true
def readingPackage : Package := { name := "sample", classes := [reading] }

theorem package_reading :
    Resolve.package "sample" (owned (term "msg" [.member default "sender"])) = .ok readingPackage := by cbv

theorem file_reading : (file readingPackage reading .soroban).toOption.map
    (fun out => out.methods.map fun g => (g.name, g.params.map (·.name))) =
      some [("__constructor", ["env", "caller"]), ("_init", ["env", "caller"]), ("_init_c", ["env", "caller"]),
        ("g", ["env", "caller"])] := by
  decide

theorem knowsNeeds_reading : readingPackage.KnowsNeeds reading where
  names i hi v hv := by
    revert v i
    decide
  constants r k v hk hv := by cases hk
  libraries start library owner s args h := by
    obtain ⟨e, he, hx⟩ := h
    have hall : ∀ e ∈ readingPackage.exprs, e = .env default .sender := by
      simp [readingPackage, reading, ownedContract, fieldOwner, giver, Package.exprs, ContractDecl.exprs, Function.exprs,
        Implementation.exprs, Block.exprs, Block.substmts, substmtsList, Stmt.substmts, Stmt.directExprs]
    rw [hall e he] at hx
    simp [Expr.subexprs] at hx
  guards k hk := by
    have hnone : readingPackage.ofKind .library = [] := rfl
    rw [hnone] at hk
    cases hk
  deployed := .inl (by decide)

theorem reading_told : ∃ out, file readingPackage reading .soroban = .ok out ∧
    ∀ g ∈ out.methods, TakesCaller g ∨ ∀ code ∈ g.body, code.Fits withoutCaller := by
  have hfile := file_reading
  cases hout : file readingPackage reading .soroban with
  | error d =>
      rw [hout] at hfile
      cases hfile
  | ok out =>
      exact ⟨out, rfl, caller_or_fits_methods package_reading (List.mem_singleton.mpr rfl) knowsNeeds_reading hout⟩

-- `address o = g();`, where the call in an initial value is noted nowhere.
def asking : Contract := ownedContract (.call default "g" [] false "C" "" (.address false)) false
def askingPackage : Package := { name := "sample", classes := [asking] }

theorem package_asking : Resolve.package "sample" (owned (term "g" [.call default []])) = .ok askingPackage := by cbv

-- The initializer passes on a caller that it has not been told.
theorem initializer_untold : ∃ out g, Resolve.package "sample" (owned (term "g" [.call default []])) = .ok askingPackage ∧
    asking ∈ askingPackage.contracts ∧ file askingPackage asking .soroban = .ok out ∧ g ∈ out.methods ∧
    ¬ TakesCaller g ∧ ¬ ∀ code ∈ g.body, code.Fits withoutCaller := by
  have hfile : (file askingPackage asking .soroban).toOption.bind (fun out => out.methods[2]?.map fun g =>
      (g.params, g.body)) =
        some ([⟨"env", "&Env"⟩], some ⟨[Soroban.writeField (fieldOwner default).toFieldDecl
          (.tryOp (.callPath "Self::g" [.ident "env", (Rust.Expr.ident "caller").method "clone"])) []],
          some (.callPath "Ok" [.lit "()"])⟩) := rfl
  cases hout : file askingPackage asking .soroban with
  | error d =>
      rw [hout] at hfile
      cases hfile
  | ok out =>
      rw [hout] at hfile
      obtain ⟨g, hg, hsame⟩ := Option.map_eq_some_iff.mp hfile
      obtain ⟨hparams, hbody⟩ := Prod.mk.inj hsame
      refine ⟨out, g, package_asking, List.mem_singleton.mpr rfl, rfl, List.mem_of_getElem? hg, ?_, fun h => ?_⟩
      · simp [TakesCaller, hparams]
      · obtain ⟨hstmts, -⟩ := h _ hbody
        cases hstmts _ List.mem_cons_self with
        | expr hset =>
            cases hset with
            | methodCall _ hargs =>
                -- `&Self::g(env, caller.clone())?`
                have hvalue : (Rust.Expr.ref (.tryOp (.callPath "Self::g"
                    [.ident "env", (Rust.Expr.ident "caller").method "clone"]))).Fits withoutCaller :=
                  hargs _ (List.mem_cons_of_mem _ (List.mem_singleton.mpr rfl))
                cases hvalue with
                | unary hcall =>
                    cases hcall with
                    | tryOp hcall =>
                        cases hcall with
                        | call hgiven =>
                            cases hgiven _ (List.mem_cons_of_mem _ (List.mem_singleton.mpr rfl)) with
                            | methodCall hcaller _ =>
                                cases hcaller with
                                | ident hname => exact hname rfl

end Initial

end Emit

end RustContracts
