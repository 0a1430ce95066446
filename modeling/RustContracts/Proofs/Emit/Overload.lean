import RustContracts.Emit.Contract
import RustContracts.Proofs.Emit.Temp
import RustContracts.Proofs.Resolve.Package
import RustContracts.Proofs.Resolve.Steps

-- Overloads: functions that share a name and differ in the number of their parameters are written apart,
-- and calls reach the one with as many parameters as they have arguments.
namespace RustContracts

namespace Rust

mutual

-- The functions that stand in the implementation of a type; those of traits have no body.
def Item.methods : Item → List Function
  | .impl _ _ _ functions => functions
  | .module _ _ items => methodsOf items
  | _ => []

def methodsOf : List Item → List Function
  | [] => []
  | item :: rest => item.methods ++ methodsOf rest

end

def File.methods (f : File) : List Function := methodsOf f.items

theorem methodsOf_eq (items : List Item) : methodsOf items = items.flatMap Item.methods := by
  induction items with
  | nil => rfl
  | cons item items ih => rw [methodsOf, ih, List.flatMap_cons]

theorem methodsOf_eq_nil {items : List Item} : methodsOf items = [] ↔ ∀ item ∈ items, item.methods = [] := by
  rw [methodsOf_eq, List.flatMap_eq_nil_iff]

@[simp] theorem methodsOf_append (items items' : List Item) :
    methodsOf (items ++ items') = methodsOf items ++ methodsOf items' := by
  simp only [methodsOf_eq, List.flatMap_append]

@[simp] theorem methodsOf_uses (paths : List String) : methodsOf (paths.map .use) = [] := by
  simp [methodsOf_eq, Item.methods]

-- An implementation without functions is left out.
theorem methodsOf_helpers (name : String) (helpers : List Function) :
    methodsOf (if helpers.isEmpty then [] else [.impl [] "" name helpers]) = helpers := by
  split
  · next hempty => rw [List.isEmpty_iff.mp hempty, methodsOf]
  · simp [methodsOf, Item.methods]

end Rust

namespace Emit

open Program

variable {E : Env} {s s' : State}

-- Files.

theorem mem_methods_assemble {m : Module} {file : Rust.File} (h : Writes (assemble m) E s file s') {g : Rust.Function}
    (hg : g ∈ m.entries ++ m.helpers) : g ∈ file.methods := by
  unfold assemble at h
  rw [writes_of_target] at h
  cases ht : E.target with
  | ink v =>
      rw [ht] at h
      simp only [Ink.assemble, writes_bind, writes_read, writes_pure] at h
      obtain ⟨c, s₁, -, imports, s₂, -, rfl, -⟩ := h
      simp only [Rust.File.methods, Rust.methodsOf_append, Rust.methodsOf, Rust.Item.methods, List.append_nil]
      exact List.mem_append_right _ (List.mem_append_right _ hg)
  | soroban =>
      rw [ht] at h
      simp only [Soroban.assemble, writes_bind, writes_read, writes_pure] at h
      obtain ⟨_, s₁, -, _, s₂, -, c, s₃, -, imports, s₄, -, rfl, -⟩ := h
      simp only [Rust.File.methods, Rust.methodsOf_append, Rust.methodsOf_helpers, Rust.methodsOf, Rust.Item.methods,
        List.append_nil]
      rw [List.append_assoc]
      exact List.mem_append_right _ hg

-- The code of an implementation, inside the modifiers that guard it.
def HasBodyOf (E : Env) (impl : Implementation) (g : Rust.Function) : Prop :=
  ∃ body inlined code before tail, impl.body = some body ∧
    (∃ s s', Writes (guarded body impl.modifiers) E s inlined s') ∧
    (∃ s s', Writes (stmts inlined.stmts) E s code s') ∧ g.body = some ⟨before ++ code, tail⟩

-- The attributes with which callers from outside find a function, as far as its signature has an end.
def selectorAttrs (E : Env) (r : Routine) : List (Option String) :=
  match E.target with
  | .ink _ => r.entry.toList.map fun f =>
      (Ink.messageSelector E.package E.contract f).map (Ink.messageAttr r.payable)
  | .soroban => []

theorem selectors_of_mapM {selector : Signature → Option String} {fs : List Signature} {selectors : List String}
    (h : Writes (fs.mapM fun f => Ink.ended (selector f)) E s selectors s') : fs.map selector = selectors.map some := by
  rw [← List.forall₂_eq_eq_eq, List.forall₂_map_left_iff, List.forall₂_map_right_iff]
  refine (writes_mapM h).imp fun f text hw => ?_
  obtain ⟨_, _, hw⟩ := hw
  exact (writes_ended.mp hw).1

-- The parameters that a target puts before those of a function.
def frontParams (target : Target) (r : Routine) : List Rust.Param :=
  match target with
  | .ink _ => []
  | .soroban => ⟨"env", if r.isExposed then "Env" else "&Env"⟩ :: if r.caller then [⟨"caller", "Address"⟩] else []

-- What a function returns is wrapped, so that it can fail.
def wrapped (target : Target) (result : String) : String :=
  match target with
  | .ink _ => Ink.resultType result
  | .soroban => Soroban.resultType result

-- A function before its body is written.
structure ShellOf (E : Env) (r : Routine) (g : Rust.Function) : Prop where
  name : g.name = r.name
  isPublic : g.isPublic = r.isExposed
  attrs : g.attrs.map some = selectorAttrs E r
  receiver : g.receiver = "" ↔ E.target = .soroban
  params : g.params = frontParams E.target r ++ r.params
  result : g.result = wrapped E.target r.result

theorem writes_routineShell {r : Routine} {g : Rust.Function} (h : Writes (routineShell r) E s g s') :
    ShellOf E r g := by
  unfold routineShell at h
  rw [writes_of_target] at h
  cases ht : E.target with
  | ink v =>
      rw [ht] at h
      unfold Ink.routine at h
      obtain ⟨env, _, henv, h⟩ := writes_bind.mp h
      obtain ⟨rfl, rfl⟩ := writes_read.mp henv
      obtain ⟨selectors, _, hselectors, h⟩ := writes_bind.mp h
      obtain ⟨rfl, -⟩ := writes_pure.mp h
      have hattrs := congrArg (List.map (Option.map (Ink.messageAttr r.payable))) (selectors_of_mapM hselectors)
      have hreceiver : Ink.receiver r.mutates ≠ "" := by cases r.mutates <;> decide
      refine ⟨rfl, rfl, ?_, by simp [hreceiver, ht], by rw [ht]; rfl, by rw [ht]; rfl⟩
      rw [selectorAttrs, ht]
      simpa [List.map_map, Function.comp_def] using hattrs.symm
  | soroban =>
      rw [ht] at h
      unfold Soroban.routine at h
      obtain ⟨_, _, -, h⟩ := writes_bind.mp h
      dsimp only at h
      split at h
      · next hcaller =>
          obtain ⟨_, _, -, h⟩ := writes_bind.mp h
          obtain ⟨rfl, -⟩ := writes_pure.mp h
          exact ⟨rfl, rfl, by rw [selectorAttrs, ht]; rfl, by simp [ht], by rw [ht, frontParams, if_pos hcaller],
            by rw [ht]; rfl⟩
      · next hcaller =>
          obtain ⟨rfl, -⟩ := writes_pure.mp h
          exact ⟨rfl, rfl, by rw [selectorAttrs, ht]; rfl, by simp [ht], by rw [ht, frontParams, if_neg hcaller],
            by rw [ht]; rfl⟩

theorem writes_function {r : Routine} {f : Function} {impl : Option Implementation} {g : Rust.Function}
    (h : Writes (function r f impl) E s g s') :
    g.name = r.name ∧ g.attrs.map some = selectorAttrs E r ∧ ∃ i, impl = some i ∧ HasBodyOf E i g := by
  unfold function at h
  split at h
  · next i body hbody =>
      have hi : i.body = some body := by simpa using hbody
      obtain ⟨_, s₁, -, h⟩ := writes_bind.mp h
      obtain ⟨inlined, s₂, hguarded, h⟩ := writes_bind.mp h
      obtain ⟨_, s₃, -, h⟩ := writes_bind.mp h
      obtain ⟨params, s₄, -, h⟩ := writes_bind.mp h
      obtain ⟨shell, s₅, hshell, h⟩ := writes_bind.mp h
      obtain ⟨_, s₆, -, h⟩ := writes_bind.mp h
      obtain ⟨before, s₇, -, h⟩ := writes_bind.mp h
      obtain ⟨results, s₈, -, h⟩ := writes_bind.mp h
      obtain ⟨code, s₉, hcode, h⟩ := writes_bind.mp h
      have hof := writes_routineShell hshell
      have hwritten (tail : Option Rust.Expr) :
          HasBodyOf E i { shell with body := some ⟨before ++ results ++ code, tail⟩ } :=
        ⟨body, inlined, code, before ++ results, tail, hi, ⟨_, _, hguarded⟩, ⟨_, _, hcode⟩, rfl⟩
      have hdone {tail : Option Rust.Expr} {s : State}
          (h : Writes (pure { shell with body := some ⟨before ++ results ++ code, tail⟩ }) E s g s') :
          g.name = r.name ∧ g.attrs.map some = selectorAttrs E r ∧ ∃ j, some i = some j ∧ HasBodyOf E j g := by
        obtain ⟨rfl, -⟩ := writes_pure.mp h
        exact ⟨hof.name, hof.attrs, i, rfl, hwritten tail⟩
      split at h
      · exact hdone h
      · obtain ⟨x, s₁₀, -, h⟩ := writes_bind.mp h
        exact hdone h
  · exact absurd h not_writes_throw

-- Entries.

-- What is written for an entry of the dispatch table.
structure WrittenFor (E : Env) (f : Function) (g : Rust.Function) : Prop where
  name : g.name = f.name
  attrs : g.attrs.map some = selectorAttrs E
    { name := f.name
      entry := if isMessage f.toSignature then some f.toSignature else none
      payable := f.mutability = .payable }
  body : ∃ impl, f.primary? = some impl ∧ HasBodyOf E impl g

theorem writes_functionRoutine {f : Function} {impl : Option Implementation} {name : String}
    {entry : Option Signature} {r : Routine} (h : Writes (functionRoutine f impl name entry) E s r s') :
    r.name = name ∧ r.entry = entry ∧ r.payable = decide (f.mutability = .payable) := by
  unfold functionRoutine at h
  obtain ⟨params, s₁, -, h⟩ := writes_bind.mp h
  obtain ⟨result, s₂, -, h⟩ := writes_bind.mp h
  obtain ⟨env, s₃, -, h⟩ := writes_bind.mp h
  obtain ⟨rfl, -⟩ := writes_pure.mp h
  exact ⟨rfl, rfl, rfl⟩

theorem selectorAttrs_congr {r r' : Routine} (hentry : r.entry = r'.entry)
    (hpayable : r.payable = r'.payable) : selectorAttrs E r = selectorAttrs E r' := by
  rw [selectorAttrs, selectorAttrs, hentry, hpayable]

theorem writes_dispatched {fs : List Function} {written : List Rust.Function × List Rust.Function}
    (h : Writes (dispatched fs) E s written s') :
    ∀ f ∈ fs, ∃ g ∈ written.1 ++ written.2, WrittenFor E f g := by
  induction fs generalizing s s' written with
  | nil => simp
  | cons f fs ih =>
      unfold dispatched at h
      obtain ⟨r, s₁, hr, h⟩ := writes_bind.mp h
      obtain ⟨g, s₂, hg, h⟩ := writes_bind.mp h
      obtain ⟨⟨entries, helpers⟩, s₃, hrest, h⟩ := writes_bind.mp h
      obtain ⟨rfl, -⟩ := writes_pure.mp h
      obtain ⟨hname, hentry, hpayable⟩ := writes_functionRoutine hr
      obtain ⟨hgname, hattrs, hbody⟩ := writes_function hg
      have hwritten : WrittenFor E f g :=
        ⟨hgname.trans hname, hattrs.trans (selectorAttrs_congr hentry hpayable), hbody⟩
      rw [List.forall_mem_cons]
      by_cases hexposed : r.isExposed
      · rw [if_pos hexposed]
        refine ⟨⟨g, by simp, hwritten⟩, fun e he => ?_⟩
        obtain ⟨g', hg', hw⟩ := ih hrest e he
        exact ⟨g', List.mem_cons_of_mem g hg', hw⟩
      · rw [if_neg hexposed]
        refine ⟨⟨g, by simp, hwritten⟩, fun e he => ?_⟩
        obtain ⟨g', hg', hw⟩ := ih hrest e he
        refine ⟨g', ?_, hw⟩
        simp only [List.mem_append, List.mem_cons] at hg' ⊢
        grind

-- Every entry of the dispatch table of a contract is in its file.
theorem file_holds {p : Package} {c : Contract} {target : Target} {out : Rust.File}
    (h : file p c target = .ok out) {f : Function} (hf : f ∈ c.dispatch) :
    ∃ g ∈ out.methods, WrittenFor { package := p, contract := c, target := target } f g := by
  obtain ⟨s', hw⟩ : ∃ s', Writes contract { package := p, contract := c, target := target } {} out s' :=
    ⟨_, Prod.ext h rfl⟩
  unfold contract at hw
  obtain ⟨env, s₁, henv, hw⟩ := writes_bind.mp hw
  obtain ⟨rfl, rfl⟩ := writes_read.mp henv
  obtain ⟨enums, s₂, -, hw⟩ := writes_bind.mp hw
  obtain ⟨structs, s₃, -, hw⟩ := writes_bind.mp hw
  obtain ⟨storage, s₄, -, hw⟩ := writes_bind.mp hw
  obtain ⟨events, s₅, -, hw⟩ := writes_bind.mp hw
  obtain ⟨errors, s₆, -, hw⟩ := writes_bind.mp hw
  obtain ⟨⟨deployed, inits⟩, s₇, -, hw⟩ := writes_bind.mp hw
  obtain ⟨⟨messages, internals⟩, s₈, hdispatched, hw⟩ := writes_bind.mp hw
  obtain ⟨helpers, s₉, -, hw⟩ := writes_bind.mp hw
  obtain ⟨interfaces, s₁₀, -, hw⟩ := writes_bind.mp hw
  obtain ⟨g, hg, hwritten⟩ := writes_dispatched hdispatched f hf
  refine ⟨g, mem_methods_assemble hw ?_, hwritten⟩
  simp only [List.mem_append] at hg ⊢
  grind

-- Calls.

theorem mem_of_primary? {f : Function} {impl : Implementation} (h : f.primary? = some impl) :
    impl ∈ f.implementations := by
  rcases Option.or_eq_some_iff.mp h with h | ⟨-, h⟩
  · exact List.mem_of_find?_eq_some h
  · exact List.mem_of_mem_head? h

theorem mem_of_next? {f : Function} {owner : String} {impl : Implementation}
    (h : f.next? owner = some impl) : impl ∈ f.implementations := by
  unfold Function.next? at h
  split at h
  · cases h
  · next first rest hdrop =>
      have hrest : impl ∈ f.implementations.dropWhile (·.owner != owner) :=
        hdrop ▸ List.mem_cons_of_mem _ (List.mem_of_find?_eq_some h)
      exact (List.dropWhile_suffix _).subset hrest

theorem mem_of_baseImplementation? {p : Package} {f : Function} {base : String} {impl : Implementation}
    (h : baseImplementation? p f base = some impl) : impl ∈ f.implementations := by
  obtain ⟨c, -, h⟩ := Option.bind_eq_some_iff.mp h
  obtain ⟨owner, -, h⟩ := List.exists_of_findSome?_eq_some h
  exact List.mem_of_find?_eq_some (Option.filter_eq_some_iff.mp h).1

-- The implementation that a call runs.
theorem mem_of_calledImplementation? {p : Package} {f : Function} {isSuper : Bool} {inClass base : String}
    {impl : Implementation} (h : calledImplementation? p f isSuper inClass base = some impl) :
    impl ∈ f.implementations ∧ impl.body.isSome = true := by
  obtain ⟨hfound, hbody⟩ := Option.filter_eq_some_iff.mp h
  refine ⟨?_, hbody⟩
  split at hfound
  · exact mem_of_next? hfound
  · split at hfound
    · exact mem_of_baseImplementation? hfound
    · exact mem_of_primary? hfound

theorem writes_callee {start : Text.Position} {name : String} {arity : Nat} {isSuper : Bool}
    {inClass base : String} {f : Function} {impl : Implementation}
    (h : Writes (callee start name arity isSuper inClass base) E s (f, impl) s') :
    E.contract.lookup? name arity = some f ∧
      calledImplementation? E.package f isSuper inClass base = some impl := by
  unfold callee at h
  obtain ⟨env, s₁, henv, h⟩ := writes_bind.mp h
  obtain ⟨rfl, rfl⟩ := writes_read.mp henv
  split at h
  · exact absurd h not_writes_throw
  · next f' hf =>
      split at h
      · exact absurd h not_writes_throw
      · next impl' himpl =>
          obtain ⟨heq, -⟩ := writes_pure.mp h
          cases heq
          exact ⟨hf, himpl⟩

-- A call of a function of the contract by its identifier.
def CallsFunction (ident : String) (x : Rust.Expr) : Prop :=
  (∃ xs, x = (Rust.Expr.ident "self").methodCall ident xs) ∨ ∃ xs, x = .callPath ("Self::" ++ ident) xs

theorem callsFunction_invoke {r : Routine} {xs : List Rust.Expr} {x : Rust.Expr}
    (h : Writes (invoke r xs) E s x s') : CallsFunction r.name x := by
  unfold invoke at h
  rw [writes_of_target] at h
  cases ht : E.target with
  | ink v =>
      rw [ht] at h
      obtain ⟨rfl, -⟩ := writes_pure.mp h
      exact .inl ⟨xs, rfl⟩
  | soroban =>
      rw [ht] at h
      unfold Soroban.call at h
      obtain ⟨here, s₁, -, h⟩ := writes_bind.mp h
      obtain ⟨rfl, -⟩ := writes_pure.mp h
      exact .inr ⟨_, rfl⟩

-- The primary implementation is called under the name of its entry, any other under a name of its own.
theorem name_callRoutine {f : Function} {impl : Implementation} {r : Routine}
    (h : Writes (callRoutine f impl) E s r s') :
    if isPrimary f impl then r.name = f.name else ∃ s s', Writes (implementationName f impl) E s r.name s' := by
  unfold callRoutine at h
  split at h
  · next hprimary =>
      rw [if_pos hprimary]
      exact (writes_functionRoutine h).1
  · next hprimary =>
      rw [if_neg hprimary]
      obtain ⟨name, s₁, hname, h⟩ := writes_bind.mp h
      rw [(writes_functionRoutine h).1]
      exact ⟨_, _, hname⟩

-- What a call of a function of the contract is written as.
theorem writes_call {inlined : ConstantDecl → Emit Rust.Expr} {expected : Option Ty} {start : Text.Position}
    {name : String} {args : List Expr} {isSuper : Bool} {inClass base : String} {t : Ty} {a : Access}
    (h : Writes (access inlined expected (.call start name args isSuper inClass base t)) E s a s') :
    ∃ f impl r x, E.contract.lookup? name args.length = some f ∧
      calledImplementation? E.package f isSuper inClass base = some impl ∧
      (∃ s s', Writes (callRoutine f impl) E s r s') ∧ CallsFunction r.name x ∧ a = .value (.tryOp x) := by
  rw [access] at h
  obtain ⟨⟨f, impl⟩, s₁, hcallee, h⟩ := writes_bind.mp h
  obtain ⟨r, s₂, hr, h⟩ := writes_bind.mp h
  obtain ⟨xs, s₃, -, h⟩ := writes_bind.mp h
  obtain ⟨x, s₄, hx, h⟩ := writes_bind.mp h
  obtain ⟨rfl, -⟩ := writes_pure.mp h
  obtain ⟨hf, himpl⟩ := writes_callee hcallee
  exact ⟨f, impl, r, x, hf, himpl, ⟨_, _, hr⟩, callsFunction_invoke hx, rfl⟩

-- How a call of an entry is written: the primary implementation under the name of what is written for the
-- entry, any other implementation under a name of its own.
def CallsEntry (E : Env) (f : Function) (isSuper : Bool) (base ident : String) (a : Access) : Prop :=
  ∃ impl ∈ f.implementations, impl.body.isSome = true ∧ (isSuper = false → base = "" → isPrimary f impl = true) ∧
    ∃ called x, a = .value (.tryOp x) ∧ CallsFunction called x ∧
      if isPrimary f impl then called = ident else ∃ s s', Writes (implementationName f impl) E s called s'

-- A declaration with its entry and with what is written for that.
structure Serves (E : Env) (out : Rust.File) (d f : Function) (g : Rust.Function) : Prop where
  mem : f ∈ E.contract.dispatch
  sourceName : f.sourceName = d.sourceName
  arity : f.params.length = d.params.length
  implementations : ∀ impl ∈ d.implementations, impl ∈ f.implementations
  mem_methods : g ∈ out.methods
  written : WrittenFor E f g
  -- calls with as many arguments
  calls : ∀ {inlined expected start args isSuper inClass base t s a s'}, args.length = d.params.length →
    Writes (access inlined expected (.call start d.sourceName args isSuper inClass base t)) E s a s' →
      CallsEntry E f isSuper base g.name a

-- Keys are unique, so an entry is found by its own key.
theorem eq_of_lookup? {c : Contract} (hnodup : (c.dispatch.map (·.key)).Nodup) {f f' : Function}
    (hf : f ∈ c.dispatch) {name : String} {arity : Nat} (hkey : f.key = functionKey name arity)
    (h : c.lookup? name arity = some f') : f' = f := by
  have hkey' : f'.key = functionKey name arity := by simpa using List.find?_some h
  exact List.inj_on_of_nodup_map hnodup (List.mem_of_find?_eq_some h) hf (hkey'.trans hkey.symm)

theorem serves_of_declared {p : Package} {c : Contract} {target : Target} {out : Rust.File} {k : Contract}
    {d : Function} (htable : Resolve.DispatchTable (p.chainOf c) c.dispatch)
    (hout : file p c target = .ok out) (hk : k ∈ p.chainOf c) (hd : d ∈ k.functions) :
    ∃ f g, f.kind ≠ .getter ∧ Serves { package := p, contract := c, target := target } out d f g := by
  obtain ⟨f, hf, hkind, hkey, himpls⟩ := htable.exists_entry hk hd
  obtain ⟨g, hg, hwritten⟩ := file_holds hout hf
  obtain ⟨hname, harity⟩ := Signature.key_eq_iff.mp hkey
  refine ⟨f, g, hkind, hf, hname, harity, himpls, hg, hwritten, ?_⟩
  intro inlined expected start args isSuper inClass base t s a s' hargs hcall
  obtain ⟨f', impl, r, x, hf', himpl, ⟨s₁, s₂, hr⟩, hx, ha⟩ := writes_call hcall
  rw [hargs] at hf'
  obtain rfl := eq_of_lookup? htable.keys_nodup hf hkey hf'
  obtain ⟨hmem, hbody⟩ := mem_of_calledImplementation? himpl
  refine ⟨impl, hmem, hbody, ?_, r.name, x, ha, hx, ?_⟩
  · rintro rfl rfl
    have hprimary : f'.primary? = some impl := (Option.filter_eq_some_iff.mp himpl).1
    simp [isPrimary, hprimary]
  · rw [hwritten.name]
    exact name_callRoutine hr

-- Functions of one name with different numbers of parameters are written under these numbers.
theorem name_of_overloads {p : Package} {c : Contract} {o : Resolve.Outline}
    (hp : p.classes = o.classes.map (Resolve.finished o)) (hc : c ∈ p.classes) {f f' : Function}
    (hf : f ∈ c.dispatch) (hf' : f' ∈ c.dispatch) (hname : f.sourceName = f'.sourceName)
    (harity : f.params.length ≠ f'.params.length) :
    f.name = numbered (Rust.Name.value f.sourceName) f.params.length := by
  obtain ⟨k, -, rfl⟩ := List.mem_map.mp (hp ▸ hc)
  rw [Resolve.finished_dispatch] at hf hf'
  exact name_nameOverloads hf hf' hname.symm harity.symm

theorem name_ne_of_overloads {p : Package} {c : Contract} {o : Resolve.Outline}
    (hp : p.classes = o.classes.map (Resolve.finished o)) (hc : c ∈ p.classes) {f f' : Function}
    (hf : f ∈ c.dispatch) (hf' : f' ∈ c.dispatch) (hname : f.sourceName = f'.sourceName)
    (harity : f.params.length ≠ f'.params.length) : f.name ≠ f'.name := by
  intro heq
  rw [name_of_overloads hp hc hf hf' hname harity, name_of_overloads hp hc hf' hf hname.symm harity.symm] at heq
  exact harity (numbered_inj heq).2

-- A declaration is served by one entry of its name and number of parameters.
theorem Serves.entry_eq {out : Rust.File} {d d' f f' : Function} {g g' : Rust.Function}
    (hnodup : (E.contract.dispatch.map (·.key)).Nodup) (h : Serves E out d f g) (h' : Serves E out d' f' g')
    (hname : d.sourceName = d'.sourceName) (harity : d.params.length = d'.params.length) : f = f' := by
  have hsource : f.sourceName = f'.sourceName := h.sourceName.trans (hname.trans h'.sourceName.symm)
  have hparams : f.params.length = f'.params.length := h.arity.trans (harity.trans h'.arity.symm)
  exact List.inj_on_of_nodup_map hnodup h.mem h'.mem (Signature.key_eq_iff.mpr ⟨hsource, hparams⟩)

-- What serves one declaration serves any other of its name and number of parameters.
theorem Serves.other {out : Rust.File} {d d' f : Function} {g g' : Rust.Function} (h : Serves E out d f g)
    (h' : Serves E out d' f g') (hname : d.sourceName = d'.sourceName) (harity : d.params.length = d'.params.length) :
    Serves E out d' f g where
  mem := h.mem
  sourceName := h'.sourceName
  arity := h'.arity
  implementations := h'.implementations
  mem_methods := h.mem_methods
  written := h.written
  calls := by
    rw [← hname, ← harity]
    exact h.calls

-- Two functions of one name, from any classes of the chain of a contract that compiles, have entries without a common
-- implementation, each written for itself, exactly when they differ in the number of their parameters. Otherwise the
-- one entry of both stands for them, of which only the primary implementation is written. A call reaches the entry
-- that has as many parameters as the call has arguments.
theorem overloads_apart_iff {name : String} {unit : Solidity.SourceUnit} {p : Package} {c k k' : Contract}
    {d d' : Function} {target : Target} {out : Rust.File} (h : Resolve.package name unit = .ok p)
    (hc : c ∈ p.classes) (hout : file p c target = .ok out) (hk : k ∈ p.chainOf c) (hd : d ∈ k.functions)
    (hk' : k' ∈ p.chainOf c) (hd' : d' ∈ k'.functions) (hname : d.sourceName = d'.sourceName) :
    ((∃ f f' g g', Serves { package := p, contract := c, target := target } out d f g ∧
        Serves { package := p, contract := c, target := target } out d' f' g' ∧ g.name ≠ g'.name ∧
        ∀ impl ∈ f.implementations, impl ∉ f'.implementations) ↔
      d.params.length ≠ d'.params.length) ∧
    (d.params.length = d'.params.length → ∃ f g, Serves { package := p, contract := c, target := target } out d f g ∧
      Serves { package := p, contract := c, target := target } out d' f g) ∧
    ∀ {env : Resolve.Env} {seen seen' : Resolve.Gathered} {isSuper : Bool} {base : String}
      {args : Resolve.CallArgs} {t : Resolve.Term}, args.named = [] ∨ args.positional = [] →
      Resolve.Resolves (Resolve.internalCall d.sourceName isSuper base args) env seen t seen' →
        ∃ self xs, env.contract = some self ∧ xs.length = args.arity ∧ (self.kind ≠ .library →
          ∃ ty, t = .value (.call args.start d.sourceName xs isSuper self.name base ty)) := by
  obtain ⟨o, hs, hclasses⟩ := Resolve.package_classes h
  obtain ⟨decl, hdecl, rfl⟩ := List.mem_map.mp (hclasses ▸ hc)
  have hchain := hs.chainOf hclasses hdecl
  have htable := hchain.dispatchTable
  obtain ⟨f, g, hkind, hserves⟩ := serves_of_declared htable hout hk hd
  obtain ⟨f', g', hkind', hserves'⟩ := serves_of_declared htable hout hk' hd'
  refine ⟨⟨?_, fun harity => ⟨f, f', g, g', hserves, hserves', ?_, ?_⟩⟩, fun harity => ⟨f, g, hserves, ?_⟩,
    Resolve.resolves_internalCall⟩
  · rintro ⟨f₁, f₂, g₁, g₂, h₁, h₂, hne, -⟩ harity
    obtain rfl := h₁.entry_eq htable.keys_nodup h₂ hname harity
    exact hne (h₁.written.name.trans h₂.written.name.symm)
  · have hparams : f.params.length ≠ f'.params.length := by
      rwa [hserves.arity, hserves'.arity]
    have hsource : f.sourceName = f'.sourceName := by
      rw [hserves.sourceName, hserves'.sourceName, hname]
    rw [hserves.written.name, hserves'.written.name]
    exact name_ne_of_overloads hclasses hc hserves.mem hserves'.mem hsource hparams
  · intro impl himpl himpl'
    have hlength := (htable.entries f hserves.mem hkind).params_length hchain.declared himpl
    have hlength' := (htable.entries f' hserves'.mem hkind').params_length hchain.declared himpl'
    have h₁ := hserves.arity
    have h₂ := hserves'.arity
    omega
  · obtain rfl := hserves.entry_eq htable.keys_nodup hserves' hname harity
    exact hserves.other hserves' hname harity

-- A contract with two functions of one name, and what becomes of it.

def twoFunctions (params params' : List Solidity.Parameter) : Solidity.SourceUnit :=
  ⟨default, [Resolve.plainContract "C" false []
    [Resolve.plainFunction "f" params true, Resolve.plainFunction "f" params' true]]⟩

def sampleParam (type : String) : Solidity.Parameter := ⟨default, Resolve.plainType type, "", "x"⟩

def emptyFunction (name : String) (params : List Param) : Function :=
  let impl : Implementation :=
    { owner := "C", params := params, body := some ⟨default, [], false⟩, implemented := true, start := default }
  { name := name, sourceName := "f", kind := .function, params := params, implementations := [impl] }

def samplePackage (functions dispatch : List Function) : Package :=
  { name := "sample"
    classes := [{ name := "C", kind := .contract, isAbstract := false, bases := [], start := default
                  chain := ["C"], functions := functions, storage := [], dispatch := dispatch
                  modifierTable := [] }] }

def overloaded : Package :=
  samplePackage [emptyFunction "f" [], emptyFunction "f" [⟨"x", .uint256⟩]]
    [emptyFunction "f_0" [], emptyFunction "f_1" [⟨"x", .uint256⟩]]

theorem package_overloaded : Resolve.package "sample" (twoFunctions [] [sampleParam "uint"]) = .ok overloaded := by cbv

theorem overloads_apart_sample : ∃ c ∈ overloaded.classes, ∃ out d d' f f' g g',
    Resolve.package "sample" (twoFunctions [] [sampleParam "uint"]) = .ok overloaded ∧
    file overloaded c (.ink .v5) = .ok out ∧ c.functions = [d, d'] ∧ d.sourceName = d'.sourceName ∧
    d.params.length ≠ d'.params.length ∧
    Serves { package := overloaded, contract := c, target := .ink .v5 } out d f g ∧
    Serves { package := overloaded, contract := c, target := .ink .v5 } out d' f' g' ∧
    g.name ≠ g'.name ∧ ∀ impl ∈ f.implementations, impl ∉ f'.implementations := by
  have hwritten : (file overloaded (overloaded.classes.headD default) (.ink .v5)).toOption.isSome = true := by
    decide
  cases hout : file overloaded (overloaded.classes.headD default) (.ink .v5) with
  | error e =>
      rw [hout] at hwritten
      cases hwritten
  | ok out =>
      have hclass : overloaded.classes.headD default ∈ overloaded.classes := List.mem_singleton.mpr rfl
      have hchain : overloaded.classes.headD default ∈
          overloaded.chainOf (overloaded.classes.headD default) := List.mem_singleton.mpr rfl
      obtain ⟨hiff, -⟩ := overloads_apart_iff package_overloaded hclass hout hchain
        (List.mem_cons_self : emptyFunction "f" [] ∈ _) hchain
        (List.mem_cons_of_mem _ (List.mem_singleton.mpr rfl) : emptyFunction "f" [⟨"x", .uint256⟩] ∈ _) rfl
      obtain ⟨f, f', g, g', h⟩ := hiff.mpr (by decide)
      exact ⟨_, hclass, out, _, _, f, f', g, g', package_overloaded, hout, rfl, rfl, by decide, h⟩

-- With the same number of parameters, one function takes the place of the other: the file has one `f`, for addresses.
def merged : Package :=
  samplePackage [emptyFunction "f" [⟨"x", .uint256⟩], emptyFunction "f" [⟨"x", .address false⟩]]
    [{ emptyFunction "f" [⟨"x", .address false⟩] with
      implementations := (emptyFunction "f" [⟨"x", .address false⟩]).implementations ++
        (emptyFunction "f" [⟨"x", .uint256⟩]).implementations }]

theorem package_merged :
    Resolve.package "sample" (twoFunctions [sampleParam "uint"] [sampleParam "address"]) = .ok merged := by cbv

theorem same_arity_shares_entry : ∃ c ∈ merged.classes, ∃ d d' f out,
    Resolve.package "sample" (twoFunctions [sampleParam "uint"] [sampleParam "address"]) = .ok merged ∧
    file merged c (.ink .v5) = .ok out ∧ c.functions = [d, d'] ∧
    d.sourceName = d'.sourceName ∧ d.params.map (·.type.text) = ["uint256"] ∧
    d'.params.map (·.type.text) = ["address"] ∧ c.dispatch = [f] ∧
    f.implementations = d'.implementations ++ d.implementations ∧ f.primary? = d'.primary? ∧
    out.methods.map (fun g => (g.name, g.params.map (·.type))) = [("new", []), ("f", ["AccountId"])] := by
  have hmethods : (file merged (merged.classes.headD default) (.ink .v5)).toOption.map (fun out =>
      out.methods.map fun g => (g.name, g.params.map (·.type))) = some [("new", []), ("f", ["AccountId"])] := by
    decide +kernel
  cases hout : file merged (merged.classes.headD default) (.ink .v5) with
  | error stop =>
      rw [hout] at hmethods
      cases hmethods
  | ok out =>
      rw [hout] at hmethods
      refine ⟨merged.classes.headD default, List.mem_singleton.mpr rfl, _, _, _, out, package_merged, hout, rfl, rfl, ?_, ?_,
        rfl, rfl, rfl, Option.some.inj hmethods⟩
      · decide
      · decide

end Emit

end RustContracts
