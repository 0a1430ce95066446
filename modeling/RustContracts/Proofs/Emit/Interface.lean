import Mathlib
import RustContracts.Proofs.Emit.Selector

-- Methods of interfaces: how they are declared for those who call them, and how the messages that answer are declared.
namespace RustContracts

namespace Rust

def traitsIn : Item → List (String × List Function)
  | .trait _ name methods => [(name, methods)]
  | _ => []

-- The traits of a file, with their methods.
def File.traits (f : File) : List (String × List Function) := f.gather traitsIn

end Rust

namespace Emit

open Program
open Rust (gatherOf)

variable {E E' : Env} {s s' : State} {p : Package} {c d i : Contract} {f m : Function} {g t : Rust.Function}
  {name : String} {unit : Solidity.SourceUnit}

-- Steps whose result is up to the target: the setting and the state only decide whether there is one.
def Fixed {α : Type} (act : Emit α) : Prop :=
  ∀ ⦃E E' s s' t t' a b⦄, E.target = E'.target → Writes act E s a t → Writes act E' s' b t' → a = b

section Fixed

variable {α β : Type}

@[grind ←] theorem fixed_pure (a : α) : Fixed (pure a) := by
  intro E E' s s' t t' b b' _ hw hw'
  exact (writes_pure.mp hw).1.symm.trans (writes_pure.mp hw').1

@[grind ←] theorem fixed_throw (stop : Stop) : Fixed (throw stop : Emit α) := fun _ _ _ _ _ _ _ _ _ hw _ =>
  absurd hw not_writes_throw

@[grind ←] theorem fixed_use (path : String) : Fixed (use path) := fun _ _ _ _ _ _ _ _ _ _ _ => rfl

@[grind ←] theorem fixed_bind {x : Emit α} {f : α → Emit β} (hx : Fixed x) (hf : ∀ a, Fixed (f a)) : Fixed (x >>= f) := by
  intro E E' s s' t t' b b' htarget hw hw'
  obtain ⟨a, s₁, ha, hw⟩ := writes_bind.mp hw
  obtain ⟨a', s₂, ha', hw'⟩ := writes_bind.mp hw'
  obtain rfl := hx htarget ha ha'
  exact hf a htarget hw hw'

@[grind ←] theorem fixed_mapM {f : α → Emit β} (hf : ∀ a, Fixed (f a)) (xs : List α) : Fixed (xs.mapM f) := by
  induction xs with
  | nil => exact fixed_pure []
  | cons x xs ih =>
      rw [List.mapM_cons]
      exact fixed_bind (hf x) fun _ => fixed_bind ih fun _ => fixed_pure _

theorem fixed_target : Fixed target := by
  intro E E' s s' t t' a a' htarget hw hw'
  rw [← (writes_target.mp hw).1, ← (writes_target.mp hw').1, htarget]

@[grind ←] theorem fixed_useU256 (v : InkVersion) : Fixed (Ink.useU256 v) := by
  cases v <;> exact fixed_use _

@[grind ←] theorem fixed_intName (signed : Bool) (bits : Nat) : Fixed (Ink.intName signed bits) := by
  unfold Ink.intName
  split
  · exact fixed_pure _
  · split
    · exact fixed_throw _
    · exact fixed_pure _

@[grind ←] theorem fixed_inkType (v : InkVersion) (t : Ty) : Fixed (Ink.type v t) := by
  induction t using Ink.type.induct (motive_2 := fun ts => Fixed (Ink.types v ts)) <;>
    grind [Ink.type, Ink.types, Ink.addressType, Ink.useString, Ink.useVec]

@[grind ←] theorem fixed_sorobanType (t : Ty) : Fixed (Soroban.type t) := by
  induction t using Soroban.type.induct (motive_2 := fun ts => Fixed (Soroban.types ts)) <;>
    grind [Soroban.type, Soroban.types, Soroban.named]

theorem fixed_typeText (t : Ty) : Fixed (typeText t) := by
  refine fixed_bind fixed_target fun target => ?_
  cases target with
  | ink v => exact fixed_inkType v t
  | soroban => exact fixed_sorobanType t

end Fixed

theorem TypeText.unique {type : Ty} {text text' : String} (htarget : E.target = E'.target) (h : TypeText E type text)
    (h' : TypeText E' type text') : text = text' := by
  obtain ⟨s, s₁, hw⟩ := h
  obtain ⟨t, t₁, hw'⟩ := h'
  exact fixed_typeText type htarget hw hw'

theorem texts_unique {types : List Ty} {texts texts' : List String} (htarget : E.target = E'.target)
    (h : List.Forall₂ (TypeText E) types texts) (h' : List.Forall₂ (TypeText E') types texts') : texts = texts' := by
  induction h generalizing texts' with
  | nil =>
      cases h'
      rfl
  | cons htext _ ih =>
      cases h' with
      | cons htext' hrest => rw [htext.unique htarget htext', ih hrest]

-- The texts of types that stand together.

theorem typeText_ink {version : InkVersion} (htarget : E.target = .ink version) {type : Ty} {text : String} :
    Writes (typeText type) E s text s' ↔ Writes (Ink.type version type) E s text s' := by
  unfold typeText
  rw [writes_of_target, htarget]

theorem typeText_soroban (htarget : E.target = .soroban) {type : Ty} {text : String} :
    Writes (typeText type) E s text s' ↔ Writes (Soroban.type type) E s text s' := by
  unfold typeText
  rw [writes_of_target, htarget]

theorem texts_inkTypes {version : InkVersion} (htarget : E.target = .ink version) {types : List Ty} {texts : List String}
    (hw : Writes (Ink.types version types) E s texts s') : List.Forall₂ (TypeText E) types texts := by
  induction types generalizing s s' texts with
  | nil =>
      obtain ⟨rfl, -⟩ := writes_pure.mp hw
      exact .nil
  | cons type types ih =>
      rw [Ink.types] at hw
      obtain ⟨text, s₁, htext, hw⟩ := writes_bind.mp hw
      obtain ⟨more, s₂, hmore, hw⟩ := writes_bind.mp hw
      obtain ⟨rfl, -⟩ := writes_pure.mp hw
      exact .cons ⟨_, _, (typeText_ink htarget).mpr htext⟩ (ih hmore)

theorem texts_sorobanTypes (htarget : E.target = .soroban) {types : List Ty} {texts : List String}
    (hw : Writes (Soroban.types types) E s texts s') : List.Forall₂ (TypeText E) types texts := by
  induction types generalizing s s' texts with
  | nil =>
      obtain ⟨rfl, -⟩ := writes_pure.mp hw
      exact .nil
  | cons type types ih =>
      rw [Soroban.types] at hw
      obtain ⟨text, s₁, htext, hw⟩ := writes_bind.mp hw
      obtain ⟨more, s₂, hmore, hw⟩ := writes_bind.mp hw
      obtain ⟨rfl, -⟩ := writes_pure.mp hw
      exact .cons ⟨_, _, (typeText_soroban htarget).mpr htext⟩ (ih hmore)

theorem TypeText.tuple {types : List Ty} {text : String} (h : TypeText E (.tuple types) text) :
    ∃ texts, List.Forall₂ (TypeText E) types texts ∧ text = Ink.tupleText texts := by
  obtain ⟨s, s', hw⟩ := h
  cases htarget : E.target with
  | ink version =>
      rw [typeText_ink htarget, Ink.type] at hw
      obtain ⟨texts, s₁, htexts, hw⟩ := writes_bind.mp hw
      obtain ⟨rfl, -⟩ := writes_pure.mp hw
      exact ⟨texts, texts_inkTypes htarget htexts, rfl⟩
  | soroban =>
      rw [typeText_soroban htarget, Soroban.type] at hw
      obtain ⟨texts, s₁, htexts, hw⟩ := writes_bind.mp hw
      obtain ⟨rfl, -⟩ := writes_pure.mp hw
      exact ⟨texts, texts_sorobanTypes htarget htexts, rfl⟩

-- A function and a trait write the type of what is returned in different ways, with one outcome.
theorem resultText_eq {returns : List Param} {text text' : String} (htarget : E.target = E'.target)
    (hw : Writes (resultText returns) E s text s') (h : TypeText E' (returnType returns) text') : text = text' := by
  obtain ⟨texts, s₁, htexts, hw⟩ := writes_bind.mp hw
  have htexts : List.Forall₂ (TypeText E) (returns.map Param.type) texts := List.forall₂_map_left_iff.mpr (writes_mapM htexts)
  match returns, htexts with
  | [], .nil =>
      obtain ⟨rfl, -⟩ := writes_pure.mp hw
      obtain ⟨texts', htexts', rfl⟩ := h.tuple
      cases htexts'
      rfl
  | [r], .cons htext .nil =>
      obtain ⟨rfl, -⟩ := writes_pure.mp hw
      exact htext.unique htarget h
  | r :: r' :: rest, .cons htext (.cons htext' hrest) =>
      obtain ⟨rfl, -⟩ := writes_pure.mp hw
      obtain ⟨texts', htexts', rfl⟩ := h.tuple
      rw [← texts_unique htarget (.cons htext (.cons htext' hrest)) htexts']
      rfl

-- Traits.

-- A method as those who call it find it: there is no place for a caller, and what it returns is not wrapped.
structure TraitMethod (E : Env) (m : Signature) (t : Rust.Function) : Prop where
  name : t.name = m.name
  params : ∃ texts, List.Forall₂ (TypeText E) (m.params.map Param.type) texts ∧
    t.params.map (·.type) = paramTypes E.target true false texts
  result : TypeText E m.returnType t.result
  selector : ∀ {version}, E.target = .ink version → ∀ {selector}, HasSelector t selector ↔
    selectorOf E.package m = some selector

theorem traitMethod_ink {version : InkVersion} (htarget : E.target = .ink version) {m : Signature}
    (hw : Writes (Ink.interfaceMethod version m) E s t s') : TraitMethod E m t := by
  obtain ⟨params, s₁, hparams, hw⟩ := writes_bind.mp hw
  obtain ⟨result, s₂, hresult, hw⟩ := writes_bind.mp hw
  obtain ⟨env, s₃, henv, hw⟩ := writes_bind.mp hw
  obtain ⟨rfl, -⟩ := writes_read.mp henv
  obtain ⟨attr, s₄, hattr, hw⟩ := writes_bind.mp hw
  obtain ⟨rfl, -⟩ := writes_pure.mp hw
  have htypes := types_texts (fun htext => ⟨_, _, (typeText_ink htarget).mpr htext⟩) hparams
  refine ⟨rfl, ⟨_, htypes, by rw [htarget]; rfl⟩, ⟨_, _, (typeText_ink htarget).mpr hresult⟩, fun _ _ => ?_⟩
  have hselector := (writes_ended.mp hattr).1
  rw [selectorAttr_eq] at hselector
  obtain ⟨own, hown, rfl⟩ := Option.map_eq_some_iff.mp hselector
  rw [hasSelector_singleton rfl, hown, Option.some.injEq]

theorem traitMethod_soroban (htarget : E.target = .soroban) {m : Signature}
    (hw : Writes (Soroban.interfaceMethod m) E s t s') : TraitMethod E m t := by
  obtain ⟨params, s₁, hparams, hw⟩ := writes_bind.mp hw
  obtain ⟨result, s₂, hresult, hw⟩ := writes_bind.mp hw
  obtain ⟨rfl, -⟩ := writes_pure.mp hw
  have htypes := types_texts (fun htext => ⟨_, _, (typeText_soroban htarget).mpr htext⟩) hparams
  refine ⟨rfl, ⟨_, htypes, by rw [htarget]; rfl⟩, ⟨_, _, (typeText_soroban htarget).mpr hresult⟩, fun hink => ?_⟩
  rw [htarget] at hink
  cases hink

theorem trait_of_interface {items : List Rust.Item} (hw : Writes (interfaceItems i) E s items s') :
    ∃ attrs methods, items = [.trait attrs (Rust.Name.type i.name) methods] ∧
      List.Forall₂ (fun m t => TraitMethod E m.toSignature t) i.dispatch methods := by
  unfold interfaceItems at hw
  rw [writes_of_target] at hw
  cases htarget : E.target with
  | ink version =>
      rw [htarget] at hw
      obtain ⟨methods, s₁, hmethods, hw⟩ := writes_bind.mp hw
      obtain ⟨rfl, -⟩ := writes_pure.mp hw
      refine ⟨_, methods, rfl, (writes_mapM hmethods).imp fun m t hm => ?_⟩
      obtain ⟨t₁, t₂, hm⟩ := hm
      exact traitMethod_ink htarget hm
  | soroban =>
      rw [htarget] at hw
      obtain ⟨_, s₁, -, hw⟩ := writes_bind.mp hw
      obtain ⟨_, s₂, -, hw⟩ := writes_bind.mp hw
      obtain ⟨methods, s₃, hmethods, hw⟩ := writes_bind.mp hw
      obtain ⟨rfl, -⟩ := writes_pure.mp hw
      refine ⟨_, methods, rfl, (writes_mapM hmethods).imp fun m t hm => ?_⟩
      obtain ⟨t₁, t₂, hm⟩ := hm
      exact traitMethod_soroban htarget hm

-- The interfaces that the code of a contract calls.
def calledBy (E : Env) : List Contract :=
  (E.package.ofKind .interface).filter fun i => (outcome contract E {}).2.interfaces.contains i.name

theorem traits_written {items : List Rust.Item} (hw : Writes calledInterfaces E s items s') (hi : i ∈ E.package.ofKind .interface)
    (hcalled : s.interfaces.contains i.name = true) :
    ∃ methods, (Rust.Name.type i.name, methods) ∈ gatherOf Rust.traitsIn items ∧
      List.Forall₂ (fun m t => TraitMethod E m.toSignature t) i.dispatch methods := by
  obtain ⟨state, s₁, hstate, hw⟩ := writes_bind.mp hw
  obtain ⟨rfl, rfl⟩ : s = state ∧ s = s₁ := by simpa [Writes] using hstate
  obtain ⟨env, s₂, henv, hw⟩ := writes_bind.mp hw
  obtain ⟨rfl, -⟩ := writes_read.mp henv
  obtain ⟨groups, s₃, hgroups, hw⟩ := writes_bind.mp hw
  obtain ⟨rfl, -⟩ := writes_pure.mp hw
  obtain ⟨group, hgroup, t₁, t₂, hwritten⟩ := forall₂_exists (writes_mapM hgroups) (List.mem_filter.mpr ⟨hi, hcalled⟩)
  obtain ⟨attrs, methods, rfl, hmethods⟩ := trait_of_interface hwritten
  refine ⟨methods, ?_, hmethods⟩
  rw [Rust.gatherOf_eq, List.mem_flatMap]
  exact ⟨_, List.mem_flatten.mpr ⟨_, hgroup, List.mem_singleton.mpr rfl⟩, List.mem_singleton.mpr rfl⟩

-- Each interface that is called has a trait, with a method for each of its functions.
theorem traits_of_file {out : Rust.File} (hfile : file E.package E.contract E.target = .ok out) (hi : i ∈ calledBy E) :
    ∃ methods, (Rust.Name.type i.name, methods) ∈ out.traits ∧
      List.Forall₂ (fun m t => TraitMethod E m.toSignature t) i.dispatch methods := by
  obtain ⟨hi, hcalled⟩ := List.mem_filter.mp hi
  obtain ⟨-, -, -, -, -, -, -, -, hinterfaces, hassemble⟩ := parts_of_file hfile
  rw [((silent_assemble _).same hassemble).2.2, (quiet_calledInterfaces.1.same hinterfaces).2.2] at hcalled
  obtain ⟨methods, hmem, hmethods⟩ := traits_written hinterfaces hi hcalled
  refine ⟨methods, ?_, hmethods⟩
  rw [Rust.File.traits, gather_assemble (fun _ => rfl) hassemble]
  cases E.target <;> simp [hmem]

-- Messages.

theorem ne_wrapped (target : Target) (result : String) : result ≠ wrapped target result := by
  intro heq
  have hlength := congrArg String.length heq
  have hfront : "Result<".length = 7 := rfl
  cases target <;> simp only [wrapped, Ink.resultType, Soroban.resultType, String.length_append, hfront] at hlength <;>
    omega

-- A function that is reached from outside.
structure Message (E : Env) (f : Function) (g : Rust.Function) : Prop where
  name : g.name = f.name
  params : ∃ texts, List.Forall₂ (TypeText E) (declaredTypes f f.primary?) texts ∧
    g.params.map (·.type) = paramTypes E.target true (E.contract.needsCaller f.toSignature) texts
  result : ∃ s text s', Writes (resultText f.returns) E s text s' ∧ g.result = wrapped E.target text
  selector : ∀ {version}, E.target = .ink version → ∀ {selector}, HasSelector g selector ↔
    Ink.messageSelector E.package E.contract f.toSignature = some ("selector = " ++ selector)

theorem message_of_function {r : Routine} (hmessage : isMessage f.toSignature = true)
    (hr : Writes (dispatchRoutine f) E s r s') {t t' : State} (hg : Writes (function r f f.primary?) E t g t') :
    g.isPublic = true ∧ Message E f g := by
  unfold dispatchRoutine at hr
  obtain ⟨-, hentry, -⟩ := writes_functionRoutine hr
  obtain ⟨params, declared, shell, code, _, _, _, hdeclare, hshell, rfl⟩ := shell_of_function hg
  have hdescribes := (describes_functionRoutine hr).with_params (types_declareParams hdeclare)
  have hdeclares := declares_routineShell hdescribes hshell
  rw [hmessage] at hdeclares
  refine ⟨hdeclares.isPublic, hdeclares.name, hdeclares.params, ?_, fun htarget selector => ?_⟩
  · have hresult := (writes_routineShell hshell).result
    unfold functionRoutine at hr
    obtain ⟨rparams, s₁, -, hr⟩ := writes_bind.mp hr
    obtain ⟨result, s₂, htext, hr⟩ := writes_bind.mp hr
    obtain ⟨env, s₃, -, hr⟩ := writes_bind.mp hr
    obtain ⟨rfl, -⟩ := writes_pure.mp hr
    exact ⟨_, _, _, htext, hresult⟩
  · have hselector : HasSelector _ selector ↔ _ := hasSelector_message htarget hentry (writes_function hg).2.1
    rwa [hmessage, eq_self_iff_true, true_and] at hselector

theorem message_dispatched {fs : List Function} {written : List Rust.Function × List Rust.Function}
    (hw : Writes (dispatched fs) E s written s') (hf : f ∈ fs) (hmessage : isMessage f.toSignature = true) :
    ∃ g ∈ written.1, Message E f g := by
  induction fs generalizing s s' written with
  | nil => cases hf
  | cons f' rest ih =>
      rw [dispatched] at hw
      obtain ⟨r, s₁, hr, hw⟩ := writes_bind.mp hw
      obtain ⟨g, s₂, hg, hw⟩ := writes_bind.mp hw
      obtain ⟨⟨entries, helpers⟩, s₃, hmore, hw⟩ := writes_bind.mp hw
      obtain ⟨rfl, -⟩ := writes_pure.mp hw
      rcases List.mem_cons.mp hf with rfl | hf
      · have hexposed : r.isExposed = true := by
          rw [Routine.isExposed, (writes_functionRoutine hr).2.1, if_pos hmessage]
          rfl
        rw [if_pos hexposed]
        exact ⟨g, List.mem_cons_self, (message_of_function hmessage hr hg).2⟩
      · obtain ⟨g', hg', hm⟩ := ih hmore hf
        refine ⟨g', ?_, hm⟩
        split
        · exact List.mem_cons_of_mem _ hg'
        · exact hg'

theorem message_of_file {out : Rust.File} (hfile : file E.package E.contract E.target = .ok out)
    (hf : f ∈ E.contract.dispatch) (hmessage : isMessage f.toSignature = true) : ∃ g ∈ out.methods, Message E f g := by
  obtain ⟨s₁, deployed, inits, s₂, messages, internals, s₃, helpers, s₄, -, -, hdispatched, -, -, -, hmethods⟩ :=
    writes_contract (writes_of_file hfile)
  obtain ⟨g, hg, hm⟩ := message_dispatched hdispatched hf hmessage
  exact ⟨g, by simp [hmethods, hg], hm⟩

-- Calls through a trait, and the messages that they reach.

-- What the source language asks of a function that stands for one of an interface: it is reached from outside, and takes
-- and returns what that one does.
structure Overrides (f m : Function) : Prop where
  message : isMessage f.toSignature = true
  params : f.params.map Param.type = m.params.map Param.type
  taken : declaredTypes f f.primary? = m.params.map Param.type
  result : f.returnType = m.returnType

-- The types of arguments, behind the environment.
def argumentTypes (target : Target) (g : Rust.Function) : List String :=
  match target with
  | .ink _ => g.params.map (·.type)
  | .soroban => (g.params.map (·.type)).tail

-- Whether a message takes its caller as an argument.
def WantsCaller (target : Target) (c : Contract) (f : Function) : Prop :=
  target = .soroban ∧ c.needsCaller f.toSignature = true

theorem argumentTypes_eq {target : Target} {exposed caller : Bool} {texts : List String}
    (h : g.params.map (·.type) = paramTypes target exposed caller texts) :
    argumentTypes target g = (if target = .soroban ∧ caller = true then ["Address"] else []) ++ texts := by
  cases target with
  | ink version => simpa [argumentTypes, paramTypes] using h
  | soroban => simp [argumentTypes, paramTypes, h]

-- A function of an interface is a function of whatever inherits it.
theorem exists_override (hp : Resolve.package name unit = .ok p) (hc : c ∈ p.classes) (hi : i ∈ p.chainOf c)
    (hkind : i.kind = .interface) (hm : m ∈ i.dispatch) : ∃ f ∈ c.dispatch, f.key = m.key := by
  have hcode := Resolve.package_code hp
  have hmem := (hcode.mem_chainOf_iff.mp hi).1
  obtain ⟨-, -, htable⟩ := Resolve.dispatch_gathers_declarations hp hc
  obtain ⟨-, -, hbase⟩ := Resolve.dispatch_gathers_declarations hp hmem
  obtain ⟨d, hd, -⟩ := (hbase.entries m hm (Resolve.kind_of_interface hp hmem hkind hm)).signature
  obtain ⟨k, hk, hd⟩ := List.mem_flatMap.mp (List.mem_of_mem_head? hd)
  obtain ⟨hd, hkey⟩ := List.mem_filter.mp hd
  have hk : k ∈ p.chainOf c := by
    obtain ⟨hclass, hname⟩ := hcode.mem_chainOf_iff.mp hk
    exact hcode.mem_chainOf_iff.mpr ⟨hclass, hcode.chain_subset hc hi hname⟩
  obtain ⟨f, hf, -, hfd, -⟩ := htable.exists_entry hk (List.mem_reverse.mp hd)
  exact ⟨f, hf, hfd.trans (of_decide_eq_true hkey)⟩

-- A contract that inherits an interface answers calls through its trait with the types that the trait has, but on Soroban
-- a message that needs its caller takes it as one more argument; what a message returns is wrapped, and what the method
-- of the trait returns is not. Selectors are those of the trait, but for a message that takes every call that no other does.
theorem interface_answered {target : Target} {caller callee : Rust.File} (hp : Resolve.package name unit = .ok p)
    (hcaller : file p d target = .ok caller) (hi : i ∈ calledBy ⟨p, d, target⟩)
    (hc : c ∈ p.classes) (hinherits : i ∈ p.chainOf c) (hcallee : file p c target = .ok callee)
    (hm : m ∈ i.dispatch) (hoverrides : ∀ f ∈ c.dispatch, f.key = m.key → Overrides f m) :
    ∃ methods t f g, (Rust.Name.type i.name, methods) ∈ caller.traits ∧ t ∈ methods ∧ t.name = m.name ∧
      f ∈ c.dispatch ∧ f.key = m.key ∧ g ∈ callee.methods ∧ g.name = f.name ∧
      (argumentTypes target t = argumentTypes target g ↔ ¬WantsCaller target c f) ∧
      g.result = wrapped target t.result ∧ t.result ≠ g.result ∧
      ∀ version, target = .ink version →
        ((∀ selector, HasSelector t selector ↔ HasSelector g selector) ↔ ¬Wild c f.toSignature) := by
  obtain ⟨methods, hmethods, hall⟩ := traits_of_file (E := ⟨p, d, target⟩) hcaller hi
  obtain ⟨t, ht, htrait⟩ := forall₂_exists hall hm
  have hkind : i.kind = .interface := by
    simpa using (List.mem_filter.mp (List.mem_filter.mp hi).1).2
  obtain ⟨f, hf, hkey⟩ := exists_override hp hc hinherits hkind hm
  have hover := hoverrides f hf hkey
  obtain ⟨g, hg, hmessage⟩ := message_of_file (E := ⟨p, c, target⟩) hcallee hf hover.message
  have htarget : Env.target ⟨p, c, target⟩ = Env.target ⟨p, d, target⟩ := rfl
  have hresult : g.result = wrapped target t.result := by
    obtain ⟨s, text, s', hw, hresult⟩ := hmessage.result
    have htext := htrait.result
    rw [← hover.result] at htext
    rw [hresult, resultText_eq htarget hw htext]
  refine ⟨methods, t, f, g, hmethods, ht, htrait.name, hf, hkey, hg, hmessage.name, ?_, hresult, ?_, fun version hink => ?_⟩
  · obtain ⟨texts, htexts, heq⟩ := htrait.params
    obtain ⟨texts', htexts', heq'⟩ := hmessage.params
    rw [hover.taken] at htexts'
    obtain rfl := texts_unique htarget htexts' htexts
    rw [argumentTypes_eq heq, argumentTypes_eq heq', WantsCaller]
    split_ifs <;> simp_all
  · rw [hresult]
    exact ne_wrapped target t.result
  · have htrait (selector : String) : HasSelector t selector ↔ _ := htrait.selector hink
    have hmessage (selector : String) : HasSelector g selector ↔ _ := hmessage.selector hink
    have hsame : selectorOf p m.toSignature = selectorOf p f.toSignature := by
      rw [selectorOf, selectorOf, Abi.selector, Abi.selector, Abi.signature, Abi.signature, hover.params,
        (Signature.key_eq_iff.mp hkey).1]
    simp only [htrait, hmessage]
    by_cases hwild : Wild c f.toSignature
    · refine iff_of_false (fun hiff => ?_) (not_not.mpr hwild)
      rw [hink] at hcallee
      obtain ⟨own, hown⟩ := Option.isSome_iff_exists.mp (selector_of_file hcallee hf hover.message)
      have heq := (hiff own).mp (hsame.trans hown)
      rw [messageSelector_wild p hwild, hown, Option.map_some, Option.some.injEq, String.append_right_inj] at heq
      obtain ⟨bytes, -, rfl⟩ := Option.map_eq_some_iff.mp hown
      simpa [String.toList_append] using congrArg String.toList heq
    · refine iff_of_true (fun selector => ?_) hwild
      rw [messageSelector_own p hwild, hsame]
      cases selectorOf p f.toSignature with
      | none => simp
      | some own => simp

namespace Answering

-- A contract that needs its caller to answer `f` of an interface, and that calls `f` of another contract itself.

def expression (primary : String) (suffixes : List Solidity.Suffix) : Solidity.Expression :=
  ⟨default, default, ⟨⟨.term default (.ident primary) suffixes, []⟩, none⟩, none⟩

def functionOn (name : String) (params : List Solidity.Parameter) (attrs : List Solidity.FunctionAttribute)
    (code : Option Solidity.Expression) : Solidity.ContractPart :=
  .function default
    { start := default, stop := default, kind := "function", name := name, params := params, attrs := attrs, returns := []
      body := code.map fun e => ⟨default, default, [.expr default e]⟩ }

def source : Solidity.SourceUnit :=
  ⟨default, [
    .contract default
      { start := default, stop := default, kind := "interface", isAbstract := false, name := "I", bases := []
        parts := [functionOn "f" [] [.visibility default "external"] none] },
    Resolve.plainContract "C" false ["I"] [
      functionOn "f" [] [] (some (expression "msg" [.member default "sender"])),
      functionOn "g" [⟨default, Resolve.plainType "address", "", "a"⟩] []
        (some (expression "I" [.call default [expression "a" []], .member default "f", .call default []]))]]⟩

-- The package that it becomes.

def method : Signature := { name := "f", sourceName := "f", kind := .function, visibility := .isExternal }

def asked : Function := { method with implementations := [{ owner := "I", start := default }] }

def implWith (params : List Param) (code : Expr) : Implementation :=
  { owner := "C", params := params, body := some ⟨default, [.expr default code], false⟩, implemented := true
    start := default }

def ownF : Function :=
  { name := "f", sourceName := "f", kind := .function
    implementations := [{ implWith [] (.env default .sender) with usesCaller := true }] }

def address : Param := ⟨"a", .address false⟩

def ownG : Function :=
  { name := "g", sourceName := "g", kind := .function, params := [address]
    implementations := [{ implWith [address]
      (.externalCall default "I" method (.var default "a" (.address false)) []) with externalCalls := ["I"] }] }

def answers : Function := { ownF with implementations := ownF.implementations ++ asked.implementations }

def interface : Contract := { Super.classOf "I" [] ["I"] [asked] [asked] with kind := .interface }

def contract : Contract :=
  { Super.classOf "C" ["I"] ["C", "I"] [ownF, ownG] [answers, ownG] with callerUsers := ["f/0"] }

def answering : Package := { name := "sample", classes := [interface, contract] }

theorem package_answering : Resolve.package "sample" source = .ok answering := by cbv

theorem file_answering (target : Target) (htarget : target = .ink .v5 ∨ target = .soroban) :
    ∃ out, file answering contract target = .ok out := by
  refine file_of_isSome ?_
  rcases htarget with rfl | rfl <;> decide

theorem called_answering (target : Target) (htarget : target = .ink .v5 ∨ target = .soroban) :
    interface ∈ calledBy ⟨answering, contract, target⟩ := by
  rw [calledBy, List.mem_filter]
  refine ⟨List.mem_singleton.mpr rfl, ?_⟩
  rcases htarget with rfl | rfl <;> decide

theorem overrides_asked : ∀ f ∈ contract.dispatch, f.key = asked.key → Overrides f asked := by
  intro f hf hkey
  rcases List.mem_cons.mp hf with rfl | hf
  · exact ⟨rfl, rfl, rfl, rfl⟩
  · rw [List.mem_singleton.mp hf] at hkey
    exact absurd hkey (by decide)

theorem interface_answered_caller : ∃ out methods t f g, file answering contract .soroban = .ok out ∧
    (Rust.Name.type "I", methods) ∈ out.traits ∧ t ∈ methods ∧ t.name = "f" ∧ f ∈ contract.dispatch ∧
    f.key = asked.key ∧ g ∈ out.methods ∧ g.name = f.name ∧
    (argumentTypes .soroban t = argumentTypes .soroban g ↔ ¬WantsCaller .soroban contract f) ∧
    g.result = wrapped .soroban t.result ∧ t.result ≠ g.result := by
  obtain ⟨out, hout⟩ := file_answering .soroban (.inr rfl)
  have hmem : contract ∈ answering.classes := by simp [answering]
  have hinherits : interface ∈ answering.chainOf contract := List.mem_cons_of_mem _ List.mem_cons_self
  obtain ⟨methods, t, f, g, hmethods, ht, htname, hf, hkey, hg, hgname, harguments, hresult, hplain, -⟩ :=
    interface_answered package_answering hout (called_answering .soroban (.inr rfl)) hmem hinherits hout
      (List.mem_singleton.mpr rfl) overrides_asked
  exact ⟨out, methods, t, f, g, hout, hmethods, ht, htname, hf, hkey, hg, hgname, harguments, hresult, hplain⟩

-- The trait for `f` and the message do not agree: on Soroban the message takes its caller, and everywhere its result is
-- wrapped.
theorem trait_and_message_differ : Resolve.package "sample" source = .ok answering ∧
    interface ∈ answering.chainOf contract ∧ ∀ target, target = .ink .v5 ∨ target = .soroban →
      ∃ out methods t g, file answering contract target = .ok out ∧ (Rust.Name.type "I", methods) ∈ out.traits ∧
        t ∈ methods ∧ t.name = "f" ∧ g ∈ out.methods ∧ g.name = "f" ∧ t.result = "()" ∧
        g.result = wrapped target "()" ∧ argumentTypes target t = [] ∧
        argumentTypes target g = if target = .soroban then ["Address"] else [] := by
  refine ⟨package_answering, List.mem_cons_of_mem _ List.mem_cons_self, fun target htarget => ?_⟩
  obtain ⟨out, hout⟩ := file_answering target htarget
  obtain ⟨methods, hmethods, hall⟩ :=
    traits_of_file (E := ⟨answering, contract, target⟩) hout (called_answering target htarget)
  obtain ⟨t, ht, htrait⟩ := forall₂_exists hall (List.mem_singleton.mpr rfl)
  obtain ⟨g, hg, hmessage⟩ :=
    message_of_file (E := ⟨answering, contract, target⟩) (f := answers) hout List.mem_cons_self rfl
  have hunit : t.result = "()" := by
    obtain ⟨texts, htexts, heq⟩ := htrait.result.tuple
    cases htexts
    exact heq
  obtain ⟨texts, htexts, hparams⟩ := htrait.params
  cases htexts
  obtain ⟨texts, htexts, hparams'⟩ := hmessage.params
  cases htexts
  refine ⟨out, methods, t, g, hout, hmethods, ht, htrait.name, hg, hmessage.name, hunit, ?_, ?_, ?_⟩
  · obtain ⟨s, text, s', hw, hresult⟩ := hmessage.result
    have htext := htrait.result
    rw [hunit] at htext
    rw [hresult, resultText_eq (E := ⟨answering, contract, target⟩) rfl hw htext]
  · rw [argumentTypes_eq hparams]
    simp
  · rw [argumentTypes_eq hparams']
    have hneeds : contract.needsCaller answers.toSignature = true := by decide
    simp [hneeds]

end Answering

end Emit

end RustContracts
