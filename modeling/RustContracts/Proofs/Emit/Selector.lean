import Mathlib
import RustContracts.Proofs.Abi.Signature
import RustContracts.Proofs.Emit.FunctionNames

-- The selectors of messages in an ink! contract: which each has, and when no two messages share one.
namespace RustContracts.Emit

open Program

variable {E : Env} {s s' : State} {p : Package} {c : Contract} {f : Function} {g : Rust.Function}

-- A message as callers from outside find it.
def HasSelector (g : Rust.Function) (selector : String) : Prop :=
  ∃ payable, Ink.messageAttr payable ("selector = " ++ selector) ∈ g.attrs

-- Functions that take every call that no other does.
def Wild (c : Contract) (f : Signature) : Prop :=
  f.kind = .fallback ∨ f.kind = .receive ∧ c.lookup? "fallback" 0 = none

-- No two functions of a contract take those calls.
def WildOnce (c : Contract) : Prop :=
  ∀ f ∈ c.dispatch, ∀ g ∈ c.dispatch, Wild c f.toSignature → Wild c g.toSignature → f = g

-- None where the signature has no end.
def selectorOf (p : Package) (f : Signature) : Option String :=
  (Abi.selector p f.sourceName f.params).map fun bytes => "0x" ++ Abi.selectorText bytes

theorem selectorAttr_eq (p : Package) (f : Signature) :
    Ink.selectorAttr p f = (selectorOf p f).map ("selector = " ++ ·) := by
  rw [Ink.selectorAttr, selectorOf, Option.map_map]
  refine congrArg (Option.map · _) (funext fun bytes => ?_)
  rw [Function.comp_apply, ← String.append_assoc]
  rfl

theorem messageSelector_wild (p : Package) {f : Signature} (h : Wild c f) :
    Ink.messageSelector p c f = (selectorOf p f).map fun _ => "selector = " ++ "_" := by
  rw [Ink.messageSelector, selectorAttr_eq]
  rcases h with hkind | ⟨hkind, hnone⟩
  · rw [hkind]
    cases selectorOf p f <;> rfl
  · rw [hkind, hnone]
    cases selectorOf p f <;> rfl

theorem messageSelector_own (p : Package) {f : Signature} (h : ¬Wild c f) :
    Ink.messageSelector p c f = (selectorOf p f).map ("selector = " ++ ·) := by
  rw [Ink.messageSelector, selectorAttr_eq]
  cases selectorOf p f with
  | none => rfl
  | some own =>
      dsimp only [Option.map_some, Option.bind_eq_bind, Option.bind_some]
      split
      · next hkind => exact absurd (.inl hkind) h
      · next hkind =>
          split
          · rfl
          · next hnone => exact absurd (.inr ⟨hkind, by simpa using hnone⟩) h
      · rfl

theorem messageSelector_eq {p : Package} {c : Contract} {f : Signature} {text : String}
    (h : Ink.messageSelector p c f = some text) : (selectorOf p f).isSome = true ∧ ∃ own, text = "selector = " ++ own := by
  by_cases hwild : Wild c f
  · rw [messageSelector_wild p hwild] at h
    obtain ⟨own, hown, rfl⟩ := Option.map_eq_some_iff.mp h
    exact ⟨hown ▸ rfl, _, rfl⟩
  · rw [messageSelector_own p hwild] at h
    obtain ⟨own, hown, rfl⟩ := Option.map_eq_some_iff.mp h
    exact ⟨hown ▸ rfl, _, rfl⟩

-- The selector can be read back from an attribute.
theorem messageAttr_inj {payable payable' : Bool} {selector selector' : String}
    (h : Ink.messageAttr payable ("selector = " ++ selector) = Ink.messageAttr payable' ("selector = " ++ selector')) :
    selector = selector' := by
  delta Ink.messageAttr at h
  have hlist := congrArg String.toList h
  rw [← String.toList_inj]
  cases payable <;> cases payable' <;> simp [String.toList_append] at hlist
  all_goals exact hlist

theorem hasSelector_singleton {payable : Bool} {own selector : String}
    (h : g.attrs = [Ink.messageAttr payable ("selector = " ++ own)]) : HasSelector g selector ↔ own = selector := by
  rw [HasSelector, h]
  simp only [List.mem_singleton]
  constructor
  · rintro ⟨payable', heq⟩
    exact (messageAttr_inj heq).symm
  · rintro rfl
    exact ⟨_, rfl⟩

-- Functions without a selector.

def Plain (g : Rust.Function) : Prop := g.attrs = []

theorem Plain.not_hasSelector {selector : String} (h : Plain g) : ¬HasSelector g selector := by
  rintro ⟨payable, hmem⟩
  rw [h] at hmem
  cases hmem

theorem plain_of_function {r : Routine} {impl : Option Implementation} (hentry : r.entry = none)
    (hw : Writes (function r f impl) E s g s') : Plain g := by
  rw [Plain, ← List.map_eq_nil_iff, (writes_function hw).2.1, selectorAttrs, hentry]
  split <;> rfl

theorem plain_of_shell {r : Routine} (hentry : r.entry = none) (hw : Writes (routineShell r) E s g s') : Plain g := by
  rw [Plain, ← List.map_eq_nil_iff, (writes_routineShell hw).attrs, selectorAttrs, hentry]
  split <;> rfl

theorem plain_drainHelpers {count : Nat} {gs : List Rust.Function} (hw : Writes (drainHelpers count) E s gs s') :
    ∀ g ∈ gs, Plain g := by
  induction count generalizing s s' gs with
  | zero =>
      obtain ⟨rfl, -⟩ := writes_pure.mp hw
      simp
  | succ count ih =>
      rw [drainHelpers] at hw
      obtain ⟨next, s₁, -, hw⟩ := writes_bind.mp hw
      cases next with
      | none =>
          obtain ⟨rfl, -⟩ := writes_pure.mp hw
          simp
      | some h =>
          obtain ⟨g, s₂, hg, hw⟩ := writes_bind.mp hw
          obtain ⟨more, s₃, hmore, hw⟩ := writes_bind.mp hw
          obtain ⟨rfl, -⟩ := writes_pure.mp hw
          refine List.forall_mem_cons.mpr ⟨?_, ih hmore⟩
          unfold helper at hg
          split at hg
          · obtain ⟨r, s₄, hr, hg⟩ := writes_bind.mp hg
            obtain ⟨r', s₅, hr', hr⟩ := writes_bind.mp hr
            obtain ⟨rfl, -⟩ := writes_pure.mp hr
            exact plain_of_function (r := { r' with mutates := false, caller := false, payable := false })
              (writes_functionRoutine hr').2.1 hg
          · obtain ⟨r, s₄, hr, hg⟩ := writes_bind.mp hg
            exact plain_of_function (writes_functionRoutine hr).2.1 hg

theorem plain_classInits {routines : List (Contract × Routine)} (hentry : ∀ cr ∈ routines, cr.2.entry = none)
    {gs : List Rust.Function} (hw : Writes (classInits routines) E s gs s') : ∀ g ∈ gs, Plain g := by
  induction routines generalizing s s' gs with
  | nil =>
      obtain ⟨rfl, -⟩ := writes_pure.mp hw
      simp
  | cons cr routines ih =>
      obtain ⟨k, r⟩ := cr
      obtain ⟨hfirst, hrest⟩ := List.forall_mem_cons.mp hentry
      rw [classInits] at hw
      obtain ⟨g, s₁, hg, hw⟩ := writes_bind.mp hw
      obtain ⟨more, s₂, hmore, hw⟩ := writes_bind.mp hw
      obtain ⟨rfl, -⟩ := writes_pure.mp hw
      refine List.forall_mem_cons.mpr ⟨?_, ih hrest hmore⟩
      obtain ⟨declared, shell, code, _, _, _, -, hshell, rfl⟩ := shell_of_classInit hg
      have hplain : Plain shell := plain_of_shell (r := { r with params := declared }) hfirst hshell
      exact hplain

theorem entry_initCalls {main : Contract} {bound : List BoundArg} {caller : Bool} {classes : List Contract}
    {written : List Rust.Stmt × List (Contract × Routine)}
    (hw : Writes (initCalls main bound caller classes) E s written s') : ∀ cr ∈ written.2, cr.2.entry = none := by
  induction classes generalizing s s' written with
  | nil =>
      obtain ⟨rfl, -⟩ := writes_pure.mp hw
      simp
  | cons k classes ih =>
      rw [initCalls] at hw
      obtain ⟨r, s₁, hr, hw⟩ := writes_bind.mp hw
      obtain ⟨x, s₂, -, hw⟩ := writes_bind.mp hw
      obtain ⟨⟨stmts, routines⟩, s₃, hmore, hw⟩ := writes_bind.mp hw
      obtain ⟨rfl, -⟩ := writes_pure.mp hw
      refine List.forall_mem_cons.mpr ⟨?_, ih hmore⟩
      obtain ⟨params, s₄, -, hr⟩ := writes_bind.mp hr
      obtain ⟨rfl, -⟩ := writes_pure.mp hr
      rfl

theorem constructors_unmarked {version : InkVersion} (htarget : E.target = .ink version) {init : Option Routine}
    {gs : List Rust.Function} (hw : Writes (constructors init) E s gs s') :
    ∀ g ∈ gs, ∀ selector, ¬HasSelector g selector := by
  have hattr (payable : Bool) (selector : String) {attr : String}
      (h : attr = "ink(constructor, payable)" ∨ attr = "ink(constructor)") : Ink.messageAttr payable selector ≠ attr := by
    intro heq
    delta Ink.messageAttr at heq
    have hlist := congrArg String.toList heq
    rcases h with rfl | rfl <;> simp [String.toList_append] at hlist
  have hlone {g : Rust.Function} {attr : String} (h : attr = "ink(constructor, payable)" ∨ attr = "ink(constructor)") (hg : g.attrs = [attr])
      (selector : String) : ¬HasSelector g selector := by
    rintro ⟨payable, hmem⟩
    rw [hg, List.mem_singleton] at hmem
    exact hattr payable _ h hmem
  unfold constructors at hw
  rw [writes_of_target, htarget] at hw
  obtain ⟨env, s₁, -, hw⟩ := writes_bind.mp hw
  have hchoice (b : Bool) : (if b then "ink(constructor, payable)" else "ink(constructor)") = "ink(constructor, payable)" ∨
      (if b then "ink(constructor, payable)" else "ink(constructor)") = "ink(constructor)" := by
    cases b <;> simp
  cases init <;> obtain ⟨rfl, -⟩ := writes_pure.mp hw <;> refine List.forall_mem_singleton.mpr ?_ <;>
    exact hlone (hchoice _) rfl

-- What deployment writes has no selectors.
theorem deployment_unmarked {version : InkVersion} (htarget : E.target = .ink version)
    {written : List Rust.Function × List Rust.Function} (hw : Writes deployment E s written s') :
    ∀ g ∈ written.1 ++ written.2, ∀ selector, ¬HasSelector g selector := by
  unfold deployment at hw
  obtain ⟨env, s₁, henv, hw⟩ := writes_bind.mp hw
  dsimp only at hw
  split at hw
  · obtain ⟨gs, s₂, hgs, hw⟩ := writes_bind.mp hw
    obtain ⟨rfl, -⟩ := writes_pure.mp hw
    rw [List.append_nil]
    exact constructors_unmarked htarget hgs
  · obtain ⟨rparams, s₂, -, hw⟩ := writes_bind.mp hw
    obtain ⟨_, s₃, -, hw⟩ := writes_bind.mp hw
    obtain ⟨_, s₄, -, hw⟩ := writes_bind.mp hw
    obtain ⟨⟨binds, bound⟩, s₅, -, hw⟩ := writes_bind.mp hw
    obtain ⟨⟨runs, routines⟩, s₆, hcalls, hw⟩ := writes_bind.mp hw
    obtain ⟨shell, s₇, hshell, hw⟩ := writes_bind.mp hw
    obtain ⟨inits, s₈, hinits, hw⟩ := writes_bind.mp hw
    obtain ⟨gs, s₉, hgs, hw⟩ := writes_bind.mp hw
    obtain ⟨rfl, -⟩ := writes_pure.mp hw
    have hinit : Plain shell := plain_of_shell rfl hshell
    refine List.forall_mem_append.mpr ⟨constructors_unmarked htarget hgs, List.forall_mem_cons.mpr ⟨?_, fun g hg => ?_⟩⟩
    · exact fun selector => Plain.not_hasSelector (g := { shell with body := _ }) hinit
    · exact fun selector => (plain_classInits (entry_initCalls hcalls) hinits g hg).not_hasSelector

-- The functions of the dispatch table, each with the selector of its message.

structure Exposes (E : Env) (f : Function) (g : Rust.Function) : Prop where
  isPublic : g.isPublic = isMessage f.toSignature
  selector : ∀ {selector}, HasSelector g selector ↔ isMessage f.toSignature = true ∧
    Ink.messageSelector E.package E.contract f.toSignature = some ("selector = " ++ selector)

-- The attribute of a message.
theorem attrs_message {version : InkVersion} (htarget : E.target = .ink version) {r : Routine}
    (hentry : r.entry = if isMessage f.toSignature then some f.toSignature else none)
    (hattrs : g.attrs.map some = selectorAttrs E r) (hmessage : isMessage f.toSignature = true) :
    ∃ own, Ink.messageSelector E.package E.contract f.toSignature = some ("selector = " ++ own) ∧
      g.attrs = [Ink.messageAttr r.payable ("selector = " ++ own)] := by
  rw [selectorAttrs, htarget, hentry, hmessage, if_pos rfl, Option.toList_some, List.map_singleton] at hattrs
  obtain ⟨attr, hattr, htext⟩ := List.map_eq_singleton_iff.mp hattrs
  obtain ⟨text, hselector, rfl⟩ := Option.map_eq_some_iff.mp htext.symm
  obtain ⟨-, own, rfl⟩ := messageSelector_eq hselector
  exact ⟨own, hselector, hattr⟩

theorem hasSelector_message {version : InkVersion} (htarget : E.target = .ink version) {r : Routine}
    (hentry : r.entry = if isMessage f.toSignature then some f.toSignature else none)
    (hattrs : g.attrs.map some = selectorAttrs E r) {selector : String} : HasSelector g selector ↔
      isMessage f.toSignature = true ∧
        Ink.messageSelector E.package E.contract f.toSignature = some ("selector = " ++ selector) := by
  cases hmessage : isMessage f.toSignature with
  | false =>
      rw [selectorAttrs, htarget, hentry, hmessage] at hattrs
      exact iff_of_false (Plain.not_hasSelector (List.map_eq_nil_iff.mp hattrs)) fun h => Bool.noConfusion h.1
  | true =>
      obtain ⟨own, hown, hattr⟩ := attrs_message htarget hentry hattrs hmessage
      rw [hasSelector_singleton hattr, hown, Option.some.injEq, String.append_right_inj, eq_self_iff_true, true_and]

-- In a file, the signature of every message has an end.
theorem selector_of_file {version : InkVersion} {out : Rust.File} (hfile : file p c (.ink version) = .ok out)
    (hf : f ∈ c.dispatch) (hmessage : isMessage f.toSignature = true) : (selectorOf p f.toSignature).isSome = true := by
  obtain ⟨g, -, hwritten⟩ := file_holds hfile hf
  obtain ⟨own, hown, -⟩ := attrs_message rfl rfl hwritten.attrs hmessage
  exact (messageSelector_eq hown).1

theorem exposes_dispatched {version : InkVersion} (htarget : E.target = .ink version) {fs : List Function}
    {written : List Rust.Function × List Rust.Function} (hw : Writes (dispatched fs) E s written s') :
    ∃ gs : List Rust.Function, written = (gs.filter (·.isPublic), gs.filter (!·.isPublic)) ∧
      List.Forall₂ (Exposes E) fs gs := by
  induction fs generalizing s s' written with
  | nil =>
      obtain ⟨rfl, -⟩ := writes_pure.mp hw
      exact ⟨[], rfl, .nil⟩
  | cons f rest ih =>
      rw [dispatched] at hw
      obtain ⟨r, s₁, hr, hw⟩ := writes_bind.mp hw
      obtain ⟨g, s₂, hg, hw⟩ := writes_bind.mp hw
      obtain ⟨⟨entries, helpers⟩, s₃, hmore, hw⟩ := writes_bind.mp hw
      obtain ⟨rfl, -⟩ := writes_pure.mp hw
      obtain ⟨gs, heq, hgs⟩ := ih hmore
      obtain ⟨rfl, rfl⟩ := Prod.mk.inj heq
      obtain ⟨-, hentry, -⟩ := writes_functionRoutine hr
      have hpublic : g.isPublic = r.isExposed := by
        obtain ⟨params, declared, shell, code, _, _, _, hdeclare, hshell, rfl⟩ := shell_of_function hg
        have hdescribes := (describes_functionRoutine hr).with_params (types_declareParams hdeclare)
        exact (declares_routineShell hdescribes hshell).isPublic.trans hdescribes.exposed.symm
      have hexposed : r.isExposed = isMessage f.toSignature := by
        rw [Routine.isExposed, hentry]
        cases isMessage f.toSignature <;> rfl
      refine ⟨g :: gs, ?_, .cons ⟨hpublic.trans hexposed, hasSelector_message htarget hentry (writes_function hg).2.1⟩ hgs⟩
      rw [List.filter_cons, List.filter_cons, hpublic]
      cases r.isExposed <;> rfl

-- No selector is that of both.
def SelectorsDiffer (g g' : Rust.Function) : Prop := ∀ selector, HasSelector g selector → ¬HasSelector g' selector

open Classical in
-- Whether a function is a message.
noncomputable def hasSelector (g : Rust.Function) : Bool := decide (∃ selector, HasSelector g selector)

theorem hasSelector_eq_false : hasSelector g = false ↔ ∀ selector, ¬HasSelector g selector := by
  simp [hasSelector]

theorem filter_hasSelector_of_forall {gs : List Rust.Function} (h : ∀ g ∈ gs, ∀ selector, ¬HasSelector g selector) :
    gs.filter hasSelector = [] := by
  rw [List.filter_eq_nil_iff]
  exact fun g hg => Bool.eq_false_iff.mp (hasSelector_eq_false.mpr (h g hg))

-- Other functions do not count.
theorem pairwise_filter_hasSelector (gs : List Rust.Function) :
    (gs.filter hasSelector).Pairwise SelectorsDiffer ↔ gs.Pairwise SelectorsDiffer := by
  rw [List.pairwise_filter]
  refine List.Pairwise.iff fun g g' => ⟨fun hdiffer selector hhas hhas' => ?_, fun h _ _ => h⟩
  have hmarked {g : Rust.Function} (hhas : HasSelector g selector) : hasSelector g = true := by
    by_contra hunmarked
    exact hasSelector_eq_false.mp (by simpa using hunmarked) selector hhas
  exact hdiffer (hmarked hhas) (hmarked hhas') selector hhas hhas'

-- Related lists have related members, and related pairs.
section Forall₂

variable {α β : Type} {R : α → β → Prop} {as : List α} {bs : List β}

theorem forall_mem_iff_of_forall₂ {P : α → Prop} {Q : β → Prop} (hiff : ∀ a b, R a b → (P a ↔ Q b))
    (h : List.Forall₂ R as bs) : (∀ a ∈ as, P a) ↔ ∀ b ∈ bs, Q b := by
  induction h with
  | nil => simp
  | cons hab _ ih => rw [List.forall_mem_cons, List.forall_mem_cons, hiff _ _ hab, ih]

theorem pairwise_iff_of_forall₂ {S : α → α → Prop} {T : β → β → Prop}
    (hiff : ∀ a b a' b', R a b → R a' b' → (S a a' ↔ T b b')) (h : List.Forall₂ R as bs) :
    as.Pairwise S ↔ bs.Pairwise T := by
  induction h with
  | nil => simp
  | cons hab hrest ih =>
      rw [List.pairwise_cons, List.pairwise_cons, ih,
        forall_mem_iff_of_forall₂ (fun a' b' hab' => hiff _ _ a' b' hab hab') hrest]

end Forall₂

-- Two messages with one selector.
def Clash (E : Env) (f f' : Function) : Prop :=
  isMessage f.toSignature = true ∧ isMessage f'.toSignature = true ∧
    ∃ selector, Ink.messageSelector E.package E.contract f.toSignature = some selector ∧
      Ink.messageSelector E.package E.contract f'.toSignature = some selector

theorem differ_iff_of_exposes {f f' : Function} {g g' : Rust.Function} (h : Exposes E f g) (h' : Exposes E f' g') :
    ¬Clash E f f' ↔ SelectorsDiffer g g' := by
  constructor
  · intro hclash selector hhas hhas'
    obtain ⟨hmessage, hselector⟩ := h.selector.mp hhas
    obtain ⟨hmessage', hselector'⟩ := h'.selector.mp hhas'
    exact hclash ⟨hmessage, hmessage', _, hselector, hselector'⟩
  · rintro hdiffer ⟨hmessage, hmessage', text, hselector, hselector'⟩
    obtain ⟨-, own, rfl⟩ := messageSelector_eq hselector
    exact hdiffer own (h.selector.mpr ⟨hmessage, hselector⟩) (h'.selector.mpr ⟨hmessage', hselector'⟩)

-- The functions of a file share no selector exactly when the messages among the functions of the contract do not.
theorem selectors_of_file {version : InkVersion} (htarget : E.target = .ink version) {out : Rust.File}
    (hfile : file E.package E.contract E.target = .ok out) :
    out.methods.Pairwise SelectorsDiffer ↔ E.contract.dispatch.Pairwise fun f f' => ¬Clash E f f' := by
  obtain ⟨s₁, deployed, inits, s₂, messages, internals, s₃, helpers, s₄, -, hdeployment, hdispatched, hhelpers, -, -,
    hmethods⟩ := writes_contract (writes_of_file hfile)
  obtain ⟨gs, hpair, hgs⟩ := exposes_dispatched htarget hdispatched
  obtain ⟨rfl, rfl⟩ := Prod.mk.inj hpair
  obtain ⟨hdeployed, hinits⟩ := List.forall_mem_append.mp (deployment_unmarked htarget hdeployment)
  have hunmarked : ∀ g ∈ helpers, ∀ selector, ¬HasSelector g selector := fun g hg selector =>
    (plain_drainHelpers hhelpers g hg).not_hasSelector
  have hprivate : ∀ g ∈ gs, g.isPublic = false → ∀ selector, ¬HasSelector g selector := by
    refine (forall_mem_iff_of_forall₂ (P := fun _ => True) (fun f g hfg => ?_) hgs).mp fun _ _ => trivial
    refine iff_of_true trivial fun hpublic selector hhas => ?_
    have hmessage := (hfg.selector.mp hhas).1
    rw [hfg.isPublic, hmessage] at hpublic
    cases hpublic
  have hpublic : (gs.filter (·.isPublic)).filter hasSelector = gs.filter hasSelector := by
    rw [List.filter_filter]
    refine List.filter_congr fun g hg => ?_
    cases hpublic : g.isPublic with
    | true => rw [Bool.and_true]
    | false => rw [Bool.and_false, hasSelector_eq_false.mpr (hprivate g hg hpublic)]
  have hinternal : (gs.filter (!·.isPublic)).filter hasSelector = [] := by
    refine filter_hasSelector_of_forall fun g hg => ?_
    obtain ⟨hg, hpublic⟩ := List.mem_filter.mp hg
    exact hprivate g hg (by simpa using hpublic)
  rw [← pairwise_filter_hasSelector, hmethods]
  simp only [List.filter_append, filter_hasSelector_of_forall hdeployed, filter_hasSelector_of_forall hinits,
    filter_hasSelector_of_forall hunmarked, hpublic, hinternal, List.nil_append, List.append_nil]
  rw [pairwise_filter_hasSelector]
  exact (pairwise_iff_of_forall₂ (R := Exposes E) (fun _ _ _ _ h h' => differ_iff_of_exposes h h') hgs).symm

-- Signatures.

-- The types that a package takes from its source are made of identifiers there.
structure SourceTypes (p : Package) : Prop where
  structs : Abi.StructsNamed p
  functions : ∀ k ∈ p.classes, ∀ f ∈ k.functions, Ty.AllNamed (f.params.map Param.type)
  fields : ∀ k ∈ p.classes, ∀ f ∈ k.fields, f.type.Named

theorem named_getterAccess {t : Ty} (h : t.Named) (depth : Nat) (value : Expr) :
    Ty.AllNamed ((getterAccess depth value t).1.map Param.type) := by
  induction depth, value, t using getterAccess.induct with
  | case1 depth value key inner name read params place type haccess ih =>
      rw [getterAccess]
      exact ⟨h.1, ih h.2⟩
  | case2 depth value elem length name read params place type haccess ih =>
      rw [getterAccess]
      exact ⟨trivial, ih h⟩
  | case3 depth value t hmapping harray =>
      rw [getterAccess]
      · trivial
      · exact hmapping
      · exact harray

theorem named_params {name : String} {unit : Solidity.SourceUnit} (hp : Resolve.package name unit = .ok p)
    (htypes : SourceTypes p) (hc : c ∈ p.classes) (hf : f ∈ c.dispatch) : Ty.AllNamed (f.params.map Param.type) := by
  have hkept : Kept fun f => Ty.AllNamed (f.params.map Param.type) := ⟨id, fun _ hf _ => hf⟩
  obtain ⟨e, he, hname⟩ := entry_of_package hkept hp hc htypes.functions hf
  have hparams : Ty.AllNamed (e.params.map Param.type) := by
    rcases he with he | ⟨k, hk, field, hfield, rfl⟩
    · exact he
    · exact named_getterAccess (htypes.fields k hk field hfield) 0 _
  rcases hname with rfl | rfl <;> exact hparams

-- A message that is found by the hash of its signature.
structure Hashed (c : Contract) (f : Function) : Prop where
  mem : f ∈ c.dispatch
  message : isMessage f.toSignature = true
  own : ¬Wild c f.toSignature

theorem message_of_wild (h : Wild c f.toSignature) : isMessage f.toSignature = true := by
  rcases h with hkind | ⟨hkind, -⟩ <;> simp [isMessage, hkind]

-- Where the prefixes of the hashes tell the signatures apart, no two messages of a contract have one selector, unless
-- two take the calls that no other message takes.
theorem selectors_differ_iff {name : String} {unit : Solidity.SourceUnit} {version : InkVersion} {out : Rust.File}
    (hp : Resolve.package name unit = .ok p) (hnames : SourceNames p) (htypes : SourceTypes p) (hc : c ∈ p.classes)
    (hfile : file p c (.ink version) = .ok out)
    (hhash : ∀ f g, Hashed c f → Hashed c g →
      Abi.selector p f.sourceName f.params = Abi.selector p g.sourceName g.params →
        Abi.signature p f.sourceName f.params = Abi.signature p g.sourceName g.params) :
    out.methods.Pairwise SelectorsDiffer ↔ WildOnce c := by
  have hkeys : (c.dispatch.map (·.key)).Nodup := (sourced_package hp hc (.ink version)).keys_nodup
  rw [selectors_of_file (E := ⟨p, c, .ink version⟩) rfl hfile]
  constructor
  · intro hpair f hf g hg hwild hwild'
    by_contra hne
    have : Std.Symm fun f f' => ¬Clash ⟨p, c, .ink version⟩ f f' :=
      ⟨fun _ _ h ⟨hmessage, hmessage', text, hsame, hsame'⟩ => h ⟨hmessage', hmessage, text, hsame', hsame⟩⟩
    obtain ⟨own, hown⟩ := Option.isSome_iff_exists.mp (selector_of_file hfile hf (message_of_wild hwild))
    obtain ⟨own', hown'⟩ := Option.isSome_iff_exists.mp (selector_of_file hfile hg (message_of_wild hwild'))
    refine hpair.forall hf hg hne ⟨message_of_wild hwild, message_of_wild hwild', "selector = " ++ "_", ?_, ?_⟩
    · rw [messageSelector_wild p hwild, hown, Option.map_some]
    · rw [messageSelector_wild p hwild', hown', Option.map_some]
  · intro honce
    refine (List.pairwise_map.mp hkeys).imp_of_mem fun {f g} hf hg hkey => ?_
    rintro ⟨hmessage, hmessage', text, hsame, hsame'⟩
    dsimp only at hsame hsame'
    have hfront (bytes : List UInt8) : "_" ≠ "0x" ++ Abi.selectorText bytes := fun heq => by
      simpa [String.toList_append] using congrArg String.toList heq
    by_cases hwild : Wild c f.toSignature <;> by_cases hwild' : Wild c g.toSignature
    · exact hkey (congrArg (·.key) (honce f hf g hg hwild hwild'))
    · rw [messageSelector_wild p hwild] at hsame
      rw [messageSelector_own p hwild', selectorOf] at hsame'
      obtain ⟨-, -, rfl⟩ := Option.map_eq_some_iff.mp hsame
      rw [Option.map_map] at hsame'
      obtain ⟨bytes, -, heq⟩ := Option.map_eq_some_iff.mp hsame'
      exact hfront bytes ((String.append_right_inj _).mp heq).symm
    · rw [messageSelector_own p hwild, selectorOf] at hsame
      rw [messageSelector_wild p hwild'] at hsame'
      obtain ⟨-, -, rfl⟩ := Option.map_eq_some_iff.mp hsame'
      rw [Option.map_map] at hsame
      obtain ⟨bytes, -, heq⟩ := Option.map_eq_some_iff.mp hsame
      exact hfront bytes ((String.append_right_inj _).mp heq).symm
    · rw [messageSelector_own p hwild] at hsame
      rw [messageSelector_own p hwild'] at hsame'
      obtain ⟨own, hown, rfl⟩ := Option.map_eq_some_iff.mp hsame
      obtain ⟨own', hown', heq⟩ := Option.map_eq_some_iff.mp hsame'
      obtain rfl := (String.append_right_inj _).mp heq
      obtain ⟨bytes, hbytes, htext⟩ := Option.map_eq_some_iff.mp hown
      obtain ⟨bytes', hbytes', htext'⟩ := Option.map_eq_some_iff.mp hown'
      obtain rfl := Abi.selectorText_inj ((String.append_right_inj _).mp (htext.trans htext'.symm))
      have hsignature := hhash f g ⟨hf, hmessage, hwild⟩ ⟨hg, hmessage', hwild'⟩ (hbytes.trans hbytes'.symm)
      have hsigned {f : Function} (hf : f ∈ c.dispatch) {bytes : List UInt8}
          (hbytes : Abi.selector p f.sourceName f.params = some bytes) : Abi.Signed p f.sourceName f.params := by
        obtain ⟨text, htext, -⟩ := Option.map_eq_some_iff.mp hbytes
        exact Abi.signed_of_signature htypes.structs (named_dispatch hp hc hnames hf).source (named_params hp htypes hc hf)
          htext
      obtain ⟨hsource, hparams⟩ := (Abi.signature_eq_iff (hsigned hf hbytes) (hsigned hg hbytes')).mp hsignature
      exact hkey (Signature.key_eq_iff.mpr ⟨hsource, hparams.length_eq⟩)

namespace Wildcard

-- Functions with a name, and those without one.

def nameless (kind : String) (params : List Solidity.Parameter) : Solidity.ContractPart :=
  .function default
    { start := default, stop := default, kind := kind, name := "", params := params, attrs := [], returns := []
      body := some ⟨default, default, []⟩ }

def taking (parts : List Solidity.ContractPart) : Solidity.SourceUnit :=
  ⟨default, [Resolve.plainContract "C" false [] parts]⟩

def named (s : Signature) : Function :=
  { s with implementations :=
      [{ owner := "C", params := s.params, body := some ⟨default, [], false⟩, implemented := true, start := default }] }

def function (name : String) : Function := named { name := name, sourceName := name, kind := .function }

def fallback (params : List Param) : Function :=
  named { name := "fallback", sourceName := "fallback", kind := .fallback, visibility := .isExternal, params := params }

def receive : Function :=
  named { name := "receive", sourceName := "receive", kind := .receive, visibility := .isExternal, mutability := .payable }

def contractOf (functions : List Function) : Contract := Super.classOf "C" [] ["C"] functions functions

def packageOf (functions : List Function) : Package := { name := "sample", classes := [contractOf functions] }

theorem file_written (functions : List Function)
    (h : (file (packageOf functions) (contractOf functions) (.ink .v5)).toOption.isSome = true) :
    ∃ out, file (packageOf functions) (contractOf functions) (.ink .v5) = .ok out := file_of_isSome h

def apart : List Function := [function "f", receive]

theorem package_apart : Resolve.package "sample" (taking [Resolve.plainFunction "f" [] true, nameless "receive" []]) =
    .ok (packageOf apart) := by cbv

theorem mem_apart {f : Function} (h : f ∈ (contractOf apart).dispatch) : f = function "f" ∨ f = receive := by
  simpa [contractOf, Super.classOf, apart] using h

theorem not_wild {name : String} : ¬Wild (contractOf apart) (function name).toSignature := by
  rintro (hkind | ⟨hkind, -⟩) <;> cases hkind

theorem hashed_apart {f : Function} (h : Hashed (contractOf apart) f) : f = function "f" := by
  rcases mem_apart h.mem with rfl | rfl
  · rfl
  · exact absurd (.inr ⟨rfl, rfl⟩) h.own

theorem selectors_differ_apart : ∃ out, file (packageOf apart) (contractOf apart) (.ink .v5) = .ok out ∧
    out.methods.Pairwise SelectorsDiffer ∧ WildOnce (contractOf apart) := by
  obtain ⟨out, hout⟩ := file_written apart (by decide)
  have hnames : SourceNames (packageOf apart) := ⟨by decide, by decide, by decide⟩
  have htypes : SourceTypes (packageOf apart) := by
    refine ⟨fun r s hs => ?_, ?_, ?_⟩
    · simp [Package.struct?, packageOf, contractOf, Super.classOf] at hs
    · simp [packageOf, contractOf, Super.classOf, apart, function, receive, named, Ty.AllNamed]
    · simp [packageOf, contractOf, Super.classOf]
  have honce : WildOnce (contractOf apart) := by
    intro f hf g hg hwild hwild'
    have honly {f : Function} (hf : f ∈ (contractOf apart).dispatch)
        (hwild : Wild (contractOf apart) f.toSignature) : f = receive := by
      rcases mem_apart hf with rfl | rfl
      · exact absurd hwild not_wild
      · rfl
    rw [honly hf hwild, honly hg hwild']
  have hhash (f g : Function) (hf : Hashed (contractOf apart) f) (hg : Hashed (contractOf apart) g)
      (_ : Abi.selector (packageOf apart) f.sourceName f.params =
        Abi.selector (packageOf apart) g.sourceName g.params) :
      Abi.signature (packageOf apart) f.sourceName f.params = Abi.signature (packageOf apart) g.sourceName g.params := by
    rw [hashed_apart hf, hashed_apart hg]
  have hmem : contractOf apart ∈ (packageOf apart).classes := List.mem_singleton.mpr rfl
  exact ⟨out, hout, (selectors_differ_iff package_apart hnames htypes hmem hout hhash).mpr honce, honce⟩

def blob : Param := ⟨"b", .bytes 0⟩

def clashing : List Function := [fallback [blob], receive]

-- A function with a parameter takes the calls that no other takes, and so does the one for plain transfers.
theorem wildcard_shared :
    Resolve.package "sample" (taking [nameless "fallback" [⟨default, Resolve.plainType "bytes", "memory", "b"⟩],
      nameless "receive" []]) = .ok (packageOf clashing) ∧
    Ink.messageSelector (packageOf clashing) (contractOf clashing) (fallback [blob]).toSignature = some "selector = _" ∧
    Ink.messageSelector (packageOf clashing) (contractOf clashing) receive.toSignature = some "selector = _" ∧
    ∃ out, file (packageOf clashing) (contractOf clashing) (.ink .v5) = .ok out ∧
      ¬out.methods.Pairwise SelectorsDiffer := by
  obtain ⟨out, hout⟩ := file_written clashing (by decide)
  refine ⟨by cbv, rfl, rfl, out, hout, fun hpair => ?_⟩
  rw [selectors_of_file (E := ⟨packageOf clashing, contractOf clashing, .ink .v5⟩) rfl hout] at hpair
  obtain ⟨hfirst, -⟩ := List.pairwise_cons.mp (show [fallback [blob], receive].Pairwise _ from hpair)
  exact hfirst receive (List.mem_singleton.mpr rfl) ⟨rfl, rfl, "selector = _", rfl, rfl⟩

end Wildcard

end RustContracts.Emit
