import RustContracts.Proofs.Resolve.Noted

-- The errors that a source text declares, and the entries under which they are registered: errors of one name share
-- the entry of the first.
namespace RustContracts

namespace Program

-- No code has a body yet.
def ContractDecl.Unwritten (c : ContractDecl) : Prop := ∀ impl ∈ c.code, impl.body = none

end Program

namespace Resolve

open Program
open Solidity (ErrorDefinition SourceUnitPart ContractPart)

-- An error with the class that declares it, none for the file.
abbrev OwnedError := Option String × CustomError

-- The errors of a source text in the order in which they stand there, each with its class.

def memberErrors (owner : String) : ContractPart → List (Option String × ErrorDefinition)
  | .error _ e => [(some owner, e)]
  | _ => []

def partErrors : SourceUnitPart → List (Option String × ErrorDefinition)
  | .contract _ d => d.parts.flatMap (memberErrors d.name)
  | .error _ e => [(none, e)]
  | _ => []

-- An error as it is declared for a definition.
structure DeclaredFor (e : OwnedError) (d : Option String × ErrorDefinition) : Prop where
  owner : e.1 = d.1 ∧ e.2.owner = d.1.getD ""
  name : e.2.name = d.2.name
  arity : e.2.fields.length = d.2.params.length
  start : e.2.start = d.2.start

def ownedBy (owner : Option String) (all : List OwnedError) : List CustomError :=
  (all.filter (·.1 = owner)).map (·.2)

-- The first error of a name.
def first? (name : String) (all : List OwnedError) : Option CustomError := (all.map (·.2)).find? (·.name = name)

variable {c c' : ContractDecl} {o o' : Outline} {d d' d'' : Draft} {α β : Type}
variable {owner : Option String} {name : String} {all more : List OwnedError} {e : CustomError}

@[simp] theorem mem_ownedBy : e ∈ ownedBy owner all ↔ (owner, e) ∈ all := by simp [ownedBy]

theorem ownedBy_append : ownedBy owner (all ++ more) = ownedBy owner all ++ ownedBy owner more := by
  simp [ownedBy]

theorem first?_append : first? name (all ++ more) = (first? name all).or (first? name more) := by
  rw [first?, List.map_append, List.find?_append]
  rfl

theorem first?_isSome (h : (owner, e) ∈ all) : (first? e.name all).isSome := by
  rw [first?, List.find?_isSome]
  exact ⟨e, List.mem_map_of_mem h, by simp⟩

-- What declaring anything else leaves alone.

-- What the errors of a class are found by.
def errorHeading (c : ContractDecl) : String × List String × List CustomError := (c.name, c.chain, c.errors)

def Outline.Unwritten (o : Outline) : Prop := ∀ c ∈ o.classes, c.Unwritten

structure SameErrors (d d' : Draft) : Prop where
  registry : d'.registry = d.registry
  file : d'.outline.errors = d.outline.errors
  classes : d'.outline.classes.map errorHeading = d.outline.classes.map errorHeading
  unwritten : d.outline.Unwritten → d'.outline.Unwritten

theorem SameErrors.refl (d : Draft) : SameErrors d d := ⟨rfl, rfl, rfl, id⟩

theorem SameErrors.trans (h : SameErrors d d') (h' : SameErrors d' d'') : SameErrors d d'' :=
  ⟨h'.registry.trans h.registry, h'.file.trans h.file, h'.classes.trans h.classes, h'.unwritten ∘ h.unwritten⟩

-- A step of declaring that declares no error.
def Silent (act : Declare α) : Prop := ∀ d a d', Declares act d a d' → SameErrors d d'

theorem silent_pure (a : α) : Silent (pure a) := by
  intro d b d' h
  obtain ⟨-, rfl⟩ := declares_pure.mp h
  exact .refl d

theorem silent_throw (e : Diagnostic) : Silent (throw e : Declare α) :=
  fun _ _ _ h => absurd h not_declares_throw

theorem silent_bind {x : Declare α} {f : α → Declare β} (hx : Silent x) (hf : ∀ a, Silent (f a)) :
    Silent (x >>= f) := by
  intro d b d' h
  obtain ⟨a, d₁, hx', hf'⟩ := declares_bind.mp h
  exact (hx d a d₁ hx').trans (hf a d₁ b d' hf')

theorem silent_get : Silent (get : Declare Draft) := by
  intro d s d' h
  obtain ⟨-, rfl⟩ := declares_get.mp h
  exact .refl d

theorem silent_lift (x : Except Diagnostic α) : Silent (liftM x) := by
  intro d a d' h
  obtain ⟨-, rfl⟩ := declares_lift.mp h
  exact .refl d

theorem silent_modifyOutline {f : Outline → Outline} (hclasses : ∀ o, (f o).classes = o.classes)
    (hfile : ∀ o, (f o).errors = o.errors) : Silent (modifyOutline f) := by
  intro d u d' h
  obtain rfl := declares_modify.mp h
  exact ⟨rfl, hfile _, by rw [hclasses], fun hnone => by rwa [Outline.Unwritten, hclasses]⟩

-- A change of one class.
theorem map_errorHeading (classes : List ContractDecl) (name : String) {f : ContractDecl → ContractDecl}
    (hf : ∀ c, errorHeading (f c) = errorHeading c) :
    (classes.map fun c => if c.name = name then f c else c).map errorHeading = classes.map errorHeading := by
  rw [List.map_map]
  refine List.map_congr_left fun c _ => ?_
  rw [Function.comp_apply]
  split
  · exact hf c
  · rfl

theorem Outline.Unwritten.modify {f : ContractDecl → ContractDecl} (ho : o.Unwritten)
    (hf : ∀ c, c.Unwritten → (f c).Unwritten) :
    Outline.Unwritten { o with classes := o.classes.map fun c => if c.name = name then f c else c } := by
  refine List.forall_mem_map.mpr fun c hc => ?_
  split
  · exact hf c (ho c hc)
  · exact ho c hc

theorem silent_modifyClass (name : String) {f : ContractDecl → ContractDecl}
    (hf : ∀ c, errorHeading (f c) = errorHeading c) (hcode : ∀ c, c.Unwritten → (f c).Unwritten) :
    Silent (modifyClass name f) := by
  intro d u d' h
  obtain rfl := declares_modify.mp h
  exact ⟨rfl, rfl, map_errorHeading _ _ hf, fun hnone => hnone.modify hcode⟩

theorem silent_putOff (p : Pending) : Silent (putOff p) := by
  intro d u d' h
  obtain rfl := declares_modify.mp h
  exact ⟨rfl, rfl, rfl, id⟩

theorem silent_forM {f : α → Declare Unit} (hf : ∀ a, Silent (f a)) (xs : List α) : Silent (xs.forM f) := by
  induction xs with
  | nil => exact silent_pure ()
  | cons x xs ih => exact silent_bind (hf x) fun _ => ih

theorem silent_classNamed (name : String) : Silent (classNamed name) :=
  silent_bind silent_get fun _ => silent_pure _

theorem silent_declaredType (scope : Option String) (t : Solidity.TypeName) :
    Silent (declaredType scope t) := by
  refine silent_bind silent_get fun d => ?_
  dsimp only
  split
  · exact silent_pure _
  · exact silent_throw _

theorem silent_declaredParams (scope : Option String) (unnamed : String) (i : Nat)
    (ps : List Solidity.Parameter) : Silent (declaredParams scope unnamed i ps) := by
  induction ps generalizing i with
  | nil => exact silent_pure []
  | cons p ps ih => exact silent_bind (silent_declaredType _ _) fun _ => silent_bind (ih _) fun _ => silent_pure _

-- Declarations that are neither functions nor errors.
theorem silent_addDeclaration (owner : Option String) {f : ContractDecl → ContractDecl} {g : Outline → Outline}
    (hf : ∀ c, errorHeading (f c) = errorHeading c ∧ (f c).code = c.code)
    (hg : ∀ o, (g o).classes = o.classes ∧ (g o).errors = o.errors) :
    Silent (match owner with
      | some c => modifyClass c f
      | none => modifyOutline g) := by
  split
  · refine silent_modifyClass _ (fun c => (hf c).1) fun c hc => ?_
    rwa [ContractDecl.Unwritten, (hf c).2]
  · exact silent_modifyOutline (fun o => (hg o).1) fun o => (hg o).2

theorem silent_declareStruct (owner : Option String) (index : Nat) (s : Solidity.StructDefinition) :
    Silent (declareStruct owner index s) := by
  have hadd (p : Param) : Silent (addStructField owner index p) :=
    silent_addDeclaration owner (fun _ => ⟨rfl, rfl⟩) fun _ => ⟨rfl, rfl⟩
  refine silent_forM (fun (f : Solidity.StructField) => silent_bind (silent_declaredType owner f.type) fun t => ?_) _
  dsimp only
  split
  · exact silent_bind (silent_throw _) fun _ => hadd _
  · exact hadd _

theorem silent_declareEvent (owner : Option String) (e : Solidity.EventDefinition) :
    Silent (declareEvent owner e) := by
  have hfields (i : Nat) (ps : List Solidity.EventParameter) : Silent (eventFields owner i ps) := by
    induction ps generalizing i with
    | nil => exact silent_pure []
    | cons p ps ih => exact silent_bind (silent_declaredType _ _) fun _ => silent_bind (ih _) fun _ => silent_pure _
  exact silent_bind (hfields 0 e.params) fun _ =>
    silent_addDeclaration owner (fun _ => ⟨rfl, rfl⟩) fun _ => ⟨rfl, rfl⟩

theorem silent_declareConstant (owner : Option String) (v : Solidity.StateVariable) :
    Silent (declareConstant owner v) := by
  refine silent_bind (silent_declaredType _ _) fun t => ?_
  split
  · exact silent_throw _
  · refine silent_bind silent_get fun d => ?_
    dsimp only
    split
    · refine silent_bind (silent_classNamed _) fun c => ?_
      exact silent_bind (silent_modifyClass _ (fun _ => rfl) fun _ => id) fun _ => silent_putOff _
    · exact silent_bind (silent_modifyOutline (fun _ => rfl) fun _ => rfl) fun _ => silent_putOff _

theorem silent_addField (owner : String) (field : StorageField) (value : Option Solidity.Expression) : Silent (do
    let index := (← classNamed owner).fields.length
    modifyClass owner fun c => { c with fields := c.fields ++ [field] }
    if let some value := value then
      putOff { owner := some owner, task := .fieldValue index value } : Declare Unit) := by
  refine silent_bind (silent_classNamed _) fun c => ?_
  refine silent_bind (silent_modifyClass _ (fun _ => rfl) fun _ => id) fun _ => ?_
  split
  · exact silent_putOff _
  · exact silent_pure ()

theorem silent_declareVariable (owner : String) (v : Solidity.StateVariable) : Silent (declareVariable owner v) := by
  refine silent_bind (silent_declaredType _ _) fun t => ?_
  dsimp only
  split
  · exact silent_declareConstant _ _
  · split
    · exact silent_bind (silent_throw _) fun _ => silent_addField _ _ _
    · exact silent_addField _ _ _

-- A class with one more function that has no body.
theorem unwritten_of_functions (hc : c.Unwritten)
    (h : ∀ f ∈ c'.constructor.toList ++ c'.functions ++ c'.modifiers,
      f ∈ c.constructor.toList ++ c.functions ++ c.modifiers ∨ ∀ impl ∈ f.implementations, impl.body = none) :
    c'.Unwritten := by
  intro impl himpl
  obtain ⟨f, hf, himpl⟩ := List.mem_flatMap.mp himpl
  rcases h f hf with hf | hf
  · exact hc impl (List.mem_flatMap.mpr ⟨f, hf, himpl⟩)
  · exact hf impl himpl

theorem silent_declareModifier (owner : String) (m : Solidity.ModifierDefinition) : Silent (declareModifier owner m) := by
  refine silent_bind (silent_declaredParams _ _ _ _) fun params => silent_bind (silent_classNamed _) fun c => ?_
  refine silent_bind (silent_modifyClass _ (fun _ => rfl) fun c hc => unwritten_of_functions hc fun f hf => ?_) fun _ => ?_
  · rw [← List.append_assoc] at hf
    refine (List.mem_append.mp hf).imp_right fun hf => ?_
    obtain rfl := List.mem_singleton.mp hf
    simp
  · split
    · exact silent_putOff _
    · exact silent_pure ()

theorem silent_declareUsing (owner : String) (u : Solidity.UsingDirective) : Silent (declareUsing owner u) := by
  refine silent_bind silent_get fun d => ?_
  split
  · next lib _ =>
      have hadd : Silent (do
          let target ← u.target.mapM (declaredType (some owner))
          modifyClass owner fun c => { c with usings := c.usings ++ [⟨lib.name, target⟩] }) := by
        refine silent_bind ?_ fun target => silent_modifyClass _ (fun _ => rfl) fun _ => id
        cases u.target with
        | none => exact silent_pure _
        | some t => exact silent_bind (silent_declaredType _ _) fun _ => silent_pure _
      split
      · exact silent_bind (silent_throw _) fun _ => hadd
      · exact hadd
  · exact silent_throw _

-- Functions.

theorem silent_declareAttribute {code : CodeOwner} {s : Signature} {impl : Implementation}
    (a : Solidity.FunctionAttribute) : Silent (declareAttribute c code s impl a) := by
  cases a with
  | modifier _ inv =>
      rw [declareAttribute]
      split
      · refine silent_bind (silent_classNamed _) fun k => ?_
        refine silent_bind (silent_modifyClass _ (fun _ => rfl) fun _ => id) fun _ => ?_
        exact silent_bind (silent_putOff _) fun _ => silent_pure _
      · split
        · exact silent_bind (silent_putOff _) fun _ => silent_pure _
        · exact silent_pure _
  | _ => exact silent_pure _

theorem silent_declareAttributes {code : CodeOwner} (attrs : List Solidity.FunctionAttribute)
    (start : Signature × Implementation) :
    Silent (attrs.foldlM (fun (s, impl) a => declareAttribute c code s impl a) start) := by
  induction attrs generalizing start with
  | nil => exact silent_pure _
  | cons a attrs ih =>
      rw [List.foldlM_cons]
      exact silent_bind (silent_declareAttribute a) ih

theorem silent_putBody (owner : String) (code : CodeOwner) (body : Option Solidity.Block) : Silent (match body with
    | some body => putOff { owner := some owner, code := some code, task := .body body }
    | _ => pure ()) := by
  split
  · exact silent_putOff _
  · exact silent_pure ()

theorem silent_declareFunction (owner : String) (f : Solidity.FunctionDefinition) : Silent (declareFunction owner f) := by
  intro d u d' h
  unfold declareFunction at h
  obtain ⟨c, d₁, hclass, h⟩ := declares_bind.mp h
  obtain ⟨s, d₂, hlift, h⟩ := declares_bind.mp h
  obtain ⟨⟨s', impl⟩, d₃, hattrs, h⟩ := declares_bind.mp h
  obtain ⟨params, d₄, hparams, h⟩ := declares_bind.mp h
  obtain ⟨returns, d₅, hreturns, h⟩ := declares_bind.mp h
  have hbefore : SameErrors d d₅ :=
    (silent_classNamed _ _ _ _ hclass).trans <| (silent_lift _ _ _ _ hlift).trans <|
      (silent_declareAttributes _ _ _ _ _ hattrs).trans <|
        (silent_declaredParams _ _ _ _ _ _ _ hparams).trans (silent_declaredParams _ _ _ _ _ _ _ hreturns)
  -- the attributes leave the implementation without a body
  have hnone : impl.body = none := (declareAttributes_step hattrs).2.2.2.2
  have hbody (code : CodeOwner) := silent_putBody owner code f.body
  refine hbefore.trans ?_
  clear hbefore
  dsimp only at h
  split at h
  · split at h
    · exact absurd h not_declares_throw_bind
    · split at h
      · exact absurd h not_declares_throw_bind
      · obtain ⟨_, d₆, hadd, h⟩ := declares_bind.mp h
        refine (silent_modifyClass _ (fun c => ?_) (fun c hc => ?_) _ _ _ hadd).trans (hbody _ _ _ _ h)
        · rfl
        refine unwritten_of_functions hc fun f hf => ?_
        simp only [Option.toList_some, List.cons_append, List.nil_append, List.mem_cons, List.mem_append] at hf ⊢
        rcases hf with rfl | hf
        · exact .inr (by simpa using hnone)
        · exact .inl (hf.imp_left .inr)
  · obtain ⟨_, d₆, hadd, h⟩ := declares_bind.mp h
    refine (silent_modifyClass _ (fun c => ?_) (fun c hc => ?_) _ _ _ hadd).trans (hbody _ _ _ _ h)
    · rfl
    refine unwritten_of_functions hc fun f hf => ?_
    simp only [List.mem_append, List.mem_singleton] at hf ⊢
    rcases hf with (hf | hf | rfl) | hf
    · exact .inl (.inl (.inl hf))
    · exact .inl (.inl (.inr hf))
    · exact .inr (by simpa using hnone)
    · exact .inl (.inr hf)

-- Errors.

-- A draft that has declared these errors in this order.
structure Enlisted (all : List OwnedError) (d : Draft) : Prop where
  file : d.outline.errors = ownedBy none all
  classes : ∀ c ∈ d.outline.classes, c.errors = ownedBy (some c.name) all
  -- the entry of a name is that of its first error
  registered : ∀ name, d.registry.entries.find? (·.key = "error:" ++ name) = (first? name all).map (·.entry)
  entries : ∀ e ∈ all, (first? e.2.name all).map (·.entry) = some e.2.entry
  custom : ∀ name e, first? name all = some e → e.entry.custom = some e.toErrorDecl
  unwritten : d.outline.Unwritten

theorem Enlisted.of_same (hd : Enlisted all d) (h : SameErrors d d') : Enlisted all d' where
  file := h.file ▸ hd.file
  classes c hc := by
    have hmem : errorHeading c ∈ d.outline.classes.map errorHeading := h.classes ▸ List.mem_map_of_mem hc
    obtain ⟨k, hk, heq⟩ := List.mem_map.mp hmem
    simp only [errorHeading, Prod.mk.injEq] at heq
    rw [← heq.2.2, hd.classes k hk, heq.1]
  registered := h.registry ▸ hd.registered
  entries := hd.entries
  custom := hd.custom
  unwritten := h.unwritten hd.unwritten

-- Registering an error finds the entry of the first error with its name, or else makes one.
theorem registerCustom_eq {decl : ErrorDecl} {entry : ErrorEntry} {r : Registry} (hd : Enlisted all d)
    (h : d.registry.registerCustom decl = (entry, r)) :
    (match first? decl.name all with
      | some e => entry = e.entry
      | none => entry.custom = some decl) ∧
    ∀ name, r.entries.find? (·.key = "error:" ++ name) =
      ((first? name all).map (·.entry)).or (if decl.name = name then some entry else none) := by
  have hfound := hd.registered decl.name
  unfold Registry.registerCustom Registry.register at h
  cases hfirst : first? decl.name all with
  | some e =>
      rw [hfirst] at hfound
      simp only [hfound, Option.map_some, Prod.mk.injEq] at h
      obtain ⟨rfl, rfl⟩ := h
      refine ⟨rfl, fun name => ?_⟩
      rw [hd.registered name]
      split
      · next heq => rw [← heq, hfirst]; rfl
      · rw [Option.or_none]
  | none =>
      rw [hfirst] at hfound
      simp only [hfound, Option.map_none, Prod.mk.injEq] at h
      obtain ⟨rfl, rfl⟩ := h
      refine ⟨rfl, fun name => ?_⟩
      rw [List.find?_append, hd.registered name]
      congr 1
      simp [List.find?_singleton]

theorem length_declaredParams {scope : Option String} {unnamed : String} {i : Nat} {ps : List Solidity.Parameter}
    {params : List Param} (h : Declares (declaredParams scope unnamed i ps) d params d') : params.length = ps.length := by
  induction ps generalizing i d d' params with
  | nil =>
      obtain ⟨rfl, -⟩ := declares_pure.mp h
      rfl
  | cons p ps ih =>
      obtain ⟨t, d₁, -, h⟩ := declares_bind.mp h
      obtain ⟨rest, d₂, hrest, h⟩ := declares_bind.mp h
      obtain ⟨rfl, -⟩ := declares_pure.mp h
      rw [List.length_cons, List.length_cons, ih hrest]

theorem first?_singleton : first? name [(owner, e)] = if e.name = name then some e else none := by
  simp [first?, List.find?_singleton]

theorem ownedBy_singleton {owner' : Option String} : ownedBy owner [(owner', e)] = if owner' = owner then [e] else [] := by
  by_cases h : owner' = owner <;> simp [ownedBy, h]

-- An error under its entry comes last in the list.
theorem Enlisted.append {r : Registry} (hd : Enlisted all d)
    (h : d.registry.registerCustom e.toErrorDecl = (e.entry, r)) (hregistry : d'.registry = r)
    (hfile : d'.outline.errors = d.outline.errors ++ if owner = none then [e] else [])
    (hclasses : d'.outline.classes = d.outline.classes.map fun c =>
      { c with errors := c.errors ++ if owner = some c.name then [e] else [] }) :
    Enlisted (all ++ [(owner, e)]) d' := by
  obtain ⟨hentry, hregistered⟩ := registerCustom_eq hd h
  refine ⟨?_, ?_, fun name => ?_, ?_, fun name x hx => ?_, ?_⟩
  · rw [hfile, hd.file, ownedBy_append, ownedBy_singleton]
  · rw [hclasses]
    refine List.forall_mem_map.mpr fun c hc => ?_
    rw [ownedBy_append, ownedBy_singleton]
    exact congrArg (· ++ _) (hd.classes c hc)
  · rw [hregistry, hregistered, first?_append, first?_singleton]
    cases hfirst : first? name all <;> simp only [Option.map_some, Option.map_none, Option.some_or, Option.none_or]
    split <;> rfl
  · refine List.forall_mem_append.mpr ⟨fun x hx => ?_, fun x hx => ?_⟩
    · obtain ⟨f, hf⟩ := Option.isSome_iff_exists.mp (first?_isSome hx)
      have hsame := hd.entries x hx
      rwa [first?_append, hf, Option.some_or, ← hf]
    · obtain rfl := List.mem_singleton.mp hx
      rw [first?_append, first?_singleton, if_pos rfl]
      cases hfirst : first? e.name all with
      | none => rfl
      | some f =>
          rw [hfirst] at hentry
          exact congrArg some hentry.symm
  · rw [first?_append, first?_singleton] at hx
    cases hfirst : first? name all with
    | some f =>
        rw [hfirst] at hx
        exact hd.custom name x (hfirst.trans hx)
    | none =>
        rw [hfirst, Option.none_or] at hx
        split at hx
        · next heq =>
            obtain rfl := Option.some.inj hx
            rw [heq, hfirst] at hentry
            exact hentry
        · cases hx
  · rw [Outline.Unwritten, hclasses]
    exact List.forall_mem_map.mpr hd.unwritten

theorem declares_declareError {definition : ErrorDefinition} {u : Unit} (hd : Enlisted all d)
    (h : Declares (declareError owner definition) d u d') :
    ∃ e, DeclaredFor (owner, e) (owner, definition) ∧ Enlisted (all ++ [(owner, e)]) d' := by
  unfold declareError at h
  obtain ⟨fields, d₁, hfields, h⟩ := declares_bind.mp h
  have hlength := length_declaredParams hfields
  have hd := hd.of_same (silent_declaredParams _ _ _ _ _ _ _ hfields)
  obtain ⟨_, d₂, hget, h⟩ := declares_bind.mp h
  obtain ⟨rfl, rfl⟩ := declares_get.mp hget
  dsimp only at h
  cases hentry : d₁.registry.registerCustom ⟨definition.name, fields, owner.getD "", definition.start⟩ with
  | mk entry r =>
      rw [hentry] at h
      obtain ⟨_, d₃, hmodify, h⟩ := declares_bind.mp h
      obtain rfl := declares_modify.mp hmodify
      let e : CustomError := ⟨⟨definition.name, fields, owner.getD "", definition.start⟩, entry⟩
      refine ⟨e, ⟨⟨rfl, rfl⟩, rfl, hlength, rfl⟩, ?_⟩
      cases owner with
      | none =>
          obtain rfl := declares_modify.mp h
          refine hd.append hentry rfl rfl ?_
          simp
      | some name =>
          obtain rfl := declares_modify.mp h
          refine hd.append hentry rfl (by simp) (List.map_congr_left fun c _ => ?_)
          dsimp only
          by_cases hname : c.name = name
          · rw [if_pos hname, if_pos (congrArg some hname.symm)]
          · rw [if_neg hname, if_neg fun h => hname (Option.some.inj h).symm, List.append_nil]

-- Declarations of a source text.

-- A step that declares errors for definitions.
def Enlists (act : Declare α) (definitions : List (Option String × ErrorDefinition)) : Prop :=
  ∀ all d a d', Enlisted all d → Declares act d a d' →
    ∃ more, List.Forall₂ DeclaredFor more definitions ∧ Enlisted (all ++ more) d'

theorem Silent.enlists {act : Declare α} (h : Silent act) : Enlists act [] := by
  intro all d a d' hd hact
  refine ⟨[], .nil, ?_⟩
  rw [List.append_nil]
  exact hd.of_same (h d a d' hact)

theorem enlists_bind {x : Declare α} {f : α → Declare β} {definitions rest : List (Option String × ErrorDefinition)}
    (hx : Enlists x definitions) (hf : ∀ a, Enlists (f a) rest) : Enlists (x >>= f) (definitions ++ rest) := by
  intro all d b d' hd h
  obtain ⟨a, d₁, hx', hf'⟩ := declares_bind.mp h
  obtain ⟨more, hmore, hd₁⟩ := hx all d a d₁ hd hx'
  obtain ⟨more', hmore', hd'⟩ := hf a _ d₁ b d' hd₁ hf'
  exact ⟨more ++ more', List.rel_append hmore hmore', by rwa [← List.append_assoc]⟩

theorem enlists_declareError (owner : Option String) (definition : ErrorDefinition) :
    Enlists (declareError owner definition) [(owner, definition)] := by
  intro all d u d' hd h
  obtain ⟨e, he, hd'⟩ := declares_declareError hd h
  exact ⟨[(owner, e)], .cons he .nil, hd'⟩

theorem enlists_declareMembers (owner : String) (structs : Nat) (parts : List ContractPart) :
    Enlists (declareMembers owner structs parts) (parts.flatMap (memberErrors owner)) := by
  induction parts generalizing structs with
  | nil => exact (silent_pure ()).enlists
  | cons part parts ih =>
      cases part with
      | «using» _ u => exact enlists_bind (silent_declareUsing _ _).enlists fun _ => ih _
      | struct _ s => exact enlists_bind (silent_declareStruct _ _ _).enlists fun _ => ih _
      | enum _ _ => exact ih _
      | event _ e => exact enlists_bind (silent_declareEvent _ _).enlists fun _ => ih _
      | error _ e => exact enlists_bind (enlists_declareError _ _) fun _ => ih _
      | modifier _ m => exact enlists_bind (silent_declareModifier _ _).enlists fun _ => ih _
      | function _ f => exact enlists_bind (silent_declareFunction _ _).enlists fun _ => ih _
      | «variable» _ v => exact enlists_bind (silent_declareVariable _ _).enlists fun _ => ih _

theorem enlists_declareContract (c : Solidity.ContractDefinition) :
    Enlists (declareContract c) (c.parts.flatMap (memberErrors c.name)) := by
  refine enlists_bind (silent_forM (fun base => ?_) _).enlists fun _ => enlists_declareMembers _ _ _
  dsimp only
  split
  · refine silent_bind (silent_classNamed _) fun k => ?_
    exact silent_bind (silent_modifyClass _ (fun _ => rfl) fun _ => id) fun _ => silent_putOff _
  · exact silent_pure ()

theorem enlists_declareParts (structs : Nat) (parts : List SourceUnitPart) :
    Enlists (declareParts structs parts) (parts.flatMap partErrors) := by
  induction parts generalizing structs with
  | nil => exact (silent_pure ()).enlists
  | cons part parts ih =>
      cases part with
      | contract _ c => exact enlists_bind (enlists_declareContract _) fun _ => ih _
      | struct _ s => exact enlists_bind (silent_declareStruct _ _ _).enlists fun _ => ih _
      | event _ e => exact enlists_bind (silent_declareEvent _ _).enlists fun _ => ih _
      | error _ e => exact enlists_bind (enlists_declareError _ _) fun _ => ih _
      | constant _ k => exact enlists_bind (silent_declareConstant _ _).enlists fun _ => ih _
      | _ => exact ih _

-- An outline that only has names.
structure Outline.Plain (o : Outline) : Prop where
  errors : o.errors = []
  classes : ∀ c ∈ o.classes, c.errors = [] ∧ c.code = []

theorem plain_declareNames {part : SourceUnitPart} (ho : o.Plain) (h : declareNames o part = .ok o') : o'.Plain := by
  have hsame (hclasses : o'.classes = o.classes) (herrors : o'.errors = o.errors) : o'.Plain :=
    ⟨herrors ▸ ho.errors, hclasses ▸ ho.classes⟩
  cases part with
  | contract _ c =>
      rw [declareNames] at h
      split at h
      · cases h
      · cases h
        exact ⟨ho.errors, List.forall_mem_append.mpr ⟨ho.classes, List.forall_mem_singleton.mpr ⟨rfl, rfl⟩⟩⟩
  | function _ f => cases h
  | _ =>
      cases h
      exact hsame rfl rfl

theorem plain_foldlM {parts : List SourceUnitPart} (ho : o.Plain) (h : parts.foldlM declareNames o = .ok o') :
    o'.Plain := by
  induction parts generalizing o with
  | nil =>
      cases h
      exact ho
  | cons part parts ih =>
      rw [List.foldlM_cons] at h
      obtain ⟨mid, hmid, h⟩ := bind_eq_ok.mp h
      exact ih (plain_declareNames ho hmid) h

theorem plain_orderClasses (ho : o.Plain) (h : orderClasses o = .ok o') : o'.Plain := by
  unfold orderClasses at h
  obtain ⟨classes, hclasses, h⟩ := bind_eq_ok.mp h
  cases h
  have hall : List.Forall₂ (fun c c' : ContractDecl => c'.errors = c.errors ∧ c'.code = c.code)
      o.classes classes := by
    refine forall₂_of_mapM (fun c c' hc => ?_) hclasses
    split at hc
    · cases hc
      exact ⟨rfl, rfl⟩
    · cases hc
  refine ⟨ho.errors, fun c' hc' => ?_⟩
  obtain ⟨i, hi, rfl⟩ := List.mem_iff_getElem.mp hc'
  have hi' : i < o.classes.length := hall.length_eq ▸ hi
  obtain ⟨herrors, himpls⟩ := hall.get hi' hi
  obtain ⟨hnone, hempty⟩ := ho.classes _ (List.get_mem _ ⟨i, hi'⟩)
  exact ⟨herrors.trans hnone, himpls.trans hempty⟩

-- All errors of a source text are declared in the order in which they stand there.
theorem enlisted_declareUnit {unit : Solidity.SourceUnit} {draft : Draft} (h : declareUnit unit = .ok draft) :
    ∃ all, List.Forall₂ DeclaredFor all (unit.parts.flatMap partErrors) ∧ Enlisted all draft := by
  have hempty : ({} : Outline).Plain := ⟨rfl, by simp⟩
  unfold declareUnit at h
  obtain ⟨names, hnames, h⟩ := bind_eq_ok.mp h
  obtain ⟨ordered, hordered, h⟩ := bind_eq_ok.mp h
  obtain ⟨⟨_, d⟩, hparts, h⟩ := bind_eq_ok.mp h
  cases h
  obtain ⟨herrors, hclasses⟩ := plain_orderClasses (plain_foldlM hempty hnames) hordered
  have hstart : Enlisted [] { outline := ordered } :=
    ⟨herrors, fun c hc => (hclasses c hc).1, fun _ => rfl, by simp, by simp [first?],
      fun c hc impl himpl => by simp [(hclasses c hc).2] at himpl⟩
  exact enlists_declareParts _ _ _ _ _ _ hstart hparts

end Resolve

end RustContracts
