import Mathlib.Data.List.Nodup
import RustContracts.Proofs.Inheritance.Linearize
import RustContracts.Resolve.Package

-- What building a package keeps: every function that a class declares has one implementation, which has a
-- body in the end exactly when the source gives one.
namespace RustContracts.Resolve

open Program

-- A function as a class declares it.
structure Declared (owner : String) (f : Function) : Prop where
  notGetter : f.kind ≠ .getter
  single : ∃ impl, f.implementations = [impl] ∧ impl.owner = owner ∧ impl.params = f.params ∧
    impl.returns = f.returns

-- The code that is put off is the body of a function of a class.
def Pending.GivesBody (owner : String) (index : Nat) (p : Pending) : Prop :=
  p.owner = some owner ∧ p.code = some (.function index) ∧ ∃ b, p.task = .body b

-- What the parts of a class that matter here are.
def heading (c : ContractDecl) : String × List String × List String × List Function :=
  (c.name, c.chain, c.bases, c.functions)

-- An outline whose functions get their bodies from the code that is put off.
structure Outline.Sound (o : Outline) (pending : List Pending) : Prop where
  names_nodup : (o.classes.map (·.name)).Nodup
  chains : ∀ c ∈ o.classes, ∀ k ∈ c.chain, k ∈ o.classes.map (·.name)
  declared : ∀ c ∈ o.classes, ∀ f ∈ c.functions, Declared c.name f
  bodies : ∀ c ∈ o.classes, ∀ i f, c.functions[i]? = some f → ∀ impl ∈ f.implementations,
    (impl.implemented = true ↔ impl.body.isSome = true ∨ ∃ p ∈ pending, p.GivesBody c.name i)
  bounded : ∀ p ∈ pending, ∀ c ∈ o.classes, ∀ i, p.GivesBody c.name i → i < c.functions.length

variable {o o' : Outline} {pending more : List Pending}

theorem mem_of_headings (h : o'.classes.map heading = o.classes.map heading) {c : ContractDecl}
    (hc : c ∈ o'.classes) :
    ∃ k ∈ o.classes, k.name = c.name ∧ k.chain = c.chain ∧ k.functions = c.functions := by
  have hmem : heading c ∈ o.classes.map heading := h ▸ List.mem_map_of_mem hc
  obtain ⟨k, hk, heq⟩ := List.mem_map.mp hmem
  simp only [heading, Prod.mk.injEq] at heq
  exact ⟨k, hk, heq.1, heq.2.1, heq.2.2.2⟩

theorem names_of_headings (h : o'.classes.map heading = o.classes.map heading) :
    o'.classes.map (·.name) = o.classes.map (·.name) := by
  have := congrArg (List.map Prod.fst) h
  simpa [heading, Function.comp_def] using this

-- Other declarations and other code change nothing here.
theorem Outline.Sound.of_headings (hs : o.Sound pending)
    (h : o'.classes.map heading = o.classes.map heading)
    (hmore : ∀ p ∈ more, ∀ owner i, ¬p.GivesBody owner i) : o'.Sound (pending ++ more) where
  names_nodup := by
    rw [names_of_headings h]
    exact hs.names_nodup
  chains c hc name hname := by
    obtain ⟨k, hk, -, hchain, -⟩ := mem_of_headings h hc
    rw [names_of_headings h]
    exact hs.chains k hk name (hchain ▸ hname)
  declared c hc f hf := by
    obtain ⟨k, hk, hn, -, hfunctions⟩ := mem_of_headings h hc
    exact hn ▸ hs.declared k hk f (hfunctions ▸ hf)
  bodies c hc i f hf impl himpl := by
    obtain ⟨k, hk, hn, -, hfunctions⟩ := mem_of_headings h hc
    have hbodies := hs.bodies k hk i f (hfunctions ▸ hf) impl himpl
    rw [hn] at hbodies
    rw [hbodies]
    have hsame : (∃ p ∈ pending ++ more, p.GivesBody c.name i) ↔ ∃ p ∈ pending, p.GivesBody c.name i := by
      constructor
      · rintro ⟨p, hp, hgives⟩
        rcases List.mem_append.mp hp with hp | hp
        · exact ⟨p, hp, hgives⟩
        · exact absurd hgives (hmore p hp _ _)
      · rintro ⟨p, hp, hgives⟩
        exact ⟨p, List.mem_append_left _ hp, hgives⟩
    rw [hsame]
  bounded p hp c hc i hgives := by
    obtain ⟨k, hk, hn, -, hfunctions⟩ := mem_of_headings h hc
    rcases List.mem_append.mp hp with hp | hp
    · rw [← hfunctions]
      exact hs.bounded p hp k hk i (hn ▸ hgives)
    · exact absurd hgives (hmore p hp _ _)

-- Declaring.

-- A step of declaring that gives a result.
def Declares {α : Type} (act : Declare α) (d : Draft) (a : α) (d' : Draft) : Prop :=
  act.run d = .ok (a, d')

section Steps

variable {α β : Type} {d d' d'' : Draft}

theorem declares_pure {a b : α} : Declares (pure a) d b d' ↔ a = b ∧ d = d' := by
  rw [Declares, StateT.run_pure]
  constructor
  · intro h
    cases h
    exact ⟨rfl, rfl⟩
  · rintro ⟨rfl, rfl⟩
    rfl

theorem not_declares_throw {e : Diagnostic} {a : α} : ¬Declares (throw e) d a d' := by
  intro h
  cases h

theorem declares_bind {x : Declare α} {f : α → Declare β} {b : β} :
    Declares (x >>= f) d b d'' ↔ ∃ a d', Declares x d a d' ∧ Declares (f a) d' b d'' := by
  rw [Declares, StateT.run_bind]
  constructor
  · intro h
    cases hx : x.run d with
    | error e => rw [hx] at h; cases h
    | ok p =>
        rw [hx] at h
        exact ⟨p.1, p.2, hx, h⟩
  · rintro ⟨a, d', hx, hf⟩
    rw [show x.run d = .ok (a, d') from hx]
    exact hf

theorem declares_get {s : Draft} : Declares get d s d' ↔ d = s ∧ d = d' := declares_pure

theorem declares_modify {f : Draft → Draft} {u : Unit} : Declares (modify f) d u d' ↔ f d = d' := by
  constructor
  · intro h
    cases h
    rfl
  · rintro rfl
    rfl

-- The second draft has the same functions, and no more bodies put off.
def SameFunctions (d d' : Draft) : Prop :=
  d'.outline.classes.map heading = d.outline.classes.map heading ∧
    ∃ more, d'.pending = d.pending ++ more ∧ ∀ p ∈ more, ∀ owner i, ¬p.GivesBody owner i

theorem SameFunctions.refl (d : Draft) : SameFunctions d d := ⟨rfl, [], by simp, by simp⟩

theorem SameFunctions.trans (h : SameFunctions d d') (h' : SameFunctions d' d'') :
    SameFunctions d d'' := by
  obtain ⟨hheadings, more, hpending, hmore⟩ := h
  obtain ⟨hheadings', more', hpending', hmore'⟩ := h'
  refine ⟨hheadings'.trans hheadings, more ++ more', by rw [hpending', hpending, List.append_assoc], ?_⟩
  exact List.forall_mem_append.mpr ⟨hmore, hmore'⟩

theorem SameFunctions.sound (h : SameFunctions d d') (hs : d.outline.Sound d.pending) :
    d'.outline.Sound d'.pending := by
  obtain ⟨hheadings, more, hpending, hmore⟩ := h
  rw [hpending]
  exact hs.of_headings hheadings hmore

-- A step that declares no function.
def Aside (act : Declare α) : Prop := ∀ d a d', Declares act d a d' → SameFunctions d d'

theorem aside_pure (a : α) : Aside (pure a) := by
  intro d b d' h
  obtain ⟨-, rfl⟩ := declares_pure.mp h
  exact .refl d

theorem aside_throw (e : Diagnostic) : Aside (throw e : Declare α) :=
  fun _ _ _ h => absurd h not_declares_throw

theorem aside_bind {x : Declare α} {f : α → Declare β} (hx : Aside x) (hf : ∀ a, Aside (f a)) :
    Aside (x >>= f) := by
  intro d b d' h
  obtain ⟨a, d₁, hx', hf'⟩ := declares_bind.mp h
  exact (hx d a d₁ hx').trans (hf a d₁ b d' hf')

theorem aside_get : Aside (get : Declare Draft) := by
  intro d s d' h
  obtain ⟨-, rfl⟩ := declares_get.mp h
  exact .refl d

theorem aside_modify {f : Draft → Draft} (hf : ∀ d, SameFunctions d (f d)) : Aside (modify f) := by
  intro d u d' h
  exact declares_modify.mp h ▸ hf d

theorem aside_forM {f : α → Declare Unit} (hf : ∀ a, Aside (f a)) (xs : List α) :
    Aside (xs.forM f) := by
  induction xs with
  | nil => exact aside_pure ()
  | cons x xs ih => exact aside_bind (hf x) fun _ => ih

end Steps

-- Parts of the outline without functions.
theorem aside_modifyOutline {f : Outline → Outline} (hf : ∀ o, (f o).classes = o.classes) :
    Aside (modifyOutline f) :=
  aside_modify fun d => ⟨by rw [hf], [], by simp, by simp⟩

theorem headings_modify (classes : List ContractDecl) (name : String) {f : ContractDecl → ContractDecl}
    (hf : ∀ c, heading (f c) = heading c) :
    (classes.map fun c => if c.name = name then f c else c).map heading = classes.map heading := by
  rw [List.map_map]
  refine List.map_congr_left fun c _ => ?_
  by_cases hc : c.name = name
  · rw [Function.comp_apply, if_pos hc, hf]
  · rw [Function.comp_apply, if_neg hc]

theorem aside_modifyClass (name : String) {f : ContractDecl → ContractDecl}
    (hf : ∀ c, heading (f c) = heading c) : Aside (modifyClass name f) :=
  aside_modify fun d => ⟨headings_modify d.outline.classes name hf, [], by simp, by simp⟩

theorem aside_putOff {p : Pending} (hp : ∀ owner i, ¬p.GivesBody owner i) : Aside (putOff p) :=
  aside_modify fun d => ⟨rfl, [p], rfl, by simpa using hp⟩

theorem aside_classNamed (name : String) : Aside (classNamed name) :=
  aside_bind aside_get fun _ => aside_pure _

theorem aside_declaredType (scope : Option String) (t : Solidity.TypeName) :
    Aside (declaredType scope t) := by
  refine aside_bind aside_get fun d => ?_
  dsimp only
  split
  · exact aside_pure _
  · exact aside_throw _

theorem aside_declaredParams (scope : Option String) (unnamed : String) (i : Nat)
    (ps : List Solidity.Parameter) : Aside (declaredParams scope unnamed i ps) := by
  induction ps generalizing i with
  | nil => exact aside_pure []
  | cons p ps ih =>
      refine aside_bind (aside_declaredType scope p.type) fun t => ?_
      exact aside_bind (ih (i + 1)) fun _ => aside_pure _

theorem aside_declareStruct (owner : Option String) (index : Nat) (s : Solidity.StructDefinition) :
    Aside (declareStruct owner index s) := by
  have hadd (p : Param) : Aside (addStructField owner index p) := by
    unfold addStructField
    split
    · exact aside_modifyClass _ fun _ => rfl
    · exact aside_modifyOutline fun _ => rfl
  refine aside_forM (fun (f : Solidity.StructField) => aside_bind (aside_declaredType owner f.type) fun t => ?_) _
  dsimp only
  split
  · exact aside_bind (aside_throw _) fun _ => hadd _
  · exact hadd _

theorem aside_declareEvent (owner : Option String) (e : Solidity.EventDefinition) :
    Aside (declareEvent owner e) := by
  have hfields (i : Nat) (ps : List Solidity.EventParameter) : Aside (eventFields owner i ps) := by
    induction ps generalizing i with
    | nil => exact aside_pure []
    | cons p ps ih =>
        refine aside_bind (aside_declaredType owner p.type) fun t => ?_
        exact aside_bind (ih (i + 1)) fun _ => aside_pure _
  refine aside_bind (hfields 0 e.params) fun fields => ?_
  dsimp only
  split
  · exact aside_modifyClass _ fun _ => rfl
  · exact aside_modifyOutline fun _ => rfl

theorem aside_declareError (owner : Option String) (e : Solidity.ErrorDefinition) :
    Aside (declareError owner e) := by
  refine aside_bind (aside_declaredParams _ _ _ _) fun fields => aside_bind aside_get fun d => ?_
  refine aside_bind (aside_modify fun d => ⟨rfl, [], by simp, by simp⟩) fun _ => ?_
  dsimp only
  split
  · exact aside_modifyClass _ fun _ => rfl
  · exact aside_modifyOutline fun _ => rfl

-- Values and arguments are no bodies.
theorem not_givesBody {p : Pending} (h : ∀ b, p.task ≠ .body b) (owner : String) (i : Nat) :
    ¬p.GivesBody owner i := fun ⟨_, _, b, hb⟩ => h b hb

theorem not_givesBody_of_code {p : Pending} (h : ∀ i, p.code ≠ some (.function i)) (owner : String)
    (i : Nat) : ¬p.GivesBody owner i := fun ⟨_, hcode, _⟩ => h i hcode

theorem aside_declareConstant (owner : Option String) (v : Solidity.StateVariable) :
    Aside (declareConstant owner v) := by
  refine aside_bind (aside_declaredType _ _) fun t => ?_
  split
  · exact aside_throw _
  · refine aside_bind aside_get fun d => ?_
    dsimp only
    split
    · refine aside_bind (aside_classNamed _) fun c => ?_
      refine aside_bind (aside_modifyClass _ fun _ => rfl) fun _ => ?_
      exact aside_putOff (not_givesBody fun _ => by simp)
    · refine aside_bind (aside_modifyOutline fun _ => rfl) fun _ => ?_
      exact aside_putOff (not_givesBody fun _ => by simp)

theorem aside_addField (owner : String) (field : StorageField) (value : Option Solidity.Expression) : Aside (do
    let index := (← classNamed owner).fields.length
    modifyClass owner fun c => { c with fields := c.fields ++ [field] }
    if let some value := value then
      putOff { owner := some owner, task := .fieldValue index value } : Declare Unit) := by
  refine aside_bind (aside_classNamed _) fun c => ?_
  refine aside_bind (aside_modifyClass _ fun _ => rfl) fun _ => ?_
  split
  · exact aside_putOff (not_givesBody fun _ => by simp)
  · exact aside_pure ()

theorem aside_declareVariable (owner : String) (v : Solidity.StateVariable) :
    Aside (declareVariable owner v) := by
  refine aside_bind (aside_declaredType _ _) fun t => ?_
  dsimp only
  split
  · exact aside_declareConstant _ _
  · split
    · exact aside_bind (aside_throw _) fun _ => aside_addField _ _ _
    · exact aside_addField _ _ _

theorem aside_declareModifier (owner : String) (m : Solidity.ModifierDefinition) :
    Aside (declareModifier owner m) := by
  refine aside_bind (aside_declaredParams _ _ _ _) fun params => ?_
  refine aside_bind (aside_classNamed _) fun c => ?_
  refine aside_bind (aside_modifyClass _ fun _ => rfl) fun _ => ?_
  split
  · exact aside_putOff (not_givesBody_of_code fun _ => by simp)
  · exact aside_pure ()

theorem aside_declareUsing (owner : String) (u : Solidity.UsingDirective) :
    Aside (declareUsing owner u) := by
  refine aside_bind aside_get fun d => ?_
  split
  · rename_i lib _
    have hadd : Aside (do
        let target ← u.target.mapM (declaredType (some owner))
        modifyClass owner fun c => { c with usings := c.usings ++ [⟨lib.name, target⟩] }) := by
      refine aside_bind ?_ fun target => aside_modifyClass _ fun _ => rfl
      cases u.target with
      | none => exact aside_pure _
      | some t => exact aside_bind (aside_declaredType _ _) fun _ => aside_pure _
    split
    · exact aside_bind (aside_throw _) fun _ => hadd
    · exact hadd
  · exact aside_throw _

-- Functions.

section Functions

variable {c : ContractDecl} {d d' : Draft}

theorem declares_lift {α : Type} {x : Except Diagnostic α} {a : α} :
    Declares (liftM x) d a d' ↔ x = .ok a ∧ d = d' := by
  constructor
  · intro h
    cases x with
    | error e => cases h
    | ok b =>
        cases h
        exact ⟨rfl, rfl⟩
  · rintro ⟨rfl, rfl⟩
    rfl

theorem kind_plainSignature {f : Solidity.FunctionDefinition} {s : Signature}
    (h : plainSignature c f = .ok s) : s.kind ≠ .getter := by
  unfold plainSignature at h
  -- the kind of the class only decides how the function is seen
  cases hc : c.kind <;> rw [hc] at h <;> dsimp only at h <;> split at h
  all_goals try split at h
  all_goals cases h <;> simp

-- What reading the attributes of a function leaves alone.
def SameBody (a b : Signature × Implementation) : Prop :=
  b.1.kind = a.1.kind ∧ b.2.owner = a.2.owner ∧ b.2.implemented = a.2.implemented ∧
    b.2.body = a.2.body

theorem SameBody.trans {a b e : Signature × Implementation} (h : SameBody a b) (h' : SameBody b e) :
    SameBody a e :=
  ⟨h'.1.trans h.1, h'.2.1.trans h.2.1, h'.2.2.1.trans h.2.2.1, h'.2.2.2.trans h.2.2.2⟩

theorem declareAttribute_step {code : CodeOwner} {s : Signature} {impl : Implementation}
    {a : Solidity.FunctionAttribute} {r : Signature × Implementation}
    (h : Declares (declareAttribute c code s impl a) d r d') :
    SameFunctions d d' ∧ SameBody (s, impl) r := by
  have hquiet (q : Signature × Implementation) (hq : SameBody (s, impl) q) {d : Draft}
      (h : Declares (pure q) d r d') : SameFunctions d d' ∧ SameBody (s, impl) r := by
    obtain ⟨rfl, rfl⟩ := declares_pure.mp h
    exact ⟨.refl d, hq⟩
  cases a with
  | visibility _ word => exact hquiet ({ s with visibility := .ofText word }, impl) ⟨rfl, rfl, rfl, rfl⟩ h
  | mutability _ word => exact hquiet ({ s with mutability := .ofText word }, impl) ⟨rfl, rfl, rfl, rfl⟩ h
  | isVirtual _ => exact hquiet (s, { impl with isVirtual := true }) ⟨rfl, rfl, rfl, rfl⟩ h
  | isOverride _ _ => exact hquiet (s, { impl with isOverride := true }) ⟨rfl, rfl, rfl, rfl⟩ h
  | modifier _ inv =>
      rw [declareAttribute] at h
      split at h
      · obtain ⟨k, d₁, hclass, h⟩ := declares_bind.mp h
        obtain ⟨_, d₂, hcall, h⟩ := declares_bind.mp h
        obtain ⟨_, d₃, hargs, h⟩ := declares_bind.mp h
        have h₁ := aside_classNamed _ _ _ _ hclass
        have h₂ := aside_modifyClass _ (by intro k; rfl) _ _ _ hcall
        have h₃ := aside_putOff (not_givesBody fun _ => by simp) _ _ _ hargs
        have hlast := hquiet (s, impl) ⟨rfl, rfl, rfl, rfl⟩ h
        exact ⟨((h₁.trans h₂).trans h₃).trans hlast.1, hlast.2⟩
      · have hadd {d : Draft} := hquiet (d := d) (s, { impl with
          modifiers := impl.modifiers ++ [{ name := inv.name, start := inv.start }] }) ⟨rfl, rfl, rfl, rfl⟩
        split at h
        · obtain ⟨_, d₁, hargs, h⟩ := declares_bind.mp h
          have h₁ := aside_putOff (not_givesBody fun _ => by simp) _ _ _ hargs
          exact ⟨h₁.trans (hadd h).1, (hadd h).2⟩
        · exact hadd h

theorem declareAttributes_step {code : CodeOwner} {attrs : List Solidity.FunctionAttribute}
    {start r : Signature × Implementation}
    (h : Declares (attrs.foldlM (fun (s, impl) a => declareAttribute c code s impl a) start) d r d') :
    SameFunctions d d' ∧ SameBody start r := by
  induction attrs generalizing start d with
  | nil =>
      obtain ⟨rfl, rfl⟩ := declares_pure.mp h
      exact ⟨.refl d, rfl, rfl, rfl, rfl⟩
  | cons a attrs ih =>
      obtain ⟨mid, d₁, hmid, hrest⟩ := declares_bind.mp h
      have hstep := declareAttribute_step hmid
      have htail := ih hrest
      exact ⟨hstep.1.trans htail.1, hstep.2.trans htail.2⟩

-- The only class with a name.
theorem Outline.Sound.class_eq (hs : o.Sound pending) (hc : c ∈ o.classes) : o.class? c.name = some c := by
  have hother (k : ContractDecl) (hk : k ∈ o.classes) (hname : k.name = c.name) : k = c :=
    List.inj_on_of_nodup_map hs.names_nodup hk hc hname
  have hsome : (o.class? c.name).isSome := by
    rw [class?, List.find?_isSome]
    exact ⟨c, hc, by simp⟩
  obtain ⟨k, hk⟩ := Option.isSome_iff_exists.mp hsome
  have hname : k.name = c.name := by simpa using List.find?_some hk
  rw [hk, hother k (List.mem_of_find?_eq_some hk) hname]

-- A class with one more function.
def addFunction (owner : String) (f : Function) (c : ContractDecl) : ContractDecl :=
  if c.name = owner then { c with functions := c.functions ++ [f] } else c

theorem addFunction_name (owner : String) (f : Function) (c : ContractDecl) :
    (addFunction owner f c).name = c.name := by
  rw [addFunction]
  split <;> rfl

theorem addFunction_chain (owner : String) (f : Function) (c : ContractDecl) :
    (addFunction owner f c).chain = c.chain := by
  rw [addFunction]
  split <;> rfl

theorem addFunction_functions (owner : String) (f : Function) (c : ContractDecl) :
    (addFunction owner f c).functions = c.functions ++ if c.name = owner then [f] else [] := by
  rw [addFunction]
  split <;> simp

-- A function that is declared behind the others of its class; `more` gives its body.
theorem Outline.Sound.add_function {owner : String} {f : Function} {n : Nat} (hs : o.Sound pending)
    (hf : Declared owner f)
    (hlength : ∀ c ∈ o.classes, c.name = owner → c.functions.length = n)
    (hbody : ∀ impl ∈ f.implementations, impl.body = none ∧
      (impl.implemented = true ↔ ∃ p ∈ more, p.GivesBody owner n))
    (hmore : ∀ p ∈ more, ∀ k i, p.GivesBody k i → k = owner ∧ i = n)
    (hclasses : o'.classes = o.classes.map (addFunction owner f)) : o'.Sound (pending ++ more) := by
  have hnames : o'.classes.map (·.name) = o.classes.map (·.name) := by
    rw [hclasses, List.map_map]
    exact List.map_congr_left fun c _ => addFunction_name owner f c
  have hnone {c : ContractDecl} (hc : c ∈ o.classes) (hname : c.name = owner) :
      ¬∃ p ∈ pending, p.GivesBody c.name n := by
    rintro ⟨p, hp, hgives⟩
    have hlt := hs.bounded p hp c hc n hgives
    have := hlength c hc hname
    omega
  refine ⟨hnames ▸ hs.names_nodup, ?_, ?_, ?_, ?_⟩
  · rw [hnames, hclasses, List.forall_mem_map]
    intro c hc
    rw [addFunction_chain]
    exact hs.chains c hc
  · rw [hclasses, List.forall_mem_map]
    intro c hc g hg
    rw [addFunction_name]
    rw [addFunction_functions, List.mem_append] at hg
    rcases hg with hg | hg
    · exact hs.declared c hc g hg
    · split at hg
      · next hname =>
          rw [List.mem_singleton.mp hg, hname]
          exact hf
      · simp at hg
  · rw [hclasses, List.forall_mem_map]
    intro c hc i g hg impl himpl
    rw [addFunction_name]
    rw [addFunction_functions] at hg
    have hexists : (∃ p ∈ pending ++ more, p.GivesBody c.name i) ↔
        (∃ p ∈ pending, p.GivesBody c.name i) ∨ ∃ p ∈ more, p.GivesBody c.name i := by
      simp only [List.mem_append, or_and_right, exists_or]
    rw [hexists]
    by_cases hi : i < c.functions.length
    · -- an earlier function: the new code is not for it
      rw [List.getElem?_append_left hi] at hg
      have hnot : ¬∃ p ∈ more, p.GivesBody c.name i := by
        rintro ⟨p, hp, hgives⟩
        obtain ⟨hname, rfl⟩ := hmore p hp _ _ hgives
        have := hlength c hc hname
        omega
      rw [hs.bodies c hc i g hg impl himpl]
      simp [hnot]
    · rw [List.getElem?_append_right (by omega)] at hg
      by_cases hname : c.name = owner
      · rw [if_pos hname] at hg
        obtain ⟨hzero, rfl⟩ : i - c.functions.length = 0 ∧ f = g := by
          simpa [List.getElem?_singleton] using hg
        have hn := hlength c hc hname
        obtain rfl : i = n := by omega
        obtain ⟨hnobody, hiff⟩ := hbody impl himpl
        rw [hiff, hnobody]
        simpa [hname] using fun p hp hgives => absurd ⟨p, hp, hname ▸ hgives⟩ (hnone hc hname)
      · rw [if_neg hname] at hg
        simp at hg
  · rw [hclasses]
    intro p hp c' hc'
    obtain ⟨c, hc, rfl⟩ := List.mem_map.mp hc'
    intro i hgives
    rw [addFunction_name] at hgives
    rw [addFunction_functions, List.length_append]
    rcases List.mem_append.mp hp with hp | hp
    · have := hs.bounded p hp c hc i hgives
      omega
    · obtain ⟨hname, rfl⟩ := hmore p hp _ _ hgives
      rw [if_pos hname, hlength c hc hname]
      simp

-- A step after which the functions still get their bodies from the code that is put off.
def Builds {α : Type} (act : Declare α) : Prop :=
  ∀ d a d', Declares act d a d' → d.outline.Sound d.pending → d'.outline.Sound d'.pending

theorem Aside.builds {α : Type} {act : Declare α} (h : Aside act) : Builds act :=
  fun d a d' hact hs => (h d a d' hact).sound hs

theorem builds_bind {α β : Type} {x : Declare α} {f : α → Declare β} (hx : Builds x)
    (hf : ∀ a, Builds (f a)) : Builds (x >>= f) := by
  intro d b d' h hs
  obtain ⟨a, d₁, hx', hf'⟩ := declares_bind.mp h
  exact hf a d₁ b d' hf' (hx d a d₁ hx' hs)

theorem declares_classNamed {name : String} :
    Declares (classNamed name) d c d' ↔ (d.outline.class? name).getD default = c ∧ d = d' := by
  constructor
  · intro h
    cases h
    exact ⟨rfl, rfl⟩
  · rintro ⟨rfl, rfl⟩
    rfl

-- The number of functions that a class has when one more is read.
theorem SameFunctions.length_eq {owner : String} (h : SameFunctions d d')
    (hs : d.outline.Sound d.pending) (hclass : (d.outline.class? owner).getD default = c)
    (k : ContractDecl) (hk : k ∈ d'.outline.classes) (hname : k.name = owner) :
    k.functions.length = c.functions.length := by
  obtain ⟨k', hk', hname', -, hfunctions⟩ := mem_of_headings h.1 hk
  have hfound : d.outline.class? owner = some k' := by rw [← hname, ← hname', hs.class_eq hk']
  rw [← hfunctions, ← hclass, hfound, Option.getD_some]

-- A function and its body.
theorem sound_of_addFunction {owner : String} {f : Function} {body : Option Solidity.Block} {n : Nat}
    {u : Unit} (hs : d.outline.Sound d.pending) (hf : Declared owner f)
    (hlength : ∀ c ∈ d.outline.classes, c.name = owner → c.functions.length = n)
    (hnew : ∀ impl ∈ f.implementations, impl.body = none ∧ impl.implemented = body.isSome)
    (h : Declares (do
      modifyClass owner fun k => { k with functions := k.functions ++ [f] }
      if let some b := body then
        putOff { owner := some owner, code := some (.function n), task := .body b }) d u d') :
    d'.outline.Sound d'.pending := by
  obtain ⟨_, d₁, hadd, h⟩ := declares_bind.mp h
  have hadd := declares_modify.mp hadd
  cases body with
  | none =>
      obtain ⟨-, rfl⟩ := declares_pure.mp h
      rw [← hadd, ← List.append_nil d.pending]
      exact hs.add_function hf hlength (by simpa using hnew) (by simp) rfl
  | some b =>
      obtain rfl := declares_modify.mp h
      rw [← hadd]
      refine hs.add_function hf hlength ?_ ?_ rfl
      · simpa [Pending.GivesBody] using hnew
      · rintro p hp k i ⟨hk, hi, -⟩
        obtain rfl := List.mem_singleton.mp hp
        simp only [Option.some.injEq, CodeOwner.function.injEq] at hk hi
        exact ⟨hk.symm, hi.symm⟩

theorem builds_declareFunction (owner : String) (f : Solidity.FunctionDefinition) :
    Builds (declareFunction owner f) := by
  intro d u d' h hs
  unfold declareFunction at h
  obtain ⟨c, d₁, hget, h⟩ := declares_bind.mp h
  obtain ⟨hclass, rfl⟩ := declares_classNamed.mp hget
  obtain ⟨s, d₂, hsignature, h⟩ := declares_bind.mp h
  obtain ⟨hplain, rfl⟩ := declares_lift.mp hsignature
  obtain ⟨⟨s', impl⟩, d₃, hattrs, h⟩ := declares_bind.mp h
  obtain ⟨hsame₃, hbody⟩ := declareAttributes_step hattrs
  obtain ⟨params, d₄, hparams, h⟩ := declares_bind.mp h
  obtain ⟨returns, d₅, hreturns, h⟩ := declares_bind.mp h
  have hsame : SameFunctions d d₅ := (hsame₃.trans (aside_declaredParams _ _ _ _ _ _ _ hparams)).trans
    (aside_declaredParams _ _ _ _ _ _ _ hreturns)
  have hs₅ := hsame.sound hs
  obtain ⟨hkind, howner, himplemented, hnone⟩ := hbody
  dsimp only at hkind howner himplemented hnone h
  split at h
  · next hctor =>
      -- a constructor is no function of the table
      have hctor' : s.kind = .constructor := hkind.symm.trans hctor
      simp only [if_pos hctor'] at h
      have haside : Aside (modifyClass owner fun k => { k with constructor := some {
          s' with params := params, returns := returns, implementations := [{ impl with
            params := params, returns := returns }] } }) := aside_modifyClass _ fun _ => rfl
      split at h
      · obtain ⟨_, _, hthrow, _⟩ := declares_bind.mp h
        exact absurd hthrow not_declares_throw
      split at h
      · obtain ⟨_, _, hthrow, _⟩ := declares_bind.mp h
        exact absurd hthrow not_declares_throw
      obtain ⟨_, d₆, hadd, h⟩ := declares_bind.mp h
      have hs₆ := haside.builds _ _ _ hadd hs₅
      split at h
      · exact (aside_putOff (not_givesBody_of_code fun _ => by simp)).builds _ _ _ h hs₆
      · exact (aside_pure ()).builds _ _ _ h hs₆
  · next hctor =>
      have hctor' : ¬s.kind = .constructor := fun hk => hctor (hkind.trans hk)
      simp only [if_neg hctor'] at h
      refine sound_of_addFunction hs₅ ?_ (hsame.length_eq hs hclass) ?_ h
      · exact ⟨hkind ▸ kind_plainSignature hplain, _, rfl, howner, rfl, rfl⟩
      · simp [hnone, himplemented]

end Functions

theorem builds_declareMembers (owner : String) (structs : Nat) (parts : List Solidity.ContractPart) :
    Builds (declareMembers owner structs parts) := by
  induction parts generalizing structs with
  | nil => exact (aside_pure ()).builds
  | cons part parts ih =>
      cases part with
      | «using» _ u => exact builds_bind (aside_declareUsing _ _).builds fun _ => ih _
      | struct _ s => exact builds_bind (aside_declareStruct _ _ _).builds fun _ => ih _
      | enum _ _ => exact ih _
      | event _ e => exact builds_bind (aside_declareEvent _ _).builds fun _ => ih _
      | error _ e => exact builds_bind (aside_declareError _ _).builds fun _ => ih _
      | modifier _ m => exact builds_bind (aside_declareModifier _ _).builds fun _ => ih _
      | function _ f => exact builds_bind (builds_declareFunction _ _) fun _ => ih _
      | «variable» _ v => exact builds_bind (aside_declareVariable _ _).builds fun _ => ih _

theorem builds_declareContract (c : Solidity.ContractDefinition) : Builds (declareContract c) := by
  refine builds_bind (aside_forM (fun base => ?_) _).builds fun _ => builds_declareMembers _ _ _
  dsimp only
  split
  · refine aside_bind (aside_classNamed _) fun k => ?_
    refine aside_bind (aside_modifyClass _ fun _ => rfl) fun _ => ?_
    exact aside_putOff (not_givesBody fun _ => by simp)
  · exact aside_pure ()

theorem builds_declareParts (structs : Nat) (parts : List Solidity.SourceUnitPart) :
    Builds (declareParts structs parts) := by
  induction parts generalizing structs with
  | nil => exact (aside_pure ()).builds
  | cons part parts ih =>
      cases part with
      | contract _ c => exact builds_bind (builds_declareContract _) fun _ => ih _
      | struct _ s => exact builds_bind (aside_declareStruct _ _ _).builds fun _ => ih _
      | event _ e => exact builds_bind (aside_declareEvent _ _).builds fun _ => ih _
      | error _ e => exact builds_bind (aside_declareError _ _).builds fun _ => ih _
      | constant _ k => exact builds_bind (aside_declareConstant _ _).builds fun _ => ih _
      | _ => exact ih _

-- Names and hierarchies.

theorem bind_eq_ok {α β : Type} {x : Except Diagnostic α} {f : α → Except Diagnostic β} {b : β} :
    (x >>= f) = .ok b ↔ ∃ a, x = .ok a ∧ f a = .ok b := by
  cases x with
  | error e =>
      constructor
      · intro h
        cases h
      · rintro ⟨_, h, _⟩
        cases h
  | ok a =>
      constructor
      · intro h
        exact ⟨a, rfl, h⟩
      · rintro ⟨_, h, hf⟩
        cases h
        exact hf

-- Classes that have names and nothing else.
structure Outline.Bare (o : Outline) : Prop where
  names_nodup : (o.classes.map (·.name)).Nodup
  functions : ∀ c ∈ o.classes, c.functions = []

theorem bare_declareNames {part : Solidity.SourceUnitPart} (ho : o.Bare)
    (h : declareNames o part = .ok o') : o'.Bare := by
  have hsame (hclasses : o'.classes = o.classes) : o'.Bare :=
    ⟨hclasses ▸ ho.names_nodup, hclasses ▸ ho.functions⟩
  cases part with
  | contract _ c =>
      rw [declareNames] at h
      split at h
      · cases h
      · next hnew =>
          cases h
          constructor
          · rw [List.map_append]
            refine List.nodup_append.mpr ⟨ho.names_nodup, by simp, ?_⟩
            intro a ha b hb hab
            obtain ⟨k, hk, rfl⟩ := List.mem_map.mp ha
            obtain rfl := List.mem_singleton.mp hb
            exact hnew (List.any_eq_true.mpr ⟨k, hk, decide_eq_true hab⟩)
          · refine List.forall_mem_append.mpr ⟨ho.functions, ?_⟩
            simp [contractDecl]
  | struct _ s =>
      cases h
      exact hsame rfl
  | enum _ e =>
      cases h
      exact hsame rfl
  | function _ f => cases h
  | _ =>
      cases h
      exact hsame rfl

theorem bare_foldlM {parts : List Solidity.SourceUnitPart} (ho : o.Bare)
    (h : parts.foldlM declareNames o = .ok o') : o'.Bare := by
  induction parts generalizing o with
  | nil =>
      cases h
      exact ho
  | cons part parts ih =>
      rw [List.foldlM_cons] at h
      obtain ⟨mid, hmid, h⟩ := bind_eq_ok.mp h
      exact ih (bare_declareNames ho hmid) h

-- The graph has the declared classes only.
theorem mem_classes_add {g : Inheritance.Graph} {name added : String} {bases : List String}
    (h : name ∈ (g.add added bases).classes) : name ∈ g.classes ∨ name = added := by
  rw [Inheritance.Graph.classes_add] at h
  split at h
  · exact .inl h
  · simpa using h

theorem mem_classes_foldl {classes : List ContractDecl} {g : Inheritance.Graph} {name : String}
    (h : name ∈ (classes.foldl (fun g c => g.add c.name c.bases.reverse) g).classes) :
    name ∈ g.classes ∨ name ∈ classes.map (·.name) := by
  induction classes generalizing g with
  | nil => exact .inl h
  | cons c classes ih =>
      rw [List.map_cons, List.mem_cons]
      rcases ih h with hg | hrest
      · rcases mem_classes_add hg with hg | hc
        · exact .inl hg
        · exact .inr (.inl hc)
      · exact .inr (.inr hrest)

-- Each class has the base list that it declares.
theorem lookup_foldl {classes : List ContractDecl} {g : Inheritance.Graph} {name : String}
    (h : name ∉ classes.map (·.name)) :
    (classes.foldl (fun g c => g.add c.name c.bases.reverse) g).entries.lookup name = g.entries.lookup name := by
  induction classes generalizing g with
  | nil => rfl
  | cons c classes ih =>
      rw [List.map_cons, List.mem_cons, not_or] at h
      obtain ⟨hc, hrest⟩ := h
      rw [List.foldl_cons, ih hrest, Inheritance.Graph.lookup_add, if_neg hc]

theorem bases_graphOf {classes : List ContractDecl} (hnodup : (classes.map (·.name)).Nodup) {c : ContractDecl}
    (hc : c ∈ classes) : (graphOf classes).bases c.name = c.bases.reverse := by
  obtain ⟨before, rest, rfl⟩ := List.append_of_mem hc
  rw [List.map_append, List.map_cons] at hnodup
  have hrest : c.name ∉ rest.map (·.name) := (List.nodup_cons.mp hnodup.of_append_right).1
  rw [graphOf, List.foldl_append, List.foldl_cons, Inheritance.Graph.bases, lookup_foldl hrest,
    Inheritance.Graph.lookup_add, if_pos rfl, Option.getD_some]

theorem mem_of_linearize {classes : List ContractDecl} {name : String} {chain : List String}
    (h : (graphOf classes).linearize name = .ok chain) :
    ∀ k ∈ chain, k ∈ classes.map (·.name) := by
  intro k hk
  have hordered := Inheritance.Graph.linearize_eq_ok_iff.mp h
  obtain ⟨order, horder⟩ := hordered.reaches_ordered ((hordered.mem_iff k).mp hk)
  have hmem : k ∈ (graphOf classes).classes := by
    simpa [Inheritance.Graph.has] using horder.founded.registered
  exact (mem_classes_foldl hmem).resolve_left (by simp [Inheritance.Graph.classes])

-- A class and the same class with its chain, of which `names` are known.
def Ordered (names : List String) (c c' : ContractDecl) : Prop :=
  c'.name = c.name ∧ c'.functions = c.functions ∧ ∀ k ∈ c'.chain, k ∈ names

theorem forall₂_of_mapM {α β : Type} {f : α → Except Diagnostic β} {R : α → β → Prop}
    (hf : ∀ x y, f x = .ok y → R x y) {xs : List α} {ys : List β} (h : xs.mapM f = .ok ys) :
    List.Forall₂ R xs ys := by
  induction xs generalizing ys with
  | nil =>
      cases h
      exact .nil
  | cons x xs ih =>
      rw [List.mapM_cons] at h
      obtain ⟨y, hy, h⟩ := bind_eq_ok.mp h
      obtain ⟨rest, hrest, h⟩ := bind_eq_ok.mp h
      cases h
      exact .cons (hf x y hy) (ih hrest)

theorem sound_orderClasses (ho : o.Bare) (h : orderClasses o = .ok o') : o'.Sound [] := by
  unfold orderClasses at h
  obtain ⟨classes, hclasses, h⟩ := bind_eq_ok.mp h
  cases h
  have hordered : List.Forall₂ (Ordered (o.classes.map (·.name))) o.classes classes := by
    refine forall₂_of_mapM (fun c c' hc => ?_) hclasses
    split at hc
    · next order horder =>
        cases hc
        exact ⟨rfl, rfl, mem_of_linearize horder⟩
    · cases hc
  have hnames : classes.map (·.name) = o.classes.map (·.name) := by
    rw [← List.forall₂_eq_eq_eq, List.forall₂_map_left_iff, List.forall₂_map_right_iff]
    exact hordered.flip.imp fun _ _ h => h.1
  have hparts (c : ContractDecl) (hc : c ∈ classes) : c.functions = [] ∧
      ∀ k ∈ c.chain, k ∈ o.classes.map (·.name) := by
    obtain ⟨i, hi, rfl⟩ := List.mem_iff_getElem.mp hc
    have hi' : i < o.classes.length := hordered.length_eq ▸ hi
    obtain ⟨-, hfunctions, hchain⟩ := hordered.get hi' hi
    exact ⟨hfunctions.trans (ho.functions _ (List.get_mem _ _)), hchain⟩
  refine ⟨hnames ▸ ho.names_nodup, ?_, ?_, ?_, by simp⟩
  · intro c hc k hk
    rw [hnames]
    exact (hparts c hc).2 k hk
  · intro c hc f hf
    simp [(hparts c hc).1] at hf
  · intro c hc i f hf
    simp [(hparts c hc).1] at hf

theorem sound_declareUnit {unit : Solidity.SourceUnit} {draft : Draft}
    (h : declareUnit unit = .ok draft) : draft.outline.Sound draft.pending := by
  have hempty : ({} : Outline).Bare := ⟨by simp, by simp⟩
  unfold declareUnit at h
  obtain ⟨names, hnames, h⟩ := bind_eq_ok.mp h
  obtain ⟨ordered, hordered, h⟩ := bind_eq_ok.mp h
  obtain ⟨⟨_, d⟩, hparts, h⟩ := bind_eq_ok.mp h
  cases h
  exact builds_declareParts _ _ _ _ _ hparts (sound_orderClasses (bare_foldlM hempty hnames) hordered)

end RustContracts.Resolve
