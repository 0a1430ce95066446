import RustContracts.Proofs.Program.Subterms
import RustContracts.Proofs.Resolve.Declared

-- Declaring leaves all code to be resolved later: no step of it gives a class or the file an expression. What it gives
-- are names, those of functions and fields by the identifiers for their names in the source, and places for what is put
-- off.
namespace RustContracts

namespace Program

-- The expressions in the code of an implementation, of a function and of a class.

def Implementation.exprs (i : Implementation) : List Expr :=
  i.body.toList.flatMap Block.exprs ++ i.modifiers.flatMap fun m => m.args

def Function.exprs (f : Function) : List Expr := f.implementations.flatMap Implementation.exprs

def ContractDecl.exprs (c : ContractDecl) : List Expr :=
  (c.constructor.toList ++ c.functions ++ c.modifiers).flatMap Function.exprs ++
    c.fields.flatMap (fun f => f.value.toList) ++ c.constants.flatMap (fun k => k.value.toList) ++
    c.baseCalls.flatMap fun b => b.args

-- Functions and fields go by the identifiers for their names.
structure ContractDecl.Named (c : ContractDecl) : Prop where
  functions : ∀ f ∈ c.functions, f.name = Rust.Name.value f.sourceName
  fields : ∀ f ∈ c.fields, f.name = Rust.Name.value f.sourceName

-- Code stands in one implementation, whose parameters have names; constructors and modifiers return nothing. Arguments
-- for base constructors come from the class itself.
structure ContractDecl.Formed (c : ContractDecl) : Prop where
  single : ∀ f ∈ c.constructor.toList ++ c.functions ++ c.modifiers,
    ∃ impl, f.implementations = [impl] ∧ ∀ p ∈ impl.params, p.name ≠ ""
  noReturns : ∀ f ∈ c.constructor.toList ++ c.modifiers, ∀ impl ∈ f.implementations, impl.returns = []
  declarer : ∀ b ∈ c.baseCalls, b.declarer = c.name

end Program

namespace Resolve

open Program

variable {o o' o'' : Outline} {c c' c'' : ContractDecl} {α β : Type}

-- A class with a constructor in which something can be noted.
def HasConstructor (c : ContractDecl) : Prop := ∃ f, c.constructor = some f ∧ f.implementations ≠ []

-- The second class is the first with more declarations, but no more code.
structure Adds (c c' : ContractDecl) : Prop where
  name : c'.name = c.name
  chain : c'.chain = c.chain
  bases : c'.bases = c.bases
  exprs : c'.exprs ⊆ c.exprs
  named : c.Named → c'.Named
  formed : c.Formed → c'.Formed
  constructor : HasConstructor c → HasConstructor c'
  baseCalls : c.baseCalls <+: c'.baseCalls

theorem Adds.refl (c : ContractDecl) : Adds c c :=
  ⟨rfl, rfl, rfl, List.Subset.refl _, id, id, id, List.prefix_refl _⟩

theorem Adds.trans (h : Adds c c') (h' : Adds c' c'') : Adds c c'' :=
  ⟨h'.name.trans h.name, h'.chain.trans h.chain, h'.bases.trans h.bases, List.Subset.trans h'.exprs h.exprs, h'.named ∘ h.named,
    h'.formed ∘ h.formed, h'.constructor ∘ h.constructor, h.baseCalls.trans h'.baseCalls⟩

-- What a class is called, where it stands and what constructs it.
def place (c : ContractDecl) : String × List String × List String × Option Function × List BaseCall :=
  (c.name, c.chain, c.bases, c.constructor, c.baseCalls)

theorem Adds.of_place (h : place c' = place c) (hexprs : c'.exprs ⊆ c.exprs) (hnamed : c.Named → c'.Named)
    (hformed : c.Formed → c'.Formed) : Adds c c' := by
  simp only [place, Prod.mk.injEq] at h
  obtain ⟨hname, hchain, hbases, hconstructor, hcalls⟩ := h
  exact ⟨hname, hchain, hbases, hexprs, hnamed, hformed, by simp [HasConstructor, hconstructor],
    hcalls ▸ List.prefix_refl _⟩

-- Declarations that are neither functions nor modifiers nor fields.
theorem Adds.of_same (h : place c' = place c) (hexprs : c'.exprs ⊆ c.exprs) (hfunctions : c'.functions = c.functions)
    (hmodifiers : c'.modifiers = c.modifiers) (hfields : c'.fields = c.fields) : Adds c c' := by
  refine .of_place h hexprs (fun h => ⟨hfunctions ▸ h.functions, hfields ▸ h.fields⟩) fun hc => ?_
  simp only [place, Prod.mk.injEq] at h
  obtain ⟨hname, -, -, hconstructor, hcalls⟩ := h
  exact ⟨by rw [hconstructor, hfunctions, hmodifiers]; exact hc.single,
    by rw [hconstructor, hmodifiers]; exact hc.noReturns, by rw [hcalls, hname]; exact hc.declarer⟩

def Outline.fileExprs (o : Outline) : List Expr := o.constants.flatMap fun k => k.value.toList

structure Extends (o o' : Outline) : Prop where
  classes : ∃ add : ContractDecl → ContractDecl, o'.classes = o.classes.map add ∧ ∀ c, Adds c (add c)
  file : o'.fileExprs ⊆ o.fileExprs

theorem Extends.refl (o : Outline) : Extends o o :=
  ⟨⟨id, by simp, Adds.refl⟩, List.Subset.refl _⟩

theorem Extends.trans (h : Extends o o') (h' : Extends o' o'') : Extends o o'' := by
  obtain ⟨add, hclasses, hadd⟩ := h.classes
  obtain ⟨add', hclasses', hadd'⟩ := h'.classes
  refine ⟨⟨add' ∘ add, by rw [hclasses', hclasses, List.map_map], fun c => ?_⟩, List.Subset.trans h'.file h.file⟩
  exact (hadd c).trans (hadd' (add c))

-- The constructor of a class gives arguments for an ancestor of it.
def GivesArgs (c : ContractDecl) (i : Nat) : Prop :=
  ∃ base, (c.baseCalls.map (·.base))[i]? = some base ∧ base ∈ c.chain.drop 1

-- A class with a constructor that stays one, and arguments for bases that stay where they are.
structure Stays (c c' : ContractDecl) : Prop where
  constructor : HasConstructor c → HasConstructor c'
  gives : ∀ i, GivesArgs c i → GivesArgs c' i

theorem GivesArgs.mono {i : Nat} (h : GivesArgs c i) (hcalls : c.baseCalls.map (·.base) <+: c'.baseCalls.map (·.base))
    (hchain : c'.chain = c.chain) : GivesArgs c' i := by
  obtain ⟨base, hi, hbase⟩ := h
  obtain ⟨later, hlater⟩ := hcalls
  refine ⟨base, ?_, hchain ▸ hbase⟩
  rw [← hlater, List.getElem?_append_left (List.getElem?_eq_some_iff.mp hi).1]
  exact hi

theorem Adds.stays (h : Adds c c') : Stays c c' :=
  ⟨h.constructor, fun _ hi => hi.mono (h.baseCalls.map _) h.chain⟩

-- A value of a field or constant is put off for no code of its class, and the arguments for a base constructor for none
-- or for the constructor, which is there.
def Pending.At (c : ContractDecl) (p : Pending) : Prop :=
  match p.task with
  | .fieldValue _ _ | .constantValue _ _ => p.code = none
  | .baseArgs i _ => p.code = none ∨ p.code = some .constructor ∧ HasConstructor c ∧ GivesArgs c i
  | _ => True

def Pending.Placed (o : Outline) (p : Pending) : Prop :=
  ∀ name c, p.owner = some name → o.class? name = some c → p.At c

variable {p : Pending}

theorem Pending.At.imp (hp : p.At c) (h : Stays c c') : p.At c' := by
  unfold Pending.At at hp ⊢
  split at hp
  · exact hp
  · exact hp
  · exact hp.imp_right fun ⟨hcode, hc, hgives⟩ => ⟨hcode, h.constructor hc, h.gives _ hgives⟩
  · trivial

-- What is put off for no code can stand in any class.
theorem Pending.at_of_code (h : p.code = none) (c : ContractDecl) : p.At c := by
  unfold Pending.At
  split
  · exact h
  · exact h
  · exact .inl h
  · trivial

-- The same class when classes change but for their names.
theorem class?_of_map {change : ContractDecl → ContractDecl} (hclasses : o'.classes = o.classes.map change)
    (hname : ∀ c, (change c).name = c.name) (name : String) : o'.class? name = (o.class? name).map change := by
  rw [Outline.class?, hclasses, List.find?_map, Outline.class?]
  congr 2
  funext c
  rw [Function.comp_apply, hname]

theorem Pending.Placed.of_map {change : ContractDecl → ContractDecl} (hp : p.Placed o)
    (hclasses : o'.classes = o.classes.map change) (hname : ∀ c, (change c).name = c.name)
    (hstays : ∀ c ∈ o.classes, Stays c (change c)) : p.Placed o' := by
  intro name c howner hc
  rw [class?_of_map hclasses hname, Option.map_eq_some_iff] at hc
  obtain ⟨k, hk, rfl⟩ := hc
  exact (hp name k howner hk).imp (hstays k (List.mem_of_find?_eq_some hk))

theorem Extends.class? (h : Extends o o') :
    ∃ add, (∀ name, o'.class? name = (o.class? name).map add) ∧ ∀ c, Adds c (add c) := by
  obtain ⟨add, hclasses, hadd⟩ := h.classes
  exact ⟨add, class?_of_map hclasses fun c => (hadd c).name, hadd⟩

theorem Pending.Placed.extend (hp : p.Placed o) (h : Extends o o') : p.Placed o' := by
  obtain ⟨add, hclasses, hadd⟩ := h.classes
  exact hp.of_map hclasses (fun c => (hadd c).name) fun c _ => (hadd c).stays

-- A draft with more declarations, but no more code. What has been put off since has its place.
structure Proceeds (d d' : Draft) : Prop where
  outline : Extends d.outline d'.outline
  pending : ∀ p ∈ d'.pending, p ∈ d.pending ∨ p.Placed d'.outline

theorem Proceeds.trans {d d' d'' : Draft} (h : Proceeds d d') (h' : Proceeds d' d'') : Proceeds d d'' := by
  refine ⟨h.outline.trans h'.outline, fun p hp => ?_⟩
  rcases h'.pending p hp with hp | hp
  · exact (h.pending p hp).imp_right fun hp => hp.extend h'.outline
  · exact .inr hp

-- A step that puts nothing off.
theorem Proceeds.of_pending {d d' : Draft} (h : Extends d.outline d'.outline) (hpending : d'.pending = d.pending) :
    Proceeds d d' := ⟨h, fun _ hp => .inl (hpending ▸ hp)⟩

theorem Proceeds.refl (d : Draft) : Proceeds d d := .of_pending (.refl _) rfl

-- A step of declaring that adds no code.
def Keeps (act : Declare α) : Prop :=
  ∀ d a d', Declares act d a d' → Proceeds d d'

theorem keeps_pure (a : α) : Keeps (pure a) := by
  intro d b d' h
  obtain ⟨-, rfl⟩ := declares_pure.mp h
  exact .refl _

theorem keeps_throw (e : Diagnostic) : Keeps (throw e : Declare α) :=
  fun _ _ _ h => absurd h not_declares_throw

theorem not_declares_throw_bind {e : Diagnostic} {f : α → Declare β} {d d' : Draft} {b : β} :
    ¬Declares ((throw e : Declare α) >>= f) d b d' := by
  intro h
  obtain ⟨a, d₁, hthrow, -⟩ := declares_bind.mp h
  exact not_declares_throw hthrow

theorem keeps_throw_bind (e : Diagnostic) (f : α → Declare β) : Keeps ((throw e : Declare α) >>= f) :=
  fun _ _ _ h => absurd h not_declares_throw_bind

theorem keeps_bind {x : Declare α} {f : α → Declare β} (hx : Keeps x) (hf : ∀ a, Keeps (f a)) :
    Keeps (x >>= f) := by
  intro d b d' h
  obtain ⟨a, d₁, hx', hf'⟩ := declares_bind.mp h
  exact (hx d a d₁ hx').trans (hf a d₁ b d' hf')

theorem keeps_get : Keeps (get : Declare Draft) := by
  intro d s d' h
  obtain ⟨-, rfl⟩ := declares_get.mp h
  exact .refl _

theorem keeps_modify {f : Draft → Draft} (hf : ∀ d, Extends d.outline (f d).outline)
    (hpending : ∀ d, (f d).pending = d.pending) : Keeps (modify f) := by
  intro d u d' h
  exact declares_modify.mp h ▸ .of_pending (hf d) (hpending d)

theorem keeps_modifyOutline {f : Outline → Outline} (hclasses : ∀ o, (f o).classes = o.classes)
    (hfile : ∀ o, (f o).fileExprs ⊆ o.fileExprs) : Keeps (modifyOutline f) :=
  keeps_modify (fun d => ⟨⟨id, by simp [hclasses], Adds.refl⟩, hfile d.outline⟩) fun _ => rfl

theorem keeps_modifyClass (name : String) {f : ContractDecl → ContractDecl} (hf : ∀ c, c.name = name → Adds c (f c)) :
    Keeps (modifyClass name f) := by
  refine keeps_modify (fun d => ⟨⟨fun c => if c.name = name then f c else c, rfl, fun c => ?_⟩, ?_⟩) fun _ => rfl
  · dsimp only
    split
    · next hname => exact hf c hname
    · exact .refl c
  · exact List.Subset.refl _

theorem keeps_putOff (hp : ∀ c, p.At c) : Keeps (putOff p) := by
  intro d u d' h
  obtain rfl := declares_modify.mp h
  refine ⟨.refl _, fun q hq => ?_⟩
  rcases List.mem_append.mp hq with hq | hq
  · exact .inl hq
  · obtain rfl := List.mem_singleton.mp hq
    exact .inr fun _ c _ _ => hp c

theorem keeps_forM {f : α → Declare Unit} (hf : ∀ a, Keeps (f a)) (xs : List α) : Keeps (xs.forM f) := by
  induction xs with
  | nil => exact keeps_pure ()
  | cons x xs ih => exact keeps_bind (hf x) fun _ => ih

-- Members.

theorem keeps_classNamed (name : String) : Keeps (classNamed name) :=
  keeps_bind keeps_get fun _ => keeps_pure _

theorem keeps_declaredType (scope : Option String) (t : Solidity.TypeName) :
    Keeps (declaredType scope t) := by
  refine keeps_bind keeps_get fun d => ?_
  dsimp only
  split
  · exact keeps_pure _
  · exact keeps_throw _

theorem keeps_declaredParams (scope : Option String) (unnamed : String) (i : Nat)
    (ps : List Solidity.Parameter) : Keeps (declaredParams scope unnamed i ps) := by
  induction ps generalizing i with
  | nil => exact keeps_pure []
  | cons p ps ih =>
      refine keeps_bind (keeps_declaredType scope p.type) fun t => ?_
      exact keeps_bind (ih (i + 1)) fun _ => keeps_pure _

-- Parameters without a name are numbered.
theorem names_declaredParams {scope : Option String} {unnamed : String} (hunnamed : unnamed ≠ "") {i : Nat}
    {ps : List Solidity.Parameter} {d d' : Draft} {params : List Param}
    (h : Declares (declaredParams scope unnamed i ps) d params d') : ∀ p ∈ params, p.name ≠ "" := by
  induction ps generalizing i d d' params with
  | nil =>
      obtain ⟨rfl, -⟩ := declares_pure.mp h
      nofun
  | cons p ps ih =>
      obtain ⟨t, d₁, -, h⟩ := declares_bind.mp h
      obtain ⟨rest, d₂, hrest, h⟩ := declares_bind.mp h
      obtain ⟨rfl, -⟩ := declares_pure.mp h
      refine List.forall_mem_cons.mpr ⟨?_, ih hrest⟩
      dsimp only
      split
      · simp [hunnamed]
      · next hname => simpa [hunnamed] using hname

theorem keeps_params_bind {scope : Option String} {i : Nat} {ps : List Solidity.Parameter}
    {f : List Param → Declare β} (hf : ∀ params, (∀ p ∈ params, p.name ≠ "") → Keeps (f params)) :
    Keeps (declaredParams scope "_" i ps >>= f) := by
  intro d b d' h
  obtain ⟨params, d₁, hparams, h⟩ := declares_bind.mp h
  exact (keeps_declaredParams scope "_" i ps d params d₁ hparams).trans
    (hf params (names_declaredParams (by decide) hparams) d₁ b d' h)

-- What has no code can be added anywhere.
theorem keeps_addDeclaration (owner : Option String) {f : ContractDecl → ContractDecl} {g : Outline → Outline}
    (hf : ∀ c, place (f c) = place c ∧ (f c).exprs = c.exprs ∧ (f c).functions = c.functions ∧
      (f c).modifiers = c.modifiers ∧ (f c).fields = c.fields)
    (hg : ∀ o, (g o).classes = o.classes ∧ (g o).constants = o.constants) :
    Keeps (match owner with
      | some c => modifyClass c f
      | none => modifyOutline g) := by
  split
  · refine keeps_modifyClass _ fun c _ => ?_
    obtain ⟨hsame, hexprs, hfunctions, hmodifiers, hfields⟩ := hf c
    exact .of_same hsame (hexprs ▸ List.Subset.refl _) hfunctions hmodifiers hfields
  · refine keeps_modifyOutline (fun o => (hg o).1) fun o => ?_
    rw [Outline.fileExprs, (hg o).2, Outline.fileExprs]
    exact List.Subset.refl _

theorem keeps_declareStruct (owner : Option String) (index : Nat) (s : Solidity.StructDefinition) :
    Keeps (declareStruct owner index s) := by
  have hadd (p : Param) : Keeps (addStructField owner index p) :=
    keeps_addDeclaration owner (fun _ => ⟨rfl, rfl, rfl, rfl, rfl⟩) fun _ => ⟨rfl, rfl⟩
  refine keeps_forM (fun f => ?_) _
  refine keeps_bind (keeps_declaredType owner f.type) fun t => ?_
  dsimp only
  split
  · exact keeps_throw_bind _ _
  · exact hadd _

theorem keeps_declareEvent (owner : Option String) (e : Solidity.EventDefinition) :
    Keeps (declareEvent owner e) := by
  have hfields (i : Nat) (ps : List Solidity.EventParameter) : Keeps (eventFields owner i ps) := by
    induction ps generalizing i with
    | nil => exact keeps_pure []
    | cons p ps ih =>
        refine keeps_bind (keeps_declaredType owner p.type) fun t => ?_
        exact keeps_bind (ih (i + 1)) fun _ => keeps_pure _
  refine keeps_bind (hfields 0 e.params) fun fields => ?_
  exact keeps_addDeclaration owner (fun _ => ⟨rfl, rfl, rfl, rfl, rfl⟩) fun _ => ⟨rfl, rfl⟩

theorem keeps_declareError (owner : Option String) (e : Solidity.ErrorDefinition) :
    Keeps (declareError owner e) := by
  refine keeps_bind (keeps_declaredParams _ _ _ _) fun fields => keeps_bind keeps_get fun d => ?_
  refine keeps_bind (keeps_modify (fun _ => .refl _) fun _ => rfl) fun _ => ?_
  exact keeps_addDeclaration owner (fun _ => ⟨rfl, rfl, rfl, rfl, rfl⟩) fun _ => ⟨rfl, rfl⟩

theorem keeps_declareConstant (owner : Option String) (v : Solidity.StateVariable) :
    Keeps (declareConstant owner v) := by
  refine keeps_bind (keeps_declaredType _ _) fun t => ?_
  split
  · exact keeps_throw _
  · refine keeps_bind keeps_get fun d => ?_
    dsimp only
    split
    · refine keeps_bind (keeps_classNamed _) fun c => ?_
      refine keeps_bind (keeps_modifyClass _ fun c _ => ?_) fun _ => keeps_putOff fun _ => rfl
      exact .of_same rfl (by simp [ContractDecl.exprs]) rfl rfl rfl
    · refine keeps_bind (keeps_modifyOutline (fun _ => rfl) fun o => ?_) fun _ => keeps_putOff fun _ => rfl
      simp [Outline.fileExprs]

theorem keeps_addField (owner : String) {field : StorageField} (value : Option Solidity.Expression)
    (hvalue : field.value = none) (hname : field.name = Rust.Name.value field.sourceName) : Keeps (do
    let index := (← classNamed owner).fields.length
    modifyClass owner fun c => { c with fields := c.fields ++ [field] }
    if let some value := value then
      putOff { owner := some owner, task := .fieldValue index value } : Declare Unit) := by
  refine keeps_bind (keeps_classNamed _) fun c => keeps_bind (keeps_modifyClass _ fun c _ => ?_) fun _ => ?_
  · refine .of_place rfl (by simp [ContractDecl.exprs, hvalue]) (fun h => ⟨h.functions, ?_⟩)
      fun h => ⟨h.single, h.noReturns, h.declarer⟩
    exact List.forall_mem_append.mpr ⟨h.fields, by simpa using hname⟩
  · split
    · exact keeps_putOff (Pending.at_of_code rfl)
    · exact keeps_pure ()

theorem keeps_declareVariable (owner : String) (v : Solidity.StateVariable) :
    Keeps (declareVariable owner v) := by
  refine keeps_bind (keeps_declaredType _ _) fun t => ?_
  dsimp only
  split
  · exact keeps_declareConstant _ _
  · split
    · exact keeps_throw_bind _ _
    · exact keeps_addField _ _ rfl rfl

theorem keeps_declareModifier (owner : String) (m : Solidity.ModifierDefinition) :
    Keeps (declareModifier owner m) := by
  refine keeps_params_bind fun params hparams => keeps_bind (keeps_classNamed _) fun c => ?_
  refine keeps_bind (keeps_modifyClass _ fun c _ => ?_) fun _ => ?_
  · refine .of_place rfl (by simp [ContractDecl.exprs, Function.exprs, Implementation.exprs])
      (fun h => ⟨h.functions, h.fields⟩) fun h => ⟨?_, ?_, h.declarer⟩
    · rw [← List.append_assoc]
      exact List.forall_mem_append.mpr ⟨h.single, List.forall_mem_singleton.mpr ⟨_, rfl, hparams⟩⟩
    · rw [← List.append_assoc]
      refine List.forall_mem_append.mpr ⟨h.noReturns, List.forall_mem_singleton.mpr ?_⟩
      exact List.forall_mem_singleton.mpr rfl
  · split
    · exact keeps_putOff fun _ => trivial
    · exact keeps_pure ()

theorem keeps_declareUsing (owner : String) (u : Solidity.UsingDirective) :
    Keeps (declareUsing owner u) := by
  refine keeps_bind keeps_get fun d => ?_
  split
  · next lib _ =>
      have hadd : Keeps (do
          let target ← u.target.mapM (declaredType (some owner))
          modifyClass owner fun c => { c with usings := c.usings ++ [⟨lib.name, target⟩] }) := by
        refine keeps_bind ?_ fun target =>
          keeps_modifyClass _ fun _ _ => .of_same rfl (List.Subset.refl _) rfl rfl rfl
        cases u.target with
        | none => exact keeps_pure _
        | some t => exact keeps_bind (keeps_declaredType _ _) fun _ => keeps_pure _
      split
      · exact keeps_throw_bind _ _
      · exact hadd
  · exact keeps_throw _

theorem adds_baseCall (call : BaseCall) (hcall : call.args = []) (c : ContractDecl) (hname : c.name = call.declarer) :
    Adds c { c with baseCalls := c.baseCalls ++ [call] } := by
  refine ⟨rfl, rfl, rfl, by simp [ContractDecl.exprs, hcall], fun h => ⟨h.functions, h.fields⟩,
    fun h => ⟨h.single, h.noReturns, ?_⟩, id, List.prefix_append _ _⟩
  exact List.forall_mem_append.mpr ⟨h.declarer, List.forall_mem_singleton.mpr hname.symm⟩

-- Functions. What is put off for one has its place in the implementation, but no code yet; its attributes leave its
-- name alone.

theorem name_plainSignature {k : ContractDecl} {f : Solidity.FunctionDefinition} {s : Signature}
    (h : plainSignature k f = .ok s) (hkind : s.kind ≠ .constructor) : s.name = Rust.Name.value s.sourceName := by
  unfold plainSignature at h
  -- the kind of the class only decides how the function is seen
  cases hk : k.kind <;> rw [hk] at h <;> dsimp only at h <;> split at h
  all_goals try split at h
  all_goals cases h
  all_goals first | rfl | exact absurd rfl hkind

def SameNames (s s' : Signature) : Prop := s'.kind = s.kind ∧ s'.name = s.name ∧ s'.sourceName = s.sourceName

-- Arguments are put off, those for a base constructor only if the constructor of a class gives them to an ancestor.
def Pending.OfAttribute (o : Outline) (c : ContractDecl) (code : CodeOwner) (s : Signature) (p : Pending) : Prop :=
  match p.task with
  | .baseArgs i _ => p.code = some code ∧ p.owner = some c.name ∧ c.chain ≠ [] ∧ s.kind = .constructor ∧
    ∀ k, o.class? c.name = some k → GivesArgs k i
  | .modifierArgs _ _ => True
  | _ => False

theorem Pending.OfAttribute.extend {code : CodeOwner} {s s' : Signature} (hp : p.OfAttribute o c code s)
    (h : Extends o o') (hkind : s.kind = s'.kind) : p.OfAttribute o' c code s' := by
  unfold Pending.OfAttribute at hp ⊢
  split at hp
  · obtain ⟨hcode, howner, hchain, hconstructor, hgives⟩ := hp
    refine ⟨hcode, howner, hchain, hkind ▸ hconstructor, fun k hk => ?_⟩
    obtain ⟨add, hclass, hadd⟩ := h.class?
    rw [hclass, Option.map_eq_some_iff] at hk
    obtain ⟨k, hk, rfl⟩ := hk
    exact (hadd k).stays.gives _ (hgives k hk)
  · trivial
  · exact hp

-- What a change of one class leads to.
theorem class?_modify (o : Outline) (name : String) {f : ContractDecl → ContractDecl} (hf : ∀ c, (f c).name = c.name) :
    Outline.class? { o with classes := o.classes.map fun c => if c.name = name then f c else c } name =
      (o.class? name).map f := by
  rw [Outline.class?, List.find?_map, Outline.class?]
  have hsame : ((fun c : ContractDecl => decide (c.name = name)) ∘ fun c => if c.name = name then f c else c) =
      fun c => decide (c.name = name) := by
    funext c
    rw [Function.comp_apply]
    split
    · next h => rw [hf]
    · rfl
  rw [hsame]
  cases hfind : o.classes.find? fun c => decide (c.name = name) with
  | none => rfl
  | some c =>
      have hname : c.name = name := by simpa using List.find?_some hfind
      simp [hname]

-- What reading attributes leads to.
structure ReadsAttributes (c : ContractDecl) (code : CodeOwner) (d d' : Draft) (s s' : Signature)
    (impl' : Implementation) : Prop where
  outline : Extends d.outline d'.outline
  pending : ∀ p ∈ d'.pending, p ∈ d.pending ∨ p.OfAttribute d'.outline c code s
  blank : impl'.exprs = []
  names : SameNames s s'

-- The class is the one that is found under its name, if it has ancestors.
def Known (o : Outline) (c : ContractDecl) : Prop := c.chain ≠ [] → ∀ k, o.class? c.name = some k → k.chain = c.chain

theorem Known.extend (hc : Known o c) (h : Extends o o') : Known o' c := by
  intro hchain k hk
  obtain ⟨add, hclass, hadd⟩ := h.class?
  rw [hclass, Option.map_eq_some_iff] at hk
  obtain ⟨k, hk, rfl⟩ := hk
  rw [(hadd k).chain]
  exact hc hchain k hk

theorem declareAttribute_blank {d d' : Draft} {code : CodeOwner} {s : Signature} {impl : Implementation}
    {a : Solidity.FunctionAttribute} {r : Signature × Implementation} (hc : Known d.outline c)
    (h : Declares (declareAttribute c code s impl a) d r d') (himpl : impl.exprs = []) :
    ReadsAttributes c code d d' s r.1 r.2 := by
  have hquiet (q : Signature × Implementation) (hq : q.2.exprs = []) (hsame : SameNames s q.1)
      (h : Declares (pure q) d r d') : ReadsAttributes c code d d' s r.1 r.2 := by
    obtain ⟨rfl, rfl⟩ := declares_pure.mp h
    exact ⟨.refl _, fun p hp => .inl hp, hq, hsame⟩
  cases a with
  | visibility _ word => exact hquiet _ himpl ⟨rfl, rfl, rfl⟩ h
  | mutability _ word => exact hquiet _ himpl ⟨rfl, rfl, rfl⟩ h
  | isVirtual _ => exact hquiet _ himpl ⟨rfl, rfl, rfl⟩ h
  | isOverride _ _ => exact hquiet _ himpl ⟨rfl, rfl, rfl⟩ h
  | modifier _ inv =>
      rw [declareAttribute] at h
      split at h
      · next hbase =>
          obtain ⟨hkind, hchain⟩ : s.kind = .constructor ∧ (c.chain.drop 1).contains inv.name = true := by simpa using hbase
          obtain ⟨k, d₁, hclass, h⟩ := declares_bind.mp h
          obtain ⟨_, d₂, hcall, h⟩ := declares_bind.mp h
          obtain ⟨_, d₃, hargs, h⟩ := declares_bind.mp h
          obtain ⟨hk, rfl⟩ := declares_classNamed.mp hclass
          obtain rfl := declares_modify.mp hargs
          obtain ⟨rfl, rfl⟩ := declares_pure.mp h
          have hextends := keeps_modifyClass c.name
            (adds_baseCall ({ base := inv.name, declarer := c.name, start := inv.start } : BaseCall) rfl) _ _ _ hcall
          obtain rfl := declares_modify.mp hcall
          have hancestors : c.chain ≠ [] := fun hempty => by simp [hempty] at hchain
          refine ⟨hextends.outline, fun p hp => ?_, himpl, rfl, rfl, rfl⟩
          rcases List.mem_append.mp hp with hp | hp
          · exact .inl hp
          · obtain rfl := List.mem_singleton.mp hp
            refine .inr ⟨rfl, rfl, hancestors, hkind, fun k' hk' => ?_⟩
            have hmodified := (class?_modify d.outline c.name (f := fun k => { k with baseCalls := k.baseCalls ++
              [{ base := inv.name, declarer := c.name, start := inv.start }] }) (fun _ => rfl)).symm.trans hk'
            clear hk'
            obtain ⟨before, hbefore, rfl⟩ := Option.map_eq_some_iff.mp hmodified
            obtain rfl : before = k := by
              rw [hbefore, Option.getD_some] at hk
              exact hk
            refine ⟨inv.name, by simp, ?_⟩
            dsimp only
            rw [hc hancestors before hbefore]
            exact List.contains_iff_mem.mp hchain
      · have hblank : Implementation.exprs { impl with
            modifiers := impl.modifiers ++ [{ name := inv.name, start := inv.start }] } = [] := by
          simpa [Implementation.exprs] using himpl
        split at h
        · obtain ⟨_, d₁, hargs, h⟩ := declares_bind.mp h
          obtain rfl := declares_modify.mp hargs
          obtain ⟨rfl, rfl⟩ := declares_pure.mp h
          refine ⟨.refl _, fun p hp => ?_, hblank, rfl, rfl, rfl⟩
          rcases List.mem_append.mp hp with hp | hp
          · exact .inl hp
          · obtain rfl := List.mem_singleton.mp hp
            exact .inr trivial
        · exact hquiet _ hblank ⟨rfl, rfl, rfl⟩ h

theorem declareAttributes_blank {d d' : Draft} {code : CodeOwner} {attrs : List Solidity.FunctionAttribute}
    {start r : Signature × Implementation} (hc : Known d.outline c)
    (h : Declares (attrs.foldlM (fun (s, impl) a => declareAttribute c code s impl a) start) d r d')
    (hstart : start.2.exprs = []) : ReadsAttributes c code d d' start.1 r.1 r.2 := by
  induction attrs generalizing start d with
  | nil =>
      obtain ⟨rfl, rfl⟩ := declares_pure.mp h
      exact ⟨.refl _, fun p hp => .inl hp, hstart, rfl, rfl, rfl⟩
  | cons a attrs ih =>
      obtain ⟨mid, d₁, hmid, hrest⟩ := declares_bind.mp h
      have hfirst := declareAttribute_blank hc hmid hstart
      have hmore := ih (hc.extend hfirst.outline) hrest hfirst.blank
      obtain ⟨hkind, hname, hsource⟩ := hfirst.names
      obtain ⟨hkind', hname', hsource'⟩ := hmore.names
      refine ⟨hfirst.outline.trans hmore.outline, fun p hp => ?_, hmore.blank, hkind'.trans hkind, hname'.trans hname,
        hsource'.trans hsource⟩
      rcases hmore.pending p hp with hp | hp
      · exact (hfirst.pending p hp).imp_right fun hp => hp.extend hmore.outline rfl
      · exact .inr (hp.extend (.refl _) hkind)

-- A class that has ancestors is one that was found.
theorem found_of_ancestors {owner : String} {k : ContractDecl} (hk : (o.class? owner).getD default = k)
    (hchain : k.chain ≠ []) : o.class? owner = some k ∧ k.name = owner := by
  cases hclass : o.class? owner with
  | none =>
      rw [hclass] at hk
      exact absurd (congrArg ContractDecl.chain hk).symm hchain
  | some k' =>
      rw [hclass, Option.getD_some] at hk
      subst hk
      exact ⟨rfl, by simpa using List.find?_some hclass⟩

theorem known_of_getD {owner : String} {k : ContractDecl} (hk : (o.class? owner).getD default = k) : Known o k := by
  intro hchain k' hk'
  obtain ⟨hfound, hname⟩ := found_of_ancestors hk hchain
  rw [hname, hfound] at hk'
  rw [Option.some.inj hk']

-- A constructor is where the arguments for base constructors that its modifiers give have their place.
theorem placed_of_attribute {d : Draft} {o : Outline} {owner : String} {k : ContractDecl} {code : CodeOwner}
    {s : Signature} (hk : (d.outline.class? owner).getD default = k) (hcode : s.kind = .constructor → code = .constructor)
    (hconstructor : s.kind = .constructor → ∀ c ∈ o.classes, c.name = owner → HasConstructor c)
    (hp : p.OfAttribute o k code s) : p.Placed o := by
  intro name c howner hc
  unfold Pending.OfAttribute at hp
  unfold Pending.At
  split at hp
  · next htask =>
      obtain ⟨hpcode, hpowner, hchain, hkind, hgives⟩ := hp
      obtain rfl : k.name = name := Option.some.inj (hpowner.symm.trans howner)
      have hname : c.name = k.name := by simpa using List.find?_some hc
      rw [htask]
      refine .inr ⟨by rw [hpcode, hcode hkind], hconstructor hkind c (List.mem_of_find?_eq_some hc) ?_, hgives c hc⟩
      rw [hname, (found_of_ancestors hk hchain).2]
  · next htask =>
      rw [htask]
      trivial
  · exact absurd hp id

theorem keeps_putBody (owner : String) (code : CodeOwner) (body : Option Solidity.Block) : Keeps (match body with
    | some body => putOff { owner := some owner, code := some code, task := .body body }
    | _ => pure ()) := by
  split
  · exact keeps_putOff fun _ => trivial
  · exact keeps_pure ()

theorem keeps_declareFunction (owner : String) (f : Solidity.FunctionDefinition) :
    Keeps (declareFunction owner f) := by
  intro d u d' h
  unfold declareFunction at h
  obtain ⟨k, d₁, hclass, h⟩ := declares_bind.mp h
  obtain ⟨s, d₂, hlift, h⟩ := declares_bind.mp h
  obtain ⟨⟨s', impl⟩, d₃, hattrs, h⟩ := declares_bind.mp h
  obtain ⟨params, d₄, hparams, h⟩ := declares_bind.mp h
  obtain ⟨returns, d₅, hreturns, hadds⟩ := declares_bind.mp h
  clear h
  obtain ⟨hk, rfl⟩ := declares_classNamed.mp hclass
  obtain ⟨hsignature, rfl⟩ := declares_lift.mp hlift
  have hreads := declareAttributes_blank (known_of_getD hk) hattrs rfl
  obtain ⟨hkind, hname, hsource⟩ := hreads.names
  have hnames := names_declaredParams (by decide) hparams
  have htypes : Proceeds d₃ d₅ :=
    (keeps_declaredParams _ _ _ _ _ _ _ hparams).trans (keeps_declaredParams _ _ _ _ _ _ _ hreturns)
  have hfunction (s : Signature) :
      Function.exprs { s with implementations := [{ impl with params := params, returns := returns }] } = [] := by
    simpa [Function.exprs, Implementation.exprs] using hreads.blank
  have hbody (code : CodeOwner) := keeps_putBody owner code f.body
  suffices hrest : Proceeds d₅ d' ∧
      (s.kind = .constructor → ∀ c ∈ d'.outline.classes, c.name = owner → HasConstructor c) by
    refine ⟨hreads.outline.trans (htypes.trans hrest.1).outline, fun p hp => ?_⟩
    rcases (htypes.trans hrest.1).pending p hp with hp | hp
    · refine (hreads.pending p hp).imp_right fun hp => ?_
      have hextended := hp.extend (htypes.trans hrest.1).outline rfl
      exact placed_of_attribute hk (fun hkind => if_pos hkind) hrest.2 hextended
    · exact .inr hp
  dsimp only at hadds
  split at hadds
  · split at hadds
    · exact absurd hadds not_declares_throw_bind
    · split at hadds
      · exact absurd hadds not_declares_throw_bind
      · next hreturns' _ =>
        obtain ⟨_, d₆, hctor, hput⟩ := declares_bind.mp hadds
        have hadd : Keeps (modifyClass owner fun k => { k with constructor := some {
            s' with params := params, returns := returns, implementations := [{ impl with
              params := params, returns := returns }] } }) := by
          refine keeps_modifyClass _ fun k _ => ⟨rfl, rfl, rfl, ?_, fun h => ⟨h.functions, h.fields⟩,
            fun h => ⟨?_, ?_, h.declarer⟩, ?_, List.prefix_refl _⟩
          · simp [ContractDecl.exprs, hfunction]
          · have hsingle := h.single
            simp only [List.forall_mem_append] at hsingle ⊢
            exact ⟨⟨List.forall_mem_singleton.mpr ⟨_, rfl, hnames⟩, hsingle.1.2⟩, hsingle.2⟩
          · have hnone := h.noReturns
            simp only [List.forall_mem_append] at hnone ⊢
            exact ⟨List.forall_mem_singleton.mpr (List.forall_mem_singleton.mpr (by simpa using hreturns')), hnone.2⟩
          · exact fun _ => ⟨_, rfl, by simp⟩
        have hlast := hbody _ _ _ _ hput
        refine ⟨(hadd _ _ _ hctor).trans hlast, fun _ c hc hcname => ?_⟩
        obtain rfl := declares_modify.mp hctor
        obtain ⟨add, hclasses, hadds⟩ := hlast.outline.classes
        rw [hclasses] at hc
        obtain ⟨c', hc', rfl⟩ := List.mem_map.mp hc
        rw [(hadds c').name] at hcname
        obtain ⟨k', hk', rfl⟩ := List.mem_map.mp hc'
        refine (hadds _).constructor ?_
        dsimp only at hcname ⊢
        split
        · exact ⟨_, rfl, by simp⟩
        · next hother => exact absurd (by rwa [if_neg hother] at hcname) hother
  · next hctor =>
      have hplain : s.kind ≠ .constructor := fun h => hctor (hkind.trans h)
      have hidentifier : s'.name = Rust.Name.value s'.sourceName := by
        rw [hname, hsource]
        exact name_plainSignature hsignature hplain
      refine ⟨?_, fun h => absurd h hplain⟩
      obtain ⟨_, d₆, hmodify, hput⟩ := declares_bind.mp hadds
      refine (keeps_modifyClass owner (fun k _ => ?_) _ _ _ hmodify).trans (hbody _ _ _ _ hput)
      refine .of_place rfl ?_ (fun h => ⟨?_, h.fields⟩) fun h => ⟨?_, h.noReturns, h.declarer⟩
      · simp [ContractDecl.exprs, hfunction]
      · exact List.forall_mem_append.mpr ⟨h.functions, by simpa using hidentifier⟩
      · have hsingle := h.single
        simp only [List.forall_mem_append] at hsingle ⊢
        exact ⟨⟨hsingle.1.1, hsingle.1.2, List.forall_mem_singleton.mpr ⟨_, rfl, hnames⟩⟩, hsingle.2⟩

theorem keeps_declareMembers (owner : String) (structs : Nat) (parts : List Solidity.ContractPart) :
    Keeps (declareMembers owner structs parts) := by
  induction parts generalizing structs with
  | nil => exact keeps_pure ()
  | cons part parts ih =>
      cases part with
      | «using» _ u => exact keeps_bind (keeps_declareUsing _ _) fun _ => ih _
      | struct _ s => exact keeps_bind (keeps_declareStruct _ _ _) fun _ => ih _
      | enum _ _ => exact ih _
      | event _ e => exact keeps_bind (keeps_declareEvent _ _) fun _ => ih _
      | error _ e => exact keeps_bind (keeps_declareError _ _) fun _ => ih _
      | modifier _ m => exact keeps_bind (keeps_declareModifier _ _) fun _ => ih _
      | function _ f => exact keeps_bind (keeps_declareFunction _ _) fun _ => ih _
      | «variable» _ v => exact keeps_bind (keeps_declareVariable _ _) fun _ => ih _

theorem keeps_declareContract (d : Solidity.ContractDefinition) : Keeps (declareContract d) := by
  refine keeps_bind (keeps_forM (fun base => ?_) _) fun _ => keeps_declareMembers _ _ _
  dsimp only
  split
  · refine keeps_bind (keeps_classNamed _) fun k => ?_
    have hcall : ∀ c : ContractDecl, c.name = d.name → Adds c { c with baseCalls := c.baseCalls ++
        [{ base := base.name, declarer := d.name, start := base.start }] } := fun c hname => adds_baseCall _ rfl c hname
    exact keeps_bind (keeps_modifyClass _ hcall) fun _ => keeps_putOff (Pending.at_of_code rfl)
  · exact keeps_pure ()

theorem keeps_declareParts (structs : Nat) (parts : List Solidity.SourceUnitPart) :
    Keeps (declareParts structs parts) := by
  induction parts generalizing structs with
  | nil => exact keeps_pure ()
  | cons part parts ih =>
      cases part with
      | contract _ c => exact keeps_bind (keeps_declareContract _) fun _ => ih _
      | struct _ s => exact keeps_bind (keeps_declareStruct _ _ _) fun _ => ih _
      | event _ e => exact keeps_bind (keeps_declareEvent _ _) fun _ => ih _
      | error _ e => exact keeps_bind (keeps_declareError _ _) fun _ => ih _
      | constant _ k => exact keeps_bind (keeps_declareConstant _ _) fun _ => ih _
      | _ => exact ih _

-- An outline without code.
structure Outline.Blank (o : Outline) : Prop where
  classes : ∀ c ∈ o.classes, c.exprs = []
  named : ∀ c ∈ o.classes, c.Named
  formed : ∀ c ∈ o.classes, c.Formed
  file : o.fileExprs = []

theorem blank_declareNames {part : Solidity.SourceUnitPart} (ho : o.Blank)
    (h : declareNames o part = .ok o') : o'.Blank := by
  have hsame (hclasses : o'.classes = o.classes) (hfile : o'.fileExprs = o.fileExprs) : o'.Blank :=
    ⟨hclasses ▸ ho.classes, hclasses ▸ ho.named, hclasses ▸ ho.formed, hfile ▸ ho.file⟩
  cases part with
  | contract _ c =>
      rw [declareNames] at h
      split at h
      · cases h
      · cases h
        refine ⟨List.forall_mem_append.mpr ⟨ho.classes, ?_⟩, List.forall_mem_append.mpr ⟨ho.named, ?_⟩,
          List.forall_mem_append.mpr ⟨ho.formed, ?_⟩, ho.file⟩
        · simp [ContractDecl.exprs, contractDecl]
        · exact List.forall_mem_singleton.mpr ⟨by simp [contractDecl], by simp [contractDecl]⟩
        · exact List.forall_mem_singleton.mpr
            ⟨by simp [contractDecl], by simp [contractDecl], by simp [contractDecl]⟩
  | function _ f => cases h
  | _ =>
      cases h
      exact hsame rfl rfl

theorem blank_foldlM {parts : List Solidity.SourceUnitPart} (ho : o.Blank)
    (h : parts.foldlM declareNames o = .ok o') : o'.Blank := by
  induction parts generalizing o with
  | nil =>
      cases h
      exact ho
  | cons part parts ih =>
      rw [List.foldlM_cons] at h
      obtain ⟨mid, hmid, h⟩ := bind_eq_ok.mp h
      exact ih (blank_declareNames ho hmid) h

-- Every class has the order of its hierarchy, in which its bases stand the other way round.
def Outline.Ordered (graph : Inheritance.Graph) (o : Outline) : Prop :=
  ∀ c ∈ o.classes, graph.linearize c.name = .ok c.chain ∧ graph.bases c.name = c.bases.reverse

theorem ordered_orderClasses (ho : o.Blank) (hbare : o.Bare) (h : orderClasses o = .ok o') :
    o'.Ordered (graphOf o.classes) ∧ o'.Blank := by
  unfold orderClasses at h
  obtain ⟨classes, hclasses, h⟩ := bind_eq_ok.mp h
  cases h
  have hall : List.Forall₂ (fun c c' => (graphOf o.classes).linearize c'.name = .ok c'.chain ∧ c'.name = c.name ∧
      c'.bases = c.bases ∧ c'.exprs = c.exprs ∧ (c.Named → c'.Named) ∧ (c.Formed → c'.Formed)) o.classes classes := by
    refine forall₂_of_mapM (fun c c' hc => ?_) hclasses
    split at hc
    · next order horder =>
        cases hc
        exact ⟨horder, rfl, rfl, rfl, fun h => ⟨h.functions, h.fields⟩, fun h => ⟨h.single, h.noReturns, h.declarer⟩⟩
    · cases hc
  have hmem (c' : ContractDecl) (hc' : c' ∈ classes) : ((graphOf o.classes).linearize c'.name = .ok c'.chain ∧
      (graphOf o.classes).bases c'.name = c'.bases.reverse) ∧ c'.exprs = [] ∧ c'.Named ∧ c'.Formed := by
    obtain ⟨i, hi, rfl⟩ := List.mem_iff_getElem.mp hc'
    have hi' : i < o.classes.length := hall.length_eq ▸ hi
    obtain ⟨horder, hname, hbases, hexprs, hnamed, hformed⟩ := hall.get hi' hi
    have hdeclared := bases_graphOf hbare.names_nodup (List.get_mem o.classes ⟨i, hi'⟩)
    refine ⟨⟨horder, ?_⟩, hexprs.trans (ho.classes _ (List.get_mem _ _)), hnamed (ho.named _ (List.get_mem _ _)),
      hformed (ho.formed _ (List.get_mem _ _))⟩
    exact hname ▸ hbases ▸ hdeclared
  exact ⟨fun c hc => (hmem c hc).1, fun c hc => (hmem c hc).2.1, fun c hc => (hmem c hc).2.2.1,
    fun c hc => (hmem c hc).2.2.2, ho.file⟩

-- What declaring leaves: no code, the classes in order, and what is put off in its place.
structure Leaves (draft : Draft) : Prop where
  blank : draft.outline.Blank
  ordered : ∃ graph, draft.outline.Ordered graph
  placed : ∀ p ∈ draft.pending, p.Placed draft.outline

theorem leaves_declareUnit {unit : Solidity.SourceUnit} {draft : Draft} (h : declareUnit unit = .ok draft) :
    Leaves draft := by
  have hempty : ({} : Outline).Blank := ⟨by simp, by simp, by simp, rfl⟩
  have hbare : ({} : Outline).Bare := ⟨by simp, by simp⟩
  unfold declareUnit at h
  obtain ⟨names, hnames, h⟩ := bind_eq_ok.mp h
  obtain ⟨ordered, hordered, h⟩ := bind_eq_ok.mp h
  obtain ⟨⟨_, d⟩, hparts, h⟩ := bind_eq_ok.mp h
  cases h
  obtain ⟨hgraph, hblank⟩ := ordered_orderClasses (blank_foldlM hempty hnames) (bare_foldlM hbare hnames) hordered
  obtain ⟨⟨⟨add, hclasses, hadd⟩, hfile⟩, hpending⟩ := keeps_declareParts _ _ _ _ _ hparts
  refine ⟨⟨?_, ?_, ?_, List.subset_nil.mp (hblank.file ▸ hfile)⟩, ⟨graphOf names.classes, ?_⟩, ?_⟩
  · rw [hclasses, List.forall_mem_map]
    intro c hc
    exact List.subset_nil.mp (hblank.classes c hc ▸ (hadd c).exprs)
  · rw [hclasses, List.forall_mem_map]
    exact fun c hc => (hadd c).named (hblank.named c hc)
  · rw [hclasses, List.forall_mem_map]
    exact fun c hc => (hadd c).formed (hblank.formed c hc)
  · rw [Outline.Ordered, hclasses, List.forall_mem_map]
    intro c hc
    rw [(hadd c).name, (hadd c).chain, (hadd c).bases]
    exact hgraph c hc
  · exact fun p hp => (hpending p hp).resolve_left (by simp)

end Resolve

end RustContracts
