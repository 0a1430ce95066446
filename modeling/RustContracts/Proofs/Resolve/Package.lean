import Mathlib
import RustContracts.Proofs.Program.Dispatch
import RustContracts.Proofs.Resolve.Declared

-- Packages: what resolving code keeps of the declarations, and the dispatch tables of the classes.
namespace RustContracts.Resolve

open Program

variable {o o' : Outline} {p : Pending} {pending : List Pending} {c c' c'' : ContractDecl}

-- An implementation with more known about its code. `gives` says whether it gets a body.
structure Completes (gives : Prop) (impl impl' : Implementation) : Prop where
  owner : impl'.owner = impl.owner
  params : impl'.params = impl.params
  returns : impl'.returns = impl.returns
  implemented : impl'.implemented = impl.implemented
  body : impl'.body.isSome = true ↔ impl.body.isSome = true ∨ gives

theorem Completes.refl {gives : Prop} (h : ¬gives) (impl : Implementation) :
    Completes gives impl impl := ⟨rfl, rfl, rfl, rfl, by simp [h]⟩

theorem Completes.trans {gives : Prop} {a b e : Implementation} (h : Completes gives a b)
    (h' : Completes False b e) : Completes gives a e where
  owner := h'.owner.trans h.owner
  params := h'.params.trans h.params
  returns := h'.returns.trans h.returns
  implemented := h'.implemented.trans h.implemented
  body := by rw [h'.body, h.body]; simp

-- A function with each of its implementations completed.
def onImplementations (g : Implementation → Implementation) (f : Function) : Function :=
  { f with implementations := f.implementations.map g }

-- A class with more known about its code. `gives` says which of its functions get bodies.
structure Amends (gives : Nat → Prop) (c c' : ContractDecl) : Prop where
  name : c'.name = c.name
  chain : c'.chain = c.chain
  bases : c'.bases = c.bases
  functions : ∀ i, ∃ g, c'.functions[i]? = (c.functions[i]?).map (onImplementations g) ∧
    ∀ impl, Completes (gives i) impl (g impl)
  fields : c'.fields.map (·.toFieldDecl) = c.fields.map (·.toFieldDecl)

theorem onImplementations_id : onImplementations id = id := by
  funext f
  simp [onImplementations]

theorem amends_of_functions {gives : Nat → Prop} (hgives : ∀ i, ¬gives i) (hname : c'.name = c.name)
    (hchain : c'.chain = c.chain) (hbases : c'.bases = c.bases) (hfunctions : c'.functions = c.functions)
    (hfields : c'.fields.map (·.toFieldDecl) = c.fields.map (·.toFieldDecl)) : Amends gives c c' := by
  refine ⟨hname, hchain, hbases, fun i => ⟨id, ?_, .refl (hgives i)⟩, hfields⟩
  rw [hfunctions, onImplementations_id, Option.map_id, id]

theorem Amends.trans {gives : Nat → Prop} (h : Amends gives c c') (h' : Amends (fun _ => False) c' c'') :
    Amends gives c c'' := by
  refine ⟨h'.name.trans h.name, h'.chain.trans h.chain, h'.bases.trans h.bases, fun i => ?_, h'.fields.trans h.fields⟩
  obtain ⟨g, heq, hg⟩ := h.functions i
  obtain ⟨g', heq', hg'⟩ := h'.functions i
  refine ⟨g' ∘ g, ?_, fun impl => (hg impl).trans (hg' (g impl))⟩
  rw [heq', heq, Option.map_map]
  congr 1
  funext f
  simp [onImplementations]

theorem amends_updateImplementation (code : CodeOwner) {f : Implementation → Implementation}
    {gives : Prop} (hf : ∀ impl, Completes gives impl (f impl)) (c : ContractDecl) :
    Amends (fun i => code = .function i ∧ gives) c (updateImplementation code f c) := by
  cases code with
  | constructor => exact amends_of_functions (by simp) rfl rfl rfl rfl rfl
  | modifier i => exact amends_of_functions (by simp) rfl rfl rfl rfl rfl
  | function i =>
      refine ⟨rfl, rfl, rfl, fun j => ?_, rfl⟩
      by_cases hij : i = j
      · subst hij
        refine ⟨f, ?_, by simpa using hf⟩
        rw [updateImplementation, List.getElem?_modify_eq]
        rfl
      · refine ⟨id, ?_, .refl (by simp [hij])⟩
        rw [updateImplementation, onImplementations_id, Option.map_id, id]
        exact List.getElem?_modify_ne _ _ hij

-- The result of code that is read and then used in one way.
theorem result_of_bind_pure {α β : Type} {x : Resolving α} {f : α → β} {env : Env} {s s' : Gathered}
    {b : β} (h : ((x >>= fun a => pure (f a) : Resolving β).run env).run s = .ok (b, s')) :
    ∃ a, b = f a := by
  obtain ⟨⟨a, mid⟩, -, h⟩ := bind_eq_ok.mp h
  cases h
  exact ⟨a, rfl⟩

theorem amends_of_heading {gives : Nat → Prop} (hgives : ∀ i, ¬gives i) (h : heading c' = heading c)
    (hfields : c'.fields.map (·.toFieldDecl) = c.fields.map (·.toFieldDecl)) : Amends gives c c' := by
  simp only [heading, Prod.mk.injEq] at h
  exact amends_of_functions hgives h.1 h.2.1 h.2.2.1 h.2.2.2 hfields

-- A change of the implementation that the code belongs to.
theorem amends_inImplementation {f : Implementation → Implementation} {code : CodeOwner}
    (hcode : p.code = some code) (hc : p.owner = some c.name)
    (hf : ∀ impl, Completes (∃ b, p.task = .body b) impl (f impl)) :
    Amends (p.GivesBody c.name) c (updateImplementation code f c) := by
  have h := amends_updateImplementation code hf c
  simpa only [Pending.GivesBody, hcode, hc, Option.some.injEq, true_and] using h

-- What a task changes of the class that the code belongs to, and of the file.
theorem runTask_amends {env : Env} {s s' : Gathered} {r : (ContractDecl → ContractDecl) × (Outline → Outline)}
    (h : ((runTask p).run env).run s = .ok (r, s')) :
    (∀ c, p.owner = some c.name → Amends (p.GivesBody c.name) c (r.1 c)) ∧
      ∀ o, (r.2 o).classes = o.classes := by
  obtain ⟨owner, code, task⟩ := p
  unfold runTask at h
  cases task with
  | body b =>
      obtain ⟨body, rfl⟩ := result_of_bind_pure h
      cases code with
      | none => exact ⟨fun c _ => amends_of_heading (not_givesBody_of_code (by simp) _) rfl rfl, fun o => rfl⟩
      | some code =>
          refine ⟨fun c hc => amends_inImplementation rfl hc fun impl => ?_, fun o => rfl⟩
          exact ⟨rfl, rfl, rfl, rfl, by simp⟩
  | fieldValue i value =>
      obtain ⟨x, rfl⟩ := result_of_bind_pure h
      refine ⟨fun c _ => amends_of_heading (not_givesBody (by simp) _) rfl ?_, fun o => rfl⟩
      refine List.ext_getElem? fun j => ?_
      simp only [List.getElem?_map, List.getElem?_modify]
      cases c.fields[j]? with
      | none => rfl
      | some f => dsimp only [Option.map_some]; split <;> rfl
  | constantValue i value =>
      cases owner with
      | some owner =>
          obtain ⟨x, rfl⟩ := result_of_bind_pure h
          exact ⟨fun c _ => amends_of_heading (not_givesBody (by simp) _) rfl rfl, fun o => rfl⟩
      | none =>
          obtain ⟨x, rfl⟩ := result_of_bind_pure h
          exact ⟨fun c hc => (nomatch hc), fun o => rfl⟩
  | baseArgs i args =>
      obtain ⟨xs, rfl⟩ := result_of_bind_pure h
      exact ⟨fun c _ => amends_of_heading (not_givesBody (by simp) _) rfl rfl, fun o => rfl⟩
  | modifierArgs i args =>
      obtain ⟨xs, rfl⟩ := result_of_bind_pure h
      cases code with
      | none => exact ⟨fun c _ => amends_of_heading (not_givesBody_of_code (by simp) _) rfl rfl, fun o => rfl⟩
      | some code =>
          refine ⟨fun c hc => amends_inImplementation rfl hc fun impl => ?_, fun o => rfl⟩
          exact ⟨rfl, rfl, rfl, rfl, by simp⟩

-- Noting what the code uses adds no body.
theorem runPending_classes {known : Outline} {r r' : Registry} (h : runPending known (o, r) p = .ok (o', r')) :
    ∃ amend : ContractDecl → ContractDecl, o'.classes = o.classes.map amend ∧
      ∀ c, Amends (p.GivesBody c.name) c (amend c) := by
  unfold runPending at h
  obtain ⟨⟨⟨inClass, inFile⟩, gathered⟩, htask, h⟩ := bind_eq_ok.mp h
  cases h
  obtain ⟨hclass, hfile⟩ := runTask_amends htask
  refine ⟨_, hfile _, fun c => ?_⟩
  split
  · next hc =>
      refine (hclass c hc.symm).trans ?_
      split
      · next code _ =>
          have hnote (impl : Implementation) : Completes False impl (noteUses gathered impl) :=
            ⟨rfl, rfl, rfl, rfl, by simp [noteUses]⟩
          simpa using amends_updateImplementation code hnote (inClass c)
      · exact amends_of_heading (by simp) rfl rfl
  · next hc => exact amends_of_heading (fun i hi => hc hi.1.symm) rfl rfl

theorem Declared.amends {owner : String} {f : Function} {g : Implementation → Implementation} {gives : Prop}
    (hf : Declared owner f) (hg : ∀ impl, Completes gives impl (g impl)) :
    Declared owner (onImplementations g f) := by
  obtain ⟨hkind, impl, himpl, howner, hparams, hreturns⟩ := hf
  refine ⟨hkind, g impl, by simp [onImplementations, himpl], ?_, ?_, ?_⟩
  · rw [(hg impl).owner, howner]
  · rw [(hg impl).params, hparams]
    rfl
  · rw [(hg impl).returns, hreturns]
    rfl

-- Resolving one piece of code.
theorem Outline.Sound.runPending {known : Outline} {r r' : Registry} (hs : o.Sound (p :: pending))
    (h : runPending known (o, r) p = .ok (o', r')) : o'.Sound pending := by
  obtain ⟨amend, hclasses, hamend⟩ := runPending_classes h
  have hnames : o'.classes.map (·.name) = o.classes.map (·.name) := by
    rw [hclasses, List.map_map]
    exact List.map_congr_left fun c _ => (hamend c).name
  refine ⟨hnames ▸ hs.names_nodup, ?_, ?_, ?_, ?_⟩
  · rw [hnames, hclasses, List.forall_mem_map]
    intro c hc
    rw [(hamend c).chain]
    exact hs.chains c hc
  · rw [hclasses, List.forall_mem_map]
    intro c hc f' hf'
    obtain ⟨i, hi⟩ := List.mem_iff_getElem?.mp hf'
    obtain ⟨g, hfunctions, hg⟩ := (hamend c).functions i
    rw [hfunctions] at hi
    obtain ⟨f, hf, rfl⟩ := Option.map_eq_some_iff.mp hi
    rw [(hamend c).name]
    exact (hs.declared c hc f (List.mem_of_getElem? hf)).amends hg
  · rw [hclasses, List.forall_mem_map]
    intro c hc i f' hf' impl' himpl'
    obtain ⟨g, hfunctions, hg⟩ := (hamend c).functions i
    rw [hfunctions] at hf'
    obtain ⟨f, hf, rfl⟩ := Option.map_eq_some_iff.mp hf'
    obtain ⟨impl, himpl, rfl⟩ := List.mem_map.mp himpl'
    rw [(hg impl).implemented, (hg impl).body, (hamend c).name, hs.bodies c hc i f hf impl himpl,
      List.exists_mem_cons_iff, or_assoc]
  · intro q hq
    rw [hclasses, List.forall_mem_map]
    intro c hc i hgives
    rw [(hamend c).name] at hgives
    have hi := hs.bounded q (List.mem_cons_of_mem p hq) c hc i hgives
    obtain ⟨g, hfunctions, -⟩ := (hamend c).functions i
    by_contra hlt
    rw [List.getElem?_eq_none (by omega), List.getElem?_eq_getElem hi] at hfunctions
    simp at hfunctions

theorem Outline.Sound.foldlM {known : Outline} {r r' : Registry} (hs : o.Sound pending)
    (h : pending.foldlM (Resolve.runPending known) (o, r) = .ok (o', r')) : o'.Sound [] := by
  induction pending generalizing o r with
  | nil =>
      cases h
      exact hs
  | cons p pending ih =>
      rw [List.foldlM_cons] at h
      obtain ⟨⟨mid, r₁⟩, hmid, h⟩ := bind_eq_ok.mp h
      exact ih (hs.runPending hmid) h

-- The classes of a package.

-- A class as a package holds it.
def finished (o : Outline) (c : ContractDecl) : Contract :=
  let flat := c.flatten (o.chainOf c)
  if flat.kind = .contract then flat.findCallers else flat

theorem finished_toContractDecl (o : Outline) (c : ContractDecl) : (finished o c).toContractDecl = c := by
  dsimp only [finished]
  split <;> rfl

theorem finished_dispatch (o : Outline) (c : ContractDecl) :
    (finished o c).dispatch = (c.flatten (o.chainOf c)).dispatch := by
  dsimp only [finished]
  split <;> rfl

theorem finished_storage (o : Outline) (c : ContractDecl) :
    (finished o c).storage = (c.flatten (o.chainOf c)).storage := by
  dsimp only [finished]
  split <;> rfl

theorem package_classes {name : String} {unit : Solidity.SourceUnit} {p : Package}
    (h : package name unit = .ok p) : ∃ o : Outline, o.Sound [] ∧ p.classes = o.classes.map (finished o) := by
  unfold package at h
  obtain ⟨draft, hdraft, h⟩ := bind_eq_ok.mp h
  obtain ⟨-, -, h⟩ := bind_eq_ok.mp h
  obtain ⟨⟨o, registry⟩, hrun, h⟩ := bind_eq_ok.mp h
  cases h
  refine ⟨o, (sound_declareUnit hdraft).foldlM hrun, ?_⟩
  rw [Outline.flatten, List.map_map]
  rfl

theorem class?_finished {p : Package} (hp : p.classes = o.classes.map (finished o)) (name : String) :
    p.class? name = (o.class? name).map (finished o) := by
  rw [Package.class?, Outline.class?, hp, List.find?_map]
  congr 2
  funext k
  rw [Function.comp_apply, finished_toContractDecl]

theorem chainOf_finished {p : Package} (hp : p.classes = o.classes.map (finished o)) (c : ContractDecl) :
    p.chainOf (finished o c) = (o.chainOf c).map (finished o) := by
  rw [Package.chainOf, Outline.chainOf, finished_toContractDecl, List.map_filterMap]
  exact List.filterMap_congr fun name _ => class?_finished hp name

-- The declarations with a key along a chain, most derived class first, and the last of a class first.
def declarationsOf (chain : List Contract) (key : String) : List Function :=
  chain.flatMap fun k => k.functions.reverse.filter (·.key = key)

theorem declarationsOf_eq (chain : List Contract) (key : String) :
    declarationsOf chain key = (declaredAs key (chain.reverse.flatMap (·.functions))).reverse := by
  induction chain with
  | nil => rfl
  | cons k chain ih =>
      rw [declarationsOf, List.flatMap_cons, ← declarationsOf, ih]
      simp [declaredAs, List.flatMap_append]

theorem Outline.Sound.mem_chainOf (hs : o.Sound pending) (hc : c ∈ o.classes) :
    (o.chainOf c).map (·.name) = c.chain ∧ ∀ k ∈ o.chainOf c, k ∈ o.classes := by
  constructor
  · have hfound (name : String) (hname : name ∈ c.chain) : (o.class? name).map (·.name) = some name := by
      obtain ⟨k, hk, rfl⟩ := List.mem_map.mp (hs.chains c hc name hname)
      rw [hs.class_eq hk]
      rfl
    rw [chainOf, List.map_filterMap, List.filterMap_congr hfound, List.filterMap_some]
  · intro k hk
    obtain ⟨name, -, hname⟩ := List.mem_filterMap.mp hk
    exact List.mem_of_find?_eq_some hname

-- An entry of a dispatch table, said by what the classes of a chain declare.
structure EntryOf (chain : List Contract) (f : Function) : Prop where
  implementations : f.implementations = (declarationsOf chain f.key).flatMap (·.implementations)
  -- how the function is called is up to the most derived class
  signature : ∃ d, (declarationsOf chain f.key).head? = some d ∧ f.visibility = d.visibility ∧
    f.mutability = d.mutability ∧ f.params = d.params ∧ f.returns = d.returns
  primary : f.primary? = (f.implementations.find? (·.body.isSome)).or f.implementations.head?

structure DispatchTable (chain : List Contract) (dispatch : List Function) : Prop where
  keys_nodup : (dispatch.map (·.key)).Nodup
  order : ∃ own getters, dispatch = own ++ getters ∧ (∀ f ∈ own, f.kind ≠ .getter) ∧
    (∀ g ∈ getters, g.kind = .getter) ∧
    own.map (·.key) = ((chain.reverse.flatMap (·.functions)).map (·.key)).eraseDups
  entries : ∀ f ∈ dispatch, f.kind ≠ .getter → EntryOf chain f

-- What the classes of a chain declare, as functions of the table.
structure DeclaredIn (k : Contract) (d : Function) : Prop where
  notGetter : d.kind ≠ .getter
  single : ∃ impl, d.implementations = [impl] ∧ impl.owner = k.name ∧ impl.params = d.params ∧
    impl.returns = d.returns ∧ impl.implemented = impl.body.isSome

theorem Outline.Sound.declaredIn (hs : o.Sound []) (hc : c ∈ o.classes) {f : Function}
    (hf : f ∈ c.functions) : DeclaredIn (finished o c) f := by
  obtain ⟨impl, himpl, howner, hparams, hreturns⟩ := (hs.declared c hc f hf).single
  obtain ⟨i, hi⟩ := List.mem_iff_getElem?.mp hf
  have hbody := hs.bodies c hc i f hi impl (by simp [himpl])
  refine ⟨(hs.declared c hc f hf).notGetter, impl, himpl, ?_, hparams, hreturns, ?_⟩
  · rw [howner, finished_toContractDecl]
  · rw [Bool.eq_iff_iff, hbody]
    simp

theorem Gathers.entryOf {chain : List Contract} {f : Function}
    (hchain : ∀ k ∈ chain, ∀ d ∈ k.functions, DeclaredIn k d)
    (h : Gathers (chain.reverse.flatMap (·.functions)) f) : EntryOf chain f := by
  have hmem (d : Function) (hd : d ∈ declarationsOf chain f.key) : ∃ k ∈ chain, DeclaredIn k d := by
    obtain ⟨k, hk, hd⟩ := List.mem_flatMap.mp hd
    exact ⟨k, hk, hchain k hk d (List.mem_reverse.mp (List.mem_filter.mp hd).1)⟩
  have himpls : f.implementations = (declarationsOf chain f.key).flatMap (·.implementations) := by
    rw [h.implementations, ← declarationsOf_eq]
    refine List.flatMap_congr fun d hd => ?_
    obtain ⟨k, -, hdk⟩ := hmem d hd
    obtain ⟨impl, himpl, -⟩ := hdk.single
    rw [himpl]
    rfl
  refine ⟨himpls, ?_, ?_⟩
  · obtain ⟨d, hd, hsignature⟩ := h.last
    exact ⟨d, by rw [declarationsOf_eq, List.head?_reverse, hd], hsignature⟩
  · have hbody (impl : Implementation) (himpl : impl ∈ f.implementations) :
        impl.implemented = impl.body.isSome := by
      rw [himpls] at himpl
      obtain ⟨d, hd, himpl⟩ := List.mem_flatMap.mp himpl
      obtain ⟨k, -, hdk⟩ := hmem d hd
      obtain ⟨only, honly, -, -, -, hb⟩ := hdk.single
      rw [honly, List.mem_singleton] at himpl
      rw [himpl, hb]
    rw [Function.primary?, ← List.head?_filter, List.filter_congr hbody, List.head?_filter]

theorem Dispatches.dispatchTable {chain : List Contract} {dispatch : List Function}
    (hchain : ∀ k ∈ chain, ∀ d ∈ k.functions, DeclaredIn k d)
    (h : Dispatches (chain.reverse.flatMap (·.functions)) dispatch) : DispatchTable chain dispatch := by
  obtain ⟨own, getters, rfl, htable, hown, hgetters⟩ := h.split
  refine ⟨h.keys_nodup, ⟨own, getters, rfl, hown, hgetters, htable.keys⟩, fun f hf hkind => ?_⟩
  have hmem : f ∈ own := (List.mem_append.mp hf).resolve_right fun hg => hkind (hgetters f hg)
  exact Gathers.entryOf hchain (htable.gathers f hmem)

-- A class of a package, its chain, and the declarations on it.
structure ChainOf (p : Package) (o : Outline) (c : ContractDecl) : Prop where
  chain : p.chainOf (finished o c) = (o.chainOf c).map (finished o)
  names : (p.chainOf (finished o c)).map (·.name) = c.chain
  declared : ∀ k ∈ p.chainOf (finished o c), ∀ d ∈ k.functions, DeclaredIn k d

theorem Outline.Sound.chainOf {p : Package} (hs : o.Sound []) (hp : p.classes = o.classes.map (finished o))
    (hc : c ∈ o.classes) : ChainOf p o c := by
  obtain ⟨hnames, hchain⟩ := hs.mem_chainOf hc
  refine ⟨chainOf_finished hp c, ?_, ?_⟩
  · rw [chainOf_finished hp, ← hnames, List.map_map]
    exact List.map_congr_left fun k _ => by rw [Function.comp_apply, finished_toContractDecl]
  · rw [chainOf_finished hp, List.forall_mem_map]
    intro k hk d hd
    rw [finished_toContractDecl] at hd
    exact hs.declaredIn (hchain k hk) hd

theorem ChainOf.dispatchTable {p : Package} (h : ChainOf p o c) :
    DispatchTable (p.chainOf (finished o c)) (finished o c).dispatch := by
  have hdecls : (p.chainOf (finished o c)).reverse.flatMap (·.functions) =
      (o.chainOf c).reverse.flatMap (·.functions) := by
    rw [h.chain, ← List.map_reverse, List.flatMap_map]
    exact List.flatMap_congr fun k _ => by rw [finished_toContractDecl]
  refine Dispatches.dispatchTable h.declared ?_
  rw [hdecls, finished_dispatch]
  refine dispatches_flatten c (o.chainOf c) fun d hd => ?_
  rw [← hdecls] at hd
  obtain ⟨k, hk, hd⟩ := List.mem_flatMap.mp hd
  exact (h.declared k (List.mem_reverse.mp hk) d hd).notGetter

-- Declarations have entries.
theorem DispatchTable.exists_entry {chain : List Contract} {dispatch : List Function} {k : Contract}
    {d : Function} (h : DispatchTable chain dispatch) (hk : k ∈ chain) (hd : d ∈ k.functions) :
    ∃ f ∈ dispatch, f.kind ≠ .getter ∧ f.key = d.key ∧ ∀ impl ∈ d.implementations, impl ∈ f.implementations := by
  obtain ⟨own, getters, hdispatch, hown, -, hkeys⟩ := h.order
  have hkey : d.key ∈ own.map (·.key) := by
    rw [hkeys, List.mem_eraseDups]
    exact List.mem_map_of_mem (List.mem_flatMap.mpr ⟨k, List.mem_reverse.mpr hk, hd⟩)
  obtain ⟨f, hf, hfd⟩ := List.mem_map.mp hkey
  have hmem : f ∈ dispatch := hdispatch ▸ List.mem_append_left _ hf
  refine ⟨f, hmem, hown f hf, hfd, fun impl himpl => ?_⟩
  rw [(h.entries f hmem (hown f hf)).implementations]
  refine List.mem_flatMap.mpr ⟨d, List.mem_flatMap.mpr ⟨k, hk, ?_⟩, himpl⟩
  simp [hd, hfd]

-- The implementations of an entry have as many parameters as the entry.
theorem EntryOf.params_length {chain : List Contract} {f : Function} (h : EntryOf chain f)
    (hchain : ∀ k ∈ chain, ∀ d ∈ k.functions, DeclaredIn k d) {impl : Implementation}
    (himpl : impl ∈ f.implementations) : impl.params.length = f.params.length := by
  rw [h.implementations] at himpl
  obtain ⟨d, hd, himpl⟩ := List.mem_flatMap.mp himpl
  obtain ⟨k, hk, hd⟩ := List.mem_flatMap.mp hd
  obtain ⟨hd, hkey⟩ := List.mem_filter.mp hd
  obtain ⟨only, honly, -, hparams, -⟩ := (hchain k hk d (List.mem_reverse.mp hd)).single
  rw [honly, List.mem_singleton] at himpl
  rw [himpl, hparams]
  exact (Signature.key_eq_iff.mp (of_decide_eq_true hkey)).2

-- The dispatch table of every contract, interface and library has one entry for each key. An entry that
-- is no getter has the declarations with its key along the chain, most derived class first.
theorem dispatch_gathers_declarations {name : String} {unit : Solidity.SourceUnit} {p : Package}
    {c : Contract} (h : package name unit = .ok p) (hc : c ∈ p.classes) :
    (p.chainOf c).map (·.name) = c.chain ∧ (∀ k ∈ p.chainOf c, ∀ d ∈ k.functions, DeclaredIn k d) ∧
      DispatchTable (p.chainOf c) c.dispatch := by
  obtain ⟨o, hs, hclasses⟩ := package_classes h
  obtain ⟨c, hmem, rfl⟩ := List.mem_map.mp (hclasses ▸ hc)
  have hchain := hs.chainOf hclasses hmem
  rw [finished_toContractDecl]
  exact ⟨hchain.names, hchain.declared, hchain.dispatchTable⟩

theorem kind_of_interface {name : String} {unit : Solidity.SourceUnit} {p : Package} {i : Contract}
    (h : package name unit = .ok p) (hi : i ∈ p.classes) (hkind : i.kind = .interface) {m : Function}
    (hm : m ∈ i.dispatch) : m.kind ≠ .getter := by
  obtain ⟨o, hs, hclasses⟩ := package_classes h
  obtain ⟨k, hk, rfl⟩ := List.mem_map.mp (hclasses ▸ hi)
  obtain ⟨-, hchain⟩ := hs.mem_chainOf hk
  rw [finished_toContractDecl] at hkind
  rw [finished_dispatch] at hm
  refine kind_flatten (by simp [hkind]) (fun d hd => ?_) hm
  obtain ⟨j, hj, hd⟩ := List.mem_flatMap.mp hd
  exact (hs.declaredIn (hchain j (List.mem_reverse.mp hj)) hd).notGetter

-- A public function without attributes, whose body is empty if it has one.
def plainFunction (name : String) (params : List Solidity.Parameter) (hasBody : Bool) :
    Solidity.ContractPart :=
  .function default
    { start := default, stop := default, kind := "function", name := name, params := params
      attrs := [], returns := [], body := if hasBody then some ⟨default, default, []⟩ else none }

def plainContract (name : String) (isAbstract : Bool) (bases : List String)
    (parts : List Solidity.ContractPart) : Solidity.SourceUnitPart :=
  .contract default
    { start := default, stop := default, kind := "contract", isAbstract := isAbstract, name := name
      bases := bases.map fun base => ⟨default, base, false, []⟩, parts := parts }

def plainType (name : String) : Solidity.TypeName := ⟨default, .path name, false, []⟩

-- A function without a body is overridden below another with the same name.
def overriding : Solidity.SourceUnit :=
  ⟨default, [
    plainContract "Base" true [] [
      plainFunction "f" [] false,
      plainFunction "f" [⟨default, plainType "uint256", "", "x"⟩] true],
    plainContract "Top" false ["Base"] [
      .variable default ⟨default, plainType "uint256", ["public"], "n", none⟩,
      plainFunction "f" [] true]]⟩

def owners (f : Function) : String × List String × Option String :=
  (f.key, f.implementations.map (·.owner), f.primary?.map (·.owner))

theorem dispatch_gathers_overriding : ∃ p c, package "sample" overriding = .ok p ∧ c ∈ p.classes ∧
    c.dispatch.map owners = [("f/0", ["Top", "Base"], some "Top"), ("f/1", ["Base"], some "Base"),
      ("n/0", ["Top"], some "Top")] ∧
    (p.chainOf c).map (·.name) = c.chain ∧ (∀ k ∈ p.chainOf c, ∀ d ∈ k.functions, DeclaredIn k d) ∧
    DispatchTable (p.chainOf c) c.dispatch := by
  have htables : (package "sample" overriding).toOption.map
      (fun p => p.classes.map fun c => c.dispatch.map owners) =
        some [[("f/0", ["Base"], some "Base"), ("f/1", ["Base"], some "Base")],
          [("f/0", ["Top", "Base"], some "Top"), ("f/1", ["Base"], some "Base"),
            ("n/0", ["Top"], some "Top")]] := by cbv
  cases h : package "sample" overriding with
  | error e =>
      rw [h] at htables
      cases htables
  | ok p =>
      rw [h] at htables
      have hmaps := Option.some.inj htables
      obtain ⟨c, hc, howners⟩ := List.mem_map.mp (hmaps ▸ List.mem_cons_of_mem _ (List.mem_singleton.mpr rfl))
      exact ⟨p, c, rfl, hc, howners, dispatch_gathers_declarations h hc⟩

end RustContracts.Resolve
