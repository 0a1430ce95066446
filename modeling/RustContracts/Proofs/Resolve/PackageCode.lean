import RustContracts.Proofs.Resolve.Blank
import RustContracts.Proofs.Resolve.Code
import RustContracts.Proofs.Resolve.Package

-- The code of a package: what holds of all code that is resolved against the declarations of a package holds of
-- all the code in it.
namespace RustContracts.Resolve

open Program

-- Where an expression of changed code comes from.

section Changed

variable {N : Expr → Prop} {e : Expr} {α : Type}

theorem mem_modify_at {l : List α} {i : Nat} {f : α → α} {x : α} (h : x ∈ l.modify i f) :
    x ∈ l ∨ ∃ y, l[i]? = some y ∧ x = f y := by
  obtain ⟨j, hj⟩ := List.mem_iff_getElem?.mp h
  rw [List.getElem?_modify] at hj
  obtain ⟨y, hy, rfl⟩ := Option.map_eq_some_iff.mp hj
  split
  · next hij => exact .inr ⟨y, hij ▸ hy, rfl⟩
  · exact .inl (List.mem_of_getElem? hy)

theorem mem_modify {l : List α} {i : Nat} {f : α → α} {x : α} (h : x ∈ l.modify i f) :
    x ∈ l ∨ ∃ y ∈ l, x = f y :=
  (mem_modify_at h).imp_right fun ⟨y, hy, hx⟩ => ⟨y, List.mem_of_getElem? hy, hx⟩

-- What a change of an entry keeps of it is kept of the list.
theorem map_modify_of_same {β : Type} {f : α → α} {g : α → β} (hf : ∀ x, g (f x) = g x) (l : List α) (i : Nat) :
    (l.modify i f).map g = l.map g := by
  refine List.ext_getElem? fun j => ?_
  simp only [List.getElem?_map, List.getElem?_modify]
  cases l[j]? with
  | none => rfl
  | some x => dsimp only [Option.map_some]; split <;> simp [hf]

-- Changing one entry of a list adds no expressions but those of the change.
theorem mem_flatMap_modify {l : List α} {i : Nat} {f : α → α} {g : α → List Expr}
    (he : e ∈ (l.modify i f).flatMap g) (hf : ∀ x, ∀ e ∈ g (f x), e ∈ g x ∨ N e) : e ∈ l.flatMap g ∨ N e := by
  obtain ⟨x, hx, he⟩ := List.mem_flatMap.mp he
  obtain hx | ⟨y, hy, rfl⟩ := mem_modify hx
  · exact .inl (List.mem_flatMap.mpr ⟨x, hx, he⟩)
  · exact (hf y e he).imp_left fun he => List.mem_flatMap.mpr ⟨y, hy, he⟩

theorem mem_exprs_updateImplementation {code : CodeOwner} {f : Implementation → Implementation}
    {c : ContractDecl} (hf : ∀ impl, ∀ e ∈ (f impl).exprs, e ∈ impl.exprs ∨ N e)
    (he : e ∈ (updateImplementation code f c).exprs) : e ∈ c.exprs ∨ N e := by
  have hfunction (g : Function) :
      ∀ e ∈ Function.exprs { g with implementations := g.implementations.map f }, e ∈ g.exprs ∨ N e := by
    intro e he
    obtain ⟨impl', himpl', he⟩ := List.mem_flatMap.mp he
    obtain ⟨impl, himpl, rfl⟩ := List.mem_map.mp himpl'
    exact (hf impl e he).imp_left fun he => List.mem_flatMap.mpr ⟨impl, himpl, he⟩
  have hmodified (fs : List Function) (i : Nat)
      (he : e ∈ (fs.modify i fun g => { g with implementations := g.implementations.map f }).flatMap
        Function.exprs) : e ∈ fs.flatMap Function.exprs ∨ N e :=
    mem_flatMap_modify he hfunction
  have hconstructor
      (he : e ∈ (c.constructor.map fun g => { g with implementations := g.implementations.map f }).toList.flatMap
        Function.exprs) : e ∈ c.constructor.toList.flatMap Function.exprs ∨ N e := by
    cases hc : c.constructor with
    | none => simp [hc] at he
    | some g =>
        rw [hc, Option.map_some, Option.toList_some, List.flatMap_singleton] at he
        simpa using hfunction g e he
  simp only [ContractDecl.exprs, List.flatMap_append, List.mem_append] at he ⊢
  cases code with
  | constructor =>
      simp only [updateImplementation] at he
      grind
  | function i =>
      have := hmodified c.functions i
      simp only [updateImplementation] at he
      grind
  | modifier i =>
      have := hmodified c.modifiers i
      simp only [updateImplementation] at he
      grind

-- A class with other fields, constants or arguments for its bases.
theorem mem_exprs_of_values {c : ContractDecl} {fields : List StorageField} {constants : List Constant}
    {calls : List BaseCall}
    (hfields : e ∈ fields.flatMap (fun f => f.value.toList) → e ∈ c.fields.flatMap (fun f => f.value.toList) ∨ N e)
    (hconstants : e ∈ constants.flatMap (fun k => k.value.toList) →
      e ∈ c.constants.flatMap (fun k => k.value.toList) ∨ N e)
    (hcalls : e ∈ calls.flatMap (fun b => b.args) → e ∈ c.baseCalls.flatMap (fun b => b.args) ∨ N e)
    (he : e ∈ { c with fields := fields, constants := constants, baseCalls := calls }.exprs) :
    e ∈ c.exprs ∨ N e := by
  simp only [ContractDecl.exprs, List.mem_append] at he ⊢
  grind

end Changed

-- Resolving.

-- The code of every class and of the file has a property, which may depend on where the code stands.
structure Outline.Coded (Q : Option String → Expr → Prop) (o : Outline) : Prop where
  classes : ∀ c ∈ o.classes, ∀ e ∈ c.exprs, e.Each (Q (some c.name))
  file : ∀ e ∈ o.fileExprs, e.Each (Q none)

section Resolving

variable {U : Uses} {P : Expr → Prop} {p : Pending}

theorem Makes.result {α β : Type} [Legal α] {x : Resolving α} {f : α → β} {env : Env} {g g' : Gathered} {b : β}
    (hx : Makes U P env x) (h : Resolves (x >>= fun a => pure (f a)) env g b g') (hwithin : g'.Within U) :
    ∃ a, Legal.legal P env.outline a ∧ b = f a := by
  obtain ⟨a, g₁, ha, h⟩ := resolves_bind.mp h
  obtain ⟨rfl, rfl⟩ := resolves_pure.mp h
  exact ⟨a, hx g a g₁ ha hwithin, rfl⟩

-- The code that a task adds.
theorem runTask_exprs {env : Env} {g g' : Gathered}
    {r : (ContractDecl → ContractDecl) × (Outline → Outline)}
    (hopen : U.Open) (hP : Accepts U P env.outline env.contract env.inFunction)
    (h : Resolves (runTask p) env g r g') (hwithin : g'.Within U) :
    (∀ c, ∀ e ∈ (r.1 c).exprs, e ∈ c.exprs ∨ e.Each P) ∧
      ∀ o, ∀ e ∈ (r.2 o).fileExprs, e ∈ o.fileExprs ∨ p.owner = none ∧ e.Each P := by
  obtain ⟨owner, code, task⟩ := p
  have hnoFile (o : Outline) (e : Expr) (he : e ∈ o.fileExprs) :
      e ∈ o.fileExprs ∨ owner = none ∧ e.Each P := .inl he
  have hvalue {x : Expr} (hx : x.Each P) (old : Option Expr) (e : Expr) (he : e ∈ (some x).toList) :
      e ∈ old.toList ∨ e.Each P := by
    obtain rfl : e = x := by simpa using he
    exact .inr hx
  unfold runTask at h
  cases task with
  | body b =>
      obtain ⟨body, hbody, rfl⟩ := (makes_block env hopen hP b).result h hwithin
      cases code with
      | none => exact ⟨fun c e he => .inl he, hnoFile⟩
      | some code =>
          refine ⟨fun c e he => mem_exprs_updateImplementation (fun impl e he => ?_) he, hnoFile⟩
          simp only [Implementation.exprs, Option.toList_some, List.flatMap_singleton, List.mem_append] at he ⊢
          exact he.elim (fun he => .inr (hbody e he)) fun he => .inl (.inr he)
  | fieldValue i value =>
      obtain ⟨x, hx, rfl⟩ := (makes_expr hP value).result h hwithin
      refine ⟨fun c e => mem_exprs_of_values (fun he => ?_) .inl .inl, hnoFile⟩
      exact mem_flatMap_modify he fun f => hvalue hx f.value
  | constantValue i value =>
      cases owner with
      | some owner =>
          obtain ⟨x, hx, rfl⟩ := (makes_expr hP value).result h hwithin
          refine ⟨fun c e => mem_exprs_of_values .inl (fun he => ?_) .inl, hnoFile⟩
          exact mem_flatMap_modify he fun k => hvalue hx k.value
      | none =>
          obtain ⟨x, hx, rfl⟩ := (makes_expr hP value).result h hwithin
          refine ⟨fun c e he => .inl he, fun o e he => ?_⟩
          exact (mem_flatMap_modify he fun k => hvalue hx k.value).imp_right fun he => ⟨rfl, he⟩
  | baseArgs i args =>
      obtain ⟨xs, hxs, rfl⟩ := (makes_exprs hP args).result h hwithin
      refine ⟨fun c e => mem_exprs_of_values .inl .inl fun he => ?_, hnoFile⟩
      exact mem_flatMap_modify he fun b e he => .inr (hxs e he)
  | modifierArgs i args =>
      obtain ⟨xs, hxs, rfl⟩ := (makes_exprs hP args).result h hwithin
      cases code with
      | none => exact ⟨fun c e he => .inl he, hnoFile⟩
      | some code =>
          refine ⟨fun c e he => mem_exprs_updateImplementation (fun impl e he => ?_) he, hnoFile⟩
          simp only [Implementation.exprs, List.mem_append] at he ⊢
          rcases he with he | he
          · exact .inl (.inl he)
          · exact (mem_flatMap_modify he fun m e he => .inr (hxs e he)).imp_left .inr

-- A class in which it is noted what its code uses; that adds no code.
def noted (g : Gathered) (code : Option CodeOwner) (c : ContractDecl) : ContractDecl :=
  match code with
  | some code => updateImplementation code (noteUses g) c
  | none => { c with initUsesCaller := c.initUsesCaller || g.usesCaller }

theorem noted_name (g : Gathered) (code : Option CodeOwner) (c : ContractDecl) :
    (noted g code c).name = c.name := by
  cases code with
  | none => rfl
  | some code => cases code <;> rfl

theorem mem_exprs_noted {g : Gathered} {code : Option CodeOwner} {c : ContractDecl} {e : Expr}
    (he : e ∈ (noted g code c).exprs) : e ∈ c.exprs := by
  cases code with
  | none => exact he
  | some code =>
      have hnote (impl : Implementation) : (noteUses g impl).exprs = impl.exprs := rfl
      have hsame := mem_exprs_updateImplementation (N := fun _ => False)
        (fun impl e he => .inl (hnote impl ▸ he)) he
      exact hsame.resolve_right id

variable {Q : Option String → Expr → Prop} {o o' known : Outline} {r r' : Registry} {pending : List Pending}

theorem Outline.Coded.runPending
    (hQ : ∀ owner inFunction, Accepts .all (Q owner) known (owner.bind known.class?) inFunction)
    (ho : o.Coded Q) (h : runPending known (o, r) p = .ok (o', r')) : o'.Coded Q := by
  unfold Resolve.runPending at h
  obtain ⟨⟨⟨inClass, inFile⟩, gathered⟩, htask, h⟩ := bind_eq_ok.mp h
  obtain ⟨hclass, hfile⟩ := runTask_exprs Uses.open_all (hQ p.owner _) htask (Gathered.within_all _)
  obtain ⟨hamends, hfile'⟩ := runTask_amends htask
  cases h
  refine ⟨fun c' hc' e he => ?_, fun e he => ?_⟩
  · rw [hfile'] at hc'
    obtain ⟨c, hc, rfl⟩ := List.mem_map.mp hc'
    by_cases howner : some c.name = p.owner
    · simp only [if_pos howner] at he ⊢
      change e.Each (Q (some (noted gathered p.code (inClass c)).name))
      rw [noted_name, (hamends c howner.symm).name]
      rcases hclass c e (mem_exprs_noted he) with he | he
      · exact ho.classes c hc e he
      · exact howner ▸ he
    · simp only [if_neg howner] at he ⊢
      exact ho.classes c hc e he
  · rcases hfile _ e he with he | ⟨howner, he⟩
    · exact ho.file e he
    · exact howner ▸ he

theorem Outline.Coded.foldlM
    (hQ : ∀ owner inFunction, Accepts .all (Q owner) known (owner.bind known.class?) inFunction)
    (ho : o.Coded Q) (h : pending.foldlM (Resolve.runPending known) (o, r) = .ok (o', r')) : o'.Coded Q := by
  induction pending generalizing o r with
  | nil =>
      cases h
      exact ho
  | cons p pending ih =>
      rw [List.foldlM_cons] at h
      obtain ⟨⟨mid, r₁⟩, hmid, h⟩ := bind_eq_ok.mp h
      exact ih (ho.runPending hQ hmid) h

end Resolving

-- Calls.

-- What the look-up of a call reads of a class.
structure Shape where
  name : String
  -- the class and its ancestors, most derived first
  chain : List String
  signatures : List Signature

def shape (c : ContractDecl) : Shape := ⟨c.name, c.chain, c.functions.map (·.toSignature)⟩

-- The class with a name declares a function with a key.
def DeclaresKey (shapes : List Shape) (owner key : String) : Prop :=
  ∃ k ∈ shapes, k.name = owner ∧ ∃ s ∈ k.signatures, s.key = key

-- The function that a call names was found: for a call inside the contract along the chain of the class whose code
-- makes it, behind that class after `super`, or along the chain of the base that it names; for a library call as
-- the first of its class with that name and number of parameters.
def Finds (shapes : List Shape) (here : Option String) : Expr → Prop
  | .call _ name args isSuper inClass base _ =>
    here = some inClass ∧ (isSuper = true → base = "") ∧
      ∃ self ∈ shapes, self.name = (if base = "" then inClass else base) ∧
        ∃ owner ∈ self.chain.drop isSuper.toNat, DeclaresKey shapes owner (functionKey name args.length)
  | .libraryCall _ library owner s args =>
    (∃ l ∈ shapes, l.name = library) ∧
      (∃ k ∈ shapes, k.name = owner ∧ k.signatures.find? (·.key = s.key) = some s) ∧
      s.params.length = args.length
  | _ => True

section Finds

variable {o : Outline} {pending : List Pending} {here : Option String}

theorem name_class? {name : String} {c : ContractDecl} (h : o.class? name = some c) : c.name = name := by
  simpa using List.find?_some h

theorem shape_mem {c : ContractDecl} (hc : c ∈ o.classes) : shape c ∈ o.classes.map shape :=
  List.mem_map_of_mem hc

theorem found_key {classes : List ContractDecl} {name : String} {arity : Nat} {c : ContractDecl} {f : Function}
    (h : findFunction? classes name (some arity) = some (c, f)) :
    c ∈ classes ∧ f ∈ c.functions ∧ f.key = functionKey name arity ∧
      (shape c).signatures.find? (·.key = f.key) = some f.toSignature := by
  obtain ⟨hc, hf⟩ := mem_of_findFunction? h
  have htest := List.find?_some hf
  simp only [Option.all_some, Bool.and_eq_true, decide_eq_true_eq] at htest
  have hkey : f.key = functionKey name arity := by rw [Signature.key, htest.1, htest.2]
  refine ⟨hc, List.mem_of_find?_eq_some hf, hkey, ?_⟩
  -- looking for the name and the number of parameters is looking for the key
  have hsame : (fun g : Function => decide (g.key = f.key)) =
      fun g : Function => decide (g.sourceName = name) && (some arity).all (g.params.length = ·) := by
    funext g
    rw [Bool.eq_iff_iff]
    simp [Signature.key_eq_iff, htest.1, htest.2]
  rw [shape, List.find?_map, Function.comp_def, hsame, hf]
  rfl

theorem Outline.Sound.mem_drop_chain (hs : o.Sound pending) {self k : ContractDecl} (hself : self ∈ o.classes)
    {n : Nat} (hk : k ∈ (o.chainOf self).drop n) : k ∈ o.classes ∧ k.name ∈ self.chain.drop n := by
  obtain ⟨hnames, hmem⟩ := hs.mem_chainOf hself
  refine ⟨hmem k (List.mem_of_mem_drop hk), ?_⟩
  rw [← hnames, ← List.map_drop]
  exact List.mem_map_of_mem hk

theorem chainOf_mem {self k : ContractDecl} (hk : k ∈ o.chainOf self) : k ∈ o.classes := by
  obtain ⟨name, -, hname⟩ := List.mem_filterMap.mp hk
  exact class?_mem hname

theorem calledClasses_mem {self k : ContractDecl} {isSuper : Bool} {target : String}
    (hk : k ∈ calledClasses o self isSuper target) : k ∈ o.classes := by
  unfold calledClasses at hk
  split at hk
  · cases hclass : o.class? target with
    | none => simp [hclass] at hk
    | some c =>
        rw [hclass] at hk
        exact chainOf_mem hk
  · split at hk
    · exact chainOf_mem (List.mem_of_mem_drop hk)
    · exact chainOf_mem hk

-- Where a call looks.
theorem Outline.Sound.mem_calledClasses (hs : o.Sound pending) {self k : ContractDecl} (hself : self ∈ o.classes)
    {isSuper : Bool} {target : String} (htarget : isSuper = true → target = "")
    (hk : k ∈ calledClasses o self isSuper target) :
    ∃ start ∈ o.classes, start.name = (if target = "" then self.name else target) ∧
      k.name ∈ start.chain.drop isSuper.toNat := by
  unfold calledClasses at hk
  by_cases hempty : target = ""
  · rw [if_neg (by simp [hempty])] at hk
    refine ⟨self, hself, (if_pos hempty).symm, (hs.mem_drop_chain hself ?_).2⟩
    cases isSuper <;> exact hk
  · rw [if_pos (by simp [hempty])] at hk
    cases hclass : o.class? target with
    | none => simp [hclass] at hk
    | some c =>
        rw [hclass] at hk
        have hc := class?_mem hclass
        have hplain : isSuper = false := by
          cases isSuper with
          | false => rfl
          | true => exact absurd (htarget rfl) hempty
        rw [if_neg hempty, hplain]
        exact ⟨c, hc, name_class? hclass, (hs.mem_drop_chain hc (n := 0) hk).2⟩

theorem accepts_finds (hs : o.Sound pending) (here : Option String) (inFunction : Bool) :
    Accepts .all (Finds (o.classes.map shape) here) o (here.bind o.class?) inFunction where
  other e he := by
    cases e with
    | call | libraryCall => cases he
    | _ => trivial
  var _ _ _ _ := trivial
  sender _ _ _ := trivial
  call := by
    intro c hc _ p name args isSuper target t htarget hfound _
    obtain ⟨n, rfl, hclass⟩ := Option.bind_eq_some_iff.mp hc
    have hname := name_class? hclass
    obtain ⟨⟨k, f⟩, hfound⟩ := Option.isSome_iff_exists.mp hfound
    obtain ⟨hk, hf, hkey, -⟩ := found_key hfound
    obtain ⟨self, hself, hat, hchain⟩ := hs.mem_calledClasses (class?_mem hclass) htarget hk
    refine ⟨hname ▸ rfl, htarget, shape self, shape_mem hself, hat, k.name, hchain, ?_⟩
    exact ⟨shape k, shape_mem (calledClasses_mem hk), rfl, f.toSignature, List.mem_map_of_mem hf, hkey⟩
  library := by
    intro lib owner f args hfound p
    have hfinds (hlib : lib ∈ o.classes) (howner : owner ∈ o.classes) {name : String}
        (hkey : f.key = functionKey name args.length)
        (hfirst : (shape owner).signatures.find? (·.key = f.key) = some f.toSignature) :
        Finds (o.classes.map shape) here (.libraryCall p lib.name owner.name f.toSignature args) :=
      ⟨⟨shape lib, shape_mem hlib, rfl⟩, ⟨shape owner, shape_mem howner, rfl, hfirst⟩, (functionKey_inj hkey).2⟩
    obtain ⟨name, ⟨hfound, hlib⟩ | ⟨hhere, -, isSuper, target, hfound⟩⟩ := hfound
    · obtain ⟨howner, -, hkey, hfirst⟩ := found_key hfound
      exact hfinds hlib (List.mem_singleton.mp howner ▸ hlib) hkey hfirst
    · obtain ⟨howner, -, hkey, hfirst⟩ := found_key hfound
      obtain ⟨n, -, hclass⟩ := Option.bind_eq_some_iff.mp hhere
      exact hfinds (class?_mem hclass) (calledClasses_mem howner) hkey hfirst

end Finds

-- Packages.

theorem Amends.shape {gives : Nat → Prop} {c c' : ContractDecl} (h : Amends gives c c') : shape c' = shape c := by
  have hsignatures : c'.functions.map (·.toSignature) = c.functions.map (·.toSignature) := by
    refine List.ext_getElem? fun i => ?_
    obtain ⟨g, hg, -⟩ := h.functions i
    rw [List.getElem?_map, List.getElem?_map, hg, Option.map_map]
    rfl
  rw [Resolve.shape, Resolve.shape, h.name, h.chain, hsignatures]

-- Where a class stands.
def root (c : ContractDecl) : String × List String × List String := (c.name, c.chain, c.bases)

theorem Amends.root {gives : Nat → Prop} {c c' : ContractDecl} (h : Amends gives c c') : root c' = root c := by
  rw [Resolve.root, Resolve.root, h.name, h.chain, h.bases]

theorem Amends.named {gives : Nat → Prop} {c c' : ContractDecl} (h : Amends gives c c') (hc : c.Named) : c'.Named where
  functions f' hf' := by
    obtain ⟨i, hi⟩ := List.mem_iff_getElem?.mp hf'
    obtain ⟨g, hg, -⟩ := h.functions i
    rw [hg] at hi
    obtain ⟨f, hf, rfl⟩ := Option.map_eq_some_iff.mp hi
    exact hc.functions f (List.mem_of_getElem? hf)
  fields f' hf' := by
    have hmem : f'.toFieldDecl ∈ c.fields.map (·.toFieldDecl) := h.fields ▸ List.mem_map_of_mem hf'
    obtain ⟨f, hf, heq⟩ := List.mem_map.mp hmem
    have hname := hc.fields f hf
    rwa [heq] at hname

theorem foldlM_named {known o o' : Outline} {r r' : Registry} {pending : List Pending}
    (h : pending.foldlM (runPending known) (o, r) = .ok (o', r')) (ho : ∀ c ∈ o.classes, c.Named) :
    ∀ c ∈ o'.classes, c.Named := by
  induction pending generalizing o r with
  | nil =>
      cases h
      exact ho
  | cons p pending ih =>
      rw [List.foldlM_cons] at h
      obtain ⟨⟨mid, r₁⟩, hmid, h⟩ := bind_eq_ok.mp h
      obtain ⟨amend, hclasses, hamend⟩ := runPending_classes hmid
      refine ih h ?_
      rw [hclasses, List.forall_mem_map]
      exact fun c hc => (hamend c).named (ho c hc)

-- What resolving code does not change of a class.
theorem foldlM_same {α : Type} {part : ContractDecl → α}
    (hpart : ∀ {gives : Nat → Prop} {c c' : ContractDecl}, Amends gives c c' → part c' = part c)
    {known o o' : Outline} {r r' : Registry} {pending : List Pending}
    (h : pending.foldlM (runPending known) (o, r) = .ok (o', r')) : o'.classes.map part = o.classes.map part := by
  induction pending generalizing o r with
  | nil =>
      cases h
      rfl
  | cons p pending ih =>
      rw [List.foldlM_cons] at h
      obtain ⟨⟨mid, r₁⟩, hmid, h⟩ := bind_eq_ok.mp h
      obtain ⟨amend, hclasses, hamend⟩ := runPending_classes hmid
      rw [ih h, hclasses, List.map_map]
      exact List.map_congr_left fun c _ => hpart (hamend c)

theorem Outline.Sound.of_classes {o o' : Outline} {pending : List Pending} (hs : o.Sound pending)
    (h : o'.classes = o.classes) : o'.Sound pending := by
  rw [← List.append_nil pending]
  exact hs.of_headings (by rw [h]) (by simp)

def shapesOf (p : Package) : List Shape := p.classes.map fun c => shape c.toContractDecl

-- The code of a package is resolved against its own declarations, and its classes are in the order of one
-- hierarchy; functions and fields go by their names.
structure PackageCode (p : Package) : Prop where
  names_nodup : (p.classes.map (·.name)).Nodup
  classes : ∀ c ∈ p.classes, ∀ e ∈ c.exprs, e.Each (Finds (shapesOf p) (some c.name))
  file : ∀ k ∈ p.constants, ∀ e ∈ k.value, e.Each (Finds (shapesOf p) none)
  ordered : ∃ graph : Inheritance.Graph, ∀ c ∈ p.classes, graph.linearize c.name = .ok c.chain ∧
    graph.bases c.name = c.bases.reverse
  named : ∀ c ∈ p.classes, c.Named

theorem package_code {name : String} {unit : Solidity.SourceUnit} {p : Package}
    (h : package name unit = .ok p) : PackageCode p := by
  unfold package at h
  obtain ⟨draft, hdraft, h⟩ := bind_eq_ok.mp h
  obtain ⟨-, -, h⟩ := bind_eq_ok.mp h
  obtain ⟨⟨o, registry⟩, hrun, h⟩ := bind_eq_ok.mp h
  obtain ⟨known, hknown, hrun⟩ : ∃ known : Outline, known.classes = draft.outline.classes ∧
      draft.pending.foldlM (runPending known) (draft.outline, draft.registry) = .ok (o, registry) := by
    refine ⟨_, ?_, hrun⟩
    rfl
  obtain ⟨hblank, ⟨graph, hordered⟩, -⟩ := leaves_declareUnit hdraft
  have hsound := sound_declareUnit hdraft
  have hshapes := foldlM_same Amends.shape hrun
  have hclasses : p.classes = o.classes.map (finished o) := by
    cases h
    rw [Outline.flatten, List.map_map]
    rfl
  have hconstants : p.constants = o.constants := by
    cases h
    rfl
  have hcoded : o.Coded (Finds (o.classes.map shape)) := by
    have hstart : draft.outline.Coded (Finds (o.classes.map shape)) :=
      ⟨fun c hc e he => by simp [hblank.classes c hc] at he, fun e he => by simp [hblank.file] at he⟩
    refine hstart.foldlM (fun owner inFunction => ?_) hrun
    rw [hshapes, ← hknown]
    exact accepts_finds (hsound.of_classes hknown) owner inFunction
  have hshapes' : shapesOf p = o.classes.map shape := by
    rw [shapesOf, hclasses, List.map_map]
    exact List.map_congr_left fun c _ => by rw [Function.comp_apply, finished_toContractDecl]
  refine ⟨?_, ?_, ?_, ⟨graph, ?_⟩, ?_⟩
  · have hnames := congrArg (List.map Shape.name) hshapes'
    rw [hshapes, shapesOf, List.map_map, List.map_map] at hnames
    exact (congrArg List.Nodup hnames).mpr hsound.names_nodup
  · rw [hshapes', hclasses, List.forall_mem_map]
    intro c hc e he
    rw [finished_toContractDecl] at he ⊢
    exact hcoded.classes c hc e he
  · rw [hshapes', hconstants]
    exact fun k hk e he => hcoded.file e (List.mem_flatMap.mpr ⟨k, hk, Option.mem_toList.mpr he⟩)
  · have hroots := foldlM_same Amends.root hrun
    have hgraph : ∀ r ∈ o.classes.map root, graph.linearize r.1 = .ok r.2.1 ∧ graph.bases r.1 = r.2.2.reverse := by
      rw [hroots, List.forall_mem_map]
      exact hordered
    rw [hclasses, List.forall_mem_map]
    intro c hc
    rw [finished_toContractDecl]
    exact hgraph _ (List.mem_map_of_mem hc)
  · rw [hclasses, List.forall_mem_map]
    intro c hc
    rw [finished_toContractDecl]
    exact foldlM_named hrun hblank.named c hc

namespace PackageCode

variable {p : Package} {c k : Contract}

-- The only class with a name.
theorem class_eq (h : PackageCode p) (hc : c ∈ p.classes) : p.class? c.name = some c := by
  have hsome : (p.class? c.name).isSome := by
    rw [Package.class?, List.find?_isSome]
    exact ⟨c, hc, by simp⟩
  obtain ⟨k, hk⟩ := Option.isSome_iff_exists.mp hsome
  have hname : k.name = c.name := by simpa using List.find?_some hk
  rw [hk, List.inj_on_of_nodup_map h.names_nodup (List.mem_of_find?_eq_some hk) hc hname]

theorem mem_chainOf_iff (h : PackageCode p) : k ∈ p.chainOf c ↔ k ∈ p.classes ∧ k.name ∈ c.chain := by
  rw [Package.chainOf, List.mem_filterMap]
  constructor
  · rintro ⟨name, hname, hk⟩
    have heq : k.name = name := by simpa using List.find?_some hk
    exact ⟨List.mem_of_find?_eq_some hk, heq ▸ hname⟩
  · rintro ⟨hk, hname⟩
    exact ⟨k.name, hname, h.class_eq hk⟩

theorem chain_nodup (h : PackageCode p) (hc : c ∈ p.classes) : c.chain.Nodup := by
  obtain ⟨graph, hgraph⟩ := h.ordered
  exact (Inheritance.Graph.linearize_eq_ok_iff.mp (hgraph c hc).1).nodup

-- The ancestors of an ancestor are ancestors.
theorem chain_subset (h : PackageCode p) (hc : c ∈ p.classes) (hk : k ∈ p.chainOf c) : k.chain ⊆ c.chain := by
  obtain ⟨graph, hgraph⟩ := h.ordered
  obtain ⟨hmem, hname⟩ := h.mem_chainOf_iff.mp hk
  have hordered := Inheritance.Graph.linearize_eq_ok_iff.mp (hgraph c hc).1
  have hordered' := Inheritance.Graph.linearize_eq_ok_iff.mp (hgraph k hmem).1
  intro name hin
  have hreach := (hordered.mem_iff k.name).mp hname
  have hreach' := (hordered'.mem_iff name).mp hin
  exact (hordered.mem_iff name).mpr (hreach.trans hreach')

-- Two elements stand in one order only.
theorem not_sublist_swap {names : List String} (h : names.Nodup) {a b : String} (hab : [a, b].Sublist names) :
    ¬ [b, a].Sublist names := by
  induction names with
  | nil => cases hab
  | cons name names ih =>
      obtain ⟨hname, h⟩ := List.nodup_cons.mp h
      intro hba
      rcases hab with _ | ⟨_, hab⟩ | ⟨_, hb⟩
      · rcases hba with _ | ⟨_, hba⟩ | ⟨_, -⟩
        · exact ih h hab hba
        · exact hname (hab.subset (by simp))
      · rcases hba with _ | ⟨_, hba⟩ | ⟨_, -⟩
        · exact hname (hba.subset (by simp))
        · exact hname (hb.subset (by simp))

theorem names_chainOf_sublist (p : Package) (c : Contract) : ((p.chainOf c).map (·.name)).Sublist c.chain := by
  rw [Package.chainOf]
  induction c.chain with
  | nil => exact .slnil
  | cons name names ih =>
      rw [List.filterMap_cons]
      cases hclass : p.class? name with
      | none => exact ih.cons name
      | some k =>
          have hname : k.name = name := by simpa using List.find?_some hclass
          rw [List.map_cons, hname]
          exact ih.cons_cons name

-- An ancestor brings the order of its own ancestors along.
theorem chain_sublist (h : PackageCode p) (hc : c ∈ p.classes) (hk : k ∈ p.chainOf c) : k.chain.Sublist c.chain := by
  obtain ⟨graph, hgraph⟩ := h.ordered
  obtain ⟨hmem, hname⟩ := h.mem_chainOf_iff.mp hk
  have hordered := Inheritance.Graph.linearize_eq_ok_iff.mp (hgraph c hc).1
  have hordered' := Inheritance.Graph.linearize_eq_ok_iff.mp (hgraph k hmem).1
  obtain ⟨order, horder, hsublist⟩ := hordered.ancestor_sublist hname
  rwa [hordered'.unique horder]

theorem head_chain (h : PackageCode p) (hc : c ∈ p.classes) : ∃ bases, c.chain = c.name :: bases := by
  obtain ⟨graph, hgraph⟩ := h.ordered
  exact List.head?_eq_some_iff.mp (Inheritance.Graph.linearize_eq_ok_iff.mp (hgraph c hc).1).head?

-- No class stands behind one of its ancestors.
theorem pairwise_chainOf (h : PackageCode p) (hc : c ∈ p.classes) :
    (p.chainOf c).Pairwise fun earlier later => earlier.name ∉ later.chain := by
  rw [List.pairwise_iff_forall_sublist]
  intro a b hab hmem
  have hnames : [a.name, b.name].Sublist c.chain := (hab.map fun k : Contract => k.name).trans (names_chainOf_sublist p c)
  have hb : b ∈ p.chainOf c := hab.subset (by simp)
  obtain ⟨bases, hbases⟩ := h.head_chain (h.mem_chainOf_iff.mp hb).1
  have hne : a.name ≠ b.name := by
    have hnodup := hnames.nodup (h.chain_nodup hc)
    simpa using hnodup
  have ha : a.name ∈ bases := (List.mem_cons.mp (hbases ▸ hmem)).resolve_left hne
  have hswap : [b.name, a.name].Sublist b.chain := by
    rw [hbases]
    exact (List.singleton_sublist.mpr ha).cons_cons b.name
  exact not_sublist_swap (h.chain_nodup hc) hnames (hswap.trans (h.chain_sublist hc hb))

end PackageCode

end RustContracts.Resolve
