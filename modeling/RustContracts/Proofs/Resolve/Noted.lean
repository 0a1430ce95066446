import RustContracts.Proofs.Resolve.PackageCode

-- What is noted beside code is all that the code uses: an implementation that reads its caller, or calls a function of
-- its contract, has that noted, and so has a class whose initial values or base arguments read the caller.
namespace RustContracts

namespace Resolve

open Program

-- An expression that reads the caller only where that is noted, and calls only what is.
def Told (U : Uses) : Expr → Prop
  | .env _ .sender => U.caller
  | .call _ name args _ _ _ _ => U.calls (functionKey name args.length)
  | _ => True

structure Uses.Below (U V : Uses) : Prop where
  caller : U.caller → V.caller
  calls : ∀ key, U.calls key → V.calls key

variable {U V : Uses} {e : Expr}

theorem Told.mono (hUV : U.Below V) (h : Told U e) : Told V e := by
  unfold Told at h ⊢
  split at h
  · exact hUV.caller h
  · exact hUV.calls _ h
  · trivial

theorem each_told_mono (hUV : U.Below V) (h : e.Each (Told U)) : e.Each (Told V) := fun x hx => (h x hx).mono hUV

-- What was noted in the code of a class, outside the functions of a library.
def Uses.seenFrom (U : Uses) (here : Option ContractDecl) (inFunction : Bool) : Uses :=
  let free := ∀ c, here = some c → c.kind ≠ .library
  { caller := U.caller ∧ free, calls := fun key => free ∧ (inFunction = true → U.calls key) }

theorem accepts_told (U : Uses) (o : Outline) (here : Option ContractDecl) (inFunction : Bool) :
    Accepts U (Told (U.seenFrom here inFunction)) o here inFunction where
  other e he := by
    unfold Told
    split
    · cases he
    · cases he
    · trivial
  var _ _ _ _ := trivial
  sender hcaller hfree _ := ⟨hcaller, hfree⟩
  call c hc hkind _ name args _ _ _ _ _ hcalls :=
    ⟨fun c' hc' => by rwa [← Option.some.inj (hc.symm.trans hc')], hcalls⟩
  library _ _ _ _ _ _ := trivial

def Gathered.uses (g : Gathered) : Uses := { caller := g.usesCaller = true, calls := fun key => key ∈ g.calls }

theorem Gathered.within_uses (g : Gathered) : g.Within g.uses := ⟨id, fun _ h => h, fun _ _ => trivial⟩

-- Without a caller and without calls.
def Uses.none : Uses := { caller := False, calls := fun _ => False }

end Resolve

namespace Program

open Resolve (Uses Told)

-- What is noted in an implementation, and what is noted of the initial values in a class.

def Implementation.uses (i : Implementation) : Uses :=
  { caller := i.usesCaller = true, calls := fun key => key ∈ i.calls }

def ContractDecl.initUses (c : ContractDecl) : Uses := { caller := c.initUsesCaller = true, calls := fun _ => True }

def ContractDecl.code (c : ContractDecl) : List Implementation :=
  (c.constructor.toList ++ c.functions ++ c.modifiers).flatMap (·.implementations)

-- Everything that code uses is noted beside it.
structure ContractDecl.Noted (c : ContractDecl) : Prop where
  code : ∀ i ∈ c.code, ∀ e ∈ i.exprs, e.Each (Told i.uses)
  fields : ∀ f ∈ c.fields, ∀ v ∈ f.value, v.Each (Told c.initUses)
  baseCalls : ∀ b ∈ c.baseCalls, (∀ e ∈ b.args, e.Each (Told c.initUses)) ∨
    ∃ f, c.constructor = some f ∧ ∃ i ∈ f.implementations, ∀ e ∈ b.args, e.Each (Told i.uses)
  library : c.kind = .library → ∀ e ∈ c.exprs, e.Each (Told .none)

end Program

namespace Resolve

open Program

variable {c : ContractDecl} {g g' : Gathered} {code : CodeOwner}

-- A change of an implementation that notes all that the code it adds uses.
structure Notes (f : Implementation → Implementation) : Prop where
  uses : ∀ i : Implementation, i.uses.Below (f i).uses
  exprs : ∀ i : Implementation, ∀ e ∈ (f i).exprs, e ∈ i.exprs ∨ e.Each (Told (f i).uses)

theorem below_noteUses (g : Gathered) (i : Implementation) : i.uses.Below (noteUses g i).uses where
  caller h := by simp [noteUses, Implementation.uses, show i.usesCaller = true from h]
  calls key h := List.mem_append_left _ h

theorem uses_below_noteUses (g : Gathered) (i : Implementation) : g.uses.Below (noteUses g i).uses where
  caller h := by simp [noteUses, Implementation.uses, show g.usesCaller = true from h]
  calls key h := by
    by_cases hold : key ∈ i.calls
    · exact List.mem_append_left _ hold
    · exact List.mem_append_right _ (List.mem_filter.mpr ⟨h, by simpa using hold⟩)

theorem notes_noteUses (g : Gathered) : Notes (noteUses g) := ⟨below_noteUses g, fun _ _ => .inl⟩

-- Code that is added first, and what it uses noted then.
theorem notes_noteUses_comp {f : Implementation → Implementation} (huses : ∀ i, (f i).uses = i.uses)
    (hexprs : ∀ i, ∀ e ∈ (f i).exprs, e ∈ i.exprs ∨ e.Each (Told g.uses)) : Notes (noteUses g ∘ f) where
  uses i := huses i ▸ below_noteUses g (f i)
  exprs i e he := (hexprs i e he).imp_right (each_told_mono (uses_below_noteUses g (f i)))

theorem updateImplementation_comp (code : CodeOwner) (f f' : Implementation → Implementation) (c : ContractDecl) :
    updateImplementation code f' (updateImplementation code f c) = updateImplementation code (f' ∘ f) c := by
  cases code with
  | constructor =>
      cases c with
      | mk => simp [updateImplementation, Function.comp_def]
  | function i => simp [updateImplementation, List.modify_modify_eq, Function.comp_def]
  | modifier i => simp [updateImplementation, List.modify_modify_eq, Function.comp_def]

-- The function that code belongs to.
def codeFunction? (c : ContractDecl) : CodeOwner → Option Function
  | .constructor => c.constructor
  | .function i => c.functions[i]?
  | .modifier i => c.modifiers[i]?

theorem mem_codeFunction? {h : Function} (hh : codeFunction? c code = some h) :
    h ∈ c.constructor.toList ++ c.functions ++ c.modifiers := by
  cases code with
  | constructor => simp [show c.constructor = some h from hh]
  | function i => simp [List.mem_of_getElem? (show c.functions[i]? = some h from hh)]
  | modifier i => simp [List.mem_of_getElem? (show c.modifiers[i]? = some h from hh)]

theorem mem_code_updateImplementation {f : Implementation → Implementation} {j : Implementation}
    (h : j ∈ (updateImplementation code f c).code) :
    j ∈ c.code ∨ ∃ k, codeFunction? c code = some k ∧ ∃ i ∈ k.implementations, j = f i := by
  have hmodified {gs : List Function} {n : Nat} {k : Function}
      (hk : k ∈ gs.modify n fun g => { g with implementations := g.implementations.map f })
      (hj : j ∈ k.implementations) : k ∈ gs ∨ ∃ g, gs[n]? = some g ∧ ∃ i ∈ g.implementations, j = f i := by
    refine (mem_modify_at hk).imp_right ?_
    rintro ⟨g, hg, rfl⟩
    obtain ⟨i, hi, rfl⟩ := List.mem_map.mp hj
    exact ⟨g, hg, i, hi, rfl⟩
  obtain ⟨k, hk, hj⟩ := List.mem_flatMap.mp h
  have hold (hk : k ∈ c.constructor.toList ++ c.functions ++ c.modifiers) : j ∈ c.code :=
    List.mem_flatMap.mpr ⟨k, hk, hj⟩
  simp only [List.mem_append] at hk hold
  cases code with
  | constructor =>
      rcases hk with (hk | hk) | hk
      · obtain ⟨g, hg, rfl⟩ := Option.map_eq_some_iff.mp (Option.mem_toList.mp hk)
        obtain ⟨i, hi, rfl⟩ := List.mem_map.mp hj
        exact .inr ⟨g, hg, i, hi, rfl⟩
      · exact .inl (hold (.inl (.inr hk)))
      · exact .inl (hold (.inr hk))
  | function n =>
      rcases hk with (hk | hk) | hk
      · exact .inl (hold (.inl (.inl hk)))
      · exact (hmodified hk hj).imp_left fun hk => hold (.inl (.inr hk))
      · exact .inl (hold (.inr hk))
  | modifier n =>
      rcases hk with (hk | hk) | hk
      · exact .inl (hold (.inl (.inl hk)))
      · exact .inl (hold (.inl (.inr hk)))
      · exact (hmodified hk hj).imp_left fun hk => hold (.inr hk)

theorem mem_code_of_codeFunction? {k : Function} {i : Implementation} (hk : codeFunction? c code = some k)
    (hi : i ∈ k.implementations) : i ∈ c.code := List.mem_flatMap.mpr ⟨k, mem_codeFunction? hk, hi⟩

-- Keeping a class noted while an implementation changes.
theorem noted_updateImplementation (hc : c.Noted) {f : Implementation → Implementation} (hf : Notes f)
    (hlibrary : c.kind = .library → ∀ e ∈ (updateImplementation code f c).exprs, e.Each (Told .none)) :
    (updateImplementation code f c).Noted where
  code j hj e he := by
    rcases mem_code_updateImplementation hj with hj | ⟨k, hk, i, hi, rfl⟩
    · exact hc.code j hj e he
    · have hold := hc.code i (mem_code_of_codeFunction? hk hi)
      exact (hf.exprs i e he).elim (fun he => each_told_mono (hf.uses i) (hold e he)) id
  fields := by cases code <;> exact hc.fields
  baseCalls b hb := by
    have hinit : (updateImplementation code f c).initUses = c.initUses := by cases code <;> rfl
    rw [hinit]
    have hb : b ∈ c.baseCalls := by cases code <;> exact hb
    refine (hc.baseCalls b hb).imp_right ?_
    rintro ⟨g, hg, i, hi, hargs⟩
    cases code with
    | constructor =>
        refine ⟨_, congrArg (Option.map _) hg, f i, List.mem_map_of_mem hi, fun e he => ?_⟩
        exact each_told_mono (hf.uses i) (hargs e he)
    | function n => exact ⟨g, hg, i, hi, hargs⟩
    | modifier n => exact ⟨g, hg, i, hi, hargs⟩
  library := by cases code <;> exact hlibrary

-- Noting that initial values read the caller.

theorem below_initUses (g : Gathered) (c : ContractDecl) : c.initUses.Below (noted g none c).initUses :=
  ⟨fun h => Bool.or_eq_true_iff.mpr (.inl h), fun _ h => h⟩

theorem uses_below_initUses (g : Gathered) (c : ContractDecl) :
    Uses.Below { caller := g.usesCaller = true, calls := fun _ => True } (noted g none c).initUses :=
  ⟨fun h => Bool.or_eq_true_iff.mpr (.inr h), fun _ h => h⟩

theorem noted_init (hc : c.Noted) (g : Gathered) : (noted g none c).Noted where
  code := hc.code
  fields f hf v hv := each_told_mono (below_initUses g c) (hc.fields f hf v hv)
  baseCalls b hb := (hc.baseCalls b hb).imp_left fun hargs e he => each_told_mono (below_initUses g c) (hargs e he)
  library := hc.library

theorem noted_noted (hc : c.Noted) (g : Gathered) (code : Option CodeOwner) : (noted g code c).Noted := by
  cases code with
  | none => exact noted_init hc g
  | some code =>
      exact noted_updateImplementation hc (notes_noteUses g) fun hkind e he =>
        hc.library hkind e (show e ∈ c.exprs from @mem_exprs_noted g (some code) c e he)

theorem HasConstructor.updateImplementation (h : HasConstructor c) (f : Implementation → Implementation) :
    HasConstructor (updateImplementation code f c) := by
  obtain ⟨g, hg, hne⟩ := h
  cases code with
  | constructor => exact ⟨_, congrArg (Option.map _) hg, by simpa using hne⟩
  | function n => exact ⟨g, hg, hne⟩
  | modifier n => exact ⟨g, hg, hne⟩

theorem HasConstructor.noted (h : HasConstructor c) (g : Gathered) (code : Option CodeOwner) :
    HasConstructor (noted g code c) := by
  cases code with
  | none => exact h
  | some code => exact h.updateImplementation _

-- Noting moves no arguments for bases.
theorem place_updateImplementation (f : Implementation → Implementation) (c : ContractDecl) :
    (updateImplementation code f c).baseCalls = c.baseCalls ∧ (updateImplementation code f c).chain = c.chain := by
  cases code <;> exact ⟨rfl, rfl⟩

theorem place_noted (g : Gathered) (code : Option CodeOwner) (c : ContractDecl) :
    (noted g code c).baseCalls = c.baseCalls ∧ (noted g code c).chain = c.chain := by
  cases code with
  | none => exact ⟨rfl, rfl⟩
  | some code => exact place_updateImplementation _ c

theorem stays_of_bases {c c' : ContractDecl} (hconstructor : HasConstructor c → HasConstructor c')
    (hbases : c'.baseCalls.map (·.base) = c.baseCalls.map (·.base)) (hchain : c'.chain = c.chain) : Stays c c' :=
  ⟨hconstructor, fun _ h => h.mono (hbases ▸ List.prefix_refl _) hchain⟩

theorem kind_noted (g : Gathered) (code : Option CodeOwner) (c : ContractDecl) : (noted g code c).kind = c.kind := by
  cases code with
  | none => rfl
  | some code => cases code <;> rfl

-- A class in which more code stands, with all that it uses noted.
structure Completed (c c' : ContractDecl) : Prop where
  kind : c'.kind = c.kind
  stays : Stays c c'
  noted : c.Noted → c'.Noted

theorem completed_noted (g : Gathered) (code : Option CodeOwner) {f : ContractDecl → ContractDecl}
    (hkind : (f c).kind = c.kind) (hconstructor : (f c).constructor = c.constructor)
    (hbases : (f c).baseCalls.map (·.base) = c.baseCalls.map (·.base)) (hchain : (f c).chain = c.chain)
    (hnoted : c.Noted → (noted g code (f c)).Noted) : Completed c (noted g code (f c)) where
  kind := (kind_noted g code (f c)).trans hkind
  stays := by
    obtain ⟨hcalls, hchain'⟩ := place_noted g code (f c)
    refine stays_of_bases (fun h => ?_) (by rw [hcalls, hbases]) (hchain'.trans hchain)
    exact HasConstructor.noted (by simpa [HasConstructor, hconstructor] using h) g code
  noted := hnoted

-- A class without code has nothing to note.
theorem noted_of_exprs (h : c.exprs = []) : c.Noted := by
  have hnone {e : Expr} (he : e ∈ c.exprs) : False := by simp [h] at he
  simp only [ContractDecl.exprs, List.mem_append] at hnone
  refine ⟨fun i hi e he => ?_, fun f hf v hv => ?_, fun b hb => .inl fun e he => ?_, fun _ e he => by simp [h] at he⟩
  · obtain ⟨f, hf, hi⟩ := List.mem_flatMap.mp hi
    exact (hnone (.inl (.inl (.inl (List.mem_flatMap.mpr ⟨f, hf, List.mem_flatMap.mpr ⟨i, hi, he⟩⟩))))).elim
  · exact (hnone (.inl (.inl (.inr (List.mem_flatMap.mpr ⟨f, hf, Option.mem_toList.mpr hv⟩))))).elim
  · exact (hnone (.inr (List.mem_flatMap.mpr ⟨b, hb, he⟩))).elim

section RunTask

variable {p : Pending} {env : Env} {r : (ContractDecl → ContractDecl) × (Outline → Outline)}

-- What the code that a task resolves uses is noted behind it, in a library nothing.
def seenBehind (env : Env) (g : Gathered) : Uses := g.uses.seenFrom env.contract env.inFunction

theorem seenBehind_below (h : env.inFunction = true) (g : Gathered) : (seenBehind env g).Below g.uses :=
  ⟨fun hcaller => hcaller.1, fun _ hcalls => hcalls.2 h⟩

theorem seenBehind_below_init (g : Gathered) (c : ContractDecl) : (seenBehind env g).Below (noted g none c).initUses :=
  ⟨fun h => (uses_below_initUses g c).caller h.1, fun _ _ => trivial⟩

-- The arguments for a base do not change which base they are for.
theorem map_base_modify (c : ContractDecl) (i : Nat) (xs : List Expr) :
    (c.baseCalls.modify i fun call => { call with args := xs }).map (·.base) = c.baseCalls.map (·.base) :=
  map_modify_of_same (g := BaseCall.base) (f := fun call => { call with args := xs }) (fun _ => rfl) _ _

-- New code of an implementation.
theorem completed_implementation (code : CodeOwner) {f : Implementation → Implementation}
    (huses : ∀ i, (f i).uses = i.uses) (hexprs : ∀ i, ∀ e ∈ (f i).exprs, e ∈ i.exprs ∨ e.Each (Told g.uses))
    (hlibrary : c.Noted → c.kind = .library →
      ∀ e ∈ (noted g (some code) (updateImplementation code f c)).exprs, e.Each (Told .none)) :
    Completed c (noted g (some code) (updateImplementation code f c)) := by
  have hcomp : noted g (some code) (updateImplementation code f c) = updateImplementation code (noteUses g ∘ f) c :=
    updateImplementation_comp code f (noteUses g) c
  rw [hcomp] at hlibrary ⊢
  obtain ⟨hcalls, hchain⟩ := @place_updateImplementation code (noteUses g ∘ f) c
  refine ⟨by cases code <;> rfl, stays_of_bases (fun h => h.updateImplementation _) (by rw [hcalls]) hchain, fun hc => ?_⟩
  exact noted_updateImplementation hc (notes_noteUses_comp huses hexprs) (hlibrary hc)

theorem completed_runTask (hhere : ∃ k, env.contract = some k ∧ k.kind = c.kind)
    (hfunction : env.inFunction = p.code.isSome) (hp : p.At c) (h : Resolves (runTask p) env g r g') :
    Completed c (noted g' p.code (r.1 c)) := by
  have hP : Accepts g'.uses (Told (seenBehind env g')) env.outline env.contract env.inFunction := accepts_told _ _ _ _
  have hwithin := g'.within_uses
  obtain ⟨hexprs, -⟩ := runTask_exprs (fun _ => trivial) hP h hwithin
  have hfree (hc : c.Noted) (hkind : c.kind = .library) : ∀ e ∈ (r.1 c).exprs, e.Each (Told .none) := by
    obtain ⟨k, hk, hsame⟩ := hhere
    have hnone (hfree : ∀ c, env.contract = some c → c.kind ≠ .library) : False := hfree k hk (hsame.trans hkind)
    exact fun e he => (hexprs c e he).elim (hc.library hkind e)
      (each_told_mono ⟨fun h => hnone h.2, fun _ h => hnone h.1⟩)
  have hlibrary (hc : c.Noted) (hkind : c.kind = .library) :
      ∀ e ∈ (noted g' p.code (r.1 c)).exprs, e.Each (Told .none) := fun e he => hfree hc hkind e (mem_exprs_noted he)
  obtain ⟨owner, code, task⟩ := p
  unfold runTask at h
  cases task with
  | body b =>
      obtain ⟨body, hbody, rfl⟩ := (makes_block env (fun _ => trivial) hP b).result h hwithin
      cases code with
      | none => exact completed_noted g' none rfl rfl rfl rfl fun hc => noted_init hc g'
      | some code =>
          refine completed_implementation code (fun _ => rfl) (fun i e he => ?_) hlibrary
          simp only [Implementation.exprs, Option.toList_some, List.flatMap_singleton, List.mem_append] at he ⊢
          exact he.elim (fun he => .inr (each_told_mono (seenBehind_below hfunction g') (hbody e he)))
            fun he => .inl (.inr he)
  | modifierArgs i args =>
      obtain ⟨xs, hxs, rfl⟩ := (makes_exprs hP args).result h hwithin
      cases code with
      | none => exact completed_noted g' none rfl rfl rfl rfl fun hc => noted_init hc g'
      | some code =>
          refine completed_implementation code (fun _ => rfl) (fun i e he => ?_) hlibrary
          simp only [Implementation.exprs, List.mem_append] at he ⊢
          rcases he with he | he
          · exact .inl (.inl he)
          · refine (mem_flatMap_modify he fun m e he => .inr ?_).imp_left .inr
            exact each_told_mono (seenBehind_below hfunction g') (hxs e he)
  | constantValue i value =>
      cases owner with
      | none =>
          obtain ⟨x, -, rfl⟩ := (makes_expr hP value).result h hwithin
          exact completed_noted g' code rfl rfl rfl rfl fun hc => noted_noted hc g' code
      | some owner =>
          obtain ⟨x, -, rfl⟩ := (makes_expr hP value).result h hwithin
          refine completed_noted g' code rfl rfl rfl rfl fun hc => noted_noted (c := { c with constants := _ }) ?_ g' code
          exact ⟨hc.code, hc.fields, hc.baseCalls, hfree hc⟩
  | fieldValue i value =>
      obtain ⟨x, hx, rfl⟩ := (makes_expr hP value).result h hwithin
      obtain rfl : code = none := hp
      refine completed_noted g' none rfl rfl rfl rfl fun hc => ⟨hc.code, fun f hf v hv => ?_, (noted_init hc g').baseCalls, ?_⟩
      · rcases mem_modify hf with hf | ⟨f, hf, rfl⟩
        · exact each_told_mono (below_initUses g' c) (hc.fields f hf v hv)
        · cases hv
          exact each_told_mono (seenBehind_below_init g' c) hx
      · exact hlibrary hc
  | baseArgs i args =>
      obtain ⟨xs, hxs, rfl⟩ := (makes_exprs hP args).result h hwithin
      rcases hp with hcode | ⟨hcode, ⟨f, hf, hne⟩, -⟩
      · obtain rfl : code = none := hcode
        refine completed_noted g' none rfl rfl (map_base_modify c i xs) rfl fun hc =>
          ⟨hc.code, (noted_init hc g').fields, fun b hb => ?_, hlibrary hc⟩
        rcases mem_modify hb with hb | ⟨b, hb, rfl⟩
        · exact (noted_init hc g').baseCalls b hb
        · exact .inl fun e he => each_told_mono (seenBehind_below_init g' c) (hxs e he)
      · obtain rfl : code = some .constructor := hcode
        refine completed_noted g' (some .constructor) rfl rfl (map_base_modify c i xs) rfl fun hc => ?_
        have hnoted := noted_noted hc g' (some .constructor)
        refine ⟨hnoted.code, hnoted.fields, fun b hb => ?_, hlibrary hc⟩
        rcases mem_modify hb with hb | ⟨b, hb, rfl⟩
        · exact hnoted.baseCalls b hb
        · obtain ⟨i, hi⟩ := List.exists_mem_of_ne_nil _ hne
          refine .inr ⟨_, congrArg (Option.map _) hf, noteUses g' i, List.mem_map_of_mem hi, fun e he => ?_⟩
          exact each_told_mono (uses_below_noteUses g' i)
            (each_told_mono (seenBehind_below hfunction g') (hxs e he))

end RunTask

-- An outline with everything noted, of classes that are known by their names.
structure Outline.Noted (o known : Outline) : Prop where
  classes : ∀ c ∈ o.classes, c.Noted
  names_nodup : (o.classes.map (·.name)).Nodup
  kinds : ∀ c ∈ o.classes, ∃ k, known.class? c.name = some k ∧ k.kind = c.kind

variable {o o' known : Outline} {r r' : Registry} {p : Pending} {pending : List Pending}

-- The only class with a name is the one that is found.
theorem class?_of_mem (hnodup : (o.classes.map (·.name)).Nodup) {c : ContractDecl} (hc : c ∈ o.classes) :
    o.class? c.name = some c := by
  have hsome : (o.class? c.name).isSome := by
    rw [Outline.class?, List.find?_isSome]
    exact ⟨c, hc, by simp⟩
  obtain ⟨k, hk⟩ := Option.isSome_iff_exists.mp hsome
  rw [hk, List.inj_on_of_nodup_map hnodup (class?_mem hk) hc (name_class? hk)]

-- A piece of code as it is resolved, with what becomes of the classes.
structure Turn (known o o' : Outline) (p : Pending) where
  env : Env
  start : Gathered
  inClass : ContractDecl → ContractDecl
  inFile : Outline → Outline
  behind : Gathered
  outline : env.outline = known
  contract : env.contract = p.owner.bind known.class?
  inFunction : env.inFunction = p.code.isSome
  locals : start.locals = (((p.owner.bind known.class?).bind fun c => p.code.bind (implementation? c)).map
    implementationScope).getD []
  resolves : Resolves (runTask p) env start (inClass, inFile) behind

namespace Turn

-- The class that the code belongs to, with the code in it, and the others as they are.
def change (t : Turn known o o' p) (c : ContractDecl) : ContractDecl :=
  if some c.name = p.owner then noted t.behind p.code (t.inClass c) else c

theorem name_change (t : Turn known o o' p) (c : ContractDecl) : (t.change c).name = c.name := by
  rw [change]
  split
  · next howner => exact (noted_name _ _ _).trans ((runTask_amends t.resolves).1 c howner.symm).name
  · rfl

end Turn

theorem runPending_turn (h : runPending known (o, r) p = .ok (o', r')) :
    ∃ t : Turn known o o' p, o' = t.inFile { o with classes := o.classes.map t.change } ∧
      o'.classes = o.classes.map t.change := by
  unfold Resolve.runPending at h
  obtain ⟨⟨⟨inClass, inFile⟩, gathered⟩, htask, h⟩ := bind_eq_ok.mp h
  cases h
  exact ⟨⟨_, _, inClass, inFile, gathered, rfl, rfl, rfl, rfl, htask⟩, rfl, (runTask_amends htask).2 _⟩

theorem Outline.Noted.runPending (ho : o.Noted known) (hp : p.Placed o)
    (h : runPending known (o, r) p = .ok (o', r')) :
    o'.Noted known ∧ ∀ q : Pending, q.Placed o → q.Placed o' := by
  obtain ⟨t, -, hclasses⟩ := runPending_turn h
  have hcompleted (c : ContractDecl) (hc : c ∈ o.classes) (howner : some c.name = p.owner) :
      Completed c (noted t.behind p.code (t.inClass c)) := by
    refine completed_runTask ?_ t.inFunction (hp c.name c howner.symm (class?_of_mem ho.names_nodup hc)) t.resolves
    rw [t.contract, ← howner]
    exact ho.kinds c hc
  have hchange (c : ContractDecl) (hc : c ∈ o.classes) :
      Stays c (t.change c) ∧ (t.change c).kind = c.kind ∧ (c.Noted → (t.change c).Noted) := by
    rw [Turn.change]
    split
    · next howner =>
        obtain ⟨hkind, hstays, hnoted⟩ := hcompleted c hc howner
        exact ⟨hstays, hkind, hnoted⟩
    · exact ⟨⟨id, fun _ => id⟩, rfl, id⟩
  refine ⟨⟨?_, ?_, ?_⟩, fun q hq => hq.of_map hclasses t.name_change fun c hc => (hchange c hc).1⟩
  · rw [hclasses, List.forall_mem_map]
    exact fun c hc => (hchange c hc).2.2 (ho.classes c hc)
  · have hnames : o'.classes.map (·.name) = o.classes.map (·.name) := by
      rw [hclasses, List.map_map]
      exact List.map_congr_left fun c _ => t.name_change c
    exact hnames ▸ ho.names_nodup
  · rw [hclasses, List.forall_mem_map]
    intro c hc
    rw [t.name_change, (hchange c hc).2.1]
    exact ho.kinds c hc

theorem Outline.Noted.foldlM (ho : o.Noted known) (hp : ∀ p ∈ pending, p.Placed o)
    (h : pending.foldlM (Resolve.runPending known) (o, r) = .ok (o', r')) : o'.Noted known := by
  induction pending generalizing o r with
  | nil =>
      cases h
      exact ho
  | cons p pending ih =>
      obtain ⟨hfirst, hrest⟩ := List.forall_mem_cons.mp hp
      rw [List.foldlM_cons] at h
      obtain ⟨⟨mid, r₁⟩, hmid, h⟩ := bind_eq_ok.mp h
      obtain ⟨hnoted, hplaced⟩ := ho.runPending hfirst hmid
      exact ih hnoted (fun q hq => hplaced q (hrest q hq)) h

-- In a package everything is noted.
theorem package_noted {name : String} {unit : Solidity.SourceUnit} {p : Package} (h : package name unit = .ok p) :
    ∀ c ∈ p.classes, c.Noted := by
  unfold package at h
  obtain ⟨draft, hdraft, h⟩ := bind_eq_ok.mp h
  obtain ⟨-, -, h⟩ := bind_eq_ok.mp h
  obtain ⟨⟨o, registry⟩, hrun, h⟩ := bind_eq_ok.mp h
  obtain ⟨known, hknown, hrun⟩ : ∃ known : Outline, known.classes = draft.outline.classes ∧
      draft.pending.foldlM (runPending known) (draft.outline, draft.registry) = .ok (o, registry) := by
    refine ⟨_, ?_, hrun⟩
    rfl
  obtain ⟨hblank, -, hplaced⟩ := leaves_declareUnit hdraft
  have hsound := sound_declareUnit hdraft
  have hclasses : p.classes = o.classes.map (finished o) := by
    cases h
    rw [Outline.flatten, List.map_map]
    rfl
  have hstart : draft.outline.Noted known := by
    refine ⟨fun c hc => noted_of_exprs (hblank.classes c hc), hsound.names_nodup, fun c hc => ⟨c, ?_, rfl⟩⟩
    rw [Outline.class?, hknown]
    exact hsound.class_eq hc
  rw [hclasses, List.forall_mem_map]
  intro c hc
  rw [finished_toContractDecl]
  exact (hstart.foldlM hplaced hrun).classes c hc

end Resolve

end RustContracts
