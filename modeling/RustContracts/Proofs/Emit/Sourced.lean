import RustContracts.Emit.Contract
import RustContracts.Proofs.Resolve.PackageCode

-- Where the code of a contract comes from: all of it, with what it inherits, is code of its package, and the calls in
-- it name functions that the package declares.
namespace RustContracts

namespace Program

-- All the code of a package, and what stands in it.

def Package.exprs (p : Package) : List Expr :=
  p.classes.flatMap (fun c => c.exprs) ++ p.constants.flatMap fun k => k.value.toList

def Package.Holds (p : Package) (x : Expr) : Prop := ∃ e ∈ p.exprs, x ∈ e.subexprs

-- An expression whose calls stand in the code of a package.
def Expr.From (p : Package) (e : Expr) : Prop := e.Each fun x => Resolve.isFunctionCall x = true → p.Holds x

variable {p : Package} {e : Expr}

theorem Package.from_of_mem (he : e ∈ p.exprs) : e.From p := fun _ hx _ => ⟨e, he, hx⟩

theorem Package.from_class {c : Contract} (hc : c ∈ p.classes) (he : e ∈ c.exprs) : e.From p :=
  from_of_mem (List.mem_append_left _ (List.mem_flatMap.mpr ⟨c, hc, he⟩))

theorem Expr.From.children (h : e.From p) : ∀ c ∈ e.children, c.From p := (Expr.each_iff.mp h).2

theorem mem_of_chainOf {c k : Contract} (hk : k ∈ p.chainOf c) : k ∈ p.classes := by
  obtain ⟨name, -, hk⟩ := List.mem_filterMap.mp hk
  exact List.mem_of_find?_eq_some hk

theorem ContractDecl.mem_exprs {c : ContractDecl} {f : Function} {i : Implementation}
    (hf : f ∈ c.constructor.toList ++ c.functions ++ c.modifiers) (hi : i ∈ f.implementations) (he : e ∈ i.exprs) :
    e ∈ c.exprs := by
  have hcode : e ∈ (c.constructor.toList ++ c.functions ++ c.modifiers).flatMap Function.exprs :=
    List.mem_flatMap.mpr ⟨f, hf, List.mem_flatMap.mpr ⟨i, hi, he⟩⟩
  simp only [exprs, List.mem_append]
  exact .inl (.inl (.inl hcode))

theorem Expr.from_iff (he : Resolve.isFunctionCall e = false) : e.From p ↔ ∀ c ∈ e.children, c.From p :=
  ⟨Expr.From.children, fun h => Expr.each_iff.mpr ⟨fun hcall => absurd (he.symm.trans hcall) Bool.false_ne_true, h⟩⟩

-- A getter reads a place along keys, and nothing else.

def Expr.isRead : Expr → Bool
  | .field _ _ | .var _ _ _ | .index _ _ _ _ => true
  | _ => false

theorem each_getterAccess {P : Expr → Prop} (hP : ∀ e, e.isRead = true → P e) {depth : Nat} {t : Ty}
    (he : e.Each P) : (getterAccess depth e t).2.1.Each P := by
  have hindex (e : Expr) (name : String) (key elem : Ty) (he : e.Each P) :
      (Expr.index e.start e (.var e.start name key) elem).Each P := by
    have hvar : (Expr.var e.start name key).Each P := Expr.each_iff.mpr ⟨hP _ rfl, by simp [Expr.children]⟩
    refine Expr.each_iff.mpr ⟨hP _ rfl, ?_⟩
    simp [Expr.children, he, hvar]
  fun_induction getterAccess depth e t with
  | case1 depth e key inner name read params place type heq ih =>
      rw [heq] at ih
      exact ih (hindex e name key inner he)
  | case2 depth e elem length name read params place type heq ih =>
      rw [heq] at ih
      exact ih (hindex e name _ elem he)
  | case3 => exact he

theorem has_getter {P : Expr → Prop} (hP : ∀ e, e.isRead = true → P e) (field : FieldDecl) :
    (getter field).Has fun i => ∀ e ∈ i.exprs, e.Each P := by
  intro i hi
  have hfield : (Expr.field field.start field).Each P := Expr.each_iff.mpr ⟨hP _ rfl, by simp [Expr.children]⟩
  obtain rfl := List.mem_singleton.mp hi
  refine ⟨fun e he => ?_, rfl⟩
  have hplace : e = (getterAccess 0 (.field field.start field) field.type).2.1 := by
    simpa [Implementation.exprs, Block.exprs, Block.substmts, substmtsList, Stmt.substmts, Stmt.directExprs] using he
  exact hplace ▸ each_getterAccess hP hfield

end Program

namespace Emit

open Program

-- The function that a library call names.
def functionIn (p : Package) (owner : String) (s : Signature) : Function :=
  ((((p.class? owner).map fun c => c.functions).getD []).find? (·.key = s.key)).getD { s with implementations := [] }

-- What a library call names: a class under whose name it is called, and a function with the signature of the call in
-- the class that declares it.
structure NamesLibrary (p : Package) (library owner : String) (s : Signature) (arity : Nat) : Prop where
  called : ∃ l ∈ p.classes, l.name = library
  declared : ∃ k ∈ p.classes, p.class? owner = some k ∧ functionIn p owner s ∈ k.functions
  signature : (functionIn p owner s).toSignature = s
  single : ∃ impl, (functionIn p owner s).implementations = [impl] ∧ impl.params = s.params
  params_length : s.params.length = arity

structure Sourced (E : Env) : Prop where
  -- the chain starts with the contract, and has each class once
  chain : ∃ bases, E.package.chainOf E.contract = E.contract :: bases
  chain_nodup : ((E.package.chainOf E.contract).map (·.name)).Nodup
  keys_nodup : (E.contract.dispatch.map (·.key)).Nodup
  entries : ∀ f ∈ E.contract.dispatch, f.Has fun i => ∀ e ∈ i.exprs, e.From E.package
  modifiers : ∀ m ∈ E.contract.modifierTable, ∀ i ∈ m.implementations, ∀ e ∈ i.exprs, e.From E.package
  constants : ∀ r c v, E.package.constant? r = some c → c.value = some v → v.From E.package
  libraries : ∀ start library owner s args, E.package.Holds (.libraryCall start library owner s args) →
    NamesLibrary E.package library owner s args.length

variable {name : String} {unit : Solidity.SourceUnit} {p : Package} {c : Contract} {o : Resolve.Outline}

theorem package_declared (hp : Resolve.package name unit = .ok p) (hc : c ∈ p.classes) {d : Function}
    (hd : d ∈ c.functions) : Resolve.DeclaredIn c d := by
  obtain ⟨o, hs, hclasses⟩ := Resolve.package_classes hp
  obtain ⟨k, hk, rfl⟩ := List.mem_map.mp (hclasses ▸ hc)
  rw [Resolve.finished_toContractDecl] at hd
  exact hs.declaredIn hk hd

theorem package_finds (hp : Resolve.package name unit = .ok p) {x : Expr} (hx : p.Holds x) :
    ∃ here, Resolve.Finds (Resolve.shapesOf p) here x := by
  have hcode := Resolve.package_code hp
  obtain ⟨e, he, hx⟩ := hx
  rcases List.mem_append.mp he with he | he
  · obtain ⟨c, hc, he⟩ := List.mem_flatMap.mp he
    exact ⟨_, hcode.classes c hc e he x hx⟩
  · obtain ⟨k, hk, he⟩ := List.mem_flatMap.mp he
    exact ⟨_, hcode.file k hk e (Option.mem_toList.mp he) x hx⟩

theorem namesLibrary_package (hp : Resolve.package name unit = .ok p) {start : Text.Position}
    {library owner : String} {s : Signature} {args : List Expr}
    (hx : p.Holds (.libraryCall start library owner s args)) : NamesLibrary p library owner s args.length := by
  obtain ⟨here, ⟨l, hl, hlname⟩, ⟨k, hk, hkname, hfind⟩, harity⟩ := package_finds hp hx
  obtain ⟨l, hlmem, rfl⟩ := List.mem_map.mp hl
  obtain ⟨k, hkmem, rfl⟩ := List.mem_map.mp hk
  have hclass : p.class? owner = some k := hkname ▸ (Resolve.package_code hp).class_eq hkmem
  obtain ⟨f, hf, hsignature⟩ : ∃ f, k.functions.find? (·.key = s.key) = some f ∧ f.toSignature = s := by
    rw [Resolve.shape, List.find?_map, Option.map_eq_some_iff] at hfind
    exact hfind
  have hfunction : functionIn p owner s = f := by
    rw [functionIn, hclass, Option.map_some, Option.getD_some, hf, Option.getD_some]
  have hmem := List.mem_of_find?_eq_some hf
  obtain ⟨impl, himpl, -, hparams, -⟩ := (package_declared hp hkmem hmem).single
  refine ⟨⟨l, hlmem, hlname⟩, ⟨k, hkmem, hclass, hfunction ▸ hmem⟩, ?_, ⟨impl, ?_, ?_⟩, harity⟩
  · rw [hfunction, hsignature]
  · rw [hfunction, himpl]
  · rw [hparams, hsignature]

theorem mem_of_chain (hs : o.Sound []) (hclasses : p.classes = o.classes.map (Resolve.finished o)) {k d : ContractDecl}
    (hd : d ∈ o.classes) (hk : k ∈ o.chainOf d) : Resolve.finished o k ∈ p.classes :=
  hclasses ▸ List.mem_map_of_mem ((hs.mem_chainOf hd).2 k hk)

-- What holds of all functions in a package holds of those that a class of it has gathered, and so for modifiers.

theorem functions_gathered (hp : Resolve.package name unit = .ok p) (hc : c ∈ p.classes) {Q : Implementation → Prop}
    (hcode : ∀ k ∈ p.classes, ∀ f ∈ k.functions, ∀ i ∈ f.implementations, Q i)
    (hgetter : ∀ field, (getter field).Has Q) : ∀ f ∈ c.dispatch, f.Has Q := by
  obtain ⟨o, hs, hclasses⟩ := Resolve.package_classes hp
  obtain ⟨c, hmem, rfl⟩ := List.mem_map.mp (hclasses ▸ hc)
  rw [Resolve.finished_dispatch]
  refine has_dispatch (fun k hk d hd i hi => ?_) hgetter
  have hd' : d ∈ (Resolve.finished o k).functions := by rwa [Resolve.finished_toContractDecl]
  obtain ⟨impl, himpl, -, hparams, -⟩ := (package_declared hp (mem_of_chain hs hclasses hmem hk) hd').single
  refine ⟨hcode _ (mem_of_chain hs hclasses hmem hk) d hd' i hi, ?_⟩
  rw [himpl, List.mem_singleton] at hi
  rw [hi, hparams]

theorem modifiers_gathered (hp : Resolve.package name unit = .ok p) (hc : c ∈ p.classes) {Q : Implementation → Prop}
    (hcode : ∀ k ∈ p.classes, ∀ m ∈ k.modifiers, ∀ i ∈ m.implementations, Q i) :
    ∀ m ∈ c.modifierTable, ∀ i ∈ m.implementations, Q i := by
  obtain ⟨o, hs, hclasses⟩ := Resolve.package_classes hp
  obtain ⟨c, hmem, rfl⟩ := List.mem_map.mp (hclasses ▸ hc)
  have htable : (Resolve.finished o c).modifierTable = (c.flatten (o.chainOf c)).modifierTable := by
    dsimp only [Resolve.finished]
    split <;> rfl
  rw [htable]
  refine implementations_modifierTable fun k hk d hd i hi => ?_
  refine hcode _ (mem_of_chain hs hclasses hmem hk) d ?_ i hi
  rwa [Resolve.finished_toContractDecl]

theorem implementations_gathered (hp : Resolve.package name unit = .ok p) (hc : c ∈ p.classes)
    {Q : Implementation → Prop} (hcode : ∀ k ∈ p.classes, ∀ f ∈ k.functions ++ k.modifiers, ∀ i ∈ f.implementations, Q i)
    (hgetter : ∀ field, (getter field).Has Q) :
    (∀ f ∈ c.dispatch, f.Has Q) ∧ ∀ m ∈ c.modifierTable, ∀ i ∈ m.implementations, Q i :=
  ⟨functions_gathered hp hc (fun k hk f hf => hcode k hk f (List.mem_append_left _ hf)) hgetter,
    modifiers_gathered hp hc fun k hk m hm => hcode k hk m (List.mem_append_right _ hm)⟩

-- What a package holds is all that a contract of it is written from.
theorem sourced_package (hp : Resolve.package name unit = .ok p) (hc : c ∈ p.classes) (target : Target) :
    Sourced ⟨p, c, target⟩ := by
  have hread (e : Expr) (he : e.isRead = true) (hcall : Resolve.isFunctionCall e = true) : p.Holds e := by
    cases e with
    | call | libraryCall => cases he
    | _ => cases hcall
  have hfrom : ∀ k ∈ p.classes, ∀ f ∈ k.functions ++ k.modifiers, ∀ i ∈ f.implementations,
      ∀ e ∈ i.exprs, e.From p := by
    intro k hk f hf i hi e he
    refine Package.from_class hk (ContractDecl.mem_exprs (f := f) ?_ hi he)
    rw [List.append_assoc]
    exact List.mem_append_right _ hf
  obtain ⟨hentries, hmodifiers⟩ := implementations_gathered hp hc hfrom (has_getter hread)
  have hcode := Resolve.package_code hp
  obtain ⟨hnames, -, htable⟩ := Resolve.dispatch_gathers_declarations hp hc
  constructor
  · obtain ⟨graph, hgraph⟩ := hcode.ordered
    have hhead := (Inheritance.Graph.linearize_eq_ok_iff.mp (hgraph _ hc).1).head?
    obtain ⟨rest, hrest⟩ := List.head?_eq_some_iff.mp hhead
    refine ⟨rest.filterMap p.class?, ?_⟩
    rw [Package.chainOf, hrest, List.filterMap_cons, hcode.class_eq hc]
  · exact hnames ▸ hcode.chain_nodup hc
  · exact htable.keys_nodup
  · exact hentries
  · exact hmodifiers
  · intro r k v hk hv
    have hmem := List.mem_of_find?_eq_some hk
    refine Package.from_of_mem ?_
    rcases List.mem_append.mp hmem with hmem | hmem
    · exact List.mem_append_right _ (List.mem_flatMap.mpr ⟨k, hmem, by simp [hv]⟩)
    · obtain ⟨c', hc', hmem⟩ := List.mem_flatMap.mp hmem
      refine List.mem_append_left _ (List.mem_flatMap.mpr ⟨c', hc', ?_⟩)
      simp only [ContractDecl.exprs, List.mem_append]
      exact .inl (.inr (List.mem_flatMap.mpr ⟨k, hmem, by simp [hv]⟩))
  · exact fun start library owner s args hx => namesLibrary_package hp hx

end Emit

end RustContracts
