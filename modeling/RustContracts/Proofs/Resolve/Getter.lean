import Mathlib
import RustContracts.Proofs.Resolve.PackageCode

-- Getters: which public state variables have one, and what it reads.
namespace RustContracts

open Program

namespace Program

variable {table : List Function} {storage : List StorageField} {name : String}

-- An expression that reads a field at some parameters, one for each mapping and array on the way to its type: a key of
-- a mapping, an index of an array.
inductive Fetches (field : FieldDecl) : List Param → Expr → Ty → Prop
  | whole (start : Text.Position) : Fetches field [] (.field start field) field.type
  | key {params : List Param} {place : Expr} {key inner : Ty} (h : Fetches field params place (.mapping key inner))
      (start here : Text.Position) (name : String) :
      Fetches field (params ++ [⟨name, key⟩]) (.index start place (.var here name key) inner) inner
  | element {params : List Param} {place : Expr} {elem : Ty} {length : Int}
      (h : Fetches field params place (.array elem length)) (start here : Text.Position) (name : String) :
      Fetches field (params ++ [⟨name, .uint256⟩]) (.index start place (.var here name .uint256) elem) elem

-- A function that takes a key or an index for each layer of a field's type and returns what the field holds there.
structure Gets (field : FieldDecl) (g : Function) : Prop where
  kind : g.kind = .getter
  sourceName : g.sourceName = field.sourceName
  exposed : g.visibility = .isExternal ∧ g.mutability = .view
  params_nodup : (g.params.map (·.name)).Nodup
  reads : ∃ place type impl, Fetches field g.params place type ∧ (∀ key inner, type ≠ .mapping key inner) ∧
    (∀ elem length, type ≠ .array elem length) ∧ g.returns = [⟨"", type⟩] ∧ g.implementations = [impl] ∧
    impl.owner = field.owner ∧ impl.params = g.params ∧ impl.returns = g.returns ∧ impl.implemented = true ∧
    impl.body = some { start := field.start, stmts := [.returnValue field.start (some place)] }

-- The induction follows the layers of the type; the place read so far is reached with the parameters before.
theorem fetches_getterAccess {field : FieldDecl} (depth : Nat) (value : Expr) (t : Ty) :
    ∀ before, Fetches field before value t →
      Fetches field (before ++ (getterAccess depth value t).1) (getterAccess depth value t).2.1
        (getterAccess depth value t).2.2 ∧
      (∀ key inner, (getterAccess depth value t).2.2 ≠ .mapping key inner) ∧
      (∀ elem length, (getterAccess depth value t).2.2 ≠ .array elem length) := by
  induction depth, value, t using getterAccess.induct with
  | case1 depth value key inner name read params place type haccess ih =>
      intro before h
      rw [getterAccess]
      have hnext := ih _ (h.key value.start value.start name)
      rw [List.append_assoc] at hnext
      exact hnext
  | case2 depth value elem length name read params place type haccess ih =>
      intro before h
      rw [getterAccess]
      have hnext := ih _ (h.element value.start value.start name)
      rw [List.append_assoc] at hnext
      exact hnext
  | case3 depth value t hmapping harray =>
      intro before h
      rw [getterAccess]
      · exact ⟨by simpa using h, fun key inner heq => hmapping key inner heq, fun elem length heq => harray elem length heq⟩
      · exact hmapping
      · exact harray

theorem names_getterAccess (depth : Nat) (value : Expr) (t : Ty) :
    (getterAccess depth value t).1.map (·.name) =
      (List.range' depth (getterAccess depth value t).1.length).map fun i => "arg" ++ toString i := by
  induction depth, value, t using getterAccess.induct with
  | case1 depth value key inner name read params place type haccess ih =>
      rw [getterAccess]
      exact congrArg (name :: ·) ih
  | case2 depth value elem length name read params place type haccess ih =>
      rw [getterAccess]
      exact congrArg (name :: ·) ih
  | case3 depth value t hmapping harray =>
      rw [getterAccess]
      · rfl
      · exact hmapping
      · exact harray

theorem gets_getter (field : FieldDecl) : Gets field (getter field) := by
  obtain ⟨hreads, hmapping, harray⟩ := fetches_getterAccess 0 _ _ [] (.whole field.start)
  have hnames := names_getterAccess 0 (.field field.start field) field.type
  refine ⟨rfl, rfl, ⟨rfl, rfl⟩, ?_, _, _, _, hreads, hmapping, harray, rfl, rfl, rfl, rfl, rfl, rfl, rfl⟩
  change ((getterAccess 0 (.field field.start field) field.type).1.map (·.name)).Nodup
  rw [hnames]
  refine List.Nodup.map (fun i j hij => ?_) List.nodup_range'
  have hkey : functionKey "" i = functionKey "" j := by
    rw [functionKey, functionKey, (String.append_right_inj _).mp hij]
  exact (functionKey_inj hkey).2

-- Entries with a name. Getters are added in the order of storage, and only under a name that no entry has.

theorem filter_addGetters_of_mem {e : Function} (he : e ∈ table) (hname : e.sourceName = name) :
    (addGetters table storage).filter (·.sourceName = name) = table.filter (·.sourceName = name) := by
  induction storage generalizing table with
  | nil => rfl
  | cons field storage ih =>
      rw [addGetters, List.foldl_cons, ← addGetters]
      split
      · next hadd =>
          rw [ih (List.mem_append_left _ he), List.filter_append]
          have hother : field.sourceName ≠ name := by
            simp only [Bool.and_eq_true, Bool.not_eq_true', List.any_eq_false, decide_eq_true_eq] at hadd
            exact fun heq => hadd.2 e he (hname.trans heq.symm)
          simp [getter, hother]
      · exact ih he

theorem filter_addGetters (h : ∀ e ∈ table, e.sourceName ≠ name) :
    (addGetters table storage).filter (·.sourceName = name) =
      ((storage.find? fun f => f.isPublic && f.sourceName = name).map fun f => getter f.toFieldDecl).toList := by
  induction storage generalizing table with
  | nil => simpa [addGetters] using h
  | cons field storage ih =>
      rw [addGetters, List.foldl_cons, ← addGetters, List.find?_cons]
      by_cases hname : field.sourceName = name
      · have hany : table.any (·.sourceName = field.sourceName) = false := by
          simpa [hname] using h
        by_cases hpublic : field.isPublic = true
        · have hnew : getter field.toFieldDecl ∈ table ++ [getter field.toFieldDecl] := by simp
          rw [if_pos (by simp [hpublic, hany]), filter_addGetters_of_mem hnew hname, List.filter_append]
          have hnone : table.filter (·.sourceName = name) = [] := by simpa using h
          simp [hnone, hpublic, hname, getter]
        · rw [if_neg (by simp [hpublic])]
          simpa [hpublic] using ih h
      · have hskip : (field.isPublic && decide (field.sourceName = name)) = false := by simp [hname]
        rw [hskip]
        split
        · refine ih fun e he => ?_
          rcases List.mem_append.mp he with he | he
          · exact h e he
          · rw [List.mem_singleton.mp he]
            exact hname
        · exact ih h

-- An entry that is alone under its name keeps its identifier.
theorem filter_nameOverloads {g : Function} (h : table.filter (·.sourceName = name) = [g]) :
    (nameOverloads table).filter (·.sourceName = name) = [g] := by
  have hname : g.sourceName = name := by
    have hmem : g ∈ table.filter (·.sourceName = name) := h ▸ List.mem_singleton.mpr rfl
    simpa using (List.mem_filter.mp hmem).2
  have hkept (f : Function) : (if 1 < (table.filter (·.sourceName = f.sourceName)).length then
      { f with name := Rust.Name.value f.sourceName ++ "_" ++ toString f.params.length } else f).sourceName =
        f.sourceName := by
    split <;> rfl
  rw [nameOverloads, List.filter_map]
  simp only [Function.comp_def, hkept]
  rw [h, List.map_singleton, hname, h, if_neg (by simp)]

end Program

namespace Resolve

variable {p : Package} {c k : Contract} {name : String} {unit : Solidity.SourceUnit}

-- The public fields of a chain, base classes first: the one that is read under a name.
def readUnder? (c : Contract) (name : String) : Option StorageField :=
  c.storage.find? fun f => f.isPublic && f.sourceName = name

-- A public field whose name no function of the chain has can be read under its name: there is one entry of that name,
-- the getter of the first field that is public and has it.
theorem public_field_read (hp : package name unit = .ok p) (hc : c ∈ p.classes) (hkind : c.kind = .contract)
    (hk : k ∈ p.chainOf c) {field : StorageField} (hfield : field ∈ k.fields) (hpublic : field.isPublic = true)
    (hfunctions : ∀ j ∈ p.chainOf c, ∀ f ∈ j.functions, f.sourceName ≠ field.sourceName) :
    ∃ read g, readUnder? c field.sourceName = some read ∧
      c.dispatch.filter (·.sourceName = field.sourceName) = [g] ∧ Gets read.toFieldDecl g := by
  obtain ⟨o, hs, hclasses⟩ := package_classes hp
  obtain ⟨d, hmem, rfl⟩ := List.mem_map.mp (hclasses ▸ hc)
  have hchain := chainOf_finished hclasses d
  rw [finished_toContractDecl] at hkind
  rw [hchain] at hk
  obtain ⟨j, hj, rfl⟩ := List.mem_map.mp hk
  rw [finished_toContractDecl] at hfield
  have hstored : field ∈ (finished o d).storage := by
    rw [finished_storage]
    exact List.mem_flatMap.mpr ⟨j, List.mem_reverse.mpr hj, hfield⟩
  obtain ⟨read, hread⟩ : ∃ read, readUnder? (finished o d) field.sourceName = some read := by
    rw [← Option.isSome_iff_exists, readUnder?, List.find?_isSome]
    exact ⟨field, hstored, by simp [hpublic]⟩
  refine ⟨read, getter read.toFieldDecl, hread, ?_, gets_getter _⟩
  have hown : ∀ e ∈ ((o.chainOf d).reverse.flatMap (·.functions)).foldl mergeFunction [],
      e.sourceName ≠ field.sourceName := by
    have hkept : Kept fun f => f.sourceName ≠ field.sourceName := ⟨id, fun he _ _ => he⟩
    refine hkept.foldl_mergeFunction (by simp) fun f hf => ?_
    obtain ⟨j, hj, hf⟩ := List.mem_flatMap.mp hf
    refine hfunctions (finished o j) (hchain ▸ List.mem_map_of_mem (List.mem_reverse.mp hj)) f ?_
    rwa [finished_toContractDecl]
  rw [finished_dispatch, ContractDecl.flatten, if_pos hkind]
  refine filter_nameOverloads ?_
  rw [filter_addGetters hown]
  have hsame : (o.chainOf d).reverse.flatMap (·.fields) = (finished o d).storage := by rw [finished_storage]; rfl
  rw [hsame, ← readUnder?, hread]
  rfl

namespace Getter

def variableOf (type : Solidity.TypeName) (attrs : List String) (name : String)
    (value : Option Solidity.Expression) : Solidity.ContractPart := .variable default ⟨default, type, attrs, name, value⟩

-- A ledger of permissions that is public, a mapping of mappings, and a field that is not.
def ledger : Solidity.SourceUnit :=
  let mapped (value : Solidity.TypeName) : Solidity.TypeName :=
    ⟨default, .mapping default (plainType "address") "" value "", false, []⟩
  ⟨default, [plainContract "C" false [] [
    variableOf (mapped (mapped (plainType "bool"))) ["public"] "a" none,
    variableOf (plainType "bool") [] "b" none]]⟩

-- The fields and constants of a class, its functions, and the entries of its table.
structure Members where
  chain : List String
  fields : List (String × Bool)
  constants : List String
  functions : List String
  dispatch : List String

def members (c : Contract) : Members :=
  ⟨c.chain, c.fields.map fun f => (f.sourceName, f.isPublic), c.constants.map (·.sourceName),
    c.functions.map (·.sourceName), c.dispatch.map (·.sourceName)⟩

def table (unit : Solidity.SourceUnit) : Option (List (String × ContractKind × Members)) :=
  (package "sample" unit).toOption.map fun p => p.classes.map fun c => (c.name, c.kind, members c)

theorem table_ledger : table ledger =
    some [("C", .contract, ⟨["C"], [("a", true), ("b", false)], [], [], ["a"]⟩)] := by cbv

theorem public_field_read_ledger : ∃ p c field read g, package "sample" ledger = .ok p ∧ c ∈ p.classes ∧
    field ∈ c.fields ∧ field.sourceName = "a" ∧ readUnder? c "a" = some read ∧
    c.dispatch.filter (·.sourceName = "a") = [g] ∧ Gets read.toFieldDecl g := by
  have htable := table_ledger
  rw [table] at htable
  cases hp : package "sample" ledger with
  | error e =>
      rw [hp] at htable
      cases htable
  | ok p =>
      rw [hp] at htable
      have hmap : p.classes.map (fun c => (c.name, c.kind, members c)) = _ := Option.some.inj htable
      obtain ⟨c, hclasses, hc⟩ := List.map_eq_singleton_iff.mp hmap
      simp only [members, Prod.mk.injEq, Members.mk.injEq, List.map_eq_nil_iff] at hc
      obtain ⟨hname, hkind, hchain, hfields, -, hfunctions, -⟩ := hc
      have hmem : c ∈ p.classes := hclasses ▸ List.mem_singleton.mpr rfl
      have honly {k : Contract} (hk : k ∈ p.chainOf c) : k = c := by
        have hclass := ((package_code hp).mem_chainOf_iff.mp hk).1
        rwa [hclasses, List.mem_singleton] at hclass
      have hself : c ∈ p.chainOf c := (package_code hp).mem_chainOf_iff.mpr ⟨hmem, by simp [hchain, hname]⟩
      obtain ⟨field, hfield, hpair⟩ : ∃ f ∈ c.fields, (f.sourceName, f.isPublic) = ("a", true) :=
        List.mem_map.mp (hfields ▸ List.mem_cons_self)
      obtain ⟨hsource, hpublic⟩ := Prod.mk.inj hpair
      obtain ⟨read, g, hread, hg, hgets⟩ := public_field_read hp hmem hkind hself hfield hpublic
        fun j hj f hf => by simp [honly hj, hfunctions] at hf
      rw [hsource] at hread hg
      exact ⟨p, c, field, read, g, rfl, hmem, hfield, hsource, hread, hg, hgets⟩

-- A constant that is public has no entry.
theorem constant_unread : table ⟨default, [plainContract "C" false [] [
    variableOf (plainType "bool") ["public", "constant"] "K"
      (some ⟨default, default, ⟨⟨.term default (.bool true) [], []⟩, none⟩, none⟩)]]⟩ =
    some [("C", .contract, ⟨["C"], [], ["K"], [], []⟩)] := by cbv

end Getter

end Resolve

end RustContracts
