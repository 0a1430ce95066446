import Mathlib
import RustContracts.Proofs.Emit.FunctionNames

-- The cells in which a contract keeps its state: a field of the storage struct or a variant of the storage keys for each
-- field of the chain, and when no two fields share one.
namespace RustContracts.Emit

open Program
open Rust (gatherOf identifier isIdentifier)

variable {E : Env} {s s' : State} {p : Package} {c : Contract}

-- The cell for a field of the source; keys are variants, and named like types.
def cellName (target : Target) (sourceName : String) : String :=
  match target with
  | .ink _ => Rust.Name.value sourceName
  | .soroban => Rust.Name.type (Rust.Name.value sourceName)

-- When fields of these names get cells of their own, under legal names.
def CellsClear (target : Target) (sourceNames : List String) : Prop :=
  sourceNames.Pairwise (fun n n' => cellName target n ≠ cellName target n') ∧
    ∀ n ∈ sourceNames, match target with
      | .ink _ => '$' ∉ n.toList ∧ n ≠ "_"
      | .soroban => cellName .soroban n ∉ Rust.ownWords

-- Fields along a chain, base classes first.
def fieldsOf (chain : List Contract) : List StorageField := chain.reverse.flatMap (·.fields)

-- Cells that are written.

def cellFor (target : Target) (f : StorageField) : String :=
  match target with
  | .ink _ => f.name
  | .soroban => Rust.Name.type f.name

theorem gatherOf_beside {items : List Rust.Item} (h : ∀ item ∈ items, Beside item) :
    gatherOf Rust.cellNames items = [] := by
  rw [Rust.gatherOf_eq, List.flatMap_eq_nil_iff]
  exact fun item hitem => (h item hitem).cells

theorem cells_inkStorage {version : InkVersion} {items : List Rust.Item}
    (hw : Writes (Ink.storageItems version) E s items s') :
    gatherOf Rust.cellNames items = E.contract.storage.map (·.name) := by
  obtain ⟨env, s₁, henv, hw⟩ := writes_bind.mp hw
  obtain ⟨rfl, -⟩ := writes_read.mp henv
  obtain ⟨fields, s₂, hfields, hw⟩ := writes_bind.mp hw
  obtain ⟨rfl, -⟩ := writes_pure.mp hw
  have hnames : fields.map (·.name) = E.contract.storage.map (·.name) := by
    refine (List.forall₂_eq_eq_eq ▸ List.forall₂_map_left_iff.mpr (List.forall₂_map_right_iff.mpr ?_) :)
    refine (writes_mapM hfields).flip.imp fun field f hfield => ?_
    obtain ⟨t, t', hfield⟩ := hfield
    obtain ⟨type, t₁, -, hfield⟩ := writes_bind.mp hfield
    obtain ⟨rfl, -⟩ := writes_pure.mp hfield
    rfl
  rw [← hnames]
  simp [gatherOf, Rust.Item.gather, Rust.cellNames, Rust.storageAttrs]

theorem cells_sorobanStorage {items : List Rust.Item} (hw : Writes Soroban.storageItems E s items s') :
    gatherOf Rust.cellNames items = E.contract.storage.map fun f => Rust.Name.type f.name := by
  obtain ⟨env, s₁, henv, hw⟩ := writes_bind.mp hw
  obtain ⟨rfl, -⟩ := writes_read.mp henv
  dsimp only at hw
  split at hw
  · next hempty =>
      obtain ⟨rfl, -⟩ := writes_pure.mp hw
      rw [List.isEmpty_iff.mp hempty]
      rfl
  · obtain ⟨_, s₂, -, hw⟩ := writes_bind.mp hw
    obtain ⟨variants, s₃, hvariants, hw⟩ := writes_bind.mp hw
    obtain ⟨rfl, -⟩ := writes_pure.mp hw
    have hnames : variants.map (·.name) = E.contract.storage.map fun f => Rust.Name.type f.name := by
      refine (List.forall₂_eq_eq_eq ▸ List.forall₂_map_left_iff.mpr (List.forall₂_map_right_iff.mpr ?_) :)
      refine (writes_mapM hvariants).flip.imp fun variant f hvariant => ?_
      obtain ⟨t, t', hvariant⟩ := hvariant
      obtain ⟨keys, t₁, -, hvariant⟩ := writes_bind.mp hvariant
      obtain ⟨_, t₂, -, hvariant⟩ := writes_bind.mp hvariant
      obtain ⟨rfl, -⟩ := writes_pure.mp hvariant
      rfl
    rw [← hnames]
    simp [gatherOf, Rust.Item.gather, Rust.cellNames, Rust.keyAttrs]

-- A file has a cell for each field, and no others.
theorem cells_of_file {out : Rust.File} (hfile : file E.package E.contract E.target = .ok out) :
    out.cells = E.contract.storage.map (cellFor E.target) := by
  obtain ⟨henums, hstructs, hstorage, hevents, herrors, -, -, -, hinterfaces, hw⟩ := parts_of_file hfile
  have htypes := gatherOf_beside (List.forall_mem_append.mpr
    ⟨(quiet_mapM quiet_enumItem _).2 _ _ _ _ henums, (quiet_mapM quiet_structItem _).2 _ _ _ _ hstructs⟩)
  have hevents := gatherOf_beside ((quiet_eventItems _).2 _ _ _ _ hevents)
  have herrors := gatherOf_beside ((quiet_errorItems _).2 _ _ _ _ herrors)
  have hinterfaces := gatherOf_beside (quiet_calledInterfaces.2 _ _ _ _ hinterfaces)
  rw [Rust.File.cells, gather_assemble (fun _ => rfl) hw]
  unfold storageItems at hstorage
  rw [writes_of_target] at hstorage
  cases htarget : E.target with
  | ink version =>
      rw [htarget] at hstorage
      simp only [htypes, hevents, herrors, hinterfaces, cells_inkStorage hstorage, Rust.cellNames, List.nil_append,
        List.append_nil]
      rfl
  | soroban =>
      rw [htarget] at hstorage
      simp only [htypes, herrors, hinterfaces, cells_sorobanStorage hstorage, Rust.cellNames, List.map_nil, ite_self,
        List.nil_append, List.append_nil]
      rfl

-- Names of the source.

theorem storage_package {name : String} {unit : Solidity.SourceUnit} (hp : Resolve.package name unit = .ok p)
    (hc : c ∈ p.classes) : c.storage = fieldsOf (p.chainOf c) := by
  obtain ⟨o, -, hclasses⟩ := Resolve.package_classes hp
  rw [hclasses] at hc
  obtain ⟨k, -, rfl⟩ := List.mem_map.mp hc
  rw [Resolve.finished_storage, Resolve.chainOf_finished hclasses, fieldsOf, ← List.map_reverse, List.flatMap_map]
  exact List.flatMap_congr fun j _ => by rw [Resolve.finished_toContractDecl]

theorem isIdentifier_cellName {n : String} (h : Solidity.isIdentifier n = true) (target : Target) :
    isIdentifier (cellName target n) = true ↔ match target with
      | .ink _ => '$' ∉ n.toList ∧ n ≠ "_"
      | .soroban => cellName .soroban n ∉ Rust.ownWords := by
  cases target with
  | ink version => exact Rust.Name.isIdentifier_value h
  | soroban => exact Rust.Name.isIdentifier_type _

theorem identifier_cellName_inj {n n' : String} (h : Solidity.isIdentifier n = true)
    (h' : Solidity.isIdentifier n' = true) (target : Target) :
    identifier (cellName target n) = identifier (cellName target n') ↔ cellName target n = cellName target n' := by
  cases target with
  | ink version => exact Rust.Name.identifier_value_inj h h'
  | soroban => rw [cellName, cellName, Rust.Name.identifier_type, Rust.Name.identifier_type]

-- A contract that is accepted keeps each field of its chain in a cell, in their order; the cells are apart and have
-- legal names exactly when the names of the fields allow it.
theorem storage_cells_apart_iff {name : String} {unit : Solidity.SourceUnit} {target : Target} {out : Rust.File}
    (hp : Resolve.package name unit = .ok p) (hnames : SourceNames p) (hc : c ∈ p.classes)
    (hfile : file p c target = .ok out) :
    out.cells = (fieldsOf (p.chainOf c)).map (fun f => cellName target f.sourceName) ∧
      (((out.cells.map identifier).Nodup ∧ ∀ cell ∈ out.cells, isIdentifier cell = true) ↔
        CellsClear target ((fieldsOf (p.chainOf c)).map (·.sourceName))) := by
  have hfields : ∀ f ∈ fieldsOf (p.chainOf c),
      f.name = Rust.Name.value f.sourceName ∧ Solidity.isIdentifier f.sourceName = true := by
    intro f hf
    obtain ⟨k, hk, hf⟩ := List.mem_flatMap.mp hf
    have hk := mem_of_chainOf (List.mem_reverse.mp hk)
    exact ⟨((Resolve.package_code hp).named k hk).fields f hf, hnames.fields k hk f hf⟩
  have hcells : out.cells = (fieldsOf (p.chainOf c)).map (fun f => cellName target f.sourceName) := by
    rw [cells_of_file (E := ⟨p, c, target⟩) hfile, storage_package hp hc]
    refine List.map_congr_left fun f hf => ?_
    cases target with
    | ink version => exact (hfields f hf).1
    | soroban => exact congrArg Rust.Name.type (hfields f hf).1
  refine ⟨hcells, ?_⟩
  rw [hcells, CellsClear, List.Nodup, List.pairwise_map, List.pairwise_map, List.pairwise_map, List.forall_mem_map,
    List.forall_mem_map]
  refine and_congr (List.Pairwise.iff_of_mem fun hf hf' => ?_) (forall₂_congr fun f hf => ?_)
  · exact not_congr (identifier_cellName_inj (hfields _ hf).2 (hfields _ hf').2 target)
  · exact isIdentifier_cellName (hfields f hf).2 target

-- Names that differ, with one cell.
example : identifier (cellName .soroban "aB") = identifier (cellName .soroban "a_b") ∧ "aB" ≠ "a_b" := by decide

namespace Storing

-- A contract with a field beside that of its base.

def storing (above below : String) : Solidity.SourceUnit :=
  ⟨default, [
    Resolve.plainContract "A" false [] [Deploy.fieldOf above],
    Resolve.plainContract "C" false ["A"] [Deploy.fieldOf below]]⟩

def fieldIn (owner name ident : String) : StorageField := { Deploy.fieldIn owner name with name := ident }

def bottom (above below identAbove identBelow : String) : Contract :=
  { Super.classOf "C" ["A"] ["C", "A"] [] [] with
    fields := [fieldIn "C" below identBelow], storage := [fieldIn "A" above identAbove, fieldIn "C" below identBelow] }

def storingPackage (above below identAbove identBelow : String) : Package :=
  { name := "sample"
    classes := [
      { Super.classOf "A" [] ["A"] [] [] with
        fields := [fieldIn "A" above identAbove], storage := [fieldIn "A" above identAbove] },
      bottom above below identAbove identBelow] }

def cells (p : Package) (c : Contract) (target : Target) : Option (List String) :=
  (file p c target).toOption.map (·.cells)

def plainPackage : Package := storingPackage "aB" "c" "a_b" "c"

def plainContract : Contract := bottom "aB" "c" "a_b" "c"

theorem package_storing : Resolve.package "sample" (storing "aB" "c") = .ok plainPackage := by with_unfolding_all rfl

theorem cells_plain : cells plainPackage plainContract .soroban = some ["AB", "C"] := by decide

theorem storing_apart : ∃ out, Resolve.package "sample" (storing "aB" "c") = .ok plainPackage ∧
    SourceNames plainPackage ∧ plainContract ∈ plainPackage.classes ∧ file plainPackage plainContract .soroban = .ok out ∧
    out.cells = ["AB", "C"] ∧
    CellsClear .soroban ((fieldsOf (plainPackage.chainOf plainContract)).map (·.sourceName)) := by
  have hcells := cells_plain
  unfold cells at hcells
  cases hout : file plainPackage plainContract .soroban with
  | error d =>
      rw [hout] at hcells
      cases hcells
  | ok out =>
      rw [hout] at hcells
      have hcells : out.cells = ["AB", "C"] := Option.some.inj hcells
      have hnames : SourceNames plainPackage := ⟨by decide, by decide, by decide⟩
      have hmem : plainContract ∈ plainPackage.classes := List.mem_of_getElem? (i := 1) rfl
      obtain ⟨-, hclear⟩ := storage_cells_apart_iff package_storing hnames hmem hout
      refine ⟨out, package_storing, hnames, hmem, rfl, hcells, hclear.mp ?_⟩
      rw [hcells]
      decide

-- Two spellings of a name are one cell.
theorem cells_shared :
    Resolve.package "sample" (storing "aB" "a_b") = .ok (storingPackage "aB" "a_b" "a_b" "a_b") ∧
    cells (storingPackage "aB" "a_b" "a_b" "a_b") (bottom "aB" "a_b" "a_b" "a_b") .soroban = some ["AB", "AB"] ∧
    cells (storingPackage "aB" "a_b" "a_b" "a_b") (bottom "aB" "a_b" "a_b" "a_b") (.ink .v5) = some ["a_b", "a_b"] :=
  ⟨by with_unfolding_all rfl, by decide +kernel, by decide +kernel⟩

end Storing

end RustContracts.Emit
