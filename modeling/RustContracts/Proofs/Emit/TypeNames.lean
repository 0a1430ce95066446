import Mathlib
import RustContracts.Proofs.Emit.Mention
import RustContracts.Solidity.Parse

-- The structs and enums that a file declares: those of the source that its contract sees, and those that every file
-- has.
namespace RustContracts

namespace Rust

def typeNames : Item → List String
  | .struct _ name _ _ => [name]
  | .enum _ name _ => [name]
  | _ => []

-- The types that a file declares.
def File.typeNames (f : File) : List String := f.gather Rust.typeNames

def fieldTypes : Item → List String
  | .struct _ _ fields _ => fields.map (·.type)
  | _ => []

-- The types that fields of structs are declared with.
def File.fieldTypes (f : File) : List String := f.gather Rust.fieldTypes

end Rust

namespace Emit

open Program
open Rust (gatherOf)

variable {E : Env} {s s' : State}

-- The types of the source that a contract sees: those of the file, then those of its chain, base classes first.
def seenTypes (p : Package) (c : Contract) : List String :=
  ((p.visibleEnums c).map (·.name) ++ (p.visibleStructs c).map (·.name)).map Rust.Name.type

-- All types of a file. Events are structs, where the target has a type for them at all.
def fileTypes (p : Package) (c : Contract) : Target → List String
  | .ink _ => seenTypes p c ++ (p.visibleEvents c).map (fun ev => Rust.Name.type ev.name) ++
      ["Error", Rust.Name.type c.name]
  | .soroban => seenTypes p c ++ (if c.storage.isEmpty then [] else ["DataKey"]) ++ ["Error", Rust.Name.type c.name]

-- Steps that write an item for each declaration, each of which declares one type.

theorem typeNames_mapM {α : Type} {f : α → Emit Rust.Item} (name : α → String) {as : List α} {items : List Rust.Item}
    (hw : Writes (as.mapM f) E s items s')
    (hf : ∀ a item t t', Writes (f a) E t item t' → item.gather Rust.typeNames = [name a]) :
    gatherOf Rust.typeNames items = as.map name := by
  have hitems := writes_mapM hw
  clear hw
  induction hitems with
  | nil => rfl
  | cons hitem _ ih =>
      obtain ⟨t, t', hitem⟩ := hitem
      rw [gatherOf, hf _ _ _ _ hitem, ih, List.map_cons, List.singleton_append]

theorem typeNames_enumItem (e : EnumDecl) {item : Rust.Item} (hw : Writes (enumItem e) E s item s') :
    item.gather Rust.typeNames = [Rust.Name.type e.name] := by
  unfold enumItem at hw
  rw [writes_of_target] at hw
  cases htarget : E.target with
  | ink version =>
      rw [htarget] at hw
      obtain ⟨rfl, -⟩ := writes_pure.mp hw
      rfl
  | soroban =>
      rw [htarget] at hw
      obtain ⟨_, s₁, -, hw⟩ := writes_bind.mp hw
      obtain ⟨rfl, -⟩ := writes_pure.mp hw
      rfl

theorem typeNames_structItem (d : StructDecl) {item : Rust.Item} (hw : Writes (structItem d) E s item s') :
    item.gather Rust.typeNames = [Rust.Name.type d.name] := by
  unfold structItem at hw
  rw [writes_of_target] at hw
  cases htarget : E.target with
  | ink version =>
      rw [htarget] at hw
      obtain ⟨fields, s₁, -, hw⟩ := writes_bind.mp hw
      obtain ⟨rfl, -⟩ := writes_pure.mp hw
      rfl
  | soroban =>
      rw [htarget] at hw
      obtain ⟨_, s₁, -, hw⟩ := writes_bind.mp hw
      obtain ⟨fields, s₂, -, hw⟩ := writes_bind.mp hw
      obtain ⟨rfl, -⟩ := writes_pure.mp hw
      rfl

theorem typeNames_eventItem {v : InkVersion} (ev : EventDecl) {item : Rust.Item}
    (hw : Writes (Ink.eventItem v ev) E s item s') : item.gather Rust.typeNames = [Rust.Name.type ev.name] := by
  obtain ⟨fields, s₁, -, hw⟩ := writes_bind.mp hw
  obtain ⟨rfl, -⟩ := writes_pure.mp hw
  rfl

-- The types that every file has.

theorem typeNames_errorItems {entries : List ErrorEntry} {items : List Rust.Item}
    (hw : Writes (errorItems entries) E s items s') : gatherOf Rust.typeNames items = ["Error"] := by
  unfold errorItems at hw
  rw [writes_of_target] at hw
  cases htarget : E.target with
  | ink version =>
      rw [htarget] at hw
      obtain ⟨_, s₁, -, hw⟩ := writes_bind.mp hw
      obtain ⟨variants, s₂, -, hw⟩ := writes_bind.mp hw
      obtain ⟨rfl, -⟩ := writes_pure.mp hw
      rfl
  | soroban =>
      rw [htarget] at hw
      obtain ⟨_, s₁, -, hw⟩ := writes_bind.mp hw
      obtain ⟨rfl, -⟩ := writes_pure.mp hw
      rfl

theorem typeNames_storageItems {items : List Rust.Item} (hw : Writes storageItems E s items s') :
    gatherOf Rust.typeNames items = match E.target with
      | .ink _ => [Rust.Name.type E.contract.name]
      | .soroban => if E.contract.storage.isEmpty then [] else ["DataKey"] := by
  unfold storageItems at hw
  rw [writes_of_target] at hw
  cases htarget : E.target with
  | ink version =>
      rw [htarget] at hw
      obtain ⟨env, s₁, henv, hw⟩ := writes_bind.mp hw
      obtain ⟨rfl, -⟩ := writes_read.mp henv
      obtain ⟨fields, s₂, -, hw⟩ := writes_bind.mp hw
      obtain ⟨rfl, -⟩ := writes_pure.mp hw
      rfl
  | soroban =>
      rw [htarget] at hw
      obtain ⟨env, s₁, henv, hw⟩ := writes_bind.mp hw
      obtain ⟨rfl, -⟩ := writes_read.mp henv
      dsimp only at hw ⊢
      split at hw
      · next hempty =>
          obtain ⟨rfl, -⟩ := writes_pure.mp hw
          rw [if_pos hempty]
          rfl
      · next hempty =>
          obtain ⟨_, s₂, -, hw⟩ := writes_bind.mp hw
          obtain ⟨variants, s₃, -, hw⟩ := writes_bind.mp hw
          obtain ⟨rfl, -⟩ := writes_pure.mp hw
          rw [if_neg hempty]
          rfl

theorem typeNames_interfaces {items : List Rust.Item} (hw : Writes calledInterfaces E s items s') :
    gatherOf Rust.typeNames items = [] := by
  obtain ⟨state, s₁, hstate, hw⟩ := writes_bind.mp hw
  obtain ⟨env, s₂, henv, hw⟩ := writes_bind.mp hw
  obtain ⟨groups, s₃, hgroups, hw⟩ := writes_bind.mp hw
  obtain ⟨rfl, -⟩ := writes_pure.mp hw
  rw [Rust.gatherOf_eq, List.flatMap_eq_nil_iff, List.forall_mem_flatten]
  intro group hgroup item hitem
  obtain ⟨i, -, t, t', hgroup⟩ := forall₂_exists (writes_mapM hgroups).flip hgroup
  obtain ⟨attrs, methods, rfl, -⟩ := trait_of_interface hgroup
  obtain rfl := List.mem_singleton.mp hitem
  rfl

theorem typeNames_types {enums structs : List Rust.Item} {s₁ s₂ : State}
    (henums : Writes ((E.package.visibleEnums E.contract).mapM enumItem) E s enums s₁)
    (hstructs : Writes ((E.package.visibleStructs E.contract).mapM structItem) E s₁ structs s₂) :
    gatherOf Rust.typeNames (enums ++ structs) = seenTypes E.package E.contract := by
  have henums := typeNames_mapM (fun e : EnumDecl => Rust.Name.type e.name) henums fun e _ _ _ => typeNames_enumItem e
  have hstructs := typeNames_mapM (fun d : StructDecl => Rust.Name.type d.name) hstructs
    fun d _ _ _ => typeNames_structItem d
  rw [Rust.gatherOf_append, henums, hstructs, seenTypes, List.map_append, List.map_map, List.map_map]
  rfl

theorem typeNames_of_file {out : Rust.File} (hfile : file E.package E.contract E.target = .ok out) :
    out.typeNames = fileTypes E.package E.contract E.target := by
  obtain ⟨henums, hstructs, hstorage, hevents, herrors, -, -, -, hinterfaces, hw⟩ := parts_of_file hfile
  have htypes := typeNames_types henums hstructs
  have hstorage := typeNames_storageItems hstorage
  have herrors := typeNames_errorItems herrors
  have hinterfaces := typeNames_interfaces hinterfaces
  rw [Rust.File.typeNames, gather_assemble (fun _ => rfl) hw]
  unfold eventItems at hevents
  rw [writes_of_target] at hevents
  cases htarget : E.target with
  | ink version =>
      rw [htarget] at hevents hstorage
      have hevents := typeNames_mapM (fun ev : EventDecl => Rust.Name.type ev.name) hevents
        fun ev _ _ _ => typeNames_eventItem ev
      simp only [htypes, hstorage, hevents, herrors, hinterfaces]
      simp only [fileTypes, Rust.typeNames, List.nil_append, List.append_nil, List.append_assoc, List.singleton_append]
  | soroban =>
      rw [htarget] at hstorage
      simp only [htypes, hstorage, herrors, hinterfaces]
      simp only [fileTypes, Rust.typeNames, ite_self, List.append_nil, List.append_assoc, List.singleton_append]

theorem seenTypes_subset (p : Package) (c : Contract) (target : Target) : seenTypes p c ⊆ fileTypes p c target := by
  intro type htype
  cases target with
  | ink v => exact List.mem_append_left _ (List.mem_append_left _ htype)
  | soroban => exact List.mem_append_left _ (List.mem_append_left _ htype)

-- A file declares the types of the source that its contract sees, with those for its events and state and the type of
-- its errors. Types of a library or of another contract, which the source can name with a dot, are not among them.
-- Where the source spells none of those, each type that the file mentions is declared in it or known everywhere.
theorem file_declares_seen {p : Package} {c : Contract} {target : Target} {out : Rust.File}
    (hfile : file p c target = .ok out) :
    out.typeNames = fileTypes p c target ∧
      ∀ {name : String} {unit : Solidity.SourceUnit}, Resolve.package name unit = .ok p → c ∈ p.classes →
        (∀ t ∈ spelledTypes p c target, ∀ r ∈ t.declared, Rust.Name.type r.name ∈ seenTypes p c) →
        ∀ mentioned ∈ out.mentions, mentioned ∈ Rust.knownTypes ∨
          ∃ type ∈ out.typeNames, mentioned ∈ Rust.typeNamesIn type := by
  have htypes := typeNames_of_file (E := ⟨p, c, target⟩) hfile
  refine ⟨htypes, fun hp hc hseen => ?_⟩
  rw [htypes]
  exact mentions_of_file (sourced_package hp hc target) hfile
    fun t ht r hr => seenTypes_subset p c target (hseen t ht r hr)

-- Without fields there are no keys.
example : fileTypes default { (default : Contract) with name := "vault" } .soroban = ["Error", "Vault"] := by
  decide +kernel

namespace Dotted

-- A contract that names types by the class that declares them, which may be among its bases.

def source (bases : String) : String :=
  "contract K \x7b enum E \x7b A \x7d struct S \x7b bool on; \x7d \x7d contract C " ++ bases ++
    " \x7b K.S s; K.E public e; \x7d"

def packageOf (bases : String) : Option Package := do
  let unit ← (Solidity.parse (source bases)).toOption
  (Resolve.package "sample" unit).toOption

-- What the file for `C` declares and what it mentions: types of fields and results of functions.
def namesOf (bases : String) (target : Target) : Option (List String × List String × List String) := do
  let p ← packageOf bases
  let c ← p.class? "C"
  let out ← (file p c target).toOption
  return (out.typeNames, out.fieldTypes, out.methods.map (·.result))

-- Whether `C` sees all types that are spelled for its file, and the file declares these types.
def declaresSeen (names : List String) (p : Package) : Bool :=
  (p.class? "C").any fun c =>
    (spelledTypes p c (.ink .v5)).all (fun t => t.declared.all fun r => (seenTypes p c).contains (Rust.Name.type r.name)) &&
      (file p c (.ink .v5)).toOption.any fun out => out.typeNames = names

theorem declaresSeen_base : (packageOf "is K").any (declaresSeen ["E", "S", "Error", "C"]) = true := by decide +kernel

theorem types_of_base : ∃ p c out, packageOf "is K" = some p ∧ p.class? "C" = some c ∧ file p c (.ink .v5) = .ok out ∧
    fileTypes p c (.ink .v5) = ["E", "S", "Error", "C"] ∧
    ∀ mentioned ∈ out.mentions, mentioned ∈ Rust.knownTypes ∨
      ∃ type ∈ ["E", "S", "Error", "C"], mentioned ∈ Rust.typeNamesIn type := by
  obtain ⟨p, hp, hsees⟩ := (Option.any_eq_true _ _).mp declaresSeen_base
  obtain ⟨c, hc, hsees⟩ := (Option.any_eq_true _ _).mp hsees
  obtain ⟨hspelled, hwritten⟩ := Bool.and_eq_true_iff.mp hsees
  obtain ⟨out, hfile, hdeclared⟩ := exists_file hwritten
  replace hdeclared := of_decide_eq_true hdeclared
  obtain ⟨htypes, hmentions⟩ := file_declares_seen hfile
  refine ⟨p, c, out, hp, hc, hfile, htypes.symm.trans hdeclared, ?_⟩
  rw [← hdeclared]
  obtain ⟨unit, -, hresolved⟩ := Option.bind_eq_some_iff.mp hp
  refine @hmentions "sample" unit ?_ (List.mem_of_find?_eq_some hc) fun t ht r hr => ?_
  · cases hpackage : Resolve.package "sample" unit with
    | error d =>
        rw [hpackage] at hresolved
        cases hresolved
    | ok q =>
        rw [hpackage] at hresolved
        exact congrArg Except.ok (Option.some.inj hresolved)
  · exact List.contains_iff_mem.mp (List.all_eq_true.mp (List.all_eq_true.mp hspelled t ht) r hr)

-- Types of a class that is no base are mentioned all the same.
theorem types_undeclared :
    namesOf "" (.ink .v5) = some (["Error", "C"], ["S", "E"], ["Self", "Result<E>"]) ∧
      namesOf "" .soroban = some (["DataKey", "Error", "C"], [], ["Result<E, Error>"]) := by decide +kernel

end Dotted

end Emit

end RustContracts
