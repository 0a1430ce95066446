import RustContracts.Proofs.Emit.Deployment

-- The functions of a finished file: what deployment runs, the dispatch table and the helpers, and nothing else.
namespace RustContracts

namespace Rust

section Gather

variable {α : Type} {f : Item → List α}

mutual

-- What items have of a kind, those inside modules among them.
def Item.gather (f : Item → List α) : Item → List α
  | .module _ _ items => gatherOf f items
  | item => f item

def gatherOf (f : Item → List α) : List Item → List α
  | [] => []
  | item :: rest => item.gather f ++ gatherOf f rest

end

def File.gather (f : Item → List α) (file : File) : List α := gatherOf f file.items

theorem gatherOf_eq (items : List Item) : gatherOf f items = items.flatMap (·.gather f) := by
  induction items with
  | nil => rfl
  | cons item items ih => rw [gatherOf, ih, List.flatMap_cons]

@[simp] theorem gatherOf_append (items items' : List Item) :
    gatherOf f (items ++ items') = gatherOf f items ++ gatherOf f items' := by
  simp only [gatherOf_eq, List.flatMap_append]

theorem gatherOf_uses (hf : ∀ path, f (.use path) = []) (paths : List String) : gatherOf f (paths.map .use) = [] := by
  simp [gatherOf_eq, Item.gather, hf]

end Gather

-- The attributes of the struct and of the keys in which a file keeps the state of its contract.
def storageAttrs : List String := ["ink(storage)", "derive(Default)"]

def keyAttrs : List String := ["contracttype", "derive(Clone)"]

-- The names of the places for state: fields of the one, variants of the other.
def cellNames : Item → List String
  | .struct attrs _ fields _ => if attrs = storageAttrs then fields.map (·.name) else []
  | .enum attrs _ variants => if attrs = keyAttrs then variants.map (·.name) else []
  | _ => []

def File.cells (f : File) : List String := f.gather cellNames

end Rust

namespace Emit

open Program
open Rust (methodsOf gatherOf)

variable {E : Env} {K : List (String × String)} {here : Bool} {H : Prop} {s s' : State}

-- A step that asks for no helper and no interface, whether it fails or not.
def Silent {α : Type} (act : Emit α) : Prop :=
  ∀ E s, (outcome act E s).2.queue = s.queue ∧ (outcome act E s).2.helperNames = s.helperNames ∧
    (outcome act E s).2.interfaces = s.interfaces

section Silent

variable {α β : Type}

theorem Silent.same {act : Emit α} {a : α} (h : Silent act) (hw : Writes act E s a s') :
    s'.queue = s.queue ∧ s'.helperNames = s.helperNames ∧ s'.interfaces = s.interfaces := by
  have := h E s
  rwa [hw] at this

@[grind ←] theorem silent_pure (a : α) : Silent (pure a) := fun _ _ => ⟨rfl, rfl, rfl⟩

@[grind ←] theorem silent_throw (stop : Stop) : Silent (throw stop : Emit α) := fun _ _ => ⟨rfl, rfl, rfl⟩

@[grind ←] theorem silent_ended (text? : Option String) : Silent (Ink.ended text?) := by
  cases text? with
  | none => exact silent_throw _
  | some text => exact silent_pure _

@[grind .] theorem silent_read : Silent read := fun _ _ => ⟨rfl, rfl, rfl⟩

@[grind .] theorem silent_get : Silent (get : Emit State) := fun _ _ => ⟨rfl, rfl, rfl⟩

@[grind ←] theorem silent_bind {x : Emit α} {f : α → Emit β} (hx : Silent x) (hf : ∀ a, Silent (f a)) :
    Silent (x >>= f) := by
  intro E s
  have h := hx E s
  rw [outcome_bind]
  rcases ho : outcome x E s with ⟨r, s'⟩
  rw [ho] at h
  cases r with
  | error d => exact h
  | ok a => exact ⟨(hf a E s').1.trans h.1, (hf a E s').2.1.trans h.2.1, (hf a E s').2.2.trans h.2.2⟩

@[grind ←] theorem silent_mapM {f : α → Emit β} (hf : ∀ a, Silent (f a)) (xs : List α) : Silent (xs.mapM f) := by
  induction xs with
  | nil => exact silent_pure []
  | cons x xs ih =>
      rw [List.mapM_cons]
      exact silent_bind (hf x) fun _ => silent_bind ih fun _ => silent_pure _

theorem silent_modify {f : State → State}
    (hf : ∀ s, (f s).queue = s.queue ∧ (f s).helperNames = s.helperNames ∧ (f s).interfaces = s.interfaces) :
    Silent (modify f) := fun _ s => hf s

@[grind ←] theorem silent_use (path : String) : Silent (use path) :=
  silent_modify fun s => by split <;> exact ⟨rfl, rfl, rfl⟩

@[grind .] theorem silent_target : Silent target := silent_bind silent_read fun _ => silent_pure _

@[grind ←] theorem silent_useU256 (v : InkVersion) : Silent (Ink.useU256 v) := by
  cases v <;> exact silent_use _

@[grind ←] theorem silent_intName (signed : Bool) (bits : Nat) : Silent (Ink.intName signed bits) := by
  unfold Ink.intName
  cases Ink.primitiveWidth? bits with
  | some width => exact silent_pure _
  | none =>
      dsimp only
      split
      · exact silent_throw _
      · exact silent_pure _

@[grind ←] theorem silent_inkType (v : InkVersion) (t : Ty) : Silent (Ink.type v t) := by
  induction t using Ink.type.induct (motive_2 := fun ts => Silent (Ink.types v ts)) <;>
    grind [Ink.type, Ink.types, Ink.addressType, Ink.useString, Ink.useVec]

@[grind ←] theorem silent_inkTypes (v : InkVersion) (ts : List Ty) : Silent (Ink.types v ts) := by
  induction ts with
  | nil => exact silent_pure _
  | cons t ts ih =>
      rw [Ink.types]
      exact silent_bind (silent_inkType v t) fun _ => silent_bind ih fun _ => silent_pure _

@[grind ←] theorem silent_sorobanType (t : Ty) : Silent (Soroban.type t) := by
  induction t using Soroban.type.induct (motive_2 := fun ts => Silent (Soroban.types ts)) <;>
    grind [Soroban.type, Soroban.types, Soroban.named]

@[grind ←] theorem silent_sorobanTypes (ts : List Ty) : Silent (Soroban.types ts) := by
  induction ts with
  | nil => exact silent_pure _
  | cons t ts ih =>
      rw [Soroban.types]
      exact silent_bind (silent_sorobanType t) fun _ => silent_bind ih fun _ => silent_pure _

end Silent

-- A step that asks for no helper, and what is true of all that it writes.
def Quiet {α : Type} (P : α → Prop) (act : Emit α) : Prop := Silent act ∧ ∀ E s a s', Writes act E s a s' → P a

section Quiet

variable {α β : Type} {P : α → Prop} {Q : β → Prop}

theorem quiet_pure {a : α} (h : P a) : Quiet P (pure a) := by
  refine ⟨silent_pure _, fun E s a' s' hw => ?_⟩
  obtain ⟨rfl, -⟩ := writes_pure.mp hw
  exact h

theorem Quiet.imp {P' : α → Prop} {act : Emit α} (h : Quiet P act) (himp : ∀ a, P a → P' a) : Quiet P' act :=
  ⟨h.1, fun E s a s' hw => himp a (h.2 E s a s' hw)⟩

theorem quiet_bind {x : Emit β} {f : β → Emit α} (hx : Silent x) (hf : ∀ b, Quiet P (f b)) : Quiet P (x >>= f) := by
  refine ⟨silent_bind hx fun b => (hf b).1, fun E s a s' hw => ?_⟩
  obtain ⟨b, s₁, -, hw⟩ := writes_bind.mp hw
  exact (hf b).2 _ _ _ _ hw

theorem quiet_mapM {f : β → Emit α} (hf : ∀ b, Quiet P (f b)) (bs : List β) :
    Quiet (fun as => ∀ a ∈ as, P a) (bs.mapM f) := by
  refine ⟨silent_mapM (fun b => (hf b).1) bs, fun E s as s' hw => ?_⟩
  induction bs generalizing s s' as with
  | nil =>
      obtain ⟨rfl, -⟩ := writes_pure.mp hw
      simp
  | cons b bs ih =>
      rw [List.mapM_cons] at hw
      obtain ⟨a, s₁, ha, hw⟩ := writes_bind.mp hw
      obtain ⟨as, s₂, has, hw⟩ := writes_bind.mp hw
      obtain ⟨rfl, -⟩ := writes_pure.mp hw
      exact List.forall_mem_cons.mpr ⟨(hf b).2 _ _ _ _ ha, ih _ _ _ has⟩

theorem quiet_target {f : Target → Emit α} (hink : ∀ v, Quiet P (f (.ink v))) (hsoroban : Quiet P (f .soroban)) :
    Quiet P (target >>= f) :=
  quiet_bind silent_target fun t => match t with
    | .ink v => hink v
    | .soroban => hsoroban

theorem Quiet.growth {act : Emit α} {a : α} (h : Quiet P act) (hw : Writes act E s a s') : Growth E s s' :=
  .of_same (h.1.same hw).1 (h.1.same hw).2.1

end Quiet

-- Items that hold neither state nor functions: types, events, errors and traits.
inductive Beside : Rust.Item → Prop
  | enum {attrs : List String} {name : String} {variants : List Rust.Variant} (h : attrs ≠ Rust.keyAttrs) :
      Beside (.enum attrs name variants)
  | struct {attrs : List String} {name : String} {fields : List Rust.Field} {isUnit : Bool}
      (h : attrs ≠ Rust.storageAttrs) : Beside (.struct attrs name fields isUnit)
  | typeAlias {name type : String} : Beside (.typeAlias name type)
  | trait {attrs : List String} {name : String} {functions : List Rust.Function} : Beside (.trait attrs name functions)

theorem Beside.methods {item : Rust.Item} (h : Beside item) : item.methods = [] := by
  cases h <;> rfl

theorem methodsOf_beside {items : List Rust.Item} (h : ∀ item ∈ items, Beside item) : methodsOf items = [] :=
  Rust.methodsOf_eq_nil.mpr fun item hitem => (h item hitem).methods

theorem Beside.cells {item : Rust.Item} (h : Beside item) : item.gather Rust.cellNames = [] := by
  cases h with
  | enum h => exact if_neg h
  | struct h => exact if_neg h
  | typeAlias => rfl
  | trait => rfl

theorem quiet_enumItem (e : EnumDecl) : Quiet Beside (enumItem e) := by
  refine quiet_target (fun _ => quiet_pure (.enum (by decide))) ?_
  exact quiet_bind (silent_use _) fun _ => quiet_pure (.enum (by decide))

theorem quiet_structItem (d : StructDecl) : Quiet Beside (structItem d) := by
  refine quiet_target (fun v => ?_) (quiet_bind (silent_use _) fun _ => ?_)
  · refine quiet_bind (silent_mapM (fun f => ?_) _) fun _ => quiet_pure (.struct (by decide))
    exact silent_bind (silent_inkType v _) fun _ => silent_pure _
  · refine quiet_bind (silent_mapM (fun f => ?_) _) fun _ => quiet_pure (.struct (by decide))
    exact silent_bind (silent_sorobanType _) fun _ => silent_pure _

theorem silent_fieldType (v : InkVersion) (t : Ty) : Silent (Ink.fieldType v t) := by
  unfold Ink.fieldType
  split
  · exact silent_inkType v t
  · refine silent_bind (silent_inkTypes v _) fun _ => silent_bind (silent_inkType v _) fun _ => ?_
    exact silent_bind (silent_use _) fun _ => silent_pure _

theorem quiet_storageItems : Quiet (methodsOf · = []) storageItems := by
  refine quiet_target (fun v => ?_) ?_
  · refine quiet_bind silent_read fun _ => quiet_bind (silent_mapM (fun f => ?_) _) fun _ => quiet_pure rfl
    exact silent_bind (silent_fieldType v _) fun _ => silent_pure _
  · refine quiet_bind silent_read fun _ => ?_
    dsimp only
    split
    · exact quiet_pure rfl
    · refine quiet_bind (silent_use _) fun _ => quiet_bind (silent_mapM (fun f => ?_) _) fun _ => quiet_pure rfl
      exact silent_bind (silent_sorobanTypes _) fun _ => silent_bind (silent_sorobanType _) fun _ => silent_pure _

theorem quiet_eventItems (events : List EventDecl) : Quiet (∀ item ∈ ·, Beside item) (eventItems events) := by
  refine quiet_target (fun v => quiet_mapM (fun ev => ?_) events) (quiet_pure (by simp))
  refine quiet_bind (silent_mapM (fun fi => ?_) _) fun _ => quiet_pure (.struct ?_)
  · exact silent_bind (silent_inkType v _) fun _ => silent_pure _
  · split <;> decide

theorem quiet_errorItems (entries : List ErrorEntry) : Quiet (∀ item ∈ ·, Beside item) (errorItems entries) := by
  refine quiet_target (fun v => ?_) (quiet_bind (silent_use _) fun _ => quiet_pure ?_)
  · refine quiet_bind (silent_use _) fun _ => quiet_bind (silent_mapM (fun decl => ?_) _) fun _ => quiet_pure ?_
    · exact silent_bind (silent_inkTypes v _) fun _ => silent_pure _
    · exact List.forall_mem_cons.mpr ⟨.enum (by decide), List.forall_mem_singleton.mpr .typeAlias⟩
  · exact List.forall_mem_singleton.mpr (.enum (by decide))

theorem quiet_interfaceItems (c : Contract) : Quiet (∀ item ∈ ·, Beside item) (interfaceItems c) := by
  refine quiet_target (fun v => ?_) ?_
  · refine quiet_bind (silent_mapM (fun f => ?_) _) fun _ => quiet_pure (List.forall_mem_singleton.mpr .trait)
    refine silent_bind (silent_mapM (fun pi => ?_) _) fun _ => silent_bind (silent_inkType v _) fun _ =>
      silent_bind silent_read fun _ => silent_bind (silent_ended _) fun _ => silent_pure _
    exact silent_bind (silent_inkType v _) fun _ => silent_pure _
  · refine quiet_bind (silent_use _) fun _ => quiet_bind (silent_use _) fun _ =>
      quiet_bind (silent_mapM (fun f => ?_) _) fun _ => quiet_pure (List.forall_mem_singleton.mpr .trait)
    refine silent_bind (silent_mapM (fun pi => ?_) _) fun _ => silent_bind (silent_sorobanType _) fun _ => silent_pure _
    exact silent_bind (silent_sorobanType _) fun _ => silent_pure _

theorem quiet_calledInterfaces : Quiet (∀ item ∈ ·, Beside item) calledInterfaces := by
  refine quiet_bind silent_get fun s => quiet_bind silent_read fun env => ?_
  have hgroups := quiet_mapM quiet_interfaceItems
    ((env.package.ofKind .interface).filter fun c => s.interfaces.contains c.name)
  refine ⟨silent_bind hgroups.1 fun _ => silent_pure _, fun E s₁ items s₂ hw => ?_⟩
  obtain ⟨groups, s₃, hwritten, hw⟩ := writes_bind.mp hw
  obtain ⟨rfl, -⟩ := writes_pure.mp hw
  exact List.forall_mem_flatten.mpr (hgroups.2 _ _ _ _ hwritten)

-- The whole file.

theorem methods_assemble {m : Module} {out : Rust.File} (htypes : methodsOf m.types = [])
    (hstorage : methodsOf m.storage = []) (hevents : methodsOf m.events = []) (herrors : methodsOf m.errors = [])
    (hinterfaces : methodsOf m.interfaces = []) (hw : Writes (assemble m) E s out s') :
    out.methods = m.entries ++ m.helpers := by
  unfold assemble at hw
  rw [writes_of_target] at hw
  cases ht : E.target with
  | ink version =>
      rw [ht] at hw
      unfold Ink.assemble at hw
      obtain ⟨env, s₁, henv, hw⟩ := writes_bind.mp hw
      obtain ⟨imports, s₂, -, hw⟩ := writes_bind.mp hw
      obtain ⟨rfl, -⟩ := writes_pure.mp hw
      have houter : methodsOf (if m.interfaces.isEmpty then [] else
          (Ink.interfaceImports version imports).map Rust.Item.use ++ m.interfaces) = [] := by
        split <;> simp [hinterfaces, methodsOf]
      have hinherited : methodsOf (if m.interfaces.isEmpty then [] else [Rust.Item.use "super::*"]) = [] := by
        split <;> rfl
      simp only [Rust.File.methods, Rust.methodsOf_append, Rust.methodsOf_uses, methodsOf, Rust.Item.methods, houter,
        hinherited, htypes, hstorage, hevents, herrors, List.append_nil, List.nil_append]
  | soroban =>
      rw [ht] at hw
      unfold Soroban.assemble at hw
      obtain ⟨_, s₁, -, hw⟩ := writes_bind.mp hw
      obtain ⟨_, s₂, -, hw⟩ := writes_bind.mp hw
      obtain ⟨env, s₃, -, hw⟩ := writes_bind.mp hw
      obtain ⟨imports, s₄, -, hw⟩ := writes_bind.mp hw
      obtain ⟨rfl, -⟩ := writes_pure.mp hw
      simp only [Rust.File.methods, Rust.methodsOf_append, Rust.methodsOf_helpers, methodsOf, Rust.Item.methods, htypes,
        hstorage, herrors, hinterfaces, List.append_nil, List.nil_append]

-- What a file has of a kind comes from its parts and from what stands around its functions.
theorem gather_assemble {α : Type} {f : Rust.Item → List α} (hf : ∀ path, f (.use path) = []) {m : Module}
    {out : Rust.File} (hw : Writes (assemble m) E s out s') :
    out.gather f = match E.target with
      | .ink _ => gatherOf f m.interfaces ++ (gatherOf f m.types ++ gatherOf f m.events ++ gatherOf f m.errors ++
          gatherOf f m.storage ++ f (.impl [] "" (Rust.Name.type E.contract.name) (m.entries ++ m.helpers)))
      | .soroban => gatherOf f m.types ++ gatherOf f m.storage ++ gatherOf f m.errors ++ gatherOf f m.interfaces ++
          f (.struct ["contract"] (Rust.Name.type E.contract.name) [] true) ++
          f (.impl ["contractimpl"] "" (Rust.Name.type E.contract.name) m.entries) ++
          if m.helpers.isEmpty then [] else f (.impl [] "" (Rust.Name.type E.contract.name) m.helpers) := by
  unfold assemble at hw
  rw [writes_of_target] at hw
  have huses := Rust.gatherOf_uses hf
  cases ht : E.target with
  | ink version =>
      rw [ht] at hw
      obtain ⟨env, s₁, henv, hw⟩ := writes_bind.mp hw
      obtain ⟨rfl, -⟩ := writes_read.mp henv
      obtain ⟨imports, s₂, -, hw⟩ := writes_bind.mp hw
      obtain ⟨rfl, -⟩ := writes_pure.mp hw
      have houter : gatherOf f (if m.interfaces.isEmpty then [] else
          (Ink.interfaceImports version imports).map Rust.Item.use ++ m.interfaces) = gatherOf f m.interfaces := by
        split
        · next hempty => rw [List.isEmpty_iff.mp hempty]
        · rw [Rust.gatherOf_append, huses, List.nil_append]
      have hinherited : gatherOf f (if m.interfaces.isEmpty then [] else [Rust.Item.use "super::*"]) = [] := by
        split
        · rfl
        · exact huses ["super::*"]
      simp only [Rust.File.gather, Rust.gatherOf_append, huses, gatherOf, Rust.Item.gather, houter, hinherited,
        List.append_nil, List.nil_append]
  | soroban =>
      rw [ht] at hw
      obtain ⟨_, s₁, -, hw⟩ := writes_bind.mp hw
      obtain ⟨_, s₂, -, hw⟩ := writes_bind.mp hw
      obtain ⟨env, s₃, henv, hw⟩ := writes_bind.mp hw
      obtain ⟨rfl, -⟩ := writes_read.mp henv
      obtain ⟨imports, s₄, -, hw⟩ := writes_bind.mp hw
      obtain ⟨rfl, -⟩ := writes_pure.mp hw
      have hhelpers (items : List Rust.Item) : gatherOf f (if m.helpers.isEmpty then [] else items) =
          if m.helpers.isEmpty then [] else gatherOf f items := by
        split <;> rfl
      simp only [Rust.File.gather, Rust.gatherOf_append, gatherOf, Rust.Item.gather, hf, hhelpers,
        List.append_nil, List.nil_append]

theorem silent_importPaths : Silent importPaths := silent_bind silent_get fun _ => silent_pure _

theorem silent_assemble (m : Module) : Silent (assemble m) := by
  refine silent_bind silent_target fun t => ?_
  cases t with
  | ink v => exact silent_bind silent_read fun _ => silent_bind silent_importPaths fun _ => silent_pure _
  | soroban =>
      refine silent_bind (silent_use _) fun _ => silent_bind (silent_use _) fun _ => silent_bind silent_read fun _ => ?_
      exact silent_bind silent_importPaths fun _ => silent_pure _

-- The functions of a contract: what deployment runs, an entry for each function of the dispatch table, and each helper
-- that has been asked for. What callers from outside reach comes first.
inductive Layout (E : Env) (K : List (String × String)) (asked : List (String × Helper)) : List Rust.Function → Prop
  | mk {deployed inits entries helpers : List Rust.Function} (hdeployed : Deployed E K deployed inits)
      (hentries : List.Forall₂ (fun f => Emitted E K (entryConvention E f)) E.contract.dispatch entries)
      (hhelpers : List.Forall₂ (fun kh => Emitted E K (kh.2.convention E)) asked helpers) :
      Layout E K asked (deployed ++ entries.filter (·.isPublic) ++
        (inits ++ entries.filter (!·.isPublic) ++ helpers))

-- A file that is known to be written.

theorem exists_file {p : Package} {c : Contract} {target : Target} {P : Rust.File → Bool}
    (h : (file p c target).toOption.any P = true) : ∃ out, file p c target = .ok out ∧ P out = true := by
  cases hout : file p c target with
  | error d =>
      rw [hout] at h
      cases h
  | ok out =>
      rw [hout] at h
      exact ⟨out, rfl, h⟩

theorem file_of_isSome {p : Package} {c : Contract} {target : Target} (h : (file p c target).toOption.isSome = true) :
    ∃ out, file p c target = .ok out := by
  obtain ⟨out, hout, -⟩ := exists_file (P := fun _ => true) (Option.any_true.trans h)
  exact ⟨out, hout⟩

theorem writes_of_file {out : Rust.File} (h : file E.package E.contract E.target = .ok out) :
    Writes contract E {} out (outcome contract E {}).2 := Prod.ext h rfl

-- The parts of a contract, in the order in which they are written.
inductive Parts (E : Env) (s : State) (out : Rust.File) (s' : State) : Prop
  | mk {enums structs storage events errors interfaces : List Rust.Item}
      {deployed inits messages internals helpers : List Rust.Function} {s₁ s₂ s₃ s₄ s₅ s₆ s₇ s₈ s₉ : State}
      (enums_written : Writes ((E.package.visibleEnums E.contract).mapM enumItem) E s enums s₁)
      (structs_written : Writes ((E.package.visibleStructs E.contract).mapM structItem) E s₁ structs s₂)
      (storage_written : Writes storageItems E s₂ storage s₃)
      (events_written : Writes (eventItems (E.package.visibleEvents E.contract)) E s₃ events s₄)
      (errors_written : Writes (errorItems E.package.registry.entries) E s₄ errors s₅)
      (deployment_written : Writes deployment E s₅ (deployed, inits) s₆)
      (dispatch_written : Writes (dispatched E.contract.dispatch) E s₆ (messages, internals) s₇)
      (helpers_written : Writes (drainHelpers (helperBound E.package E.contract)) E s₇ helpers s₈)
      (interfaces_written : Writes calledInterfaces E s₈ interfaces s₉)
      (assembled : Writes (assemble
        { name := Rust.Name.value E.contract.name, types := enums ++ structs, storage := storage, events := events
          errors := errors, interfaces := interfaces, entries := deployed ++ messages
          helpers := inits ++ internals ++ helpers }) E s₉ out s') : Parts E s out s'

theorem parts_contract {out : Rust.File} (hw : Writes contract E s out s') : Parts E s out s' := by
  unfold contract at hw
  obtain ⟨env, s₀, henv, hw⟩ := writes_bind.mp hw
  obtain ⟨rfl, rfl⟩ := writes_read.mp henv
  obtain ⟨enums, s₁, henums, hw⟩ := writes_bind.mp hw
  obtain ⟨structs, s₂, hstructs, hw⟩ := writes_bind.mp hw
  obtain ⟨storage, s₃, hstorage, hw⟩ := writes_bind.mp hw
  obtain ⟨events, s₄, hevents, hw⟩ := writes_bind.mp hw
  obtain ⟨errors, s₅, herrors, hw⟩ := writes_bind.mp hw
  obtain ⟨⟨deployed, inits⟩, s₆, hdeployment, hw⟩ := writes_bind.mp hw
  obtain ⟨⟨messages, internals⟩, s₇, hdispatched, hw⟩ := writes_bind.mp hw
  obtain ⟨helpers, s₈, hhelpers, hw⟩ := writes_bind.mp hw
  obtain ⟨interfaces, s₉, hinterfaces, hw⟩ := writes_bind.mp hw
  exact .mk henums hstructs hstorage hevents herrors hdeployment hdispatched hhelpers hinterfaces hw

theorem parts_of_file {out : Rust.File} (hfile : file E.package E.contract E.target = .ok out) :
    Parts E {} out (outcome contract E {}).2 := parts_contract (writes_of_file hfile)

theorem growth_items {enums structs storage events errors : List Rust.Item} {s₁ s₂ s₃ s₄ s₅ : State}
    (henums : Writes ((E.package.visibleEnums E.contract).mapM enumItem) E s enums s₁)
    (hstructs : Writes ((E.package.visibleStructs E.contract).mapM structItem) E s₁ structs s₂)
    (hstorage : Writes storageItems E s₂ storage s₃)
    (hevents : Writes (eventItems (E.package.visibleEvents E.contract)) E s₃ events s₄)
    (herrors : Writes (errorItems E.package.registry.entries) E s₄ errors s₅) : Growth E s s₅ := by
  have htypes := ((quiet_mapM quiet_enumItem _).growth henums).trans ((quiet_mapM quiet_structItem _).growth hstructs)
  have hstate := (quiet_storageItems.growth hstorage).trans ((quiet_eventItems _).growth hevents)
  exact htypes.trans (hstate.trans ((quiet_errorItems _).growth herrors))

-- The steps that write functions, with what stands around them: everything before deployment and behind the last helper
-- asks for nothing.
theorem writes_contract {out : Rust.File} (hw : Writes contract E s out s') :
    ∃ s₁ deployed inits s₂ messages internals s₃ helpers s₄, Growth E s s₁ ∧
      Writes deployment E s₁ (deployed, inits) s₂ ∧
      Writes (dispatched E.contract.dispatch) E s₂ (messages, internals) s₃ ∧
      Writes (drainHelpers (helperBound E.package E.contract)) E s₃ helpers s₄ ∧
      s'.queue = s₄.queue ∧ s'.helperNames = s₄.helperNames ∧
      out.methods = deployed ++ messages ++ (inits ++ internals ++ helpers) := by
  obtain ⟨henums, hstructs, hstorage, hevents, herrors, hdeployment, hdispatched, hhelpers, hinterfaces, hw⟩ :=
    parts_contract hw
  have hbefore := growth_items henums hstructs hstorage hevents herrors
  obtain ⟨hqueue₉, hnames₉, -⟩ := quiet_calledInterfaces.1.same hinterfaces
  obtain ⟨hqueue, hnames, -⟩ := (silent_assemble _).same hw
  refine ⟨_, _, _, _, _, _, _, _, _, hbefore, hdeployment, hdispatched, hhelpers,
    hqueue.trans hqueue₉, hnames.trans hnames₉, ?_⟩
  refine methods_assemble ?_ (quiet_storageItems.2 _ _ _ _ hstorage)
    (methodsOf_beside ((quiet_eventItems _).2 _ _ _ _ hevents))
    (methodsOf_beside ((quiet_errorItems _).2 _ _ _ _ herrors))
    (methodsOf_beside (quiet_calledInterfaces.2 _ _ _ _ hinterfaces)) hw
  refine methodsOf_beside (List.forall_mem_append.mpr ⟨?_, ?_⟩)
  · exact (quiet_mapM quiet_enumItem _).2 _ _ _ _ henums
  · exact (quiet_mapM quiet_structItem _).2 _ _ _ _ hstructs

theorem file_layout (hE : Sourced E) {out : Rust.File} (hfile : file E.package E.contract E.target = .ok out) :
    ∃ asked, Agenda E asked (asked.map Prod.snd) (outcome contract E {}).2 ∧ (outcome contract E {}).2.queue = [] ∧
      Layout E (outcome contract E {}).2.helperNames asked out.methods := by
  have hw := writes_of_file hfile
  generalize (outcome contract E {}).2 = final at hw ⊢
  obtain ⟨s₁, deployed, inits, s₂, messages, internals, s₃, helpers, s₄, hbefore, hdeployment, hdispatched, hhelpers,
    hqueue, hnames, hmethods⟩ := writes_contract hw
  obtain ⟨hgrowth, hdeployed⟩ := emitted_deployment hE hdeployment
  obtain ⟨hgrowth', entries, hpair, hentries⟩ := emitted_dispatched hE (fun _ hf => hf) hdispatched
  obtain ⟨rfl, rfl⟩ := Prod.mk.inj hpair
  obtain ⟨asked, hagenda⟩ := Agenda.start.grow (hbefore.trans (hgrowth.trans hgrowth'))
  rw [List.nil_append] at hagenda
  obtain ⟨new, hagenda', hempty, hwritten⟩ := drained hE hagenda hhelpers
  have hsubset : s₃.helperNames ⊆ s₄.helperNames := by
    rw [hagenda.names, hagenda'.names, List.map_append, List.reverse_append]
    exact List.subset_append_right _ _
  refine ⟨_, ⟨hqueue ▸ hagenda'.queue, hnames ▸ hagenda'.names, hagenda'.keys_nodup, hagenda'.asked⟩,
    hqueue.trans hempty, ?_⟩
  rw [hnames, hmethods]
  exact .mk (hdeployed _ (List.Subset.trans hgrowth'.subset hsubset)) (hentries _ hsubset) (hwritten _ (List.Subset.refl _))

end Emit

end RustContracts
