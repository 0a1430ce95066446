import RustContracts.Proofs.Emit.Initialize
import RustContracts.Proofs.Emit.Interface
import RustContracts.Proofs.Rust.TypeText

-- The types that the declarations of a file mention, in fields, variants, parameters and results. Each of them is known
-- to every contract for the target or is a struct or enum in a type that the source has there.
namespace RustContracts

namespace Rust

-- The texts of types in the declarations of a file.

def Function.typeTexts (g : Function) : List String := g.params.map (·.type) ++ [g.result]

def Variant.typeTexts (v : Variant) : List String := v.fields.map (·.type) ++ v.tuple

def typesIn : Item → List String
  | .struct _ _ fields _ => fields.map (·.type)
  | .enum _ _ variants => variants.flatMap Variant.typeTexts
  | .impl _ _ _ functions | .trait _ _ functions => functions.flatMap Function.typeTexts
  | .function g => g.typeTexts
  | _ => []

-- The names in the types that a file declares its fields, variants, parameters and results with.
def File.mentions (f : File) : List String := (f.gather typesIn).flatMap typeNamesIn

end Rust

namespace Program

mutual

-- The structs and enums in a type.
def Ty.declared : Ty → List DeclRef
  | .struct r | .enum r => [r]
  | .array elem _ => elem.declared
  | .mapping key value => key.declared ++ value.declared
  | .tuple elems => declaredAmong elems
  | _ => []

def declaredAmong : List Ty → List DeclRef
  | [] => []
  | t :: rest => t.declared ++ declaredAmong rest

end

end Program

namespace Emit

open Program
open Rust (Speaks EndsApart typeNamesIn knownTypes speaks_known speaks_of_empty speaks_of_mem speaks_number ends_of_last
  starts_of_first speaks_before speaks_behind speaks_between)

variable {E : Env} {S : String → Prop} {s s' : State}

-- Whatever an act writes has a property.
def Promises {α : Type} (E : Env) (Q : α → Prop) (act : Emit α) : Prop := ∀ s a s', Writes act E s a s' → Q a

section Promises

variable {α β γ : Type} {P : α → Prop} {Q : β → Prop}

theorem promises_pure {a : α} (h : P a) : Promises E P (pure a) := fun _ _ _ hw => (writes_pure.mp hw).1 ▸ h

theorem promises_throw (stop : Stop) : Promises E P (throw stop) := fun _ _ _ hw => absurd hw not_writes_throw

theorem promises_bind {act : Emit α} {f : α → Emit β} (hact : Promises E P act) (hf : ∀ a, P a → Promises E Q (f a)) :
    Promises E Q (act >>= f) := by
  intro s b s' hw
  obtain ⟨a, t, ha, hb⟩ := writes_bind.mp hw
  exact hf a (hact _ _ _ ha) _ _ _ hb

theorem promises_after {act : Emit α} {f : α → Emit β} (hf : ∀ a, Promises E Q (f a)) : Promises E Q (act >>= f) :=
  promises_bind (P := fun _ => True) (fun _ _ _ _ => trivial) fun a _ => hf a

theorem promises_mapM {f : γ → Emit β} {xs : List γ} (hf : ∀ x ∈ xs, Promises E Q (f x)) :
    Promises E (fun ys => ∀ y ∈ ys, Q y) (xs.mapM f) := by
  intro s ys s' hw y hy
  obtain ⟨x, hx, t, t', hxy⟩ := forall₂_exists (writes_mapM hw).flip hy
  exact hf x hx _ _ _ hxy

end Promises

-- A type whose structs and enums are of a kind.
def HoldsOf (S : String → Prop) (t : Ty) : Prop := ∀ r ∈ t.declared, Speaks S (Rust.Name.type r.name)

def AllHold (S : String → Prop) (ts : List Ty) : Prop := ∀ r ∈ declaredAmong ts, Speaks S (Rust.Name.type r.name)

theorem allHold_cons {t : Ty} {ts : List Ty} : AllHold S (t :: ts) ↔ HoldsOf S t ∧ AllHold S ts := by
  rw [AllHold, declaredAmong, List.forall_mem_append]
  rfl

theorem allHold_iff {ts : List Ty} : AllHold S ts ↔ ∀ t ∈ ts, HoldsOf S t := by
  induction ts with
  | nil => simp [AllHold, declaredAmong]
  | cons t ts ih => rw [allHold_cons, ih, List.forall_mem_cons]

theorem speaks_sequence {text : String} (h : Speaks S text) : Speaks S ("Vec<" ++ text ++ ">") :=
  speaks_between (by decide) h

theorem speaks_array {text : String} (h : Speaks S text) {length : Int} (hlength : ¬length < 0) :
    Speaks S ("[" ++ text ++ "; " ++ toString length ++ "]") := by
  obtain ⟨n, rfl⟩ := Int.eq_ofNat_of_zero_le (Int.not_lt.mp hlength)
  have hfront : Speaks S ("[" ++ text ++ "; ") := speaks_between (by decide) h
  have hends : EndsApart ("[" ++ text ++ "; ") := EndsApart.append _ (ends_of_last (by decide))
  refine speaks_before (starts_of_first (by decide)) (speaks_behind hends hfront (speaks_number n)) ?_
  exact speaks_of_empty (by decide)

theorem speaks_tuple {texts : List String} (h : ∀ text ∈ texts, Speaks S text) : Speaks S (Ink.tupleText texts) := by
  unfold Ink.tupleText
  split
  · next text => exact speaks_between (by decide) (h _ (.head _))
  · exact speaks_between (by decide) (Rust.speaks_intercalate h)

theorem promises_known {name : String} (h : name ∈ knownTypes) : Promises E (Speaks S) (pure name) :=
  promises_pure (speaks_of_mem h)

theorem promises_intName (signed : Bool) (bits : Nat) : Promises E (Speaks S) (Ink.intName signed bits) := by
  unfold Ink.intName
  split
  · next width hwidth =>
      refine promises_known ?_
      have hmem := List.mem_of_find?_eq_some hwidth
      simp only [List.mem_cons, List.not_mem_nil, or_false] at hmem
      obtain rfl | rfl | rfl | rfl | rfl := hmem <;> cases signed <;> decide
  · split
    · exact promises_throw _
    · exact promises_known (by decide)

theorem promises_addressType (v : InkVersion) : Promises E (Speaks S) (Ink.addressType v) := by
  have hname : Ink.addressName v ∈ knownTypes := by cases v <;> decide
  unfold Ink.addressType
  split
  · exact promises_after fun _ => promises_known hname
  · exact promises_known hname

mutual

theorem promises_inkType (v : InkVersion) : (t : Ty) → HoldsOf S t → Promises E (Speaks S) (Ink.type v t)
  | .int signed bits, _ => by
      rw [Ink.type]
      split
      · exact promises_after fun _ => promises_intName signed bits
      · exact promises_intName signed bits
  | .literal, _ => promises_after fun _ => promises_known (by decide)
  | .bool, _ => promises_known (by decide)
  | .address _, _ | .contract _, _ => promises_addressType v
  | .string, _ => promises_after fun _ => promises_known (by decide)
  | .bytes size, _ => by
      rw [Ink.type]
      split
      · exact promises_after fun _ => promises_pure (speaks_known (by decide))
      · refine promises_pure ?_
        have hfront : Speaks S "[u8; " := speaks_known (by decide)
        have hback : Speaks S "]" := speaks_of_empty (by decide)
        exact speaks_before (starts_of_first (by decide))
          (speaks_behind (ends_of_last (by decide)) hfront (speaks_number size)) hback
  | .array elem length, h => by
      rw [Ink.type]
      refine promises_bind (promises_inkType v elem h) fun text htext => ?_
      split
      · exact promises_after fun _ => promises_pure (speaks_sequence htext)
      · next hlength => exact promises_pure (speaks_array htext hlength)
  | .struct r, h | .enum r, h => promises_pure (h r (.head _))
  | .tuple elems, h => promises_bind (promises_inkTypes v elems h) fun _ htexts => promises_pure (speaks_tuple htexts)
  | .mapping _ _, _ => promises_throw _

theorem promises_inkTypes (v : InkVersion) : (ts : List Ty) → AllHold S ts →
    Promises E (fun texts => ∀ text ∈ texts, Speaks S text) (Ink.types v ts)
  | [], _ => promises_pure (List.forall_mem_nil _)
  | t :: ts, h =>
    promises_bind (promises_inkType v t (allHold_cons.mp h).1) fun _ htext =>
      promises_bind (promises_inkTypes v ts (allHold_cons.mp h).2) fun _ htexts =>
        promises_pure (List.forall_mem_cons.mpr ⟨htext, htexts⟩)

end

theorem sorobanName_known (signed : Bool) (bits : Nat) : Soroban.intName signed bits ∈ knownTypes := by
  unfold Soroban.intName
  split
  · next width hwidth =>
      have hmem := List.mem_of_find?_eq_some hwidth
      simp only [List.mem_cons, List.not_mem_nil, or_false] at hmem
      obtain rfl | rfl | rfl := hmem <;> cases signed <;> decide
  · cases signed <;> decide

theorem promises_named {name : String} (h : name ∈ knownTypes) : Promises E (Speaks S) (Soroban.named name) :=
  promises_after fun _ => promises_known h

mutual

theorem promises_sorobanType : (t : Ty) → HoldsOf S t → Promises E (Speaks S) (Soroban.type t)
  | .int signed bits, _ => by
      rw [Soroban.type]
      split
      · exact promises_after fun _ => promises_known (sorobanName_known signed bits)
      · exact promises_known (sorobanName_known signed bits)
  | .bool, _ => promises_known (by decide)
  | .literal, _ | .address _, _ | .contract _, _ | .string, _ => promises_named (by decide)
  | .bytes size, _ => by
      rw [Soroban.type]
      split
      · exact promises_named (by decide)
      · refine promises_after fun _ => promises_pure ?_
        exact speaks_between (by decide) (speaks_number size)
  | .array elem _, h =>
    promises_bind (promises_sorobanType elem h) fun _ htext => promises_after fun _ =>
      promises_pure (speaks_sequence htext)
  | .struct r, h | .enum r, h => promises_pure (h r (.head _))
  | .tuple elems, h => promises_bind (promises_sorobanTypes elems h) fun _ htexts => promises_pure (speaks_tuple htexts)
  | .mapping _ _, _ => promises_throw _

theorem promises_sorobanTypes : (ts : List Ty) → AllHold S ts →
    Promises E (fun texts => ∀ text ∈ texts, Speaks S text) (Soroban.types ts)
  | [], _ => promises_pure (List.forall_mem_nil _)
  | t :: ts, h =>
    promises_bind (promises_sorobanType t (allHold_cons.mp h).1) fun _ htext =>
      promises_bind (promises_sorobanTypes ts (allHold_cons.mp h).2) fun _ htexts =>
        promises_pure (List.forall_mem_cons.mpr ⟨htext, htexts⟩)

end

theorem promises_target {α : Type} {Q : α → Prop} {f : Target → Emit α} (h : Promises E Q (f E.target)) :
    Promises E Q (target >>= f) := fun _ _ _ hw => h _ _ _ (writes_of_target.mp hw)

theorem promises_read {α : Type} {Q : α → Prop} {f : Env → Emit α} (h : Promises E Q (f E)) :
    Promises E Q (read >>= f) := h

theorem promises_typeText {t : Ty} (h : HoldsOf S t) : Promises E (Speaks S) (typeText t) := by
  refine promises_target ?_
  cases E.target with
  | ink v => exact promises_inkType v t h
  | soroban => exact promises_sorobanType t h

theorem speaks_of_typeText {t : Ty} (h : HoldsOf S t) {text : String} (htext : TypeText E t text) : Speaks S text := by
  obtain ⟨s, s', hw⟩ := htext
  exact promises_typeText h _ _ _ hw

-- Functions.

-- The parameters and the result of a function have types of a kind.
def SpeaksOf (S : String → Prop) (params : List Rust.Param) (result : String) : Prop :=
  (∀ p ∈ params, Speaks S p.type) ∧ Speaks S result

theorem speaks_wrapped (target : Target) {result : String} (h : Speaks S result) :
    Speaks S (wrapped target result) := by
  cases target with
  | ink v => exact speaks_between (by decide) h
  | soroban => exact speaks_between (by decide) h

theorem speaks_frontParams (target : Target) (r : Routine) : ∀ p ∈ frontParams target r, Speaks S p.type := by
  cases target with
  | ink v => exact List.forall_mem_nil _
  | soroban =>
      refine List.forall_mem_cons.mpr ⟨?_, ?_⟩
      · dsimp only
        split <;> exact speaks_known (by decide)
      · split
        · exact List.forall_mem_singleton.mpr (speaks_known (by decide))
        · exact List.forall_mem_nil _

theorem promises_routineShell {r : Routine} (h : SpeaksOf S r.params r.result) :
    Promises E (fun g => SpeaksOf S g.params g.result) (routineShell r) := by
  intro s g s' hw
  have hof := writes_routineShell hw
  rw [hof.params, hof.result]
  exact ⟨List.forall_mem_append.mpr ⟨speaks_frontParams _ _, h.1⟩, speaks_wrapped _ h.2⟩

theorem speaks_of_types {params params' : List Rust.Param} (htypes : params.map (·.type) = params'.map (·.type))
    (h : ∀ p ∈ params', Speaks S p.type) : ∀ p ∈ params, Speaks S p.type := by
  have hall : ∀ text ∈ params'.map (·.type), Speaks S text := List.forall_mem_map.mpr h
  exact List.forall_mem_map.mp (htypes ▸ hall)

theorem promises_function {r : Routine} (h : SpeaksOf S r.params r.result) (f : Function)
    (impl : Option Implementation) : Promises E (fun g => SpeaksOf S g.params g.result) (function r f impl) := by
  intro s g s' hw
  obtain ⟨_, declared, shell, code, _, _, _, hdeclare, hshell, rfl⟩ := shell_of_function hw
  have hdeclared : SpeaksOf S declared r.result := ⟨speaks_of_types (types_declareParams hdeclare) h.1, h.2⟩
  exact (promises_routineShell (r := { r with params := declared }) hdeclared _ _ _ hshell :)

theorem promises_rustParams {params : List Param} (h : ∀ p ∈ params, HoldsOf S p.type) :
    Promises E (fun rparams => ∀ r ∈ rparams, Speaks S r.type) (rustParams params) := by
  refine promises_mapM fun pi hpi => ?_
  obtain ⟨p, i⟩ := pi
  exact promises_bind (promises_typeText (h p (List.fst_mem_of_mem_zipIdx hpi))) fun text htext => promises_pure htext

theorem promises_resultText {returns : List Param} (h : ∀ p ∈ returns, HoldsOf S p.type) :
    Promises E (Speaks S) (resultText returns) := by
  refine promises_bind (promises_mapM fun p hp => promises_typeText (h p hp)) fun texts htexts => ?_
  split
  · exact promises_pure (speaks_of_empty (by decide))
  · exact promises_pure (htexts _ (.head _))
  · refine promises_pure (speaks_between (by decide) ?_)
    exact Rust.speaks_intercalate htexts

-- The types that a function has in any of its declarations.
def functionTypes (f : Function) : List Ty :=
  (f.params ++ f.returns ++ f.implementations.flatMap fun i => i.params).map Param.type

theorem promises_functionRoutine {f : Function} (hf : ∀ t ∈ functionTypes f, HoldsOf S t) {impl : Option Implementation}
    (himpl : ∀ i ∈ impl, i ∈ f.implementations) (name : String) (entry : Option Signature) :
    Promises E (fun r => SpeaksOf S r.params r.result) (functionRoutine f impl name entry) := by
  have hall := List.forall_mem_map.mp hf
  have hparams (p : Param) (hp : p ∈ f.params) := hall p (List.mem_append_left _ (List.mem_append_left _ hp))
  have hreturns (p : Param) (hp : p ∈ f.returns) := hall p (List.mem_append_left _ (List.mem_append_right _ hp))
  have hown (i : Implementation) (hi : i ∈ f.implementations) (p : Param) (hp : p ∈ i.params) :=
    hall p (List.mem_append_right _ (List.mem_flatMap.mpr ⟨i, hi, hp⟩))
  unfold functionRoutine
  refine promises_bind (promises_rustParams (S := S) fun p hp => ?_) fun rparams hrparams => ?_
  · cases impl with
    | none => exact hparams p hp
    | some i =>
        dsimp only at hp
        split at hp
        · exact hown i (himpl i rfl) p hp
        · exact hparams p hp
  · refine promises_bind (promises_resultText hreturns) fun result hresult => ?_
    exact promises_read (promises_pure ⟨hrparams, hresult⟩)

theorem promises_dispatched {fs : List Function} (hfs : ∀ f ∈ fs, ∀ t ∈ functionTypes f, HoldsOf S t) :
    Promises E (fun written => ∀ g ∈ written.1 ++ written.2, SpeaksOf S g.params g.result) (dispatched fs) := by
  induction fs with
  | nil => exact promises_pure (List.forall_mem_nil _)
  | cons f fs ih =>
      obtain ⟨hf, hfs⟩ := List.forall_mem_cons.mp hfs
      rw [dispatched]
      have himpl (i : Implementation) (hi : i ∈ f.primary?) : i ∈ f.implementations := mem_of_primary? hi
      refine promises_bind (promises_functionRoutine hf himpl _ _) fun r hr => ?_
      refine promises_bind (promises_function hr f _) fun g hg => promises_bind (ih hfs) fun written hwritten => ?_
      obtain ⟨entries, helpers⟩ := written
      obtain ⟨hentries, hhelpers⟩ := List.forall_mem_append.mp hwritten
      dsimp only
      refine promises_pure ?_
      split
      · exact List.forall_mem_append.mpr ⟨List.forall_mem_cons.mpr ⟨hg, hentries⟩, hhelpers⟩
      · exact List.forall_mem_append.mpr ⟨hentries, List.forall_mem_cons.mpr ⟨hg, hhelpers⟩⟩

-- Helpers.

theorem Growth.asked_queue (h : Growth E s s') (hs : ∀ a ∈ s.queue, ∃ key, Asked E key a) :
    ∀ a ∈ s'.queue, ∃ key, Asked E key a := by
  obtain ⟨new, hqueue, -, -, -, hasked⟩ := h
  rw [hqueue, List.forall_mem_append, List.forall_mem_map]
  exact ⟨hs, fun kh hkh => ⟨kh.1, hasked kh hkh⟩⟩

-- The library functions that code of a package calls.
def libraryFunctions (p : Package) : List Function :=
  (p.exprs.flatMap Expr.subexprs).filterMap fun
    | .libraryCall _ _ owner signature _ => some (functionIn p owner signature)
    | _ => none

theorem mem_libraryFunctions {p : Package} {start : Text.Position} {library owner : String} {signature : Signature}
    {args : List Expr} (h : p.Holds (.libraryCall start library owner signature args)) :
    functionIn p owner signature ∈ libraryFunctions p := by
  obtain ⟨e, he, hcall⟩ := h
  exact List.mem_filterMap.mpr ⟨_, List.mem_flatMap.mpr ⟨e, he, hcall⟩, rfl⟩

-- Everything that can be a function of a contract's file.
structure FunctionsHold (E : Env) (S : String → Prop) : Prop where
  dispatch : ∀ f ∈ E.contract.dispatch, ∀ t ∈ functionTypes f, HoldsOf S t
  libraries : ∀ f ∈ libraryFunctions E.package, ∀ t ∈ functionTypes f, HoldsOf S t
  constructors : ∀ k ∈ E.package.chainOf E.contract, ∀ p ∈ constructorParams k, HoldsOf S p.type

theorem promises_helper (h : FunctionsHold E S) {key : String} {a : Helper} (hasked : Asked E key a) :
    Promises E (fun g => SpeaksOf S g.params g.result) (helper a) := by
  unfold helper
  cases hasked with
  | @implementation f i hf hi _ =>
      have himpl (j : Implementation) (hj : j ∈ some i) : j ∈ f.implementations := Option.some.inj hj ▸ hi
      exact promises_bind (promises_functionRoutine (h.dispatch f hf) himpl _ none) fun r hr => promises_function hr _ _
  | library hcall =>
      have htypes := h.libraries _ (mem_libraryFunctions hcall)
      have hprimary := promises_functionRoutine (E := E) htypes (fun i hi => mem_of_primary? hi)
      refine promises_bind (promises_bind (hprimary _ none) fun r hr => ?_) fun r hr => promises_function hr _ _
      exact promises_pure (P := fun r : Routine => SpeaksOf S r.params r.result) hr

theorem speaks_drainHelpers (hE : Sourced E) (h : FunctionsHold E S) {count : Nat} {gs : List Rust.Function}
    (hs : ∀ a ∈ s.queue, ∃ key, Asked E key a) (hw : Writes (drainHelpers count) E s gs s') :
    ∀ g ∈ gs, SpeaksOf S g.params g.result := by
  induction count generalizing s gs s' with
  | zero =>
      obtain ⟨rfl, -⟩ := writes_pure.mp hw
      exact List.forall_mem_nil _
  | succ count ih =>
      rw [drainHelpers] at hw
      obtain ⟨next, s₁, hnext, hw⟩ := writes_bind.mp hw
      rw [Writes, outcome_nextHelper?] at hnext
      cases hnext
      rcases hqueue : s.queue with _ | ⟨first, rest⟩
      · rw [hqueue] at hw
        obtain ⟨rfl, -⟩ := writes_pure.mp hw
        exact List.forall_mem_nil _
      · rw [hqueue] at hw hs
        obtain ⟨⟨key, hfirst⟩, hrest⟩ := List.forall_mem_cons.mp hs
        obtain ⟨g, s₂, hg, hw⟩ := writes_bind.mp hw
        obtain ⟨more, s₃, hmore, hw⟩ := writes_bind.mp hw
        obtain ⟨rfl, -⟩ := writes_pure.mp hw
        refine List.forall_mem_cons.mpr ⟨promises_helper h hfirst _ _ _ hg, ih ?_ hmore⟩
        exact (emitted_helper hE hfirst hg).1.asked_queue hrest

-- Deployment.

theorem speaks_unit : Speaks S "()" := speaks_of_empty (by decide)

theorem speaks_self : Speaks S "Self" := speaks_of_mem (by decide)

theorem speaks_selfResult : Speaks S (Ink.resultType "Self") := speaks_known (by decide)

theorem promises_initRoutine {k : Contract} (h : ∀ p ∈ constructorParams k, HoldsOf S p.type) (caller : Bool) :
    Promises E (fun r => SpeaksOf S r.params r.result) (initRoutine k caller) :=
  promises_bind (promises_rustParams h) fun _ hparams => promises_pure ⟨hparams, speaks_unit⟩

theorem promises_initCalls {main : Contract} {bound : List BoundArg} {caller : Bool} {classes : List Contract}
    (h : ∀ k ∈ classes, ∀ p ∈ constructorParams k, HoldsOf S p.type) :
    Promises E (fun written => ∀ cr ∈ written.2, SpeaksOf S cr.2.params cr.2.result)
      (initCalls main bound caller classes) := by
  induction classes with
  | nil => exact promises_pure (List.forall_mem_nil _)
  | cons k rest ih =>
      obtain ⟨hk, hrest⟩ := List.forall_mem_cons.mp h
      rw [initCalls]
      refine promises_bind (promises_initRoutine hk caller) fun r hr => promises_after fun x => ?_
      exact promises_bind (ih hrest) fun written hwritten => promises_pure (List.forall_mem_cons.mpr ⟨hr, hwritten⟩)

theorem promises_classInits {routines : List (Contract × Routine)}
    (h : ∀ cr ∈ routines, SpeaksOf S cr.2.params cr.2.result) :
    Promises E (fun gs => ∀ g ∈ gs, SpeaksOf S g.params g.result) (classInits routines) := by
  induction routines with
  | nil => exact promises_pure (List.forall_mem_nil _)
  | cons cr rest ih =>
      obtain ⟨k, r⟩ := cr
      obtain ⟨hr, hrest⟩ := List.forall_mem_cons.mp h
      rw [classInits]
      refine promises_bind (P := fun g => SpeaksOf S g.params g.result) (fun s g s' hw => ?_) fun g hg =>
        promises_bind (ih hrest) fun gs hgs => promises_pure (List.forall_mem_cons.mpr ⟨hg, hgs⟩)
      obtain ⟨declared, shell, code, _, _, _, hdeclare, hshell, rfl⟩ := shell_of_classInit hw
      have hdeclared : SpeaksOf S declared r.result := ⟨speaks_of_types (types_declareParams hdeclare) hr.1, hr.2⟩
      exact (promises_routineShell (r := { r with params := declared }) hdeclared _ _ _ hshell :)

-- What the host calls needs its environment, and the caller where the code asks for it.
theorem speaks_hostParams {r : Routine} (h : ∀ p ∈ r.params, Speaks S p.type) :
    ∀ p ∈ (⟨"env", "Env"⟩ :: ((if r.caller then [⟨"caller", "Address"⟩] else []) ++ r.params) : List Rust.Param),
      Speaks S p.type := by
  refine List.forall_mem_cons.mpr ⟨speaks_of_mem (by decide), List.forall_mem_append.mpr ⟨?_, h⟩⟩
  split
  · exact List.forall_mem_singleton.mpr (speaks_of_mem (by decide))
  · exact List.forall_mem_nil _

theorem promises_constructors {init : Option Routine} (h : ∀ r ∈ init, ∀ p ∈ r.params, Speaks S p.type) :
    Promises E (fun gs => ∀ g ∈ gs, SpeaksOf S g.params g.result) (constructors init) := by
  refine promises_target ?_
  cases E.target with
  | ink v =>
      refine promises_read ?_
      cases init with
      | none => exact promises_pure (List.forall_mem_singleton.mpr ⟨List.forall_mem_nil _, speaks_self⟩)
      | some r => exact promises_pure (List.forall_mem_singleton.mpr ⟨h r rfl, speaks_selfResult⟩)
  | soroban =>
      cases init with
      | none => exact promises_pure (List.forall_mem_nil _)
      | some r =>
          refine promises_after fun _ => promises_after fun _ => ?_
          have hparams := speaks_hostParams (h r rfl)
          have hdone : Speaks S "" := speaks_of_empty (by decide)
          cases hcaller : r.caller with
          | false =>
              rw [hcaller] at hparams
              exact promises_pure (List.forall_mem_singleton.mpr ⟨hparams, hdone⟩)
          | true =>
              rw [hcaller] at hparams
              exact promises_after fun _ => promises_pure (List.forall_mem_singleton.mpr ⟨hparams, hdone⟩)

theorem promises_deployment (hE : Sourced E) (h : FunctionsHold E S) :
    Promises E (fun written => ∀ g ∈ written.1 ++ written.2, SpeaksOf S g.params g.result) deployment := by
  obtain ⟨bases, hchain⟩ := hE.chain
  have hown := h.constructors E.contract (hchain ▸ List.mem_cons_self)
  have hclasses (k : Contract) (hk : k ∈ ((E.package.chainOf E.contract).filter needsInit).reverse) :=
    h.constructors k (List.mem_of_mem_filter (List.mem_reverse.mp hk))
  refine promises_read ?_
  dsimp only
  split
  · refine promises_bind (promises_constructors (S := S) fun r hr => by cases hr) fun gs hgs => promises_pure ?_
    simpa using hgs
  · refine promises_bind (promises_rustParams (S := S) hown) fun rparams hrparams => ?_
    refine promises_after fun _ => promises_after fun _ => promises_after fun bound => ?_
    refine promises_bind (promises_initCalls (S := S) hclasses) fun runs hruns => ?_
    have hinit : SpeaksOf S rparams "()" := ⟨hrparams, speaks_unit⟩
    refine promises_bind (promises_routineShell hinit) fun shell hshell => ?_
    refine promises_bind (promises_classInits hruns) fun inits hinits => ?_
    refine promises_bind (promises_constructors (S := S) fun r hr => ?_) fun gs hgs => promises_pure ?_
    · obtain rfl := Option.some.inj hr
      exact hrparams
    · exact List.forall_mem_append.mpr ⟨hgs, List.forall_mem_cons.mpr ⟨hshell, hinits⟩⟩

-- Items.

section Items

open Rust (gatherOf typesIn)

def ItemSpeaks (S : String → Prop) (item : Rust.Item) : Prop := ∀ text ∈ item.gather typesIn, Speaks S text

def ItemsSpeak (S : String → Prop) (items : List Rust.Item) : Prop := ∀ item ∈ items, ItemSpeaks S item

theorem ItemsSpeak.gathered {items : List Rust.Item} (h : ItemsSpeak S items) :
    ∀ text ∈ gatherOf typesIn items, Speaks S text := by
  rw [Rust.gatherOf_eq]
  intro text htext
  obtain ⟨item, hitem, htext⟩ := List.mem_flatMap.mp htext
  exact h item hitem text htext

theorem itemsSpeak_singleton {item : Rust.Item} (h : ItemSpeaks S item) : ItemsSpeak S [item] :=
  List.forall_mem_singleton.mpr h

theorem itemSpeaks_struct {attrs : List String} {name : String} {fields : List Rust.Field} {isUnit : Bool}
    (h : ∀ g ∈ fields, Speaks S g.type) : ItemSpeaks S (.struct attrs name fields isUnit) :=
  List.forall_mem_map.mpr h

theorem promises_fields {γ : Type} {f : γ → Emit Rust.Field} {xs : List γ}
    (hf : ∀ x ∈ xs, Promises E (fun g => Speaks S g.type) (f x)) :
    Promises E (fun fields => ∀ g ∈ fields, Speaks S g.type) (xs.mapM f) := promises_mapM hf

theorem promises_struct {γ : Type} {f : γ → Emit Rust.Field} {xs : List γ} {attrs : List String} {name : String}
    {isUnit : List Rust.Field → Bool} (hf : ∀ x ∈ xs, Promises E (fun g => Speaks S g.type) (f x)) :
    Promises E (ItemSpeaks S) (xs.mapM f >>= fun fields => pure (.struct attrs name fields (isUnit fields))) :=
  promises_bind (promises_fields hf) fun _ hfields => promises_pure (itemSpeaks_struct hfields)

def VariantSpeaks (S : String → Prop) (v : Rust.Variant) : Prop := ∀ text ∈ v.typeTexts, Speaks S text

theorem itemSpeaks_enum {attrs : List String} {name : String} {variants : List Rust.Variant}
    (h : ∀ v ∈ variants, VariantSpeaks S v) : ItemSpeaks S (.enum attrs name variants) := by
  intro text htext
  obtain ⟨v, hv, htext⟩ := List.mem_flatMap.mp htext
  exact h v hv text htext

theorem variantSpeaks_plain {v : Rust.Variant} (h : v.typeTexts = []) : VariantSpeaks S v := by
  rw [VariantSpeaks, h]
  exact List.forall_mem_nil _

theorem speaks_functions {functions : List Rust.Function} (h : ∀ g ∈ functions, SpeaksOf S g.params g.result) :
    ∀ text ∈ functions.flatMap Rust.Function.typeTexts, Speaks S text := by
  intro text htext
  obtain ⟨g, hg, htext⟩ := List.mem_flatMap.mp htext
  have hall := List.forall_mem_append.mpr ⟨List.forall_mem_map.mpr (h g hg).1, List.forall_mem_singleton.mpr (h g hg).2⟩
  exact hall text htext

theorem promises_enumItem (e : EnumDecl) : Promises E (ItemSpeaks S) (enumItem e) := by
  refine promises_target ?_
  cases E.target with
  | ink v =>
      refine promises_pure (itemSpeaks_enum fun variant hvariant => ?_)
      obtain ⟨i, hi, rfl⟩ := List.mem_mapIdx.mp hvariant
      exact variantSpeaks_plain rfl
  | soroban =>
      refine promises_after fun _ => promises_pure (itemSpeaks_enum fun variant hvariant => ?_)
      obtain ⟨i, hi, rfl⟩ := List.mem_mapIdx.mp hvariant
      exact variantSpeaks_plain rfl

theorem promises_structItem {d : StructDecl} (h : ∀ f ∈ d.fields, HoldsOf S f.type) :
    Promises E (ItemSpeaks S) (structItem d) := by
  refine promises_target ?_
  cases E.target with
  | ink v =>
      refine promises_struct fun f hf => ?_
      exact promises_bind (promises_inkType v f.type (h f hf)) fun text htext => promises_pure htext
  | soroban =>
      refine promises_after fun _ => ?_
      refine promises_struct fun f hf => ?_
      exact promises_bind (promises_sorobanType f.type (h f hf)) fun text htext => promises_pure htext

theorem declared_mapping : (t : Ty) → declaredAmong t.mappingKeys ++ t.mappingValue.declared = t.declared
  | .mapping key value => by
      rw [Ty.mappingKeys, Ty.mappingValue, declaredAmong, Ty.declared, List.append_assoc, declared_mapping value]
  | .int _ _ | .literal | .bool | .address _ | .string | .bytes _ | .array _ _ | .struct _ | .enum _ | .contract _
  | .tuple _ => rfl

theorem HoldsOf.keys {t : Ty} (h : HoldsOf S t) : AllHold S t.mappingKeys := by
  rw [HoldsOf, ← declared_mapping, List.forall_mem_append] at h
  exact h.1

theorem HoldsOf.value {t : Ty} (h : HoldsOf S t) : HoldsOf S t.mappingValue := by
  rw [HoldsOf, ← declared_mapping, List.forall_mem_append] at h
  exact h.2

theorem speaks_mapping {key value : String} (hkey : Speaks S key) (hvalue : Speaks S value) :
    Speaks S ("Mapping<" ++ key ++ ", " ++ value ++ ">") := by
  have hfront : Speaks S ("Mapping<" ++ key ++ ", ") := speaks_between (by decide) hkey
  have hends : EndsApart ("Mapping<" ++ key ++ ", ") := EndsApart.append _ (ends_of_last (by decide))
  exact speaks_before (starts_of_first (by decide)) (speaks_behind hends hfront hvalue) (speaks_of_empty (by decide))

theorem promises_fieldType (v : InkVersion) {t : Ty} (h : HoldsOf S t) : Promises E (Speaks S) (Ink.fieldType v t) := by
  unfold Ink.fieldType
  split
  · exact promises_inkType v t h
  · refine promises_bind (promises_inkTypes v _ h.keys) fun names hnames => ?_
    refine promises_bind (promises_inkType v _ h.value) fun value hvalue => promises_after fun _ => ?_
    refine promises_pure (speaks_mapping ?_ hvalue)
    split
    · exact hnames _ (.head _)
    · exact speaks_between (by decide) (Rust.speaks_intercalate hnames)

theorem promises_eventItem (v : InkVersion) {ev : EventDecl} (h : ∀ f ∈ ev.fields, HoldsOf S f.type) :
    Promises E (ItemSpeaks S) (Ink.eventItem v ev) := by
  refine promises_struct fun fi hfi => ?_
  obtain ⟨f, i⟩ := fi
  have hfield := h f (List.fst_mem_of_mem_zipIdx hfi)
  exact promises_bind (promises_inkType v f.type hfield) fun text htext => promises_pure htext

theorem promises_errorVariant (v : InkVersion) {d : ErrorDecl} (h : ∀ p ∈ d.fields, HoldsOf S p.type) :
    Promises E (VariantSpeaks S) (Ink.errorVariant v d) := by
  have hfields : AllHold S (d.fields.map Param.type) := allHold_iff.mpr (List.forall_mem_map.mpr h)
  exact promises_bind (promises_inkTypes v _ hfields) fun texts htexts => promises_pure htexts

theorem promises_inkErrors (v : InkVersion) {entries : List ErrorEntry}
    (h : ∀ d ∈ entries.filterMap ErrorEntry.custom, ∀ p ∈ d.fields, HoldsOf S p.type) :
    Promises E (ItemsSpeak S) (Ink.errorItems v entries) := by
  refine promises_after fun _ => ?_
  refine promises_bind (promises_mapM fun d hd => promises_errorVariant v (h d hd)) fun variants hvariants => ?_
  refine promises_pure ?_
  refine List.forall_mem_cons.mpr ⟨itemSpeaks_enum (List.forall_mem_cons.mpr ⟨?_, hvariants⟩), ?_⟩
  · have hcode : Speaks S "u32" := speaks_of_mem (by decide)
    have hmessage : Speaks S "String" := speaks_of_mem (by decide)
    exact List.forall_mem_cons.mpr ⟨hcode, List.forall_mem_singleton.mpr hmessage⟩
  · exact List.forall_mem_singleton.mpr (List.forall_mem_nil _)

theorem promises_sorobanErrors (entries : List ErrorEntry) :
    Promises E (ItemsSpeak S) (Soroban.errorItems entries) := by
  refine promises_after fun _ => promises_pure (itemsSpeak_singleton (itemSpeaks_enum ?_))
  dsimp only
  split
  · exact List.forall_mem_singleton.mpr (variantSpeaks_plain rfl)
  · exact List.forall_mem_map.mpr fun en _ => variantSpeaks_plain rfl

theorem promises_inkStorage (v : InkVersion) (h : ∀ f ∈ E.contract.storage, HoldsOf S f.type) :
    Promises E (ItemsSpeak S) (Ink.storageItems v) := by
  refine promises_read ?_
  refine promises_bind (promises_fields fun f hf => ?_) fun fields hfields =>
    promises_pure (itemsSpeak_singleton (itemSpeaks_struct hfields))
  exact promises_bind (promises_fieldType v (h f hf)) fun text htext => promises_pure htext

theorem promises_sorobanStorage (h : ∀ f ∈ E.contract.storage, ∀ t ∈ f.type.mappingKeys, HoldsOf S t) :
    Promises E (ItemsSpeak S) Soroban.storageItems := by
  refine promises_read ?_
  dsimp only
  split
  · exact promises_pure (List.forall_mem_nil _)
  · refine promises_after fun _ => ?_
    refine promises_bind (P := fun variants => ∀ v ∈ variants, VariantSpeaks S v) (promises_mapM fun f hf => ?_)
      fun variants hvariants => promises_pure (itemsSpeak_singleton (itemSpeaks_enum hvariants))
    refine promises_bind (promises_sorobanTypes _ (allHold_iff.mpr (h f hf))) fun keys hkeys => ?_
    exact promises_after fun _ => promises_pure hkeys

-- A file.

-- The types of the source that stand in structs, events, errors and state, as far as the target has types for them.
def itemTypes (p : Package) (c : Contract) : Target → List Ty
  | .ink _ => ((p.visibleStructs c).flatMap (·.fields)).map Param.type ++
      ((p.visibleEvents c).flatMap (·.fields)).map EventField.type ++
      ((p.registry.entries.filterMap ErrorEntry.custom).flatMap (·.fields)).map Param.type ++
      c.storage.map (·.type)
  | .soroban => ((p.visibleStructs c).flatMap (·.fields)).map Param.type ++
      c.storage.flatMap (·.type.mappingKeys)

-- Those of functions of the dispatch table, of libraries, constructors and interfaces.
def signatureTypes (p : Package) (c : Contract) : List Ty :=
  (c.dispatch ++ libraryFunctions p).flatMap functionTypes ++
    ((p.chainOf c).flatMap constructorParams).map Param.type ++
    ((p.ofKind .interface).flatMap (·.dispatch)).flatMap fun m => m.returnType :: m.params.map Param.type

def spelledTypes (p : Package) (c : Contract) (target : Target) : List Ty := itemTypes p c target ++ signatureTypes p c

theorem functionsHold_of_signatures (h : ∀ t ∈ signatureTypes E.package E.contract, HoldsOf S t) :
    FunctionsHold E S := by
  obtain ⟨h, -⟩ := List.forall_mem_append.mp h
  obtain ⟨hfunctions, hconstructors⟩ := List.forall_mem_append.mp h
  refine ⟨fun f hf t ht => hfunctions t (List.mem_flatMap.mpr ⟨f, List.mem_append_left _ hf, ht⟩),
    fun f hf t ht => hfunctions t (List.mem_flatMap.mpr ⟨f, List.mem_append_right _ hf, ht⟩), fun k hk p hp => ?_⟩
  exact List.forall_mem_map.mp hconstructors p (List.mem_flatMap.mpr ⟨k, hk, hp⟩)

theorem holdsOf_interfaces (h : ∀ t ∈ signatureTypes E.package E.contract, HoldsOf S t) :
    ∀ i ∈ E.package.ofKind .interface, ∀ m ∈ i.dispatch,
      (∀ p ∈ m.params, HoldsOf S p.type) ∧ HoldsOf S m.returnType := by
  intro i hi m hm
  have hmem (t : Ty) (ht : t ∈ m.returnType :: m.params.map Param.type) : HoldsOf S t :=
    (List.forall_mem_append.mp h).2 t (List.mem_flatMap.mpr ⟨m, List.mem_flatMap.mpr ⟨i, hi, hm⟩, ht⟩)
  obtain ⟨hreturn, hparams⟩ := List.forall_mem_cons.mp hmem
  exact ⟨List.forall_mem_map.mp hparams, hreturn⟩

theorem speaks_traitMethod {m : Signature} {t : Rust.Function} (h : TraitMethod E m t)
    (hparams : ∀ p ∈ m.params, HoldsOf S p.type) (hresult : HoldsOf S m.returnType) : SpeaksOf S t.params t.result := by
  obtain ⟨texts, htexts, htypes⟩ := h.params
  have hall (text : String) (htext : text ∈ texts) : Speaks S text := by
    obtain ⟨ty, hty, htext⟩ := forall₂_exists htexts.flip htext
    obtain ⟨q, hq, rfl⟩ := List.mem_map.mp hty
    exact speaks_of_typeText (hparams q hq) htext
  have hgiven : ∀ text ∈ t.params.map (·.type), Speaks S text := by
    rw [htypes]
    cases E.target with
    | ink v => exact hall
    | soroban => exact List.forall_mem_cons.mpr ⟨speaks_of_mem (by decide), hall⟩
  exact ⟨List.forall_mem_map.mp hgiven, speaks_of_typeText hresult h.result⟩

theorem promises_calledInterfaces
    (h : ∀ i ∈ E.package.ofKind .interface, ∀ m ∈ i.dispatch,
      (∀ p ∈ m.params, HoldsOf S p.type) ∧ HoldsOf S m.returnType) :
    Promises E (ItemsSpeak S) calledInterfaces := by
  refine promises_after fun state => promises_read ?_
  dsimp only
  refine promises_bind (P := fun groups => ∀ group ∈ groups, ItemsSpeak S group) (promises_mapM fun i hi => ?_)
    fun groups hgroups => promises_pure (List.forall_mem_flatten.mpr hgroups)
  intro s items s' hw
  obtain ⟨attrs, methods, rfl, hmethods⟩ := trait_of_interface hw
  refine itemsSpeak_singleton (speaks_functions fun t ht => ?_)
  obtain ⟨m, hm, hmethod⟩ := forall₂_exists hmethods.flip ht
  obtain ⟨hparams, hresult⟩ := h i (List.mem_of_mem_filter hi) m hm
  exact speaks_traitMethod hmethod hparams hresult

section ItemTypes

variable (h : ∀ t ∈ itemTypes E.package E.contract E.target, HoldsOf S t)
include h

theorem holdsOf_structs : ∀ d ∈ E.package.visibleStructs E.contract, ∀ f ∈ d.fields, HoldsOf S f.type := by
  have hall : ∀ t ∈ ((E.package.visibleStructs E.contract).flatMap (·.fields)).map Param.type, HoldsOf S t := by
    intro t ht
    cases htarget : E.target with
    | ink v =>
        rw [htarget] at h
        exact h t (List.mem_append_left _ (List.mem_append_left _ (List.mem_append_left _ ht)))
    | soroban =>
        rw [htarget] at h
        exact h t (List.mem_append_left _ ht)
  exact fun d hd f hf => List.forall_mem_map.mp hall f (List.mem_flatMap.mpr ⟨d, hd, hf⟩)

theorem promises_storageItems : Promises E (ItemsSpeak S) storageItems := by
  refine promises_target ?_
  cases htarget : E.target with
  | ink v =>
      rw [htarget] at h
      exact promises_inkStorage v (List.forall_mem_map.mp (List.forall_mem_append.mp h).2)
  | soroban =>
      rw [htarget] at h
      exact promises_sorobanStorage fun f hf t ht =>
        (List.forall_mem_append.mp h).2 t (List.mem_flatMap.mpr ⟨f, hf, ht⟩)

theorem promises_eventItems : Promises E (ItemsSpeak S) (eventItems (E.package.visibleEvents E.contract)) := by
  refine promises_target ?_
  cases htarget : E.target with
  | ink v =>
      rw [htarget] at h
      have hevents := (List.forall_mem_append.mp (List.forall_mem_append.mp (List.forall_mem_append.mp h).1).1).2
      refine promises_mapM fun ev hev => promises_eventItem v fun f hf => ?_
      exact List.forall_mem_map.mp hevents f (List.mem_flatMap.mpr ⟨ev, hev, hf⟩)
  | soroban => exact promises_pure (List.forall_mem_nil _)

theorem promises_errorItems : Promises E (ItemsSpeak S) (errorItems E.package.registry.entries) := by
  refine promises_target ?_
  cases htarget : E.target with
  | ink v =>
      rw [htarget] at h
      have herrors := (List.forall_mem_append.mp (List.forall_mem_append.mp h).1).2
      refine promises_inkErrors v fun d hd p hp => ?_
      exact List.forall_mem_map.mp herrors p (List.mem_flatMap.mpr ⟨d, hd, hp⟩)
  | soroban => exact promises_sorobanErrors _

end ItemTypes

-- Whatever is written where the source spells types of a kind mentions no others.
theorem speaks_of_file (hE : Sourced E) {out : Rust.File} (hfile : file E.package E.contract E.target = .ok out)
    (h : ∀ t ∈ spelledTypes E.package E.contract E.target, HoldsOf S t) :
    ∀ text ∈ out.gather typesIn, Speaks S text := by
  obtain ⟨hitems, hsignatures⟩ := List.forall_mem_append.mp h
  have hfunctions := functionsHold_of_signatures hsignatures
  obtain ⟨henums, hstructs, hstorage, hevents, herrors, hdeployment, hdispatched, hhelpers, hinterfaces, hw⟩ :=
    parts_of_file hfile
  have hbefore := growth_items henums hstructs hstorage hevents herrors
  have hdispatch := (emitted_dispatched hE (fun _ hf => hf) hdispatched).1
  have hgrowth := hbefore.trans ((emitted_deployment hE hdeployment).1.trans hdispatch)
  have hasked := hgrowth.asked_queue (List.forall_mem_nil _)
  obtain ⟨hdeployed, hinits⟩ := List.forall_mem_append.mp (promises_deployment hE hfunctions _ _ _ hdeployment)
  have hdispatched := promises_dispatched hfunctions.dispatch _ _ _ hdispatched
  obtain ⟨hmessages, hinternals⟩ := List.forall_mem_append.mp hdispatched
  have hhelpers := speaks_drainHelpers hE hfunctions hasked hhelpers
  have hentries := List.forall_mem_append.mpr ⟨hdeployed, hmessages⟩
  have hothers := List.forall_mem_append.mpr ⟨List.forall_mem_append.mpr ⟨hinits, hinternals⟩, hhelpers⟩
  have henums := promises_mapM (fun e _ => promises_enumItem (S := S) e) _ _ _ henums
  have hstructs := promises_mapM (fun d hd => promises_structItem (holdsOf_structs hitems d hd)) _ _ _ hstructs
  have htypes := ItemsSpeak.gathered (List.forall_mem_append.mpr ⟨henums, hstructs⟩)
  have hstorage := (promises_storageItems hitems _ _ _ hstorage).gathered
  have hevents := (promises_eventItems hitems _ _ _ hevents).gathered
  have herrors := (promises_errorItems hitems _ _ _ herrors).gathered
  have hinterfaces := (promises_calledInterfaces (holdsOf_interfaces hsignatures) _ _ _ hinterfaces).gathered
  rw [gather_assemble (fun _ => rfl) hw]
  cases E.target with
  | ink v =>
      have hcode := speaks_functions (List.forall_mem_append.mpr ⟨hentries, hothers⟩)
      simp only [List.forall_mem_append]
      exact ⟨hinterfaces, ⟨⟨⟨htypes, hevents⟩, herrors⟩, hstorage⟩, hcode⟩
  | soroban =>
      have hhelpers := speaks_functions hothers
      have hentries := speaks_functions hentries
      simp only [List.forall_mem_append]
      refine ⟨⟨⟨⟨⟨⟨htypes, hstorage⟩, herrors⟩, hinterfaces⟩, List.forall_mem_nil _⟩, hentries⟩, ?_⟩
      split
      · exact List.forall_mem_nil _
      · exact hhelpers

-- With every type that the source spells among the declared ones, no other is mentioned.
theorem mentions_of_file (hE : Sourced E) {out : Rust.File} (hfile : file E.package E.contract E.target = .ok out)
    {declared : List String}
    (h : ∀ t ∈ spelledTypes E.package E.contract E.target, ∀ r ∈ t.declared, Rust.Name.type r.name ∈ declared) :
    ∀ name ∈ out.mentions, name ∈ knownTypes ∨ ∃ type ∈ declared, name ∈ typeNamesIn type := by
  have hspeaks := speaks_of_file (S := fun name => ∃ type ∈ declared, name ∈ typeNamesIn type) hE hfile
    fun t ht r hr name hname => .inr ⟨_, h t ht r hr, hname⟩
  intro name hname
  obtain ⟨text, htext, hname⟩ := List.mem_flatMap.mp hname
  exact hspeaks text htext name hname

end Items

end Emit

end RustContracts
