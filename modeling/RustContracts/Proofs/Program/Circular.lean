import Mathlib.Data.Finset.Card
import Mathlib.Logic.Relation
import RustContracts.Program.Contract
import RustContracts.Proofs.Program.Subterms

-- Declarations that refer to themselves. Whoever follows references deeper than there are declarations has met one of
-- them twice.
namespace RustContracts.Program

open Relation (ReflTransGen TransGen)

-- References.

section References

variable {α : Type} {refers : α → α → Prop} {a b : α} {n : ℕ}

-- A number of references that can be followed one after the other.
def Deep (refers : α → α → Prop) : ℕ → α → Prop
  | 0, _ => True
  | n + 1, a => ∃ b, refers a b ∧ Deep refers n b

-- Where nothing behind `a` leads back to itself, what refers to something on the way is met once only.
theorem Deep.le_card [DecidableEq α] (h : Deep refers n a) (hnone : ∀ b, ReflTransGen refers a b → ¬TransGen refers b b)
    (known : Finset α) (hknown : ∀ b c, ReflTransGen refers a b → refers b c → b ∈ known) : n ≤ known.card := by
  induction n generalizing a known with
  | zero => exact Nat.zero_le _
  | succ n ih =>
      obtain ⟨b, hab, hb⟩ := h
      have hmem := hknown a b .refl hab
      have hrest : n ≤ (known.erase a).card := by
        refine ih hb (fun c hc => hnone c (.head hab hc)) _ fun c d hc hcd => ?_
        refine Finset.mem_erase.mpr ⟨?_, hknown c d (.head hab hc) hcd⟩
        rintro rfl
        exact hnone c .refl (.head' hab hc)
      have hcard := Finset.card_erase_of_mem hmem
      have hpos := Finset.card_pos.mpr ⟨a, hmem⟩
      omega

theorem Deep.exists_circle (known : List α) (h : Deep refers (known.length + 1) a)
    (hknown : ∀ b c, refers b c → b ∈ known) : ∃ b, ReflTransGen refers a b ∧ TransGen refers b b := by
  classical
  by_contra hnone
  have hcard := h.le_card (fun b hb hcircle => hnone ⟨b, hb, hcircle⟩) known.toFinset fun b c _ hbc =>
    List.mem_toFinset.mpr (hknown b c hbc)
  exact absurd (hcard.trans (List.toFinset_card_le known)) (Nat.not_succ_le_self _)

end References

-- Structs and constants.

section Declarations

variable {p : Package} {r r' : DeclRef}

-- A struct in a type, as a part or as what an array has.
inductive Ty.Holds (r : DeclRef) : Ty → Prop
  | struct : Holds r (.struct r)
  | array {elem : Ty} {length : Int} (helem : Holds r elem) : Holds r (.array elem length)
  | tuple {elems : List Ty} {t : Ty} (ht : t ∈ elems) (hholds : Holds r t) : Holds r (.tuple elems)

-- The types of a struct's fields.
def fieldTypes (p : Package) (r : DeclRef) : List Ty := (((p.struct? r).map (·.fields)).getD []).map Param.type

-- A struct refers to those in the types of its fields.
def StructRefers (p : Package) (r r' : DeclRef) : Prop := ∃ t ∈ fieldTypes p r, t.Holds r'

-- A constant refers to those in its value.
def ConstantRefers (p : Package) (r r' : DeclRef) : Prop :=
  ∃ c v start d, p.constant? r = some c ∧ c.value = some v ∧ Expr.const start d ∈ v.subexprs ∧ d.ref = r'

-- Some declaration refers to itself, at once or by way of others.
inductive Package.Circular (p : Package) : Prop
  | struct (r : DeclRef) (hcircle : TransGen (StructRefers p) r r)
  | constant (r : DeclRef) (hcircle : TransGen (ConstantRefers p) r r)

theorem mem_of_structRefers (h : StructRefers p r r') :
    r ∈ (p.structs ++ p.classes.flatMap fun c => c.structs).map StructDecl.ref := by
  obtain ⟨t, ht, -⟩ := h
  cases hs : p.struct? r with
  | none =>
      rw [fieldTypes, hs] at ht
      cases ht
  | some s => exact List.mem_map.mpr ⟨s, List.mem_of_find?_eq_some hs, by simpa using List.find?_some hs⟩

theorem exists_struct_circle (h : Deep (StructRefers p) (p.structCount + 1) r) :
    ∃ r', ReflTransGen (StructRefers p) r r' ∧ TransGen (StructRefers p) r' r' := by
  refine Deep.exists_circle ((p.structs ++ p.classes.flatMap fun c => c.structs).map StructDecl.ref) ?_
    fun _ _ => mem_of_structRefers
  rwa [List.length_map, List.length_append]

theorem mem_of_constantRefers (h : ConstantRefers p r r') :
    r ∈ (p.constants ++ p.classes.flatMap fun c => c.constants).map fun c => c.toConstantDecl.ref := by
  obtain ⟨c, -, -, -, hc, -⟩ := h
  exact List.mem_map.mpr ⟨c, List.mem_of_find?_eq_some hc, by simpa using List.find?_some hc⟩

theorem circular_of_deep_structs (h : Deep (StructRefers p) (p.structCount + 1) r) : p.Circular := by
  obtain ⟨r', -, hcircle⟩ := exists_struct_circle h
  exact .struct r' hcircle

theorem circular_of_deep_constants (h : Deep (ConstantRefers p) (p.constantCount + 1) r) : p.Circular := by
  obtain ⟨r', -, hcircle⟩ := Deep.exists_circle
    ((p.constants ++ p.classes.flatMap fun c => c.constants).map fun c => c.toConstantDecl.ref)
    (by rwa [List.length_map, List.length_append]) fun _ _ => mem_of_constantRefers
  exact .constant r' hcircle

end Declarations

end RustContracts.Program
