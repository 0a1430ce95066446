import RustContracts.Abi.Signature
import RustContracts.Ink.Operator
import RustContracts.Proofs.Resolve.Package
import RustContracts.Proofs.Resolve.Steps
import RustContracts.Soroban.Type

-- The lengths of fixed arrays. A constant below 2^63 is kept by the type and found there by everything that looks at
-- it; from there on it comes out negative, and the array is taken for one that grows.
namespace RustContracts

namespace Program.Ty

-- The machine integer that stands for a number of elements.
def heldLength (n : Nat) : Int := if n < 2 ^ 63 then n else n - 2 ^ 64

-- An array of arrays, innermost first; one without a number of elements grows.
def arrays (elem : Ty) (counts : List (Option Nat)) : Ty :=
  counts.foldl (fun t count => .array t (count.elim (-1) heldLength)) elem

theorem heldLength_of_lt {n : Nat} (h : n < 2 ^ 63) : heldLength n = n := if_pos h

theorem heldLength_neg_iff {n : Nat} (h : n < 2 ^ 64) : heldLength n < 0 ↔ 2 ^ 63 ≤ n := by
  unfold heldLength
  split <;> omega

end Program.Ty

namespace Resolve

open Program
open Program.Ty (heldLength heldLength_of_lt heldLength_neg_iff)
open Solidity (ArrayDim Expression TypeName)
open Text (Position)

-- How an array with `n` elements is read: in reports, in signatures, and in the types and values that are written.
-- Soroban holds all arrays in a `Vec`; a new one has as many zeros as there are elements.
structure ReadAsFixed (elem : Ty) (length : Int) (n : Nat) : Prop where
  length_eq : length = n
  text_eq : (Ty.array elem length).text = elem.text ++ "[" ++ toString n ++ "]"
  canonical_eq : ∀ structText, Abi.canonicalWith structText (.array elem length) = do
    let name ← Abi.canonicalWith structText elem
    return name ++ "[" ++ toString n ++ "]"
  isCopy_eq : Ink.isCopy (.array elem length) = Ink.isCopy elem
  type_eq : ∀ v, Ink.type v (.array elem length) = do
    let t ← Ink.type v elem
    return "[" ++ t ++ "; " ++ toString n ++ "]"
  zero_eq : ∀ v, Ink.zero v (.array elem length) = do
    let _ ← Ink.type v (.array elem length)
    return .lit "Default::default()"
  literal_eq : ∀ elements, Ink.arrayLiteral length elements = pure (.array elements)
  zeros_eq : ∀ structZero, Soroban.zeroWith structZero (.array elem length) = do
    Emit.use "Vec"
    if n = 0 then return Soroban.hostCall "Vec::new" []
    let z ← Soroban.zeroWith structZero elem
    Emit.use "vec"
    return .bangCall "vec" (Soroban.env :: List.replicate n z)

-- Everywhere the array is read as one that grows.
structure ReadAsGrowing (elem : Ty) (length : Int) : Prop where
  negative : length < 0
  text_eq : (Ty.array elem length).text = (Ty.array elem (-1)).text
  canonical_eq : ∀ structText, Abi.canonicalWith structText (.array elem length) =
    Abi.canonicalWith structText (.array elem (-1))
  isCopy_eq : Ink.isCopy (.array elem length) = Ink.isCopy (.array elem (-1))
  type_eq : ∀ v, Ink.type v (.array elem length) = Ink.type v (.array elem (-1))
  zero_eq : ∀ v, Ink.zero v (.array elem length) = Ink.zero v (.array elem (-1))
  literal_eq : ∀ elements, Ink.arrayLiteral length elements = Ink.arrayLiteral (-1) elements
  zeros_eq : ∀ structZero, Soroban.zeroWith structZero (.array elem length) =
    Soroban.zeroWith structZero (.array elem (-1))

theorem readAsFixed_natCast (elem : Ty) (n : Nat) : ReadAsFixed elem n n := by
  have hneg : ¬(n : Int) < 0 := by omega
  have hrepr : (n : Int).repr = n.repr := rfl
  exact {
    length_eq := rfl
    text_eq := by simp [Ty.text, hneg, hrepr]
    canonical_eq := by simp [Abi.canonicalWith, hneg, hrepr, String.append_assoc]
    isCopy_eq := by simp [Ink.isCopy]
    type_eq := by simp [Ink.type, hneg, hrepr]
    zero_eq := by simp [Ink.zero, hneg]
    literal_eq := by simp [Ink.arrayLiteral]
    zeros_eq := by simp [Soroban.zeroWith] }

theorem readAsGrowing_of_neg (elem : Ty) {length : Int} (h : length < 0) : ReadAsGrowing elem length where
  negative := h
  text_eq := by simp [Ty.text, h]
  canonical_eq := by simp [Abi.canonicalWith, h]
  isCopy_eq := by simp [Ink.isCopy, h]
  type_eq := by simp [Ink.type, h]
  zero_eq := by simp [Ink.zero, h]
  literal_eq := by simp [Ink.arrayLiteral, h]
  zeros_eq := by simp [Soroban.zeroWith, h.le]

theorem readAsFixed_heldLength_iff (elem : Ty) {n : Nat} (h : n < 2 ^ 64) :
    ReadAsFixed elem (heldLength n) n ↔ n < 2 ^ 63 := by
  constructor
  · intro hfixed
    have hneg := heldLength_neg_iff h
    have hlength := hfixed.length_eq
    omega
  · intro hlt
    rw [heldLength_of_lt hlt]
    exact readAsFixed_natCast elem n

theorem readAsGrowing_heldLength_iff (elem : Ty) {n : Nat} (h : n < 2 ^ 64) :
    ReadAsGrowing elem (heldLength n) ↔ 2 ^ 63 ≤ n :=
  ⟨fun hgrowing => (heldLength_neg_iff h).mp hgrowing.negative,
    fun hle => readAsGrowing_of_neg elem ((heldLength_neg_iff h).mpr hle)⟩

variable {env : Env} {g g' : Gathered} {elem t : Ty} {dims : List ArrayDim}

-- What a dimension as written asks for: the constant that its size is resolved to, if there is one.
inductive Counts (env : Env) : ArrayDim → Option Nat → Prop
  | growing {start : Position} : Counts env ⟨start, none⟩ none
  | fixed {start p : Position} {size : Expression} {n : Nat} {g g' : Gathered}
      (constant : Resolves (expr size) env g (.int p n) g') (fits : n < 2 ^ 64) :
      Counts env ⟨start, some size⟩ (some n)

-- Dimensions behind an element type, and the type that the builder makes of them: in a declaration, behind `new`, and
-- in an expression that is a type with an index.
inductive MakesArray (env : Env) : Ty → List ArrayDim → Ty → Prop
  | declared {scope : Option ContractDecl} {ty : TypeName} {elem t : Ty} {g mid g' : Gathered}
      (base : Resolves (typeBase scope ty.start ty.payable ty.base) env g elem mid)
      (whole : Resolves (typeName scope ty) env g t g') : MakesArray env elem ty.dims t
  | new {start p : Position} {ty : TypeName} {elem t : Ty} {g mid g' : Gathered}
      (base : Resolves (typeBase env.contract ty.start ty.payable ty.base) env g elem mid)
      (whole : Resolves (primaryTerm start (.new ty)) env g (.new t p) g') : MakesArray env elem ty.dims t
  | expression {start p q : Position} {size : Option Expression} {elem t : Ty} {g g' : Gathered}
      (whole : Resolves (applySuffix (.type elem p) (.index start size)) env g (.type t q) g') :
      MakesArray env elem [⟨start, size⟩] t

theorem resolves_unique {α : Type} {act : Resolving α} {a b : α} {g g₁ g₂ : Gathered} (ha : Resolves act env g a g₁)
    (hb : Resolves act env g b g₂) : a = b ∧ g₁ = g₂ := by
  have hsame := Except.ok.inj (ha.symm.trans hb)
  exact Prod.mk.inj hsame

theorem literalLength?_int {p : Position} {n : Nat} (h : n < 2 ^ 64) :
    literalLength? (.int p n) = some (heldLength n) := by
  have hbmod : Int.bmod n (2 ^ 64) = heldLength n := by
    rw [Int.bmod_def, heldLength]
    omega
  rw [literalLength?, Nat.one_shiftLeft, if_pos h, hbmod]

theorem literalLength?_eq_some_iff {x : Expr} {length : Int} :
    literalLength? x = some length ↔ ∃ p n, x = .int p n ∧ n < 2 ^ 64 ∧ length = heldLength n := by
  constructor
  · intro h
    unfold literalLength? at h
    split at h
    · next p n =>
        split at h
        · next hn =>
            rw [Nat.one_shiftLeft] at hn
            have hheld := literalLength?_int (p := p) hn
            rw [literalLength?, Nat.one_shiftLeft, if_pos hn] at hheld
            rw [Nat.one_shiftLeft, Option.some.inj hheld] at h
            exact ⟨p, n, rfl, hn, (Option.some.inj h).symm⟩
        · cases h
    · cases h
  · rintro ⟨p, n, rfl, hn, rfl⟩
    exact literalLength?_int hn

-- A length is accepted when it is a constant of at most 64 bits.
theorem resolves_arrayLength_iff {size : Expression} {length : Int} :
    Resolves (arrayLength size) env g length g' ↔
      ∃ p n, Resolves (expr size) env g (.int p n) g' ∧ n < 2 ^ 64 ∧ length = heldLength n := by
  obtain ⟨start, stop, target, _ | value⟩ := size
  · rw [arrayLength, expr, resolves_bind]
    constructor
    · rintro ⟨x, mid, hx, h⟩
      split at h
      · next n hn =>
          obtain ⟨rfl, rfl⟩ := resolves_pure.mp h
          obtain ⟨p, n, rfl, hfits, rfl⟩ := literalLength?_eq_some_iff.mp hn
          exact ⟨p, n, hx, hfits, rfl⟩
      · exact absurd h not_resolves_throw
    · rintro ⟨p, n, hx, hfits, rfl⟩
      refine ⟨_, g', hx, ?_⟩
      rw [literalLength?_int hfits]
      exact resolves_pure.mpr ⟨rfl, rfl⟩
  · rw [arrayLength, expr]
    refine ⟨fun h => absurd h not_resolves_throw, ?_⟩
    rintro ⟨p, n, h, -⟩
    exact absurd h not_resolves_throw

theorem resolves_arrayOf (h : Resolves (arrayOf elem dims) env g t g') :
    ∃ counts, List.Forall₂ (Counts env) dims counts ∧ t = elem.arrays counts := by
  induction dims generalizing elem g with
  | nil =>
      rw [arrayOf] at h
      exact ⟨[], .nil, (resolves_pure.mp h).1.symm⟩
  | cons d rest ih =>
      obtain ⟨start, _ | size⟩ := d
      · rw [arrayOf] at h
        obtain ⟨counts, hcounts, rfl⟩ := ih h
        exact ⟨none :: counts, .cons .growing hcounts, rfl⟩
      · rw [arrayOf] at h
        obtain ⟨length, mid, hlength, h⟩ := resolves_bind.mp h
        obtain ⟨p, n, hconstant, hfits, rfl⟩ := resolves_arrayLength_iff.mp hlength
        obtain ⟨counts, hcounts, rfl⟩ := ih h
        exact ⟨some n :: counts, .cons (.fixed hconstant hfits) hcounts, rfl⟩

theorem resolves_typeName {scope : Option ContractDecl} {ty : TypeName} {mid : Gathered}
    (hbase : Resolves (typeBase scope ty.start ty.payable ty.base) env g elem mid)
    (h : Resolves (typeName scope ty) env g t g') :
    ∃ counts, List.Forall₂ (Counts env) ty.dims counts ∧ t = elem.arrays counts := by
  obtain ⟨start, base, payable, dims⟩ := ty
  rw [typeName] at h
  obtain ⟨elem', mid', hbase', h⟩ := resolves_bind.mp h
  obtain ⟨rfl, rfl⟩ := resolves_unique hbase' hbase
  exact resolves_arrayOf h

theorem MakesArray.exists_counts (h : MakesArray env elem dims t) :
    ∃ counts, List.Forall₂ (Counts env) dims counts ∧ t = elem.arrays counts := by
  cases h with
  | declared base whole => exact resolves_typeName base whole
  | new base whole =>
      rw [primaryTerm] at whole
      obtain ⟨env', mid, henv, whole⟩ := resolves_bind.mp whole
      obtain ⟨rfl, rfl⟩ := resolves_read.mp henv
      obtain ⟨t', mid, htype, whole⟩ := resolves_bind.mp whole
      obtain ⟨hterm, rfl⟩ := resolves_pure.mp whole
      cases hterm
      exact resolves_typeName base htype
  | @expression start p q size =>
      rename_i g g' whole
      cases size with
      | none =>
          rw [applySuffix] at whole
          obtain ⟨hterm, rfl⟩ := resolves_pure.mp whole
          cases hterm
          exact ⟨[none], .cons .growing .nil, rfl⟩
      | some size =>
          rw [applySuffix] at whole
          obtain ⟨length, mid, hlength, whole⟩ := resolves_bind.mp whole
          obtain ⟨hterm, rfl⟩ := resolves_pure.mp whole
          cases hterm
          obtain ⟨p', n, hconstant, hfits, rfl⟩ := resolves_arrayLength_iff.mp hlength
          exact ⟨[some n], .cons (.fixed hconstant hfits) .nil, rfl⟩

theorem fits_of_counts {counts : List (Option Nat)} {n : Nat} (h : List.Forall₂ (Counts env) dims counts)
    (hn : some n ∈ counts) : n < 2 ^ 64 := by
  induction h with
  | nil => cases hn
  | @cons d count dims counts hcount _ ih =>
      rcases List.mem_cons.mp hn with rfl | hn
      · cases hcount with
        | fixed _ fits => exact fits
      · exact ih hn

-- An array type is one of as many elements as its constant says, wherever the length is looked at, when the constant is
-- below 2^63; from there on it is one that grows.
theorem array_lengths_kept_iff (h : MakesArray env elem dims t) :
    ∃ counts, List.Forall₂ (Counts env) dims counts ∧ t = elem.arrays counts ∧
      ∀ n, some n ∈ counts → ∀ inner, (ReadAsFixed inner (heldLength n) n ↔ n < 2 ^ 63) ∧
        (ReadAsGrowing inner (heldLength n) ↔ 2 ^ 63 ≤ n) := by
  obtain ⟨counts, hcounts, rfl⟩ := h.exists_counts
  refine ⟨counts, hcounts, rfl, fun n hn inner => ?_⟩
  have hfits := fits_of_counts hcounts hn
  exact ⟨readAsFixed_heldLength_iff inner hfits, readAsGrowing_heldLength_iff inner hfits⟩

-- Called, a new array grows, whatever number of elements stands in its type.
theorem call_new_grows {c : CallArgs} {start : Position} {length : Int} {term : Term}
    (h : Resolves ((Term.new (.array elem length) start).call c) env g term g') :
    ∃ size, term = .value (.newArray c.start elem size) ∧ (Expr.newArray c.start elem size).type = .array elem (-1) := by
  rw [Term.call] at h
  obtain ⟨args, mid, -, h⟩ := resolves_bind.mp h
  obtain ⟨rfl, -⟩ := resolves_pure.mp h
  exact ⟨_, rfl, rfl⟩

namespace Sized

-- `bool[digits]`.
def number (digits : String) : Expression :=
  ⟨default, default, ⟨⟨.term default (.number default digits "") [], []⟩, none⟩, none⟩

def flags (digits : String) : TypeName := ⟨default, .path "bool", false, [⟨default, some (number digits)⟩]⟩

def outside : Env := ⟨{}, none, false, false, false⟩

theorem makes_three : MakesArray outside .bool (flags "3").dims (.array .bool 3) := by
  have hbase : Resolves (typeBase none default false (.path "bool")) outside {} .bool {} := by rfl
  have hthree : Resolves (expr (number "3")) outside {} (.int default 3) {} := by rfl
  have hwhole : Resolves (typeName none (flags "3")) outside {} (.array .bool 3) {} := by
    rw [flags, typeName, resolves_bind]
    refine ⟨_, _, hbase, ?_⟩
    rw [arrayOf, resolves_bind]
    refine ⟨_, _, resolves_arrayLength_iff.mpr ⟨_, 3, hthree, by decide, rfl⟩, ?_⟩
    rw [arrayOf]
    exact resolves_pure.mpr ⟨rfl, rfl⟩
  exact .declared hbase hwhole

theorem array_lengths_kept_three : MakesArray outside .bool (flags "3").dims (.array .bool 3) ∧
    ∃ counts, List.Forall₂ (Counts outside) (flags "3").dims counts ∧ Ty.array .bool 3 = Ty.bool.arrays counts ∧
      ∀ n, some n ∈ counts → ∀ inner, (ReadAsFixed inner (heldLength n) n ↔ n < 2 ^ 63) ∧
        (ReadAsGrowing inner (heldLength n) ↔ 2 ^ 63 ≤ n) :=
  ⟨makes_three, array_lengths_kept_iff makes_three⟩

-- The type of a contract's field, as text, and its length.
def fieldType (digits : String) : Option (List (String × Option Int)) :=
  let length : Ty → Option Int
    | .array _ n => some n
    | _ => none
  let unit := ⟨default, [plainContract "C" false [] [.variable default ⟨default, flags digits, [], "a", none⟩]]⟩
  (package "sample" unit).toOption.map fun p =>
    p.classes.flatMap fun c => c.fields.map fun f => (f.type.text, length f.type)

-- The longest array is one that grows.
theorem longest_grows : fieldType "18446744073709551615" = some [("bool[]", some (-1))] := by decide +kernel

end Sized

end Resolve

end RustContracts
