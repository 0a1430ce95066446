import Mathlib
import RustContracts.Abi.Signature
import RustContracts.Proofs.Program.Circular
import RustContracts.Proofs.Program.Dispatch
import RustContracts.Proofs.Rust.Identifier

-- Signatures say which function they are of: where no struct is within itself they have an end, and the name and the
-- canonical names of the types can be read back from each. The text of a selector tells its bytes.
namespace RustContracts

namespace Program

mutual

-- The names in a type are identifiers of the source.
def Ty.Named : Ty → Prop
  | .mapping key value => key.Named ∧ value.Named
  | .array elem _ => elem.Named
  | .struct r | .enum r => Solidity.isIdentifier r.name = true
  | .contract name => Solidity.isIdentifier name = true
  | .tuple elems => Ty.AllNamed elems
  | _ => True

def Ty.AllNamed : List Ty → Prop
  | [] => True
  | t :: rest => t.Named ∧ Ty.AllNamed rest

end

end Program

namespace Abi

open Program

-- The commas outside of parentheses, in a text behind `depth` open ones.
def commas : Nat → List Char → Nat
  | _, [] => 0
  | depth, '(' :: cs => commas (depth + 1) cs
  | depth, ')' :: cs => commas (depth - 1) cs
  | 0, ',' :: cs => commas 0 cs + 1
  | depth, _ :: cs => commas depth cs

-- A text whose parentheses are closed, so that nothing is counted behind it that is not counted without it; inside of
-- parentheses, commas are allowed as well.
def Closed (text : List Char) : Prop := ∀ depth rest, commas (depth + 1) (text ++ rest) = commas (depth + 1) rest

def Flat (text : List Char) : Prop := ∀ depth rest, commas depth (text ++ rest) = commas depth rest

section Flat

variable {text text' : List Char} {c : Char}

theorem Flat.closed (h : Flat text) : Closed text := fun depth rest => h (depth + 1) rest

theorem Flat.append (h : Flat text) (h' : Flat text') : Flat (text ++ text') := fun depth rest => by
  rw [List.append_assoc, h, h']

theorem Closed.append (h : Closed text) (h' : Closed text') : Closed (text ++ text') := fun depth rest => by
  rw [List.append_assoc, h, h']

theorem flat_nil : Flat [] := fun _ _ => rfl

theorem closed_comma : Closed [','] := fun _ _ => rfl

theorem Closed.flat (h : Closed text) : Flat ('(' :: text ++ [')']) := fun depth rest => by
  rw [List.append_assoc, List.cons_append, commas, h]
  simp [commas]

theorem flat_cons (hopen : c ≠ '(') (hclose : c ≠ ')') (hcomma : c ≠ ',') (h : Flat text) : Flat (c :: text) :=
  fun depth rest => by
    rw [List.cons_append, ← h depth rest]
    generalize text ++ rest = more
    rw [commas]
    · exact hopen
    · exact hclose
    · exact fun _ => hcomma

theorem flat_of_forall (h : ∀ c ∈ text, c ≠ '(' ∧ c ≠ ')' ∧ c ≠ ',') : Flat text := by
  induction text with
  | nil => exact flat_nil
  | cons c text ih =>
      obtain ⟨⟨hopen, hclose, hcomma⟩, hrest⟩ := List.forall_mem_cons.mp h
      exact flat_cons hopen hclose hcomma (ih hrest)

theorem flat_identifier {name : String} (h : Solidity.isIdentifier name = true) : Flat name.toList := by
  rw [Solidity.isIdentifier, Bool.and_eq_true, List.all_eq_true] at h
  refine flat_of_forall fun c hc => ⟨?_, ?_, ?_⟩ <;>
    · rintro rfl
      cases h.2 _ hc

theorem flat_nat (n : Nat) : Flat (toString n).toList := by
  have hdigits : (toString n).toList = Nat.toDigits 10 n := by simp
  rw [hdigits]
  refine flat_of_forall fun c hc => ⟨?_, ?_, ?_⟩ <;>
    · rintro rfl
      cases Nat.isDigit_of_mem_toDigits (by decide) (by decide) hc

theorem flat_int (n : Int) : Flat (toString n).toList := by
  cases n with
  | ofNat n => exact flat_nat n
  | negSucc n =>
      have hminus : (toString (Int.negSucc n)).toList = '-' :: (toString (n + 1)).toList := by
        rw [show toString (Int.negSucc n) = "-" ++ toString (n + 1) from rfl, String.toList_append]
        rfl
      rw [hminus]
      exact flat_cons (by decide) (by decide) (by decide) (flat_nat _)

end Flat

-- Texts of types.

theorem flat_bracketed {elem : String} (h : Flat elem.toList) (n : Int) :
    Flat (elem ++ "[" ++ toString n ++ "]").toList := by
  simp only [String.toList_append]
  exact ((h.append (flat_of_forall (by simp))).append (flat_int n)).append (flat_of_forall (by simp))

theorem flat_growing {elem : String} (h : Flat elem.toList) : Flat (elem ++ "[]").toList := by
  rw [String.toList_append]
  exact h.append (flat_of_forall (by simp))

theorem flat_intText (signed : Bool) (bits : Nat) : Flat (Ty.intText signed bits).toList := by
  rw [Ty.intText, String.toList_append]
  refine Flat.append ?_ (flat_nat bits)
  cases signed <;> exact flat_of_forall (by simp)

theorem flat_enclosed {inner : String} (h : Closed inner.toList) : Flat ("(" ++ inner ++ ")").toList := by
  simp only [String.toList_append]
  exact h.flat

mutual

theorem flat_text : (t : Ty) → t.Named → Flat t.text.toList
  | .int signed bits, _ => by
      rw [Ty.text]
      exact flat_intText signed bits
  | .bool, _ | .string, _ | .literal, _ => by
      rw [Ty.text]
      exact flat_of_forall (by simp)
  | .address payable, _ => by
      rw [Ty.text]
      cases payable <;> exact flat_of_forall (by simp)
  | .bytes size, _ => by
      rw [Ty.text]
      split
      · exact flat_of_forall (by simp)
      · rw [String.toList_append]
        exact Flat.append (flat_of_forall (by simp)) (flat_nat size)
  | .mapping key value, ⟨hkey, hvalue⟩ => by
      have hinner : Closed (key.text ++ " => " ++ value.text).toList := by
        simp only [String.toList_append]
        refine Flat.closed (((flat_text key hkey).append ?_).append (flat_text value hvalue))
        exact flat_of_forall (by simp)
      have htext : (Ty.mapping key value).text = "mapping" ++ ("(" ++ (key.text ++ " => " ++ value.text) ++ ")") := by
        rw [Ty.text]
        simp only [← String.append_assoc]
        rfl
      rw [htext, String.toList_append]
      exact Flat.append (flat_of_forall (by simp)) (flat_enclosed hinner)
  | .array elem length, h => by
      rw [Ty.text]
      split
      · exact flat_growing (flat_text elem h)
      · exact flat_bracketed (flat_text elem h) length
  | .struct _, h | .enum _, h | .contract _, h => by
      rw [Ty.text]
      exact flat_identifier h
  | .tuple elems, h => by
      rw [Ty.text]
      exact flat_enclosed (closed_listText elems h)

theorem closed_listText : (ts : List Ty) → Ty.AllNamed ts → Closed (Ty.listText ts).toList
  | [], _ => flat_nil.closed
  | [t], ⟨ht, _⟩ => (flat_text t ht).closed
  | t :: t' :: rest, ⟨ht, hrest⟩ => by
      rw [Ty.listText, String.toList_append, String.toList_append]
      · refine Closed.append ((flat_text t ht).closed.append ?_) (closed_listText (t' :: rest) hrest)
        exact closed_comma.append (@flat_of_forall [' '] (by simp)).closed
      · rintro ⟨⟩

end

section Canonical

variable {structText structText' : DeclRef → Option String} {elem t : Ty} {ts : List Ty} {length : Int} {name : String}
  {names : List String}

theorem canonicalWith_array : canonicalWith structText (.array elem length) = some name ↔
    ∃ inner, canonicalWith structText elem = some inner ∧
      inner ++ (if length < 0 then "[]" else "[" ++ toString length ++ "]") = name := by
  simp [canonicalWith, Option.bind_eq_some_iff]

theorem canonicalWith_tuple : canonicalWith structText (.tuple ts) = some name ↔
    ∃ names, canonicalNames structText ts = some names ∧ "(" ++ ",".intercalate names ++ ")" = name := by
  simp [canonicalWith, Option.bind_eq_some_iff]

theorem canonicalNames_cons : canonicalNames structText (t :: ts) = some names ↔
    ∃ first rest, canonicalWith structText t = some first ∧ canonicalNames structText ts = some rest ∧ first :: rest = names := by
  simp [canonicalNames, Option.bind_eq_some_iff]

theorem canonicalNames_eq_some : canonicalNames structText ts = some names ↔
    ts.map (canonicalWith structText) = names.map some := by
  induction ts generalizing names with
  | nil => cases names <;> simp [canonicalNames]
  | cons t ts ih =>
      rw [canonicalNames_cons]
      cases names with
      | nil => simp
      | cons name names =>
          rw [List.map_cons, List.map_cons, List.cons.injEq, ← ih]
          constructor
          · rintro ⟨first, rest, hfirst, hrest, heq⟩
            obtain ⟨rfl, rfl⟩ := List.cons.inj heq
            exact ⟨hfirst, hrest⟩
          · rintro ⟨hfirst, hrest⟩
            exact ⟨name, names, hfirst, hrest, rfl⟩

mutual

-- A name has no end where that of a struct in the type has none.
theorem exists_holds : (t : Ty) → canonicalWith structText t = none → ∃ r, t.Holds r ∧ structText r = none
  | .array elem length, h => by
      cases helem : canonicalWith structText elem with
      | none =>
          obtain ⟨r, hholds, hr⟩ := exists_holds elem helem
          exact ⟨r, .array hholds, hr⟩
      | some name => simp [canonicalWith, helem] at h
  | .struct r, h => ⟨r, .struct, by rwa [canonicalWith] at h⟩
  | .tuple elems, h => by
      cases helems : canonicalNames structText elems with
      | none =>
          obtain ⟨t, ht, r, hholds, hr⟩ := exists_holds_mem elems helems
          exact ⟨r, .tuple ht hholds, hr⟩
      | some names => simp [canonicalWith, helems] at h
  | .int _ _, h | .bool, h | .address _, h | .string, h | .bytes _, h | .mapping _ _, h | .enum _, h | .contract _, h
  | .literal, h => by
      simp [canonicalWith] at h

theorem exists_holds_mem : (ts : List Ty) → canonicalNames structText ts = none →
    ∃ t ∈ ts, ∃ r, t.Holds r ∧ structText r = none
  | [], h => by
      rw [canonicalNames] at h
      cases h
  | t :: rest, h => by
      cases ht : canonicalWith structText t with
      | none => exact ⟨t, List.mem_cons_self, exists_holds t ht⟩
      | some name =>
          cases hrest : canonicalNames structText rest with
          | none =>
              obtain ⟨t', ht', hr⟩ := exists_holds_mem rest hrest
              exact ⟨t', List.mem_cons_of_mem _ ht', hr⟩
          | some names => simp [canonicalNames, ht, hrest] at h

end

mutual

theorem canonicalWith_mono (hle : ∀ r name, structText r = some name → structText' r = some name) :
    (t : Ty) → {name : String} → canonicalWith structText t = some name → canonicalWith structText' t = some name
  | .array elem length, _, h => by
      obtain ⟨inner, hinner, rfl⟩ := canonicalWith_array.mp h
      exact canonicalWith_array.mpr ⟨inner, canonicalWith_mono hle elem hinner, rfl⟩
  | .struct r, _, h => by
      rw [canonicalWith] at h ⊢
      exact hle r _ h
  | .tuple elems, _, h => by
      obtain ⟨names, hnames, rfl⟩ := canonicalWith_tuple.mp h
      exact canonicalWith_tuple.mpr ⟨names, canonicalNames_mono hle elems hnames, rfl⟩
  | .int _ _, _, h | .bool, _, h | .address _, _, h | .string, _, h | .bytes _, _, h | .mapping _ _, _, h | .enum _, _, h
  | .contract _, _, h | .literal, _, h => by
      simpa [canonicalWith] using h

theorem canonicalNames_mono (hle : ∀ r name, structText r = some name → structText' r = some name) :
    (ts : List Ty) → {names : List String} → canonicalNames structText ts = some names →
      canonicalNames structText' ts = some names
  | [], _, h => by rwa [canonicalNames] at h ⊢
  | t :: rest, _, h => by
      obtain ⟨first, more, hfirst, hmore, rfl⟩ := canonicalNames_cons.mp h
      exact canonicalNames_cons.mpr
        ⟨first, more, canonicalWith_mono hle t hfirst, canonicalNames_mono hle rest hmore, rfl⟩

end

end Canonical

section Structs

variable {p : Package} {depth : Nat} {r : DeclRef} {name text : String} {params : List Param}

theorem structText_succ : structText p (depth + 1) r = some name ↔
    ∃ names, canonicalNames (structText p depth) (fieldTypes p r) = some names ∧
      "(" ++ ",".intercalate names ++ ")" = name := by
  simp [structText, fieldTypes, Option.bind_eq_some_iff]

-- A deeper bound changes no name.
theorem structText_mono (h : structText p depth r = some name) : structText p (depth + 1) r = some name := by
  induction depth generalizing r name with
  | zero =>
      rw [structText] at h
      cases h
  | succ depth ih =>
      obtain ⟨names, hnames, rfl⟩ := structText_succ.mp h
      exact structText_succ.mpr ⟨names, canonicalNames_mono (fun _ _ => ih) _ hnames, rfl⟩

theorem deep_of_structText (h : structText p depth r = none) : Deep (StructRefers p) depth r := by
  induction depth generalizing r with
  | zero => trivial
  | succ depth ih =>
      have hnames : canonicalNames (structText p depth) (fieldTypes p r) = none := by
        refine Option.eq_none_iff_forall_ne_some.mpr fun names hnames => ?_
        rw [structText_succ.mpr ⟨names, hnames, rfl⟩] at h
        cases h
      obtain ⟨t, ht, r', hholds, hr'⟩ := exists_holds_mem _ hnames
      exact ⟨r', ⟨t, ht, hholds⟩, ih hr'⟩

theorem signature_eq_some : signature p name params = some text ↔
    ∃ names, canonicalNames (structText p (p.structCount + 1)) (params.map Param.type) = some names ∧
      name ++ "(" ++ ",".intercalate names ++ ")" = text := by
  simp [signature, Option.bind_eq_some_iff]

-- Only where a struct is within itself a signature has no end.
theorem circular_of_signature (h : signature p name params = none) : p.Circular := by
  have hnames : canonicalNames (structText p (p.structCount + 1)) (params.map Param.type) = none := by
    refine Option.eq_none_iff_forall_ne_some.mpr fun names hnames => ?_
    rw [signature_eq_some.mpr ⟨names, hnames, rfl⟩] at h
    cases h
  obtain ⟨-, -, r, -, hr⟩ := exists_holds_mem _ hnames
  exact circular_of_deep_structs (deep_of_structText hr)

end Structs

-- Types that end.

section Grounded

variable {p : Package} {t : Ty} {r : DeclRef} {depth : Nat}

-- Types in which no struct is within itself. A mapping is named by the names of the source.
inductive Grounded (p : Package) : Ty → Prop
  | int {signed : Bool} {bits : Nat} : Grounded p (.int signed bits)
  | bool : Grounded p .bool
  | address {payable : Bool} : Grounded p (.address payable)
  | string : Grounded p .string
  | bytes {size : Nat} : Grounded p (.bytes size)
  | literal : Grounded p .literal
  | enum {r : DeclRef} : Grounded p (.enum r)
  | contract {name : String} : Grounded p (.contract name)
  | mapping {key value : Ty} (hkey : key.Named) (hvalue : value.Named) : Grounded p (.mapping key value)
  | array {elem : Ty} {length : Int} (helem : Grounded p elem) : Grounded p (.array elem length)
  | tuple {elems : List Ty} (helems : ∀ t ∈ elems, Grounded p t) : Grounded p (.tuple elems)
  | struct {r : DeclRef} (hfields : ∀ t ∈ fieldTypes p r, Grounded p t) : Grounded p (.struct r)

-- What refers to no struct but such is such a struct.
theorem Grounded.of_holds (h : Grounded p t) (hholds : t.Holds r) : Grounded p (.struct r) := by
  induction hholds with
  | struct => exact h
  | array _ ih =>
      cases h with
      | array helem => exact ih helem
  | tuple ht _ ih =>
      cases h with
      | tuple helems => exact ih (helems _ ht)

theorem Grounded.of_refers {r' : DeclRef} (h : Grounded p (.struct r)) (hrefers : StructRefers p r r') :
    Grounded p (.struct r') := by
  obtain ⟨t, ht, hholds⟩ := hrefers
  cases h with
  | struct hfields => exact (hfields t ht).of_holds hholds

theorem Grounded.of_reach {r' : DeclRef} (h : Grounded p (.struct r))
    (hreach : Relation.ReflTransGen (StructRefers p) r r') : Grounded p (.struct r') := by
  induction hreach with
  | refl => exact h
  | tail _ hrefers ih => exact ih.of_refers hrefers

theorem Grounded.not_circle (h : Grounded p t) : ∀ r, t.Holds r → ¬Relation.TransGen (StructRefers p) r r := by
  induction h with
  | array _ ih =>
      intro r hholds
      cases hholds with
      | array helem => exact ih r helem
  | tuple _ ih =>
      intro r hholds
      cases hholds with
      | tuple ht hholds => exact ih _ ht r hholds
  | struct _ ih =>
      intro r hholds hcircle
      cases hholds with
      | struct =>
          -- the circle through the struct is one through the first struct behind it
          obtain ⟨r', ⟨t, ht, hheld⟩, hback⟩ := Relation.TransGen.head'_iff.mp hcircle
          exact ih t ht r' hheld (.tail' hback ⟨t, ht, hheld⟩)
  | _ =>
      intro r hholds
      cases hholds

-- Such a type has a name.
theorem Grounded.exists_canonical (h : Grounded p t) : ∃ name, canonical p t = some name := by
  refine Option.ne_none_iff_exists'.mp fun hnone => ?_
  obtain ⟨r, hholds, hr⟩ := exists_holds t hnone
  obtain ⟨r', hreach, hcircle⟩ := exists_struct_circle (deep_of_structText hr)
  exact ((h.of_holds hholds).of_reach hreach).not_circle r' .struct hcircle

theorem canonicalNames_canonical {ts : List Ty} (h : ∀ t ∈ ts, Grounded p t) :
    ∃ names, canonicalNames (structText p (p.structCount + 1)) ts = some names := by
  induction ts with
  | nil => exact ⟨[], rfl⟩
  | cons t ts ih =>
      obtain ⟨ht, hts⟩ := List.forall_mem_cons.mp h
      obtain ⟨first, hfirst⟩ := ht.exists_canonical
      obtain ⟨rest, hrest⟩ := ih hts
      exact ⟨first :: rest, canonicalNames_cons.mpr ⟨first, rest, hfirst, hrest, rfl⟩⟩

-- A struct is named by the names of the types of its fields.
theorem canonical_struct (h : Grounded p (.struct r)) : ∃ names,
    (fieldTypes p r).map (canonical p) = names.map some ∧
      canonical p (.struct r) = some ("(" ++ ",".intercalate names ++ ")") := by
  obtain ⟨name, hname⟩ := h.exists_canonical
  obtain ⟨names, hnames, rfl⟩ := structText_succ.mp (show structText p (p.structCount + 1) r = some name from hname)
  exact ⟨names, canonicalNames_eq_some.mp (canonicalNames_mono (fun _ _ => structText_mono) _ hnames), hname⟩

theorem closed_intercalate {names : List String} (h : ∀ name ∈ names, Flat name.toList) :
    Closed (",".intercalate names).toList := by
  induction names with
  | nil => exact flat_nil.closed
  | cons name rest ih =>
      obtain ⟨hname, hrest⟩ := List.forall_mem_cons.mp h
      cases rest with
      | nil => simpa using hname.closed
      | cons name' rest =>
          rw [String.intercalate_cons_cons, String.toList_append, String.toList_append]
          exact Closed.append (hname.closed.append closed_comma) (ih hrest)

-- The names of types are those of the list, one by one.
theorem forall_names {structText : DeclRef → Option String} {ts : List Ty} {names : List String} {P : String → Prop}
    (hnames : canonicalNames structText ts = some names)
    (h : ∀ t ∈ ts, ∀ name, canonicalWith structText t = some name → P name) : ∀ name ∈ names, P name := by
  intro name hname
  have hmem : some name ∈ ts.map (canonicalWith structText) := by
    rw [canonicalNames_eq_some.mp hnames]
    exact List.mem_map_of_mem hname
  obtain ⟨t, ht, heq⟩ := List.mem_map.mp hmem
  exact h t ht name heq

theorem flat_suffix (length : Int) : Flat (if length < 0 then "[]" else "[" ++ toString length ++ "]").toList := by
  split
  · exact flat_of_forall (by simp)
  · simp only [String.toList_append]
    exact ((flat_of_forall (by simp)).append (flat_int length)).append (flat_of_forall (by simp))

-- Names are flat and not empty.
theorem Grounded.flat (h : Grounded p t) (depth : Nat) {name : String}
    (hname : canonicalWith (structText p depth) t = some name) : Flat name.toList ∧ name ≠ "" := by
  induction h generalizing depth name with
  | @int signed bits =>
      obtain rfl : Ty.text _ = name := by simpa only [canonicalWith, Option.some.injEq] using hname
      exact ⟨flat_text _ trivial, by cases signed <;> simp [Ty.text, Ty.intText, String.append_eq_empty_iff]⟩
  | @bytes size =>
      obtain rfl : Ty.text _ = name := by simpa only [canonicalWith, Option.some.injEq] using hname
      refine ⟨flat_text _ trivial, ?_⟩
      rw [Ty.text]
      split <;> simp [String.append_eq_empty_iff]
  | bool | string | literal =>
      obtain rfl : Ty.text _ = name := by simpa only [canonicalWith, Option.some.injEq] using hname
      exact ⟨flat_text _ trivial, by simp [Ty.text]⟩
  | mapping hkey hvalue =>
      obtain rfl : Ty.text _ = name := by simpa only [canonicalWith, Option.some.injEq] using hname
      exact ⟨flat_text (.mapping _ _) ⟨hkey, hvalue⟩, by simp [Ty.text, String.append_eq_empty_iff]⟩
  | address | enum | contract =>
      rw [canonicalWith] at hname
      obtain rfl := Option.some.inj hname
      exact ⟨flat_of_forall (by simp), by simp⟩
  | array helem ih =>
      obtain ⟨inner, hinner, rfl⟩ := canonicalWith_array.mp hname
      obtain ⟨hflat, hne⟩ := ih depth hinner
      rw [String.toList_append]
      exact ⟨hflat.append (flat_suffix _), fun h => hne (String.append_eq_empty_iff.mp h).1⟩
  | tuple helems ih =>
      obtain ⟨names, hnames, rfl⟩ := canonicalWith_tuple.mp hname
      have hflat := forall_names hnames fun t ht _ h => (ih t ht depth h).1
      exact ⟨flat_enclosed (closed_intercalate hflat), by simp [String.append_eq_empty_iff]⟩
  | struct hfields ih =>
      rw [canonicalWith] at hname
      cases depth with
      | zero =>
          rw [structText] at hname
          cases hname
      | succ depth =>
          obtain ⟨names, hnames, rfl⟩ := structText_succ.mp hname
          have hflat := forall_names hnames fun t ht _ h => (ih t ht depth h).1
          exact ⟨flat_enclosed (closed_intercalate hflat), by simp [String.append_eq_empty_iff]⟩

mutual

-- A type of the source that has a name is grounded where the structs are that it names.
theorem grounded_of_name (hstruct : ∀ r name, structText p depth r = some name → Grounded p (.struct r)) :
    (t : Ty) → t.Named → ∀ {name}, canonicalWith (structText p depth) t = some name → Grounded p t
  | .int _ _, _, _, _ => .int
  | .bool, _, _, _ => .bool
  | .address _, _, _, _ => .address
  | .string, _, _, _ => .string
  | .bytes _, _, _, _ => .bytes
  | .literal, _, _, _ => .literal
  | .enum _, _, _, _ => .enum
  | .contract _, _, _, _ => .contract
  | .mapping _ _, ⟨hkey, hvalue⟩, _, _ => .mapping hkey hvalue
  | .array elem _, hnamed, _, h => by
      obtain ⟨inner, hinner, -⟩ := canonicalWith_array.mp h
      exact .array (grounded_of_name hstruct elem hnamed hinner)
  | .tuple elems, hnamed, _, h => by
      obtain ⟨names, hnames, -⟩ := canonicalWith_tuple.mp h
      exact .tuple (grounded_of_names hstruct elems hnamed hnames)
  | .struct r, _, _, h => by
      rw [canonicalWith] at h
      exact hstruct r _ h

theorem grounded_of_names (hstruct : ∀ r name, structText p depth r = some name → Grounded p (.struct r)) :
    (ts : List Ty) → Ty.AllNamed ts → ∀ {names}, canonicalNames (structText p depth) ts = some names →
      ∀ t ∈ ts, Grounded p t
  | [], _, _, _ => List.forall_mem_nil _
  | t :: rest, ⟨ht, hrest⟩, _, h => by
      obtain ⟨first, more, hfirst, hmore, -⟩ := canonicalNames_cons.mp h
      exact List.forall_mem_cons.mpr ⟨grounded_of_name hstruct t ht hfirst, grounded_of_names hstruct rest hrest hmore⟩

end

-- The types of the fields of all structs have names of the source.
def StructsNamed (p : Package) : Prop := ∀ r s, p.struct? r = some s → Ty.AllNamed (s.fields.map Param.type)

theorem allNamed_fieldTypes (hp : StructsNamed p) (r : DeclRef) : Ty.AllNamed (fieldTypes p r) := by
  rw [fieldTypes]
  cases hs : p.struct? r with
  | none => trivial
  | some s => exact hp r s hs

theorem grounded_of_structText (hp : StructsNamed p) {name : String} (h : structText p depth r = some name) :
    Grounded p (.struct r) := by
  induction depth generalizing r name with
  | zero =>
      rw [structText] at h
      cases h
  | succ depth ih =>
      obtain ⟨names, hnames, -⟩ := structText_succ.mp h
      exact .struct (grounded_of_names (fun _ _ => ih) _ (allNamed_fieldTypes hp r) hnames)

end Grounded

-- Lists of texts.

-- Where a flat text ends before a comma or before the end, it ends there only.
theorem Flat.not_comma {text more : List Char} (h : Flat text) : ¬Flat (text ++ ',' :: more) := by
  intro h'
  have hnone := h' 0 []
  rw [List.append_nil, h 0 (',' :: more)] at hnone
  cases hnone

theorem Flat.append_inj {text text' rest rest' : List Char} (h : Flat text) (h' : Flat text')
    (hrest : ∀ c ∈ rest.head?, c = ',') (hrest' : ∀ c ∈ rest'.head?, c = ',') (heq : text ++ rest = text' ++ rest') :
    text = text' ∧ rest = rest' := by
  rcases List.append_eq_append_iff.mp heq with ⟨more, rfl, rfl⟩ | ⟨more, rfl, rfl⟩
  all_goals
    cases more with
    | nil => simp
    | cons c more =>
        first
        | obtain rfl := hrest c rfl
          exact absurd h' h.not_comma
        | obtain rfl := hrest' c rfl
          exact absurd h h'.not_comma

-- What stands behind the first of some texts with commas between them.
def behindFirst : List String → List Char
  | [] => []
  | rest => ',' :: (",".intercalate rest).toList

theorem head_behindFirst {rest : List String} : ∀ c ∈ (behindFirst rest).head?, c = ',' := by
  cases rest <;> simp [behindFirst, eq_comm]

theorem toList_intercalate_cons (s : String) (rest : List String) :
    (",".intercalate (s :: rest)).toList = s.toList ++ behindFirst rest := by
  cases rest with
  | nil => simp [behindFirst]
  | cons s' rest =>
      rw [String.intercalate_cons_cons, String.toList_append, String.toList_append, List.append_assoc]
      rfl

theorem behindFirst_inj {rest rest' : List String} (h : behindFirst rest = behindFirst rest') :
    ",".intercalate rest = ",".intercalate rest' := by
  cases rest <;> cases rest' <;> simp_all [behindFirst, ← String.toList_inj]

-- Flat texts can be read back from what they are with commas between them, unless one is empty.
theorem intercalate_inj {ss ss' : List String} (h : ∀ s ∈ ss, Flat s.toList ∧ s ≠ "") (h' : ∀ s ∈ ss', Flat s.toList ∧ s ≠ "")
    (heq : ",".intercalate ss = ",".intercalate ss') : ss = ss' := by
  have hcons (s : String) (rest : List String) (hs : s ≠ "") : ",".intercalate (s :: rest) ≠ "" := by
    intro hempty
    have hlist := congrArg String.toList hempty
    rw [toList_intercalate_cons] at hlist
    exact hs (String.toList_eq_nil_iff.mp (List.append_eq_nil_iff.mp hlist).1)
  induction ss generalizing ss' with
  | nil =>
      cases ss' with
      | nil => rfl
      | cons s' rest' => exact absurd heq.symm (hcons s' rest' (h' s' List.mem_cons_self).2)
  | cons s rest ih =>
      cases ss' with
      | nil => exact absurd heq (hcons s rest (h s List.mem_cons_self).2)
      | cons s' rest' =>
          obtain ⟨⟨hflat, -⟩, hrest⟩ := List.forall_mem_cons.mp h
          obtain ⟨⟨hflat', -⟩, hrest'⟩ := List.forall_mem_cons.mp h'
          have hlist := congrArg String.toList heq
          rw [toList_intercalate_cons, toList_intercalate_cons] at hlist
          obtain ⟨hfirst, hbehind⟩ := hflat.append_inj hflat' head_behindFirst head_behindFirst hlist
          rw [String.toList_inj.mp hfirst, ih hrest hrest' (behindFirst_inj hbehind)]

-- Signatures of types that end.

section Signed

variable {p : Package} {name name' text : String} {names names' : List String} {params params' : List Param}

-- The name ends at the first parenthesis, and the names of the types stand between this one and the last.
theorem signature_parts (hname : Solidity.isIdentifier name = true) (hname' : Solidity.isIdentifier name' = true)
    (hnames : ∀ s ∈ names, Flat s.toList ∧ s ≠ "") (hnames' : ∀ s ∈ names', Flat s.toList ∧ s ≠ "")
    (h : name ++ "(" ++ ",".intercalate names ++ ")" = name' ++ "(" ++ ",".intercalate names' ++ ")") :
    name = name' ∧ names = names' := by
  have hfront {n : String} (hn : Solidity.isIdentifier n = true) (more : List Char) :
      (n.toList ++ '(' :: more).takeWhile (· != '(') = n.toList := by
    rw [Solidity.isIdentifier, Bool.and_eq_true, List.all_eq_true] at hn
    rw [List.takeWhile_append_of_pos, List.takeWhile_cons_of_neg (by simp), List.append_nil]
    intro c hc
    rw [bne_iff_ne]
    rintro rfl
    cases hn.2 _ hc
  have hlist := congrArg String.toList h
  simp only [String.toList_append, List.append_assoc] at hlist
  have hfronts := congrArg (List.takeWhile (· != '(')) hlist
  have hfronts : name.toList = name'.toList := (hfront hname _).symm.trans (hfronts.trans (hfront hname' _))
  rw [hfronts] at hlist
  have htypes := List.append_cancel_left (List.append_cancel_left hlist)
  exact ⟨String.toList_inj.mp hfronts,
    intercalate_inj hnames hnames' (String.toList_inj.mp (List.append_cancel_right htypes))⟩

-- What signatures are written of: names of the source, and types in which no struct is within itself.
structure Signed (p : Package) (name : String) (params : List Param) : Prop where
  name : Solidity.isIdentifier name = true
  params : ∀ q ∈ params, Grounded p q.type

-- The names of the types in a signature.
theorem Signed.exists_names (h : Signed p name params) : ∃ names,
    signature p name params = some (name ++ "(" ++ ",".intercalate names ++ ")") ∧
      params.map (canonical p ·.type) = names.map some ∧ ∀ s ∈ names, Flat s.toList ∧ s ≠ "" := by
  have htypes : ∀ t ∈ params.map Param.type, Grounded p t := List.forall_mem_map.mpr h.params
  obtain ⟨names, hnames⟩ := canonicalNames_canonical htypes
  refine ⟨names, signature_eq_some.mpr ⟨names, hnames, rfl⟩, ?_, forall_names hnames fun t ht _ => (htypes t ht).flat _⟩
  rw [← canonicalNames_eq_some.mp hnames, List.map_map]
  rfl

-- A signature of the source is written of such.
theorem signed_of_signature (hp : StructsNamed p) (hname : Solidity.isIdentifier name = true)
    (hparams : Ty.AllNamed (params.map Param.type)) (h : signature p name params = some text) : Signed p name params := by
  obtain ⟨names, hnames, -⟩ := signature_eq_some.mp h
  have hgrounded := grounded_of_names (fun _ _ => grounded_of_structText hp) _ hparams hnames
  exact ⟨hname, List.forall_mem_map.mp hgrounded⟩

-- A signature tells the name and the canonical name of each type.
theorem signature_eq_iff (h : Signed p name params) (h' : Signed p name' params') :
    signature p name params = signature p name' params' ↔
      name = name' ∧ List.Forall₂ (fun q q' => canonical p q.type = canonical p q'.type) params params' := by
  obtain ⟨names, hsignature, hnames, hflat⟩ := h.exists_names
  obtain ⟨names', hsignature', hnames', hflat'⟩ := h'.exists_names
  have htypes : List.Forall₂ (fun q q' => canonical p q.type = canonical p q'.type) params params' ↔
      params.map (canonical p ·.type) = params'.map (canonical p ·.type) := by
    rw [← List.forall₂_eq_eq_eq, List.forall₂_map_left_iff, List.forall₂_map_right_iff]
  rw [htypes, hsignature, hsignature', hnames, hnames', Option.some.injEq]
  constructor
  · intro heq
    obtain ⟨hname, hsame⟩ := signature_parts h.name h'.name hflat hflat' heq
    exact ⟨hname, congrArg _ hsame⟩
  · rintro ⟨rfl, hsame⟩
    rw [List.map_injective_iff.mpr (Option.some_injective _) hsame]

-- Every function whose types end has a signature. Signatures are the same where the names are and the types are called the same one by one, and nowhere else: entries
-- of a table with different keys never have one signature.
theorem signatures_unambiguous (p : Package) :
    (∀ name params, Signed p name params → ∃ text, signature p name params = some text) ∧
    (∀ name name' params params', Signed p name params → Signed p name' params' →
      (signature p name params = signature p name' params' ↔
        name = name' ∧ List.Forall₂ (fun q q' => canonical p q.type = canonical p q'.type) params params')) ∧
    ∀ c ∈ p.classes, ∀ f ∈ c.dispatch, ∀ g ∈ c.dispatch, Signed p f.sourceName f.params → Signed p g.sourceName g.params →
      f.key ≠ g.key → signature p f.sourceName f.params ≠ signature p g.sourceName g.params := by
  refine ⟨fun name params h => ?_, fun name name' params params' => signature_eq_iff,
    fun c _ f _ g _ hf hg hkeys heq => hkeys ?_⟩
  · obtain ⟨names, hsignature, -⟩ := h.exists_names
    exact ⟨_, hsignature⟩
  obtain ⟨hnames, htypes⟩ := (signature_eq_iff hf hg).mp heq
  exact Signature.key_eq_iff.mpr ⟨hnames, htypes.length_eq⟩

end Signed

namespace Nested

def inner : StructDecl :=
  { name := "T", fields := [⟨"ok", .bool⟩, ⟨"who", .array (.address false) (-1)⟩], owner := "C", start := default }

def outer : StructDecl :=
  { name := "S", fields := [⟨"a", .uint256⟩, ⟨"t", .struct inner.ref⟩], owner := "C", start := default }

def taking (params : List Param) : Function :=
  { name := "f", sourceName := "f", kind := .function, params := params, implementations := [] }

def whole : List Param := [⟨"s", .struct outer.ref⟩]

def parts : List Param := [⟨"a", .uint256⟩, ⟨"t", .struct inner.ref⟩]

def nested : Contract :=
  { name := "C", kind := .contract, isAbstract := false, bases := [], start := default, structs := [inner, outer]
    storage := [], dispatch := [taking whole, taking parts], modifierTable := [] }

def package : Package := { name := "sample", classes := [nested] }

theorem grounded_inner : Grounded package (.struct inner.ref) := by
  have hfields : fieldTypes package inner.ref = [.bool, .array (.address false) (-1)] := rfl
  refine .struct fun t ht => ?_
  rw [hfields] at ht
  simp only [List.mem_cons, List.not_mem_nil, or_false] at ht
  rcases ht with rfl | rfl
  · exact .bool
  · exact .array .address

theorem grounded_outer : Grounded package (.struct outer.ref) := by
  have hfields : fieldTypes package outer.ref = [.uint256, .struct inner.ref] := rfl
  refine .struct fun t ht => ?_
  rw [hfields] at ht
  simp only [List.mem_cons, List.not_mem_nil, or_false] at ht
  rcases ht with rfl | rfl
  · exact .int
  · exact grounded_inner

theorem signed_whole : Signed package "f" whole :=
  ⟨by decide, List.forall_mem_singleton.mpr grounded_outer⟩

theorem signed_parts : Signed package "f" parts :=
  ⟨by decide, List.forall_mem_cons.mpr ⟨.int, List.forall_mem_singleton.mpr grounded_inner⟩⟩

theorem struct_apart_from_fields :
    signature package "f" whole = some "f((uint256,(bool,address[])))" ∧
    signature package "f" parts = some "f(uint256,(bool,address[]))" ∧
    Signed package "f" whole ∧ Signed package "f" parts ∧
    ¬List.Forall₂ (fun q q' => canonical package q.type = canonical package q'.type) whole parts ∧
    (taking whole).key ≠ (taking parts).key ∧
    signature package (taking whole).sourceName (taking whole).params ≠
      signature package (taking parts).sourceName (taking parts).params := by
  obtain ⟨-, hiff, hdispatch⟩ := signatures_unambiguous package
  have hkeys : (taking whole).key ≠ (taking parts).key := by decide
  have hne := hdispatch nested (List.mem_singleton.mpr rfl) (taking whole) (by simp [nested]) (taking parts)
    (by simp [nested]) signed_whole signed_parts hkeys
  have hwhole : signature package "f" whole = some "f((uint256,(bool,address[])))" := by decide
  have hparts : signature package "f" parts = some "f(uint256,(bool,address[]))" := by decide
  exact ⟨hwhole, hparts, signed_whole, signed_parts,
    fun htypes => hne ((hiff _ _ _ _ signed_whole signed_parts).mpr ⟨rfl, htypes⟩), hkeys, hne⟩

end Nested

-- Selectors.

theorem hex_eq (b : UInt8) : (Text.hex 2 b.toNat).toList = [Nat.digitChar (b.toNat / 16), Nat.digitChar (b.toNat % 16)] := by
  have hbyte := b.toNat_lt
  rw [Text.hex, String.toList_ofList]
  by_cases hsmall : b.toNat < 16
  · rw [Nat.toDigits_of_lt_base hsmall, Nat.div_eq_of_lt hsmall, Nat.mod_eq_of_lt hsmall]
    rfl
  · rw [Nat.toDigits_of_base_le (by decide) (by omega), Nat.toDigits_of_lt_base (by omega)]
    rfl

theorem hex_inj {b b' : UInt8} (h : Text.hex 2 b.toNat = Text.hex 2 b'.toNat) : b = b' := by
  have hdigit : ∀ i < 16, ∀ j < 16, Nat.digitChar i = Nat.digitChar j → i = j := by decide
  have hbyte := b.toNat_lt
  have hbyte' := b'.toNat_lt
  have hlist := congrArg String.toList h
  rw [hex_eq, hex_eq, List.cons.injEq, List.cons.injEq] at hlist
  have hhigh := hdigit _ (by omega) _ (by omega) hlist.1
  have hlow := hdigit _ (by omega) _ (by omega) hlist.2.1
  exact UInt8.toNat_inj.mp (by omega)

-- The text of a selector tells its bytes.
theorem selectorText_inj {bytes bytes' : List UInt8} (h : selectorText bytes = selectorText bytes') :
    bytes = bytes' := by
  have htext (b : UInt8) (rest : List UInt8) : selectorText (b :: rest) = Text.hex 2 b.toNat ++ selectorText rest := by
    rw [selectorText, List.map_cons, String.join_cons]
    rfl
  have hne (b : UInt8) (rest : List UInt8) : selectorText (b :: rest) ≠ "" := by
    rw [htext]
    intro hempty
    have hlist := congrArg String.toList hempty
    simp [hex_eq] at hlist
  induction bytes generalizing bytes' with
  | nil =>
      cases bytes' with
      | nil => rfl
      | cons b rest => exact absurd h.symm (hne b rest)
  | cons b rest ih =>
      cases bytes' with
      | nil => exact absurd h (hne b rest)
      | cons b' rest' =>
          rw [htext, htext] at h
          have hlist := congrArg String.toList h
          rw [String.toList_append, String.toList_append] at hlist
          obtain ⟨hfirst, hrest⟩ := List.append_inj hlist (by simp [hex_eq])
          rw [hex_inj (String.toList_inj.mp hfirst), ih (String.toList_inj.mp hrest)]

end Abi

end RustContracts
