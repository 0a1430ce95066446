import Mathlib

-- The names in the texts of types. Where texts meet at a delimiter, the names of both are those of the whole.
namespace RustContracts

namespace Rust

-- What stands between the names in the text of a type.
def delimiters : List Char := [' ', '<', '>', '(', ')', '[', ']', ',', ';', '&']

def isDelimiter (c : Char) : Bool := delimiters.contains c

theorem delimiters_no_digit : ∀ c ∈ delimiters, c.isDigit = false := by simp [delimiters]

-- A part of a text that is no number.
def isName (part : List Char) : Bool := part.head?.any fun c => !c.isDigit

-- The names in the text of a type.
def typeNamesIn (text : String) : List String :=
  ((text.toList.splitOnP isDelimiter).filter isName).map String.ofList

-- The types that a contract knows without declaring them.
def knownTypes : List String :=
  ["bool", "u8", "u16", "u32", "u64", "u128", "i8", "i16", "i32", "i64", "i128", "U256", "I256", "String", "Vec",
    "AccountId", "H160", "Mapping", "Address", "Bytes", "BytesN", "Env", "Result", "Self", "Error"]

-- All names in a text are known or of a kind.
def Speaks (S : String → Prop) (text : String) : Prop := ∀ name ∈ typeNamesIn text, name ∈ knownTypes ∨ S name

section Speaks

variable {S : String → Prop} {text front back : String}

theorem speaks_iff : Speaks S text ↔
    ∀ part ∈ text.toList.splitOnP isDelimiter, isName part = true →
      String.ofList part ∈ knownTypes ∨ S (String.ofList part) := by
  simp only [Speaks, typeNamesIn, List.forall_mem_map, List.mem_filter, and_imp]

theorem speaks_of_empty (h : typeNamesIn text = []) : Speaks S text := fun name hname => by
  rw [h] at hname
  cases hname

-- Where two texts meet at a delimiter, they have the names of both.

def EndsApart (text : String) : Prop := ∃ front c, text.toList = front ++ [c] ∧ isDelimiter c = true

def StartsApart (text : String) : Prop := ∃ c back, text.toList = c :: back ∧ isDelimiter c = true

theorem ends_of_last (h : text.toList.getLast?.any isDelimiter = true) : EndsApart text := by
  obtain ⟨c, hc, hdelimiter⟩ := (Option.any_eq_true _ _).mp h
  obtain ⟨front, hfront⟩ := List.getLast?_eq_some_iff.mp hc
  exact ⟨front, c, hfront, hdelimiter⟩

theorem starts_of_first (h : text.toList.head?.any isDelimiter = true) : StartsApart text := by
  obtain ⟨c, hc, hdelimiter⟩ := (Option.any_eq_true _ _).mp h
  obtain ⟨back, hback⟩ := List.head?_eq_some_iff.mp hc
  exact ⟨c, back, hback, hdelimiter⟩

theorem EndsApart.append (front : String) (h : EndsApart back) : EndsApart (front ++ back) := by
  obtain ⟨f, c, hback, hc⟩ := h
  exact ⟨front.toList ++ f, c, by rw [String.toList_append, hback, List.append_assoc], hc⟩

theorem speaks_behind (hends : EndsApart front) (h : Speaks S front) (h' : Speaks S back) :
    Speaks S (front ++ back) := by
  obtain ⟨f, c, hfront, hc⟩ := hends
  rw [speaks_iff] at h h' ⊢
  rw [hfront, List.splitOnP_append_cons _ _ hc] at h
  rw [String.toList_append, hfront, List.append_assoc, List.singleton_append, List.splitOnP_append_cons _ _ hc]
  exact List.forall_mem_append.mpr ⟨(List.forall_mem_append.mp h).1, h'⟩

theorem speaks_before (hstarts : StartsApart back) (h : Speaks S front) (h' : Speaks S back) :
    Speaks S (front ++ back) := by
  obtain ⟨c, b, hback, hc⟩ := hstarts
  rw [speaks_iff] at h h' ⊢
  rw [hback, ← List.nil_append (c :: b), List.splitOnP_append_cons _ _ hc] at h'
  rw [String.toList_append, hback, List.splitOnP_append_cons _ _ hc]
  exact List.forall_mem_append.mpr ⟨h, (List.forall_mem_append.mp h').2⟩

theorem speaks_number (n : Nat) : Speaks S (toString n) := by
  have hdigits (c : Char) (hc : c ∈ (toString n).toList) : c.isDigit = true := by
    rw [show (toString n).toList = Nat.toDigits 10 n by simp] at hc
    exact Nat.isDigit_of_mem_toDigits (b := 10) (by decide) (by decide) hc
  have hplain (c : Char) (hc : c ∈ (toString n).toList) : isDelimiter c = false := by
    refine Bool.eq_false_iff.mpr fun hdelimiter => ?_
    have hno := delimiters_no_digit c (List.contains_iff_mem.mp hdelimiter)
    rw [hdigits c hc] at hno
    cases hno
  rw [speaks_iff, List.splitOnP_eq_singleton hplain, List.forall_mem_singleton]
  intro hname
  obtain ⟨c, hc, hdigit⟩ := (Option.any_eq_true _ _).mp hname
  rw [hdigits c (List.mem_of_mem_head? hc)] at hdigit
  cases hdigit

theorem speaks_intercalate {texts : List String} (h : ∀ text ∈ texts, Speaks S text) :
    Speaks S (", ".intercalate texts) := by
  induction texts with
  | nil => exact speaks_of_empty (by decide)
  | cons text texts ih =>
      obtain ⟨htext, htexts⟩ := List.forall_mem_cons.mp h
      cases texts with
      | nil => exact String.intercalate_singleton ▸ htext
      | cons text' texts =>
          rw [String.intercalate_cons_of_ne_nil (List.cons_ne_nil _ _)]
          have hcomma : Speaks S ", " := speaks_of_empty (by decide)
          have hfront := speaks_before (starts_of_first (by decide)) htext hcomma
          exact speaks_behind (EndsApart.append text (ends_of_last (by decide))) hfront (ih htexts)

end Speaks

theorem speaks_known {S : String → Prop} {text : String} (h : ∀ name ∈ typeNamesIn text, name ∈ knownTypes) :
    Speaks S text := fun name hname => .inl (h name hname)

theorem typeNamesIn_known : ∀ name ∈ knownTypes, typeNamesIn name = [name] := by decide +kernel

theorem speaks_of_mem {S : String → Prop} {name : String} (h : name ∈ knownTypes) : Speaks S name := by
  refine speaks_known fun other hother => ?_
  rw [typeNamesIn_known name h, List.mem_singleton] at hother
  exact hother ▸ h

-- Whether texts can stand around the text of a type, with nothing but known types in them.
def surround (front back : String) : Bool :=
  (typeNamesIn front ++ typeNamesIn back).all (knownTypes.contains ·) && front.toList.getLast?.any isDelimiter &&
    back.toList.head?.any isDelimiter

theorem speaks_between {S : String → Prop} {front text back : String} (h : surround front back = true)
    (htext : Speaks S text) : Speaks S (front ++ text ++ back) := by
  obtain ⟨⟨hknown, hends⟩, hstarts⟩ := by simpa only [surround, Bool.and_eq_true] using h
  have hnames (name : String) (hname : name ∈ typeNamesIn front ++ typeNamesIn back) : name ∈ knownTypes :=
    List.contains_iff_mem.mp (List.all_eq_true.mp hknown name hname)
  have hfront : Speaks S front := speaks_known fun name hname => hnames name (List.mem_append_left _ hname)
  have hback : Speaks S back := speaks_known fun name hname => hnames name (List.mem_append_right _ hname)
  exact speaks_before (starts_of_first hstarts) (speaks_behind (ends_of_last hends) hfront htext) hback

end Rust

end RustContracts
