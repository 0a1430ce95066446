import Mathlib.Tactic.Positivity
import RustContracts.Rust.Tree
import RustContracts.Solidity.Number

-- The integers of Rust code with their types: what literals, conversions and the constants of integer types denote.
-- Next to the primitive types stand the 256-bit types of the contract libraries.
namespace RustContracts.Rust

open Solidity.Number (ofDigits decimalDigit? hexDigit?)

-- An integer type by its sign and its number of bits.
structure IntType where
  signed : Bool
  bits : Nat
deriving DecidableEq

namespace IntType

def min (t : IntType) : Int := if t.signed then -2 ^ (t.bits - 1) else 0

def max (t : IntType) : Int := if t.signed then 2 ^ (t.bits - 1) - 1 else 2 ^ t.bits - 1

-- The source has types of up to 256 bits.
def Sized (t : IntType) : Prop := 0 < t.bits ∧ t.bits ≤ 256

instance (t : IntType) : Decidable t.Sized := inferInstanceAs (Decidable (_ ∧ _))

-- The number is one of the type.
def Holds (t : IntType) (v : Int) : Prop := t.min ≤ v ∧ v ≤ t.max

instance (t : IntType) (v : Int) : Decidable (t.Holds v) := inferInstanceAs (Decidable (_ ∧ _))

-- The number of the type that has the same low bits.
def wrap (t : IntType) (v : Int) : Int :=
  if t.signed then v.bmod (2 ^ t.bits) else v % 2 ^ t.bits

-- The types that Rust has.

def name (t : IntType) : String :=
  if t.bits = 256 then (if t.signed then "I256" else "U256")
  else (if t.signed then "i" else "u") ++ toString t.bits

def primitives : List IntType :=
  [8, 16, 32, 64, 128].flatMap fun bits => [⟨false, bits⟩, ⟨true, bits⟩]

def u256 : IntType := ⟨false, 256⟩

def i256 : IntType := ⟨true, 256⟩

def all : List IntType := primitives ++ [u256, i256]

theorem name_inj {t u : IntType} (ht : t ∈ all) (hu : u ∈ all) (h : t.name = u.name) : t = u := by
  have hall : ∀ t ∈ all, ∀ u ∈ all, t.name = u.name → t = u := by decide
  exact hall t ht u hu h

def primitive? (name : String) : Option IntType := primitives.find? (·.name = name)

theorem primitive?_name {t : IntType} (ht : t ∈ primitives) : primitive? t.name = some t := by
  revert t
  decide

theorem bits_le_of_primitive {t : IntType} (ht : t ∈ primitives) : 8 ≤ t.bits ∧ t.bits ≤ 128 := by
  revert t
  decide

variable {t u : IntType} {v : Int}

-- Ranges.

theorem holds_unsigned {bits : Nat} : Holds ⟨false, bits⟩ v ↔ 0 ≤ v ∧ v < 2 ^ bits := by
  simp only [Holds, min, max, Bool.false_eq_true, if_false]
  omega

theorem holds_signed {bits : Nat} :
    Holds ⟨true, bits⟩ v ↔ -2 ^ (bits - 1) ≤ v ∧ v < 2 ^ (bits - 1) := by
  simp only [Holds, min, max, if_true]
  omega

theorem two_pow_le {m n : Nat} (h : m ≤ n) : (2 : Int) ^ m ≤ 2 ^ n :=
  pow_le_pow_right₀ (by decide) h

theorem two_pow_pred {n : Nat} (h : 0 < n) : (2 : Int) ^ n = 2 * 2 ^ (n - 1) := by
  obtain ⟨m, rfl⟩ := Nat.exists_eq_add_of_lt h
  rw [Nat.zero_add, Nat.add_sub_cancel, Int.pow_succ]
  omega

-- A wider type of the same sign has all numbers of a narrower one.
theorem Holds.mono (h : t.Holds v) (hsign : t.signed = u.signed) (hbits : t.bits ≤ u.bits) : u.Holds v := by
  obtain ⟨s, n⟩ := t
  obtain ⟨s', m⟩ := u
  obtain rfl : s = s' := hsign
  cases s with
  | false =>
      rw [holds_unsigned] at h ⊢
      exact ⟨h.1, h.2.trans_le (two_pow_le hbits)⟩
  | true =>
      rw [holds_signed] at h ⊢
      have := two_pow_le (show n - 1 ≤ m - 1 by simp only at hbits; omega)
      omega

theorem holds_wrap (hbits : 0 < t.bits) (v : Int) : t.Holds (t.wrap v) := by
  obtain ⟨s, n⟩ := t
  have hpos : (0 : Int) < 2 ^ n := by positivity
  cases s with
  | false =>
      rw [holds_unsigned]
      exact ⟨Int.emod_nonneg _ hpos.ne', Int.emod_lt_of_pos _ hpos⟩
  | true =>
      rw [holds_signed]
      have hsplit := two_pow_pred hbits
      have hle := Int.le_bmod (x := v) (m := 2 ^ n) (by positivity)
      have hlt := Int.bmod_lt (x := v) (m := 2 ^ n) (by positivity)
      simp only [wrap, if_true]
      push_cast at hle hlt
      simp only at hsplit
      omega

theorem wrap_of_holds (hbits : 0 < t.bits) (h : t.Holds v) : t.wrap v = v := by
  obtain ⟨s, n⟩ := t
  cases s with
  | false =>
      rw [holds_unsigned] at h
      exact Int.emod_eq_of_lt h.1 h.2
  | true =>
      rw [holds_signed] at h
      have hsplit := two_pow_pred hbits
      simp only at hsplit
      refine Int.bmod_eq_of_le ?_ ?_ <;> push_cast <;> omega

-- The low bits are those that they were cut from.
theorem wrap_wrap (hbits : t.bits ≤ u.bits) (v : Int) : t.wrap (u.wrap v) = t.wrap v := by
  obtain ⟨s, n⟩ := t
  obtain ⟨s', m⟩ := u
  have hdvd : (2 : Nat) ^ n ∣ 2 ^ m := Nat.pow_dvd_pow 2 hbits
  have hdvd' : (2 : Int) ^ n ∣ 2 ^ m := by exact_mod_cast hdvd
  have hmod : (v.bmod (2 ^ m)) % (2 ^ n : Int) = v % 2 ^ n := by
    rw [← Int.emod_emod_of_dvd _ hdvd', ← Int.emod_emod_of_dvd v hdvd']
    exact congrArg (· % (2 ^ n : Int)) (by exact_mod_cast Int.bmod_emod)
  cases s <;> cases s' <;> simp only [wrap, Bool.false_eq_true, if_false, if_true]
  · exact Int.emod_emod_of_dvd v hdvd'
  · exact hmod
  · rw [← Int.emod_bmod, ← Int.emod_bmod v]
    push_cast
    rw [Int.emod_emod_of_dvd v hdvd']
  · exact Int.bmod_bmod_of_dvd hdvd

end IntType

-- A number with its type.
structure Integer where
  type : IntType
  value : Int
deriving DecidableEq

-- A number as one of a type.
def IntType.integer? (t : IntType) (v : Int) : Option Integer := if t.Holds v then some ⟨t, v⟩ else none

-- Literals.

-- The number that digits write.
def digits? (base : Nat) (digit? : Char → Option Nat) (cs : List Char) : Option Nat :=
  if cs.isEmpty then none else (cs.mapM digit?).map (ofDigits base)

def signedValue (negative : Bool) (n : Nat) : Int := if negative then -n else n

-- A magnitude with its sign; an unsigned type has no negation.
def IntType.signed? (t : IntType) (negative : Bool) (n : Nat) : Option Integer :=
  if negative && !t.signed then none else t.integer? (signedValue negative n)

theorem IntType.signed?_of_holds {t : IntType} {negative : Bool} {n : Nat} (hsign : negative = true → t.signed = true)
    (h : t.Holds (signedValue negative n)) : t.signed? negative n = some ⟨t, signedValue negative n⟩ := by
  have hne : (negative && !t.signed) = false := by
    cases negative <;> simp_all
  rw [IntType.signed?, hne, IntType.integer?, if_pos h]
  rfl

-- A literal without a type behind its digits is of the type that its place asks for.
def literalType? (asked : Option IntType) (suffix : List Char) : Option IntType :=
  if suffix.isEmpty then asked else IntType.primitive? (String.ofList suffix)

def unsignedLiteral? (asked : Option IntType) (negative : Bool) : List Char → Option Integer
  | '0' :: 'x' :: digits =>
    asked.bind fun t => (digits? 16 hexDigit? digits).bind fun n => t.signed? negative n
  | cs =>
    (literalType? asked (cs.dropWhile Char.isDigit)).bind fun t =>
      (digits? 10 decimalDigit? (cs.takeWhile Char.isDigit)).bind fun n => t.signed? negative n

def integerLiteral? (asked : Option IntType) (text : String) : Option Integer :=
  match text.toList with
  | '-' :: cs => unsignedLiteral? asked true cs
  | cs => unsignedLiteral? asked false cs

-- The largest and smallest numbers of a type by their names.
def bound? (text : String) : Option Integer :=
  if text = "U256::MAX" then some ⟨.u256, IntType.u256.max⟩
  else if text = "U256::zero()" then some ⟨.u256, 0⟩
  else
    IntType.primitives.findSome? fun t =>
      if text = t.name ++ "::MAX" then some ⟨t, t.max⟩
      else if text = t.name ++ "::MIN" then some ⟨t, t.min⟩
      else none

def numeral? (asked : Option IntType) (text : String) : Option Integer := (integerLiteral? asked text).or (bound? text)

-- Conversions.

-- `x as T` is there for primitive types only.
def Integer.cast? (i : Integer) (type : String) : Option Integer :=
  if i.type ∈ IntType.primitives then (IntType.primitive? type).map fun t => ⟨t, t.wrap i.value⟩ else none

-- `U256::from(x)` panics on negative numbers.
def Integer.toU256? (i : Integer) : Option Integer :=
  if i.type ∈ IntType.primitives ∧ 0 ≤ i.value then some ⟨.u256, i.value⟩ else none

-- `x.low_u128()`
def Integer.lowBits? (i : Integer) : Option Integer :=
  if i.type = .u256 then some ⟨⟨false, 128⟩, IntType.wrap ⟨false, 128⟩ i.value⟩ else none

-- `x.to_u128().unwrap()` and `x.to_i128().unwrap()` panic on what does not fit.
def Integer.narrow? (i : Integer) (method : String) : Option Integer :=
  if i.type = .u256 ∧ method = "to_u128" then IntType.integer? ⟨false, 128⟩ i.value
  else if i.type = .i256 ∧ method = "to_i128" then IntType.integer? ⟨true, 128⟩ i.value
  else none

-- A number from its 64-bit parts, high end first.
def ofParts (parts : List Int) : Int := parts.foldl (fun n part => n * 2 ^ 64 + part) 0

-- The host's functions that make 256-bit numbers, with the types of what they take behind the environment, high
-- end first.
def hostNumber? (path : String) : Option (IntType × List IntType) :=
  let word : IntType := ⟨false, 64⟩
  [("U256::from_u32", IntType.u256, [⟨false, 32⟩]), ("U256::from_u128", .u256, [⟨false, 128⟩]),
   ("I256::from_i128", .i256, [⟨true, 128⟩]), ("U256::from_parts", .u256, [word, word, word, word]),
   ("I256::from_parts", .i256, [⟨true, 64⟩, word, word, word])].lookup path

mutual

-- What an integer expression denotes where the place of a literal asks for a type; `known` says it of all that is
-- neither a literal nor a conversion. None where Rust refuses the expression and where its evaluation panics.
def Expr.integer? (known : Expr → Option Integer) (asked : Option IntType) : Expr → Option Integer
  | .lit text => numeral? asked text
  | .cast x type => (x.integer? known none).bind fun i => i.cast? type
  | .call (.ident "U256::from") [x] => (x.integer? known none).bind Integer.toU256?
  | .call (.ident "U256") [.array limbs] =>
    (integers? known (List.replicate 4 ⟨false, 64⟩) limbs).map fun ls => ⟨.u256, ofParts ls.reverse⟩
  | .call (.ident path) (env :: args) =>
    match hostNumber? path with
    | some (t, types) => (integers? known types args).map fun parts => ⟨t, ofParts parts⟩
    | none => known (.call (.ident path) (env :: args))
  | .methodCall x "low_u128" [] => (x.integer? known none).bind Integer.lowBits?
  | .methodCall (.methodCall x method []) "unwrap" [] =>
    if method = "to_u128" ∨ method = "to_i128" then (x.integer? known none).bind fun i => i.narrow? method
    else known (.methodCall (.methodCall x method []) "unwrap" [])
  | e => known e

-- Numbers of the types that are asked for, one each.
def integers? (known : Expr → Option Integer) : List IntType → List Expr → Option (List Int)
  | [], [] => some []
  | t :: types, e :: rest =>
    (e.integer? known (some t)).bind fun i =>
      if i.type = t then (integers? known types rest).map fun vs => i.value :: vs else none
  | _, _ => none

end

attribute [local simp] Expr.integer?

section Denotes

variable {known : Expr → Option Integer} {asked : Option IntType} {x env : Expr} {i : Integer}

theorem integers?_cons {t : IntType} {v : Int} {vs : List Int} {types : List IntType} {rest : List Expr}
    (hx : x.integer? known (some t) = some ⟨t, v⟩) (hrest : integers? known types rest = some vs) :
    integers? known (t :: types) (x :: rest) = some (v :: vs) := by
  simp only [integers?, hx, Option.bind_some, if_true, hrest, Option.map_some]

theorem integer?_lit {text : String} (h : integerLiteral? asked text = some i) :
    (Expr.lit text).integer? known asked = some i := by
  rw [Expr.integer?, numeral?, h]
  rfl

theorem integer?_cast (hx : x.integer? known none = some i) (type : String) :
    (Expr.cast x type).integer? known asked = i.cast? type := by
  rw [Expr.integer?, hx]
  rfl

theorem integer?_toU256 (hx : x.integer? known none = some i) :
    (Expr.callPath "U256::from" [x]).integer? known asked = i.toU256? := by
  rw [Expr.callPath, Expr.integer?, hx]
  rfl

theorem integer?_limbs {limbs : List Expr} {ls : List Int}
    (hlimbs : integers? known (List.replicate 4 ⟨false, 64⟩) limbs = some ls) :
    (Expr.callPath "U256" [.array limbs]).integer? known asked = some ⟨.u256, ofParts ls.reverse⟩ := by
  rw [Expr.callPath, Expr.integer?, hlimbs]
  rfl

theorem integer?_host {path : String} {t : IntType} {types : List IntType} {args : List Expr}
    (hpath : hostNumber? path = some (t, types)) :
    (Expr.callPath path (env :: args)).integer? known asked =
      (integers? known types args).map fun parts => ⟨t, ofParts parts⟩ := by
  have hfrom : path ≠ "U256::from" := by
    rintro rfl
    cases (by decide : hostNumber? "U256::from" = none).symm.trans hpath
  have hnew : path ≠ "U256" := by
    rintro rfl
    cases (by decide : hostNumber? "U256" = none).symm.trans hpath
  rw [Expr.callPath, Expr.integer?, hpath]
  · exact fun heq => absurd heq hfrom
  · exact fun _ heq => absurd heq hnew

theorem integer?_lowBits (hx : x.integer? known none = some i) :
    (x.method "low_u128").integer? known asked = i.lowBits? := by
  rw [Expr.method, Expr.integer?, hx]
  rfl

theorem integer?_narrow {sign : Bool} {v : Int} (hx : x.integer? known none = some ⟨⟨sign, 256⟩, v⟩) :
    ((x.method (if sign then "to_i128" else "to_u128")).method "unwrap").integer? known asked =
      IntType.integer? ⟨sign, 128⟩ v := by
  cases sign <;>
    simp [Expr.method, hx, Integer.narrow?, IntType.u256, IntType.i256]

end Denotes

-- Digits.

theorem ofDigits_append (base : Nat) (ds : List Nat) (d : Nat) :
    ofDigits base (ds ++ [d]) = ofDigits base ds * base + d := by
  simp [ofDigits, List.foldl_append]

theorem ofDigits_zeros (base k : Nat) (ds : List Nat) :
    ofDigits base (List.replicate k 0 ++ ds) = ofDigits base ds := by
  induction k with
  | zero => rfl
  | succ k ih => rw [← ih, List.replicate_succ, List.cons_append, ofDigits, List.foldl_cons]; simp [ofDigits]

section Digits

variable {base : Nat} {digit? : Char → Option Nat}

theorem mapM_toDigits (hbase : 1 < base) (hdigit : ∀ d < base, digit? d.digitChar = some d) (n : Nat) :
    ∃ ds, (Nat.toDigits base n).mapM digit? = some ds ∧ ofDigits base ds = n := by
  induction n using Nat.strong_induction_on with
  | _ n ih =>
      by_cases hlt : n < base
      · rw [Nat.toDigits_of_lt_base hlt]
        exact ⟨[n], by simp [hdigit n hlt], by simp [ofDigits]⟩
      · have hle : base ≤ n := Nat.le_of_not_lt hlt
        obtain ⟨ds, hds, hvalue⟩ := ih (n / base) (Nat.div_lt_self (by omega) hbase)
        have hlast := hdigit (n % base) (Nat.mod_lt _ (by omega))
        rw [Nat.toDigits_of_base_le hbase hle]
        refine ⟨ds ++ [n % base], by simp [hds, hlast], ?_⟩
        rw [ofDigits_append, hvalue]
        exact Nat.div_add_mod' n base

-- Digits that are written are read back, zeros in front or not.
theorem digits?_toDigits (hbase : 1 < base) (hdigit : ∀ d < base, digit? d.digitChar = some d) (k n : Nat) :
    digits? base digit? (List.replicate k '0' ++ Nat.toDigits base n) = some n := by
  obtain ⟨ds, hds, hvalue⟩ := mapM_toDigits hbase hdigit n
  have hzero : digit? '0' = some 0 := hdigit 0 (by omega)
  have hzeros : (List.replicate k '0').mapM digit? = some (List.replicate k 0) := by
    induction k with
    | zero => rfl
    | succ k ih => simp [List.replicate_succ, hzero, ih]
  have hne : (List.replicate k '0' ++ Nat.toDigits base n).isEmpty = false := by
    simp [Nat.toDigits_ne_nil]
  rw [digits?, hne]
  simp [hzeros, hds, ofDigits_zeros, hvalue]

end Digits

theorem decimalDigit?_digitChar : ∀ d < 10, decimalDigit? d.digitChar = some d := by decide

theorem hexDigit?_digitChar : ∀ d < 16, hexDigit? d.digitChar = some d := by decide

-- Literals.

theorem isDigit_of_mem_toDigits {n : Nat} {c : Char} (hc : c ∈ Nat.toDigits 10 n) : c.isDigit = true :=
  Nat.isDigit_of_mem_toDigits (by decide) (by decide) hc

-- A type's name behind digits is no part of them.
theorem name_suffix {t : IntType} (ht : t ∈ IntType.primitives) :
    'x' ∉ t.name.toList ∧ t.name.toList.takeWhile Char.isDigit = [] ∧ t.name.toList.isEmpty = false := by
  revert t
  decide

variable {asked : Option IntType} {negative : Bool}

theorem unsignedLiteral?_of_digits {n : Nat} {suffix : List Char}
    (hsuffix : 'x' ∉ suffix ∧ suffix.takeWhile Char.isDigit = []) :
    unsignedLiteral? asked negative (Nat.toDigits 10 n ++ suffix) =
      (literalType? asked suffix).bind fun t => t.signed? negative n := by
  have hdigits : ∀ c ∈ Nat.toDigits 10 n, c.isDigit = true := fun c hc => isDigit_of_mem_toDigits hc
  have hx : 'x' ∉ Nat.toDigits 10 n ++ suffix := by
    simp only [List.mem_append, hsuffix.1, or_false]
    intro hmem
    exact absurd (hdigits _ hmem) (by decide)
  have hdrop : suffix.dropWhile Char.isDigit = suffix := by
    have := List.takeWhile_append_dropWhile (p := Char.isDigit) (l := suffix)
    rwa [hsuffix.2, List.nil_append] at this
  have hread := digits?_toDigits (by decide) decimalDigit?_digitChar 0 n
  rw [List.replicate_zero, List.nil_append] at hread
  rw [unsignedLiteral?]
  · rw [List.takeWhile_append_of_pos hdigits, List.dropWhile_append_of_pos hdigits, hsuffix.2, hdrop,
      List.append_nil, hread]
    rfl
  · rintro digits heq
    exact hx (heq ▸ by simp)

theorem toList_digits (negative : Bool) (n : Nat) (suffix : String) :
    ((if negative then "-" else "") ++ toString n ++ suffix).toList =
      (if negative then ['-'] else []) ++ (Nat.toDigits 10 n ++ suffix.toList) := by
  cases negative <;> simp

theorem integerLiteral?_of_digits {n : Nat} {suffix : String}
    (hsuffix : 'x' ∉ suffix.toList ∧ suffix.toList.takeWhile Char.isDigit = []) :
    integerLiteral? asked ((if negative then "-" else "") ++ toString n ++ suffix) =
      (literalType? asked suffix.toList).bind fun t => t.signed? negative n := by
  rw [integerLiteral?, toList_digits]
  cases negative with
  | true => exact unsignedLiteral?_of_digits hsuffix
  | false =>
      obtain ⟨c, rest, heq⟩ := List.exists_cons_of_ne_nil (Nat.toDigits_ne_nil (b := 10) (n := n))
      have hc : c.isDigit = true := isDigit_of_mem_toDigits (n := n) (heq ▸ List.mem_cons_self)
      have hne : c ≠ '-' := by
        rintro rfl
        exact absurd hc (by decide)
      have hplain : unsignedLiteral? asked false (Nat.toDigits 10 n ++ suffix.toList) = _ :=
        unsignedLiteral?_of_digits hsuffix
      simp only [Bool.false_eq_true, if_false, List.nil_append]
      rw [heq, List.cons_append] at hplain ⊢
      split
      · next heq => exact absurd (List.cons.inj heq).1 hne
      · exact hplain

theorem integerLiteral?_suffixed {t : IntType} (ht : t ∈ IntType.primitives) (negative : Bool) (n : Nat) :
    integerLiteral? asked ((if negative then "-" else "") ++ toString n ++ t.name) = t.signed? negative n := by
  obtain ⟨hx, hdigits, hne⟩ := name_suffix ht
  rw [integerLiteral?_of_digits ⟨hx, hdigits⟩, literalType?, hne]
  simp [String.ofList_toList, IntType.primitive?_name ht]

theorem integerLiteral?_plain (t : IntType) (negative : Bool) (n : Nat) :
    integerLiteral? (some t) ((if negative then "-" else "") ++ toString n) = t.signed? negative n := by
  have h : integerLiteral? (some t) ((if negative then "-" else "") ++ toString n ++ "") = _ :=
    integerLiteral?_of_digits ⟨by decide, rfl⟩
  rw [String.append_empty] at h
  exact h

theorem integerLiteral?_hex (t : IntType) (width n : Nat) :
    integerLiteral? (some t) ("0x" ++ Text.hex width n) = t.integer? n := by
  have htext : ("0x" ++ Text.hex width n).toList =
      '0' :: 'x' :: (List.replicate (width - (Nat.toDigits 16 n).length) '0' ++ Nat.toDigits 16 n) := by
    simp [Text.hex]
  rw [integerLiteral?, htext]
  change (digits? 16 hexDigit? _).bind (t.signed? false) = _
  rw [digits?_toDigits (by decide) hexDigit?_digitChar]
  rfl

end RustContracts.Rust
