import RustContracts.Rust.Tree
import RustContracts.Proofs.Rust.Integer

-- The types of integer expressions, as their operands tell: operators ask for operands of one type, conversions name
-- their result. Exponents, shift amounts and conditions are not looked at.
namespace RustContracts.Rust

-- Operators on two numbers of a type; shifts are typed by what is shifted.
def isArithmetic (op : String) : Bool := ["+", "-", "*", "/", "%", "&", "|", "^"].contains op

def isShift (op : String) : Bool := ["<<", ">>"].contains op

-- Methods of wide numbers that take another one by reference.
def isWideMethod (method : String) : Bool := ["add", "sub", "mul", "div", "rem_euclid"].contains method

-- Methods with a result of the type that they are called on, whatever they are given.
def keepsType (method : String) : Bool := ["pow", "shl", "shr"].contains method

-- The type that two operands share.
def agree? (t u : Option IntType) : Option IntType := if t = u then t else none

def narrowType? (method : String) (t : IntType) : Option IntType :=
  if t = .u256 ∧ method = "to_u128" then some ⟨false, 128⟩
  else if t = .i256 ∧ method = "to_i128" then some ⟨true, 128⟩
  else none

mutual

-- The type of an integer expression where the place of a literal asks for a type; `known` gives it for all that is no
-- literal, conversion or operation. None where there is no such type.
def Expr.integerType? (known : Expr → Option IntType) (asked : Option IntType) : Expr → Option IntType
  | .lit text => (numeral? asked text).map Integer.type
  | .cast x type =>
    (x.integerType? known none).bind fun t => if t ∈ IntType.primitives then IntType.primitive? type else none
  | .call (.ident "U256::from") [x] =>
    (x.integerType? known none).bind fun t => if t ∈ IntType.primitives then some .u256 else none
  | .call (.ident "U256") [.array limbs] =>
    if haveTypes known (List.replicate 4 ⟨false, 64⟩) limbs then some .u256 else none
  | .call (.ident path) (env :: args) =>
    match hostNumber? path with
    | some (t, types) => if haveTypes known types args then some t else none
    | none => known (.call (.ident path) (env :: args))
  | .methodCall x "low_u128" [] =>
    (x.integerType? known none).bind fun t => if t = .u256 then some ⟨false, 128⟩ else none
  | .methodCall (.methodCall x method []) "unwrap" [] =>
    if method = "to_u128" ∨ method = "to_i128" then (x.integerType? known none).bind (narrowType? method)
    else known (.methodCall (.methodCall x method []) "unwrap" [])
  | .methodCall x "clone" [] => x.integerType? known none
  | .methodCall x method [.unary "&" y] =>
    if isWideMethod method then agree? (x.integerType? known none) (y.integerType? known none)
    else if keepsType method then x.integerType? known none
    else known (.methodCall x method [.unary "&" y])
  | .methodCall x method [y] =>
    if keepsType method then x.integerType? known none else known (.methodCall x method [y])
  | .binary op x y =>
    if isArithmetic op then agree? (x.integerType? known none) (y.integerType? known none)
    else if isShift op then x.integerType? known none
    else none
  | .unary op x =>
    if op = "-" then (x.integerType? known none).filter (·.signed)
    else if op = "!" then x.integerType? known none
    else known (.unary op x)
  | .ifElse "" _ ⟨[], some x⟩ (some (.block ⟨[], some y⟩)) =>
    agree? (x.integerType? known none) (y.integerType? known none)
  | e => known e

-- Whether there is one number for each type that is asked for.
def haveTypes (known : Expr → Option IntType) : List IntType → List Expr → Bool
  | [], [] => true
  | t :: types, e :: rest => e.integerType? known (some t) == some t && haveTypes known types rest
  | _, _ => false

end

attribute [local simp] Expr.integerType?

section Types

variable {known : Expr → Option IntType} {asked : Option IntType} {x y : Expr} {t u : IntType}

theorem type_cast (hx : x.integerType? known none = some t) (ht : t ∈ IntType.primitives) (hu : u ∈ IntType.primitives) :
    (Expr.cast x u.name).integerType? known asked = some u := by
  rw [Expr.integerType?, hx, Option.bind_some, if_pos ht, IntType.primitive?_name hu]

theorem type_toU256 (hx : x.integerType? known none = some t) (ht : t ∈ IntType.primitives) :
    (Expr.callPath "U256::from" [x]).integerType? known asked = some .u256 := by
  rw [Expr.callPath, Expr.integerType?, hx, Option.bind_some, if_pos ht]

theorem type_host {path : String} {env : Expr} (hpath : hostNumber? path = some (t, [u]))
    (hx : x.integerType? known (some u) = some u) :
    (Expr.callPath path [env, x]).integerType? known asked = some t := by
  have hfrom : path ≠ "U256::from" := by
    rintro rfl
    cases (by decide : hostNumber? "U256::from" = none).symm.trans hpath
  have hnew : path ≠ "U256" := by
    rintro rfl
    cases (by decide : hostNumber? "U256" = none).symm.trans hpath
  rw [Expr.callPath, Expr.integerType?, hpath]
  · simp [haveTypes, hx]
  · exact fun heq => absurd heq hfrom
  · exact fun _ heq => absurd heq hnew

theorem type_lowBits (hx : x.integerType? known none = some .u256) :
    (x.method "low_u128").integerType? known asked = some ⟨false, 128⟩ := by
  rw [Expr.method, Expr.integerType?, hx]
  rfl

theorem type_narrow {sign : Bool} (hx : x.integerType? known none = some ⟨sign, 256⟩) :
    ((x.method (if sign then "to_i128" else "to_u128")).method "unwrap").integerType? known asked =
      some ⟨sign, 128⟩ := by
  cases sign <;> simp [Expr.method, hx, narrowType?, IntType.u256, IntType.i256]

theorem type_clone : (x.method "clone").integerType? known asked = x.integerType? known none := by
  rw [Expr.method, Expr.integerType?]

-- What is only looked at need not be cloned.
theorem type_borrowed (hx : x.integerType? known none = some t) : x.borrowed.integerType? known none = some t := by
  unfold Expr.borrowed
  split
  · next receiver =>
      have hclone : (receiver.method "clone").integerType? known none = some t := hx
      split
      · rwa [type_clone] at hclone
      · exact hclone
  · exact hx

theorem type_arithmetic {op : String} (hop : isArithmetic op = true) (hx : x.integerType? known none = some t)
    (hy : y.integerType? known none = some t) : (Expr.binary op x y).integerType? known asked = some t := by
  rw [Expr.integerType?, if_pos hop, hx, hy]
  exact if_pos rfl

theorem type_shift {op : String} (hop : isShift op = true ∧ isArithmetic op = false)
    (hx : x.integerType? known none = some t) : (Expr.binary op x y).integerType? known asked = some t := by
  rw [Expr.integerType?, if_neg (by simp [hop.2]), if_pos hop.1, hx]

theorem type_wideMethod {method : String} (hmethod : isWideMethod method = true)
    (hx : x.integerType? known none = some t) (hy : y.integerType? known none = some t) :
    (x.methodCall method [y.ref]).integerType? known asked = some t := by
  rw [Expr.ref, Expr.integerType?, if_pos hmethod, hx, hy]
  exact if_pos rfl

theorem type_keeping {method : String} (hmethod : keepsType method = true) (hx : x.integerType? known none = some t) :
    (x.methodCall method [y]).integerType? known asked = some t := by
  have hwide : isWideMethod method = false := by
    cases h : isWideMethod method with
    | false => rfl
    | true =>
        have hboth : ∀ m ∈ ["pow", "shl", "shr"], isWideMethod m = false := by decide
        rw [hboth method (by simpa [keepsType] using hmethod)] at h
        cases h
  by_cases hy : ∃ z, y = .unary "&" z
  · obtain ⟨z, rfl⟩ := hy
    rw [Expr.integerType?, if_neg (by simp [hwide]), if_pos hmethod, hx]
  · rw [Expr.integerType?, if_pos hmethod, hx]
    exact fun z heq => hy ⟨z, heq⟩

theorem type_negate (ht : t.signed = true) (hx : x.integerType? known none = some t) :
    x.negate.integerType? known asked = some t := by
  rw [Expr.negate, Expr.integerType?, if_pos rfl, hx]
  simp [ht]

theorem type_not (hx : x.integerType? known none = some t) : x.not.integerType? known asked = some t := by
  rw [Expr.not, Expr.integerType?, if_neg (by decide), if_pos rfl, hx]

theorem type_choice {c : Expr} (hx : x.integerType? known none = some t) (hy : y.integerType? known none = some t) :
    (Expr.ifElse "" c ⟨[], some x⟩ (some (.block ⟨[], some y⟩))).integerType? known asked = some t := by
  rw [Expr.integerType?, hx, hy]
  exact if_pos rfl

end Types

-- What is evaluated without a look at variables has its value's type.
theorem type_of_value (known : Expr → Option IntType) :
    (∀ asked e, ∀ i, Expr.integer? (fun _ => none) asked e = some i → e.integerType? known asked = some i.type) ∧
      ∀ types es, ∀ vs, integers? (fun _ => none) types es = some vs → haveTypes known types es = true := by
  apply Expr.integer?.mutual_induct
  case case1 =>
    intro asked text i h
    rw [Expr.integer?] at h
    rw [Expr.integerType?, h]
    rfl
  case case2 =>
    intro asked x type ih i h
    rw [Expr.integer?] at h
    obtain ⟨j, hj, h⟩ := Option.bind_eq_some_iff.mp h
    rw [Integer.cast?] at h
    split at h
    · next hprimitive =>
        obtain ⟨t, ht, rfl⟩ := Option.map_eq_some_iff.mp h
        rw [Expr.integerType?, ih j hj, Option.bind_some, if_pos hprimitive, ht]
    · cases h
  case case3 =>
    intro asked x ih i h
    rw [Expr.integer?] at h
    obtain ⟨j, hj, h⟩ := Option.bind_eq_some_iff.mp h
    rw [Integer.toU256?] at h
    split at h
    · next hprimitive =>
        obtain rfl := Option.some.inj h
        rw [Expr.integerType?, ih j hj, Option.bind_some, if_pos hprimitive.1]
    · cases h
  case case4 =>
    intro asked limbs ih i h
    rw [Expr.integer?] at h
    obtain ⟨ls, hls, rfl⟩ := Option.map_eq_some_iff.mp h
    rw [Expr.integerType?, if_pos (ih ls hls)]
  case case5 =>
    intro asked path env args hfrom hnew t types hpath ih i h
    rw [Expr.integer?, hpath] at h
    · obtain ⟨vs, hvs, rfl⟩ := Option.map_eq_some_iff.mp h
      rw [Expr.integerType?, hpath]
      · exact if_pos (ih vs hvs)
      · exact hfrom
      · exact hnew
    · exact hfrom
    · exact hnew
  case case6 =>
    intro asked path env args hfrom hnew hpath i h
    rw [Expr.integer?, hpath] at h
    · cases h
    · exact hfrom
    · exact hnew
  case case7 =>
    intro asked x ih i h
    rw [Expr.integer?] at h
    obtain ⟨j, hj, h⟩ := Option.bind_eq_some_iff.mp h
    rw [Integer.lowBits?] at h
    split at h
    · next hwide =>
        obtain rfl := Option.some.inj h
        rw [Expr.integerType?, ih j hj, Option.bind_some, if_pos hwide]
    · cases h
  case case8 =>
    intro asked x method hmethod ih i h
    rw [Expr.integer?, if_pos hmethod] at h
    obtain ⟨j, hj, h⟩ := Option.bind_eq_some_iff.mp h
    rw [Expr.integerType?, if_pos hmethod, ih j hj, Option.bind_some]
    simp only [Integer.narrow?, IntType.integer?] at h
    grind [narrowType?]
  case case9 =>
    intro asked x method hmethod i h
    rw [Expr.integer?, if_neg hmethod] at h
    cases h
  case case10 =>
    intro asked e h1 h2 h3 h4 h5 h6 h7 i h
    rw [Expr.integer?] at h
    · cases h
    all_goals assumption
  case case11 =>
    intro vs _
    rfl
  case case12 =>
    intro t types e rest ih ihrest vs h
    rw [integers?] at h
    obtain ⟨i, hi, h⟩ := Option.bind_eq_some_iff.mp h
    split at h
    · next htype =>
        obtain ⟨ws, hws, -⟩ := Option.map_eq_some_iff.mp h
        simp [haveTypes, ih i hi, ihrest ws hws, htype]
    · cases h
  case case13 =>
    intro types es hnil hcons vs h
    rw [integers?] at h
    · cases h
    all_goals assumption

end RustContracts.Rust
