import RustContracts.Emit.Basic
import RustContracts.Rust.Tree

-- Types and constants of ink! contracts.
namespace RustContracts.Ink

open Program Emit

-- Integers wider than this have no primitive type.
def isWide (bits : Nat) : Bool := 128 < bits

-- A width is rounded up to that of a primitive type.
def primitiveWidth? (bits : Nat) : Option Nat := [8, 16, 32, 64, 128].find? (bits ≤ ·)

def intName (signed : Bool) (bits : Nat) : Emit String :=
  match primitiveWidth? bits with
  | some width => return (if signed then "i" else "u") ++ toString width
  | none =>
    if signed then throw (.fault (.numSize {} (Ty.intText signed bits ++ " has no ink! equivalent")))
    else return "U256"

def useU256 : InkVersion → Emit Unit
  | .v5 => use "primitive_types::U256"
  | .v6 => use "ink::U256"

def useString : Emit Unit := use "ink::prelude::string::String"

def useVec : Emit Unit := use "ink::prelude::vec::Vec"

def addressName : InkVersion → String
  | .v5 => "AccountId"
  | .v6 => "H160"

def addressType (v : InkVersion) : Emit String := do
  if v = .v6 then use "ink::H160"
  return addressName v

-- Names of a tuple's elements as one type.
def tupleText : List String → String
  | [t] => "(" ++ t ++ ",)"
  | ts => "(" ++ ", ".intercalate ts ++ ")"

mutual

-- The type of a value. Mappings are no values.
def type (v : InkVersion) : Ty → Emit String
  | .int signed bits => do
    if isWide bits then useU256 v
    intName signed bits
  | .literal => do
    useU256 v
    return "U256"
  | .bool => return "bool"
  | .address _ => addressType v
  | .contract _ => addressType v
  | .string => do
    useString
    return "String"
  | .bytes size => do
    if size = 0 then
      useVec
      return "Vec<u8>"
    return "[u8; " ++ toString size ++ "]"
  | .array elem length => do
    let t ← type v elem
    if length < 0 then
      useVec
      return "Vec<" ++ t ++ ">"
    return "[" ++ t ++ "; " ++ toString length ++ "]"
  | .struct r => return Rust.Name.type r.name
  | .enum r => return Rust.Name.type r.name
  | .tuple elems => do
    let ts ← types v elems
    return tupleText ts
  | .mapping key value =>
    throw (.fault (.badMapping {} ((Ty.mapping key value).text ++ " can only be used as a state variable")))

def types (v : InkVersion) : List Ty → Emit (List String)
  | [] => return []
  | t :: rest => do
    let x ← type v t
    let xs ← types v rest
    return x :: xs

end

mutual

-- Whether reading a value leaves it where it is.
def isCopy : Ty → Bool
  | .int _ _ | .literal | .bool | .address _ | .contract _ | .enum _ => true
  | .bytes size => size != 0
  | .array elem length => 0 ≤ length && isCopy elem
  | .tuple elems => allCopy elems
  | .string | .mapping _ _ | .struct _ => false

def allCopy : List Ty → Bool
  | [] => true
  | t :: rest => isCopy t && allCopy rest

end

-- `U256::from(x)`
def toU256 (v : InkVersion) (x : Rust.Expr) : Emit Rust.Expr := do
  useU256 v
  return .callPath "U256::from" [x]

-- The 64-bit part of a number at a place, counted from the low end.
def limb (value i : Nat) : Nat := value / (1 <<< (64 * i)) % (1 <<< 64)

-- A 256-bit constant, from a 128-bit one when it fits and from its limbs, low end first, otherwise.
def u256 (value : Nat) : Rust.Expr :=
  if value < 1 <<< 128 then .callPath "U256::from" [.lit (toString value ++ "u128")]
  else
    .callPath "U256"
      [.array ([0, 1, 2, 3].map fun i => .lit ("0x" ++ Text.hex 16 (limb value i)))]

def intLiteral (v : InkVersion) (value : Nat) (negative signed : Bool) (bits : Nat) :
    Emit Rust.Expr := do
  let name ← intName signed bits
  if isWide bits then
    useU256 v
    return u256 value
  return .lit ((if negative then "-" else "") ++ toString value ++ name)

def stringLiteral (text : String) : Emit Rust.Expr := do
  useString
  return .callPath "String::from" [.lit (Rust.quoted text)]

def zero (v : InkVersion) : Ty → Emit Rust.Expr
  | .int signed bits => do
    if isWide bits then
      useU256 v
      return .lit "U256::zero()"
    return .lit ("0" ++ (← intName signed bits))
  | .literal => do
    useU256 v
    return .lit "U256::zero()"
  | .bool => return .lit "false"
  | .address _ | .contract _ => do
    match v with
    | .v5 => return .lit "AccountId::from([0u8; 32])"
    | .v6 =>
      use "ink::H160"
      return .lit "H160::zero()"
  | .string => do
    useString
    return .lit "String::new()"
  | .bytes size => do
    if size = 0 then
      useVec
      return .lit "Vec::new()"
    return .lit ("[0u8; " ++ toString size ++ "]")
  | .mapping key value =>
    throw (.fault (.badMapping {} ((Ty.mapping key value).text ++ " has no value outside storage")))
  | .array elem length => do
    if length < 0 then
      useVec
      return .lit "Vec::new()"
    let _ ← type v (.array elem length)
    return .lit "Default::default()"
  | t => do
    let _ ← type v t
    return .lit "Default::default()"

-- The largest or smallest value of an integer type.
def intBound (v : InkVersion) (signed : Bool) (bits : Nat) (isMax : Bool) : Emit Rust.Expr := do
  let name ← intName signed bits
  if isWide bits then
    useU256 v
    return .lit (if isMax then "U256::MAX" else "U256::zero()")
  return .lit (name ++ (if isMax then "::MAX" else "::MIN"))

def derives : List String :=
  ["derive(Debug, Clone, PartialEq, Eq, Default)",
   "ink::scale_derive(Encode, Decode, TypeInfo)",
   "cfg_attr(feature = \"std\", derive(ink::storage::traits::StorageLayout))"]

def enumItem (e : EnumDecl) : Rust.Item :=
  .enum ("derive(Copy)" :: derives) (Rust.Name.type e.name)
    (e.variants.mapIdx fun i name =>
      { attrs := if i = 0 then ["default"] else [], name := Rust.Name.type name })

def structItem (v : InkVersion) (s : StructDecl) : Emit Rust.Item := do
  let fields ← s.fields.mapM fun f => do
    return { isPublic := true, name := Rust.Name.value f.name, type := (← type v f.type) : Rust.Field }
  return .struct derives (Rust.Name.type s.name) fields false

end RustContracts.Ink
