import RustContracts.Emit.Basic
import RustContracts.Rust.Tree

-- Types and constants of Soroban contracts. Wide integers, addresses, texts and vectors are objects of the
-- host, made with the environment at hand.
namespace RustContracts.Soroban

open Program Emit

def isWide (bits : Nat) : Bool := 128 < bits

-- A width is rounded up to 32, 64 or 128 bits; beyond that the host's integers serve.
def intName (signed : Bool) (bits : Nat) : String :=
  match [32, 64, 128].find? (bits ≤ ·) with
  | some width => (if signed then "i" else "u") ++ toString width
  | none => if signed then "I256" else "U256"

-- The environment as a reference.
def env : Rust.Expr := (Rust.Expr.ident "env").ref

-- A function of the host that needs the environment.
def hostCall (path : String) (args : List Rust.Expr) : Rust.Expr := .callPath path (env :: args)

def tupleText : List String → String
  | [t] => "(" ++ t ++ ",)"
  | ts => "(" ++ ", ".intercalate ts ++ ")"

-- A type that is imported under its own name.
def named (name : String) : Emit String := do
  use name
  return name

mutual

-- The type of a value. Mappings are no values.
def type : Ty → Emit String
  | .int signed bits => do
    if isWide bits then use (intName signed bits)
    return intName signed bits
  | .literal => named "U256"
  | .bool => return "bool"
  | .address _ => named "Address"
  | .contract _ => named "Address"
  | .string => named "String"
  | .bytes size => do
    if size = 0 then named "Bytes"
    else
      use "BytesN"
      return "BytesN<" ++ toString size ++ ">"
  | .array elem _ => do
    let t ← type elem
    use "Vec"
    return "Vec<" ++ t ++ ">"
  | .struct r => return Rust.Name.type r.name
  | .enum r => return Rust.Name.type r.name
  | .tuple elems => do
    let ts ← types elems
    return tupleText ts
  | .mapping key value =>
    throw (.fault (.badMapping {} ((Ty.mapping key value).text ++ " can only be used as a state variable")))

def types : List Ty → Emit (List String)
  | [] => return []
  | t :: rest => do
    let x ← type t
    let xs ← types rest
    return x :: xs

end

mutual

-- Whether reading a value leaves it where it is; objects of the host have to be cloned.
def isCopy : Ty → Bool
  | .int _ bits => !isWide bits
  | .bool | .enum _ => true
  | .tuple elems => allCopy elems
  | .address _ | .contract _ | .string | .bytes _ | .mapping _ _ | .array _ _ | .struct _
  | .literal => false

def allCopy : List Ty → Bool
  | [] => true
  | t :: rest => isCopy t && allCopy rest

end

-- The 64-bit part of a number at a place, counted from the low end.
def limb (value i : Nat) : Nat := value / (1 <<< (64 * i)) % (1 <<< 64)

-- Wide constants come from 128-bit ones where they fit, or else from their limbs, high end first.
def intLiteral (value : Nat) (negative signed : Bool) (bits : Nat) : Emit Rust.Expr := do
  let name := intName signed bits
  let digits := (if negative then "-" else "") ++ toString value
  if !isWide bits then return .lit (digits ++ name)
  use name
  if signed then
    if 1 <<< 127 ≤ value then
      throw (.fault (.numSize {} ("literal " ++ toString value ++ " is too large for an I256 constant")))
    return hostCall "I256::from_i128" [.lit digits]
  if value < 1 <<< 128 then return hostCall "U256::from_u128" [.lit (toString value)]
  return hostCall "U256::from_parts"
    ([3, 2, 1, 0].map fun i => .lit ("0x" ++ Text.hex 16 (limb value i)))

def stringLiteral (text : String) : Emit Rust.Expr := do
  use "String"
  return hostCall "String::from_str" [.lit (Rust.quoted text)]

def enumVariant (e : EnumDecl) (variant : String) : Rust.Expr :=
  .ident (Rust.Name.type e.name ++ "::" ++ Rust.Name.type variant)

mutual

-- The default value of a type; `structZero` gives that of a struct.
def zeroWith (structZero : DeclRef → Emit Rust.Expr) : Ty → Emit Rust.Expr
  | .int signed bits => do
    if isWide bits then intLiteral 0 false signed bits
    else return .lit ("0" ++ intName signed bits)
  | .literal => intLiteral 0 false false 256
  | .bool => return .lit "false"
  | .address _ => throw (.fault (.unsupported {} "the zero address"))
  | .contract _ => throw (.fault (.unsupported {} "the zero address"))
  | .string => stringLiteral ""
  | .bytes size => do
    if size = 0 then
      use "Bytes"
      return hostCall "Bytes::new" []
    use "BytesN"
    return hostCall "BytesN::from_array"
      [(Rust.Expr.lit ("[0u8; " ++ toString size ++ "]")).ref]
  | .array elem length => do
    use "Vec"
    if length ≤ 0 then return hostCall "Vec::new" []
    let z ← zeroWith structZero elem
    use "vec"
    return .bangCall "vec" (env :: List.replicate length.toNat z)
  | .enum r => do
    match (← read).package.enum? r with
    | some e =>
      match e.variants with
      | first :: _ => return enumVariant e first
      | [] => throw (.fault (.unsupported {} ("zero value of " ++ r.name)))
    | none => throw (.fault (.unsupported {} ("zero value of " ++ r.name)))
  | .struct r => structZero r
  | .tuple [] => return .lit "()"
  | .tuple elems => do
    let xs ← zerosWith structZero elems
    return .tuple xs
  | .mapping key value =>
    throw (.fault (.unsupported {} ("zero value of " ++ (Ty.mapping key value).text)))

def zerosWith (structZero : DeclRef → Emit Rust.Expr) : List Ty → Emit (List Rust.Expr)
  | [] => return []
  | t :: rest => do
    let x ← zeroWith structZero t
    let xs ← zerosWith structZero rest
    return x :: xs

end

-- The struct whose fields all have their default values. Structs that are nested more than `depth` deep are within
-- themselves, and are followed without an end.
def structZero : Nat → DeclRef → Emit Rust.Expr
  | 0, _ => throw .overflow
  | depth + 1, r => do
    let fields := (((← read).package.struct? r).map (·.fields)).getD []
    let values ← zerosWith (structZero depth) (fields.map Param.type)
    return .structLit (Rust.Name.type r.name)
      ((fields.zip values).map fun (f, x) => ⟨Rust.Name.value f.name, x⟩) none

def zero (t : Ty) : Emit Rust.Expr := do
  zeroWith (structZero ((← read).package.structCount + 1)) t

-- The largest or smallest value of an integer type.
def intBound (signed : Bool) (bits : Nat) (isMax : Bool) : Emit Rust.Expr := do
  let name := intName signed bits
  if !isWide bits then return .lit (name ++ (if isMax then "::MAX" else "::MIN"))
  use name
  let limbs := match signed, isMax with
    | false, true => ["u64::MAX", "u64::MAX", "u64::MAX", "u64::MAX"]
    | false, false => ["0", "0", "0", "0"]
    | true, true => ["i64::MAX", "u64::MAX", "u64::MAX", "u64::MAX"]
    | true, false => ["i64::MIN", "0", "0", "0"]
  return hostCall (name ++ "::from_parts") (limbs.map Rust.Expr.lit)

def enumItem (e : EnumDecl) : Emit Rust.Item := do
  use "contracttype"
  return .enum ["contracttype", "derive(Clone, Copy, Debug, Eq, PartialEq)", "repr(u32)"]
    (Rust.Name.type e.name)
    (e.variants.mapIdx fun i name => { name := Rust.Name.type name, discriminant := toString i })

def structItem (s : StructDecl) : Emit Rust.Item := do
  use "contracttype"
  let fields ← s.fields.mapM fun f => do
    return { isPublic := true, name := Rust.Name.value f.name, type := (← type f.type) : Rust.Field }
  return .struct ["contracttype", "derive(Clone, Debug, Eq, PartialEq)"] (Rust.Name.type s.name)
    fields false

end RustContracts.Soroban
