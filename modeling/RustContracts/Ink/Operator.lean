import RustContracts.Ink.Type

-- Operators, conversions, arrays and the environment in ink! contracts.
namespace RustContracts.Ink

open Program Emit
open Solidity (BinaryOp UnaryOp)

def isWideType : Ty → Bool
  | .int _ bits => isWide bits
  | _ => false

-- Powers of wide integers have wide exponents, all others exponents of type `u32`.
def power (left right : Rust.Expr) (leftType rightType : Ty) : Rust.Expr :=
  if isWideType leftType then
    left.methodCall "pow" [if isWideType rightType then right else .callPath "U256::from" [right]]
  else
    match rightType with
    | .int false 32 => left.methodCall "pow" [right]
    | _ => left.methodCall "pow" [.cast right "u32"]

def binary (op : BinaryOp) (left right : Rust.Expr) (leftType rightType : Ty) : Rust.Expr :=
  match op with
  | .pow => power left right leftType rightType
  | .shl | .shr =>
    .binary op.text left (if isWideType rightType then right.method "as_u32" else right)
  | _ => .binary op.text left right

def unary (op : UnaryOp) (x : Rust.Expr) (t : Ty) : Emit Rust.Expr :=
  match op, t with
  | .negate, .int false _ => throw (.fault (.unsupported {} ("negation of unsigned " ++ t.text)))
  | .negate, _ => return x.negate
  | .complement, _ => return x.not
  | .not, _ => throw (.fault (.unsupported {} ("operator " ++ op.text)))

def cast (v : InkVersion) (x : Rust.Expr) (source result : Ty) : Emit Rust.Expr := do
  match result, source with
  | .int signed bits, .int _ bits' =>
    let name ← intName signed bits
    match isWide bits, isWide bits' with
    | true, true => return x
    | true, false => toU256 v x
    | false, true => return .cast (x.method "low_u128") name
    | false, false => return .cast x name
  | .int signed bits, .enum _ =>
    let name ← intName signed bits
    if isWide bits then toU256 v (.cast x "u8") else return .cast x name
  | .string, .bytes 0 =>
    useString
    return (Rust.Expr.callPath "String::from_utf8" [x]).method "unwrap_or_default"
  | .bytes 0, .string => return x.method "into_bytes"
  | .address _, .contract _ => return x
  | result, source =>
    if let .int signed bits := result then let _ ← intName signed bits
    throw (.fault (.unsupported {} ("conversion from " ++ source.text ++ " to " ++ result.text)))

def asUsize (x : Rust.Expr) (t : Ty) : Rust.Expr :=
  if isWideType t then x.method "as_usize" else .cast x "usize"

def arrayIndex (array key : Rust.Expr) (keyType : Ty) : Rust.Expr :=
  .index array (asUsize key keyType)

def arrayLength (v : InkVersion) (array : Rust.Expr) : Emit Rust.Expr := toU256 v (array.method "len")

-- An array of zeros.
def newArray (v : InkVersion) (elem : Ty) (size : Rust.Expr) (sizeType : Ty) : Emit Rust.Expr := do
  let z ← zero v elem
  use "ink::prelude::vec"
  return .lit ("vec![" ++ z.text ++ "; " ++ (asUsize size sizeType).text ++ "]")

def arrayLiteral (length : Int) (elements : List Rust.Expr) : Emit Rust.Expr := do
  if 0 ≤ length then return .array elements
  use "ink::prelude::vec"
  return .bangCall "vec" elements

def envValue (v : InkVersion) (kind : EnvKind) : Emit Rust.Expr := do
  let env := (Rust.Expr.ident "self").method "env"
  match kind with
  | .sender => return env.method "caller"
  | .timestamp => toU256 v (env.method "block_timestamp")
  | .blockNumber => toU256 v (env.method "block_number")
  | .value =>
    match v with
    | .v5 => toU256 v (env.method "transferred_value")
    | .v6 => return env.method "transferred_value"
  | .this =>
    match v with
    | .v5 => return env.method "account_id"
    | .v6 => return env.method "address"

end RustContracts.Ink
