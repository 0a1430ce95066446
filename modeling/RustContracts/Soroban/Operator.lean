import RustContracts.Rust.Tree
import RustContracts.Soroban.Type

-- Operators, conversions, arrays and the environment in Soroban contracts.
namespace RustContracts.Soroban

open Program Emit
open Solidity (BinaryOp UnaryOp)

def isWideType : Ty → Bool
  | .int _ bits => isWide bits
  | _ => false

-- The 32-bit numbers that the host takes.
def asU32 (x : Rust.Expr) (t : Ty) : Rust.Expr :=
  match t with
  | .int signed bits =>
    if isWide bits then .cast ((x.method "to_u128").method "unwrap") "u32"
    else if !signed && bits ≤ 32 then x
    else .cast x "u32"
  | _ => .cast x "u32"

-- A reference to what is read, without a clone.
def borrow (x : Rust.Expr) : Rust.Expr := x.borrowed.ref

-- The method of wide integers for an operator.
def wideMethod? : BinaryOp → Option String
  | .add => some "add"
  | .sub => some "sub"
  | .mul => some "mul"
  | .div => some "div"
  | .mod => some "rem_euclid"
  | _ => none

def wideBinary (op : BinaryOp) (left right : Rust.Expr) (leftType rightType : Ty) :
    Emit Rust.Expr :=
  let receiver := left.borrowed
  match op with
  | .eq | .ne | .lt | .le | .gt | .ge => return .binary op.text left right
  | .pow => return receiver.methodCall "pow" [asU32 right rightType]
  | .shl => return receiver.methodCall "shl" [asU32 right rightType]
  | .shr => return receiver.methodCall "shr" [asU32 right rightType]
  | _ =>
    match wideMethod? op with
    | some method => return receiver.methodCall method [borrow right]
    | none => throw (.fault (.unsupported {} ("operator " ++ op.text ++ " on " ++ leftType.text)))

def binary (op : BinaryOp) (left right : Rust.Expr) (leftType rightType : Ty) : Emit Rust.Expr :=
  if isWideType leftType then wideBinary op left right leftType rightType
  else if op = .pow then return left.methodCall "pow" [asU32 right rightType]
  else return .binary op.text left right

def unary (op : UnaryOp) (x : Rust.Expr) (t : Ty) : Emit Rust.Expr := do
  let refused : Diagnostic := .unsupported {} ("operator " ++ op.text ++ " on " ++ t.text)
  match op, t with
  | .negate, .int true bits =>
    if isWide bits then return (← zero t).methodCall "sub" [borrow x]
    return x.negate
  | .complement, .int _ bits => if isWide bits then throw (.fault refused) else return x.not
  | _, _ => throw (.fault refused)

def cast (x : Rust.Expr) (source result : Ty) : Emit Rust.Expr := do
  let refused : Diagnostic :=
    .unsupported {} ("conversion from " ++ source.text ++ " to " ++ result.text)
  match result, source with
  | .int signed bits, .int signed' bits' =>
    let name := intName signed bits
    match isWide bits, isWide bits' with
    | true, true => if signed = signed' then return x else throw (.fault refused)
    | true, false =>
      use name
      if signed then return hostCall "I256::from_i128" [.cast x "i128"]
      return hostCall "U256::from_u128" [.cast x "u128"]
    | false, true =>
      return .cast ((x.method (if signed' then "to_i128" else "to_u128")).method "unwrap") name
    | false, false => return .cast x name
  | .int signed bits, .enum _ =>
    let name := intName signed bits
    if !isWide bits then return .cast x name
    use name
    return hostCall (name ++ "::from_u32") [.cast x "u32"]
  | .address _, .contract _ => return x
  | _, _ => throw (.fault refused)

-- Elements are read and written by methods; they are no places.

def arrayIndex (array key : Rust.Expr) (keyType : Ty) : Rust.Expr :=
  (array.methodCall "get" [asU32 key keyType]).method "unwrap"

def arraySet (array key : Rust.Expr) (keyType : Ty) (value : Rust.Expr) : Rust.Stmt :=
  .expr (array.methodCall "set" [asU32 key keyType, value])

def arrayLength (array : Rust.Expr) : Emit Rust.Expr := do
  use "U256"
  return hostCall "U256::from_u32" [array.method "len"]

-- A loop that fills a vector with zeros.
def newArray (elem : Ty) (size : Rust.Expr) (sizeType : Ty) : Emit Rust.Expr := do
  let z ← zero elem
  use "Vec"
  let v ← temp "v"
  let n ← temp "n"
  let i ← temp "i"
  return .block
    ⟨[.letVar true v "" (some (hostCall "Vec::new" [])),
      .letVar false n "" (some (asU32 size sizeType)),
      .letVar true i "" (some (.lit "0u32")),
      .whileLoop "" (.binary "<" (.ident i) (.ident n))
        ⟨[.expr ((Rust.Expr.ident v).methodCall "push_back" [z]),
          .assign (.ident i) "+=" (.lit "1")], none⟩],
     some (.ident v)⟩

def arrayLiteral (elements : List Rust.Expr) : Emit Rust.Expr := do
  use "vec"
  return .bangCall "vec" (env :: elements)

def envValue (kind : EnvKind) : Emit Rust.Expr := do
  let ledger := (Rust.Expr.ident "env").method "ledger"
  match kind with
  | .sender => return (Rust.Expr.ident "caller").method "clone"
  | .timestamp =>
    use "U256"
    return hostCall "U256::from_u128" [.cast (ledger.method "timestamp") "u128"]
  | .blockNumber =>
    use "U256"
    return hostCall "U256::from_u32" [ledger.method "sequence"]
  | .this => return (Rust.Expr.ident "env").method "current_contract_address"
  | .value => throw (.fault (.unsupported {} "msg.value on Soroban"))

end RustContracts.Soroban
