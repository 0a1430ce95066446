import RustContracts.Emit.Call
import RustContracts.Solidity.Number

-- Expressions.
namespace RustContracts.Emit

open Program
open Solidity (BinaryOp UnaryOp)
open Text (Position)

-- Access paths.

-- One index or member on the way from a root to a place.
inductive Step where
  | index (start : Position) (key : Expr) (on : Ty)
  | member (start : Position) (name : String) (on : Ty)

-- The root of an access and the steps that lead from it, in order.
def accessPath : Expr → Expr × List Step
  | .index p target key _ =>
    let (root, steps) := accessPath target
    (root, steps ++ [.index p key target.type])
  | .member p target name _ =>
    let (root, steps) := accessPath target
    (root, steps ++ [.member p name target.type])
  | e => (e, [])

def Step.isIndex : Step → Bool
  | index _ _ _ => true
  | member _ _ _ => false

-- Whether an expression is written as a place that Rust can borrow or move from.
def isPlace (e : Expr) : Emit Bool := do
  let (root, path) := accessPath e
  let indexed := path.any Step.isIndex
  match root with
  | .var _ _ _ => return !indexed || (← elementsArePlaces)
  | .field _ d => return (← fieldPlace? d).isSome && (!indexed || (← elementsArePlaces))
  | _ => return false

def missingKeys (start : Position) (d : FieldDecl) : Diagnostic :=
  .badMapping start
    ("mapping '" ++ d.sourceName ++ "' needs " ++ plural d.type.mappingDepth "key")

-- An access into a mapping needs all of its keys.
def checkKeys (e : Expr) : Emit Unit := do
  match accessPath e with
  | (.field _ d, path) =>
    if path.length < d.type.mappingDepth then throw (.fault (missingKeys e.start d))
  | _ => return

-- How far an access has come: at a value, or at a mapping with keys still missing.
inductive Access where
  | value (x : Rust.Expr)
  | entry (field : FieldDecl) (keys : List Rust.Expr) (missing : List Ty)

-- A field by itself.
def fieldAccess (d : FieldDecl) : Emit Access := do
  if d.type.isMapping then return .entry d [] d.type.mappingKeys
  match ← fieldPlace? d with
  | some place => return .value place
  | none => return .value (← readField d [])

namespace Access

-- The part of a struct.
def member (a : Access) (start : Position) (name : String) : Emit Access :=
  match a with
  | value x => return .value (.field x (Rust.Name.value name))
  | entry d _ _ =>
    throw (.fault (.badMapping start ("mapping '" ++ d.sourceName ++ "' indexed with a member access")))

-- The entry or element under a key; `keyType` is the key's type as an index of an array, `key` writes it
-- as a type asks.
def index (a : Access) (start : Position) (on keyType : Ty) (key : Ty → Emit Rust.Expr) :
    Emit Access := do
  match a with
  | value x =>
    if on.isMapping then
      throw (.fault (.badMapping start "mappings are only supported as state variables"))
    return .value (← arrayIndex x (← key keyType) keyType)
  | entry d keys [] => return .entry d keys []
  | entry d keys [t] => return .value (← readField d (keys ++ [← key t]))
  | entry d keys (t :: more) => return .entry d (keys ++ [← key t]) more

end Access

-- What an expression is written as, once its keys are known to be complete.
def valueOf (e : Expr) (written : Emit Access) : Emit Rust.Expr := do
  checkKeys e
  match ← written with
  | .value x => return x
  | .entry d _ _ => throw (.fault (missingKeys e.start d))

-- The same for use as a value: a place that is not copied is cloned.
def operandOf (e : Expr) (written : Emit Access) : Emit Rust.Expr := do
  let x ← valueOf e written
  if (← isPlace e) && !(← isCopy e.type) then return x.method "clone"
  return x

-- Types of operands.

def isComparison : BinaryOp → Bool
  | .eq | .ne | .lt | .le | .gt | .ge => true
  | _ => false

-- The integer type that a place asks for, if it asks for one.
def expectedInt? : Option Ty → Option Ty
  | some (.int signed bits) => some (.int signed bits)
  | _ => none

-- The type as which an index or length is written.
def indexType (e : Expr) : Ty :=
  match e.type with
  | .literal => .uint256
  | t => t

-- The type as which both operands are written: that of the operand that is no literal, and of two
-- integers the wider, or else the type that the place asks for. The right operand of a shift or power
-- does not count.
def operandType (expected : Option Ty) (op : BinaryOp) (left right : Ty) : Ty :=
  let right := if op.keepsLeft then .literal else right
  match left, right with
  | .int s n, .int s' n' => if n < n' then .int s' n' else .int s n
  | .literal, .literal =>
    if isComparison op then .uint256 else (expectedInt? expected).getD .uint256
  | .literal, right => right
  | left, _ => left

-- The type that an expression has once it is written; arithmetic on mixed widths widens.
def writtenType (expected : Option Ty) : Expr → Ty
  | .binary _ op left right t =>
    if op.isLogical then t else operandType expected op left.type right.type
  | e => e.type

-- An operand where a type is asked for; an integer of another type is converted.
def operandAs (t : Option Ty) (e : Expr) (written : Option Ty → Emit Access) : Emit Rust.Expr := do
  let x ← operandOf e (written t)
  match writtenType t e, t with
  | .int s n, some (.int s' n') =>
    if s = s' && n = n' then return x else convert x (.int s n) (.int s' n')
  | _, _ => return x

-- An integer literal, of the type that its place asks for or else of 256 bits.
def numberLiteral (expected : Option Ty) (start : Position) (value : Nat) (negative : Bool) :
    Emit Rust.Expr := do
  let (signed, bits) := match expected with
    | some (.int signed bits) => (signed, bits)
    | _ => (false, 256)
  if !Solidity.Number.fits value bits signed negative then
    throw (.fault (.numSize start ((if negative then "-" else "") ++ toString value ++ " does not fit in " ++
      Ty.intText signed bits)))
  intLiteral value negative signed bits

-- Whether an expression is an integer literal, and which.
def number? : Expr → Option (Position × Nat)
  | .int p n => some (p, n)
  | _ => none

-- The key under which the reference to a contract is held.
def refKey (interface : String) (address : Rust.Expr) : String := interface ++ "@" ++ address.text

-- What a conversion asks of its operand.
inductive CastPlan where
  -- nothing
  | keep
  -- to be of a type
  | asType (t : Ty)
  -- to be of a type, from which it is converted
  | through (t : Ty)

def castPlan (source result : Ty) : CastPlan :=
  match result, source with
  -- contracts are held as their addresses
  | .contract _, _ => .asType (.address false)
  | .address _, .contract _ => .keep
  | .int signed bits, .literal => .asType (.int signed bits)
  | _, .literal => .through .uint256
  | _, t => .through t

mutual

-- An expression where a type is asked for; `inlined` writes the constants that it uses.
def access (inlined : ConstantDecl → Emit Rust.Expr) (expected : Option Ty) :
    Expr → Emit Access
  | .int p n => do
    let x ← numberLiteral expected p n false
    return .value x
  | .bool _ b => return .value (.lit (if b then "true" else "false"))
  | .str _ s => do
    let x ← stringLiteral s
    return .value x
  | .var p name _ => do
    match ← local? name with
    | some ident => return .value (.ident ident)
    | none => throw (.fault (.unexpected p "variable" ("'" ++ name ++ "'")))
  | .field _ d => fieldAccess d
  | .const _ d => do
    let x ← inlined d
    return .value x
  | .member p target name _ => do
    let a ← access inlined expected target
    a.member p name
  | .index p target key _ => do
    let a ← access inlined expected target
    a.index p target.type (indexType key) fun t =>
      operandAs (some t) key fun t => access inlined t key
  | .binary _ op left right _ => do
    if op = .and || op = .or then
      let l ← operandAs (some .bool) left fun t => access inlined t left
      let r ← operandAs (some .bool) right fun t => access inlined t right
      return .value (.binary op.text l r)
    let leftType := operandType expected op left.type right.type
    let rightType :=
      if op.keepsLeft then (if right.type.isLiteral then .int false 32 else right.type) else leftType
    let l ← operandAs (some leftType) left fun t => access inlined t left
    let r ← operandAs (some rightType) right fun t => access inlined t right
    let (l, r) := if isComparison op then (l.borrowed, r.borrowed) else (l, r)
    let x ← applyBinary op l r leftType rightType
    return .value x
  | .unary _ op operand _ => do
    match op, number? operand with
    | .not, _ =>
      let x ← operandAs (some .bool) operand fun t => access inlined t operand
      return .value x.not
    | .negate, some (p, n) =>
      let x ← numberLiteral expected p n true
      return .value x
    | _, _ =>
      let t := if operand.type.isLiteral then (expectedInt? expected).getD .uint256 else operand.type
      let x ← operandAs (some t) operand fun t => access inlined t operand
      let y ← applyUnary op x t
      return .value y
  | .call p name args isSuper inClass base _ => do
    let (f, impl) ← callee p name args.length isSuper inClass base
    let routine ← callRoutine f impl
    let xs ← accessList inlined (impl.params.map Param.type) args
    let x ← invoke routine xs
    return .value (.tryOp x)
  | .libraryCall _ library owner s args => do
    let f ← declaredFunction owner s
    let name ← libraryName library f
    let routine ← libraryRoutine f name
    let xs ← accessList inlined (s.params.map Param.type) args
    let x ← invoke routine xs
    return .value (.tryOp x)
  | .externalCall p interface method address args => do
    let account ← operandAs (some (.address false)) address fun t => access inlined t address
    match ← ref? (refKey interface account) with
    | none => throw (.fault (.unsupported p "external call in this position"))
    | some name =>
      let xs ← accessList inlined (method.params.map Param.type) args
      let x ← externalCall method (.ident name) xs
      return .value x
  | .pop p _ => throw (.fault (.unsupported p "push and pop inside an expression"))
  | .push p _ _ => throw (.fault (.unsupported p "push and pop inside an expression"))
  | .length _ array => do
    let a ← valueOf array (access inlined expected array)
    let x ← arrayLength a
    return .value x
  | .env _ kind => do
    let x ← envValue kind
    return .value x
  | .ternary _ cond whenTrue whenFalse t => do
    let c ← operandAs (some .bool) cond fun t => access inlined t cond
    let t := if t.isLiteral then expected else some t
    let x ← operandAs t whenTrue fun t => access inlined t whenTrue
    let y ← operandAs t whenFalse fun t => access inlined t whenFalse
    return .value (.ifElse "" c ⟨[], some x⟩ (some (.block ⟨[], some y⟩)))
  | .tuple _ elements => do
    let types := match expected with
      | some (.tuple ts) => if ts.length = elements.length then ts else []
      | _ => []
    match ← accessList inlined types elements with
    | [x] => return .value x
    | xs => return .value (.tuple xs)
  | .cast _ result value => do
    match castPlan value.type result with
    | .keep =>
      let x ← operandOf value (access inlined expected value)
      return .value x
    | .asType t =>
      let x ← operandAs (some t) value fun t => access inlined t value
      return .value x
    | .through t =>
      let x ← operandAs (some t) value fun t => access inlined t value
      if t.same result then return .value x
      let y ← convert x t result
      return .value y
  | .enumValue _ r variant =>
    return .value (.ident (Rust.Name.type r.name ++ "::" ++ Rust.Name.type variant))
  | .structLit _ r values => do
    let fields := (((← read).package.struct? r).map (·.fields)).getD []
    let xs ← accessList inlined (fields.map Param.type) values
    return .value (.structLit (Rust.Name.type r.name)
      ((fields.zip xs).map fun (f, x) => ⟨Rust.Name.value f.name, x⟩) none)
  | .bound _ signed bits isMax => do
    let x ← intBound signed bits isMax
    return .value x
  | .newArray _ elem size => do
    let t := indexType size
    let n ← operandAs (some t) size fun t => access inlined t size
    let x ← newArray elem n t
    return .value x
  | .arrayLit p elements t => do
    match t with
    | .array elem length =>
      let xs ← accessList inlined (elements.map fun _ => elem) elements
      let x ← arrayLiteral length xs
      return .value x
    | t => throw (.fault (.unexpected p "array" t.text))
  | .zero _ t => do
    let x ← zero t
    return .value x

-- Expressions as the types ask, each beyond them as its own type asks.
def accessList (inlined : ConstantDecl → Emit Rust.Expr) (types : List Ty) :
    List Expr → Emit (List Rust.Expr)
  | [] => return []
  | e :: rest => do
    let x ← operandAs (some (types.headD e.type)) e fun t => access inlined t e
    let xs ← accessList inlined types.tail rest
    return x :: xs

end

-- A constant is written as its value wherever it is used. Constants that refer to each other more than `depth` deep
-- refer to themselves, and are followed without an end.
def constantValue : Nat → ConstantDecl → Emit Rust.Expr
  | 0, _ => throw .overflow
  | depth + 1, d => do
    match ((← read).package.constant? d.ref).bind fun c => c.value with
    | some v => valueOf v (access (constantValue depth) (some d.type) v)
    | none => throw (.fault (.unexpected d.start "constant value" ("'" ++ d.sourceName ++ "'")))

def accessOf (expected : Option Ty) (e : Expr) : Emit Access := do
  access (constantValue ((← read).package.constantCount + 1)) expected e

-- An expression that nothing is asked of.
def expr (e : Expr) : Emit Rust.Expr := valueOf e (accessOf none e)

-- An operand of a type.
def exprAs (t : Ty) (e : Expr) : Emit Rust.Expr := operandAs (some t) e fun t => accessOf t e

-- Operands of types, each beyond them of its own type.
def exprsAs (types : List Ty) : List Expr → Emit (List Rust.Expr)
  | [] => return []
  | e :: rest => do
    let x ← exprAs (types.headD e.type) e
    let xs ← exprsAs types.tail rest
    return x :: xs

end RustContracts.Emit
