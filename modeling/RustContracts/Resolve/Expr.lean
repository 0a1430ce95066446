import RustContracts.Resolve.Binary
import RustContracts.Resolve.Term
import RustContracts.Solidity.Print

-- From expressions and types as written to resolved ones.
namespace RustContracts.Resolve

open Program
open Solidity (Expression Conditional Branches Chain Link Operand Suffix NamedArg Primary TypeName
  TypeBase ArrayDim)
open Text (Position)

-- The type with a name.
def namedType (path : String) (start : Position) (scope : Option ContractDecl) : Resolving Ty := do
  match Ty.elementary? path with
  | some (.ok t) => return t
  | some (.error message) => throw (.numSize start message)
  | none =>
    match (← read).outline.userType? path scope with
    | some t => return t
    | none => throw (.unsupported start path)

-- The type of an array literal's elements: that of the first element that is no integer literal.
def elementType (elements : List Expr) : Ty :=
  (elements.map Expr.type).find? (!·.isLiteral) |>.getD .literal

-- A name that is called and then accessed is taken for an interface that nobody declared.
def undeclaredInterface (suffixes : List Suffix) : Bool :=
  match suffixes with
  | .call _ _ :: .member _ _ :: _ | .namedCall _ _ :: .member _ _ :: _ => true
  | _ => false

-- Reports the fault that a term was not found as one of an undeclared interface.
def orUndeclared (start : Position) (primary : Primary) (suffixes : List Suffix)
    (term : Resolving Term) : Resolving Term :=
  tryCatch term fun d =>
    if d.kind = .notStateVariable && undeclaredInterface suffixes then
      let name := match primary with
        | .ident name => name
        | _ => ""
      throw (.unsupported start ("undeclared interface " ++ name))
    else throw d

-- The length of a fixed array, as a 64-bit machine integer.
def literalLength? : Expr → Option Int
  | .int _ n => if n < 1 <<< 64 then some (Int.bmod n (1 <<< 64)) else none
  | _ => none

mutual

def expr : Expression → Resolving Expr
  | ⟨start, _, target, none⟩ => conditional start target
  | ⟨start, _, _, some _⟩ => throw (.unexpected start "expression" "assignment")

def conditional (start : Position) : Conditional → Resolving Expr
  | ⟨cond, none⟩ => operatorChain cond
  | ⟨cond, some branches⟩ => do
    let c ← operatorChain cond
    ternary start c branches

def ternary (start : Position) (cond : Expr) : Branches → Resolving Expr
  | ⟨whenTrue, whenFalse⟩ => do
    let t ← expr whenTrue
    let e ← expr whenFalse
    return .ternary start cond t e (if t.type.isLiteral then e.type else t.type)

def operatorChain : Chain → Resolving Expr
  | ⟨first, rest⟩ => do
    let left ← operand first
    let steps ← links rest
    return group newBinary left steps

def links : List Link → Resolving (List (Step Expr))
  | [] => return []
  | ⟨start, op, right⟩ :: rest => do
    let r ← operand right
    let more ← links rest
    return ⟨start, op, r⟩ :: more

def operand : Operand → Resolving Expr
  | .unary start (.unary op) inner => do
    let x ← operand inner
    return .unary start op x (if op = .not then .bool else x.type)
  | .unary start op _ =>
    throw (.unexpected start "expression" ("'" ++ op.text ++ "' inside an expression"))
  | .term start primary suffixes => do
    let t ← orUndeclared start primary suffixes (primaryTerm start primary)
    let t ← applySuffixes t suffixes
    t.toExpr

def applySuffixes (t : Term) : List Suffix → Resolving Term
  | [] => return t
  | s :: rest => do
    let t ← applySuffix t s
    applySuffixes t rest

def applySuffix (t : Term) : Suffix → Resolving Term
  | .member start name => t.member name start
  | .index start none =>
    match t with
    | .type ty p => return .type (.array ty (-1)) p
    | .value _ => throw (.unexpected start "index" "'[]'")
    | _ => throw (.unexpected start "mapping or array" t.describe)
  | .index start (some e) =>
    match t with
    | .type ty p => do
      let n ← arrayLength e
      return .type (.array ty n) p
    | .value x => do
      let key ← expr e
      Term.elementAt x key start
    | _ => throw (.unexpected start "mapping or array" t.describe)
  | .call start args => t.call { start := start, positional := actions args }
  | .namedCall start args => t.call { start := start, named := namedActions args }
  | .step start op =>
    throw (.unexpected start "expression" ("'" ++ op.text ++ "' inside an expression"))

-- How to resolve each argument, for calls that look at their number first.
def actions : List Expression → List (Resolving Expr)
  | [] => []
  | e :: rest => expr e :: actions rest

def namedActions : List NamedArg → List (Position × String × Resolving Expr)
  | [] => []
  | ⟨start, name, value⟩ :: rest => (start, name, expr value) :: namedActions rest

def exprs : List Expression → Resolving (List Expr)
  | [] => return []
  | e :: rest => do
    let x ← expr e
    let more ← exprs rest
    return x :: more

def primaryTerm (start : Position) : Primary → Resolving Term
  | .number _ digits unit =>
    match Solidity.Number.parse digits unit with
    | .ok v => return .value (.int start v)
    | .error e => throw (.numSize start e.message)
  | .strings parts => return .value (.str start (String.join parts))
  | .bool b => return .value (.bool start b)
  | .typeOf t => do
    let ty ← typeName (← read).contract t
    return .typeOf ty start
  | .new t => do
    let ty ← typeName (← read).contract t
    return .new ty start
  | .tuple elements => do
    match ← exprs elements with
    | [x] => return .value x
    | xs => return .value (.tuple start xs)
  | .array elements => do
    let xs ← exprs elements
    return .value (.arrayLit start xs (.array (elementType xs) xs.length))
  | .ident name => resolveName name start

-- Names in a type are looked up from the class `scope`.
def typeName (scope : Option ContractDecl) : TypeName → Resolving Ty
  | ⟨start, base, payable, dims⟩ => do
    let t ← typeBase scope start payable base
    arrayOf t dims

def typeBase (scope : Option ContractDecl) (start : Position) (payable : Bool) :
    TypeBase → Resolving Ty
  | .mapping _ key _ value _ => do
    let k ← typeName scope key
    if k.isMapping then throw (.badMapping start "mapping keys cannot be mappings")
    let v ← typeName scope value
    return .mapping k v
  | .path name => do
    match ← namedType name start scope with
    | .address p => return .address (p || payable)
    | t => return t

def arrayOf (t : Ty) : List ArrayDim → Resolving Ty
  | [] => return t
  | ⟨_, none⟩ :: rest => arrayOf (.array t (-1)) rest
  | ⟨_, some size⟩ :: rest => do
    let n ← arrayLength size
    arrayOf (.array t n) rest

def arrayLength : Expression → Resolving Int
  | ⟨start, stop, target, none⟩ => do
    let x ← conditional start target
    match literalLength? x with
    | some n => return n
    | none =>
      throw (.unexpected start "constant array length"
        (Expression.describe ⟨start, stop, target, none⟩))
  | ⟨start, _, _, some _⟩ => throw (.unexpected start "expression" "assignment")

end

end RustContracts.Resolve
