import RustContracts.Program.Ty
import RustContracts.Solidity.Operator
import RustContracts.Text.Position

-- Expressions with their names resolved and their types known.
namespace RustContracts.Program

open Text (Position)
open Solidity (BinaryOp UnaryOp)

-- A parameter, return value or field.
structure Param where
  name : String
  type : Ty
deriving Inhabited

-- What a storage field is declared as.
structure FieldDecl where
  -- the identifier in the target
  name : String
  sourceName : String
  type : Ty
  isPublic : Bool := false
  isImmutable : Bool := false
  owner : String
  start : Position
deriving Inhabited

-- What a constant is declared as; the owner is empty at file level.
structure ConstantDecl where
  name : String
  sourceName : String
  type : Ty
  owner : String
  start : Position
deriving Inhabited

def ConstantDecl.ref (c : ConstantDecl) : DeclRef := ⟨c.owner, c.sourceName⟩

inductive FunctionKind where
  | function
  | constructor
  | fallback
  | receive
  | modifier
  | getter
deriving DecidableEq, Inhabited

def FunctionKind.text : FunctionKind → String
  | function => "function"
  | constructor => "constructor"
  | fallback => "fallback"
  | receive => "receive"
  | modifier => "modifier"
  | getter => "getter"

inductive Visibility where
  | isPublic
  | isExternal
  | isInternal
  | isPrivate
deriving DecidableEq, Inhabited

namespace Visibility

def text : Visibility → String
  | isPublic => "public"
  | isExternal => "external"
  | isInternal => "internal"
  | isPrivate => "private"

def ofText : String → Visibility
  | "external" => isExternal
  | "internal" => isInternal
  | "private" => isPrivate
  | _ => isPublic

-- Whether a function is part of the contract's interface.
def isExposed (v : Visibility) : Bool := v == isPublic || v == isExternal

end Visibility

inductive Mutability where
  | nonPayable
  | pure
  | view
  | payable
deriving DecidableEq, Inhabited

namespace Mutability

def text : Mutability → String
  | nonPayable => ""
  | pure => "pure"
  | view => "view"
  | payable => "payable"

-- `constant` is the old word for `view`.
def ofText : String → Mutability
  | "pure" => pure
  | "view" | "constant" => view
  | "payable" => payable
  | _ => nonPayable

-- Whether a function may write the contract's state.
def mutates (m : Mutability) : Bool := m == nonPayable || m == payable

end Mutability

-- How a function is called, without its bodies.
structure Signature where
  -- the identifier in the target
  name : String
  sourceName : String
  kind : FunctionKind
  visibility : Visibility := .isPublic
  mutability : Mutability := .nonPayable
  params : List Param := []
  returns : List Param := []
deriving Inhabited

-- Functions are told apart by name and number of parameters.
def functionKey (name : String) (arity : Nat) : String := name ++ "/" ++ toString arity

-- The type of the values that a function returns.
def returnType : List Param → Ty
  | [] => .unit
  | [r] => r.type
  | rs => .tuple (rs.map Param.type)

namespace Signature

def key (s : Signature) : String := functionKey s.sourceName s.params.length

def returnType (s : Signature) : Ty := Program.returnType s.returns

end Signature

-- What a contract reads from its environment.
inductive EnvKind where
  | sender
  | timestamp
  | blockNumber
  | value
  | this
deriving DecidableEq, Inhabited

inductive Expr where
  -- an integer, already scaled by its unit
  | int (start : Position) (value : Nat)
  | bool (start : Position) (value : Bool)
  | str (start : Position) (value : String)
  -- a local variable or parameter
  | var (start : Position) (name : String) (type : Ty)
  | field (start : Position) (decl : FieldDecl)
  | const (start : Position) (decl : ConstantDecl)
  -- a field of a struct
  | member (start : Position) (target : Expr) (name : String) (type : Ty)
  -- an entry of a mapping or element of an array
  | index (start : Position) (target key : Expr) (type : Ty)
  | binary (start : Position) (op : BinaryOp) (left right : Expr) (type : Ty)
  | unary (start : Position) (op : UnaryOp) (operand : Expr) (type : Ty)
  -- a call of a function of the contract. A super call reaches the implementation behind `inClass`; a
  -- non-empty `target` names the class whose implementation runs.
  | call (start : Position) (name : String) (args : List Expr) (isSuper : Bool)
      (inClass target : String) (type : Ty)
  -- `owner` declares the function, `library` is where it is looked up
  | libraryCall (start : Position) (library owner : String) (function : Signature)
      (args : List Expr)
  -- `Interface(address).method(args)`
  | externalCall (start : Position) (interface : String) (method : Signature) (address : Expr)
      (args : List Expr)
  | push (start : Position) (array value : Expr)
  | pop (start : Position) (array : Expr)
  | length (start : Position) (array : Expr)
  | env (start : Position) (kind : EnvKind)
  | ternary (start : Position) (cond whenTrue whenFalse : Expr) (type : Ty)
  | tuple (start : Position) (elements : List Expr)
  | cast (start : Position) (type : Ty) (value : Expr)
  | enumValue (start : Position) (ref : DeclRef) (variant : String)
  | structLit (start : Position) (ref : DeclRef) (fields : List Expr)
  -- `type(T).max` or `type(T).min`
  | bound (start : Position) (signed : Bool) (bits : Nat) (isMax : Bool)
  | newArray (start : Position) (elem : Ty) (size : Expr)
  | arrayLit (start : Position) (elements : List Expr) (type : Ty)
  -- the default value of a type
  | zero (start : Position) (type : Ty)
deriving Inhabited

namespace Expr

def start : Expr → Position
  | int p _ | bool p _ | str p _ | var p _ _ | field p _ | const p _ | member p _ _ _
  | index p _ _ _ | binary p _ _ _ _ | unary p _ _ _ | call p _ _ _ _ _ _ | libraryCall p _ _ _ _
  | externalCall p _ _ _ _ | push p _ _ | pop p _ | length p _ | env p _ | ternary p _ _ _ _
  | tuple p _ | cast p _ _ | enumValue p _ _ | structLit p _ _ | bound p _ _ _ | newArray p _ _
  | arrayLit p _ _ | zero p _ => p

mutual

def type : Expr → Ty
  | int _ _ => .literal
  | bool _ _ => .bool
  | str _ _ => .string
  | var _ _ t => t
  | field _ d => d.type
  | const _ d => d.type
  | member _ _ _ t => t
  | index _ _ _ t => t
  | binary _ _ _ _ t => t
  | unary _ _ _ t => t
  | call _ _ _ _ _ _ t => t
  | libraryCall _ _ _ f _ => f.returnType
  | externalCall _ _ m _ _ => m.returnType
  | push _ _ _ => .unit
  | pop _ _ => .unit
  | length _ _ => .uint256
  | env _ .sender | env _ .this => .address false
  | env _ _ => .uint256
  | ternary _ _ _ _ t => t
  | tuple _ es => .tuple (types es)
  | cast _ t _ => t
  | enumValue _ r _ => .enum r
  | structLit _ r _ => .struct r
  | bound _ signed bits _ => .int signed bits
  | newArray _ elem _ => .array elem (-1)
  | arrayLit _ _ t => t
  | zero _ t => t

def types : List Expr → List Ty
  | [] => []
  | e :: rest => e.type :: types rest

end

def isZeroAddress : Expr → Bool
  | zero _ (.address _) => true
  | _ => false

-- The storage field that a place is part of.
def storageRoot? : Expr → Option FieldDecl
  | field _ d => some d
  | index _ target _ _ => target.storageRoot?
  | member _ target _ _ => target.storageRoot?
  | _ => none

-- The expressions directly inside one, in order.
def children : Expr → List Expr
  | member _ t _ _ => [t]
  | index _ t k _ => [t, k]
  | binary _ _ l r _ => [l, r]
  | unary _ _ o _ => [o]
  | call _ _ args _ _ _ _ => args
  | libraryCall _ _ _ _ args => args
  | externalCall _ _ _ address args => address :: args
  | push _ a v => [a, v]
  | pop _ a => [a]
  | length _ a => [a]
  | ternary _ c t e _ => [c, t, e]
  | tuple _ es => es
  | cast _ _ v => [v]
  | structLit _ _ fs => fs
  | newArray _ _ n => [n]
  | arrayLit _ es _ => es
  | _ => []

mutual

-- An expression and all inside it, each before what is inside it.
def subexprs : Expr → List Expr
  | e@(member _ t _ _) => e :: t.subexprs
  | e@(index _ t k _) => e :: (t.subexprs ++ k.subexprs)
  | e@(binary _ _ l r _) => e :: (l.subexprs ++ r.subexprs)
  | e@(unary _ _ o _) => e :: o.subexprs
  | e@(call _ _ args _ _ _ _) => e :: subexprsList args
  | e@(libraryCall _ _ _ _ args) => e :: subexprsList args
  | e@(externalCall _ _ _ address args) => e :: (address.subexprs ++ subexprsList args)
  | e@(push _ a v) => e :: (a.subexprs ++ v.subexprs)
  | e@(pop _ a) => e :: a.subexprs
  | e@(length _ a) => e :: a.subexprs
  | e@(ternary _ c t f _) => e :: (c.subexprs ++ t.subexprs ++ f.subexprs)
  | e@(tuple _ es) => e :: subexprsList es
  | e@(cast _ _ v) => e :: v.subexprs
  | e@(structLit _ _ fs) => e :: subexprsList fs
  | e@(newArray _ _ n) => e :: n.subexprs
  | e@(arrayLit _ es _) => e :: subexprsList es
  | e => [e]

def subexprsList : List Expr → List Expr
  | [] => []
  | e :: rest => e.subexprs ++ subexprsList rest

end

-- What an expression is, for messages.
def describe : Expr → String
  | int _ _ | bool _ _ | str _ _ => "literal"
  | var _ name _ => "variable '" ++ name ++ "'"
  | field _ d => "state variable '" ++ d.sourceName ++ "'"
  | const _ d => "constant '" ++ d.sourceName ++ "'"
  | call _ _ _ _ _ _ _ | libraryCall _ _ _ _ _ | externalCall _ _ _ _ _ => "call"
  | binary _ _ _ _ _ | unary _ _ _ _ => "operator expression"
  | tuple _ _ => "tuple"
  | e => "expression of type " ++ e.type.text

end Expr

end RustContracts.Program
