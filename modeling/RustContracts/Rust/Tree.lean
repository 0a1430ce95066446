import RustContracts.Text.Quoted

-- The part of Rust that contracts are written in.
namespace RustContracts.Rust

mutual

inductive Expr where
  -- a name or path, such as `x` or `Self::f`
  | ident (name : String)
  -- the text of a literal
  | lit (text : String)
  | field (target : Expr) (name : String)
  | methodCall (receiver : Expr) (method : String) (args : List Expr)
  | call (function : Expr) (args : List Expr)
  -- `name!(args)`
  | bangCall (name : String) (args : List Expr)
  | binary (op : String) (left right : Expr)
  | unary (op : String) (operand : Expr)
  | index (target key : Expr)
  | tuple (elements : List Expr)
  | array (elements : List Expr)
  -- `base` gives the fields that are not listed
  | structLit (name : String) (fields : List FieldInit) (base : Option Expr)
  | cast (value : Expr) (type : String)
  -- `value?`
  | tryOp (value : Expr)
  -- `if cond`, or `if let pattern = cond` when the pattern is not empty
  | ifElse (pattern : String) (cond : Expr) (whenTrue : Block) (whenFalse : Option Expr)
  | block (body : Block)
  -- an expression that is left out, of which nothing is written
  | missing

structure FieldInit where
  name : String
  value : Expr

structure Block where
  stmts : List Stmt
  tail : Option Expr

inductive Stmt where
  -- `pattern` is a name or a pattern; an empty type is left to inference
  | letVar (isMut : Bool) (pattern type : String) (value : Option Expr)
  | expr (value : Expr)
  -- `op` is `=` or a compound such as `+=`
  | assign (target : Expr) (op : String) (value : Expr)
  -- labels are empty where none is written
  | whileLoop (label : String) (cond : Expr) (body : Block)
  | loop (label : String) (body : Block)
  -- `'label: { ... }`, which `break 'label` leaves
  | labeled (label : String) (body : Block)
  | breakLoop (label : String)
  | continueLoop (label : String)
  | returnValue (value : Option Expr)

end

instance : Inhabited Expr := ⟨.ident ""⟩
instance : Inhabited Block := ⟨⟨[], none⟩⟩
instance : Inhabited Stmt := ⟨.breakLoop ""⟩

structure Field where
  attrs : List String := []
  isPublic : Bool := false
  name : String
  type : String

-- A variant with named fields, or else with a tuple, or else with a number.
structure Variant where
  attrs : List String := []
  name : String
  fields : List Field := []
  tuple : List String := []
  discriminant : String := ""

structure Param where
  name : String
  type : String

-- A function or method; without a body it is a signature in a trait.
structure Function where
  attrs : List String := []
  isPublic : Bool := false
  name : String
  -- `&self`, `&mut self` or empty
  receiver : String := ""
  params : List Param := []
  result : String := ""
  body : Option Block := none

inductive Item where
  | use (path : String)
  | module (attrs : List String) (name : String) (items : List Item)
  -- a unit struct has no fields and no braces
  | struct (attrs : List String) (name : String) (fields : List Field) (isUnit : Bool)
  | enum (attrs : List String) (name : String) (variants : List Variant)
  | typeAlias (name type : String)
  | const (name type : String) (value : Expr)
  -- the trait is empty for an impl of the type itself
  | impl (attrs : List String) (trait type : String) (functions : List Function)
  | trait (attrs : List String) (name : String) (functions : List Function)
  | function (f : Function)
  -- lines as they are
  | raw (text : String)

instance : Inhabited Item := ⟨.raw ""⟩

structure File where
  -- what stands in `#![...]`
  innerAttrs : List String := []
  items : List Item := []

-- Shorthands for building trees.

namespace Expr

-- A call of a function by its path.
def callPath (path : String) (args : List Expr) : Expr := call (ident path) args

-- A method call without arguments.
def method (receiver : Expr) (name : String) : Expr := methodCall receiver name []

def ref (e : Expr) : Expr := unary "&" e

def not (e : Expr) : Expr := unary "!" e

def negate (e : Expr) : Expr := unary "-" e

-- Names, literals and fields, perhaps cloned: reads that cost nothing when they are repeated.
def isSimple : Expr → Bool
  | ident _ | lit _ => true
  | field target _ => target.isSimple
  | methodCall receiver "clone" [] => receiver.isSimple
  | _ => false

-- The place behind a clone, for code that only borrows it.
def borrowed : Expr → Expr
  | methodCall receiver "clone" [] =>
    if receiver.isSimple then receiver else receiver.method "clone"
  | e => e

end Expr

-- How a character stands inside a string literal.
def quotedChar (c : Char) : String :=
  match c with
  | '"' => "\\\""
  | '\\' => "\\\\"
  | '\n' => "\\n"
  | '\r' => "\\r"
  | '\t' => "\\t"
  | c =>
    let n := c.toNat
    if n = 0 then "\\0"
    else if n < 0x20 ∨ n = 0x7f then "\\u\x7b" ++ Text.hex 1 n ++ "\x7d"
    else c.toString

-- The literal that denotes a text.
def quoted (text : String) : String :=
  "\"" ++ String.join (text.toList.map quotedChar) ++ "\""

end RustContracts.Rust
