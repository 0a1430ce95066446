import RustContracts.Solidity.Operator
import RustContracts.Text.Position

-- The tree of a source text as it is written: operators are not yet grouped by precedence and names
-- are not yet resolved.
namespace RustContracts.Solidity

open Text (Position)

mutual

-- A value, or an assignment of one: `target` or `target op value`.
structure Expression where
  start : Position
  stop : Position
  target : Conditional
  assigned : Option Assigned

structure Assigned where
  op : AssignOp
  value : Expression

-- `cond`, or `cond ? whenTrue : whenFalse`.
structure Conditional where
  cond : Chain
  branches : Option Branches

structure Branches where
  whenTrue : Expression
  whenFalse : Expression

-- Operands with binary operators between them, from left to right.
structure Chain where
  first : Operand
  rest : List Link

structure Link where
  start : Position
  op : BinaryOp
  right : Operand

inductive Operand where
  -- an operator before its operand
  | unary (start : Position) (op : LeadingOp) (operand : Operand)
  -- a primary expression and what is applied to it
  | term (start : Position) (primary : Primary) (suffixes : List Suffix)

inductive Suffix where
  | member (start : Position) (name : String)
  | index (start : Position) (index : Option Expression)
  | call (start : Position) (args : List Expression)
  | namedCall (start : Position) (args : List NamedArg)
  -- `++` or `--` behind its operand
  | step (start : Position) (op : StepOp)

structure NamedArg where
  start : Position
  name : String
  value : Expression

inductive Primary where
  | number (start : Position) (digits unit : String)
  -- adjacent string literals
  | strings (parts : List String)
  | bool (value : Bool)
  -- `type(T)`
  | typeOf (type : TypeName)
  -- `new T`
  | new (type : TypeName)
  | tuple (elements : List Expression)
  | array (elements : List Expression)
  | ident (name : String)

structure TypeName where
  start : Position
  base : TypeBase
  payable : Bool
  dims : List ArrayDim

inductive TypeBase where
  | mapping (start : Position) (key : TypeName) (keyName : String) (value : TypeName)
      (valueName : String)
  -- a name, with dots when it is qualified
  | path (name : String)

structure ArrayDim where
  start : Position
  size : Option Expression

end

instance : Inhabited Operand := ⟨.term default (.ident "") []⟩

structure VariableDeclaration where
  start : Position
  type : TypeName
  location : String
  name : String
  value : Option Expression

structure TupleVariable where
  start : Position
  type : TypeName
  location : String
  name : String

inductive SimpleStatement where
  | expr (start : Position) (value : Expression)
  | varDecl (start : Position) (decl : VariableDeclaration)

mutual

structure Block where
  start : Position
  stop : Position
  statements : List Statement

inductive Statement where
  | block (start : Position) (body : Block)
  | unchecked (start : Position) (body : Block)
  | ifElse (start : Position) (cond : Expression) (whenTrue : Statement)
      (whenFalse : Option Statement)
  | forLoop (start : Position) (init : Option SimpleStatement) (cond post : Option Expression)
      (body : Statement)
  | whileLoop (start : Position) (cond : Expression) (body : Statement)
  | doWhile (start : Position) (body : Statement) (cond : Expression)
  | returnValue (start : Position) (value : Option Expression)
  | emit (start : Position) (event : Expression)
  | revert (start : Position) (value : Expression)
  | breakLoop (start : Position)
  | continueLoop (start : Position)
  | placeholder (start : Position)
  | expr (start : Position) (value : Expression)
  | tupleDecl (start : Position) (vars : List TupleVariable) (value : Expression)
  | varDecl (start : Position) (decl : VariableDeclaration)

end

namespace Statement

def start : Statement → Position
  | block s _ | unchecked s _ | ifElse s _ _ _ | forLoop s _ _ _ _ | whileLoop s _ _
  | doWhile s _ _ | returnValue s _ | emit s _ | revert s _ | breakLoop s | continueLoop s
  | placeholder s | expr s _ | tupleDecl s _ _ | varDecl s _ => s

end Statement

structure Parameter where
  start : Position
  type : TypeName
  location : String
  name : String

structure StructField where
  start : Position
  type : TypeName
  name : String

structure StructDefinition where
  start : Position
  name : String
  fields : List StructField

structure EnumDefinition where
  start : Position
  name : String
  values : List String

structure EventParameter where
  start : Position
  type : TypeName
  indexed : Bool
  name : String

structure EventDefinition where
  start : Position
  name : String
  params : List EventParameter
  anonymous : Bool

structure ErrorDefinition where
  start : Position
  name : String
  params : List Parameter

structure ModifierDefinition where
  start : Position
  name : String
  params : List Parameter
  attrs : List String
  body : Option Block

-- The use of a modifier on a function.
structure ModifierInvocation where
  start : Position
  name : String
  hasArgs : Bool
  args : List Expression

inductive FunctionAttribute where
  | visibility (start : Position) (word : String)
  | mutability (start : Position) (word : String)
  | isVirtual (start : Position)
  | isOverride (start : Position) (bases : List String)
  | modifier (start : Position) (invocation : ModifierInvocation)

structure FunctionDefinition where
  start : Position
  stop : Position
  -- `function`, `constructor`, `fallback` or `receive`
  kind : String
  name : String
  params : List Parameter
  attrs : List FunctionAttribute
  returns : List Parameter
  body : Option Block

structure StateVariable where
  start : Position
  type : TypeName
  attrs : List String
  name : String
  value : Option Expression

structure UsingDirective where
  start : Position
  library : String
  -- none for `*`
  target : Option TypeName
  isGlobal : Bool

inductive ContractPart where
  | using (start : Position) (directive : UsingDirective)
  | struct (start : Position) (definition : StructDefinition)
  | enum (start : Position) (definition : EnumDefinition)
  | event (start : Position) (definition : EventDefinition)
  | error (start : Position) (definition : ErrorDefinition)
  | modifier (start : Position) (definition : ModifierDefinition)
  | function (start : Position) (definition : FunctionDefinition)
  | variable (start : Position) (definition : StateVariable)

-- A base of a contract, with the arguments for its constructor.
structure InheritanceSpecifier where
  start : Position
  name : String
  hasArgs : Bool
  args : List Expression

structure ContractDefinition where
  start : Position
  stop : Position
  isAbstract : Bool
  -- `contract`, `interface` or `library`
  kind : String
  name : String
  bases : List InheritanceSpecifier
  parts : List ContractPart

structure ImportDirective where
  start : Position
  symbols : List String
  path : String
  localName : String

inductive SourceUnitPart where
  | pragma (start : Position) (text : String)
  | importFile (start : Position) (directive : ImportDirective)
  | contract (start : Position) (definition : ContractDefinition)
  | struct (start : Position) (definition : StructDefinition)
  | enum (start : Position) (definition : EnumDefinition)
  | event (start : Position) (definition : EventDefinition)
  | error (start : Position) (definition : ErrorDefinition)
  | function (start : Position) (definition : FunctionDefinition)
  | constant (start : Position) (definition : StateVariable)

structure SourceUnit where
  start : Position
  parts : List SourceUnitPart

end RustContracts.Solidity
