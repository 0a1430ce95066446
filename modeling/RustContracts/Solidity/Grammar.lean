import RustContracts.Solidity.Rule
import RustContracts.Solidity.Tree

-- The grammar of source texts. Keywords are identifiers that some rule asks for by name, so a rule that
-- asks for any identifier takes them too.
namespace RustContracts.Solidity

open Text (Position)
open Rule (word token oneOf choice)
open Sequence (keep skip last)

namespace Grammar

-- The constructs that contain themselves, for texts up to some depth of nesting.
structure Recursive where
  expression : Rule Expression
  operand : Rule Operand
  typeName : Rule TypeName
  statement : Rule Statement

def identifier : Rule String := token .ident

-- `.name`, any number of times.
def dottedRest : Rule String :=
  (keep (word ".") (last identifier)).rule.many.map fun parts =>
    String.join (parts.map fun (dot, name) => dot ++ name)

-- One of several operators.
def operator {α : Type} (text : α → String) (all : List α) : Rule α :=
  choice (all.map fun op => (word (text op)).map fun _ => op)

def location : Rule String := (oneOf ["memory", "storage", "calldata"]).orEmpty

-- Types.

def mappingType (inner : Recursive) : Rule TypeBase :=
  (skip (word "mapping") <| skip (word "(") <| keep inner.typeName <| keep identifier.orEmpty <|
    skip (word "=>") <| keep inner.typeName <| keep identifier.orEmpty <| last (word ")")).rule
    |>.construct "MappingType" fun start _ (key, keyName, value, valueName, _) =>
      .mapping start key keyName value valueName

def arrayDim (inner : Recursive) : Rule ArrayDim :=
  (skip (word "[") <| keep inner.expression.optional <| last (word "]")).rule
    |>.construct "ArrayDim" fun start _ (size, _) => ⟨start, size⟩

def typeName (inner : Recursive) : Rule TypeName :=
  let path : Rule TypeBase :=
    (keep identifier <| last dottedRest).rule.map fun (name, more) => .path (name ++ more)
  (keep (choice [mappingType inner, path]) <| keep (word "payable").isPresent <|
    last (arrayDim inner).many).rule
    |>.construct "TypeName" fun start _ (base, payable, dims) => ⟨start, base, payable, dims⟩

-- Expressions.

def units : List String :=
  ["wei", "gwei", "ether", "seconds", "minutes", "hours", "days", "weeks"]

def numberLiteral : Rule Primary :=
  (keep (token .number) <| last (oneOf units).orEmpty).rule
    |>.construct "NumberLiteral" fun start _ (digits, unit) => .number start digits unit

def tupleExpr (inner : Recursive) : Rule Primary :=
  (skip (word "(") <| keep inner.expression.commaListOrNone <| last (word ")")).rule
    |>.construct "TupleExpr" fun _ _ (elements, _) => .tuple elements

def arrayLiteral (inner : Recursive) : Rule Primary :=
  (skip (word "[") <| keep inner.expression <| keep inner.expression.afterCommas <|
    last (word "]")).rule
    |>.construct "ArrayLiteral" fun _ _ (first, more, _) => .array (first :: more)

def primary (inner : Recursive) : Rule Primary :=
  choice
    [numberLiteral,
     (token .string).some.map .strings,
     (oneOf ["true", "false"]).map fun w => .bool (w == "true"),
     (skip (word "type") <| skip (word "(") <| keep inner.typeName <| last (word ")")).rule.map
       fun (t, _) => .typeOf t,
     (skip (word "new") <| last inner.typeName).rule.map .new,
     tupleExpr inner,
     arrayLiteral inner,
     identifier.map .ident]
    |>.construct "Primary" fun _ _ p => p

def namedArg (inner : Recursive) : Rule NamedArg :=
  (keep identifier <| skip (word ":") <| last inner.expression).rule
    |>.construct "NamedArg" fun start _ (name, value) => ⟨start, name, value⟩

-- The arguments of a call, by position or by name. An empty list of named arguments counts as no
-- arguments.
def callSuffix (inner : Recursive) : Rule Suffix :=
  let named : Rule (List Expression ⊕ List NamedArg) :=
    (skip (word "\x7b") <| keep (namedArg inner).commaListOrNone <| last (word "\x7d")).rule.map
      fun (args, _) => if args.isEmpty then .inl [] else .inr args
  let positional : Rule (List Expression ⊕ List NamedArg) := inner.expression.commaList.map .inl
  (skip (word "(") <| keep (choice [named, positional]).optional <| last (word ")")).rule
    |>.construct "CallSuffix" fun start _ (args, _) =>
      match args with
      | some (.inr named) => .namedCall start named
      | some (.inl positional) => .call start positional
      | none => .call start []

def indexSuffix (inner : Recursive) : Rule Suffix :=
  (skip (word "[") <| keep inner.expression.optional <| last (word "]")).rule
    |>.construct "IndexSuffix" fun start _ (index, _) => .index start index

def suffix (inner : Recursive) : Rule Suffix :=
  choice
    [(skip (word ".") <| last identifier).rule.map fun name start => Suffix.member start name,
     (indexSuffix inner).map fun s _ => s,
     (callSuffix inner).map fun s _ => s,
     (operator StepOp.text [.increment, .decrement]).map fun op start => Suffix.step start op]
    |>.construct "Suffix" fun start _ build => build start

def term (inner : Recursive) : Rule Operand :=
  (keep (primary inner) <| last (suffix inner).many).rule
    |>.construct "Postfix" fun start _ (p, suffixes) => .term start p suffixes

def operand (inner : Recursive) : Rule Operand :=
  choice
    [(keep (operator LeadingOp.text LeadingOp.all) <| last inner.operand).rule.map
       fun (op, operand) start => Operand.unary start op operand,
     (term inner).map fun t _ => t]
    |>.construct "Unary" fun start _ build => build start

def link (inner : Recursive) : Rule Link :=
  (keep (operator BinaryOp.text BinaryOp.all) <| last (operand inner)).rule
    |>.construct "OpUnary" fun start _ (op, right) => ⟨start, op, right⟩

def chain (inner : Recursive) : Rule Chain :=
  (keep (operand inner) <| last (link inner).many).rule
    |>.construct "Binary" fun _ _ (first, rest) => ⟨first, rest⟩

def conditional (inner : Recursive) : Rule Conditional :=
  let branches : Rule Branches :=
    (skip (word "?") <| keep inner.expression <| skip (word ":") <| last inner.expression).rule.map
      fun (whenTrue, whenFalse) => ⟨whenTrue, whenFalse⟩
  (keep (chain inner) <| last branches.optional).rule
    |>.construct "Conditional" fun _ _ (cond, branches) => ⟨cond, branches⟩

def expression (inner : Recursive) : Rule Expression :=
  let assigned : Rule Assigned :=
    (keep (operator AssignOp.text AssignOp.all) <| last inner.expression).rule.map
      fun (op, value) => ⟨op, value⟩
  (keep (conditional inner) <| last assigned.optional).rule
    |>.construct "Expression" fun start stop (target, assigned) => ⟨start, stop, target, assigned⟩

-- Statements. `same` reads constructs of the same depth, `inner` those inside brackets or behind a
-- keyword.

def block (inner : Recursive) : Rule Block :=
  (skip (word "\x7b") <| keep inner.statement.many <| last (word "\x7d")).rule
    |>.construct "Block" fun start stop (statements, _) => ⟨start, stop, statements⟩

-- `= value`, if there is one.
def initialValue (inner : Recursive) : Rule (Option Expression) :=
  (skip (word "=") <| last inner.expression).rule.optional

def variableDeclaration (same inner : Recursive) : Rule VariableDeclaration :=
  (keep same.typeName <| keep location <| keep identifier <| keep (initialValue inner) <|
    last (word ";")).rule
    |>.construct "VariableDeclaration" fun start _ (type, location, name, value, _) =>
      ⟨start, type, location, name, value⟩

def tupleVariable (inner : Recursive) : Rule TupleVariable :=
  (keep inner.typeName <| keep location <| last identifier).rule
    |>.construct "TupleVariable" fun start _ (type, location, name) => ⟨start, type, location, name⟩

def tupleDeclaration (inner : Recursive) : Rule Statement :=
  (skip (word "(") <| keep (tupleVariable inner) <| keep (tupleVariable inner).afterCommas <|
    skip (word ")") <| skip (word "=") <| keep inner.expression <| last (word ";")).rule
    |>.construct "TupleDeclaration" fun start _ (first, more, value, _) =>
      .tupleDecl start (first :: more) value

def ifStatement (inner : Recursive) : Rule Statement :=
  let otherwise := (skip (word "else") <| last inner.statement).rule.optional
  (skip (word "if") <| skip (word "(") <| keep inner.expression <| skip (word ")") <|
    keep inner.statement <| last otherwise).rule
    |>.construct "IfStatement" fun start _ (cond, whenTrue, whenFalse) =>
      .ifElse start cond whenTrue whenFalse

def simpleStatement (same inner : Recursive) : Rule SimpleStatement :=
  choice
    [(keep same.expression <| last (word ";")).rule.map fun (e, _) start =>
       SimpleStatement.expr start e,
     (variableDeclaration same inner).map fun d start => SimpleStatement.varDecl start d]
    |>.construct "SimpleStatement" fun start _ build => build start

def forStatement (inner : Recursive) : Rule Statement :=
  let init : Rule (Option SimpleStatement) :=
    choice [(simpleStatement inner inner).map some, (word ";").map fun _ => none]
  (skip (word "for") <| skip (word "(") <| keep init <| keep inner.expression.optional <|
    skip (word ";") <| keep inner.expression.optional <| skip (word ")") <|
    last inner.statement).rule
    |>.construct "ForStatement" fun start _ (init, cond, post, body) =>
      .forLoop start init cond post body

def whileStatement (inner : Recursive) : Rule Statement :=
  (skip (word "while") <| skip (word "(") <| keep inner.expression <| skip (word ")") <|
    last inner.statement).rule
    |>.construct "WhileStatement" fun start _ (cond, body) => .whileLoop start cond body

def doWhileStatement (inner : Recursive) : Rule Statement :=
  (skip (word "do") <| keep inner.statement <| skip (word "while") <| skip (word "(") <|
    keep inner.expression <| skip (word ")") <| last (word ";")).rule
    |>.construct "DoWhileStatement" fun start _ (body, cond, _) => .doWhile start body cond

def returnStatement (inner : Recursive) : Rule Statement :=
  (skip (word "return") <| keep inner.expression.optional <| last (word ";")).rule
    |>.construct "ReturnStatement" fun start _ (value, _) => .returnValue start value

def emitStatement (inner : Recursive) : Rule Statement :=
  (skip (word "emit") <| keep inner.expression <| last (word ";")).rule
    |>.construct "EmitStatement" fun start _ (event, _) => .emit start event

def revertStatement (inner : Recursive) : Rule Statement :=
  (skip (word "revert") <| keep inner.expression <| last (word ";")).rule
    |>.construct "RevertStatement" fun start _ (value, _) => .revert start value

-- A keyword and a semicolon.
def bareStatement (keyword : String) (build : Position → Statement) : Rule (Position → Statement) :=
  (skip (word keyword) <| last (word ";")).rule.map fun _ => build

def statement (same inner : Recursive) : Rule Statement :=
  choice
    [(block inner).map fun b start => Statement.block start b,
     (skip (word "unchecked") <| last (block inner)).rule.map fun b start => .unchecked start b,
     (ifStatement inner).map fun s _ => s,
     (forStatement inner).map fun s _ => s,
     (whileStatement inner).map fun s _ => s,
     (doWhileStatement inner).map fun s _ => s,
     (returnStatement inner).map fun s _ => s,
     (emitStatement inner).map fun s _ => s,
     (revertStatement inner).map fun s _ => s,
     bareStatement "break" .breakLoop,
     bareStatement "continue" .continueLoop,
     bareStatement "_" .placeholder,
     (keep same.expression <| last (word ";")).rule.map fun (e, _) start => .expr start e,
     (tupleDeclaration inner).map fun s _ => s,
     (variableDeclaration same inner).map fun d start => .varDecl start d]
    |>.construct "Statement" fun start _ build => build start

-- One level of nesting more.
def Recursive.deeper (inner : Recursive) : Recursive :=
  let flat : Recursive :=
    { expression := Grammar.expression inner
      operand := Grammar.operand inner
      typeName := Grammar.typeName inner
      statement := inner.statement }
  { flat with statement := Grammar.statement flat inner }

-- The constructs with at most `depth` levels of nesting. Each level reads a token of its own, so a
-- text has fewer levels than tokens.
def upToDepth : Nat → Recursive
  | 0 => ⟨.never "Expression", .never "Unary", .never "TypeName", .never "Statement"⟩
  | depth + 1 => (upToDepth depth).deeper

-- Definitions.

def parameter (g : Recursive) : Rule Parameter :=
  (keep g.typeName <| keep location <| last identifier.orEmpty).rule
    |>.construct "Parameter" fun start _ (type, location, name) => ⟨start, type, location, name⟩

-- `( args )`, if it is there.
def argumentList (g : Recursive) : Rule (Bool × List Expression) :=
  (skip (word "(") <| keep g.expression.commaListOrNone <| last (word ")")).rule.optional.map
    fun
      | some (args, _) => (true, args)
      | none => (false, [])

def structField (g : Recursive) : Rule StructField :=
  (keep g.typeName <| last identifier).rule
    |>.construct "StructField" fun start _ (type, name) => ⟨start, type, name⟩

def structDefinition (g : Recursive) : Rule StructDefinition :=
  let field := (keep (structField g) <| last (word ";")).rule.map Prod.fst
  (skip (word "struct") <| keep identifier <| skip (word "\x7b") <| keep field.many <|
    last (word "\x7d")).rule
    |>.construct "StructDefinition" fun start _ (name, fields, _) => ⟨start, name, fields⟩

def enumDefinition : Rule EnumDefinition :=
  (skip (word "enum") <| keep identifier <| skip (word "\x7b") <| keep identifier.commaListOrNone <|
    last (word "\x7d")).rule
    |>.construct "EnumDefinition" fun start _ (name, values, _) => ⟨start, name, values⟩

def eventParameter (g : Recursive) : Rule EventParameter :=
  (keep g.typeName <| keep (word "indexed").isPresent <| last identifier.orEmpty).rule
    |>.construct "EventParameter" fun start _ (type, indexed, name) => ⟨start, type, indexed, name⟩

def eventDefinition (g : Recursive) : Rule EventDefinition :=
  (skip (word "event") <| keep identifier <| skip (word "(") <|
    keep (eventParameter g).commaListOrNone <| skip (word ")") <|
    keep (word "anonymous").isPresent <| last (word ";")).rule
    |>.construct "EventDefinition" fun start _ (name, params, anonymous, _) =>
      ⟨start, name, params, anonymous⟩

def errorDefinition (g : Recursive) : Rule ErrorDefinition :=
  (skip (word "error") <| keep identifier <| skip (word "(") <|
    keep (parameter g).commaListOrNone <| skip (word ")") <| last (word ";")).rule
    |>.construct "ErrorDefinition" fun start _ (name, params, _) => ⟨start, name, params⟩

-- A body, or a semicolon where there is none.
def body (g : Recursive) : Rule (Option Block) :=
  choice [(word ";").map fun _ => none, (block g).map some]

def modifierDefinition (g : Recursive) : Rule ModifierDefinition :=
  let params : Rule (List Parameter) :=
    (skip (word "(") <| keep (parameter g).commaListOrNone <| last (word ")")).rule.optional.map
      fun p => (p.map Prod.fst).getD []
  (skip (word "modifier") <| keep identifier <| keep params <|
    keep (oneOf ["virtual", "override"]).many <| last (body g)).rule
    |>.construct "ModifierDefinition" fun start _ (name, params, attrs, body) =>
      ⟨start, name, params, attrs, body⟩

def modifierInvocation (g : Recursive) : Rule ModifierInvocation :=
  (skip (word "returns").absent <| keep identifier <| keep dottedRest <|
    last (argumentList g)).rule
    |>.construct "ModifierInvocation" fun start _ (name, more, hasArgs, args) =>
      ⟨start, name ++ more, hasArgs, args⟩

def functionAttribute (g : Recursive) : Rule FunctionAttribute :=
  let bases : Rule (List String) :=
    (skip (word "(") <| keep identifier <| keep identifier.afterCommas <|
      last (word ")")).rule.optional.map fun
        | some (first, more, _) => first :: more
        | none => []
  choice
    [(oneOf ["public", "private", "internal", "external"]).map fun w start =>
       FunctionAttribute.visibility start w,
     (oneOf ["pure", "view", "payable", "constant"]).map fun w start => .mutability start w,
     (word "virtual").map fun _ start => .isVirtual start,
     (skip (word "override") <| last bases).rule.map fun bases start => .isOverride start bases,
     (modifierInvocation g).map fun m start => .modifier start m]
    |>.construct "FunctionAttribute" fun start _ build => build start

def functionDefinition (g : Recursive) : Rule FunctionDefinition :=
  let returns : Rule (List Parameter) :=
    (skip (word "returns") <| skip (word "(") <| keep (parameter g) <|
      keep (parameter g).afterCommas <| last (word ")")).rule.optional.map fun
        | some (first, more, _) => first :: more
        | none => []
  (keep (oneOf ["function", "constructor", "fallback", "receive"]) <| keep identifier.orEmpty <|
    skip (word "(") <| keep (parameter g).commaListOrNone <| skip (word ")") <|
    keep (functionAttribute g).many <| keep returns <| last (body g)).rule
    |>.construct "FunctionDefinition" fun start stop (kind, name, params, attrs, returns, body) =>
      ⟨start, stop, kind, name, params, attrs, returns, body⟩

def stateVariable (g : Recursive) : Rule StateVariable :=
  (keep g.typeName <|
    keep (oneOf ["public", "private", "internal", "constant", "immutable", "override"]).many <|
    keep identifier <| keep (initialValue g) <| last (word ";")).rule
    |>.construct "StateVariable" fun start _ (type, attrs, name, value, _) =>
      ⟨start, type, attrs, name, value⟩

def usingDirective (g : Recursive) : Rule UsingDirective :=
  let target : Rule (Option TypeName) :=
    choice [(word "*").map fun _ => none, g.typeName.map some]
  (skip (word "using") <| keep identifier <| keep dottedRest <| skip (word "for") <| keep target <|
    keep (word "global").isPresent <| last (word ";")).rule
    |>.construct "UsingDirective" fun start _ (name, more, target, isGlobal, _) =>
      ⟨start, name ++ more, target, isGlobal⟩

def contractPart (g : Recursive) : Rule ContractPart :=
  choice
    [(usingDirective g).map fun d start => ContractPart.using start d,
     (structDefinition g).map fun d start => .struct start d,
     enumDefinition.map fun d start => .enum start d,
     (eventDefinition g).map fun d start => .event start d,
     (errorDefinition g).map fun d start => .error start d,
     (modifierDefinition g).map fun d start => .modifier start d,
     (functionDefinition g).map fun d start => .function start d,
     (stateVariable g).map fun d start => .variable start d]
    |>.construct "ContractPart" fun start _ build => build start

def inheritanceSpecifier (g : Recursive) : Rule InheritanceSpecifier :=
  (keep identifier <| keep dottedRest <| last (argumentList g)).rule
    |>.construct "InheritanceSpecifier" fun start _ (name, more, hasArgs, args) =>
      ⟨start, name ++ more, hasArgs, args⟩

def contractDefinition (g : Recursive) : Rule ContractDefinition :=
  let bases : Rule (List InheritanceSpecifier) :=
    (skip (word "is") <| keep (inheritanceSpecifier g) <|
      last (inheritanceSpecifier g).afterCommas).rule.optional.map fun
        | some (first, more) => first :: more
        | none => []
  (keep (word "abstract").isPresent <| keep (oneOf ["contract", "interface", "library"]) <|
    keep identifier <| keep bases <| skip (word "\x7b") <| keep (contractPart g).many <|
    last (word "\x7d")).rule
    |>.construct "ContractDefinition"
      fun start stop (isAbstract, kind, name, bases, parts, _) =>
        ⟨start, stop, isAbstract, kind, name, bases, parts⟩

def importDirective : Rule ImportDirective :=
  let symbols : Rule (List String) :=
    (skip (word "\x7b") <| keep identifier <| keep identifier.afterCommas <| skip (word "\x7d") <|
      last (word "from")).rule.optional.map fun
        | some (first, more, _) => first :: more
        | none => []
  let localName : Rule String :=
    (skip (word "as") <| last identifier).rule.orEmpty
  (skip (word "import") <| keep symbols <| keep (token .string) <| keep localName <|
    last (word ";")).rule
    |>.construct "ImportDirective" fun start _ (symbols, path, localName, _) =>
      ⟨start, symbols, path, localName⟩

def sourceUnitPart (g : Recursive) : Rule SourceUnitPart :=
  choice
    [(token .pragma).map fun text start => SourceUnitPart.pragma start text,
     importDirective.map fun d start => .importFile start d,
     (contractDefinition g).map fun d start => .contract start d,
     (structDefinition g).map fun d start => .struct start d,
     enumDefinition.map fun d start => .enum start d,
     (eventDefinition g).map fun d start => .event start d,
     (errorDefinition g).map fun d start => .error start d,
     (functionDefinition g).map fun d start => .function start d,
     (stateVariable g).map fun d start => .constant start d]
    |>.construct "SourceUnitPart" fun start _ build => build start

def sourceUnit (g : Recursive) : Rule SourceUnit :=
  (sourceUnitPart g).many.construct "SourceUnit" fun start _ parts => ⟨start, parts⟩

end Grammar

end RustContracts.Solidity
