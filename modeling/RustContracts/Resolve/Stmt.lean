import RustContracts.Resolve.Expr

-- From statements as written to resolved ones.
namespace RustContracts.Resolve

open Program
open Solidity (Expression Operand Suffix Primary VariableDeclaration TupleVariable Statement
  SimpleStatement StepOp)
open Text (Position)

mutual

-- Only variables, storage and their parts can be assigned, and no mapping as a whole.
def assignable (start : Position) : Expr → Resolving Unit
  | .var _ _ _ | .index _ _ _ _ | .member _ _ _ _ => return
  | .field _ d => do
    if d.type.isMapping then
      throw (.badMapping start ("mapping '" ++ d.sourceName ++ "' cannot be assigned as a whole"))
  | .tuple _ elements => allAssignable start elements
  | e => throw (.unexpected start "assignable expression" e.describe)

def allAssignable (start : Position) : List Expr → Resolving Unit
  | [] => return
  | e :: rest => do
    assignable start e
    allAssignable start rest

end

-- `target++` and `target--`, on either side.
def stepStmt (start : Position) (op : StepOp) (target : Resolving Expr) : Resolving Stmt := do
  let x ← target
  assignable start x
  return .assign start x (newBinary start op.binary x (.int start 1))

-- A reason to abort has to be a string literal.
def message (e : Expression) : Resolving String := do
  match ← expr e with
  | .str _ s => return s
  | x => throw (.messageType e.start x.describe)

-- `require(cond, message)` and `assert(cond)`, unless a variable has that name; none for any other
-- call.
def requireStmt? (start : Position) (primary : Primary) (suffixes : List Suffix) :
    Resolving (Option Stmt) := do
  match primary with
  | .ident name =>
    if !(name == "require" || name == "assert") || (← local? name).isSome then return none
    let wrong (n : Nat) : Resolving (Option Stmt) :=
      throw (.unexpected start (name ++ "(condition[, message])")
        ("call with " ++ plural n "argument"))
    match suffixes with
    | [.call _ args] =>
      match args with
      | [cond] =>
        let c ← expr cond
        let entry ← registerMessage (if name = "assert" then "assertion failed" else "")
        return some (.require start c entry)
      | [cond, reason] =>
        if name = "assert" then wrong 2
        else
          let c ← expr cond
          let entry ← registerMessage (← message reason)
          return some (.require start c entry)
      | _ => wrong args.length
    | [.namedCall _ args] => wrong args.length
    | _ => return none
  | _ => return none

-- An expression in the place of a statement.
def exprStmt (e : Expression) : Resolving Stmt := do
  match e.assigned with
  | some assigned =>
    let target ← conditional e.start e.target
    assignable e.start target
    let value ← expr assigned.value
    match assigned.op.compound with
    | some op => return .assign e.start target (newBinary e.start op target value)
    | none => return .assign e.start target value
  | none =>
    match e.operand? with
    | some (.unary _ (.step op) inner) => stepStmt e.start op (operand inner)
    | some (.unary _ .delete inner) =>
      let target ← operand inner
      assignable e.start target
      return .assign e.start target (.zero e.start target.type)
    | some (.term start primary suffixes) =>
      match suffixes.getLast? with
      | some (.step _ op) => stepStmt e.start op (operand (.term start primary suffixes.dropLast))
      | _ =>
        match ← requireStmt? start primary suffixes with
        | some s => return s
        | none => return .expr e.start (← expr e)
    | _ => return .expr e.start (← expr e)

def varDecl (d : VariableDeclaration) : Resolving Stmt := do
  let t ← typeName (← read).contract d.type
  if t.isMapping then
    throw (.badMapping d.start ("local variable '" ++ d.name ++ "' cannot be a mapping"))
  let value ← match d.value with
    | some v => expr v
    | none => pure (.zero d.start t)
  declareLocal ⟨d.name, t⟩
  return .decl d.start [⟨d.name, t⟩] value

def tupleVars : List TupleVariable → Resolving (List Param)
  | [] => return []
  | v :: rest => do
    let t ← typeName (← read).contract v.type
    declareLocal ⟨v.name, t⟩
    return ⟨v.name, t⟩ :: (← tupleVars rest)

-- What is called in a statement such as `emit E(args)`: its name and the arguments.
def calledName? (e : Expression) : Option (String × CallArgs) :=
  match e.operand? with
  | some (.term _ (.ident name) [.call start args]) =>
    some (name, { start := start, positional := actions args })
  | some (.term _ (.ident name) [.namedCall start args]) =>
    some (name, { start := start, named := namedActions args })
  | _ => none

def event? (name : String) : Resolving (Option EventDecl) := do
  let inherited := (← chain).flatMap fun c => c.events
  return (inherited ++ (← read).outline.events).find? (·.name = name)

def error? (name : String) : Resolving (Option CustomError) := do
  let inherited := (← chain).flatMap fun c => c.errors
  return (inherited ++ (← read).outline.errors).find? (·.name = name)

def emitStmt (start : Position) (e : Expression) : Resolving Stmt := do
  match calledName? e with
  | none => throw (.unexpected start "event invocation" e.describe)
  | some (name, args) =>
    match ← event? name with
    | none => throw (.unexpected start "event" ("'" ++ name ++ "'"))
    | some ev =>
      let xs ← args.inOrder (ev.fields.map (·.name))
      if xs.length != ev.fields.length then
        throw (.unexpected start (plural ev.fields.length "argument")
          (plural xs.length "argument"))
      return .emit start ev xs

-- `revert()`, `revert(message)` and `revert E(args)`; the first two look like tuples.
def revertStmt (start : Position) (e : Expression) : Resolving Stmt := do
  match e.operand? with
  | some (.term _ (.tuple elements) []) =>
    match elements with
    | [] => return .revert start (← registerMessage "") []
    | [reason] => return .revert start (← registerMessage (← message reason)) []
    | _ => throw (.messageType e.start "tuple")
  | _ =>
    match calledName? e with
    | none => throw (.messageType e.start e.describe)
    | some (name, args) =>
      match ← error? name with
      | none => throw (.messageType e.start ("'" ++ name ++ "' is not an error"))
      | some decl =>
        let xs ← args.inOrder (decl.fields.map (·.name))
        if xs.length != decl.fields.length then
          throw (.unexpected e.start (plural decl.fields.length "argument")
            (plural xs.length "argument"))
        return .revert start decl.entry xs

def initStmt : SimpleStatement → Resolving Stmt
  | .expr _ e => exprStmt e
  | .varDecl _ d => varDecl d

-- Code inside a loop.
def looping {α : Type} (act : Resolving α) : Resolving α :=
  withReader (fun env => { env with inLoop := true }) act

mutual

def block : Solidity.Block → Resolving Block
  | ⟨start, _, statements⟩ => do
    let body ← inScope (stmts statements)
    return { start := start, stmts := body }

def stmts : List Statement → Resolving (List Stmt)
  | [] => return []
  | s :: rest => do
    let x ← stmt s
    let more ← stmts rest
    return x :: more

-- The body of a branch or loop, which may be a single statement.
def nested : Statement → Resolving Block
  | .block _ b => block b
  | s => do
    let x ← inScope (stmt s)
    return { start := s.start, stmts := [x] }

def stmt : Statement → Resolving Stmt
  | .block _ b => do
    let body ← block b
    return .block body
  | .unchecked _ b => do
    let body ← block b
    return .block { body with unchecked := true }
  | .ifElse start cond whenTrue none => do
    let c ← expr cond
    let t ← nested whenTrue
    return .ifElse start c t none
  | .ifElse start cond whenTrue (some whenFalse) => do
    let c ← expr cond
    let t ← nested whenTrue
    let e ← nested whenFalse
    return .ifElse start c t (some e)
  | .forLoop start init cond post body =>
    inScope do
      let i ← init.mapM initStmt
      let c ← cond.mapM expr
      let p ← post.mapM exprStmt
      let b ← looping (nested body)
      return .forLoop start i c p b
  | .whileLoop start cond body => do
    let c ← expr cond
    let b ← looping (nested body)
    return .whileLoop start c b false
  | .doWhile start body cond => do
    let b ← looping (nested body)
    let c ← expr cond
    return .whileLoop start c b true
  | .returnValue start value => do
    let v ← value.mapM expr
    return .returnValue start v
  | .emit start e => emitStmt start e
  | .revert start e => revertStmt start e
  | .breakLoop start => do
    if (← read).inLoop then return .breakLoop start
    throw (.unexpected start "statement" "'break' outside a loop")
  | .continueLoop start => do
    if (← read).inLoop then return .continueLoop start
    throw (.unexpected start "statement" "'continue' outside a loop")
  | .placeholder start => do
    if (← read).inModifier then return .placeholder start
    throw (.unexpected start "statement" "'_' outside a modifier")
  | .expr _ e => exprStmt e
  | .tupleDecl start vars value => do
    let v ← expr value
    let params ← tupleVars vars
    return .decl start params v
  | .varDecl _ d => varDecl d

end

end RustContracts.Resolve
