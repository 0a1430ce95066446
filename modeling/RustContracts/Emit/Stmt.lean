import RustContracts.Emit.Place

-- Statements.
namespace RustContracts.Emit

open Program
open Text (Position)

-- The calls of other contracts that a statement makes itself.
def externalCalls (s : Stmt) : List (String × Signature × Expr) :=
  (s.directExprs.flatMap Expr.subexprs).filterMap fun
    | .externalCall _ interface method address _ => some (interface, method, address)
    | _ => none

-- Declares references for calls of other contracts, each unless there is one for the same interface and
-- address already.
def declareRefs : List (String × Signature × Expr) → Emit (List Rust.Stmt)
  | [] => return []
  | (interface, method, address) :: rest => do
    let account ← exprAs (.address false) address
    let key := refKey interface account
    let here ← do
      match ← ref? key with
      | some _ => pure []
      | none =>
        let (value, type) ← externalRef interface account
        noteInterface interface
        let name ← declareRef key interface
        pure [Rust.Stmt.letVar method.mutability.mutates name type (some value)]
    let more ← declareRefs rest
    return here ++ more

-- A statement behind the references that it needs.
def withRefs (s : Stmt) (written : Emit (List Rust.Stmt)) : Emit (List Rust.Stmt) := do
  let refs ← declareRefs (externalCalls s)
  let stmts ← written
  return refs ++ stmts

-- `return Err(...)`; the arguments are as the error declares them.
def abort (entry : ErrorEntry) (args : List Expr) : Emit Rust.Stmt := do
  let types := ((entry.custom.map fun d => d.fields).getD []).map Param.type
  let xs ← exprsAs types args
  let e ← errorValue entry xs
  return .returnValue (some (.callPath "Err" [e]))

-- What a function returns that is left without a value: its named results, and zeros for the others.
def defaultResults : List Param → Emit (List Rust.Expr)
  | [] => return []
  | r :: rest => do
    let x ← do
      if r.name = "" then zero r.type
      else pure (.ident ((← local? r.name).getD ""))
    let xs ← defaultResults rest
    return x :: xs

def defaultResult : Emit Rust.Expr := do
  match ← defaultResults (← frame).results with
  | [] => return .lit "()"
  | [x] => return x
  | xs => return .tuple xs

def resultValue : Option Expr → Emit Rust.Expr
  | none => defaultResult
  | some e => do
    match (← frame).results, e with
    | [], _ =>
      throw (.fault (.unexpected e.start "no return value" ("expression of type " ++ e.type.text)))
    | [r], _ => exprAs r.type e
    | rs, .tuple p elements =>
      if elements.length != rs.length then
        throw (.fault (.unexpected p (plural rs.length "value") (plural elements.length "value")))
      return .tuple (← exprsAs (rs.map Param.type) elements)
    | _, _ => expr e

-- The declaration of one variable, or of several from a tuple.
def declareVars (vars : List Param) (value : Expr) : Emit (List Rust.Stmt) := do
  match vars with
  | [v] =>
    let t ← typeText v.type
    let x ← exprAs v.type value
    let ident := Rust.Name.value v.name
    declare v.name ident
    return [.letVar (← isMutated v.name) ident t (some x)]
  | vars =>
    let x ← exprAs (.tuple (vars.map Param.type)) value
    let names ← vars.mapM fun v => do
      let ident := Rust.Name.value v.name
      declare v.name ident
      return if ← isMutated v.name then "mut " ++ ident else ident
    return [.letVar false ("(" ++ ", ".intercalate names ++ ")") "" (some x)]

-- An expression as a statement; elements are added to and taken from arrays only here.
def exprStmt (e : Expr) : Emit (List Rust.Stmt) := do
  match e with
  | .push _ array value =>
    let elem := match array.type with
      | .array t _ => t
      | _ => value.type
    let x ← exprAs elem value
    changeTarget array (.push x)
  | .pop _ array => changeTarget array .pop
  | e => return [.expr (← expr e)]

-- `break` and `continue`. A body that stands in a block of its own is left by leaving that block.

def breakStmt (start : Position) : Emit Rust.Stmt := do
  match ← currentLoop? with
  | some l => return .breakLoop (if l.resumes then l.label else "")
  | none => throw (.fault (.unexpected start "loop" "break"))

def continueStmt (start : Position) : Emit Rust.Stmt := do
  match ← currentLoop? with
  | some l => return if l.resumes then .breakLoop l.resumeLabel else .continueLoop ""
  | none => throw (.fault (.unexpected start "loop" "continue"))

mutual

-- Whether code continues the loop that it stands in; inner loops have their own.
def continues : List Stmt → Bool
  | [] => false
  | s :: rest => continuesStmt s || continues rest

def continuesStmt : Stmt → Bool
  | .continueLoop _ => true
  | .block b => continuesBlock b
  | .ifElse _ _ t none => continuesBlock t
  | .ifElse _ _ t (some e) => continuesBlock t || continuesBlock e
  | _ => false

def continuesBlock : Block → Bool
  | ⟨_, stmts, _⟩ => continues stmts

end

-- Whether a block declares variables itself.
def declaresVars (b : Block) : Bool :=
  b.stmts.any fun
    | .decl _ _ _ => true
    | _ => false

-- Whether a branch is no more than another `if`, whose condition needs no references.
def isElseIf (b : Block) : Bool :=
  match b.stmts with
  | [s] =>
    match s with
    | .ifElse _ _ _ _ => (externalCalls s).isEmpty
    | _ => false
  | _ => false

-- What follows `else`: another `if` if the branch is no more than that, or a block.
def elseBranch (source : Block) (written : Rust.Block) : Rust.Expr :=
  match isElseIf source, written with
  | true, ⟨[.expr e], none⟩ => e
  | _, b => .block b

-- `if !cond { stmt }`
def ifNot (cond : Rust.Expr) (s : Rust.Stmt) : Rust.Stmt :=
  .expr (.ifElse "" cond.not ⟨[s], none⟩ none)

-- A loop that runs its body before each test.
def doWhile (l : Loop) (cond : Rust.Expr) (body : Rust.Block) : Rust.Stmt :=
  if l.resumes then
    .loop l.label
      ⟨[.labeled l.resumeLabel body, ifNot cond (.breakLoop l.label)], none⟩
  else .loop "" ⟨body.stmts ++ [ifNot cond (.breakLoop "")], none⟩

-- A loop with a step after each run of the body. A body that declares variables stands in a block, so
-- that the step does not see them.
def stepLoop (l : Loop) (cond : Option Rust.Expr) (ownBlock : Bool) (body : Rust.Block)
    (post : List Rust.Stmt) : Rust.Stmt :=
  let inner :=
    if l.resumes then [.labeled l.resumeLabel body]
    else if ownBlock && !post.isEmpty then [.expr (.block body)]
    else body.stmts
  let label := if l.resumes then l.label else ""
  match cond with
  | some c => .whileLoop label c ⟨inner ++ post, none⟩
  | none => .loop label ⟨inner ++ post, none⟩

mutual

def block : Block → Emit Rust.Block
  | ⟨_, body, _⟩ => do
    let written ← inScope (stmts body)
    return ⟨written, none⟩

-- Statements, each behind the references that it needs.
def stmts : List Stmt → Emit (List Rust.Stmt)
  | [] => return []
  | s :: rest => do
    let written ← withRefs s (stmt s)
    let more ← stmts rest
    return written ++ more

-- A statement that may be missing.
def optionalStmt : Option Stmt → Emit (List Rust.Stmt)
  | none => return []
  | some s => withRefs s (stmt s)

def stmt : Stmt → Emit (List Rust.Stmt)
  | .block b => do
    let written ← block b
    return [.expr (.block written)]
  | .decl _ vars value => declareVars vars value
  | .assign _ target value => do
    let x ← exprAs target.type value
    assign x target
  | .expr _ e => exprStmt e
  | .ifElse _ cond whenTrue none => do
    let c ← exprAs .bool cond
    let t ← block whenTrue
    return [.expr (.ifElse "" c t none)]
  | .ifElse _ cond whenTrue (some whenFalse) => do
    let c ← exprAs .bool cond
    let t ← block whenTrue
    let e ← block whenFalse
    return [.expr (.ifElse "" c t (some (elseBranch whenFalse e)))]
  | .whileLoop _ cond body false => do
    let c ← exprAs .bool cond
    let (_, b) ← inLoop false (block body)
    return [.whileLoop "" c b]
  | .whileLoop _ cond body true => do
    let (l, b) ← inLoop (continuesBlock body) (block body)
    let c ← exprAs .bool cond
    return [doWhile l c b]
  | .forLoop _ init cond post body =>
    inScope do
      let i ← optionalStmt init
      let c ← cond.mapM (exprAs .bool)
      let (l, b) ← inLoop (post.isSome && continuesBlock body) (block body)
      let p ← optionalStmt post
      let loop := stepLoop l c (declaresVars body) b p
      return if i.isEmpty then [loop] else [.expr (.block ⟨i ++ [loop], none⟩)]
  | .returnValue _ value => do
    let x ← resultValue value
    return [.returnValue (some (.callPath "Ok" [x]))]
  | .require _ cond entry => do
    let c ← exprAs .bool cond
    let out ← abort entry []
    return [ifNot c out]
  | .revert _ entry args => do
    let out ← abort entry args
    return [out]
  | .emit _ ev args => do
    let xs ← exprsAs (ev.fields.map (·.type)) args
    let s ← emitEvent ev xs
    return [s]
  | .breakLoop p => do
    let s ← breakStmt p
    return [s]
  | .continueLoop p => do
    let s ← continueStmt p
    return [s]
  | .placeholder p => throw (.fault (.unexpected p "statement" "'_' outside a modifier"))

end

end RustContracts.Emit
