import RustContracts.Emit.Function
import RustContracts.Program.Callers

-- Deployment. `_init` evaluates the arguments for base constructors, derived classes first, and then calls
-- an initializer for each class, base classes first.
namespace RustContracts.Emit

open Program
open Text (Position)

-- The implementation of a class's own constructor.
def constructorImpl? (c : Contract) : Option Implementation := c.constructor.bind (·.primary?)

def constructorParams (c : Contract) : List Param :=
  ((constructorImpl? c).map (·.params)).getD []

def needsInit (c : Contract) : Bool :=
  c.constructor.isSome || c.fields.any fun f => f.value.isSome

-- The calls of base constructors along a chain, most derived first.
def baseCallsOf (chain : List Contract) : List BaseCall := chain.flatMap fun c => c.baseCalls

def initRoutine (c : Contract) (caller : Bool) : Emit Routine := do
  let params ← rustParams (constructorParams c)
  return { name := "_init_" ++ trimRaw (Rust.Name.value c.name), params := params, caller := caller }

-- The variables that hold arguments of base constructors: class, parameter and identifier.
structure BoundArg where
  base : String
  param : String
  ident : String

-- Binds the arguments for one constructor, in a scope where the parameters of the constructor that
-- gives them stand for what was bound for it.
def bindArgs (base : String) (i : Nat) : List Param → List Expr →
    Emit (List Rust.Stmt × List BoundArg)
  | p :: params, arg :: args => do
    let x ← exprAs p.type arg
    let ident := Rust.Name.value base ++ "_" ++ trimRaw (paramName p i)
    let (stmts, bound) ← bindArgs base (i + 1) params args
    return (.letVar false ident "" (some x) :: stmts, ⟨base, p.name, ident⟩ :: bound)
  | _, _ => return ([], [])

-- The identifier bound for a parameter of a class; of two with one name the later.
def boundIdent? (bound : List BoundArg) (base param : String) : Option String :=
  (bound.reverse.find? fun b => b.base = base && b.param = param).map BoundArg.ident

-- Declares the parameters of the constructor that gives arguments.
def declareGiver (bound : List BoundArg) (giver : String) : Emit Unit := do
  let env ← read
  if giver != env.contract.name then
    let params := ((env.package.class? giver).map constructorParams).getD []
    params.forM fun p =>
      match boundIdent? bound giver p.name with
      | some ident => declare p.name ident
      | none => return

-- Binds the arguments for the constructors of base classes, most derived first. The most derived class
-- that gives arguments for a base wins.
def bindBaseArgs (calls : List BaseCall) (bound : List BoundArg) :
    List Contract → Emit (List Rust.Stmt × List BoundArg)
  | [] => return ([], bound)
  | c :: rest => do
    let call := calls.find? (·.base = c.name)
    let params := constructorParams c
    match c.constructor, call with
    | none, some call =>
      if !call.args.isEmpty then throw (.fault (.missingConstructor call.start c.name))
      bindBaseArgs calls bound rest
    | none, none => bindBaseArgs calls bound rest
    | some _, call =>
      if params.isEmpty then bindBaseArgs calls bound rest
      else
        match call with
        | none =>
          throw (.fault { Diagnostic.invalidFunction (← read).contract.start
              ("no arguments for the constructor of base '" ++ c.name ++ "'") with
            help := "pass them in the inheritance list or as a constructor modifier" })
        | some call =>
          if call.args.length != params.length then
            throw (.fault (.unexpected call.start (plural params.length "argument")
              (plural call.args.length "argument")))
          let (stmts, more) ← inScope do
            declareGiver bound call.declarer
            bindArgs c.name 0 params call.args
          let (later, all) ← bindBaseArgs calls (bound ++ more) rest
          return (stmts ++ later, all)

-- The arguments that the initializer of a class is called with.
def initArgs (main : Contract) (bound : List BoundArg) (c : Contract) : List Rust.Expr :=
  if c.name = main.name then
    (constructorParams main).zipIdx.map fun (p, i) => .ident (paramName p i)
  else (bound.filter (·.base = c.name)).map fun b => .ident b.ident

-- One call for each class.
def initCalls (main : Contract) (bound : List BoundArg) (caller : Bool) :
    List Contract → Emit (List Rust.Stmt × List (Contract × Routine))
  | [] => return ([], [])
  | c :: rest => do
    let r ← initRoutine c caller
    let x ← invoke r (initArgs main bound c)
    let (stmts, routines) ← initCalls main bound caller rest
    return (.expr (.tryOp x) :: stmts, (c, r) :: routines)

-- The assignments that initialize the fields of a class.
def fieldInits (c : Contract) : List Stmt :=
  c.fields.filterMap fun f => f.value.map fun v => .assign {} (.field {} f.toFieldDecl) v

-- The initializer of a class: its fields, then the body of its constructor.
def classInit (c : Contract) (r : Routine) : Emit Rust.Function := do
  enter false
  let impl := constructorImpl? c
  let body ← match impl, impl.bind (·.body) with
    | some i, some b => do
      let inner ← guarded b i.modifiers
      pure inner.stmts
    | _, _ => pure []
  let all : Block := { start := {}, stmts := fieldInits c ++ body }
  modifyFrame fun fr => { fr with mutated := mutatedVars all }
  let params ← declareParams ((impl.map (·.params)).getD []) r.params
  let r := { r with params := params }
  let shell ← routineShell r
  let written ← stmts all.stmts
  let tail := if all.endsInReturn then none else some (Rust.Expr.callPath "Ok" [.lit "()"])
  return { shell with body := some ⟨(← preamble r) ++ written, tail⟩ }

-- The initializers of classes.
def classInits : List (Contract × Routine) → Emit (List Rust.Function)
  | [] => return []
  | (c, r) :: rest => do
    let f ← classInit c r
    let fs ← classInits rest
    return f :: fs

-- What runs at deployment: the functions that callers from outside reach, and the initializers.
def deployment : Emit (List Rust.Function × List Rust.Function) := do
  let env ← read
  let main := env.contract
  let chain := env.package.chainOf main
  let classes := chain.filter needsInit
  let params := constructorParams main
  let calls := baseCallsOf chain
  if classes.isEmpty && params.isEmpty && calls.all (·.args.isEmpty) then
    return (← constructors none, [])
  let rparams ← rustParams params
  let caller := env.package.constructorNeedsCaller main
  let init : Routine := { name := "_init", params := rparams, caller := caller }
  enter false
  params.forM fun p => declare p.name (Rust.Name.value p.name)
  let (binds, bound) ← bindBaseArgs calls [] (chain.drop 1)
  let (runs, routines) ← initCalls main bound caller classes.reverse
  let shell ← routineShell init
  let initFunction : Rust.Function :=
    { shell with body := some ⟨binds ++ runs, some (.callPath "Ok" [.lit "()"])⟩ }
  let inits ← classInits routines
  return (← constructors (some init), initFunction :: inits)

end RustContracts.Emit
