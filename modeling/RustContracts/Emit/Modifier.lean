import RustContracts.Emit.Stmt

-- Bodies wrapped in the modifiers that guard them, and the variables that a body changes.
namespace RustContracts.Emit

open Program
open Text (Position)

mutual

-- A modifier's code with the guarded body in place of each placeholder.
def fillStmt (body : Block) : Stmt → Stmt
  | .placeholder _ => .block body
  | .block b => .block (fillBlock body b)
  | .ifElse p c t none => .ifElse p c (fillBlock body t) none
  | .ifElse p c t (some e) => .ifElse p c (fillBlock body t) (some (fillBlock body e))
  | .whileLoop p c b testLast => .whileLoop p c (fillBlock body b) testLast
  | .forLoop p i c s b => .forLoop p i c s (fillBlock body b)
  | s => s

def fillBlock (body : Block) : Block → Block
  | ⟨start, stmts, isUnchecked⟩ => ⟨start, fillStmts body stmts, isUnchecked⟩

def fillStmts (body : Block) : List Stmt → List Stmt
  | [] => []
  | s :: rest => fillStmt body s :: fillStmts body rest

end

-- The one implementation of a modifier that has a body, with that body.
def modifierBody (call : ModifierCall) : Emit (Implementation × Block) := do
  let implementations :=
    (((← read).contract.modifier? call.name).map fun m => m.implementations).getD []
  match implementations.filterMap fun i => i.body.map fun b => (i, b) with
  | [found] => return found
  | found => throw (.fault (.modifierCount call.start call.name found.length))

-- A body inside one modifier, whose parameters are variables with the arguments as values.
def guardWith (call : ModifierCall) (body : Block) : Emit Block := do
  let (modifier, code) ← modifierBody call
  if call.args.length != modifier.params.length then
    throw (.fault (.unexpected call.start (plural modifier.params.length "argument")
      (plural call.args.length "argument")))
  let bound := (modifier.params.zip call.args).map fun (p, arg) => Stmt.decl {} [p] arg
  return { start := {}, stmts := bound ++ fillStmts body code.stmts }

-- A body inside modifiers, the first outermost.
def guarded (body : Block) : List ModifierCall → Emit Block
  | [] => return body
  | call :: rest => do
    let inner ← guarded body rest
    guardWith call inner

mutual

-- The variables that an assignment to a target changes.
def changedBy : Expr → List String
  | .tuple _ elements => changedByAll elements
  | target =>
    match accessPath target with
    | (.var _ name _, _) => [name]
    | _ => []

def changedByAll : List Expr → List String
  | [] => []
  | e :: rest => changedBy e ++ changedByAll rest

end

-- The variables that a statement changes itself.
def changedIn : Stmt → List String
  | .assign _ target _ => changedBy target
  | .expr _ (.push _ array _) => changedBy array
  | .expr _ (.pop _ array) => changedBy array
  | _ => []

-- The variables that a body changes.
def mutatedVars (b : Block) : List String := b.substmts.flatMap changedIn

end RustContracts.Emit
