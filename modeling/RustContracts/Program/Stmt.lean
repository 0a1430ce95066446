import RustContracts.Program.Registry

-- Statements of a resolved program.
namespace RustContracts.Program

open Text (Position)

structure EventField where
  name : String
  type : Ty
  indexed : Bool
deriving Inhabited

structure EventDecl where
  name : String
  fields : List EventField
  anonymous : Bool
  owner : String
  start : Position
deriving Inhabited

mutual

structure Block where
  start : Position
  stmts : List Stmt
  unchecked : Bool := false

inductive Stmt where
  | block (body : Block)
  -- one variable, or several from a tuple
  | decl (start : Position) (vars : List Param) (value : Expr)
  -- compound assignments have the operation on the right
  | assign (start : Position) (target value : Expr)
  | expr (start : Position) (value : Expr)
  | ifElse (start : Position) (cond : Expr) (whenTrue : Block) (whenFalse : Option Block)
  | whileLoop (start : Position) (cond : Expr) (body : Block) (testLast : Bool)
  | forLoop (start : Position) (init : Option Stmt) (cond : Option Expr) (post : Option Stmt)
      (body : Block)
  | returnValue (start : Position) (value : Option Expr)
  -- aborts unless the condition holds
  | require (start : Position) (cond : Expr) (error : ErrorEntry)
  | revert (start : Position) (error : ErrorEntry) (args : List Expr)
  | emit (start : Position) (event : EventDecl) (args : List Expr)
  | breakLoop (start : Position)
  | continueLoop (start : Position)
  -- where a modifier runs the body that it guards
  | placeholder (start : Position)

end

instance : Inhabited Block := ⟨{ start := {}, stmts := [] }⟩
instance : Inhabited Stmt := ⟨.block default⟩

namespace Stmt

def start : Stmt → Position
  | block b => b.start
  | decl p _ _ | assign p _ _ | expr p _ | ifElse p _ _ _ | whileLoop p _ _ _ | forLoop p _ _ _ _
  | returnValue p _ | require p _ _ | revert p _ _ | emit p _ _ | breakLoop p | continueLoop p
  | placeholder p => p

-- The expressions that a statement evaluates itself, without those of the statements inside it.
def directExprs : Stmt → List Expr
  | decl _ _ v => [v]
  | assign _ t v => [t, v]
  | expr _ x => [x]
  | ifElse _ c _ _ => [c]
  | whileLoop _ c _ _ => [c]
  | forLoop _ _ c _ _ => c.toList
  | returnValue _ v => v.toList
  | require _ c _ => [c]
  | revert _ _ args => args
  | emit _ _ args => args
  | block _ | breakLoop _ | continueLoop _ | placeholder _ => []

end Stmt

mutual

-- A statement and all inside it, each before what is inside it.
def Stmt.substmts : Stmt → List Stmt
  | .block b => b.substmts
  | s@(.ifElse _ _ t none) => s :: t.substmts
  | s@(.ifElse _ _ t (some e)) => s :: (t.substmts ++ e.substmts)
  | s@(.whileLoop _ _ b _) => s :: b.substmts
  | s@(.forLoop _ none _ none b) => s :: b.substmts
  | s@(.forLoop _ (some i) _ none b) => s :: (i.substmts ++ b.substmts)
  | s@(.forLoop _ none _ (some p) b) => s :: (p.substmts ++ b.substmts)
  | s@(.forLoop _ (some i) _ (some p) b) => s :: (i.substmts ++ p.substmts ++ b.substmts)
  | s => [s]

-- A block counts as a statement.
def Block.substmts : Block → List Stmt
  | ⟨start, stmts, unchecked⟩ => .block ⟨start, stmts, unchecked⟩ :: substmtsList stmts

def substmtsList : List Stmt → List Stmt
  | [] => []
  | s :: rest => s.substmts ++ substmtsList rest

end

mutual

-- Whether control cannot reach the end of a block: its last statement returns or reverts, or both
-- branches of it do.
def Block.endsInReturn : Block → Bool
  | ⟨_, stmts, _⟩ => lastReturns stmts

def lastReturns : List Stmt → Bool
  | [] => false
  | [s] => s.returns
  | _ :: rest => lastReturns rest

def Stmt.returns : Stmt → Bool
  | .returnValue _ _ => true
  | .revert _ _ _ => true
  | .block b => b.endsInReturn
  | .ifElse _ _ t (some e) => t.endsInReturn && e.endsInReturn
  | _ => false

end

end RustContracts.Program
