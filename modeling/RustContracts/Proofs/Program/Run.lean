import RustContracts.Program.Stmt
import RustContracts.Proofs.Rust.Flow

-- How statements run on variables: which variable a name means, what is in scope where and why a run is
-- left. What expressions and single steps do is left open, but they know no variables besides those that
-- occur in them.
namespace RustContracts.Program

open RustContracts.Flow

-- The variables in an expression, as often as they occur.
def Expr.vars (e : Expr) : List String :=
  e.subexprs.filterMap fun
    | .var _ name _ => some name
    | _ => none

namespace Stmt

-- The variables in the expressions that a statement evaluates itself.
def vars (s : Stmt) : List String := s.directExprs.flatMap Expr.vars

-- The variables that a statement leaves in scope.
def declares : Stmt → List String
  | decl _ vars _ => vars.map Param.name
  | _ => []

end Stmt

namespace Run

variable {V σ : Type}

-- Variables with their values, innermost first. A name means its innermost variable.
abbrev Stack (V : Type) := List (String × V)

namespace Stack

def names (s : Stack V) : List String := s.map Prod.fst

def put (name : String) (v : V) : Stack V → Stack V
  | [] => []
  | (n, w) :: rest => if n = name then (n, v) :: rest else (n, w) :: put name v rest

def putAll (values : String → V) : List String → Stack V → Stack V
  | [], s => s
  | n :: rest, s => putAll values rest (put n (values n) s)

-- The values of variables that are all in scope.
def reads (s : Stack V) : List String → Option (List V)
  | [] => some []
  | n :: rest =>
    match s.lookup n, reads s rest with
    | some v, some vs => some (v :: vs)
    | _, _ => none

end Stack

-- What expressions and steps do, with and without checks of arithmetic, given the values of the variables in
-- them; nothing where they abort. A step gives values to the variables that it declares, or else new ones to
-- the variables that occur in it.
structure Meaning (V σ : Type) where
  test : Bool → Expr → List V → σ → Option Bool × σ
  values : Bool → List Expr → List V → σ → Option (List V) × σ
  step : Bool → Stmt → List V → σ → Option (String → V) × σ

-- Why code is left.
inductive Exit (V : Type) where
  | broke
  | continued
  | returned (values : List V)
  | reverted (error : ErrorEntry) (args : List V)
  | aborted
  | outOfFuel
  -- at code without a meaning, as a variable that is not in scope
  | stuck
  -- by a return inside a guarded body
  | cut

namespace Exit

def isBreak : Exit V → Bool
  | broke => true
  | _ => false

def isContinue : Exit V → Bool
  | continued => true
  | _ => false

-- Runs that say nothing of the code: without a meaning, or left from inside a guarded body.
def isLost : Exit V → Bool
  | stuck | cut => true
  | _ => false

theorem isContinue_of_isLost {e : Exit V} (h : e.isLost = true) : e.isContinue = false := by
  cases e with
  | continued => cases h
  | _ => rfl

theorem isBreak_of_isLost {e : Exit V} (h : e.isLost = true) : e.isBreak = false := by
  cases e with
  | broke => cases h
  | _ => rfl

end Exit

-- Code that runs on variables and the rest of the world.
abbrev Code (V σ : Type) := Act (Exit V) (Stack V × σ)

section Steps

variable {α : Type}

-- Goes on with what is made of the values of variables.
def given (names : List String) (f : List V → σ → Option α × σ) (next : α → Code V σ) : Code V σ := fun x =>
  match x.1.reads names with
  | none => (some .stuck, x)
  | some vs =>
    match f vs x.2 with
    | (some a, w) => next a (x.1, w)
    | (none, w) => (some .aborted, (x.1, w))

def declare (vars : List String) (values : String → V) : Code V σ := fun x =>
  (none, (vars.map (fun n => (n, values n)) ++ x.1, x.2))

def change (vars : List String) (values : String → V) : Code V σ := fun x =>
  (none, (x.1.putAll values vars, x.2))

-- Variables end with the block that declares them, however it is left.
def enclosed (a : Code V σ) : Code V σ := fun x =>
  ((a x).1, ((a x).2.1.drop ((a x).2.1.length - x.1.length), (a x).2.2))

def turning (fuel : Nat) (turn : Code V σ) : Code V σ :=
  turns Exit.isContinue Exit.isBreak .outOfFuel turn fuel

-- Code without a meaning.
def noHole (_ : Bool) : Code V σ := leave .stuck

end Steps

section Statements

variable (M : Meaning V σ) (fuel : Nat) (back : Bool → Option Expr → Code V σ)

def choose (unchecked : Bool) (c : Expr) (a b : Code V σ) : Code V σ :=
  given c.vars (M.test unchecked c) fun yes => if yes then a else b

-- A loop without a condition goes on.
def chooseOn (unchecked : Bool) : Option Expr → (a b : Code V σ) → Code V σ
  | some c, a, b => choose M unchecked c a b
  | none, a, _ => a

mutual

-- `back` is what a return does and `hole` what the placeholder does, which does not stand at the head of a
-- `for`. `fuel` bounds how often each loop turns.
def exec (hole : Bool → Code V σ) (unchecked : Bool) : Stmt → Code V σ
  | .block b => execBlock hole unchecked b
  | .decl p vars value =>
    given value.vars (M.step unchecked (.decl p vars value)) (declare (vars.map Param.name))
  | .assign p t v =>
    given (Stmt.assign p t v).vars (M.step unchecked (.assign p t v)) (change (Stmt.assign p t v).vars)
  | .expr p x => given (Stmt.expr p x).vars (M.step unchecked (.expr p x)) (change (Stmt.expr p x).vars)
  | .emit p event args =>
    given (Stmt.emit p event args).vars (M.step unchecked (.emit p event args))
      (change (Stmt.emit p event args).vars)
  | .ifElse _ c t e => choose M unchecked c (execBlock hole unchecked t) (execElse hole unchecked e)
  | .whileLoop _ c b false =>
    turning fuel (choose M unchecked c (execBlock hole unchecked b) (leave .broke))
  | .whileLoop _ c b true =>
    turning fuel (seq (catching Exit.isContinue (execBlock hole unchecked b))
      (choose M unchecked c skip (leave .broke)))
  | .forLoop _ init c post b =>
    enclosed (seq (execHead unchecked init)
      (turning fuel (chooseOn M unchecked c
        (seq (catching Exit.isContinue (execBlock hole unchecked b)) (enclosed (execHead unchecked post)))
        (leave .broke))))
  | .returnValue _ v => back unchecked v
  | .require _ c error => choose M unchecked c skip (leave (.reverted error []))
  | .revert _ error args =>
    given (args.flatMap Expr.vars) (M.values unchecked args) fun vs => leave (.reverted error vs)
  | .breakLoop _ => leave .broke
  | .continueLoop _ => leave .continued
  | .placeholder _ => hole unchecked

def execBlock (hole : Bool → Code V σ) (unchecked : Bool) : Block → Code V σ
  | ⟨_, stmts, isUnchecked⟩ => enclosed (execAll hole (unchecked || isUnchecked) stmts)

def execElse (hole : Bool → Code V σ) (unchecked : Bool) : Option Block → Code V σ
  | none => skip
  | some b => execBlock hole unchecked b

def execHead (unchecked : Bool) : Option Stmt → Code V σ
  | none => skip
  | some s => exec noHole unchecked s

def execAll (hole : Bool → Code V σ) (unchecked : Bool) : List Stmt → Code V σ
  | [] => skip
  | s :: rest => seq (exec hole unchecked s) (execAll hole unchecked rest)

end

end Statements

-- The variables in scope behind statements.
def scopeAfter (scope : List String) : List Stmt → List String
  | [] => scope
  | s :: rest => scopeAfter (s.declares ++ scope) rest

theorem scopeAfter_eq (scope : List String) (code : List Stmt) :
    ∃ inner, scopeAfter scope code = inner ++ scope := by
  induction code generalizing scope with
  | nil => exact ⟨[], rfl⟩
  | cons s code ih =>
      obtain ⟨inner, h⟩ := ih (s.declares ++ scope)
      exact ⟨inner ++ s.declares, by rw [scopeAfter, h, List.append_assoc]⟩

mutual

-- The statements inside one with the variables in scope at each.
def visits (scope : List String) : Stmt → List (List String × Stmt)
  | .block b => visitsBlock scope b
  | s@(.ifElse _ _ t e) => (scope, s) :: (visitsBlock scope t ++ visitsElse scope e)
  | s@(.whileLoop _ _ b _) => (scope, s) :: visitsBlock scope b
  | s@(.forLoop _ init _ post b) =>
    visitsHead scope init ++ (scopeAfter scope init.toList, s) ::
      (visitsBlock (scopeAfter scope init.toList) b ++ visitsHead (scopeAfter scope init.toList) post)
  | s => [(scope, s)]

def visitsBlock (scope : List String) : Block → List (List String × Stmt)
  | ⟨_, stmts, _⟩ => visitsAll scope stmts

def visitsElse (scope : List String) : Option Block → List (List String × Stmt)
  | none => []
  | some b => visitsBlock scope b

def visitsHead (scope : List String) : Option Stmt → List (List String × Stmt)
  | none => []
  | some s => visits scope s

def visitsAll (scope : List String) : List Stmt → List (List String × Stmt)
  | [] => []
  | s :: rest => visits scope s ++ visitsAll (s.declares ++ scope) rest

end

-- The variables that statements use and do not declare before.
def freeNames (code : List Stmt) : List String :=
  (visitsAll [] code).flatMap fun (scope, s) => s.vars.filter (· ∉ scope)

end Run

end RustContracts.Program
