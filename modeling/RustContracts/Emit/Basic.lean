import RustContracts.Diagnostic.Basic
import RustContracts.Program.Contract
import RustContracts.Rust.Name
import RustContracts.Rust.Print
import RustContracts.Target

-- The setting in which a contract is written in Rust: what is given, what is noted on the way, and the
-- variables of the function at hand.
namespace RustContracts.Emit

open Program

structure Env where
  package : Package
  contract : Contract
  target : Target

-- The names that a block introduces.
structure Scope where
  -- variables of the source with their identifiers
  locals : List (String × String) := []
  -- the variables that hold contract references, by interface and address
  refs : List (String × String) := []

structure Loop where
  number : Nat
  -- whether the body stands in a block of its own, which `continue` leaves
  resumes : Bool

namespace Loop

def label (l : Loop) : String := "l" ++ toString l.number

def resumeLabel (l : Loop) : String := "c" ++ toString l.number

end Loop

-- The function at hand.
structure Frame where
  -- whether it can be called from outside
  exposed : Bool := false
  -- innermost first
  scopes : List Scope := [{}]
  loops : List Loop := []
  results : List Param := []
  -- the variables that are changed after their declaration
  mutated : List String := []
  labels : Nat := 0
  temps : Nat := 0
  -- how many references each interface has
  refCounts : List (String × Nat) := []

-- A function that is written under a name of its own: the target of a super call or of a call that names
-- a base, or a library function.
structure Helper where
  name : String
  function : Function
  implementation : Option Implementation
  isLibrary : Bool

structure State where
  imports : List String := []
  -- the interfaces that are called
  interfaces : List String := []
  -- the helpers that are not written yet
  queue : List Helper := []
  -- the names of all helpers asked for so far, by key
  helperNames : List (String × String) := []
  frame : Frame := {}

end Emit

-- State stays as it is when a step fails.
abbrev Emit := ReaderT Emit.Env (ExceptT Stop (StateM Emit.State))

namespace Emit

open Program

-- Notes an import.
def use (path : String) : Emit Unit :=
  modify fun s => if s.imports.contains path then s else { s with imports := path :: s.imports }

-- The imports in order.
def importPaths : Emit (List String) := do
  return (← get).imports.mergeSort (· ≤ ·)

def noteInterface (name : String) : Emit Unit :=
  modify fun s =>
    if s.interfaces.contains name then s else { s with interfaces := name :: s.interfaces }

def modifyFrame (f : Frame → Frame) : Emit Unit :=
  modify fun s => { s with frame := f s.frame }

def frame : Emit Frame := do return (← get).frame

-- Starts a function.
def enter (exposed : Bool) : Emit Unit := modifyFrame fun _ => { exposed := exposed }

-- Names.

def modifyScope (f : Scope → Scope) : Emit Unit :=
  modifyFrame fun fr =>
    { fr with scopes := match fr.scopes with
        | [] => [f {}]
        | s :: rest => f s :: rest }

-- Runs a step with a scope of its own.
def inScope {α : Type} (act : Emit α) : Emit α := do
  modifyFrame fun fr => { fr with scopes := {} :: fr.scopes }
  let x ← act
  modifyFrame fun fr => { fr with scopes := fr.scopes.tail }
  return x

def declare (name ident : String) : Emit Unit :=
  modifyScope fun s => { s with locals := (name, ident) :: s.locals }

-- The identifier of a variable, from the innermost scope that has it.
def local? (name : String) : Emit (Option String) := do
  return (← frame).scopes.findSome? fun s => s.locals.lookup name

def isMutated (name : String) : Emit Bool := do
  return (← frame).mutated.contains name

def ref? (key : String) : Emit (Option String) := do
  return (← frame).scopes.findSome? fun s => s.refs.lookup key

-- A new variable for a contract reference.
def declareRef (key interface : String) : Emit String := do
  let count := ((← frame).refCounts.lookup interface).getD 0
  let name := Rust.Name.value interface ++ "_" ++ toString count
  modifyFrame fun fr => { fr with refCounts := (interface, count + 1) :: fr.refCounts }
  modifyScope fun s => { s with refs := (key, name) :: s.refs }
  return name

-- A new identifier.
def temp (stem : String) : Emit String := do
  modifyFrame fun fr => { fr with temps := fr.temps + 1 }
  return stem ++ "_" ++ toString (← frame).temps

-- Runs a step inside a new loop.
def inLoop {α : Type} (resumes : Bool) (act : Emit α) : Emit (Loop × α) := do
  let loop : Loop := ⟨(← frame).labels, resumes⟩
  modifyFrame fun fr => { fr with labels := fr.labels + 1, loops := loop :: fr.loops }
  let x ← act
  modifyFrame fun fr => { fr with loops := fr.loops.tail }
  return (loop, x)

def currentLoop? : Emit (Option Loop) := do return (← frame).loops.head?

-- Helpers.

-- A raw identifier without its mark.
def trimRaw (name : String) : String :=
  if name.startsWith "r#" && 2 < name.length then (name.drop 2).toString else name

-- The name of a helper; the first time that it is asked for it is queued.
def helperName (key : String) (helper : Helper) : Emit String := do
  match (← get).helperNames.lookup key with
  | some name => return name
  | none =>
    modify fun s =>
      { s with
        queue := s.queue ++ [helper]
        helperNames := (key, helper.name) :: s.helperNames }
    return helper.name

-- The helper for the implementation that a class gives to a function.
def implementationName (f : Function) (impl : Implementation) : Emit String :=
  helperName ("impl:" ++ impl.owner ++ ":" ++ f.key)
    { name := "_" ++ trimRaw f.name ++ "_" ++ Rust.Name.value impl.owner
      function := f
      implementation := some impl
      isLibrary := false }

def libraryName (library : String) (f : Function) : Emit String :=
  helperName ("lib:" ++ library ++ ":" ++ f.key)
    { name := Rust.Name.value library ++ "_" ++ trimRaw f.name
      function := f
      implementation := f.primary?
      isLibrary := true }

-- Takes the next helper from the queue.
def nextHelper? : Emit (Option Helper) := do
  match (← get).queue with
  | [] => return none
  | h :: rest =>
    modify fun s => { s with queue := rest }
    return some h

-- How a function is declared in Rust, without its body.
structure Routine where
  name : String
  -- the function that callers from outside reach here
  entry : Option Signature := none
  params : List Rust.Param := []
  -- the type of what it returns when it succeeds
  result : String := "()"
  mutates : Bool := true
  -- whether it is told its caller
  caller : Bool := false
  payable : Bool := false

def Routine.isExposed (r : Routine) : Bool := r.entry.isSome

-- The parts of a finished contract.
structure Module where
  name : String
  types : List Rust.Item := []
  storage : List Rust.Item := []
  events : List Rust.Item := []
  errors : List Rust.Item := []
  interfaces : List Rust.Item := []
  -- what can be called from outside
  entries : List Rust.Function := []
  helpers : List Rust.Function := []

-- The identifier of a parameter; one without a name gets its number.
def paramName (p : Param) (i : Nat) : String :=
  if p.name = "" then "_arg" ++ toString i else Rust.Name.value p.name

end Emit

end RustContracts
