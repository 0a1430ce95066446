import RustContracts.Emit.Constructor

-- A contract as a Rust file.
namespace RustContracts.Emit

open Program

-- The functions of the dispatch table: those that callers from outside reach, and the others.
def dispatched : List Function → Emit (List Rust.Function × List Rust.Function)
  | [] => return ([], [])
  | f :: rest => do
    let r ← dispatchRoutine f
    let written ← function r f f.primary?
    let (entries, helpers) ← dispatched rest
    return if r.isExposed then (written :: entries, helpers) else (entries, written :: helpers)

def helper (h : Helper) : Emit Rust.Function := do
  let r ← if h.isLibrary then libraryRoutine h.function h.name
    else functionRoutine h.function h.implementation h.name none
  function r h.function h.implementation

-- Writes helpers until none is asked for any more, which takes no more than `count` of them.
def drainHelpers : Nat → Emit (List Rust.Function)
  | 0 => return []
  | count + 1 => do
    match ← nextHelper? with
    | none => return []
    | some h =>
      let f ← helper h
      let fs ← drainHelpers count
      return f :: fs

-- There is a helper for each implementation at most, and for each pair of a library and a function.
def helperBound (p : Package) (c : Contract) : Nat :=
  (c.dispatch.flatMap fun f => f.implementations).length +
    p.classes.length * (p.classes.flatMap fun k => k.functions).length

-- The traits of the interfaces that are called.
def calledInterfaces : Emit (List Rust.Item) := do
  let called := (← get).interfaces
  let interfaces := ((← read).package.ofKind .interface).filter fun c => called.contains c.name
  return (← interfaces.mapM interfaceItems).flatten

def contract : Emit Rust.File := do
  let env ← read
  let p := env.package
  let c := env.contract
  let enums ← (p.visibleEnums c).mapM enumItem
  let structs ← (p.visibleStructs c).mapM structItem
  let storage ← storageItems
  let events ← eventItems (p.visibleEvents c)
  let errors ← errorItems p.registry.entries
  let (deployed, inits) ← deployment
  let (messages, internals) ← dispatched c.dispatch
  let helpers ← drainHelpers (helperBound p c)
  let interfaces ← calledInterfaces
  assemble
    { name := Rust.Name.value c.name
      types := enums ++ structs
      storage := storage
      events := events
      errors := errors
      interfaces := interfaces
      entries := deployed ++ messages
      helpers := inits ++ internals ++ helpers }

-- The Rust file for a contract of a package.
def file (p : Package) (c : Contract) (target : Target) : Except Stop Rust.File :=
  ((contract.run { package := p, contract := c, target := target }).run.run {}).1

end RustContracts.Emit
