import RustContracts.Diagnostic.Basic
import RustContracts.Program.Contract
import RustContracts.Rust.Name

-- A contract with everything that it inherits, in one table each for storage, functions and modifiers.
namespace RustContracts.Program

-- Puts an implementation of a more derived class first; the table entry takes over its signature and
-- keeps its own name and kind. A function with a new key gets a new entry at the end.
def mergeFunction (table : List Function) (f : Function) : List Function :=
  if table.any (·.key = f.key) then
    table.map fun entry =>
      if entry.key = f.key then
        { entry with
          visibility := f.visibility
          mutability := f.mutability
          params := f.params
          returns := f.returns
          implementations := f.implementations.take 1 ++ entry.implementations }
      else entry
  else table ++ [{ f with implementations := f.implementations.take 1 }]

-- Modifiers are told apart by name alone; the entry keeps its signature.
def mergeModifier (table : List Function) (m : Function) : List Function :=
  if table.any (·.sourceName = m.sourceName) then
    table.map fun entry =>
      if entry.sourceName = m.sourceName then
        { entry with implementations := m.implementations.take 1 ++ entry.implementations }
      else entry
  else table ++ [{ m with implementations := m.implementations.take 1 }]

-- The parameters of a getter, the place that it reads and that place's type: a key for each mapping, an
-- index for each array.
def getterAccess (depth : Nat) (value : Expr) : Ty → List Param × Expr × Ty
  | .mapping key inner =>
    let name := "arg" ++ toString depth
    let read := .index value.start value (.var value.start name key) inner
    let (params, place, type) := getterAccess (depth + 1) read inner
    (⟨name, key⟩ :: params, place, type)
  | .array elem _ =>
    let name := "arg" ++ toString depth
    let read := .index value.start value (.var value.start name .uint256) elem
    let (params, place, type) := getterAccess (depth + 1) read elem
    (⟨name, .uint256⟩ :: params, place, type)
  | t => ([], value, t)

-- The function that reads a public field.
def getter (field : FieldDecl) : Function :=
  let (params, place, type) := getterAccess 0 (.field field.start field) field.type
  let returns : List Param := [⟨"", type⟩]
  { name := field.name
    sourceName := field.sourceName
    kind := .getter
    visibility := .isExternal
    mutability := .view
    params := params
    returns := returns
    implementations :=
      [{ owner := field.owner
         params := params
         returns := returns
         body := some { start := field.start, stmts := [.returnValue field.start (some place)] }
         implemented := true
         start := field.start }] }

-- Adds a getter for each public field whose name no function has.
def addGetters (table : List Function) (storage : List StorageField) : List Function :=
  storage.foldl (fun table field =>
    if field.isPublic && !table.any (·.sourceName = field.sourceName) then
      table ++ [getter field.toFieldDecl]
    else table) table

-- Functions that share a name get the number of their parameters behind it.
def nameOverloads (table : List Function) : List Function :=
  table.map fun f =>
    if 1 < (table.filter (·.sourceName = f.sourceName)).length then
      { f with name := Rust.Name.value f.sourceName ++ "_" ++ toString f.params.length }
    else f

-- The tables of a contract, from the classes of its chain, most derived first.
def ContractDecl.flatten (c : ContractDecl) (chain : List ContractDecl) : Contract :=
  let baseFirst := chain.reverse
  let storage := baseFirst.flatMap fun k => k.fields
  let functions := (baseFirst.flatMap fun k => k.functions).foldl mergeFunction []
  let modifiers := (baseFirst.flatMap fun k => k.modifiers).foldl mergeModifier []
  let functions := if c.kind = .contract then addGetters functions storage else functions
  { c with storage := storage, dispatch := nameOverloads functions, modifierTable := modifiers }

-- A concrete contract needs a body for each of its functions.
def Contract.checkImplemented (c : Contract) : Except Diagnostic Unit :=
  if c.kind = .contract && !c.isAbstract then
    match c.dispatch.find? fun f => !f.implementations.any Implementation.implemented with
    | some f =>
      .error { Diagnostic.invalidFunction c.start
          ("function '" ++ f.sourceName ++ "' has no implementation in '" ++ c.name ++ "'") with
        help := "implement it or mark the contract abstract" }
    | none => .ok ()
  else .ok ()

end RustContracts.Program
