import RustContracts.Program.Callers
import RustContracts.Resolve.Declare

-- A package from a source tree: declarations first, then the code of its functions.
namespace RustContracts.Resolve

open Program

-- Replaces the implementation that code belongs to.
def updateImplementation (code : CodeOwner) (f : Implementation → Implementation)
    (c : ContractDecl) : ContractDecl :=
  let inFunction (g : Function) : Function :=
    { g with implementations := g.implementations.map f }
  match code with
  | .constructor => { c with constructor := c.constructor.map inFunction }
  | .function i => { c with functions := c.functions.modify i inFunction }
  | .modifier i => { c with modifiers := c.modifiers.modify i inFunction }

def implementation? (c : ContractDecl) (code : CodeOwner) : Option Implementation :=
  let f := match code with
    | .constructor => c.constructor
    | .function i => c.functions[i]?
    | .modifier i => c.modifiers[i]?
  f.bind fun f => f.implementations.head?

-- The variables that code sees from the start: parameters, then named return values.
def implementationScope (impl : Implementation) : List Param :=
  (impl.params ++ impl.returns.filter (·.name != "")).reverse

def union (xs ys : List String) : List String := xs ++ ys.filter fun y => !xs.contains y

-- Notes in an implementation what its code was seen to use.
def noteUses (g : Gathered) (impl : Implementation) : Implementation :=
  { impl with
    usesCaller := impl.usesCaller || g.usesCaller
    calls := union impl.calls g.calls
    externalCalls := union impl.externalCalls g.externalCalls }

-- The result of a task, and how it changes the class that the code belongs to. Constants of the file
-- have no class.
def runTask (p : Pending) : Resolving ((ContractDecl → ContractDecl) × (Outline → Outline)) := do
  let inClass (f : ContractDecl → ContractDecl) :
      (ContractDecl → ContractDecl) × (Outline → Outline) := (f, id)
  let inImplementation (f : Implementation → Implementation) :
      (ContractDecl → ContractDecl) × (Outline → Outline) :=
    match p.code with
    | some code => inClass (updateImplementation code f)
    | none => inClass id
  match p.task with
  | .body b =>
    let body ← block b
    return inImplementation fun impl => { impl with body := some body }
  | .fieldValue i value =>
    let x ← expr value
    return inClass fun c =>
      { c with fields := c.fields.modify i fun f => { f with value := some x } }
  | .constantValue i value =>
    let x ← expr value
    let set (ks : List Constant) : List Constant := ks.modify i fun k => { k with value := some x }
    match p.owner with
    | some _ => return inClass fun c => { c with constants := set c.constants }
    | none => return (id, fun o => { o with constants := set o.constants })
  | .baseArgs i args =>
    let xs ← exprs args
    return inClass fun c =>
      { c with baseCalls := c.baseCalls.modify i fun call => { call with args := xs } }
  | .modifierArgs i args =>
    let xs ← exprs args
    return inImplementation fun impl =>
      { impl with modifiers := impl.modifiers.modify i fun m => { m with args := xs } }

-- Resolves one piece of code against the declarations `known`.
def runPending (known : Outline) (draft : Outline × Registry) (p : Pending) :
    Except Diagnostic (Outline × Registry) := do
  let (outline, registry) := draft
  let owner := p.owner.bind known.class?
  let impl := owner.bind fun c => p.code.bind (implementation? c)
  let env : Env :=
    { outline := known
      contract := owner
      inFunction := p.code.isSome
      inModifier := match p.code, p.task with
        | some (.modifier _), .body _ => true
        | _, _ => false }
  let start : Gathered :=
    { locals := (impl.map implementationScope).getD [], registry := registry }
  let ((inClass, inFile), gathered) ← ((runTask p).run env).run start
  let note (c : ContractDecl) : ContractDecl :=
    match p.code with
    | some code => updateImplementation code (noteUses gathered) c
    | none => { c with initUsesCaller := c.initUsesCaller || gathered.usesCaller }
  let classes := outline.classes.map fun c =>
    if some c.name = p.owner then note (inClass c) else c
  return (inFile { outline with classes := classes }, gathered.registry)

def Outline.flatten (o : Outline) : List Contract :=
  o.classes.map fun c => c.flatten (o.chainOf c)

-- The package that a source tree describes.
def package (name : String) (unit : Solidity.SourceUnit) : Except Diagnostic Package := do
  let draft ← declareUnit unit
  let flat := draft.outline.flatten
  flat.forM Contract.checkImplemented
  let known := { draft.outline with
    methods := flat.map fun c => (c.name, c.dispatch.map (·.toSignature)) }
  let (outline, registry) ← draft.pending.foldlM (runPending known) (draft.outline, draft.registry)
  return {
    name := name
    classes := outline.flatten.map fun c => if c.kind = .contract then c.findCallers else c
    events := outline.events
    errors := outline.errors
    enums := outline.enums
    structs := outline.structs
    constants := outline.constants
    registry := registry }

end RustContracts.Resolve
