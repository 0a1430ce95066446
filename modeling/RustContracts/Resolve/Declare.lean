import RustContracts.Inheritance.Graph
import RustContracts.Program.Flatten
import RustContracts.Resolve.Stmt

-- The declarations of a source text: first the names, then the order of each hierarchy, then what the
-- names stand for. Code is put off until all declarations are known.
namespace RustContracts.Resolve

open Program
open Solidity (Expression Parameter SourceUnit SourceUnitPart ContractDefinition ContractPart
  StateVariable FunctionDefinition FunctionAttribute)
open Text (Position)

-- Whose scope code stands in.
inductive CodeOwner where
  | constructor
  | function (index : Nat)
  | modifier (index : Nat)
deriving DecidableEq

-- Code that is resolved when all declarations are known, with the place where its result goes.
inductive Task where
  | body (b : Solidity.Block)
  | fieldValue (index : Nat) (value : Expression)
  | constantValue (index : Nat) (value : Expression)
  | baseArgs (index : Nat) (args : List Expression)
  | modifierArgs (index : Nat) (args : List Expression)

structure Pending where
  -- the class that declares it, none for the file
  owner : Option String
  code : Option CodeOwner := none
  task : Task

structure Draft where
  outline : Outline := {}
  registry : Registry := {}
  pending : List Pending := []

abbrev Declare := StateT Draft (Except Diagnostic)

-- Names.

def enumDecl (d : Solidity.EnumDefinition) (owner : String) : EnumDecl :=
  ⟨d.name, d.values, owner, d.start⟩

def structDecl (d : Solidity.StructDefinition) (owner : String) : StructDecl :=
  { name := d.name, owner := owner, start := d.start }

def contractDecl (d : ContractDefinition) : ContractDecl :=
  { name := d.name
    kind := .ofText d.kind
    isAbstract := d.isAbstract
    bases := d.bases.map (·.name)
    start := d.start
    structs := d.parts.filterMap fun
      | .struct _ s => some (structDecl s d.name)
      | _ => none
    enums := d.parts.filterMap fun
      | .enum _ e => some (enumDecl e d.name)
      | _ => none }

-- The classes, structs and enums of a file, so that types can refer to anything declared anywhere.
def declareNames (o : Outline) : SourceUnitPart → Except Diagnostic Outline
  | .contract _ d =>
    if o.classes.any (·.name = d.name) then
      .error (.unexpected d.start "a unique contract name"
        ("second declaration of '" ++ d.name ++ "'"))
    else .ok { o with classes := o.classes ++ [contractDecl d] }
  | .struct _ d => .ok { o with structs := o.structs ++ [structDecl d ""] }
  | .enum _ d => .ok { o with enums := o.enums ++ [enumDecl d ""] }
  | .function _ d => .error (.unsupported d.start ("free function '" ++ d.name ++ "'"))
  | _ => .ok o

-- Hierarchies. Bases are written from most base to most derived, the graph has them the other way.

def graphOf (classes : List ContractDecl) : Inheritance.Graph :=
  classes.foldl (fun g c => g.add c.name c.bases.reverse) {}

def orderClasses (o : Outline) : Except Diagnostic Outline := do
  let graph := graphOf o.classes
  let classes ← o.classes.mapM fun c =>
    match graph.linearize c.name with
    | .ok order => .ok { c with chain := order }
    | .error e => .error ((Diagnostic.linearization c.name e.message).atPosition c.start)
  return { o with classes := classes }

-- Members.

-- The type that a declaration names, seen from the class `scope`. Lengths of arrays are read as code
-- of the file.
def declaredType (scope : Option String) (t : Solidity.TypeName) : Declare Ty := do
  let outline := (← get).outline
  let act := typeName (scope.bind outline.class?) t
  match (act.run { outline := outline }).run {} with
  | .ok (ty, _) => return ty
  | .error d => throw d

def modifyOutline (f : Outline → Outline) : Declare Unit :=
  modify fun d => { d with outline := f d.outline }

def modifyClass (name : String) (f : ContractDecl → ContractDecl) : Declare Unit :=
  modifyOutline fun o =>
    { o with classes := o.classes.map fun c => if c.name = name then f c else c }

def classNamed (name : String) : Declare ContractDecl := do
  return ((← get).outline.class? name).getD default

def putOff (p : Pending) : Declare Unit :=
  modify fun d => { d with pending := d.pending ++ [p] }

-- Parameters; one without a name gets `unnamed` and its number, if that is not empty.
def declaredParams (scope : Option String) (unnamed : String) :
    Nat → List Parameter → Declare (List Param)
  | _, [] => return []
  | i, p :: rest => do
    let t ← declaredType scope p.type
    let name := if p.name = "" && unnamed != "" then unnamed ++ toString i else p.name
    return ⟨name, t⟩ :: (← declaredParams scope unnamed (i + 1) rest)

-- Adds a field to the struct at a place among those of its owner.
def addStructField (owner : Option String) (index : Nat) (p : Param) : Declare Unit :=
  let add (ss : List StructDecl) : List StructDecl :=
    ss.modify index fun s => { s with fields := s.fields ++ [p] }
  match owner with
  | some c => modifyClass c fun k => { k with structs := add k.structs }
  | none => modifyOutline fun o => { o with structs := add o.structs }

def declareStruct (owner : Option String) (index : Nat) (d : Solidity.StructDefinition) :
    Declare Unit :=
  d.fields.forM fun f => do
    let t ← declaredType owner f.type
    if t.isMapping then
      throw (.unsupported f.start ("mapping inside struct " ++ d.name))
    addStructField owner index ⟨f.name, t⟩

def eventFields (owner : Option String) : Nat → List Solidity.EventParameter → Declare (List EventField)
  | _, [] => return []
  | i, p :: rest => do
    let t ← declaredType owner p.type
    let name := if p.name = "" then "field_" ++ toString i else p.name
    return ⟨name, t, p.indexed⟩ :: (← eventFields owner (i + 1) rest)

def declareEvent (owner : Option String) (d : Solidity.EventDefinition) : Declare Unit := do
  let fields ← eventFields owner 0 d.params
  let ev : EventDecl := ⟨d.name, fields, d.anonymous, owner.getD "", d.start⟩
  match owner with
  | some c => modifyClass c fun k => { k with events := k.events ++ [ev] }
  | none => modifyOutline fun o => { o with events := o.events ++ [ev] }

-- An error gets its code with its declaration.
def declareError (owner : Option String) (d : Solidity.ErrorDefinition) : Declare Unit := do
  let fields ← declaredParams owner "field_" 0 d.params
  let decl : ErrorDecl := ⟨d.name, fields, owner.getD "", d.start⟩
  let (entry, registry) := (← get).registry.registerCustom decl
  modify fun s => { s with registry := registry }
  let e : CustomError := { decl with entry := entry }
  match owner with
  | some c => modifyClass c fun k => { k with errors := k.errors ++ [e] }
  | none => modifyOutline fun o => { o with errors := o.errors ++ [e] }

def declareConstant (owner : Option String) (d : StateVariable) : Declare Unit := do
  let t ← declaredType owner d.type
  match d.value with
  | none => throw (.invalidFunction d.start ("constant '" ++ d.name ++ "' has no value"))
  | some value =>
    let k : Constant :=
      { name := Rust.Name.constant d.name, sourceName := d.name, type := t, owner := owner.getD "",
        start := d.start }
    let before := (← get).outline
    match owner with
    | some c =>
      let index := (← classNamed c).constants.length
      modifyClass c fun s => { s with constants := s.constants ++ [k] }
      putOff { owner := owner, task := .constantValue index value }
    | none =>
      modifyOutline fun o => { o with constants := o.constants ++ [k] }
      putOff { owner := none, task := .constantValue before.constants.length value }

def declareVariable (owner : String) (d : StateVariable) : Declare Unit := do
  let t ← declaredType (some owner) d.type
  if d.attrs.contains "constant" then declareConstant (some owner) d
  else
    if t.isMapping && d.value.isSome then
      throw (.mappingInitialized d.start d.name)
    let field : StorageField :=
      { name := Rust.Name.value d.name, sourceName := d.name, type := t,
        isPublic := d.attrs.contains "public", isImmutable := d.attrs.contains "immutable",
        owner := owner, start := d.start }
    let index := (← classNamed owner).fields.length
    modifyClass owner fun c => { c with fields := c.fields ++ [field] }
    if let some value := d.value then
      putOff { owner := some owner, task := .fieldValue index value }

def declareModifier (owner : String) (d : Solidity.ModifierDefinition) : Declare Unit := do
  let params ← declaredParams (some owner) "_" 0 d.params
  let impl : Implementation :=
    { owner := owner, params := params, isVirtual := d.attrs.contains "virtual",
      isOverride := d.attrs.contains "override", implemented := d.body.isSome, start := d.start }
  let m : Function :=
    { name := Rust.Name.value d.name, sourceName := d.name, kind := .modifier,
      visibility := .isInternal, params := params, implementations := [impl] }
  let index := (← classNamed owner).modifiers.length
  modifyClass owner fun c => { c with modifiers := c.modifiers ++ [m] }
  if let some body := d.body then
    putOff { owner := some owner, code := some (.modifier index), task := .body body }

-- The signature of a function before its attributes are read.
def plainSignature (c : ContractDecl) (d : FunctionDefinition) : Except Diagnostic Signature := do
  let s : Signature ← match d.kind with
    | "constructor" => pure { name := "new", sourceName := "constructor", kind := .constructor }
    | "fallback" =>
      pure { name := "fallback", sourceName := "fallback", kind := .fallback,
             visibility := .isExternal }
    | "receive" =>
      pure { name := "receive", sourceName := "receive", kind := .receive,
             visibility := .isExternal, mutability := .payable }
    | _ =>
      if d.name = "" then throw (.invalidFunction d.start "function without a name")
      else pure { name := Rust.Name.value d.name, sourceName := d.name, kind := .function }
  match c.kind with
  | .interface => return { s with visibility := .isExternal }
  | .library => return { s with visibility := .isInternal }
  | .contract => return s

-- Reads one attribute. A modifier of a constructor that names an ancestor gives that ancestor's
-- arguments.
def declareAttribute (c : ContractDecl) (code : CodeOwner) (s : Signature) (impl : Implementation) :
    FunctionAttribute → Declare (Signature × Implementation)
  | .visibility _ word => return ({ s with visibility := .ofText word }, impl)
  | .mutability _ word => return ({ s with mutability := .ofText word }, impl)
  | .isVirtual _ => return (s, { impl with isVirtual := true })
  | .isOverride _ _ => return (s, { impl with isOverride := true })
  | .modifier _ inv => do
    if s.kind = .constructor && (c.chain.drop 1).contains inv.name then
      let index := (← classNamed c.name).baseCalls.length
      let call : BaseCall := { base := inv.name, declarer := c.name, start := inv.start }
      modifyClass c.name fun k => { k with baseCalls := k.baseCalls ++ [call] }
      putOff { owner := some c.name, code := some code, task := .baseArgs index inv.args }
      return (s, impl)
    else
      if !inv.args.isEmpty then
        putOff { owner := some c.name, code := some code,
                 task := .modifierArgs impl.modifiers.length inv.args }
      return (s, { impl with modifiers := impl.modifiers ++ [{ name := inv.name, start := inv.start }] })

def declareFunction (owner : String) (d : FunctionDefinition) : Declare Unit := do
  let c ← classNamed owner
  let s ← plainSignature c d
  let code : CodeOwner :=
    if s.kind = .constructor then .constructor else .function c.functions.length
  let impl : Implementation :=
    { owner := owner, implemented := d.body.isSome, start := d.start }
  let (s, impl) ← d.attrs.foldlM (fun (s, impl) a => declareAttribute c code s impl a) (s, impl)
  let params ← declaredParams (some owner) "_" 0 d.params
  let returns ← declaredParams (some owner) "" 0 d.returns
  let f : Function :=
    { s with
      params := params
      returns := returns
      implementations := [{ impl with params := params, returns := returns }] }
  if f.kind = .constructor then
    if !returns.isEmpty then
      throw (.invalidFunction d.start ("constructor of '" ++ owner ++ "' cannot return values"))
    if c.constructor.isSome then
      throw (.invalidFunction d.start ("'" ++ owner ++ "' declares more than one constructor"))
    modifyClass owner fun k => { k with constructor := some f }
  else
    modifyClass owner fun k => { k with functions := k.functions ++ [f] }
  if let some body := d.body then
    putOff { owner := some owner, code := some code, task := .body body }

def declareUsing (owner : String) (d : Solidity.UsingDirective) : Declare Unit := do
  match (← get).outline.class? d.library with
  | some lib =>
    if lib.kind != .library then throw (.unsupported d.start ("library " ++ d.library))
    let target ← d.target.mapM (declaredType (some owner))
    modifyClass owner fun c => { c with usings := c.usings ++ [⟨lib.name, target⟩] }
  | none => throw (.unsupported d.start ("library " ++ d.library))

-- The members of a class in source order. `structs` counts the structs seen.
def declareMembers (owner : String) : Nat → List ContractPart → Declare Unit
  | _, [] => return
  | structs, part :: rest => do
    let mut seen := structs
    match part with
    | .using _ d => declareUsing owner d
    | .struct _ d =>
      declareStruct (some owner) structs d
      seen := structs + 1
    | .enum _ _ => pure ()
    | .event _ d => declareEvent (some owner) d
    | .error _ d => declareError (some owner) d
    | .modifier _ d => declareModifier owner d
    | .function _ d => declareFunction owner d
    | .variable _ d => declareVariable owner d
    declareMembers owner seen rest

def declareContract (d : ContractDefinition) : Declare Unit := do
  d.bases.forM fun base => do
    if base.hasArgs then
      let index := (← classNamed d.name).baseCalls.length
      let call : BaseCall := { base := base.name, declarer := d.name, start := base.start }
      modifyClass d.name fun c => { c with baseCalls := c.baseCalls ++ [call] }
      putOff { owner := some d.name, task := .baseArgs index base.args }
  declareMembers d.name 0 d.parts

-- The declarations of a file in source order, which is also the order of the codes of errors.
def declareParts : Nat → List SourceUnitPart → Declare Unit
  | _, [] => return
  | structs, part :: rest => do
    let mut seen := structs
    match part with
    | .contract _ d => declareContract d
    | .struct _ d =>
      declareStruct none structs d
      seen := structs + 1
    | .event _ d => declareEvent none d
    | .error _ d => declareError none d
    | .constant _ d => declareConstant none d
    | _ => pure ()
    declareParts seen rest

-- All declarations of a source text, and the code that is left to resolve.
def declareUnit (unit : SourceUnit) : Except Diagnostic Draft := do
  let names ← unit.parts.foldlM declareNames {}
  let ordered ← orderClasses names
  let ((), draft) ← (declareParts 0 unit.parts).run { outline := ordered }
  return draft

end RustContracts.Resolve
