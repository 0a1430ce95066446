import RustContracts.Diagnostic.Basic
import RustContracts.Program.Contract

-- What a name can mean at a place in the source: the declarations of the package, the class whose code is
-- read, and the variables that are in scope.
namespace RustContracts.Resolve

open Program
open Text (Position)

-- The declarations known so far.
structure Outline where
  -- contracts, interfaces and libraries in source order
  classes : List ContractDecl := []
  events : List EventDecl := []
  errors : List CustomError := []
  enums : List EnumDecl := []
  structs : List StructDecl := []
  constants : List Constant := []
  -- the functions of each class with those that it inherits, once they are known
  methods : List (String × List Signature) := []

namespace Outline

def class? (o : Outline) (name : String) : Option ContractDecl := o.classes.find? (·.name = name)

-- The classes of a chain, most derived first.
def chainOf (o : Outline) (c : ContractDecl) : List ContractDecl := c.chain.filterMap o.class?

-- A method of a class by name and number of parameters.
def method? (o : Outline) (owner name : String) (arity : Nat) : Option Signature :=
  ((o.methods.lookup owner).getD []).find? (·.key = functionKey name arity)

def structFields (o : Outline) (r : DeclRef) : List Param :=
  (((o.structs ++ o.classes.flatMap fun c => c.structs).find? (·.ref = r)).map (·.fields)).getD []

def enumVariants (o : Outline) (r : DeclRef) : List String :=
  (((o.enums ++ o.classes.flatMap fun c => c.enums).find? (·.ref = r)).map (·.variants)).getD []

end Outline

-- A struct or enum that a class declares itself.
def typeIn? (c : ContractDecl) (name : String) : Option Ty :=
  if c.structs.any (·.name = name) then some (.struct ⟨c.name, name⟩)
  else if c.enums.any (·.name = name) then some (.enum ⟨c.name, name⟩)
  else none

-- A declared type. A name with a dot is looked up in the class before the dot, any other along the
-- chain of `scope` and then in the file.
def Outline.userType? (o : Outline) (path : String) (scope : Option ContractDecl) : Option Ty :=
  let before := path.toList.takeWhile (· != '.')
  if before.length < path.length then
    (o.class? (String.ofList before)).bind fun owner =>
      typeIn? owner (String.ofList (path.toList.drop (before.length + 1)))
  else
    let inherited := (scope.map o.chainOf).getD []
    (inherited.findSome? (typeIn? · path)).or <|
      if o.structs.any (·.name = path) then some (.struct ⟨"", path⟩)
      else if o.enums.any (·.name = path) then some (.enum ⟨"", path⟩)
      else (o.class? path).map fun c => .contract c.name

-- The first function with this name, and with this number of parameters if one is given.
def findFunction? (classes : List ContractDecl) (name : String) (arity : Option Nat) :
    Option (ContractDecl × Function) :=
  classes.findSome? fun c =>
    (c.functions.find? fun f => f.sourceName = name && arity.all (f.params.length = ·)).map (c, ·)

-- Where code stands.
structure Env where
  outline : Outline
  -- the class whose code is read, none at file level
  contract : Option ContractDecl := none
  -- whether the code belongs to a function, constructor or modifier
  inFunction : Bool := false
  inModifier : Bool := false
  inLoop : Bool := false

-- What reading code gathers.
structure Gathered where
  -- the variables in scope, innermost and latest first
  locals : List Param := []
  registry : Registry := {}
  -- whether the caller was read
  usesCaller : Bool := false
  -- the keys of the functions called
  calls : List String := []
  -- the interfaces called
  externalCalls : List String := []

abbrev Resolving := ReaderT Env (StateT Gathered (Except Diagnostic))

-- The classes whose members are visible, most derived first.
def chain : Resolving (List ContractDecl) := do
  let env ← read
  return (env.contract.map env.outline.chainOf).getD []

def local? (name : String) : Resolving (Option Param) := do
  return (← get).locals.find? (·.name = name)

def declareLocal (p : Param) : Resolving Unit :=
  modify fun g => { g with locals := p :: g.locals }

-- Runs code whose variables go out of scope at its end.
def inScope {α : Type} (act : Resolving α) : Resolving α := do
  let before := (← get).locals
  let result ← act
  modify fun g => { g with locals := before }
  return result

def registerMessage (message : String) : Resolving ErrorEntry := do
  let (entry, registry) := (← get).registry.registerMessage message
  modify fun g => { g with registry := registry }
  return entry

end RustContracts.Resolve
