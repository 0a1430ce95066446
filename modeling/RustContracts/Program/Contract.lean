import RustContracts.Program.Stmt

-- Contracts, interfaces and libraries, and the package that holds them.
namespace RustContracts.Program

open Text (Position)

-- A modifier on a function, with its arguments.
structure ModifierCall where
  name : String
  args : List Expr := []
  start : Position
deriving Inhabited

-- The body that one class contributes to a function.
structure Implementation where
  owner : String
  params : List Param := []
  returns : List Param := []
  modifiers : List ModifierCall := []
  body : Option Block := none
  isVirtual : Bool := false
  isOverride : Bool := false
  -- whether the class gives a body, known before the body itself
  implemented : Bool := false
  -- the interfaces that the body calls
  externalCalls : List String := []
  -- the keys of the functions that the body calls
  calls : List String := []
  usesCaller : Bool := false
  start : Position
deriving Inhabited

-- A function with its implementations, most derived class first.
structure Function extends Signature where
  implementations : List Implementation
deriving Inhabited

namespace Function

-- The implementation that a call reaches: the first with a body.
def primary? (f : Function) : Option Implementation :=
  (f.implementations.find? Implementation.implemented).or f.implementations.head?

-- The implementation that a super call in a class reaches: the first with a body behind the class.
def next? (f : Function) (owner : String) : Option Implementation :=
  match f.implementations.dropWhile (·.owner != owner) with
  | [] => none
  | _ :: rest => rest.find? Implementation.implemented

-- The implementation that a class declares.
def ofClass? (f : Function) (owner : String) : Option Implementation :=
  f.implementations.find? (·.owner = owner)

end Function

structure StorageField extends FieldDecl where
  -- what the field is initialized with
  value : Option Expr := none
deriving Inhabited

structure Constant extends ConstantDecl where
  value : Option Expr := none
deriving Inhabited

structure EnumDecl where
  name : String
  -- the first variant is the default
  variants : List String
  owner : String
  start : Position
deriving Inhabited

def EnumDecl.ref (e : EnumDecl) : DeclRef := ⟨e.owner, e.name⟩

structure StructDecl where
  name : String
  fields : List Param := []
  owner : String
  start : Position
deriving Inhabited

def StructDecl.ref (s : StructDecl) : DeclRef := ⟨s.owner, s.name⟩

-- A declared error with the entry under which it is registered.
structure CustomError extends ErrorDecl where
  entry : ErrorEntry
deriving Inhabited

-- `using library for target`; none stands for every type.
structure Using where
  library : String
  target : Option Ty
deriving Inhabited

-- The arguments for a base's constructor, evaluated in the scope of the declarer's constructor.
structure BaseCall where
  base : String
  declarer : String
  args : List Expr := []
  start : Position
deriving Inhabited

inductive ContractKind where
  | contract
  | interface
  | library
deriving DecidableEq, Inhabited

namespace ContractKind

def text : ContractKind → String
  | contract => "contract"
  | interface => "interface"
  | library => "library"

def ofText : String → ContractKind
  | "interface" => interface
  | "library" => library
  | _ => contract

end ContractKind

-- What a contract declares itself, and the order of the classes that it inherits from.
structure ContractDecl where
  name : String
  kind : ContractKind
  isAbstract : Bool
  -- in the order in which they are written
  bases : List String
  start : Position
  -- the contract, then its ancestors, most derived first
  chain : List String := []
  baseCalls : List BaseCall := []
  fields : List StorageField := []
  constants : List Constant := []
  functions : List Function := []
  modifiers : List Function := []
  constructor : Option Function := none
  events : List EventDecl := []
  errors : List CustomError := []
  enums : List EnumDecl := []
  structs : List StructDecl := []
  usings : List Using := []
  -- whether an initializer reads the caller
  initUsesCaller : Bool := false
deriving Inhabited

-- A contract with everything that it inherits.
structure Contract extends ContractDecl where
  -- the fields of all classes, base classes first
  storage : List StorageField
  -- one entry for each function that can be called, in order of first declaration, base classes first
  dispatch : List Function
  -- the modifiers by name
  modifierTable : List Function
  -- the keys of the functions that need to know their caller
  callerUsers : List String := []
deriving Inhabited

namespace Contract

-- The function with this name and number of parameters.
def lookup? (c : Contract) (name : String) (arity : Nat) : Option Function :=
  c.dispatch.find? (·.key = functionKey name arity)

-- The position in the dispatch table of the only function with this name.
def lookupName? (c : Contract) (name : String) : Option Nat :=
  match c.dispatch.zipIdx.filter fun (f, _) => f.sourceName = name with
  | [(_, i)] => some i
  | _ => none

def needsCaller (c : Contract) (f : Signature) : Bool := c.callerUsers.contains f.key

-- The position of the storage field that a name denotes: the last with that name.
def fieldIndex? (c : Contract) (name : String) : Option Nat :=
  (c.storage.zipIdx.reverse.find? fun (f, _) => f.sourceName = name).map Prod.snd

def modifier? (c : Contract) (name : String) : Option Function :=
  c.modifierTable.find? (·.sourceName = name)

end Contract

-- One compilation: everything that a source text declares.
structure Package where
  name : String
  -- contracts, interfaces and libraries in source order
  classes : List Contract
  events : List EventDecl := []
  errors : List CustomError := []
  enums : List EnumDecl := []
  structs : List StructDecl := []
  constants : List Constant := []
  registry : Registry := {}
deriving Inhabited

namespace Package

-- A contract, interface or library by name.
def class? (p : Package) (name : String) : Option Contract := p.classes.find? (·.name = name)

def ofKind (p : Package) (kind : ContractKind) : List Contract := p.classes.filter (·.kind = kind)

def contracts (p : Package) : List Contract := p.ofKind .contract

-- The classes of a contract's chain, most derived first.
def chainOf (p : Package) (c : Contract) : List Contract := c.chain.filterMap p.class?

def baseFirst (p : Package) (c : Contract) : List Contract := (p.chainOf c).reverse

-- What a contract sees: declarations of the file, then those of its chain, base classes first.

def visibleEvents (p : Package) (c : Contract) : List EventDecl :=
  p.events ++ (p.baseFirst c).flatMap fun k => k.events

def visibleEnums (p : Package) (c : Contract) : List EnumDecl :=
  p.enums ++ (p.baseFirst c).flatMap fun k => k.enums

def visibleStructs (p : Package) (c : Contract) : List StructDecl :=
  p.structs ++ (p.baseFirst c).flatMap fun k => k.structs

def visibleConstants (p : Package) (c : Contract) : List Constant :=
  p.constants ++ (p.baseFirst c).flatMap fun k => k.constants

-- Declarations by reference.

def struct? (p : Package) (r : DeclRef) : Option StructDecl :=
  (p.structs ++ p.classes.flatMap fun c => c.structs).find? (·.ref = r)

def enum? (p : Package) (r : DeclRef) : Option EnumDecl :=
  (p.enums ++ p.classes.flatMap fun c => c.enums).find? (·.ref = r)

def constant? (p : Package) (r : DeclRef) : Option Constant :=
  (p.constants ++ p.classes.flatMap fun c => c.constants).find? (·.ref = r)

-- Declarations that refer to each other in a chain longer than this refer to themselves.

def structCount (p : Package) : Nat :=
  p.structs.length + (p.classes.flatMap fun c => c.structs).length

def constantCount (p : Package) : Nat :=
  p.constants.length + (p.classes.flatMap fun c => c.constants).length

-- Why no contract can be chosen for output.
inductive MainError where
  | noSuchContract (name : String)
  | noContract

def MainError.message : MainError → String
  | noSuchContract name => "no contract named '" ++ name ++ "'"
  | noContract => "no contract to compile"

-- The contract to emit: the one with the given name or, without a name, the last concrete contract
-- that no other contract inherits from, or else the last contract.
def mainContract (p : Package) (name : String) : Except MainError Contract :=
  if name != "" then
    match p.class? name with
    | some c => if c.kind = .contract then .ok c else .error (.noSuchContract name)
    | none => .error (.noSuchContract name)
  else
    let inherited := p.contracts.flatMap fun c => c.chain.drop 1
    let leaves := p.contracts.filter fun c => !c.isAbstract && !inherited.contains c.name
    match leaves.getLast?.or p.contracts.getLast? with
    | some c => .ok c
    | none => .error .noContract

end Package

end RustContracts.Program
