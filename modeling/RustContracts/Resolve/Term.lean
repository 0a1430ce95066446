import RustContracts.Resolve.Scope

-- Chains of member accesses, indexings and calls. A term is a value, or something that becomes one only
-- when more is applied to it.
namespace RustContracts.Resolve

open Program
open Text (Position)

inductive Term where
  | value (e : Expr)
  | type (t : Ty) (start : Position)
  -- `type(T)`
  | typeOf (t : Ty) (start : Position)
  -- `new T`
  | new (t : Ty) (start : Position)
  -- `msg`, `block`, `this` and the like; `this` has a value
  | space (name : String) (value : Option Expr) (start : Position)
  | contract (c : ContractDecl) (start : Position)
  -- a function of the contract, the one behind its class, or the one of the class `target`
  | function (name : String) (isSuper : Bool) (target : String) (start : Position)
  | libraryFunction (library : ContractDecl) (name : String) (start : Position)
  -- a library function whose first argument is given
  | attached (receiver : Expr) (library : ContractDecl) (name : String) (start : Position)
  -- a method of a contract at an address
  | external (receiver : Expr) (interface name : String) (start : Position)
  -- `push` or `pop` of an array
  | arrayMethod (receiver : Expr) (name : String) (start : Position)
  | builtin (name : String) (start : Position)

namespace Term

def start : Term → Position
  | value e => e.start
  | type _ p | typeOf _ p | new _ p | space _ _ p | contract _ p | function _ _ _ p
  | libraryFunction _ _ p | attached _ _ _ p | external _ _ _ p | arrayMethod _ _ p
  | builtin _ p => p

def describe : Term → String
  | value e => e.describe
  | type t _ | typeOf t _ => "type '" ++ t.text ++ "'"
  | new _ _ => "'new'"
  | space name _ _ => "'" ++ name ++ "'"
  | contract c _ => c.kind.text ++ " '" ++ c.name ++ "'"
  | function name _ _ _ | libraryFunction _ name _ | attached _ _ name _ | external _ _ name _
  | arrayMethod _ name _ => "function '" ++ name ++ "'"
  | builtin name _ => "builtin '" ++ name ++ "'"

def toExpr : Term → Resolving Expr
  | value e => return e
  | space _ (some e) _ => return e
  | t => throw (.unexpected t.start "value" t.describe)

end Term

-- Functions of the language that have no counterpart.
def builtins : List String :=
  ["keccak256", "sha256", "ripemd160", "ecrecover", "addmod", "mulmod", "gasleft", "blockhash",
   "selfdestruct", "require", "assert"]

-- The meaning of a name: a variable, a part of the environment, a field or constant along the chain, a
-- constant of the file, a function, a type, and last a builtin.
def resolveName (name : String) (start : Position) : Resolving Term := do
  if let some v ← local? name then
    return .value (.var start v.name v.type)
  match name with
  | "this" => return .space name (some (.env start .this)) start
  | "msg" | "block" | "tx" | "abi" | "super" => return .space name none start
  | "now" => return .value (.env start .timestamp)
  | "payable" => return .type (.address true) start
  | _ =>
    let env ← read
    let classes ← chain
    let inClass (c : ContractDecl) : Option Expr :=
      ((c.fields.find? (·.sourceName = name)).map fun f => Expr.field start f.toFieldDecl).or <|
        (c.constants.find? (·.sourceName = name)).map fun k => Expr.const start k.toConstantDecl
    if let some e := classes.findSome? inClass then
      return .value e
    if let some k := env.outline.constants.find? (·.sourceName = name) then
      return .value (.const start k.toConstantDecl)
    if (findFunction? classes name none).isSome then
      return .function name false "" start
    match Ty.elementary? name with
    | some (.ok t) => return .type t start
    | some (.error message) => throw (.numSize start message)
    | none =>
      match env.outline.userType? name env.contract with
      | some (.contract c) =>
        match env.outline.class? c with
        | some decl => return .contract decl start
        | none => return .type (.contract c) start
      | some t => return .type t start
      | none =>
        if builtins.contains name then return .builtin name start
        throw (.notState start name)

-- Notes that the caller is read; a library has none.
def useCaller (start : Position) : Resolving Unit := do
  match (← read).contract with
  | some c =>
    if c.kind = .library then
      throw (.unsupported start ("msg.sender in library " ++ c.name))
  | none => pure ()
  modify fun g => { g with usesCaller := true }

-- The library that `using` attaches to a type and that has a function of this name with a parameter.
def attachedLibrary? (t : Ty) (name : String) : Resolving (Option ContractDecl) := do
  let env ← read
  let usings := (← chain).flatMap fun c => c.usings
  return usings.findSome? fun u =>
    if u.target.all (·.same t) then
      (env.outline.class? u.library).bind fun lib =>
        match findFunction? [lib] name none with
        | some (_, f) => if f.params.isEmpty then none else some lib
        | none => none
    else none

-- A member of a value.
def valueMember (x : Expr) (name : String) (start : Position) : Resolving Term := do
  let env ← read
  match x.type with
  | .struct r =>
    match (env.outline.structFields r).find? (·.name = name) with
    | some f => return .value (.member start x name f.type)
    | none => throw (.unexpected start ("field of " ++ r.name) ("'" ++ name ++ "'"))
  | t =>
    if let some lib ← attachedLibrary? t name then
      return .attached x lib name start
    let unknown : Diagnostic := .unexpected start ("member of " ++ t.text) ("'" ++ name ++ "'")
    match t with
    | .array _ _ =>
      match name with
      | "length" => return .value (.length start x)
      | "push" | "pop" => return .arrayMethod x name start
      | _ => throw unknown
    | .contract c =>
      match env.outline.class? c with
      | some decl =>
        if decl.kind = .interface then return .external x c name start
        throw (.unsupported start ("calls to " ++ decl.kind.text ++ " " ++ c))
      | none => throw unknown
    | .address _ => throw (.unsupported start ("address." ++ name))
    | .bytes _ => throw (.unsupported start (t.text ++ "." ++ name))
    | _ => throw unknown

-- A member of a part of the environment.
def spaceMember (space name : String) (start : Position) : Resolving Term := do
  match space, name with
  | "msg", "sender" =>
    useCaller start
    return .value (.env start .sender)
  | "msg", "value" => return .value (.env start .value)
  | "block", "timestamp" => return .value (.env start .timestamp)
  | "block", "number" => return .value (.env start .blockNumber)
  | "this", _ => return .function name false "" start
  | "super", _ => return .function name true "" start
  | _, _ => throw (.unsupported start (space ++ "." ++ name))

-- A member of a contract, interface or library by name: a library function, a type, a constant, or a
-- function of an ancestor.
def contractMember (c : ContractDecl) (name : String) (start : Position) : Resolving Term := do
  let env ← read
  if c.kind = .library && (findFunction? [c] name none).isSome then
    return .libraryFunction c name start
  if let some t := typeIn? c name then
    return .type t start
  if let some k := c.constants.find? (·.sourceName = name) then
    return .value (.const start k.toConstantDecl)
  let inherited := env.contract.any (·.chain.contains c.name)
  if inherited && (findFunction? (env.outline.chainOf c) name none).isSome then
    return .function name false c.name start
  throw (.unsupported start (c.name ++ "." ++ name))

namespace Term

-- `t.name`
def member (t : Term) (name : String) (start : Position) : Resolving Term := do
  match t with
  | space s _ _ => spaceMember s name start
  | contract c _ => contractMember c name start
  | type (.enum r) _ =>
    if ((← read).outline.enumVariants r).contains name then
      return .value (.enumValue start r name)
    throw (.unexpected start ("variant of " ++ r.name) ("'" ++ name ++ "'"))
  | typeOf ty _ =>
    match ty, name with
    | .int signed bits, "max" => return .value (.bound start signed bits true)
    | .int signed bits, "min" => return .value (.bound start signed bits false)
    | _, _ => throw (.unsupported start ("type(" ++ ty.text ++ ")." ++ name))
  | value x => valueMember x name start
  | _ => throw (.unexpected start "value" t.describe)

end Term

-- The arguments of a call: how to resolve each, by position or by name.
structure CallArgs where
  start : Position
  positional : List (Resolving Expr) := []
  named : List (Position × String × Resolving Expr) := []

namespace CallArgs

def arity (c : CallArgs) : Nat := c.positional.length + c.named.length

-- Exactly `n` arguments, by position.
def exactly (c : CallArgs) (n : Nat) : Resolving (List Expr) := do
  if !c.named.isEmpty || c.positional.length != n then
    throw (.unexpected c.start (plural n "argument") (plural c.arity "argument"))
  c.positional.mapM id

-- Puts named arguments into the places of their names.
def place (names : List String) :
    List (Option Expr) → List (Position × String × Resolving Expr) → Resolving (List (Option Expr))
  | filled, [] => return filled
  | filled, (start, name, value) :: rest => do
    match names.idxOf? name with
    | none => throw (.unexpected start "parameter name" ("'" ++ name ++ "'"))
    | some i =>
      if (filled[i]?.bind id).isSome then
        throw (.unexpected start "each argument once" ("'" ++ name ++ "' twice"))
      let x ← value
      place names (filled.set i (some x)) rest

-- The arguments in the order of the parameters with these names.
def inOrder (c : CallArgs) (names : List String) : Resolving (List Expr) := do
  if c.named.isEmpty then c.positional.mapM id
  else
    let filled ← place names (names.map fun _ => none) c.named
    if c.named.length != names.length then
      throw (.unexpected c.start (plural names.length "argument")
        (plural c.named.length "argument"))
    return filled.filterMap id

end CallArgs

-- `T(args)`: a struct with its fields, or a conversion.
def conversion (t : Ty) (c : CallArgs) : Resolving Term := do
  match t with
  | .struct r =>
    let names := ((← read).outline.structFields r).map Param.name
    let fields ← c.inOrder names
    if fields.length != names.length then
      throw (.unexpected c.start (plural names.length "field") (plural fields.length "field"))
    return .value (.structLit c.start r fields)
  | _ =>
    match ← c.exactly 1 with
    | [x] =>
      match t, x with
      | .address _, .int _ 0 => return .value (.zero c.start (.address false))
      | .address _, .env _ .this => return .value x
      | _, _ => return .value (.cast c.start t x)
    | _ => throw (.unexpected c.start "1 argument" (plural c.arity "argument"))

-- A call of a function of the contract whose code is read. In a library such a call stays inside it.
def internalCall (name : String) (isSuper : Bool) (target : String) (c : CallArgs) :
    Resolving Term := do
  let env ← read
  match env.contract with
  | none => throw (.unexpected c.start "constant expression" ("call to '" ++ name ++ "'"))
  | some self =>
    let classes :=
      if target != "" then ((env.outline.class? target).map env.outline.chainOf).getD []
      else if isSuper then (env.outline.chainOf self).drop 1
      else env.outline.chainOf self
    match findFunction? classes name (some c.arity) with
    | none =>
      throw (.invalidFunction c.start
        ("no function '" ++ name ++ "' taking " ++ plural c.arity "argument"))
    | some (owner, f) =>
      let args ← c.inOrder (f.params.map Param.name)
      if self.kind = .library then
        return .value (.libraryCall c.start self.name owner.name f.toSignature args)
      if env.inFunction then
        let key := functionKey name c.arity
        modify fun g => { g with calls := if g.calls.contains key then g.calls else g.calls ++ [key] }
      return .value (.call c.start name args isSuper self.name target f.toSignature.returnType)

-- `L.f(args)` or, with a receiver, `x.f(args)`.
def libraryCall (lib : ContractDecl) (name : String) (receiver : Option Expr) (c : CallArgs) :
    Resolving Term := do
  let given := receiver.toList
  let arity := given.length + c.arity
  match findFunction? [lib] name (some arity) with
  | none =>
    throw (.invalidFunction c.start ("library '" ++ lib.name ++ "' has no function '" ++ name ++
      "' taking " ++ plural arity "argument"))
  | some (_, f) =>
    let args ← c.inOrder ((f.params.map Param.name).drop given.length)
    return .value (.libraryCall c.start lib.name lib.name f.toSignature (given ++ args))

-- `I(a).m(args)`; the address is what was converted to the interface.
def externalCall (interface : String) (receiver : Expr) (name : String) (c : CallArgs) :
    Resolving Term := do
  let env ← read
  match env.outline.method? interface name c.arity with
  | none =>
    throw (.invalidFunction c.start ("interface '" ++ interface ++ "' has no function '" ++ name ++
      "' taking " ++ plural c.arity "argument"))
  | some method =>
    let args ← c.inOrder (method.params.map Param.name)
    let address := match receiver with
      | .cast _ _ v => v
      | x => x
    if env.inFunction then
      modify fun g => { g with
        externalCalls :=
          if g.externalCalls.contains interface then g.externalCalls
          else g.externalCalls ++ [interface] }
    return .value (.externalCall c.start interface method address args)

namespace Term

-- `t(args)`
def call (t : Term) (c : CallArgs) : Resolving Term := do
  match t with
  | type ty _ => conversion ty c
  | contract k _ =>
    if k.kind != .interface then
      throw (.unsupported c.start ("calls to " ++ k.kind.text ++ " " ++ k.name))
    let args ← c.exactly 1
    return .value (.cast c.start (.contract k.name) (args.headD default))
  | function name isSuper target _ => internalCall name isSuper target c
  | libraryFunction lib name _ => libraryCall lib name none c
  | attached x lib name _ => libraryCall lib name (some x) c
  | external x interface name _ => externalCall interface x name c
  | arrayMethod x name _ =>
    if name = "push" then
      if c.positional.isEmpty then
        throw (.unsupported c.start "push() without a value")
      let args ← c.exactly 1
      return .value (.push c.start x (args.headD default))
    else
      let _ ← c.exactly 0
      return .value (.pop c.start x)
  | new (.array elem _) _ =>
    let args ← c.exactly 1
    return .value (.newArray c.start elem (args.headD default))
  | new _ _ => throw (.unsupported c.start "contract creation")
  | builtin name _ => throw (.unsupported c.start name)
  | _ => throw (.unexpected c.start "function" t.describe)

-- `t[key]` on a value.
def elementAt (x key : Expr) (start : Position) : Resolving Term := do
  match x.type with
  | .mapping _ v => return .value (.index start x key v)
  | .array e _ => return .value (.index start x key e)
  | .bytes n => throw (.unsupported start ("indexing " ++ (Ty.bytes n).text))
  | t => throw (.unexpected start "mapping or array" t.text)

end Term

end RustContracts.Resolve
