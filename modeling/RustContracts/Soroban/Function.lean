import RustContracts.Soroban.Storage
import RustContracts.Text.Quoted

-- Errors, interfaces, functions and the layout of Soroban contracts.
namespace RustContracts.Soroban

open Program Emit

-- Errors.

-- Letters and digits of a message, with blanks for all else.
def messageWords (message : String) : List Char :=
  message.toList.map fun c => if c.isAlphanum then c else ' '

-- The name that an entry asks for, from its declaration or the words of its message.
def wantedName? (entry : ErrorEntry) : Option String :=
  match entry.custom with
  | some decl => some (Rust.Name.type decl.name)
  | none =>
    let words := messageWords entry.message
    if words.all (· == ' ') then none
    else some (Rust.Name.type (String.ofList (words.map Char.toLower)))

-- The name of an entry that has no other.
def codeName (entry : ErrorEntry) : String := "Code" ++ toString entry.code.toNat

-- The names of the variants for entries, in order; one that is missing or taken gives way to the code.
def errorNames (taken : List String) : List ErrorEntry → List (ErrorEntry × String)
  | [] => []
  | entry :: rest =>
    let name := match wantedName? entry with
      | some name => if taken.contains name then codeName entry else name
      | none => codeName entry
    (entry, name) :: errorNames (name :: taken) rest

def errorItems (entries : List ErrorEntry) : Emit (List Rust.Item) := do
  use "contracterror"
  let variants := (errorNames [] entries).map fun (entry, name) =>
    { name := name, discriminant := toString entry.code.toNat : Rust.Variant }
  let variants := if variants.isEmpty then [{ name := "Unknown", discriminant := "0" }] else variants
  return [.enum
    ["contracterror", "derive(Copy, Clone, Debug, Eq, PartialEq, PartialOrd, Ord)", "repr(u32)"]
    "Error" variants]

-- The error value for an entry; there is no place for arguments.
def revert (entry : ErrorEntry) : Emit Rust.Expr := do
  let names := errorNames [] (← read).package.registry.entries
  let name := ((names.find? (·.1.key = entry.key)).map Prod.snd).getD (codeName entry)
  return .ident ("Error::" ++ name)

def resultType (result : String) : String := "Result<" ++ result ++ ", Error>"

-- Functions take the environment first and the caller second.

-- What callers from outside reach owns its environment, everything else borrows it.
def routine (r : Routine) : Emit Rust.Function := do
  use "Env"
  let envParam : Rust.Param := ⟨"env", if r.isExposed then "Env" else "&Env"⟩
  if r.caller then use "Address"
  let callerParam : List Rust.Param := if r.caller then [⟨"caller", "Address"⟩] else []
  return { isPublic := r.isExposed
           name := r.name
           params := envParam :: callerParam ++ r.params
           result := resultType r.result }

def requireAuth : Rust.Stmt := .expr ((Rust.Expr.ident "caller").method "require_auth")

-- A caller from outside is authenticated.
def preamble (r : Routine) : List Rust.Stmt :=
  if r.caller && r.isExposed then [requireAuth] else []

def call (callee : Routine) (args : List Rust.Expr) : Emit Rust.Expr := do
  let here ← frame
  let envArg :=
    if callee.isExposed then (Rust.Expr.ident "env").method "clone"
    else if here.exposed then env
    else .ident "env"
  let callerArg := if callee.caller then [(Rust.Expr.ident "caller").method "clone"] else []
  return .callPath ("Self::" ++ callee.name) (envArg :: callerArg ++ args)

-- `__constructor` runs the initializer and stops with its error; without one there is nothing to do.
def constructors : Option Routine → Emit (List Rust.Function)
  | none => return []
  | some r => do
    use "Env"
    use "panic_with_error"
    if r.caller then use "Address"
    let callerParam : List Rust.Param := if r.caller then [⟨"caller", "Address"⟩] else []
    let given := callerParam ++ r.params
    let run := Rust.Expr.callPath ("Self::" ++ r.name)
      (env :: given.map fun p => Rust.Expr.ident p.name)
    let stop := Rust.Stmt.expr (.bangCall "panic_with_error" [env, .ident "e"])
    return [{ isPublic := true
              name := "__constructor"
              params := ⟨"env", "Env"⟩ :: given
              body := some
                ⟨(if r.caller then [requireAuth] else []) ++
                  [.expr (.ifElse "Err(e)" run ⟨[stop], none⟩ none)], none⟩ }]

-- Interfaces.

def interfaceMethod (f : Signature) : Emit Rust.Function := do
  let params ← f.params.zipIdx.mapM fun (p, i) => do
    return { name := paramName p i, type := (← type p.type) : Rust.Param }
  let result ← type f.returnType
  return { name := f.name, params := ⟨"env", "Env"⟩ :: params, result := result }

def clientName (interface : String) : String := Rust.Name.type interface ++ "Client"

-- A trait for which a client is generated.
def interfaceItems (c : Contract) : Emit (List Rust.Item) := do
  use "contractclient"
  use "Env"
  let methods ← c.dispatch.mapM fun f => interfaceMethod f.toSignature
  return [.trait ["contractclient(name = " ++ Text.quoted (clientName c.name) ++ ")"]
    (Rust.Name.type c.name) methods]

-- A client for the contract at an address.
def externalRef (interface : String) (address : Rust.Expr) : Rust.Expr :=
  hostCall (clientName interface ++ "::new") [borrow address]

-- Clients take every argument by reference.
def externalCall (method : Signature) (ref : Rust.Expr) (args : List Rust.Expr) : Rust.Expr :=
  ref.methodCall method.name (args.map borrow)

-- Types, storage keys, errors and traits, then the contract with what callers from outside reach, then
-- everything else.
def assemble (m : Module) : Emit Rust.File := do
  use "contract"
  use "contractimpl"
  let name := Rust.Name.type (← read).contract.name
  let imports ← importPaths
  let helpers := if m.helpers.isEmpty then [] else [Rust.Item.impl [] "" name m.helpers]
  return { innerAttrs := ["no_std"]
           items := .use ("soroban_sdk::\x7b" ++ ", ".intercalate imports ++ "\x7d") :: m.types ++
             m.storage ++ m.errors ++ m.interfaces ++ [.struct ["contract"] name [] true] ++
             [.impl ["contractimpl"] "" name m.entries] ++ helpers }

end RustContracts.Soroban
