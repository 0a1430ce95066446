import RustContracts.Abi.Signature
import RustContracts.Ink.Storage

-- Errors, interfaces, functions and the layout of ink! contracts.
namespace RustContracts.Ink

open Program Emit

-- Errors. A message and its code share one variant, each declared error has its own.

def errorVariant (v : InkVersion) (decl : ErrorDecl) : Emit Rust.Variant := do
  return { name := Rust.Name.type decl.name, tuple := (← types v (decl.fields.map Param.type)) }

def errorItems (v : InkVersion) (entries : List ErrorEntry) : Emit (List Rust.Item) := do
  useString
  let revert : Rust.Variant :=
    { name := "Revert"
      fields := [{ name := "code", type := "u32" }, { name := "message", type := "String" }] }
  let declared ← (entries.filterMap ErrorEntry.custom).mapM (errorVariant v)
  return [
    .enum ["derive(Debug, PartialEq, Eq)", "ink::scale_derive(Encode, Decode, TypeInfo)"] "Error"
      (revert :: declared),
    .typeAlias "Result<T>" "core::result::Result<T, Error>"]

-- The error value for an entry.
def revert (entry : ErrorEntry) (args : List Rust.Expr) : Emit Rust.Expr := do
  match entry.custom with
  | some decl =>
    let name := "Error::" ++ Rust.Name.type decl.name
    if args.isEmpty then return .ident name
    return .callPath name args
  | none =>
    return .structLit "Error::Revert"
      [⟨"code", .lit (toString entry.code.toNat)⟩, ⟨"message", ← stringLiteral entry.message⟩] none

def resultType (result : String) : String := "Result<" ++ result ++ ">"

-- Functions.

def receiver (mutates : Bool) : String := if mutates then "&mut self" else "&self"

-- None where the signature has no end.
def selectorAttr (p : Package) (f : Signature) : Option String :=
  (Abi.selector p f.sourceName f.params).map fun bytes => "selector = 0x" ++ Abi.selectorText bytes

def messageAttr (payable : Bool) (selector : String) : String :=
  "ink(message, " ++ (if payable then "payable, " else "") ++ selector ++ ")"

-- The functions without a name share the selector that matches everything; the one for plain
-- transfers leaves it to the other where both exist. The hash is taken in any case.
def messageSelector (p : Package) (c : Contract) (f : Signature) : Option String := do
  let own ← selectorAttr p f
  match f.kind with
  | .fallback => return "selector = _"
  | .receive => return if (c.lookup? "fallback" 0).isSome then own else "selector = _"
  | _ => return own

-- A text without an end is written until the stack is full.
def ended : Option String → Emit String
  | some text => return text
  | none => throw .overflow

-- A method of the contract's struct; what callers from outside reach is public and has a selector.
def routine (r : Routine) : Emit Rust.Function := do
  let env ← read
  let selectors ← r.entry.toList.mapM fun f =>
    ended (messageSelector env.package env.contract f)
  return { attrs := selectors.map (messageAttr r.payable)
           isPublic := r.isExposed
           name := r.name
           receiver := receiver r.mutates
           params := r.params
           result := resultType r.result }

def call (callee : Routine) (args : List Rust.Expr) : Rust.Expr :=
  (Rust.Expr.ident "self").methodCall callee.name args

-- `new` starts from default storage and runs the initializer, if there is one.
def constructors (init : Option Routine) : Emit (List Rust.Function) := do
  let payable := (← read).contract.constructor.any (·.mutability = .payable)
  let attr := if payable then "ink(constructor, payable)" else "ink(constructor)"
  let start := Rust.Expr.lit "Self::default()"
  match init with
  | none =>
    return [{ attrs := [attr], isPublic := true, name := "new", result := "Self"
              body := some ⟨[], some start⟩ }]
  | some r =>
    let args := r.params.map fun p => Rust.Expr.ident p.name
    let run := Rust.Expr.tryOp ((Rust.Expr.ident "contract").methodCall r.name args)
    return [{ attrs := [attr], isPublic := true, name := "new", params := r.params
              result := resultType "Self"
              body := some ⟨[.letVar true "contract" "" (some start), .expr run],
                some (.callPath "Ok" [.ident "contract"])⟩ }]

-- Interfaces.

def interfaceMethod (v : InkVersion) (f : Signature) : Emit Rust.Function := do
  let params ← f.params.zipIdx.mapM fun (p, i) => do
    return { name := paramName p i, type := (← type v p.type) : Rust.Param }
  let result ← type v f.returnType
  let selector ← ended (selectorAttr (← read).package f)
  return { attrs := [messageAttr (f.mutability = .payable) selector]
           name := f.name
           receiver := receiver f.mutability.mutates
           params := params
           result := result }

-- A trait whose methods have the selectors of the interface.
def interfaceItems (v : InkVersion) (c : Contract) : Emit (List Rust.Item) := do
  let methods ← c.dispatch.mapM fun f => interfaceMethod v f.toSignature
  return [.trait ["ink::trait_definition"] (Rust.Name.type c.name) methods]

-- A reference to the contract at an address, with its type.
def externalRef (interface : String) (address : Rust.Expr) : Rust.Expr × String :=
  (address.method "into", "ink::contract_ref!(" ++ Rust.Name.type interface ++ ")")

def externalCall (method : Signature) (ref : Rust.Expr) (args : List Rust.Expr) : Rust.Expr :=
  ref.methodCall method.name args

-- The imports that traits need outside the contract's module.
def interfaceImports (v : InkVersion) (imports : List String) : List String :=
  let shared := ["primitive_types::U256", "ink::U256", "ink::prelude::string::String",
    "ink::prelude::vec::Vec"]
  (match v with
    | .v5 => "ink::primitives::AccountId"
    | .v6 => "ink::H160") :: imports.filter shared.contains

-- Traits first, then the contract's module with types, events, errors, storage and functions.
def assemble (v : InkVersion) (m : Module) : Emit Rust.File := do
  let c := (← read).contract
  let imports ← importPaths
  let outer := if m.interfaces.isEmpty then []
    else (interfaceImports v imports).map Rust.Item.use ++ m.interfaces
  let inherited := if m.interfaces.isEmpty then [] else [Rust.Item.use "super::*"]
  let inner := inherited ++ imports.map Rust.Item.use ++ m.types ++ m.events ++ m.errors ++
    m.storage ++ [.impl [] "" (Rust.Name.type c.name) (m.entries ++ m.helpers)]
  return { innerAttrs := ["cfg_attr(not(feature = \"std\"), no_std, no_main)"]
           items := outer ++ [.module ["ink::contract"] m.name inner] }

end RustContracts.Ink
