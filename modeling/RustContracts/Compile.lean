import RustContracts.Emit.Contract
import RustContracts.Formatter
import RustContracts.Resolve.Package
import RustContracts.Solidity.Parse
import RustContracts.Text.Path

-- From a source text to Rust.
namespace RustContracts.Compile

open Program

-- The name of the package that a file holds.
def packageName (path : String) : String :=
  Rust.Name.value (Text.Path.stem (Text.Path.base path))

-- Where the Rust of a source file goes.
def outputPath (dir source : String) : String :=
  Text.Path.join dir (packageName source ++ ".rs")

-- The resolved package of a source text.
def buildPackage (file source : String) : Except Diagnostic Package :=
  let built : Except Diagnostic Package := do
    let unit ← Solidity.parse source
    Resolve.package (packageName file) unit
  built.mapError fun d => d.inFile file

structure Options where
  -- the contract to emit; the most derived one when empty
  contract : String := ""
  -- the program that formats the code, if it is to be formatted
  formatter : Option String := none

-- The contract to emit.
def mainContract (file : String) (p : Package) (name : String) : Except Diagnostic Contract :=
  (p.mainContract name).mapError fun e =>
    { Diagnostic.unexpected {} "a concrete contract" e.message with place := { file := file } }

-- The target with a name.
def targetNamed (name : String) : Except Diagnostic Target :=
  match Target.ofName? name with
  | some t => .ok t
  | none => .error (.unsupported {} ("unknown backend " ++ Text.quoted name))

-- The Rust code of a source text.
def compileWith (programs : Formatter.Programs) (file source target : String) (options : Options) :
    Except Stop String := do
  let package ← (buildPackage file source).mapError .fault
  let main ← (mainContract file package options.contract).mapError .fault
  let target ← (targetNamed target).mapError .fault
  let tree ← (Emit.file package main target).mapError (Stop.inFile file)
  match options.formatter with
  | some name => (Formatter.format programs name tree.text).mapError .fault
  | none => return tree.text

end RustContracts.Compile
