import RustContracts.Abi.Keccak
import RustContracts.Abi.Signature
import RustContracts.Compile
import RustContracts.Config
import RustContracts.Diagnostic.Basic
import RustContracts.Diagnostic.Kind
import RustContracts.Diagnostic.Report
import RustContracts.Editor.Address
import RustContracts.Editor.Highlight
import RustContracts.Editor.Marker
import RustContracts.Editor.Session
import RustContracts.Editor.Uri
import RustContracts.Emit.Backend
import RustContracts.Emit.Basic
import RustContracts.Emit.Call
import RustContracts.Emit.Constructor
import RustContracts.Emit.Contract
import RustContracts.Emit.Expr
import RustContracts.Emit.Function
import RustContracts.Emit.Modifier
import RustContracts.Emit.Place
import RustContracts.Emit.Stmt
import RustContracts.FileSystem.Basic
import RustContracts.FileSystem.Project
import RustContracts.Formatter
import RustContracts.Inheritance.Graph
import RustContracts.Inheritance.Hierarchy
import RustContracts.Inheritance.Merge
import RustContracts.Ink.Function
import RustContracts.Ink.Operator
import RustContracts.Ink.Storage
import RustContracts.Ink.Type
import RustContracts.Program.Callers
import RustContracts.Program.Contract
import RustContracts.Program.Expr
import RustContracts.Program.Flatten
import RustContracts.Program.Print
import RustContracts.Program.Registry
import RustContracts.Program.Stmt
import RustContracts.Program.Ty
import RustContracts.Proofs.Abi.Signature
import RustContracts.Proofs.Editor.Highlight
import RustContracts.Proofs.Editor.Session
import RustContracts.Proofs.Emit.Agree
import RustContracts.Proofs.Emit.Assigned
import RustContracts.Proofs.Emit.AssignedMut
import RustContracts.Proofs.Emit.BaseArgs
import RustContracts.Proofs.Emit.CallCount
import RustContracts.Proofs.Emit.CallerParam
import RustContracts.Proofs.Emit.Cell
import RustContracts.Proofs.Emit.CompoundAssign
import RustContracts.Proofs.Emit.Constant
import RustContracts.Proofs.Emit.Control
import RustContracts.Proofs.Emit.Declare
import RustContracts.Proofs.Emit.Detour
import RustContracts.Proofs.Emit.Ending
import RustContracts.Proofs.Emit.ErrorVariant
import RustContracts.Proofs.Emit.FunctionNames
import RustContracts.Proofs.Emit.Hygiene
import RustContracts.Proofs.Emit.Interface
import RustContracts.Proofs.Emit.Launch
import RustContracts.Proofs.Emit.Leaving
import RustContracts.Proofs.Emit.LocalCopy
import RustContracts.Proofs.Emit.LocalNames
import RustContracts.Proofs.Emit.LoopScope
import RustContracts.Proofs.Emit.Mutability
import RustContracts.Proofs.Emit.Neat
import RustContracts.Proofs.Emit.NeatExpr
import RustContracts.Proofs.Emit.NeatStmt
import RustContracts.Proofs.Emit.Orderly
import RustContracts.Proofs.Emit.Overload
import RustContracts.Proofs.Emit.PlaceUpdate
import RustContracts.Proofs.Emit.Placed
import RustContracts.Proofs.Emit.Plain
import RustContracts.Proofs.Emit.RefMark
import RustContracts.Proofs.Emit.Reference
import RustContracts.Proofs.Emit.Selector
import RustContracts.Proofs.Emit.Setting
import RustContracts.Proofs.Emit.Skeleton
import RustContracts.Proofs.Emit.Steady
import RustContracts.Proofs.Emit.Storage
import RustContracts.Proofs.Emit.StorageCell
import RustContracts.Proofs.Emit.Super
import RustContracts.Proofs.Emit.Temp
import RustContracts.Proofs.Emit.Tracked
import RustContracts.Proofs.Emit.TrackedStmt
import RustContracts.Proofs.Emit.TypeNames
import RustContracts.Proofs.Emit.Unambiguous
import RustContracts.Proofs.Emit.Widths
import RustContracts.Proofs.Emit.WriteBack
import RustContracts.Proofs.Emit.Writes
import RustContracts.Proofs.FileSystem.CompileFile
import RustContracts.Proofs.Inheritance.Complete
import RustContracts.Proofs.Inheritance.Hierarchy
import RustContracts.Proofs.Inheritance.Linearize
import RustContracts.Proofs.Inheritance.Order
import RustContracts.Proofs.Inheritance.Search
import RustContracts.Proofs.Program.Dispatch
import RustContracts.Proofs.Program.Nested
import RustContracts.Proofs.Program.Overlay
import RustContracts.Proofs.Program.Registry
import RustContracts.Proofs.Program.Run
import RustContracts.Proofs.Program.Subterms
import RustContracts.Proofs.Resolve.ArrayLength
import RustContracts.Proofs.Resolve.Blank
import RustContracts.Proofs.Resolve.Callers
import RustContracts.Proofs.Resolve.Code
import RustContracts.Proofs.Resolve.DataLocation
import RustContracts.Proofs.Resolve.Declared
import RustContracts.Proofs.Resolve.Folding
import RustContracts.Proofs.Resolve.Getter
import RustContracts.Proofs.Resolve.Grouping
import RustContracts.Proofs.Resolve.Package
import RustContracts.Proofs.Resolve.PackageCode
import RustContracts.Proofs.Resolve.Placed
import RustContracts.Proofs.Resolve.Reverts
import RustContracts.Proofs.Resolve.Steps
import RustContracts.Proofs.Resolve.StorageOrder
import RustContracts.Proofs.Rust.Builtin
import RustContracts.Proofs.Rust.CallCount
import RustContracts.Proofs.Rust.Context
import RustContracts.Proofs.Rust.Eval
import RustContracts.Proofs.Rust.Grammar
import RustContracts.Proofs.Rust.Identifier
import RustContracts.Proofs.Rust.Machine
import RustContracts.Proofs.Rust.Reads
import RustContracts.Proofs.Rust.RoundTrip
import RustContracts.Proofs.Rust.StringLiteral
import RustContracts.Proofs.Rust.Value
import RustContracts.Proofs.Rust.Variable
import RustContracts.Proofs.Solidity.Digits
import RustContracts.Proofs.Solidity.Number
import RustContracts.Proofs.Solidity.Scan
import RustContracts.Proofs.Soroban.Zero
import RustContracts.Resolve.Binary
import RustContracts.Resolve.Declare
import RustContracts.Resolve.Expr
import RustContracts.Resolve.Package
import RustContracts.Resolve.Scope
import RustContracts.Resolve.Stmt
import RustContracts.Resolve.Term
import RustContracts.Rust.Tree
import RustContracts.Rust.Name
import RustContracts.Rust.Print
import RustContracts.Solidity.Grammar
import RustContracts.Solidity.Lexeme
import RustContracts.Solidity.Number
import RustContracts.Solidity.Operator
import RustContracts.Solidity.Parse
import RustContracts.Solidity.Print
import RustContracts.Solidity.Rule
import RustContracts.Solidity.Shape
import RustContracts.Solidity.StringLiteral
import RustContracts.Solidity.Tree
import RustContracts.Soroban.Function
import RustContracts.Soroban.Operator
import RustContracts.Soroban.Storage
import RustContracts.Soroban.Type
import RustContracts.Target
import RustContracts.Text.Case
import RustContracts.Text.Path
import RustContracts.Text.Position
import RustContracts.Text.Printable
import RustContracts.Text.Quoted
import RustContracts.Toml.Table
import RustContracts.Toml.Token
