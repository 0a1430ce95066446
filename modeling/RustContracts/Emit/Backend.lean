import RustContracts.Ink.Function
import RustContracts.Ink.Operator
import RustContracts.Soroban.Function

-- What differs between targets, for the target at hand.
namespace RustContracts.Emit

open Program
open Solidity (BinaryOp UnaryOp)

def target : Emit Target := do return (← read).target

-- Types and constants.

def typeText (t : Ty) : Emit String := do
  match ← target with
  | .ink v => Ink.type v t
  | .soroban => Soroban.type t

def isCopy (t : Ty) : Emit Bool := do
  match ← target with
  | .ink _ => return Ink.isCopy t
  | .soroban => return Soroban.isCopy t

def intLiteral (value : Nat) (negative signed : Bool) (bits : Nat) : Emit Rust.Expr := do
  match ← target with
  | .ink v => Ink.intLiteral v value negative signed bits
  | .soroban => Soroban.intLiteral value negative signed bits

def stringLiteral (text : String) : Emit Rust.Expr := do
  match ← target with
  | .ink _ => Ink.stringLiteral text
  | .soroban => Soroban.stringLiteral text

def zero (t : Ty) : Emit Rust.Expr := do
  match ← target with
  | .ink v => Ink.zero v t
  | .soroban => Soroban.zero t

def intBound (signed : Bool) (bits : Nat) (isMax : Bool) : Emit Rust.Expr := do
  match ← target with
  | .ink v => Ink.intBound v signed bits isMax
  | .soroban => Soroban.intBound signed bits isMax

def enumItem (e : EnumDecl) : Emit Rust.Item := do
  match ← target with
  | .ink _ => return Ink.enumItem e
  | .soroban => Soroban.enumItem e

def structItem (s : StructDecl) : Emit Rust.Item := do
  match ← target with
  | .ink v => Ink.structItem v s
  | .soroban => Soroban.structItem s

-- Operators. The types of the operands differ only for shifts and powers.

def applyBinary (op : BinaryOp) (left right : Rust.Expr) (leftType rightType : Ty) :
    Emit Rust.Expr := do
  match ← target with
  | .ink _ => return Ink.binary op left right leftType rightType
  | .soroban => Soroban.binary op left right leftType rightType

def applyUnary (op : UnaryOp) (x : Rust.Expr) (t : Ty) : Emit Rust.Expr := do
  match ← target with
  | .ink _ => Ink.unary op x t
  | .soroban => Soroban.unary op x t

def convert (x : Rust.Expr) (source result : Ty) : Emit Rust.Expr := do
  match ← target with
  | .ink v => Ink.cast v x source result
  | .soroban => Soroban.cast x source result

-- Arrays.

-- Whether an element of an array can be assigned where it stands.
def elementsArePlaces : Emit Bool := do
  match ← target with
  | .ink _ => return true
  | .soroban => return false

def arrayIndex (array key : Rust.Expr) (keyType : Ty) : Emit Rust.Expr := do
  match ← target with
  | .ink _ => return Ink.arrayIndex array key keyType
  | .soroban => return Soroban.arrayIndex array key keyType

def arraySet (array key : Rust.Expr) (keyType : Ty) (value : Rust.Expr) : Emit Rust.Stmt := do
  match ← target with
  | .ink _ => return .assign (Ink.arrayIndex array key keyType) "=" value
  | .soroban => return Soroban.arraySet array key keyType value

def arrayLength (array : Rust.Expr) : Emit Rust.Expr := do
  match ← target with
  | .ink v => Ink.arrayLength v array
  | .soroban => Soroban.arrayLength array

def arrayPush (array value : Rust.Expr) : Emit Rust.Expr := do
  match ← target with
  | .ink _ => return array.methodCall "push" [value]
  | .soroban => return array.methodCall "push_back" [value]

def arrayPop (array : Rust.Expr) : Emit Rust.Expr := do
  match ← target with
  | .ink _ => return array.method "pop"
  | .soroban => return array.method "pop_back"

def newArray (elem : Ty) (size : Rust.Expr) (sizeType : Ty) : Emit Rust.Expr := do
  match ← target with
  | .ink v => Ink.newArray v elem size sizeType
  | .soroban => Soroban.newArray elem size sizeType

def arrayLiteral (length : Int) (elements : List Rust.Expr) : Emit Rust.Expr := do
  match ← target with
  | .ink _ => Ink.arrayLiteral length elements
  | .soroban => Soroban.arrayLiteral elements

def envValue (kind : EnvKind) : Emit Rust.Expr := do
  match ← target with
  | .ink v => Ink.envValue v kind
  | .soroban => Soroban.envValue kind

-- Storage, events and errors.

def storageItems : Emit (List Rust.Item) := do
  match ← target with
  | .ink v => Ink.storageItems v
  | .soroban => Soroban.storageItems

-- The place of a field, where the target keeps it in memory.
def fieldPlace? (f : FieldDecl) : Emit (Option Rust.Expr) := do
  match ← target with
  | .ink _ => return Ink.fieldPlace? f
  | .soroban => return none

-- A field or, with keys, an entry of a mapping.
def readField (f : FieldDecl) (keys : List Rust.Expr) : Emit Rust.Expr := do
  match ← target with
  | .ink _ => return Ink.readField f keys
  | .soroban => Soroban.readField f keys

def writeField (f : FieldDecl) (keys : List Rust.Expr) (value : Rust.Expr) : Emit Rust.Stmt := do
  match ← target with
  | .ink _ => return Ink.writeField f value keys
  | .soroban => return Soroban.writeField f value keys

def eventItems (events : List EventDecl) : Emit (List Rust.Item) := do
  match ← target with
  | .ink v => events.mapM (Ink.eventItem v)
  | .soroban => return []

def emitEvent (ev : EventDecl) (args : List Rust.Expr) : Emit Rust.Stmt := do
  match ← target with
  | .ink _ => return Ink.emitEvent ev args
  | .soroban => Soroban.emitEvent ev args

def errorItems (entries : List ErrorEntry) : Emit (List Rust.Item) := do
  match ← target with
  | .ink v => Ink.errorItems v entries
  | .soroban => Soroban.errorItems entries

-- The error value that a function returns for an entry.
def errorValue (entry : ErrorEntry) (args : List Rust.Expr) : Emit Rust.Expr := do
  match ← target with
  | .ink _ => Ink.revert entry args
  | .soroban => Soroban.revert entry

-- Other contracts.

def interfaceItems (c : Contract) : Emit (List Rust.Item) := do
  match ← target with
  | .ink v => Ink.interfaceItems v c
  | .soroban => Soroban.interfaceItems c

-- A reference to the contract at an address, and its type where that has to be written.
def externalRef (interface : String) (address : Rust.Expr) : Emit (Rust.Expr × String) := do
  match ← target with
  | .ink _ => return Ink.externalRef interface address
  | .soroban => return (Soroban.externalRef interface address, "")

def externalCall (method : Signature) (ref : Rust.Expr) (args : List Rust.Expr) :
    Emit Rust.Expr := do
  match ← target with
  | .ink _ => return Ink.externalCall method ref args
  | .soroban => return Soroban.externalCall method ref args

-- Functions.

-- A function without its body.
def routineShell (r : Routine) : Emit Rust.Function := do
  match ← target with
  | .ink _ => Ink.routine r
  | .soroban => Soroban.routine r

-- What a function does before its body.
def preamble (r : Routine) : Emit (List Rust.Stmt) := do
  match ← target with
  | .ink _ => return []
  | .soroban => return Soroban.preamble r

-- A call of another function of the contract; its value is a result.
def invoke (callee : Routine) (args : List Rust.Expr) : Emit Rust.Expr := do
  match ← target with
  | .ink _ => return Ink.call callee args
  | .soroban => Soroban.call callee args

-- What runs when the contract is deployed, around the initializer.
def constructors (init : Option Routine) : Emit (List Rust.Function) := do
  match ← target with
  | .ink _ => Ink.constructors init
  | .soroban => Soroban.constructors init

def assemble (m : Module) : Emit Rust.File := do
  match ← target with
  | .ink v => Ink.assemble v m
  | .soroban => Soroban.assemble m

end RustContracts.Emit
