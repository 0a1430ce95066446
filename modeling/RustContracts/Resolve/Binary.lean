import RustContracts.Program.Expr
import RustContracts.Solidity.Number

-- Binary operations: grouping by precedence, typing, and computing with literals.
namespace RustContracts.Resolve

open Program
open Solidity (BinaryOp)
open Text (Position)

variable {α : Type}

-- An operator with its place and the operand behind it.
structure Step (α : Type) where
  start : Position
  op : BinaryOp
  right : α

mutual

-- Reads operators that bind at least as tightly as `least`. `fuel` bounds the depth; twice the number
-- of operators is enough.
def climb (combine : Position → BinaryOp → α → α → α) :
    Nat → Nat → α → List (Step α) → α × List (Step α)
  | 0, _, left, rest => (left, rest)
  | _ + 1, _, left, [] => (left, [])
  | fuel + 1, least, left, s :: rest =>
    if s.op.precedence < least then (left, s :: rest)
    else
      let (right, rest) := tighten combine fuel s.op s.right rest
      climb combine fuel least (combine s.start s.op left right) rest

-- Extends the right operand of `op` by all operators that bind tighter, or equally tight when `op`
-- groups to the right.
def tighten (combine : Position → BinaryOp → α → α → α) :
    Nat → BinaryOp → α → List (Step α) → α × List (Step α)
  | 0, _, right, rest => (right, rest)
  | _ + 1, _, right, [] => (right, [])
  | fuel + 1, op, right, s :: rest =>
    if op.precedence < s.op.precedence then
      let (right, rest) := climb combine fuel (op.precedence + 1) right (s :: rest)
      tighten combine fuel op right rest
    else if s.op.precedence = op.precedence ∧ op = .pow then
      let (right, rest) := climb combine fuel op.precedence right (s :: rest)
      tighten combine fuel op right rest
    else (right, s :: rest)

end

-- The tree of operands with operators between them. Exponentiation groups to the right, all else to
-- the left.
def group (combine : Position → BinaryOp → α → α → α) (first : α) (rest : List (Step α)) : α :=
  (climb combine (2 * rest.length + 2) 0 first rest).1

-- A word times a power, factor by factor, unless one of the products leaves the range of words.
def timesPower? (x : Nat) : Nat → Nat → Option Nat
  | 0, z => some z
  | count + 1, z => if z * x < Solidity.Number.wordLimit then timesPower? x count (z * x) else none

-- How many bits a number takes.
def bitLength (n : Nat) : Nat := if n = 0 then 0 else n.log2 + 1

-- The value of an operation on two words, unless it leaves the range of words.
def fold? (op : BinaryOp) (x y : Nat) : Option Nat :=
  let word? (n : Nat) : Option Nat := if n < Solidity.Number.wordLimit then some n else none
  match op with
  | .add => word? (x + y)
  | .sub => if x < y then none else some (x - y)
  | .mul => word? (x * y)
  | .div => if y = 0 then none else some (x / y)
  | .mod => if y = 0 then none else some (x % y)
  | .pow => if 256 < y then none else timesPower? x y 1
  | .shl => if 255 < y ∨ 256 < bitLength x + y then none else some ((x <<< y) % Solidity.Number.wordLimit)
  | .shr => if 255 < y then some 0 else some (x >>> y)
  | _ => none

-- The type of a binary operation.
def binaryType (op : BinaryOp) (left right : Ty) : Ty :=
  if op.isLogical then .bool
  else if op.keepsLeft then left
  else if left.isLiteral then right
  else left

-- A binary operation; one on two literals becomes a literal when its value is a word.
def newBinary (start : Position) (op : BinaryOp) (left right : Expr) : Expr :=
  let operation := .binary start op left right (binaryType op left.type right.type)
  match left, right with
  | .int _ x, .int _ y =>
    match fold? op x y with
    | some v => .int start v
    | none => operation
  | _, _ => operation

end RustContracts.Resolve
