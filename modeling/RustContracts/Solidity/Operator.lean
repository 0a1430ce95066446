-- The operators of expressions.
namespace RustContracts.Solidity

inductive BinaryOp where
  | or
  | and
  | eq
  | ne
  | le
  | ge
  | lt
  | gt
  | bitOr
  | bitXor
  | bitAnd
  | shl
  | shr
  | add
  | sub
  | pow
  | mul
  | div
  | mod
deriving DecidableEq, Inhabited

namespace BinaryOp

def text : BinaryOp → String
  | or => "||"
  | and => "&&"
  | eq => "=="
  | ne => "!="
  | le => "<="
  | ge => ">="
  | lt => "<"
  | gt => ">"
  | bitOr => "|"
  | bitXor => "^"
  | bitAnd => "&"
  | shl => "<<"
  | shr => ">>"
  | add => "+"
  | sub => "-"
  | pow => "**"
  | mul => "*"
  | div => "/"
  | mod => "%"

-- The order in which the grammar looks for them.
def all : List BinaryOp :=
  [or, and, eq, ne, le, ge, lt, gt, bitOr, bitXor, bitAnd, shl, shr, add, sub, pow, mul, div, mod]

-- How tightly an operator binds; a higher number binds tighter.
def precedence : BinaryOp → Nat
  | or => 1
  | and => 2
  | eq | ne => 3
  | lt | le | gt | ge => 4
  | bitOr => 5
  | bitXor => 6
  | bitAnd => 7
  | shl | shr => 8
  | add | sub => 9
  | mul | div | mod => 10
  | pow => 11

-- Operators whose value is a truth value.
def isLogical : BinaryOp → Bool
  | eq | ne | lt | le | gt | ge | and | or => true
  | _ => false

-- Operators that keep the type of their left operand.
def keepsLeft : BinaryOp → Bool
  | shl | shr | pow => true
  | _ => false

-- The operators that `=` can follow in a compound assignment.
def compound : List BinaryOp := [add, sub, mul, div, mod, bitOr, bitAnd, bitXor]

end BinaryOp

-- One more or one less.
inductive StepOp where
  | increment
  | decrement
deriving DecidableEq

namespace StepOp

def text : StepOp → String
  | increment => "++"
  | decrement => "--"

def binary : StepOp → BinaryOp
  | increment => .add
  | decrement => .sub

end StepOp

-- The operators that stand before their operand and have a value.
inductive UnaryOp where
  | not
  | negate
  | complement
deriving DecidableEq

def UnaryOp.text : UnaryOp → String
  | not => "!"
  | negate => "-"
  | complement => "~"

-- Everything that can stand before an operand.
inductive LeadingOp where
  | unary (op : UnaryOp)
  | step (op : StepOp)
  | delete
deriving DecidableEq

namespace LeadingOp

def text : LeadingOp → String
  | unary op => op.text
  | step op => op.text
  | delete => "delete"

def all : List LeadingOp :=
  [unary .not, unary .negate, unary .complement, step .increment, step .decrement, delete]

end LeadingOp

-- `=`, or a binary operator and `=`.
structure AssignOp where
  compound : Option BinaryOp
deriving DecidableEq

namespace AssignOp

def text (op : AssignOp) : String :=
  match op.compound with
  | none => "="
  | some b => b.text ++ "="

def all : List AssignOp := ⟨none⟩ :: BinaryOp.compound.map fun b => ⟨some b⟩

end AssignOp

end RustContracts.Solidity
