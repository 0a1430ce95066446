import RustContracts.Solidity.Tree
import RustContracts.Text.Quoted

-- Types and expressions as they would be written, and the shape of an expression in words.
namespace RustContracts.Solidity

mutual

def Expression.text : Expression → String
  | ⟨_, _, target, none⟩ => target.text
  | ⟨_, _, target, some assigned⟩ => target.text ++ assigned.text

def Assigned.text : Assigned → String
  | ⟨op, value⟩ => " " ++ op.text ++ " " ++ value.text

def Conditional.text : Conditional → String
  | ⟨cond, none⟩ => cond.text
  | ⟨cond, some branches⟩ => cond.text ++ branches.text

def Branches.text : Branches → String
  | ⟨whenTrue, whenFalse⟩ => " ? " ++ whenTrue.text ++ " : " ++ whenFalse.text

def Chain.text : Chain → String
  | ⟨first, rest⟩ => first.text ++ linksText rest

def linksText : List Link → String
  | [] => ""
  | l :: rest => l.text ++ linksText rest

def Link.text : Link → String
  | ⟨_, op, right⟩ => " " ++ op.text ++ " " ++ right.text

def Operand.text : Operand → String
  | .unary _ op operand => (if op = .delete then "delete " else op.text) ++ operand.text
  | .term _ primary suffixes => primary.text ++ suffixesText suffixes

def suffixesText : List Suffix → String
  | [] => ""
  | s :: rest => s.text ++ suffixesText rest

def Suffix.text : Suffix → String
  | .member _ name => "." ++ name
  | .index _ none => "[]"
  | .index _ (some e) => "[" ++ e.text ++ "]"
  | .call _ args => "(" ++ argsText args ++ ")"
  | .namedCall _ args => "(\x7b" ++ namedArgsText args ++ "\x7d)"
  | .step _ op => op.text

def argsText : List Expression → String
  | [] => ""
  | [e] => e.text
  | e :: rest => e.text ++ ", " ++ argsText rest

def namedArgsText : List NamedArg → String
  | [] => ""
  | [a] => a.text
  | a :: rest => a.text ++ ", " ++ namedArgsText rest

def NamedArg.text : NamedArg → String
  | ⟨_, name, value⟩ => name ++ ": " ++ value.text

def Primary.text : Primary → String
  | .number _ digits unit => if unit = "" then digits else digits ++ " " ++ unit
  | .strings parts => Text.quoted (String.join parts)
  | .bool b => if b then "true" else "false"
  | .typeOf t => "type(" ++ t.text ++ ")"
  | .new t => "new " ++ t.text
  | .tuple elements => "(" ++ argsText elements ++ ")"
  | .array elements => "[" ++ argsText elements ++ "]"
  | .ident name => name

def TypeName.text : TypeName → String
  | ⟨_, base, payable, dims⟩ =>
    base.text ++ (if payable then " payable" else "") ++ dimsText dims

def TypeBase.text : TypeBase → String
  | .mapping _ key _ value _ => "mapping(" ++ key.text ++ " => " ++ value.text ++ ")"
  | .path name => name

def dimsText : List ArrayDim → String
  | [] => ""
  | d :: rest => d.text ++ dimsText rest

def ArrayDim.text : ArrayDim → String
  | ⟨_, none⟩ => "[]"
  | ⟨_, some size⟩ => "[" ++ size.text ++ "]"

end

namespace Expression

-- The operand that an expression consists of, when no binary operator, condition or assignment is
-- around it.
def operand? (e : Expression) : Option Operand :=
  match e.assigned, e.target.branches, e.target.cond.rest with
  | none, none, [] => some e.target.cond.first
  | _, _, _ => none

-- The shape of an expression, for messages.
def describe (e : Expression) : String :=
  if e.assigned.isSome then "assignment"
  else if e.target.branches.isSome then "conditional"
  else if !e.target.cond.rest.isEmpty then "binary expression"
  else
    match e.target.cond.first with
    | .unary _ _ _ => "unary expression"
    | .term _ primary suffixes =>
      match suffixes.getLast? with
      | some (.call _ _) | some (.namedCall _ _) => "call"
      | some (.index _ _) => "index access"
      | some (.member _ _) => "member access"
      | some (.step _ _) => "unary expression"
      | none =>
        match primary with
        | .number _ _ _ | .strings _ | .bool _ => "literal"
        | .tuple _ => "tuple"
        | .array _ => "array literal"
        | .typeOf _ | .new _ => "type expression"
        | .ident _ => "identifier"

end Expression

end RustContracts.Solidity
