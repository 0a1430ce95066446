import RustContracts.Rust.Tree

-- Rust trees as text, four spaces for each level, with no more parentheses than needed.
namespace RustContracts.Rust

def indentation (depth : Nat) : String := "".pushn ' ' (4 * depth)

def line (depth : Nat) (text : String) : String :=
  if text = "" then "\n" else indentation depth ++ text ++ "\n"

def join (sep : String) (texts : List String) : String := sep.intercalate texts

-- How tightly an expression holds together; larger is tighter.
namespace Tightness

def or : Nat := 1
def compare : Nat := 3
def cast : Nat := 10
def unary : Nat := 11
def trailing : Nat := 12
def atom : Nat := 13

end Tightness

def operatorTightness : String → Nat
  | "||" => Tightness.or
  | "&&" => 2
  | "==" | "!=" | "<" | "<=" | ">" | ">=" => Tightness.compare
  | "|" => 4
  | "^" => 5
  | "&" => 6
  | "<<" | ">>" => 7
  | "+" | "-" => 8
  | "*" | "/" | "%" => 9
  | _ => 0

def Expr.tightness : Expr → Nat
  | .binary op _ _ => operatorTightness op
  | .cast _ _ => Tightness.cast
  | .unary _ _ => Tightness.unary
  | .methodCall _ _ _ | .field _ _ | .call _ _ | .index _ _ | .tryOp _ | .bangCall _ _ =>
    Tightness.trailing
  | .ifElse _ _ _ _ | .block _ => 0
  | .lit text => if text.startsWith "-" then Tightness.unary else Tightness.atom
  | .ident _ | .tuple _ | .array _ | .structLit _ _ _ | .missing => Tightness.atom

-- Comparisons do not chain; all other operators group to the left.
def leftTightness (op : String) : Nat :=
  let t := operatorTightness op
  if t = Tightness.compare then t + 1 else t

def parenthesizedIf (needed : Bool) (text : String) : String :=
  if needed then "(" ++ text ++ ")" else text

def labelText (label : String) : String := if label = "" then "" else "'" ++ label ++ ": "

-- Whether a statement that is this expression ends without a semicolon.
def Expr.isBlockLike : Expr → Bool
  | .ifElse _ _ _ _ | .block _ => true
  | _ => false

def Expr.isVariable (name : String) : Expr → Bool
  | .ident n => n == name
  | _ => false

mutual

-- An expression at a nesting depth, where anything looser than `least` needs parentheses.
def Expr.textAt (depth least : Nat) : Expr → String
  | .ident name => name
  | .lit text => parenthesizedIf ((Expr.lit text).tightness < least) text
  | .field target name =>
    parenthesizedIf (Tightness.trailing < least)
      (target.textAt depth Tightness.trailing ++ "." ++ name)
  | .methodCall receiver method args =>
    parenthesizedIf (Tightness.trailing < least)
      (receiver.textAt depth Tightness.trailing ++ "." ++ method ++ "(" ++ listText depth args ++ ")")
  | .call function args =>
    parenthesizedIf (Tightness.trailing < least)
      (function.textAt depth Tightness.trailing ++ "(" ++ listText depth args ++ ")")
  | .bangCall name args =>
    parenthesizedIf (Tightness.trailing < least) (name ++ "!(" ++ listText depth args ++ ")")
  | .binary op left right =>
    parenthesizedIf (operatorTightness op < least)
      (left.textAt depth (leftTightness op) ++ " " ++ op ++ " " ++
        right.textAt depth (operatorTightness op + 1))
  | .unary op operand =>
    parenthesizedIf (Tightness.unary < least) (op ++ operand.textAt depth Tightness.unary)
  | .index target key =>
    parenthesizedIf (Tightness.trailing < least)
      (target.textAt depth Tightness.trailing ++ "[" ++ key.textAt depth 0 ++ "]")
  | .tuple [e] => "(" ++ e.textAt depth 0 ++ ",)"
  | .tuple elements => "(" ++ listText depth elements ++ ")"
  | .array elements => "[" ++ listText depth elements ++ "]"
  | .structLit name [] none => name ++ " \x7b\x7d"
  | .structLit name fields base =>
    name ++ " \x7b\n" ++ fieldsText (depth + 1) fields ++ baseText (depth + 1) base ++
      indentation depth ++ "\x7d"
  | .cast value type =>
    parenthesizedIf (Tightness.cast < least)
      (value.textAt depth Tightness.cast ++ " as " ++ type)
  | .tryOp value =>
    parenthesizedIf (Tightness.trailing < least) (value.textAt depth Tightness.trailing ++ "?")
  | .ifElse pattern cond whenTrue whenFalse =>
    parenthesizedIf (0 < least)
      ("if " ++ (if pattern = "" then "" else "let " ++ pattern ++ " = ") ++
        cond.textAt depth Tightness.or ++ " " ++ whenTrue.textAt depth ++ elseText depth whenFalse)
  | .block body => parenthesizedIf (0 < least) (body.textAt depth)
  | .missing => ""

def listText (depth : Nat) : List Expr → String
  | [] => ""
  | [e] => e.textAt depth 0
  | e :: rest => e.textAt depth 0 ++ ", " ++ listText depth rest

-- The fields of a struct literal, one a line; a field given by a variable of its own name is written
-- once.
def fieldsText (depth : Nat) : List FieldInit → String
  | [] => ""
  | ⟨name, value⟩ :: rest =>
    indentation depth ++ (if value.isVariable name then name else name ++ ": " ++ value.textAt depth 0) ++
      ",\n" ++ fieldsText depth rest

def baseText (depth : Nat) : Option Expr → String
  | none => ""
  | some base => indentation depth ++ ".." ++ base.textAt depth Tightness.trailing ++ "\n"

-- What stands behind the first branch; an expression that is no block gets braces.
def elseText (depth : Nat) : Option Expr → String
  | none => ""
  | some e =>
    if e.isBlockLike then " else " ++ e.textAt depth 0
    else
      " else \x7b\n" ++ indentation (depth + 1) ++ e.textAt (depth + 1) 0 ++ "\n" ++
        indentation depth ++ "\x7d"

-- A block from where the line stands to its closing brace.
def Block.textAt (depth : Nat) : Block → String
  | ⟨[], none⟩ => "\x7b\x7d"
  | ⟨stmts, none⟩ => "\x7b\n" ++ stmtsText (depth + 1) stmts ++ indentation depth ++ "\x7d"
  | ⟨stmts, some tail⟩ =>
    "\x7b\n" ++ stmtsText (depth + 1) stmts ++ indentation (depth + 1) ++
      tail.textAt (depth + 1) 0 ++ "\n" ++ indentation depth ++ "\x7d"

def Stmt.textAt (depth : Nat) : Stmt → String
  | .letVar isMut pattern type value =>
    indentation depth ++ "let " ++ (if isMut then "mut " else "") ++ pattern ++
      (if type = "" then "" else ": " ++ type) ++ initText depth value ++ ";\n"
  | .expr value =>
    indentation depth ++ value.textAt depth 0 ++ (if value.isBlockLike then "\n" else ";\n")
  | .assign target op value =>
    indentation depth ++ target.textAt depth 0 ++ " " ++ op ++ " " ++ value.textAt depth 0 ++ ";\n"
  | .whileLoop label cond body =>
    indentation depth ++ labelText label ++ "while " ++ cond.textAt depth 0 ++ " " ++
      body.textAt depth ++ "\n"
  | .loop label body =>
    indentation depth ++ labelText label ++ "loop " ++ body.textAt depth ++ "\n"
  | .labeled label body => indentation depth ++ labelText label ++ body.textAt depth ++ "\n"
  | .breakLoop label => line depth (if label = "" then "break;" else "break '" ++ label ++ ";")
  | .continueLoop label =>
    line depth (if label = "" then "continue;" else "continue '" ++ label ++ ";")
  | .returnValue none => line depth "return;"
  | .returnValue (some value) => indentation depth ++ "return " ++ value.textAt depth 0 ++ ";\n"

def initText (depth : Nat) : Option Expr → String
  | none => ""
  | some value => " = " ++ value.textAt depth 0

def stmtsText (depth : Nat) : List Stmt → String
  | [] => ""
  | s :: rest => s.textAt depth ++ stmtsText depth rest

end

def Expr.text (e : Expr) : String := e.textAt 0 0

def attrsText (depth : Nat) (attrs : List String) : String :=
  String.join (attrs.map fun a => line depth ("#[" ++ a ++ "]"))

def Field.textAt (depth : Nat) (f : Field) : String :=
  attrsText depth f.attrs ++
    line depth ((if f.isPublic then "pub " else "") ++ f.name ++ ": " ++ f.type ++ ",")

def fieldDeclsText (depth : Nat) (fields : List Field) : String :=
  String.join (fields.map fun f => f.textAt depth)

def Variant.textAt (depth : Nat) (v : Variant) : String :=
  attrsText depth v.attrs ++
    if !v.fields.isEmpty then
      line depth (v.name ++ " \x7b") ++ fieldDeclsText (depth + 1) v.fields ++ line depth "\x7d,"
    else if !v.tuple.isEmpty then line depth (v.name ++ "(" ++ join ", " v.tuple ++ "),")
    else if v.discriminant != "" then line depth (v.name ++ " = " ++ v.discriminant ++ ",")
    else line depth (v.name ++ ",")

-- A unit result is not written.
def Function.signature (f : Function) : String :=
  let params := (if f.receiver = "" then [] else [f.receiver]) ++
    f.params.map fun p => p.name ++ ": " ++ p.type
  (if f.isPublic then "pub " else "") ++ "fn " ++ f.name ++ "(" ++ join ", " params ++ ")" ++
    (if f.result = "" || f.result = "()" then "" else " -> " ++ f.result)

def Function.textAt (depth : Nat) (f : Function) : String :=
  attrsText depth f.attrs ++
    match f.body with
    | none => line depth (f.signature ++ ";")
    | some body => indentation depth ++ f.signature ++ " " ++ body.textAt depth ++ "\n"

-- Functions with a blank line between them.
def functionsText (depth : Nat) (fs : List Function) : String :=
  join "\n" (fs.map fun f => f.textAt depth)

-- The lines of a text without the line ends that close it.
def rawLines (text : String) : List String :=
  (String.ofList (text.toList.reverse.dropWhile (· == '\n')).reverse).splitOn "\n"

def Item.isUse : Item → Bool
  | .use _ => true
  | _ => false

mutual

def Item.textAt (depth : Nat) : Item → String
  | .use path => line depth ("use " ++ path ++ ";")
  | .module attrs name items =>
    attrsText depth attrs ++ line depth ("pub mod " ++ name ++ " \x7b") ++
      itemsText (depth + 1) items ++ line depth "\x7d"
  | .struct attrs name fields isUnit =>
    attrsText depth attrs ++
      if isUnit && fields.isEmpty then line depth ("pub struct " ++ name ++ ";")
      else
        line depth ("pub struct " ++ name ++ " \x7b") ++ fieldDeclsText (depth + 1) fields ++
          line depth "\x7d"
  | .enum attrs name variants =>
    attrsText depth attrs ++ line depth ("pub enum " ++ name ++ " \x7b") ++
      String.join (variants.map fun v => v.textAt (depth + 1)) ++ line depth "\x7d"
  | .typeAlias name type => line depth ("pub type " ++ name ++ " = " ++ type ++ ";")
  | .const name type value =>
    indentation depth ++ "const " ++ name ++ ": " ++ type ++ " = " ++ value.textAt depth 0 ++ ";\n"
  | .impl attrs trait type functions =>
    attrsText depth attrs ++
      line depth ("impl " ++ (if trait = "" then "" else trait ++ " for ") ++ type ++ " \x7b") ++
      functionsText (depth + 1) functions ++ line depth "\x7d"
  | .trait attrs name functions =>
    attrsText depth attrs ++ line depth ("pub trait " ++ name ++ " \x7b") ++
      functionsText (depth + 1) functions ++ line depth "\x7d"
  | .function f => f.textAt depth
  | .raw text => String.join ((rawLines text).map fun l => line depth l)

-- Items with a blank line between them, except inside a run of imports.
def itemsText (depth : Nat) : List Item → String
  | [] => ""
  | [i] => i.textAt depth
  | i :: j :: rest =>
    i.textAt depth ++ (if i.isUse && j.isUse then "" else "\n") ++
      itemsText depth (j :: rest)

end

-- A whole file; a blank line stands between its attributes and its items.
def File.text (f : File) : String :=
  String.join (f.innerAttrs.map fun a => line 0 ("#![" ++ a ++ "]")) ++
    (if f.innerAttrs.isEmpty || f.items.isEmpty then "" else "\n") ++ itemsText 0 f.items

end RustContracts.Rust
