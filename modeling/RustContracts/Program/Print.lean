import RustContracts.Program.Contract
import RustContracts.Text.Quoted

-- Resolved programs as text, for a reader who wants to see what was understood.
namespace RustContracts.Program

def EnvKind.text : EnvKind → String
  | sender => "msg.sender"
  | timestamp => "block.timestamp"
  | blockNumber => "block.number"
  | value => "msg.value"
  | this => "this"

mutual

-- Every binary operation stands in parentheses.
def Expr.text : Expr → String
  | .int _ n => toString n
  | .bool _ b => if b then "true" else "false"
  | .str _ s => Text.quoted s
  | .var _ name _ => name
  | .field _ d => "self." ++ d.name
  | .const _ d => d.name
  | .member _ t name _ => t.text ++ "." ++ name
  | .index _ t k _ => t.text ++ "[" ++ k.text ++ "]"
  | .binary _ op l r _ => "(" ++ l.text ++ " " ++ op.text ++ " " ++ r.text ++ ")"
  | .unary _ op o _ => op.text ++ o.text
  | .call _ name args isSuper _ target _ =>
    (if isSuper then "super." else if target = "" then "" else target ++ ".") ++ name ++ "(" ++
      exprsText args ++ ")"
  | .libraryCall _ library _ f args =>
    library ++ "." ++ f.sourceName ++ "(" ++ exprsText args ++ ")"
  | .externalCall _ interface m address args =>
    interface ++ "(" ++ address.text ++ ")." ++ m.sourceName ++ "(" ++ exprsText args ++ ")"
  | .push _ a v => a.text ++ ".push(" ++ v.text ++ ")"
  | .pop _ a => a.text ++ ".pop()"
  | .length _ a => a.text ++ ".length"
  | .env _ kind => kind.text
  | .ternary _ c t e _ => "(" ++ c.text ++ " ? " ++ t.text ++ " : " ++ e.text ++ ")"
  | .tuple _ es => "(" ++ exprsText es ++ ")"
  | .cast _ type v => type.text ++ "(" ++ v.text ++ ")"
  | .enumValue _ r variant => r.name ++ "." ++ variant
  | .structLit _ r fs => r.name ++ "(" ++ exprsText fs ++ ")"
  | .bound _ signed bits isMax =>
    "type(" ++ Ty.intText signed bits ++ (if isMax then ").max" else ").min")
  | .newArray _ elem n => "new " ++ elem.text ++ "[](" ++ n.text ++ ")"
  | .arrayLit _ es _ => "[" ++ exprsText es ++ "]"
  | .zero _ t => "default(" ++ t.text ++ ")"

def exprsText : List Expr → String
  | [] => ""
  | [e] => e.text
  | e :: rest => e.text ++ ", " ++ exprsText rest

end

namespace Print

-- A line that is indented by two blanks for each level.
def line (level : Nat) (text : String) : String :=
  String.ofList (List.replicate (2 * level) ' ') ++ text ++ "\n"

def paramText (p : Param) : String :=
  if p.name = "" then p.type.text else p.type.text ++ " " ++ p.name

def paramsText (ps : List Param) : String := ", ".intercalate (ps.map paramText)

-- A block behind a heading, between braces.
def nested (level : Nat) (head body : String) : String :=
  line level (head ++ " \x7b") ++ body ++ line level "\x7d"

mutual

def stmtText (level : Nat) : Stmt → String
  | .block ⟨_, stmts, unchecked⟩ =>
    nested level (if unchecked then "unchecked " else "") (stmtsText (level + 1) stmts)
  | .decl _ vars value =>
    let names := ", ".intercalate (vars.map fun v => v.type.text ++ " " ++ v.name)
    let names := if 1 < vars.length then "(" ++ names ++ ")" else names
    line level ("let " ++ names ++ " = " ++ value.text)
  | .assign _ target value => line level (target.text ++ " = " ++ value.text)
  | .expr _ value => line level value.text
  | .ifElse _ cond whenTrue none =>
    nested level ("if " ++ cond.text) (blockText (level + 1) whenTrue)
  | .ifElse _ cond whenTrue (some whenFalse) =>
    nested level ("if " ++ cond.text) (blockText (level + 1) whenTrue) ++
      nested level "else" (blockText (level + 1) whenFalse)
  | .whileLoop _ cond body testLast =>
    if testLast then
      nested level "do" (blockText (level + 1) body) ++ line level ("while " ++ cond.text)
    else nested level ("while " ++ cond.text) (blockText (level + 1) body)
  | .forLoop _ init cond post body =>
    line level "for" ++ optionText (level + 1) init ++
      line (level + 1) ("cond " ++ (cond.map Expr.text).getD "_") ++
      optionText (level + 1) post ++ nested level "loop" (blockText (level + 1) body)
  | .returnValue _ none => line level "return"
  | .returnValue _ (some value) => line level ("return " ++ value.text)
  | .require _ cond error =>
    line level ("require " ++ cond.text ++ " else error[" ++ toString error.code.toNat ++ "]")
  | .revert _ error args =>
    line level ("revert error[" ++ toString error.code.toNat ++ "](" ++ exprsText args ++ ")")
  | .emit _ event args => line level ("emit " ++ event.name ++ "(" ++ exprsText args ++ ")")
  | .breakLoop _ => line level "break"
  | .continueLoop _ => line level "continue"
  | .placeholder _ => line level "_"

def optionText (level : Nat) : Option Stmt → String
  | none => ""
  | some s => stmtText level s

def blockText (level : Nat) : Block → String
  | ⟨_, stmts, _⟩ => stmtsText level stmts

def stmtsText (level : Nat) : List Stmt → String
  | [] => ""
  | s :: rest => stmtText level s ++ stmtsText level rest

end

def implementationText (impl : Implementation) : String :=
  let modifiers := String.join (impl.modifiers.map fun m =>
    " " ++ m.name ++ "(" ++ exprsText m.args ++ ")")
  match impl.body with
  | none => line 1 ("@" ++ impl.owner ++ ":" ++ modifiers ++ " <no body>")
  | some body => line 1 ("@" ++ impl.owner ++ ":" ++ modifiers) ++ blockText 2 body

def functionText (c : Contract) (f : Function) : String :=
  let returns := if f.returns.isEmpty then "" else " returns (" ++ paramsText f.returns ++ ")"
  let mutability := if f.mutability = .nonPayable then "" else " " ++ f.mutability.text
  let caller := if c.needsCaller f.toSignature then " [caller]" else ""
  line 0 (f.kind.text ++ " " ++ f.name ++ "(" ++ paramsText f.params ++ ")" ++ returns ++ " " ++
    f.visibility.text ++ mutability ++ caller) ++
    String.join (f.implementations.map implementationText) ++ line 0 ""

-- A titled list with a blank line behind it; nothing when the list is empty.
def sectionText (title : String) (lines : List String) : String :=
  if lines.isEmpty then ""
  else line 0 title ++ String.join (lines.map (line 1)) ++ line 0 ""

def padRight (width : Nat) (s : String) : String :=
  s ++ String.ofList (List.replicate (width - s.length) ' ')

def storageText (slot : Nat) (field : StorageField) : String :=
  let value := match field.value with
    | some v => " = " ++ v.text
    | none => ""
  "slot[" ++ toString slot ++ "] " ++ padRight 12 field.name ++ " : " ++ field.type.text ++ value ++
    "  ; " ++ field.owner ++ (if field.isPublic then " public" else "") ++
    (if field.isImmutable then " immutable" else "")

def errorText (e : ErrorEntry) : String :=
  toString e.code.toNat ++ ": " ++
    match e.custom with
    | some d => "error " ++ d.name ++ "(" ++ paramsText d.fields ++ ")"
    | none => Text.quoted e.message

def eventText (e : EventDecl) : String :=
  e.name ++ "(" ++ ", ".intercalate (e.fields.map fun f =>
    f.type.text ++ (if f.indexed then " indexed " else " ") ++ f.name) ++ ")"

end Print

-- A contract with everything that it inherits.
def Package.contractText (p : Package) (c : Contract) : String :=
  Print.line 0 (c.kind.text.toUpper ++ " " ++ c.name ++ " (IR)") ++ Print.line 0 "" ++
    Print.line 0 ("LINEARIZATION: " ++ " -> ".intercalate c.chain) ++ Print.line 0 "" ++
    Print.sectionText "STORAGE LAYOUT:"
      (c.storage.zipIdx.map fun (f, i) => Print.storageText i f) ++
    Print.sectionText "ERRORS:" (p.registry.entries.map Print.errorText) ++
    Print.sectionText "EVENTS:" ((p.visibleEvents c).map Print.eventText) ++
    String.join ((c.constructor.toList ++ c.dispatch).map (Print.functionText c))

end RustContracts.Program
