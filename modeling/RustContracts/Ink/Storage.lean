import RustContracts.Ink.Type

-- Storage and events of ink! contracts: one struct for the contract, with a `Mapping` for each mapping, and
-- one struct for each event.
namespace RustContracts.Ink

open Program Emit

-- The type of a field. A mapping of mappings has the tuple of all keys as its key.
def fieldType (v : InkVersion) (t : Ty) : Emit String := do
  match t.mappingKeys with
  | [] => type v t
  | keys =>
    let names ← types v keys
    let value ← type v t.mappingValue
    use "ink::storage::Mapping"
    let key := match names with
      | [name] => name
      | names => "(" ++ ", ".intercalate names ++ ")"
    return "Mapping<" ++ key ++ ", " ++ value ++ ">"

def storageItems (v : InkVersion) : Emit (List Rust.Item) := do
  let c := (← read).contract
  let fields ← c.storage.mapM fun f => do
    return { name := f.name, type := (← fieldType v f.type) : Rust.Field }
  return [.struct ["ink(storage)", "derive(Default)"] (Rust.Name.type c.name) fields fields.isEmpty]

def selfField (name : String) : Rust.Expr := .field (.ident "self") name

-- Fields that are no mappings are places.
def fieldPlace? (f : FieldDecl) : Option Rust.Expr :=
  if f.type.isMapping then none else some (selfField f.name)

def mappingKey : List Rust.Expr → Rust.Expr
  | [key] => key.ref
  | keys => (Rust.Expr.tuple keys).ref

-- An entry that was never written reads as the default.
def readField (f : FieldDecl) : List Rust.Expr → Rust.Expr
  | [] => selfField f.name
  | keys => ((selfField f.name).methodCall "get" [mappingKey keys]).method "unwrap_or_default"

def writeField (f : FieldDecl) (value : Rust.Expr) : List Rust.Expr → Rust.Stmt
  | [] => .assign (selfField f.name) "=" value
  | keys => .expr ((selfField f.name).methodCall "insert" [mappingKey keys, value.ref])

-- Events.

def eventFieldName (f : EventField) (i : Nat) : String :=
  if f.name = "" then "field_" ++ toString i else Rust.Name.value f.name

-- Indexed fields become topics.
def eventItem (v : InkVersion) (ev : EventDecl) : Emit Rust.Item := do
  let fields ← ev.fields.zipIdx.mapM fun (f, i) => do
    return { attrs := if f.indexed then ["ink(topic)"] else []
             isPublic := true
             name := eventFieldName f i
             type := (← type v f.type) : Rust.Field }
  return .struct [if ev.anonymous then "ink(event, anonymous)" else "ink(event)"]
    (Rust.Name.type ev.name) fields fields.isEmpty

def emitEvent (ev : EventDecl) (args : List Rust.Expr) : Rust.Stmt :=
  let name := Rust.Name.type ev.name
  let names := ev.fields.zipIdx.map fun (f, i) => eventFieldName f i
  let value :=
    if ev.fields.isEmpty then .ident name
    else .structLit name ((names.zip args).map fun (n, x) => ⟨n, x⟩) none
  .expr (((Rust.Expr.ident "self").method "env").methodCall "emit_event" [value])

end RustContracts.Ink
