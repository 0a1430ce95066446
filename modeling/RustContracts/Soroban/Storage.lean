import RustContracts.Soroban.Operator

-- Storage and events of Soroban contracts: entries of the host's storage under the variants of `DataKey`.
namespace RustContracts.Soroban

open Program Emit

-- One variant for a field; the keys of a mapping are its data. The type of the value is looked at
-- here already, so that an impossible one is found early.
def keyVariant (f : StorageField) : Emit Rust.Variant := do
  let keys ← types f.type.mappingKeys
  let _ ← type f.type.mappingValue
  return { name := Rust.Name.type f.name, tuple := keys }

def storageItems : Emit (List Rust.Item) := do
  let storage := (← read).contract.storage
  if storage.isEmpty then return []
  use "contracttype"
  let variants ← storage.mapM keyVariant
  return [.enum ["contracttype", "derive(Clone)"] "DataKey" variants]

def dataKey (f : FieldDecl) : List Rust.Expr → Rust.Expr
  | [] => .ident ("DataKey::" ++ Rust.Name.type f.name)
  | keys => .callPath ("DataKey::" ++ Rust.Name.type f.name) keys

def persistent : Rust.Expr := ((Rust.Expr.ident "env").method "storage").method "persistent"

-- An entry that was never written reads as the default, where there is one.
def readField (f : FieldDecl) (keys : List Rust.Expr) : Emit Rust.Expr := do
  let value := f.type.mappingValue
  let t ← type value
  let get := persistent.methodCall ("get::<DataKey, " ++ t ++ ">") [(dataKey f keys).ref]
  tryCatch
    (do return get.methodCall "unwrap_or" [← zero value])
    (fun
      | .fault _ => return get.method "unwrap"
      | .overflow => throw .overflow)

def writeField (f : FieldDecl) (value : Rust.Expr) (keys : List Rust.Expr) : Rust.Stmt :=
  .expr (persistent.methodCall "set" [(dataKey f keys).ref, borrow value])

-- The name and the indexed fields are published as topics, the other fields as data.
def emitEvent (ev : EventDecl) (args : List Rust.Expr) : Emit Rust.Stmt := do
  use "Symbol"
  let fields := ev.fields.zip args
  let topics := (fields.filter fun (f, _) => f.indexed).map Prod.snd
  let data := (fields.filter fun (f, _) => !f.indexed).map Prod.snd
  let name := hostCall "Symbol::new" [.lit (Rust.quoted ev.name)]
  let payload := if data.isEmpty then .lit "()" else .tuple data
  return .expr (((Rust.Expr.ident "env").method "events").methodCall "publish"
    [.tuple (name :: topics), payload])

end RustContracts.Soroban
