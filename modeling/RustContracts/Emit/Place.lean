import RustContracts.Emit.Expr

-- Changes of variables and storage. What the target cannot change where it stands is read into a variable,
-- changed there and written back.
namespace RustContracts.Emit

open Program
open Text (Position)

-- What happens to a place.
inductive Change where
  | set (value : Rust.Expr)
  | push (value : Rust.Expr)
  | pop

-- The statement that makes a change at a place.
def Change.at (place : Rust.Expr) : Change → Emit Rust.Stmt
  | set value => return .assign place "=" value
  | push value => do return .expr (← arrayPush place value)
  | pop => do return .expr (← arrayPop place)

-- Lets a variable stand for an expression that is better not repeated.
def bindUnlessSimple (stem : String) (x : Rust.Expr) : Emit (List Rust.Stmt × Rust.Expr) := do
  if x.isSimple then return ([], x)
  let name ← temp stem
  return ([.letVar false name "" (some x)], .ident name)

-- The same for several expressions.
def bindAll (stem : String) : List Rust.Expr → Emit (List Rust.Stmt × List Rust.Expr)
  | [] => return ([], [])
  | x :: rest => do
    let (bound, y) ← bindUnlessSimple stem x
    let (more, ys) ← bindAll stem rest
    return (bound ++ more, y :: ys)

-- A key that is read before it is moved.
def clonedKey : Rust.Expr → Rust.Expr
  | .ident name => (Rust.Expr.ident name).method "clone"
  | x => x

-- A change at the end of a path from a base.
def changePath (change : Change) : Rust.Expr → List Step → Emit (List Rust.Stmt)
  | base, [] => do return [← change.at base]
  | base, .member _ name _ :: rest => changePath change (.field base (Rust.Name.value name)) rest
  | base, .index start key on :: rest => do
    if on.isMapping then
      throw (.fault (.badMapping start "mappings are only supported as state variables"))
    let t := indexType key
    let k ← exprAs t key
    if ← elementsArePlaces then
      let element ← arrayIndex base k t
      changePath change element rest
    else
      match rest, change with
      | [], .set value => return [← arraySet base k t value]
      | _, _ =>
        let (bound, k) ← bindUnlessSimple "idx" k
        let old ← arrayIndex base k t
        let name ← temp "elem"
        let inner ← changePath change (.ident name) rest
        let back ← arraySet base k t (.ident name)
        return bound ++ [.letVar true name "" (some old)] ++ inner ++ [back]

-- The keys of a mapping at the start of a path, each as its type asks.
def mappingKeys (d : FieldDecl) : List Ty → List Step → Emit (List Rust.Expr)
  | [], _ => return []
  | _, [] => return []
  | t :: types, .index _ key _ :: path => do
    let k ← exprAs t key
    let ks ← mappingKeys d types path
    return k :: ks
  | _, .member start _ _ :: _ =>
    throw (.fault (.badMapping start ("mapping '" ++ d.sourceName ++ "' indexed with a member access")))

-- A change in storage. `path` leads from the field to the place.
def changeField (start : Position) (d : FieldDecl) (path : List Step) (change : Change) :
    Emit (List Rust.Stmt) := do
  let depth := d.type.mappingDepth
  if path.length < depth then throw (.fault (missingKeys start d))
  let keys ← mappingKeys d d.type.mappingKeys path
  let rest := path.drop depth
  match ← fieldPlace? d with
  | some place => changePath change place path
  | none =>
    match rest, change with
    | [], .set value => return [← writeField d keys value]
    | _, _ =>
      let (bound, keys) ← bindAll "key" keys
      let old ← readField d (keys.map clonedKey)
      let name ← temp "value"
      let inner ← changePath change (.ident name) rest
      let back ← writeField d keys (.ident name)
      return bound ++ [.letVar true name "" (some old)] ++ inner ++ [back]

-- A change of what an expression denotes.
def changeTarget (target : Expr) (change : Change) : Emit (List Rust.Stmt) := do
  match accessPath target with
  | (.var p name _, path) =>
    match ← local? name with
    | some ident => changePath change (.ident ident) path
    | none => throw (.fault (.unexpected p "variable" ("'" ++ name ++ "'")))
  | (.field _ d, path) => changeField target.start d path change
  | _ =>
    throw (.fault (.unexpected target.start "assignable expression"
      ("expression of type " ++ target.type.text)))

-- A variable for each element of a tuple.
def tupleTemps : List Expr → Emit (List String)
  | [] => return []
  | _ :: rest => do
    let name ← temp "t"
    let names ← tupleTemps rest
    return name :: names

mutual

-- Stores a value; a tuple is taken apart first.
def assign (value : Rust.Expr) : Expr → Emit (List Rust.Stmt)
  | .tuple _ elements => do
    let names ← tupleTemps elements
    let parts ← assignAll names elements
    return .letVar false ("(" ++ ", ".intercalate names ++ ")") "" (some value) :: parts
  | target => changeTarget target (.set value)

def assignAll : List String → List Expr → Emit (List Rust.Stmt)
  | name :: names, e :: rest => do
    let stmts ← assign (.ident name) e
    let more ← assignAll names rest
    return stmts ++ more
  | _, _ => return []

end

end RustContracts.Emit
