import RustContracts.Emit.Modifier

-- Functions with their bodies.
namespace RustContracts.Emit

open Program
open Text (Position)

-- Declares parameters and marks those that the body changes.
def declareParams : List Param → List Rust.Param → Emit (List Rust.Param)
  | p :: params, r :: rest => do
    if p.name = "" then return r :: (← declareParams params rest)
    let changed ← isMutated p.name
    declare p.name (Rust.Name.value p.name)
    let more ← declareParams params rest
    return { r with name := if changed then "mut " ++ r.name else r.name } :: more
  | _, rest => return rest

-- Declares the named results with zeros as values.
def declareResults : List Param → Emit (List Rust.Stmt)
  | [] => return []
  | r :: rest => do
    if r.name = "" then declareResults rest
    else
      let t ← typeText r.type
      let z ← zero r.type
      let ident := Rust.Name.value r.name
      let s := Rust.Stmt.letVar (← isMutated r.name) ident t (some z)
      declare r.name ident
      let more ← declareResults rest
      return s :: more

-- An implementation of a function, inside its modifiers.
def function (r : Routine) (f : Function) (impl : Option Implementation) :
    Emit Rust.Function := do
  match impl, impl.bind (·.body) with
  | some impl, some body =>
    enter r.isExposed
    let body ← guarded body impl.modifiers
    modifyFrame fun fr => { fr with mutated := mutatedVars body }
    let params := if impl.params.length = r.params.length then impl.params else f.params
    let rparams ← declareParams params r.params
    let r := { r with params := rparams }
    let shell ← routineShell r
    modifyFrame fun fr => { fr with results := impl.returns }
    let before ← preamble r
    let results ← declareResults impl.returns
    let written ← stmts body.stmts
    let tail ← if body.endsInReturn then pure none
      else do
        let x ← defaultResult
        pure (some (Rust.Expr.callPath "Ok" [x]))
    return { shell with body := some ⟨before ++ results ++ written, tail⟩ }
  | impl, _ =>
    throw (.fault (.invalidFunction ((impl.map (·.start)).getD {})
      ("function '" ++ f.sourceName ++ "' has no body")))

end RustContracts.Emit
