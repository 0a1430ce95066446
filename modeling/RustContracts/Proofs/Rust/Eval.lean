import RustContracts.Proofs.Rust.Builtin

-- What code does: expressions, places, blocks and statements. `fuel` bounds how often each loop turns.
namespace RustContracts.Rust

-- Loops.

-- A `break` that leaves a loop; without a label it leaves the innermost.
def Exit.leaves (label : String) : Exit → Bool
  | broke l => l == "" || l == label
  | _ => false

def Exit.resumes (label : String) : Exit → Bool
  | continued l => l == "" || l == label
  | _ => false

-- A turn of a loop tells whether another follows.
def repeatTurns (label : String) (turn : Run Bool) : Nat → Run Unit
  | 0 => Run.exit .outOfFuel
  | n + 1 => do
    let again ← turn.handle fun e =>
      if e.resumes label then pure true else if e.leaves label then pure false else Run.exit e
    if again then repeatTurns label turn n else pure ()

-- A block with a label is left only by naming it.
def labeledBlock (label : String) (body : Run Value) : Run Unit := do
  let _ ← body.handle fun
    | .broke l => if l == label then pure .unit else Run.exit (.broke l)
    | e => Run.exit e
  pure ()

-- Declarations.

-- The names that a pattern binds, in order.
def patternNames (pattern : String) : List String :=
  let trim (cs : List Char) : List Char :=
    let cs := cs.dropWhile (· == ' ')
    if cs.take 4 = "mut ".toList then cs.drop 4 else cs
  let inner := (pattern.toList.drop 1).dropLast
  (inner.splitOn ',').map fun cs => String.ofList (trim cs)

def isTuplePattern (pattern : String) : Bool := pattern.toList.head? == some '('

def declareAll : List String → List Value → Run Unit
  | name :: names, v :: vs => do
    Run.declare name (.value v)
    declareAll names vs
  | _, _ => pure ()

-- Whether a declaration makes a reference to another contract.
def isReference (type : String) : Expr → Bool
  | .call (.ident path) _ => isClient path
  | .methodCall account "into" [] => !account.isSelf && startsWith type "ink::contract_ref!("
  | _ => false

def declarePattern (pattern : String) (v : Value) : Run Unit :=
  if isTuplePattern pattern then
    match v with
    | .tuple vs => declareAll (patternNames pattern) vs
    | _ => Run.exit .stuck
  else Run.declare pattern (.value v)

-- References are noted with the state in which they are made.
def declareReference (name type : String) (value : Expr) (before : Machine) (address : Value) :
    Run Unit := do
  Run.note (.declared name value address before)
  Run.declare name (.reference type address)

-- What `if let` binds, when it matches.
def bindMatch (pattern : String) (v : Value) : Run Bool :=
  match v with
  | .bool b => pure b
  | .variant path data =>
    if pattern == path ++ "(e)" then do
      declareAll ["e"] data
      pure true
    else pure false
  | _ => Run.exit .stuck

def truth : Value → Run Bool
  | .bool b => pure b
  | _ => Run.exit .stuck

-- `?` hands errors to the caller.
def tryValue : Value → Run Value
  | .variant "Ok" [v] => pure v
  | .variant "Err" data => Run.exit (.returned (.variant "Err" data))
  | _ => Run.exit .stuck

-- Calls of other contracts are noted with the state in which they are made.
def callContract (h : Host) (name type : String) (address : Value) (method : String)
    (args : List Value) : Run Value := do
  let now ← Run.machine
  Run.note (.called name address method args now)
  Run.effect (h.contract type address method args)

def Expr.name : Expr → String
  | .ident name => name
  | _ => ""

-- Struct values; the fields that are not listed come from the base.
def structValue (names : List String) (vs : List Value) : Option Value → Value
  | some (.struct names' vs') =>
    .struct names' ((names'.zip vs').map fun (n, v) => ((names.zip vs).lookup n).getD v)
  | _ => .struct names vs

-- What an assignment does to the old value.
def assigned (h : Host) (op : String) (v : Value) (old : Value) : Option Value :=
  if op = "=" then some v else h.binary op old v

mutual

def Expr.eval (h : Host) (fuel : Nat) : Expr → Run Value
  | .ident name => readName name
  | .lit text => Run.ofOption .stuck (literal? h text)
  | .field target name => do
    if target.isSelf then storageField h name
    else
      let v ← target.eval h fuel
      memberOf v name
  | .methodCall receiver method args => do
    let m ← Run.machine
    match receiver.reference? m with
    | some (type, address) =>
      let vs ← evalAll h fuel args
      callContract h receiver.name type address method vs
    | none =>
      if receiver.isSelf then
        -- the contract itself is never cloned
        if method = "clone" then Run.exit .stuck
        let vs ← evalAll h fuel args
        Run.effect (h.method method .unit vs)
      else if isMutator method && receiver.isPlace then
        let p ← receiver.place h fuel
        let vs ← evalAll h fuel args
        p.modify (mutation method vs)
        pure .unit
      else
        match receiver.mapping? h with
        | some f =>
          let vs ← evalAll h fuel args
          callMapping h f method vs
        | none =>
          let v ← receiver.eval h fuel
          let vs ← evalAll h fuel args
          callMethod h v method vs
  | .call function args => do
    let vs ← evalAll h fuel args
    callFunction h function.name vs
  | .bangCall name args => do
    let vs ← evalAll h fuel args
    callBang h name vs
  | .binary op left right => do
    let l ← left.eval h fuel
    if op = "&&" && l = .bool false then pure l
    else if op = "||" && l = .bool true then pure l
    else
      let r ← right.eval h fuel
      if op = "&&" || op = "||" then pure r
      else Run.ofOption .panic (h.binary op l r)
  | .unary op operand => do
    let v ← operand.eval h fuel
    Run.ofOption .panic (applyUnary h op v)
  | .index target key => do
    let v ← target.eval h fuel
    let k ← key.eval h fuel
    elementOf v k
  | .tuple elements => do
    let vs ← evalAll h fuel elements
    pure (.tuple vs)
  | .array elements => do
    let vs ← evalAll h fuel elements
    pure (.list vs)
  | .structLit _ fields base => do
    let vs ← evalFields h fuel fields
    let b ← evalOption h fuel base
    pure (structValue (fields.map FieldInit.name) vs b)
  | .cast value type => do
    let v ← value.eval h fuel
    Run.ofOption .panic (castTo h type v)
  | .tryOp value => do
    let v ← value.eval h fuel
    tryValue v
  | .ifElse pattern cond whenTrue whenFalse => do
    let v ← cond.eval h fuel
    Run.inBlock do
      if ← bindMatch pattern v then whenTrue.eval h fuel
      else
        let r ← evalOption h fuel whenFalse
        pure (r.getD .unit)
  | .block body => body.eval h fuel
  | .missing => Run.exit .stuck

def Expr.place (h : Host) (fuel : Nat) : Expr → Run Place
  | .ident name => pure ⟨.var name, []⟩
  | .field target name => do
    if target.isSelf then pure (.ofField h name)
    else
      let p ← target.place h fuel
      pure (p.member name)
  | .index target key => do
    let p ← target.place h fuel
    let k ← key.eval h fuel
    p.element k
  | _ => Run.exit .stuck

-- The address of the contract to which a reference is made.
def Expr.referent (h : Host) (fuel : Nat) : Expr → Run Value
  | .methodCall account _ _ => account.eval h fuel
  | .call _ [_, account] => account.eval h fuel
  | _ => Run.exit .stuck

def evalAll (h : Host) (fuel : Nat) : List Expr → Run (List Value)
  | [] => pure []
  | e :: rest => do
    let v ← e.eval h fuel
    let vs ← evalAll h fuel rest
    pure (v :: vs)

def evalFields (h : Host) (fuel : Nat) : List FieldInit → Run (List Value)
  | [] => pure []
  | ⟨_, value⟩ :: rest => do
    let v ← value.eval h fuel
    let vs ← evalFields h fuel rest
    pure (v :: vs)

def evalOption (h : Host) (fuel : Nat) : Option Expr → Run (Option Value)
  | none => pure none
  | some e => do
    let v ← e.eval h fuel
    pure (some v)

def Block.eval (h : Host) (fuel : Nat) : Block → Run Value
  | ⟨stmts, tail⟩ => Run.inBlock do
    runAll h fuel stmts
    let r ← evalOption h fuel tail
    pure (r.getD .unit)

def Stmt.run (h : Host) (fuel : Nat) : Stmt → Run Unit
  | .letVar _ pattern type (some value) => do
    if isReference type value then
      let before ← Run.machine
      let address ← value.referent h fuel
      declareReference pattern type value before address
    else
      let v ← value.eval h fuel
      declarePattern pattern v
  | .letVar _ _ _ none => Run.exit .stuck
  | .expr value => do
    let _ ← value.eval h fuel
    pure ()
  | .assign target op value => do
    let v ← value.eval h fuel
    let p ← target.place h fuel
    p.modify (assigned h op v)
  | .whileLoop label cond body =>
    repeatTurns label (do
      let v ← cond.eval h fuel
      if ← truth v then
        let _ ← body.eval h fuel
        pure true
      else pure false) fuel
  | .loop label body =>
    repeatTurns label (do
      let _ ← body.eval h fuel
      pure true) fuel
  | .labeled label body => labeledBlock label (body.eval h fuel)
  | .breakLoop label => Run.exit (.broke label)
  | .continueLoop label => Run.exit (.continued label)
  | .returnValue value => do
    let r ← evalOption h fuel value
    Run.exit (.returned (r.getD .unit))

def runAll (h : Host) (fuel : Nat) : List Stmt → Run Unit
  | [] => pure ()
  | s :: rest => do
    s.run h fuel
    runAll h fuel rest

end

attribute [local simp] Expr.eval

end RustContracts.Rust
