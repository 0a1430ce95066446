import RustContracts.Emit.Backend

-- How functions are declared and which one a call reaches.
namespace RustContracts.Emit

open Program
open Text (Position)

def rustParams (params : List Param) : Emit (List Rust.Param) :=
  params.zipIdx.mapM fun (p, i) => do
    return ⟨paramName p i, ← typeText p.type⟩

-- The type of what a function returns.
def resultText (returns : List Param) : Emit String := do
  match ← returns.mapM fun r => typeText r.type with
  | [] => return "()"
  | [t] => return t
  | ts => return "(" ++ ", ".intercalate ts ++ ")"

-- The declaration of an implementation of a function under a name.
def functionRoutine (f : Function) (impl : Option Implementation) (name : String)
    (entry : Option Signature) : Emit Routine := do
  let params := match impl with
    | some i => if i.params.length = f.params.length then i.params else f.params
    | none => f.params
  let rparams ← rustParams params
  let result ← resultText f.returns
  return { name := name
           entry := entry
           params := rparams
           result := result
           mutates := f.mutability.mutates
           caller := (← read).contract.needsCaller f.toSignature
           payable := f.mutability = .payable }

-- Whether callers from outside reach a function.
def isMessage (f : Signature) : Bool :=
  f.visibility.isExposed || f.kind = .getter || f.kind = .fallback || f.kind = .receive

-- A function of the dispatch table under its own name.
def dispatchRoutine (f : Function) : Emit Routine :=
  functionRoutine f f.primary? f.name (if isMessage f.toSignature then some f.toSignature else none)

-- A library function; it knows no caller and changes no state.
def libraryRoutine (f : Function) (name : String) : Emit Routine := do
  let r ← functionRoutine f f.primary? name none
  return { r with mutates := false, caller := false, payable := false }

-- Whether an implementation is the one that plain calls reach.
def isPrimary (f : Function) (impl : Implementation) : Bool :=
  f.primary?.any fun i => i.owner = impl.owner && i.start = impl.start

-- The function in Rust that runs an implementation.
def callRoutine (f : Function) (impl : Implementation) : Emit Routine := do
  if isPrimary f impl then dispatchRoutine f
  else
    let name ← implementationName f impl
    functionRoutine f (some impl) name none

-- The implementation that a base sees: the first along its chain that has a body.
def baseImplementation? (p : Package) (f : Function) (base : String) : Option Implementation :=
  (p.class? base).bind fun c =>
    c.chain.findSome? fun owner => (f.ofClass? owner).filter (·.body.isSome)

-- The implementation that a call reaches: of a super call the one behind the calling class, of a call
-- that names a base the one which that base sees, and else the primary one.
def calledImplementation? (p : Package) (f : Function) (isSuper : Bool) (inClass base : String) :
    Option Implementation :=
  let found :=
    if isSuper then f.next? inClass
    else if base != "" then baseImplementation? p f base
    else f.primary?
  found.filter (·.body.isSome)

-- The function and implementation behind a call.
def callee (start : Position) (name : String) (arity : Nat) (isSuper : Bool)
    (inClass base : String) : Emit (Function × Implementation) := do
  let env ← read
  match env.contract.lookup? name arity with
  | none =>
    throw (.fault (.invalidFunction start
      ("no function '" ++ name ++ "' taking " ++ plural arity "argument")))
  | some f =>
    match calledImplementation? env.package f isSuper inClass base with
    | none =>
      throw (.fault (.invalidFunction start ("function '" ++ name ++ "' has no implementation to call")))
    | some impl => return (f, impl)

-- A function by the class that declares it.
def declaredFunction (owner : String) (s : Signature) : Emit Function := do
  let functions := (((← read).package.class? owner).map fun c => c.functions).getD []
  return (functions.find? (·.key = s.key)).getD { s with implementations := [] }

end RustContracts.Emit
