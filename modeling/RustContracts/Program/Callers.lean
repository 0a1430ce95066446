import RustContracts.Program.Contract

-- Which functions need to know their caller: those that read it, or reach one that does.
namespace RustContracts.Program

-- An implementation, and the implementations of the modifiers that guard it.
def Contract.guarded (c : Contract) (impl : Implementation) : List Implementation :=
  impl :: impl.modifiers.flatMap fun m => ((c.modifier? m.name).map (·.implementations)).getD []

def Contract.readsCaller (c : Contract) (impls : List Implementation) : Bool :=
  (impls.flatMap c.guarded).any Implementation.usesCaller

def Contract.callsAny (c : Contract) (impls : List Implementation) (keys : List String) : Bool :=
  (impls.flatMap c.guarded).any fun impl => impl.calls.any keys.contains

-- Adds the functions that call one of `keys`, in one walk over the table.
def Contract.addCallers (c : Contract) (keys : List String) : List String :=
  c.dispatch.foldl (fun keys f =>
    if !keys.contains f.key && c.callsAny f.implementations keys then keys ++ [f.key] else keys) keys

-- Repeats the walk; after as many walks as there are functions nothing is added any more.
def Contract.closeCallers (c : Contract) : Nat → List String → List String
  | 0, keys => keys
  | rounds + 1, keys =>
    let more := c.addCallers keys
    if more.length = keys.length then keys else c.closeCallers rounds more

def Contract.findCallers (c : Contract) : Contract :=
  let direct := (c.dispatch.filter fun f => c.readsCaller f.implementations).map (·.key)
  { c with callerUsers := c.closeCallers c.dispatch.length direct }

-- Whether building a contract reads the caller, in an initializer or in a constructor of the chain.
def Package.constructorNeedsCaller (p : Package) (c : Contract) : Bool :=
  (p.chainOf c).any fun k =>
    k.initUsesCaller ||
      match k.constructor with
      | some f =>
        c.readsCaller f.implementations || c.callsAny f.implementations c.callerUsers
      | none => false

end RustContracts.Program
