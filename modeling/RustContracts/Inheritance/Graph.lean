import RustContracts.Inheritance.Merge

-- Inheritance graphs and the order in which a class sees its ancestors.
namespace RustContracts.Inheritance

-- The registered classes in order of first registration, each with its direct bases, most derived
-- base first.
structure Graph where
  entries : List (String × List String) := []

-- Why a class has no order.
inductive OrderError where
  | unknownClass (name : String)
  -- a walk along base edges whose last class occurs earlier on it
  | cycle (walk : List String)
  | inconsistent (name : String) (blocked : List String)
  -- the fault met while every class was put in order
  | inClass (name : String) (cause : OrderError)

def OrderError.message : OrderError → String
  | unknownClass name => "unknown class: " ++ name
  | cycle walk => "inheritance cycle: " ++ " -> ".intercalate walk
  | inconsistent name blocked =>
    "inconsistent precedence order for " ++ name ++ ": cannot order " ++ ", ".intercalate blocked
  | inClass name cause => name ++ ": " ++ cause.message

namespace Graph

def classes (g : Graph) : List String := g.entries.map Prod.fst

def has (g : Graph) (name : String) : Bool := g.classes.contains name

def bases (g : Graph) (name : String) : List String := (g.entries.lookup name).getD []

-- Registers a class; a class registered again gets new bases and keeps its place.
def add (g : Graph) (name : String) (bases : List String) : Graph :=
  if g.has name then
    ⟨g.entries.map fun e => if e.1 = name then (name, bases) else e⟩
  else ⟨g.entries ++ [(name, bases)]⟩

-- Adds a class behind its ancestors to the classes that are `done`, each of which stands behind its
-- own bases. `path` is the walk that leads to the class. A walk without repetition is no longer than the
-- number of classes, so `fuel` beyond that is never used up.
def visit (g : Graph) :
    Nat → List String → List String → String → Except OrderError (List String)
  | 0, path, _, name => .error (.cycle (path ++ [name]))
  | fuel + 1, path, done, name =>
    if done.contains name then .ok done
    else if path.contains name then .error (.cycle (path ++ [name]))
    else if !g.has name then .error (.unknownClass name)
    else do
      let done ← (g.bases name).foldlM (fun done base => visit g fuel (path ++ [name]) done base) done
      return done ++ [name]

-- A walk without repetition, one step beyond it, and one to spare.
def depthBound (g : Graph) : Nat := g.entries.length + 2

-- A class and all its ancestors, bases first.
def ancestors (g : Graph) (name : String) : Except OrderError (List String) :=
  g.visit g.depthBound [] [] name

-- The order of a class, given those of its bases: the class, then the merge of the bases' orders and of
-- the list of its bases.
def orderWith (g : Graph) (orders : List (String × List String)) (name : String) :
    Except OrderError (List String) :=
  let chains := (g.bases name).map fun base => (orders.lookup base).getD []
  match merge (chains ++ [g.bases name]) with
  | .ok rest => .ok (name :: rest)
  | .error blocked => .error (.inconsistent name blocked)

-- The orders of classes of which each stands behind its bases, beside those that are known.
def ordersFrom (g : Graph) (known : List (String × List String)) :
    List String → Except OrderError (List (String × List String))
  | [] => .ok known
  | name :: rest => do
    let chain ← g.orderWith known name
    g.ordersFrom ((name, chain) :: known) rest

-- The order of a class: the class first, common ancestors last.
def linearize (g : Graph) (name : String) : Except OrderError (List String) := do
  let orders ← g.ordersFrom [] (← g.ancestors name)
  return (orders.lookup name).getD []

-- The orders of all classes, in order of registration.
def linearizeAll (g : Graph) : Except OrderError (List (String × List String)) :=
  g.classes.mapM fun name =>
    match g.linearize name with
    | .ok chain => .ok (name, chain)
    | .error e => .error (.inClass name e)

end Graph

end RustContracts.Inheritance
