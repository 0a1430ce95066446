import RustContracts.Inheritance.Graph

-- An inheritance graph that keeps the orders it has found, until another class is registered.
namespace RustContracts.Inheritance

structure Hierarchy where
  graph : Graph := {}
  -- the orders that were found, the latest first
  known : List (String × List String) := []

namespace Hierarchy

def add (h : Hierarchy) (name : String) (bases : List String) : Hierarchy :=
  { graph := h.graph.add name bases }

-- Finds the orders of classes of which each stands behind its bases. What is known is not found again, and
-- what was found before a fault stays known.
def find (h : Hierarchy) : List String → Except OrderError Unit × Hierarchy
  | [] => (.ok (), h)
  | name :: rest =>
    if (h.known.lookup name).isSome then h.find rest
    else
      match h.graph.orderWith h.known name with
      | .ok chain => find { h with known := (name, chain) :: h.known } rest
      | .error e => (.error e, h)

def linearize (h : Hierarchy) (name : String) : Except OrderError (List String) × Hierarchy :=
  match h.graph.ancestors name with
  | .error e => (.error e, h)
  | .ok names =>
    let (found, h) := h.find names
    (found.map fun _ => (h.known.lookup name).getD [], h)

-- The orders of some classes; the first fault ends it.
def linearizeEach (h : Hierarchy) :
    List String → Except OrderError (List (String × List String)) × Hierarchy
  | [] => (.ok [], h)
  | name :: rest =>
    match h.linearize name with
    | (.error e, h) => (.error (.inClass name e), h)
    | (.ok chain, h) =>
      let (chains, h) := h.linearizeEach rest
      (chains.map ((name, chain) :: ·), h)

-- The orders of all classes, in order of registration.
def linearizeAll (h : Hierarchy) : Except OrderError (List (String × List String)) × Hierarchy :=
  h.linearizeEach h.graph.classes

end Hierarchy

-- What can be asked of a hierarchy.
inductive Request where
  | add (name : String) (bases : List String)
  | linearize (name : String)
  | linearizeAll

namespace Hierarchy

def after (h : Hierarchy) : Request → Hierarchy
  | .add name bases => h.add name bases
  | .linearize name => (h.linearize name).2
  | .linearizeAll => h.linearizeAll.2

-- A new hierarchy after some requests.
def run (requests : List Request) : Hierarchy := requests.foldl after {}

end Hierarchy

end RustContracts.Inheritance
