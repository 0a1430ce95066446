import RustContracts.Program.Expr

-- The reasons for which a contract can abort, each under a code of its own.
namespace RustContracts.Program

open Text (Position)

-- An `error` declaration; the owner is empty at file level.
structure ErrorDecl where
  name : String
  fields : List Param := []
  owner : String := ""
  start : Position := {}
deriving Inhabited

-- A registered reason: a message, or a declared error.
structure ErrorEntry where
  code : UInt32
  key : String
  message : String
  custom : Option ErrorDecl := none
deriving Inhabited

-- The reasons in the order in which they were registered, and how many events were counted.
structure Registry where
  entries : List ErrorEntry := []
  events : Nat := 0

namespace Registry

-- The entry under a key; a new key gets the next code, which has 32 bits.
def register (r : Registry) (key message : String) (custom : Option ErrorDecl) :
    ErrorEntry × Registry :=
  match r.entries.find? (·.key = key) with
  | some entry => (entry, r)
  | none =>
    let entry : ErrorEntry := ⟨.ofNat (r.entries.length + 1), key, message, custom⟩
    (entry, { r with entries := r.entries ++ [entry] })

def registerMessage (r : Registry) (message : String) : ErrorEntry × Registry :=
  r.register ("msg:" ++ message) message none

-- Declared errors share an entry when they share a name.
def registerCustom (r : Registry) (decl : ErrorDecl) : ErrorEntry × Registry :=
  r.register ("error:" ++ decl.name) decl.name (some decl)

-- Counts an event and tells how many there are now.
def countEvent (r : Registry) : Nat × Registry :=
  (r.events + 1, { r with events := r.events + 1 })

end Registry

end RustContracts.Program
