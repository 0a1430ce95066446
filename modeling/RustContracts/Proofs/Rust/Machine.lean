import RustContracts.Proofs.Rust.Value
import RustContracts.Rust.Tree

-- The state of a run, how steps are put together, and what the surroundings of a contract provide.
namespace RustContracts.Rust

-- A cell of the contract's storage: a field or, with keys, an entry of a mapping.
structure Cell where
  field : String
  keys : List Value
deriving DecidableEq

abbrev Store := Cell → Option Value

def Store.write (store : Store) (c : Cell) (v : Value) : Store :=
  fun d => if d = c then some v else store d

@[simp] theorem Store.write_self (store : Store) (c : Cell) (v : Value) :
    store.write c v c = some v := by simp [Store.write]

@[simp] theorem Store.write_of_ne (store : Store) {c d : Cell} (v : Value) (h : d ≠ c) :
    store.write c v d = store d := by simp [Store.write, h]

-- What a variable stands for.
inductive Binding where
  | value (v : Value)
  -- a reference to the contract at an address, of a type
  | reference (type : String) (address : Value)

structure Machine where
  -- the variables in scope, innermost first
  locals : List (String × Binding)
  store : Store

-- What a run does with other contracts.
inductive Event where
  -- a variable was given a reference; `before` is the state in which the reference was made
  | declared (name : String) (value : Expr) (address : Value) (before : Machine)
  -- a method was called on a variable that holds a reference; `now` is the state at that time
  | called (name : String) (address : Value) (method : String) (args : List Value)
      (now : Machine)

-- How a step ends that does not end with a value.
inductive Exit where
  | panic
  -- code without a meaning, which a type checker refuses
  | stuck
  | outOfFuel
  | returned (v : Value)
  | broke (label : String)
  | continued (label : String)

structure Outcome (α : Type) where
  result : Except Exit α
  machine : Machine
  events : List Event

-- An outcome behind earlier events.
def Outcome.behind {α : Type} (es : List Event) (o : Outcome α) : Outcome α :=
  ⟨o.result, o.machine, es ++ o.events⟩

@[simp] theorem Outcome.behind_nil {α : Type} (o : Outcome α) : o.behind [] = o := rfl

@[simp] theorem Outcome.behind_behind {α : Type} (es es' : List Event) (o : Outcome α) :
    (o.behind es').behind es = o.behind (es ++ es') := by
  simp [behind]

@[simp] theorem Outcome.behind_mk {α : Type} (es es' : List Event) (r : Except Exit α) (m : Machine) :
    (⟨r, m, es'⟩ : Outcome α).behind es = ⟨r, m, es ++ es'⟩ := rfl

-- A step of a run.
structure Run (α : Type) where
  run : Machine → Outcome α

namespace Run

variable {α β : Type}

instance : Monad Run where
  pure a := ⟨fun m => ⟨.ok a, m, []⟩⟩
  bind x f := ⟨fun m =>
    match x.run m with
    | ⟨.ok a, m', es⟩ => ((f a).run m').behind es
    | ⟨.error e, m', es⟩ => ⟨.error e, m', es⟩⟩

def exit (e : Exit) : Run α := ⟨fun m => ⟨.error e, m, []⟩⟩

def machine : Run Machine := ⟨fun m => ⟨.ok m, m, []⟩⟩

def note (e : Event) : Run Unit := ⟨fun m => ⟨.ok (), m, [e]⟩⟩

def ofOption (e : Exit) : Option α → Run α
  | some a => pure a
  | none => exit e

-- Binds a variable until the end of the block.
def declare (name : String) (b : Binding) : Run Unit :=
  ⟨fun m => ⟨.ok (), { m with locals := (name, b) :: m.locals }, []⟩⟩

-- Forgets the variables that a step has declared, however it ends.
def inBlock (x : Run α) : Run α := ⟨fun m =>
  let o := x.run m
  { o with machine := { o.machine with
      locals := o.machine.locals.drop (o.machine.locals.length - m.locals.length) } }⟩

def handle (x : Run α) (f : Exit → Run α) : Run α := ⟨fun m =>
  match x.run m with
  | ⟨.ok a, m', es⟩ => ⟨.ok a, m', es⟩
  | ⟨.error e, m', es⟩ => ((f e).run m').behind es⟩

-- A step of the surroundings that may change storage; without an answer the run is aborted.
def effect (f : Store → Option (Value × Store)) : Run Value := ⟨fun m =>
  match f m.store with
  | some (v, store) => ⟨.ok v, { m with store := store }, []⟩
  | none => ⟨.error .panic, m, []⟩⟩

@[simp] theorem run_pure (a : α) (m : Machine) : (pure a : Run α).run m = ⟨.ok a, m, []⟩ := rfl

@[simp] theorem run_exit (e : Exit) (m : Machine) : (exit e : Run α).run m = ⟨.error e, m, []⟩ := rfl

@[simp] theorem run_machine (m : Machine) : machine.run m = ⟨.ok m, m, []⟩ := rfl

theorem run_bind (x : Run α) (f : α → Run β) (m : Machine) :
    (x >>= f).run m =
      match x.run m with
      | ⟨.ok a, m', es⟩ => ((f a).run m').behind es
      | ⟨.error e, m', es⟩ => ⟨.error e, m', es⟩ := rfl

theorem run_bind_ok {x : Run α} {f : α → Run β} {m m' : Machine} {a : α} {es : List Event}
    (h : x.run m = ⟨.ok a, m', es⟩) :
    (x >>= f).run m = ((f a).run m').behind es := by
  rw [run_bind, h]

-- A first step without events leaves the outcome to the second.
theorem run_bind_of_ok {x : Run α} {f : α → Run β} {m m' : Machine} {a : α}
    (h : x.run m = ⟨.ok a, m', []⟩) : (x >>= f).run m = (f a).run m' := by
  rw [run_bind_ok h]
  rfl

theorem run_bind_of_error {x : Run α} {f : α → Run β} {m m' : Machine} {e : Exit}
    {es : List Event} (h : x.run m = ⟨.error e, m', es⟩) :
    (x >>= f).run m = ⟨.error e, m', es⟩ := by
  rw [run_bind, h]

theorem bind_assoc {γ : Type} (x : Run α) (f : α → Run β) (g : β → Run γ) :
    (x >>= f) >>= g = x >>= fun a => f a >>= g := by
  refine congrArg Run.mk (funext fun m => ?_)
  rw [run_bind x f]
  rcases x.run m with ⟨r, m', es⟩
  cases r with
  | error e => rfl
  | ok a =>
      rcases hf : (f a).run m' with ⟨r, m'', es'⟩
      cases r with
      | error e => simp [run_bind, hf]
      | ok b => simp [run_bind, hf]

theorem ofOption_some {e : Exit} {o : Option α} {a : α} (h : o = some a) :
    ofOption e o = pure a := by
  rw [h]
  rfl

end Run

-- What is behind a field of the storage struct.
structure FieldInfo where
  isMapping : Bool
  -- what reads of an entry give that was never written
  zero : Value

-- What the code itself does not determine: the other functions of the contract, other contracts, and the
-- operators and constants that no statement here looks into.
structure Host where
  field : String → FieldInfo
  literal : String → Option Value
  unary : String → Value → Option Value
  binary : String → Value → Value → Option Value
  cast : String → Value → Option Value
  function : String → List Value → Store → Option (Value × Store)
  method : String → Value → List Value → Store → Option (Value × Store)
  contract : String → Value → String → List Value → Store → Option (Value × Store)

-- A place: where it starts and the way from there.
inductive Root where
  | var (name : String)
  | cell (c : Cell) (zero : Value)

structure Place where
  root : Root
  path : List Selector

-- Changes the innermost variable of a name.
def setBinding (name : String) (b : Binding) : List (String × Binding) → List (String × Binding)
  | [] => []
  | (n, old) :: rest => if n = name then (n, b) :: rest else (n, old) :: setBinding name b rest

def Root.read? (m : Machine) : Root → Option Value
  | var name =>
    match m.locals.lookup name with
    | some (.value v) => some v
    | _ => none
  | cell c zero => some ((m.store c).getD zero)

def Root.write (m : Machine) (v : Value) : Root → Machine
  | var name => { m with locals := setBinding name (.value v) m.locals }
  | cell c _ => { m with store := m.store.write c v }

namespace Place

-- Changes what stands at a place; a place that does not exist stops the run.
def modify (p : Place) (f : Value → Option Value) : Run Unit := ⟨fun m =>
  match p.root.read? m with
  | none => ⟨.error .stuck, m, []⟩
  | some v =>
    match v.modify? f p.path with
    | some v' => ⟨.ok (), p.root.write m v', []⟩
    | none => ⟨.error .panic, m, []⟩⟩

end Place

end RustContracts.Rust
