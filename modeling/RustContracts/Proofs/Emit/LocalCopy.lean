import RustContracts.Proofs.Emit.Declare
import RustContracts.Proofs.Emit.Layout
import RustContracts.Proofs.Emit.WriteBack
import RustContracts.Proofs.Resolve.DataLocation

-- Variables of functions are copies, those with the data location of storage among them: what is assigned or pushed
-- through one, or popped, changes the variable and leaves storage alone. So such a change is made at a place in storage
-- only where it is none.
namespace RustContracts.Emit

open Program
open Rust (Machine Host Value Selector Store runAll)

namespace Setting

variable {c : Setting} {code : List Rust.Stmt} {s' : State}

-- Assignments, pushes and pops through a variable: what is written, and what becomes of the part of the variable that
-- a path leads to. The elements of a tuple are assigned each from a variable of its own.
inductive Through (c : Setting) (name : String) (path : List Step) :
    Emit (List Rust.Stmt) → Bool → (Value → Option Value) → Prop
  | assign {p q : Text.Position} {target value : Expr} {t : Ty} {v : Value}
      (htarget : accessPath target = (.var q name t, path)) (hvalue : c.Computes target.type value v) :
      Through c name path (stmt (.assign p target value)) true fun _ => some v
  | element {q : Text.Position} {target : Expr} {t : Ty} {x : Rust.Expr} {v : Value}
      (htarget : accessPath target = (.var q name t, path)) (hvalue : c.Yields x v) :
      Through c name path (Emit.assign x target) true fun _ => some v
  | push {p q r : Text.Position} {array value : Expr} {t elem : Ty} {length : Int} {v : Value}
      (htype : array.type = .array elem length) (htarget : accessPath array = (.var q name t, path))
      (hvalue : c.Computes elem value v) :
      Through c name path (stmt (.expr p (.push r array value))) false (Rust.append v)
  | pop {p q r : Text.Position} {array : Expr} {t : Ty} (htarget : accessPath array = (.var q name t, path))
      (hstill : c.after = c.machine.store) :
      Through c name path (stmt (.expr p (.pop r array))) false Rust.shorten

variable {name : String} {path : List Step} {act : Emit (List Rust.Stmt)} {isSet : Bool} {f : Value → Option Value}

-- The value is written first, then a change inside the variable.
theorem Through.writes (h : c.Through name path act isSet f) (hw : Writes act c.env c.state code s') :
    ∃ change s ident, SameNames c.state s ∧ c.Makes change f ∧ change.isSet = isSet ∧
      c.state.local? name = some ident ∧ Writes (changePath change (.ident ident) path) c.env s code s' := by
  have hchange {target : Expr} {q : Text.Position} {t : Ty} {change : Change} {s : State}
      (htarget : accessPath target = (.var q name t, path)) (hs : SameNames c.state s)
      (hw : Writes (changeTarget target change) c.env s code s') :
      ∃ ident, c.state.local? name = some ident ∧ Writes (changePath change (.ident ident) path) c.env s code s' := by
    rw [changeTarget, htarget] at hw
    obtain ⟨found, s₁, hfound, hw⟩ := writes_bind.mp hw
    obtain ⟨hlocal, rfl⟩ := writes_local?.mp hfound
    rw [hs.local?_eq] at hlocal
    cases found with
    | none => exact absurd hw not_writes_throw
    | some ident => exact ⟨ident, hlocal, hw⟩
  have hassign {target : Expr} {q : Text.Position} {t : Ty} (x : Rust.Expr)
      (htarget : accessPath target = (.var q name t, path)) : Emit.assign x target = changeTarget target (.set x) := by
    cases target <;> first | rfl | cases htarget
  cases h with
  | @assign p q target value t v htarget hvalue =>
      rw [stmt] at hw
      obtain ⟨x, s, hx, hw⟩ := writes_bind.mp hw
      have hs := (steady_exprAs _ _).sameNames hx
      rw [hassign x htarget] at hw
      obtain ⟨ident, hlocal, hw⟩ := hchange htarget hs hw
      exact ⟨.set x, s, ident, hs, ⟨v, hvalue _ x s (.refl _) hx, rfl⟩, rfl, hlocal, hw⟩
  | @element q target t x v htarget hvalue =>
      rw [hassign x htarget] at hw
      obtain ⟨ident, hlocal, hw⟩ := hchange htarget (.refl _) hw
      exact ⟨.set x, c.state, ident, .refl _, ⟨v, hvalue, rfl⟩, rfl, hlocal, hw⟩
  | @push p q r array value t elem length v htype htarget hvalue =>
      rw [stmt, exprStmt] at hw
      simp only [htype] at hw
      obtain ⟨x, s, hx, hw⟩ := writes_bind.mp hw
      have hs := (steady_exprAs _ _).sameNames hx
      obtain ⟨ident, hlocal, hw⟩ := hchange htarget hs hw
      exact ⟨.push x, s, ident, hs, ⟨v, hvalue _ x s (.refl _) hx, rfl⟩, rfl, hlocal, hw⟩
  | @pop p q r array t htarget hstill =>
      rw [stmt, exprStmt] at hw
      obtain ⟨ident, hlocal, hw⟩ := hchange htarget (.refl _) hw
      exact ⟨.pop, c.state, ident, .refl _, ⟨hstill, rfl⟩, rfl, hlocal, hw⟩

theorem Changes.mono {j k : Nat} {o : Option Value} (hjk : j ≤ k) (h : c.Changes k name c.machine code o) :
    c.Changes j name c.machine code o := by
  cases o with
  | none => exact h
  | some w =>
      obtain ⟨m', es, hrun, hafter, hlook, hrest⟩ := h
      exact ⟨m', es, hrun, hafter, hlook, fun n hn hfresh => hrest n hn fun hk => hfresh (hk.mono hjk)⟩

theorem Through.changes {ident : String} {hops : List (Seen Selector)} {w : Value}
    (h : c.Through name path act isSet f) (hlocal : c.state.local? name = some ident) (hself : ident ≠ "self")
    (hplain : Rust.isPath ident = false) (hfresh : c.env.target = .soroban → ¬Fresh c.count ident)
    (hw : Writes act c.env c.state code s') (hhops : List.Forall₂ c.Leads path hops)
    (hlook : c.machine.locals.lookup ident = some (.value w)) :
    c.Changes c.count ident c.machine code (w.carry? f (route c.env.target isSet hops)) := by
  obtain ⟨change, s, ident', hs, hmakes, rfl, hlocal', hw⟩ := h.writes hw
  obtain rfl : ident' = ident := Option.some.inj (hlocal'.symm.trans hlocal)
  have hfresh' (htarget : c.env.target = .soroban) : ¬Fresh s.frame.temps ident' :=
    fun hf => hfresh htarget (hf.mono hs.2)
  exact (changes_inside hmakes hhops hself hplain hfresh' hw hs (.refl _ c.machine) rfl hlook).mono hs.2

-- All that a change inside a variable leaves in storage is what computing the value has left there.
theorem Changes.stores_iff {k : Nat} {o : Option Value} (h : c.Changes k name c.machine code o) (store : Store) :
    c.Stores c.machine code (some store) ↔ o.isSome ∧ store = c.after := by
  cases o with
  | none =>
      obtain ⟨e, m', es, hrun⟩ := h
      simp [Stores, hrun]
  | some w =>
      obtain ⟨m', es, hrun, hafter, -⟩ := h
      simp [Stores, hrun, ← hafter, eq_comm]

-- Behind code, a place in storage is as if a change had been made to it once the value was computed.
def Reaches (c : Setting) (d : FieldDecl) (f : Value → Option Value) (vs : List Value) (sels : List Selector)
    (code : List Rust.Stmt) : Prop :=
  ∃ m' es, (runAll c.host c.fuel code).run c.machine = ⟨.ok (), m', es⟩ ∧
    (entry c.env.target c.host d c.after vs).modify? f sels = some (entry c.env.target c.host d m'.store vs)

theorem Changes.reaches_iff {k : Nat} {o : Option Value} (h : c.Changes k name c.machine code o) (d : FieldDecl)
    (f : Value → Option Value) (vs : List Value) (sels : List Selector) :
    c.Reaches d f vs sels code ↔ o.isSome ∧ (entry c.env.target c.host d c.after vs).modify? f sels =
      some (entry c.env.target c.host d c.after vs) := by
  cases o with
  | none =>
      obtain ⟨e, m', es, hrun⟩ := h
      simp [Reaches, hrun]
  | some w =>
      obtain ⟨m', es, hrun, hafter, -⟩ := h
      simp [Reaches, hrun, ← hafter]

end Setting

-- Locals are copies, whatever their data locations: a declaration binds its variables to the values that it is given,
-- and each later assignment, push or pop through one of them changes the part of the variable that it names, and
-- nothing in storage. At a place in storage to which the variable should refer the change is made exactly when it
-- changes nothing there.
theorem storage_locals_written_iff {vars : List Param} (hnames : ∀ v ∈ vars, Solidity.isIdentifier v.name = true) :
    (∀ body : Solidity.Block, Resolve.block body.unlocated = Resolve.block body) ∧
    (∀ {c : Setting} {p : Text.Position} {value : Expr} {ws : List Value} {code : List Rust.Stmt} {s' : State},
      ws.length = vars.length → c.Computes (packedType (vars.map Param.type)) value (packed ws) →
      Writes (stmt (.decl p vars value)) c.env c.state code s' →
        c.Declares code ((vars.map fun v => Rust.Name.value v.name).zip ws) ∧
          ∀ v ∈ vars, s'.local? v.name = some (Rust.Name.value v.name)) ∧
    ∀ v ∈ vars, ∀ {c : Setting} {path : List Step} {act : Emit (List Rust.Stmt)} {isSet : Bool}
      {f : Value → Option Value} {hops : List (Seen Selector)} {w : Value} {code : List Rust.Stmt} {s' : State},
      c.Through v.name path act isSet f → List.Forall₂ c.Leads path hops → Writes act c.env c.state code s' →
      c.state.local? v.name = some (Rust.Name.value v.name) →
      c.machine.locals.lookup (Rust.Name.value v.name) = some (.value w) →
      (c.env.target = .soroban → ¬Fresh c.count (Rust.Name.value v.name)) →
        c.Changes c.count (Rust.Name.value v.name) c.machine code (w.carry? f (route c.env.target isSet hops)) ∧
          (∀ store, c.Stores c.machine code (some store) ↔
            (w.carry? f (route c.env.target isSet hops)).isSome ∧ store = c.after) ∧
          ∀ d vs sels, c.Reaches d f vs (sels ++ hops.map (Seen.place isSet)) code ↔
            (w.carry? f (route c.env.target isSet hops)).isSome ∧
              (entry c.env.target c.host d c.after vs).modify? f (sels ++ hops.map (Seen.place isSet)) =
                some (entry c.env.target c.host d c.after vs) := by
  refine ⟨Resolve.block_unlocated, fun hlength hvalue hw => ?_, fun v hv => ?_⟩
  · rw [stmt] at hw
    exact Setting.declares_of_writes hnames hlength hvalue hw
  · intro c path act isSet f hops w code s' hthrough hhops hw hlocal hlook hfresh
    have hname := hnames v hv
    have hchanges := hthrough.changes hlocal (value_ne_self hname) (isPath_value hname) hfresh hw hhops hlook
    exact ⟨hchanges, hchanges.stores_iff, fun d vs sels => hchanges.reaches_iff d f vs _⟩

namespace Copied

-- `S storage s = t; s.a = true;` for `struct S { bool a; }` and `S t;`

def expression (target : Solidity.Operand) (assigned : Option Solidity.Assigned) : Solidity.Expression :=
  ⟨default, default, ⟨⟨target, []⟩, none⟩, assigned⟩

def yes : Solidity.Expression := expression (.term default (.bool true) []) none

def source : Solidity.Block :=
  ⟨default, default, [
    .varDecl default ⟨default, Resolve.plainType "S", "storage", "s",
      some (expression (.term default (.ident "t") []) none)⟩,
    .expr default (expression (.term default (.ident "s") [.member default "a"]) (some ⟨⟨none⟩, yes⟩))]⟩

def unit : Solidity.SourceUnit :=
  ⟨default, [Resolve.plainContract "C" false [] [
    .struct default ⟨default, "S", [⟨default, Resolve.plainType "bool", "a"⟩]⟩,
    .variable default ⟨default, Resolve.plainType "S", [], "t", none⟩,
    .function default
      { start := default, stop := default, kind := "function", name := "f", params := [], attrs := [], returns := []
        body := some source }]]⟩

-- What these become.

def structDecl : StructDecl := { name := "S", fields := [⟨"a", .bool⟩], owner := "C", start := default }

def field : FieldDecl :=
  { name := "t", sourceName := "t", type := .struct ⟨"C", "S"⟩, owner := "C", start := default }

def copy : Param := ⟨"s", .struct ⟨"C", "S"⟩⟩

def change : Stmt :=
  .assign default (.member default (.var default "s" (.struct ⟨"C", "S"⟩)) "a" .bool) (.bool default true)

def function : Function :=
  { name := "f", sourceName := "f", kind := .function
    implementations := [{ owner := "C", body := some ⟨default, [.decl default [copy] (.field default field), change], false⟩
                          implemented := true, start := default }] }

def package : Package :=
  { name := "sample"
    classes := [
      { name := "C", kind := .contract, isAbstract := false, bases := [], start := default, chain := ["C"]
        fields := [{ field with value := none }], structs := [structDecl], functions := [function]
        storage := [{ field with value := none }], dispatch := [function], modifierTable := [] }] }

def contract : Contract := package.classes.headD default

-- The surroundings: the field was never written.

def host : Host where
  field _ := ⟨false, .struct ["a"] [.bool false]⟩
  literal _ := none
  unary _ _ := none
  binary _ _ _ := none
  cast _ _ := none
  function _ _ _ := none
  method _ _ _ _ := none
  contract _ _ _ _ _ := none

-- How the function ends, and what stands at `t` then.
def outcome? (target : Target) : Option (Option Value × Value) := do
  let out ← (file package contract target).toOption
  let f ← out.methods.find? (·.name = "f")
  let code ← f.body
  let o := (code.eval host 0).run ⟨[], fun _ => none⟩
  return (o.result.toOption, entry target host field o.machine.store [])

theorem package_unit : Resolve.package "sample" unit = .ok package := by cbv

def fresh : Value := .struct ["a"] [.bool false]

def declaring : Setting where
  host := host
  fuel := 0
  env := ⟨package, contract, .soroban⟩
  state := {}
  machine := ⟨[], fun _ => none⟩
  after := fun _ => none

-- The state and the machine behind the declaration.
def changing : Setting :=
  { declaring with
    state := { frame := { scopes := [{ locals := [("s", "s")] }] } }
    machine := ⟨[("s", .value fresh)], fun _ => none⟩ }

-- What is written for a statement.
def written (c : Setting) (st : Stmt) : List Rust.Stmt :=
  match outcome (stmt st) c.env c.state with
  | (.ok code, _) => code
  | (.error _, _) => []

def declaration : Stmt := .decl default [copy] (.field default field)

theorem computes_field : declaring.Computes copy.type (.field default field) fresh := by
  intro s x s' hs hw m hm hstore
  obtain ⟨y, s₁, hread⟩ : ∃ y s₁, Writes (readField field []) declaring.env s y s₁ := ⟨_, _, rfl⟩
  obtain ⟨rfl, -⟩ := hw.unique (show Writes (exprAs copy.type (.field default field)) declaring.env s y s₁ from hread)
  have huses : Uses declaring.env host m field :=
    { knows := ⟨rfl, fun _ hz => Option.some.inj hz⟩
      env := fun _ => hm "env" (not_fresh_of_last (by decide)) }
  have hreads : Rust.Expr.Reads host 0 m x (entry .soroban host field m.store []) :=
    (eval_readField huses (.inl rfl) rfl hread .nil).1 fun _ => .inr rfl
  rw [hstore] at hreads
  refine ⟨[], ?_⟩
  rw [show declaring.after = m.store from hstore.symm]
  exact hreads

theorem computes_yes : changing.Computes .bool (.bool default true) (.bool true) := by
  intro s x s' hs hw m hm hstore
  obtain ⟨rfl, -⟩ := hw.unique (show Writes (exprAs .bool (.bool default true)) changing.env s (.lit "true") s from rfl)
  refine ⟨[], ?_⟩
  rw [show changing.after = m.store from hstore.symm]
  rfl

theorem struct_copied :
    Solidity.isIdentifier copy.name = true ∧
    (∃ s', Writes (stmt declaration) declaring.env declaring.state (written declaring declaration) s') ∧
    declaring.Declares (written declaring declaration) [("s", fresh)] ∧
    (∃ s', Writes (stmt change) changing.env changing.state (written changing change) s') ∧
    changing.Changes 0 "s" changing.machine (written changing change) (some (.struct ["a"] [.bool true])) ∧
    ¬changing.Reaches field (fun _ => some (.bool true)) [] [.field "a"] (written changing change) ∧
    ¬Fresh 0 "s" := by
  have hname : ∀ v ∈ [copy], Solidity.isIdentifier v.name = true := by decide
  obtain ⟨-, hdeclares, hchanges⟩ := storage_locals_written_iff hname
  have hdecl : ∃ s', Writes (stmt declaration) declaring.env declaring.state (written declaring declaration) s' :=
    ⟨_, rfl⟩
  have hchange : ∃ s', Writes (stmt change) changing.env changing.state (written changing change) s' := ⟨_, rfl⟩
  have hfresh : ¬Fresh 0 "s" := not_fresh_of_last (by decide)
  have hdeclared : declaring.Declares (written declaring declaration) [("s", fresh)] := by
    obtain ⟨s', hw⟩ := hdecl
    exact (@hdeclares _ _ _ [fresh] _ _ rfl computes_field hw).1
  obtain ⟨s', hw⟩ := hchange
  have hpath : List.Forall₂ changing.Leads [.member default "a" copy.type] [.still (.field "a")] :=
    .cons rfl .nil
  obtain ⟨hchanged, -, hreaches⟩ :=
    hchanges copy List.mem_cons_self (.assign rfl computes_yes) hpath hw rfl rfl fun _ => hfresh
  refine ⟨by decide, hdecl, hdeclared, ⟨s', hw⟩, hchanged, fun h => ?_, hfresh⟩
  obtain ⟨-, hsame⟩ := (hreaches field [] []).mp h
  exact absurd hsame (by decide)

-- What stands at `t` when the assignment is made to the field itself.
def assigned? (target : Target) : Option Value :=
  let c : Setting := { declaring with env := ⟨package, contract, target⟩ }
  (c.expected field true (.bool true) [] [.still (.field "a")]).map fun store => entry target host field store []

-- In the source `s` refers to the field, so the field is to change; it stays as it was.
theorem storage_local_not_written :
    Resolve.package "sample" unit = .ok package ∧
    ∀ target ∈ [.ink .v5, .ink .v6, .soroban], outcome? target = some (some (.variant "Ok" [.unit]), fresh) ∧
      assigned? target = some (.struct ["a"] [.bool true]) :=
  ⟨package_unit, by decide +kernel⟩

end Copied

end RustContracts.Emit
