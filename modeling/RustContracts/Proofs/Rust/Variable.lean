import RustContracts.Proofs.Rust.Reads

-- Variables, the places inside them, and the elements of arrays.
namespace RustContracts.Rust

variable {h : Host} {fuel : Nat} {m : Machine} {v w : Value} {name : String}

theorem lookup_cons_of_ne {n : String} {b : Binding} {bs : List (String × Binding)}
    (hn : n ≠ name) : ((name, b) :: bs).lookup n = bs.lookup n := by
  rw [List.lookup_cons, beq_false_of_ne hn]

-- A machine with one more variable.
def Machine.push (m : Machine) (name : String) (v : Value) : Machine :=
  { m with locals := (name, .value v) :: m.locals }

-- A machine with another value in a variable.
def Machine.set (m : Machine) (name : String) (v : Value) : Machine :=
  { m with locals := setBinding name (.value v) m.locals }

@[simp] theorem Machine.push_store : (m.push name v).store = m.store := rfl

@[simp] theorem Machine.set_store : (m.set name v).store = m.store := rfl

theorem Machine.lookup_push_self : (m.push name v).locals.lookup name = some (.value v) := by
  simp [push]

theorem Machine.lookup_push_of_ne {n : String} (hn : n ≠ name) :
    (m.push name v).locals.lookup n = m.locals.lookup n :=
  lookup_cons_of_ne hn

theorem lookup_setBinding_self {b b' : Binding} {bs : List (String × Binding)}
    (hb : bs.lookup name = some b') : (setBinding name b bs).lookup name = some b := by
  induction bs with
  | nil => cases hb
  | cons p bs ih =>
      obtain ⟨n, old⟩ := p
      rw [setBinding]
      by_cases hn : n = name
      · simp [hn]
      · rw [if_neg hn, lookup_cons_of_ne (Ne.symm hn)]
        rw [lookup_cons_of_ne (Ne.symm hn)] at hb
        exact ih hb

theorem lookup_setBinding_of_ne {b : Binding} {n : String} (hn : n ≠ name)
    (bs : List (String × Binding)) : (setBinding name b bs).lookup n = bs.lookup n := by
  induction bs with
  | nil => rfl
  | cons p bs ih =>
      obtain ⟨n', old⟩ := p
      rw [setBinding]
      by_cases hn' : n' = name
      · subst hn'
        rw [if_pos rfl, lookup_cons_of_ne hn, lookup_cons_of_ne hn]
      · rw [if_neg hn', List.lookup_cons, List.lookup_cons, ih]

theorem Machine.lookup_set_self (hw : m.locals.lookup name = some (.value w)) :
    (m.set name v).locals.lookup name = some (.value v) :=
  lookup_setBinding_self hw

theorem Machine.lookup_set_of_ne {n : String} (hn : n ≠ name) :
    (m.set name v).locals.lookup n = m.locals.lookup n :=
  lookup_setBinding_of_ne hn m.locals

-- An expression that stands for a place.
structure Expr.Stands (h : Host) (fuel : Nat) (m : Machine) (x : Expr) (p : Place) : Prop where
  isPlace : x.isPlace = true
  notSelf : x.isSelf = false
  notReference : x.reference? m = none
  place : (x.place h fuel).run m = ⟨.ok p, m, []⟩

namespace Expr.Stands

variable {x : Expr} {p : Place}

theorem ident (hself : name ≠ "self") (hlook : m.locals.lookup name = some (.value v)) :
    Stands h fuel m (.ident name) ⟨.var name, []⟩ where
  isPlace := rfl
  notSelf := by simpa [isSelf]
  notReference := by simp [reference?, hlook]
  place := rfl

-- Fields of the contract.
theorem ofField (f : String) : Stands h fuel m (.field (.ident "self") f) (.ofField h f) :=
  ⟨rfl, rfl, rfl, rfl⟩

theorem field (hx : Stands h fuel m x p) (member : String) :
    Stands h fuel m (.field x member) ⟨p.root, p.path ++ [.field member]⟩ where
  isPlace := rfl
  notSelf := rfl
  notReference := rfl
  place := by
    rw [Expr.place, if_neg (by simp [hx.notSelf]), Run.run_bind_of_ok hx.place]
    rfl

theorem index {key : Expr} {i : Nat} (hx : Stands h fuel m x p) (hkey : key.Reads h fuel m (.int i)) :
    Stands h fuel m (.index x key) ⟨p.root, p.path ++ [.index i]⟩ where
  isPlace := rfl
  notSelf := rfl
  notReference := rfl
  place := by
    rw [Expr.place, Run.run_bind_of_ok hx.place, Run.run_bind_of_ok hkey]
    simp [Place.element]

end Expr.Stands

-- An expression that denotes a place inside a variable: what it is as a place, and what it reads there.
structure Expr.Within (h : Host) (fuel : Nat) (x : Expr) (name : String) (path : List Selector) :
    Prop where
  notSelf : x.isSelf = false
  notMapping : x.mapping? h = none
  stands : ∀ {m : Machine} {w : Value}, m.locals.lookup name = some (.value w) →
    x.Stands h fuel m ⟨.var name, path⟩
  reads : ∀ {m : Machine} {w v : Value}, m.locals.lookup name = some (.value w) →
    w.get? path = some v → x.Reads h fuel m v
  stuck : ∀ {m : Machine} {w : Value}, m.locals.lookup name = some (.value w) →
    w.get? path = none → (x.eval h fuel).run m = ⟨.error .stuck, m, []⟩

namespace Expr.Within

theorem ident (hself : name ≠ "self") (hpath : isPath name = false) :
    Within h fuel (.ident name) name [] where
  notSelf := by simpa [isSelf]
  notMapping := rfl
  stands hw := .ident hself hw
  reads hw hv := by
    obtain rfl := Option.some.inj hv
    exact .ident hself hpath hw
  stuck _ hv := by cases hv

theorem field {x : Expr} {path : List Selector} (hx : Within h fuel x name path) (member : String) :
    Within h fuel (.field x member) name (path ++ [.field member]) where
  notSelf := rfl
  notMapping := by simp [mapping?, hx.notSelf]
  stands hw := (hx.stands hw).field member
  reads {m w v} hw hv := by
    rw [Value.get?_append] at hv
    obtain ⟨u, hu, hv⟩ := Option.bind_eq_some_iff.mp hv
    rw [Reads, eval, if_neg (by simp [hx.notSelf]), Run.run_bind_of_ok (hx.reads hw hu), memberOf,
      Run.ofOption_some hv]
    rfl
  stuck {m w} hw hv := by
    rw [Value.get?_append] at hv
    rw [eval, if_neg (by simp [hx.notSelf])]
    cases hu : w.get? path with
    | none => rw [Run.run_bind_of_error (hx.stuck hw hu)]
    | some u =>
        rw [hu] at hv
        rw [Run.run_bind_of_ok (hx.reads hw hu), memberOf, show u.get? [.field member] = none from hv]
        rfl

end Expr.Within

-- Statements that declare variables.

-- What has a value is no reference, whatever type is written but for that of references.
theorem Expr.isReference_of_eval {x : Expr} {type : String} {m' : Machine} {es : List Event}
    (htype : startsWith type "ink::contract_ref!(" = false)
    (hx : (x.eval h fuel).run m = ⟨.ok v, m', es⟩) : isReference type x = false := by
  by_contra hr
  rw [Bool.not_eq_false] at hr
  unfold isReference at hr
  split at hr
  · rename_i path args
    rw [eval, Run.run_bind] at hx
    split at hx
    · simp [callFunction, Expr.name, hr] at hx
    · cases hx
  · simp [htype] at hr
  · cases hr

-- The value may have effects of its own.
theorem run_let {x : Expr} {isMut : Bool} {pattern type : String} {m₁ : Machine} {es : List Event}
    (htype : startsWith type "ink::contract_ref!(" = false) (hx : (x.eval h fuel).run m = ⟨.ok v, m₁, es⟩) :
    ((Stmt.letVar isMut pattern type (some x)).run h fuel).run m = ((declarePattern pattern v).run m₁).behind es := by
  rw [Stmt.run, if_neg (by simp [Expr.isReference_of_eval htype hx]), Run.run_bind_ok hx]

theorem run_letVar_of_eval {x : Expr} {isMut : Bool} {m₁ : Machine} {es : List Event}
    (hname : isTuplePattern name = false) (hx : (x.eval h fuel).run m = ⟨.ok v, m₁, es⟩) :
    ((Stmt.letVar isMut name "" (some x)).run h fuel).run m = ⟨.ok (), m₁.push name v, es⟩ := by
  rw [run_let rfl hx]
  simp [declarePattern, hname, Run.declare, Machine.push]

theorem run_letVar {x : Expr} {isMut : Bool} (hname : isTuplePattern name = false)
    (hx : x.Reads h fuel m v) :
    ((Stmt.letVar isMut name "" (some x)).run h fuel).run m = ⟨.ok (), m.push name v, []⟩ :=
  run_letVar_of_eval hname hx

theorem run_letVar_error {x : Expr} {isMut : Bool} {m₁ : Machine} {e : Exit} {es : List Event}
    (hplain : isReference "" x = false) (hx : (x.eval h fuel).run m = ⟨.error e, m₁, es⟩) :
    ((Stmt.letVar isMut name "" (some x)).run h fuel).run m = ⟨.error e, m₁, es⟩ := by
  rw [Stmt.run, if_neg (by simp [hplain]), Run.run_bind_of_error hx]

-- Statements that change what stands at a place.

theorem Root.read?_var (hw : m.locals.lookup name = some (.value w)) :
    (Root.var name).read? m = some w := by
  simp [read?, hw]

-- The outcome of a change, behind a step that had effects of its own.
def Root.changed (root : Root) (m : Machine) (es : List Event) : Option Value → Outcome Unit
  | some w => ⟨.ok (), root.write m w, es⟩
  | none => ⟨.error .panic, m, es⟩

theorem Root.behind_changed {root : Root} {es es' : List Event} (o : Option Value) :
    (root.changed m es' o).behind es = root.changed m (es ++ es') o := by
  cases o <;> rfl

theorem Place.run_modify {p : Place} {f : Value → Option Value} (hw : p.root.read? m = some w) :
    (p.modify f).run m = p.root.changed m [] (w.modify? f p.path) := by
  simp only [Place.modify, hw]
  cases w.modify? f p.path <;> rfl

theorem run_assign {target x : Expr} {p : Place} {m₁ : Machine} {es : List Event}
    (hx : (x.eval h fuel).run m = ⟨.ok v, m₁, es⟩) (hp : target.Stands h fuel m₁ p)
    (hw : p.root.read? m₁ = some w) :
    ((Stmt.assign target "=" x).run h fuel).run m =
      p.root.changed m₁ es (w.modify? (fun _ => some v) p.path) := by
  have hset : assigned h "=" v = fun _ => some v := rfl
  rw [Stmt.run, Run.run_bind_ok hx, Run.run_bind_of_ok hp.place, hset, Place.run_modify hw,
    Root.behind_changed, List.append_nil]

-- The place is found before the arguments are evaluated.
theorem run_mutator {target : Expr} (method : String) {args : List Expr} {p : Place}
    {vs : List Value} {m₁ : Machine} {es : List Event} (hmethod : isMutator method = true)
    (hp : target.Stands h fuel m p) (hargs : (evalAll h fuel args).run m = ⟨.ok vs, m₁, es⟩)
    (hw : p.root.read? m₁ = some w) :
    ((Stmt.expr (.methodCall target method args)).run h fuel).run m =
      p.root.changed m₁ es (w.modify? (mutation method vs) p.path) := by
  rw [Stmt.run, Run.run_bind, Expr.eval, Run.run_bind_of_ok (Run.run_machine m)]
  simp only [hp.notReference, hp.notSelf, hp.isPlace, hmethod, Bool.and_self, Bool.false_eq_true,
    if_false, if_true]
  rw [Run.run_bind_of_ok hp.place, Run.run_bind_ok hargs, Run.run_bind, Place.run_modify hw]
  cases w.modify? (mutation method vs) p.path <;> simp [Root.changed]

-- Elements of arrays.

theorem mutation_set (i : Nat) (v u : Value) :
    mutation "set" [.int i, v] u = u.modify? (fun _ => some v) [.index i] := by
  cases u with
  | atom a => rfl
  | node shape parts =>
      cases shape with
      | list =>
          by_cases hi : i < parts.length
          · simp [mutation, Value.modify?, Shape.slot?, hi]
          · simp [mutation, Value.modify?, Shape.slot?, hi]
      | tuple => rfl
      | struct names => rfl
      | variant path => rfl

-- One more element at the end of an array.
def append (v : Value) : Value → Option Value
  | .list items => some (.list (items ++ [v]))
  | _ => none

theorem mutation_push {method : String} (hm : method = "push" ∨ method = "push_back") (v : Value) :
    mutation method [v] = append v := by
  funext u
  rcases hm with rfl | rfl <;> cases u with
  | atom a => rfl
  | node shape parts => cases shape <;> rfl

-- One element fewer at the end of an array; an empty one stays empty.
def shorten : Value → Option Value
  | .list items => some (.list items.dropLast)
  | _ => none

theorem mutation_pop (method : String) : mutation method [] = shorten := by
  funext u
  cases u with
  | atom a => rfl
  | node shape parts => cases shape <;> rfl

end RustContracts.Rust
