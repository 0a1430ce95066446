import RustContracts.Proofs.Emit.Storage

-- Updates that get lost: a container is read before the value that goes into it is computed, and is
-- written back over what computing the value has done to it.
namespace RustContracts.Emit

open Program
open Rust (Machine Host Value Selector Store runAll)

-- What stays the same at all times.
def Seen.still {α : Type} (a : α) : Seen α := ⟨a, a, a⟩

theorem detour_still (isSet : Bool) (sels : List Selector) :
    detour isSet (sels.map Seen.still) = sels.map fun sel => (sel, sel) := by
  induction sels with
  | nil => rfl
  | cons sel sels ih =>
      rw [List.map_cons, detour_cons_same rfl, ih]
      rfl

theorem map_place_still {α : Type} (isSet : Bool) (as : List α) :
    (as.map Seen.still).map (Seen.place isSet) = as := by
  rw [List.map_map]
  refine (List.map_congr_left fun a _ => ?_).trans (List.map_id as)
  simp [Seen.place, Seen.still]

theorem map_before_still {α : Type} (as : List α) : (as.map Seen.still).map Seen.before = as := by
  simp [Seen.still, Function.comp_def]

theorem map_again_still {α : Type} (as : List α) : (as.map Seen.still).map Seen.again = as := by
  simp [Seen.still, Function.comp_def]

theorem route_still (target : Target) (isSet : Bool) (sels : List Selector) :
    route target isSet (sels.map Seen.still) = sels.map fun sel => (sel, sel) := by
  cases target with
  | ink _ => rw [route, map_place_still]
  | soroban => exact detour_still isSet sels

-- Statements that change a part of a field: what they assign or push, and as which type.
inductive Alters : Stmt → Bool → FieldDecl → List Step → Ty → Expr → Prop
  | assign {p q : Text.Position} {target value : Expr} {d : FieldDecl} {path : List Step}
      (htarget : accessPath target = (.field q d, path)) :
      Alters (.assign p target value) true d path target.type value
  | push {p q r : Text.Position} {array value : Expr} {d : FieldDecl} {path : List Step} {elem : Ty}
      {length : Int} (htype : array.type = .array elem length)
      (htarget : accessPath array = (.field q d, path)) :
      Alters (.expr p (.push r array value)) false d path elem value

variable {E : Env} {s s' : State} {st : Stmt} {isSet : Bool} {d : FieldDecl} {path : List Step} {t : Ty}
variable {value : Expr} {code : List Rust.Stmt}

-- The value is written first, then the change.
theorem Alters.writes (halters : Alters st isSet d path t value) (hw : Writes (stmt st) E s code s') :
    ∃ x s₁ start change, Writes (exprAs t value) E s x s₁ ∧ change.value? = some x ∧
      change.isSet = isSet ∧ Writes (changeField start d path change) E s₁ code s' := by
  have hchange {target : Expr} {q : Text.Position} {change : Change} {s₁ : State}
      (htarget : accessPath target = (.field q d, path))
      (hw : Writes (changeTarget target change) E s₁ code s') :
      Writes (changeField target.start d path change) E s₁ code s' := by
    rw [changeTarget, htarget] at hw
    exact hw
  cases halters with
  | @assign p q target value d path htarget =>
      rw [stmt] at hw
      obtain ⟨x, s₁, hx, hw⟩ := writes_bind.mp hw
      have hassign : Emit.assign x target = changeTarget target (.set x) := by
        cases target <;> first | rfl | cases htarget
      rw [hassign] at hw
      exact ⟨x, s₁, target.start, .set x, hx, rfl, rfl, hchange htarget hw⟩
  | @push p q r array value d path elem length htype htarget =>
      rw [stmt, exprStmt] at hw
      simp only [htype] at hw
      obtain ⟨x, s₁, hx, hw⟩ := writes_bind.mp hw
      exact ⟨x, s₁, array.start, .push x, hx, rfl, rfl, hchange htarget hw⟩

namespace Setting

variable {c : Setting} {v : Value} {keys : List (Seen Value)} {hops : List (Seen Selector)}

-- What storage is to hold behind a statement: first the value is computed, then what stands at the place
-- changes, and nothing else.
def expected (c : Setting) (d : FieldDecl) (isSet : Bool) (v : Value) (keys : List (Seen Value))
    (hops : List (Seen Selector)) : Option Store :=
  ((entry c.env.target c.host d c.after (keys.map (Seen.place isSet))).modify? (updated isSet v)
      (hops.map (Seen.place isSet))).map
    (c.after.write (cellOf c.env.target d (keys.map (Seen.place isSet))))

theorem Stores.unique {m : Machine} {o o' : Option Store} (h : c.Stores m code o)
    (h' : c.Stores m code o') : o = o' := by
  cases o with
  | none =>
      obtain ⟨e, m₁, es, hrun⟩ := h
      cases o' with
      | none => rfl
      | some store =>
          obtain ⟨m₂, es', hrun', -⟩ := h'
          rw [hrun] at hrun'
          cases hrun'
  | some store =>
      obtain ⟨m₁, es, hrun, rfl⟩ := h
      cases o' with
      | none =>
          obtain ⟨e, m₂, es', hrun'⟩ := h'
          rw [hrun] at hrun'
          cases hrun'
      | some store' =>
          obtain ⟨m₂, es', hrun', rfl⟩ := h'
          rw [hrun] at hrun'
          cases hrun'
          rfl

-- Values that a source expression may have; computing it may change storage.
def Gives (c : Setting) (t : Ty) (e : Expr) (v : Value) : Prop :=
  ∀ x s, Writes (exprAs t e) c.env c.state x s → c.Yields x v

-- A container is undisturbed when computing the value has left it alone, up to what stands at the place
-- of an assignment.
def Undisturbed (isSet : Bool) (sels : List Selector) (old new : Value) : Prop :=
  if isSet then ∃ u, new.get? sels = some u ∧ old.modify? (fun _ => some u) sels = some new
  else old = new

theorem append_inj (v a b w : Value) (ha : Rust.append v a = some w) (hb : Rust.append v b = some w) :
    a = b := by
  unfold Rust.append at ha hb
  split at ha
  · split at hb
    · obtain rfl := Option.some.inj ha
      obtain ⟨-, h⟩ := Value.node.inj (Option.some.inj hb)
      rw [List.append_cancel_right h]
    · cases hb
  · cases ha

-- The same change makes the same of two containers exactly when one is the other undisturbed.
theorem modify?_updated_eq_iff {sels : List Selector} {old new w : Value}
    (hnew : new.modify? (updated isSet v) sels = some w) :
    old.modify? (updated isSet v) sels = new.modify? (updated isSet v) sels ↔
      Undisturbed isSet sels old new := by
  cases isSet with
  | true =>
      obtain ⟨u, -, hu, -, -⟩ := Rust.Value.get?_of_modify? hnew
      refine (Rust.Value.modify?_const_eq_iff hu).trans ⟨fun h => ⟨u, hu, h⟩, ?_⟩
      rintro ⟨u', hu', h⟩
      obtain rfl := Option.some.inj (hu.symm.trans hu')
      exact h
  | false =>
      refine ⟨fun h => ?_, fun h => by rw [show old = new from h]⟩
      rw [hnew] at h
      exact Rust.Value.modify?_inj (append_inj v) h hnew

theorem map_write_inj {store : Store} {cell : Rust.Cell} {o o' : Option Value} :
    o.map (store.write cell) = o'.map (store.write cell) ↔ o = o' := by
  refine ⟨fun h => ?_, fun h => by rw [h]⟩
  refine Option.map_injective (fun a b hab => ?_) h
  have := congrFun hab cell
  simpa using this

-- A statement leaves storage as expected exactly when what it writes back is what is expected. Where
-- keys and indices stay what they are, this is so exactly when the container is undisturbed.
theorem stores_expected_iff (halters : Alters st isSet d path t value)
    (hback : ReadsBack c.env d path isSet) (hw : Writes (stmt st) c.env c.state code s')
    (huses : Uses c.env c.host c.machine d) (hvalue : c.Gives t value v)
    (hkeys : c.Keyed d.type.mappingKeys path keys)
    (hhops : List.Forall₂ c.Leads (path.drop d.type.mappingDepth) hops) :
    (c.Stores c.machine code (c.expected d isSet v keys hops) ↔
        c.storeBack d isSet v keys hops = c.expected d isSet v keys hops) ∧
      ∀ vs sels, keys = vs.map Seen.still → hops = sels.map Seen.still →
        Readable c.env d c.machine.store vs → c.expected d isSet v keys hops ≠ none →
        (c.Stores c.machine code (c.expected d isSet v keys hops) ↔
          Undisturbed isSet sels (entry c.env.target c.host d c.machine.store vs)
            (entry c.env.target c.host d c.after vs)) := by
  obtain ⟨x, s₁, start, change, hx, hchange, rfl, hw⟩ := halters.writes hw
  have hstores := stores_readsBack huses hchange (hvalue x s₁ hx) hkeys hhops hback
    ((steady_exprAs _ _).sameNames hx) hw
  have hiff : c.Stores c.machine code (c.expected d change.isSet v keys hops) ↔
      c.storeBack d change.isSet v keys hops = c.expected d change.isSet v keys hops :=
    ⟨fun h => hstores.unique h, fun h => h ▸ hstores⟩
  refine ⟨hiff, ?_⟩
  rintro vs sels rfl rfl hreadable hsome
  rw [hiff]
  rw [expected, map_place_still, map_place_still] at hsome
  rw [storeBack, map_before_still, if_pos hreadable, map_again_still, route_still,
    Rust.Value.carry?_self, expected, map_place_still, map_place_still, map_write_inj]
  cases hnew : (entry c.env.target c.host d c.after vs).modify? (updated change.isSet v) sels with
  | none => simp [hnew] at hsome
  | some w => rw [← hnew, modify?_updated_eq_iff hnew]

end Setting

namespace Callee

-- `s.a = g();` for `struct S { uint256 a; uint256 b; }` and `S s;`, where `g` returns one and leaves
-- storage as given.

def structDecl : StructDecl :=
  { name := "S", fields := [⟨"a", .uint256⟩, ⟨"b", .uint256⟩], owner := "C", start := {} }

def field : FieldDecl :=
  { name := "s", sourceName := "s", type := .struct ⟨"C", "S"⟩, owner := "C", start := {} }

def function : Function :=
  { name := "g", sourceName := "g", kind := .function, visibility := .isInternal
    returns := [⟨"", .uint256⟩]
    implementations := [{ owner := "C", body := some default, implemented := true, start := {} }] }

def contract : Contract :=
  { (default : Contract) with name := "C", structs := [structDecl], dispatch := [function] }

def call : Expr := .call {} "g" [] false "" "" .uint256

def statement : Stmt := .assign {} (.member {} (.field {} field) "a" .uint256) call

def pair (a b : Int) : Value := .struct ["a", "b"] [.int a, .int b]

def setting (after : Store) : Setting where
  host :=
    { field := fun _ => ⟨false, pair 0 0⟩
      literal := fun _ => none
      unary := fun _ _ => none
      binary := fun _ _ _ => none
      cast := fun _ _ => none
      function := fun _ _ _ => some (.variant "Ok" [.int 1], after)
      method := fun _ _ _ _ => none
      contract := fun _ _ _ _ _ => none }
  fuel := 0
  env := ⟨{ name := "C", classes := [contract] }, contract, .soroban⟩
  state := {}
  machine := ⟨[], fun _ => none⟩
  after := after

-- What is written for the statement.
def written : List Rust.Stmt :=
  match outcome (stmt statement) (setting fun _ => none).env {} with
  | (.ok code, _) => code
  | (.error _, _) => []

def hop : Seen Selector := .still (.field "a")

theorem gives (after : Store) : (setting after).Gives .uint256 call (.int 1) := by
  intro x s hx
  obtain ⟨s₁, hcall⟩ : ∃ s₁, Writes (exprAs .uint256 call) (setting after).env {}
      (.tryOp (.callPath "Self::g" [.ident "env"])) s₁ := ⟨_, rfl⟩
  obtain ⟨rfl, -⟩ := hx.unique hcall
  intro m hm _
  have henv : m.locals.lookup "env" = none := hm "env" (not_fresh_of_last (by decide))
  have hargs : Rust.Expr.AllRead (setting after).host (setting after).fuel m [.ident "env"]
      [.variant "env" []] :=
    .cons (Soroban.hostReads_ident _ _ m henv) .nil
  refine ⟨[], ?_⟩
  rw [Rust.Expr.eval, Rust.Expr.callPath, Rust.Expr.eval, Rust.Run.bind_assoc,
    Rust.Run.run_bind_of_ok hargs.eval]
  rfl

theorem alters : Alters statement true field [.member {} "a" field.type] .uint256 call := .assign rfl

theorem readsBack (after : Store) :
    ReadsBack (setting after).env field [.member {} "a" field.type] true :=
  ⟨.inl rfl, fun h => by cases h⟩

theorem writes (after : Store) :
    ∃ s', Writes (stmt statement) (setting after).env (setting after).state written s' := ⟨_, rfl⟩

theorem uses (after : Store) :
    Uses (setting after).env (setting after).host (setting after).machine field where
  knows :=
    { isMapping := rfl
      zero := fun _ hz => Option.some.inj hz }
  env _ := rfl

-- The callee leaves the container alone.
theorem stores_expected_of_untouched :
    (setting fun _ => none).Stores (setting fun _ => none).machine written
      ((setting fun _ => none).expected field true (.int 1) [] [hop]) := by
  obtain ⟨s', hw⟩ := writes fun _ => none
  have hiff := Setting.stores_expected_iff alters (readsBack _) hw (uses _) (gives _)
    (show Setting.Keyed _ [] _ [] from rfl) (.cons (show Setting.Leads _ _ hop from rfl) .nil)
  refine (hiff.2 [] [.field "a"] rfl rfl (fun _ => .inr rfl) (Option.some_ne_none _)).mpr ?_
  exact ⟨.int 0, rfl, rfl⟩

def cell : Rust.Cell := ⟨"DataKey::S", []⟩

-- The callee sets `s.b` to seven.
def touched : Store := Store.write (fun _ => none) cell (pair 0 7)

-- Seven is to stay, but the container that is written back holds the zero of before the call.
theorem update_lost :
    (∃ s', Writes (stmt statement) (setting touched).env (setting touched).state written s') ∧
      (∃ m' es, (runAll (setting touched).host (setting touched).fuel written).run
        (setting touched).machine = ⟨.ok (), m', es⟩ ∧ m'.store cell = some (pair 1 0)) ∧
      (∃ store, (setting touched).expected field true (.int 1) [] [hop] = some store ∧
        store cell = some (pair 1 7)) ∧
      ¬(setting touched).Stores (setting touched).machine written
        ((setting touched).expected field true (.int 1) [] [hop]) := by
  have hrun : ∃ m' es, (runAll (setting touched).host (setting touched).fuel written).run
      (setting touched).machine = ⟨.ok (), m', es⟩ ∧ m'.store cell = some (pair 1 0) :=
    ⟨_, _, rfl, rfl⟩
  refine ⟨writes touched, hrun, ⟨_, rfl, rfl⟩, ?_⟩
  obtain ⟨m', es, hrun, hcell⟩ := hrun
  rintro ⟨m'', es', hrun', hstore⟩
  rw [hrun] at hrun'
  cases hrun'
  rw [hstore] at hcell
  exact absurd hcell (by decide)

end Callee

end RustContracts.Emit
