import RustContracts.Proofs.Emit.Setting

-- A change inside a variable, along a path. Where elements of arrays are no places, each is read into a variable of its
-- own, changed there and set again. Where they are, one statement changes what a path leads to.
namespace RustContracts.Emit

open Program
open Rust (Machine Host Value Selector Store Event Root runAll)
open Rust.Expr (Reads AllRead Stands Within)

-- What is stored.
def Change.value? : Change → Option Rust.Expr
  | set x | push x => some x
  | pop => none

def Change.isSet : Change → Bool
  | set _ => true
  | _ => false

-- What an assignment or a push of a value does to what stands at its place.
def updated : Bool → Value → Value → Option Value
  | true, v => fun _ => some v
  | false, v => Rust.append v

-- Where parts are taken from and where they go. The last index of an assignment is looked at once, before
-- the value is computed; all others are looked at again when the part is put back.
def detour (isSet : Bool) : List (Seen Selector) → List (Selector × Selector)
  | [] => []
  | [hop] => [(hop.before, if isSet then hop.before else hop.again)]
  | hop :: rest => (hop.before, hop.again) :: detour isSet rest

theorem detour_cons_same {isSet : Bool} {hop : Seen Selector} (hsame : hop.again = hop.before)
    (hops : List (Seen Selector)) :
    detour isSet (hop :: hops) = (hop.before, hop.before) :: detour isSet hops := by
  cases hops <;> simp [detour, hsame]

theorem detour_cons {isSet : Bool} {hops : List (Seen Selector)} (hlast : hops = [] → isSet = false)
    (hop : Seen Selector) : detour isSet (hop :: hops) = (hop.before, hop.again) :: detour isSet hops := by
  cases hops with
  | nil => simp [detour, hlast rfl]
  | cons _ _ => rfl

namespace Setting

-- The step that an access takes at the three times.
def Leads (c : Setting) : Step → Seen Selector → Prop
  | .member _ name _, hop =>
    hop = ⟨.field (Rust.Name.value name), .field (Rust.Name.value name), .field (Rust.Name.value name)⟩
  | .index _ key _, hop =>
    ∃ i : Seen Nat, hop = i.map .index ∧ i.before < 2 ^ 32 ∧ i.after < 2 ^ 32 ∧
      c.Denotes (indexType key) key (i.map fun n : Nat => .int n)

-- What a change makes of what stands at its place. The value that it stores may change storage.
def Makes (c : Setting) : Change → (Value → Option Value) → Prop
  | .set x, f => ∃ v, c.Yields x v ∧ f = fun _ => some v
  | .push x, f => ∃ v, c.Yields x v ∧ f = Rust.append v
  | .pop, f => c.after = c.machine.store ∧ f = Rust.shorten

-- What code does that changes a variable: the variable holds the new value, storage is as computing the
-- value has left it, and all else that was in scope is as it was. Without a new value the run stops.
def Changes (c : Setting) (k : Nat) (name : String) (m : Machine) (code : List Rust.Stmt) :
    Option Value → Prop
  | some w => ∃ m' es, (runAll c.host c.fuel code).run m = ⟨.ok (), m', es⟩ ∧ m'.store = c.after ∧
      m'.locals.lookup name = some (.value w) ∧
      ∀ n, n ≠ name → ¬Fresh k n → m'.locals.lookup n = m.locals.lookup n
  | none => ∃ e m' es, (runAll c.host c.fuel code).run m = ⟨.error e, m', es⟩

variable {c : Setting} {m m₁ : Machine} {s s' : State} {change : Change} {x base : Rust.Expr}
variable {v w : Value} {name : String} {at₀ : List Selector} {code : List Rust.Stmt}
variable {f : Value → Option Value}

theorem Makes.of_value (hvalue : change.value? = some x) (hx : c.Yields x v) :
    c.Makes change (updated change.isSet v) := by
  cases change with
  | pop => cases hvalue
  | set y | push y =>
      obtain rfl : y = x := Option.some.inj hvalue
      exact ⟨v, hx, rfl⟩

-- A change by code that changes one place.
theorem changes_of_run {k : Nat} {es : List Event} {o : Option Value}
    (hlook : m.locals.lookup name = some (.value w))
    (hrun : (runAll c.host c.fuel code).run m = (Rust.Root.var name).changed m₁ es o)
    (hafter : m₁.store = c.after) (hlocals : m₁.locals = m.locals) : c.Changes k name m code o := by
  rw [← hlocals] at hlook
  cases o with
  | none => exact ⟨.panic, m₁, es, hrun⟩
  | some u =>
      refine ⟨m₁.set name u, es, hrun, hafter, ?_, fun n hn _ => ?_⟩
      · exact Machine.lookup_set_self hlook
      · rw [Machine.lookup_set_of_ne hn, hlocals]

theorem evalAll_singleton {h : Host} {fuel : Nat} {m m₁ : Machine} {es : List Event}
    (hx : (x.eval h fuel).run m = ⟨.ok v, m₁, es⟩) :
    (Rust.evalAll h fuel [x]).run m = ⟨.ok [v], m₁, es⟩ := by
  rw [Rust.evalAll, Rust.Run.run_bind_ok hx]
  simp [Rust.evalAll, Rust.Run.run_bind]

-- The change itself, at the end of the path.
theorem changes_at (htarget : c.env.target = .soroban) (hmakes : c.Makes change f) {st : Rust.Stmt}
    (hw : Writes (change.at base) c.env s st s') (hbase : Within c.host c.fuel base name at₀) (hm : c.Sees m)
    (hstore : m.store = c.machine.store) (hlook : m.locals.lookup name = some (.value w)) (k : Nat) :
    c.Changes k name m [st] (w.modify? f at₀) := by
  cases change with
  | set x =>
      obtain ⟨v, hx, rfl⟩ := hmakes
      obtain ⟨es, hrun⟩ := hx m hm hstore
      obtain ⟨rfl, -⟩ := writes_pure.mp hw
      have hset := Rust.run_assign hrun (hbase.stands hlook) (Rust.Root.read?_var hlook)
      exact changes_of_run hlook ((Rust.run_singleton _).trans hset) rfl rfl
  | push x =>
      obtain ⟨v, hx, rfl⟩ := hmakes
      obtain ⟨es, hrun⟩ := hx m hm hstore
      obtain ⟨call, s₁, hpush, hw⟩ := writes_bind.mp hw
      obtain ⟨rfl, -⟩ := writes_pure.mp hw
      rw [arrayPush, writes_of_target, htarget, writes_pure] at hpush
      obtain ⟨rfl, -⟩ := hpush
      have hrun := Rust.run_mutator "push_back" rfl (hbase.stands hlook)
        (evalAll_singleton hrun) (Rust.Root.read?_var hlook)
      rw [Rust.mutation_push (.inr rfl)] at hrun
      exact changes_of_run hlook ((Rust.run_singleton _).trans hrun) rfl rfl
  | pop =>
      obtain ⟨hafter, rfl⟩ := hmakes
      obtain ⟨call, s₁, hpop, hw⟩ := writes_bind.mp hw
      obtain ⟨rfl, -⟩ := writes_pure.mp hw
      rw [arrayPop, writes_of_target, htarget, writes_pure] at hpop
      obtain ⟨rfl, -⟩ := hpop
      have hrun := Rust.run_mutator "pop_back" rfl (hbase.stands hlook) (AllRead.eval .nil)
        (Rust.Root.read?_var hlook)
      rw [Rust.mutation_pop] at hrun
      exact changes_of_run hlook ((Rust.run_singleton _).trans hrun) (hstore.trans hafter.symm) rfl

-- Changes behind other code.

theorem Changes.behind {a b : List Rust.Stmt} {j k : Nat} {es : List Event} {o : Option Value}
    (ha : (runAll c.host c.fuel a).run m = ⟨.ok (), m₁, es⟩) (hjk : j ≤ k)
    (hkeep : ∀ n, n ≠ name → ¬Fresh j n → m₁.locals.lookup n = m.locals.lookup n)
    (hb : c.Changes k name m₁ b o) : c.Changes j name m (a ++ b) o := by
  cases o with
  | none =>
      obtain ⟨e, m', es', hrun⟩ := hb
      refine ⟨e, m', es ++ es', ?_⟩
      rw [Rust.run_append_of_ok ha, hrun]
      rfl
  | some u =>
      obtain ⟨m', es', hrun, hafter, hlook, hrest⟩ := hb
      refine ⟨m', es ++ es', ?_, hafter, hlook, fun n hn hf => ?_⟩
      · rw [Rust.run_append_of_ok ha, hrun]
        rfl
      · rw [hrest n hn fun hk => hf (hk.mono hjk), hkeep n hn hf]

theorem changes_none_of_error {a b : List Rust.Stmt} {k : Nat} {e : Rust.Exit} {es : List Event}
    (ha : (runAll c.host c.fuel a).run m = ⟨.error e, m₁, es⟩) : c.Changes k name m (a ++ b) none :=
  ⟨e, m₁, es, Rust.run_append_of_error ha⟩

-- What is written for an index: the last of an assignment is set at once, all others go through a variable.
theorem writes_index (htarget : c.env.target = .soroban) {start : Text.Position} {key : Expr} {on : Ty}
    {rest : List Step}
    (hw : Writes (changePath change base (.index start key on :: rest)) c.env s code s') :
    ∃ k s₁, Writes (exprAs (indexType key) key) c.env s k s₁ ∧
      ((∃ value, rest = [] ∧ change = .set value ∧
          code = [Soroban.arraySet base k (indexType key) value]) ∨
        ((rest = [] → change.isSet = false) ∧ ∃ bound y s₂ inner,
          Writes (bindUnlessSimple "idx" k) c.env s₁ (bound, y) s₂ ∧
          Writes (changePath change (.ident (numbered "elem" (s₂.frame.temps + 1))) rest) c.env
            s₂.counted inner s' ∧
          code = bound ++
            [.letVar true (numbered "elem" (s₂.frame.temps + 1)) ""
              (some (Soroban.arrayIndex base y (indexType key)))] ++ inner ++
            [Soroban.arraySet base y (indexType key)
              (.ident (numbered "elem" (s₂.frame.temps + 1)))])) := by
  rw [changePath] at hw
  split at hw
  · obtain ⟨_, _, hthrow, -⟩ := writes_bind.mp hw
    exact absurd hthrow not_writes_throw
  · obtain ⟨k, s₁, hk, hw⟩ := writes_bind.mp hw
    refine ⟨k, s₁, hk, ?_⟩
    obtain ⟨places, _, hplaces, hw⟩ := writes_bind.mp hw
    rw [elementsArePlaces, writes_of_target, htarget, writes_pure] at hplaces
    obtain ⟨rfl, rfl⟩ := hplaces
    rw [if_neg Bool.false_ne_true] at hw
    split at hw
    · obtain ⟨_, _, hset, hw⟩ := writes_bind.mp hw
      rw [arraySet, writes_of_target, htarget, writes_pure] at hset
      obtain ⟨rfl, rfl⟩ := hset
      exact .inl ⟨_, rfl, rfl, (writes_pure.mp hw).1.symm⟩
    · rename_i hlast
      refine .inr ⟨?_, ?_⟩
      · rintro rfl
        cases change with
        | set value => exact absurd rfl (hlast value rfl)
        | push _ => rfl
        | pop => rfl
      · obtain ⟨⟨bound, y⟩, s₂, hbound, hw⟩ := writes_bind.mp hw
        obtain ⟨_, _, hold, hw⟩ := writes_bind.mp hw
        rw [arrayIndex, writes_of_target, htarget, writes_pure] at hold
        obtain ⟨rfl, rfl⟩ := hold
        obtain ⟨_, _, htemp, hw⟩ := writes_bind.mp hw
        obtain ⟨rfl, rfl⟩ := writes_temp.mp htemp
        obtain ⟨inner, _, hinner, hw⟩ := writes_bind.mp hw
        obtain ⟨_, _, hback, hw⟩ := writes_bind.mp hw
        rw [arraySet, writes_of_target, htarget, writes_pure] at hback
        obtain ⟨rfl, rfl⟩ := hback
        obtain ⟨rfl, rfl⟩ := writes_pure.mp hw
        exact ⟨bound, y, s₂, inner, hbound, hinner, rfl⟩

-- The last index of an assignment.
theorem changes_arraySet {k : Rust.Expr} {i : Nat} (t : Ty) (hi : i < 2 ^ 32)
    (hk : Reads c.host c.fuel m k (.int i)) (hx : c.Yields x v)
    (hbase : Within c.host c.fuel base name at₀) (hm : c.Sees m) (hstore : m.store = c.machine.store)
    (hlook : m.locals.lookup name = some (.value w)) (count : Nat) :
    c.Changes count name m [Soroban.arraySet base k t x]
      (w.modify? (fun u => u.modify? (fun _ => some v) [.index i]) at₀) := by
  obtain ⟨es, hrun⟩ := hx m hm hstore
  have hargs : (Rust.evalAll c.host c.fuel [Soroban.asU32 k t, x]).run m =
      ⟨.ok [.int i, v], { m with store := c.after }, es⟩ := by
    rw [Rust.evalAll, Rust.Run.run_bind_of_ok (Soroban.reads_asU32 t hi hk),
      Rust.Run.run_bind_ok (evalAll_singleton hrun)]
    simp
  have hset := Rust.run_mutator "set" rfl (hbase.stands hlook) hargs (Rust.Root.read?_var hlook)
  rw [show Rust.mutation "set" [.int i, v] = _ from funext (Rust.mutation_set i v)] at hset
  exact changes_of_run hlook ((Rust.run_singleton _).trans hset) rfl rfl

-- An element on the way is read into a variable, changed there and set again, at the index as it is then.
theorem changes_element {f : Value → Option Value} {j k : Nat} {i : Seen Nat} {y : Rust.Expr}
    {elem : String} {inner : List Rust.Stmt} {rest : List (Selector × Selector)} (t : Ty)
    (hbefore : i.before < 2 ^ 32) (hagain : i.again < 2 ^ 32) (hjk : j ≤ k)
    (hstore : m.store = c.machine.store) (hy : c.Holds k m y (i.map fun n : Nat => .int n))
    (hbase : Within c.host c.fuel base name at₀) (hlook : m.locals.lookup name = some (.value w))
    (hname : ¬Fresh j name) (helem : IsTemp elem (k + 1))
    (hinner : ∀ p, c.Changes (k + 1) elem (m.push elem p) inner (p.carry? f rest)) :
    c.Changes j name m
      ([Rust.Stmt.letVar true elem "" (some (Soroban.arrayIndex base y t))] ++
        (inner ++ [Soroban.arraySet base y t (.ident elem)]))
      (w.modify? (fun u => u.carry? f ((.index i.before, .index i.again) :: rest)) at₀) := by
  have hread := (hy m (.refl k m)).1 hstore
  have hstop {e : Rust.Exit}
      (he : ((Soroban.arrayIndex base y t).eval c.host c.fuel).run m = ⟨.error e, m, []⟩) :
      c.Changes j name m
        ([Rust.Stmt.letVar true elem "" (some (Soroban.arrayIndex base y t))] ++
          (inner ++ [Soroban.arraySet base y t (.ident elem)])) none :=
    changes_none_of_error (by rw [Rust.run_singleton, Rust.run_letVar_error rfl he])
  cases hu : w.get? at₀ with
  | none =>
      rw [Rust.Value.modify?_eq_none fun u hu' => by rw [hu] at hu'; cases hu']
      have hget : ((base.methodCall "get" [Soroban.asU32 y t]).eval c.host c.fuel).run m =
          ⟨.error .stuck, m, []⟩ :=
        Rust.Expr.eval_methodCall_error rfl hbase.notSelf hbase.notMapping (hbase.stands hlook).notReference
          (hbase.stuck hlook hu)
      exact hstop (Rust.Expr.eval_methodCall_error rfl rfl rfl rfl hget)
  | some u =>
      obtain ⟨hsome, hnone⟩ := Soroban.eval_arrayIndex t hbefore (hbase.reads hlook hu) hread
      have hcarry := Rust.Value.carry?_cons (f := f) u (.index i.before) (.index i.again) rest
      cases hp : u.get? [.index i.before] with
      | none =>
          rw [Rust.Value.modify?_eq_none fun u' hu' => by
            obtain rfl := Option.some.inj (hu.symm.trans hu')
            rw [hcarry, hp, Option.bind_none]]
          obtain ⟨e, he⟩ := hnone hp
          exact hstop he
      | some p =>
          rw [hp, Option.bind_some] at hcarry
          have hlet : (runAll c.host c.fuel
              [.letVar true elem "" (some (Soroban.arrayIndex base y t))]).run m =
              ⟨.ok (), m.push elem p, []⟩ := by
            rw [Rust.run_singleton, Rust.run_letVar helem.isTuplePattern (hsome p hp)]
          have hne {n : String} (hn : ¬Fresh j n) : n ≠ elem := fun heq =>
            hn (heq ▸ helem.fresh (by omega))
          have hchanged := hinner p
          cases hq : p.carry? f rest with
          | none =>
              rw [Rust.Value.modify?_eq_none fun u' hu' => by
                obtain rfl := Option.some.inj (hu.symm.trans hu')
                rw [hcarry, hq, Option.bind_none]]
              rw [hq] at hchanged
              obtain ⟨e, m', es, hrun⟩ := hchanged
              refine .behind hlet (Nat.le_refl j) (fun n _ hn => Machine.lookup_push_of_ne (hne hn)) ?_
              exact changes_none_of_error hrun
          | some q =>
              rw [hq, Option.bind_some] at hcarry
              rw [hq] at hchanged
              obtain ⟨m₃, es, hrun, hafter, helem₃, hkeep⟩ := hchanged
              have hsame {n : String} (hn : ¬Fresh k n) : m₃.locals.lookup n = m.locals.lookup n := by
                have hne' : n ≠ elem := fun heq => hn (heq ▸ helem.fresh (Nat.lt_succ_self k))
                rw [hkeep n hne' fun hf => hn (hf.mono (Nat.le_succ k)), Machine.lookup_push_of_ne hne']
              have hlook₃ : m₃.locals.lookup name = some (.value w) :=
                (hsame fun hf => hname (hf.mono hjk)).trans hlook
              have hargs : AllRead c.host c.fuel m₃ [Soroban.asU32 y t, .ident elem] [.int i.again, q] :=
                .cons (Soroban.reads_asU32 t hagain ((hy m₃ fun n hn => hsame hn).2 hafter))
                  (.cons (.ident helem.ne_self helem.isPath helem₃) .nil)
              have hset := Rust.run_mutator "set" rfl (hbase.stands hlook₃) hargs.eval
                (Rust.Root.read?_var hlook₃)
              rw [show Rust.mutation "set" [.int i.again, q] = _ from
                funext (Rust.mutation_set i.again q)] at hset
              have hval : w.modify? (fun u => u.carry? f ((.index i.before, .index i.again) :: rest)) at₀ =
                  w.modify? (fun u => u.modify? (fun _ => some q) [.index i.again]) at₀ :=
                Rust.Value.modify?_congr hu hcarry
              rw [hval]
              refine .behind hlet (Nat.le_refl j) (fun n _ hn => Machine.lookup_push_of_ne (hne hn)) ?_
              refine .behind hrun (Nat.le_refl j) (fun n _ hn => ?_) ?_
              · exact hkeep n (hne hn) fun hf => hn (hf.mono (by omega))
              · exact changes_of_run hlook₃ ((Rust.run_singleton _).trans hset) hafter rfl

theorem Written.again_lt {i : Seen Nat} (hx : c.Written x (i.map fun n : Nat => .int n))
    (hbefore : i.before < 2 ^ 32) (hafter : i.after < 2 ^ 32) : i.again < 2 ^ 32 := by
  have hagain : Value.int i.again = if x.isSimple then .int i.after else .int i.before := hx.again
  split at hagain
  · rwa [Int.ofNat.inj (Rust.Atom.int.inj (Value.atom.inj hagain))]
  · rwa [Int.ofNat.inj (Rust.Atom.int.inj (Value.atom.inj hagain))]

-- A change at the end of a path inside a variable, by induction along the path. `at₀` leads from the
-- variable to the base.
theorem changes_changePath (htarget : c.env.target = .soroban) (hmakes : c.Makes change f) {path : List Step} {hops : List (Seen Selector)}
    (hpath : List.Forall₂ c.Leads path hops)
    (hw : Writes (changePath change base path) c.env s code s')
    (hbase : Within c.host c.fuel base name at₀) (hs : SameNames c.state s) (hm : c.Sees m)
    (hstore : m.store = c.machine.store) (hlook : m.locals.lookup name = some (.value w))
    (hname : ¬Fresh s.frame.temps name) :
    c.Changes s.frame.temps name m code
      (w.modify? (fun u => u.carry? f (detour change.isSet hops)) at₀) := by
  induction hpath generalizing base name at₀ s code m w with
  | nil =>
      rw [changePath] at hw
      obtain ⟨st, s₁, hat, hw⟩ := writes_bind.mp hw
      obtain ⟨rfl, -⟩ := writes_pure.mp hw
      exact changes_at htarget hmakes hat hbase hm hstore hlook _
  | @cons step hop rest hops hstep hrest ih =>
      cases step with
      | member start member on =>
          obtain rfl : hop = _ := hstep
          rw [changePath] at hw
          have hfield := ih hw (hbase.field _) hs hm hstore hlook hname
          rw [Rust.Value.modify?_append] at hfield
          rw [detour_cons_same rfl]
          simp only [Rust.Value.carry?_cons_self]
          exact hfield
      | index start key on =>
          obtain ⟨i, rfl, hbefore, hafter, hkey⟩ := hstep
          obtain ⟨k, s₁, hk, hcode⟩ := writes_index htarget hw
          have hwritten := hkey s k s₁ hs hk
          rcases hcode with ⟨value, rfl, rfl, rfl⟩ | ⟨hlast, bound, y, s₂, inner, hbound, hinner, rfl⟩
          · cases hrest
            obtain ⟨v, hx, rfl⟩ := hmakes
            have hread := hwritten.before m hm hstore
            have hset := changes_arraySet (indexType key) hbefore hread hx hbase hm hstore hlook s.frame.temps
            simp only [Change.isSet, detour, if_true, Rust.Value.carry?_cons_self]
            exact hset
          · have hs₁ := hs.trans ((steady_exprAs _ _).sameNames hk)
            obtain ⟨m₁, hrun, hstore₁, hagree, hs₂, hy⟩ :=
              bindUnlessSimple_run (by decide) hs₁ hwritten hm hstore hbound
            have htemps : s.frame.temps ≤ s₂.frame.temps := (((steady_exprAs _ _).sameNames hk).trans hs₂).2
            have hagain := hwritten.again_lt hbefore hafter
            have hkeep : m.Agrees s.frame.temps m₁ :=
              hagree.mono ((steady_exprAs _ _).sameNames hk).2
            have hm₁ : c.Sees m₁ := hm.of_agrees hs.2 hkeep
            have helem : IsTemp (numbered "elem" (s₂.frame.temps + 1)) (s₂.frame.temps + 1) :=
              ⟨"elem", by decide, rfl⟩
            rw [detour_cons fun hnil => hlast (by subst hnil; cases hrest; rfl)]
            rw [List.append_assoc, List.append_assoc]
            refine .behind hrun (Nat.le_refl _) (fun n _ hn => hkeep n hn) ?_
            refine changes_element (indexType key) hbefore hagain htemps (hstore₁.trans hstore) hy hbase
              ((hkeep name hname).trans hlook) hname helem fun p => ?_
            have hs₃ : SameNames c.state s₂.counted := (hs₁.trans hs₂).trans (sameNames_counted s₂)
            have hpush : m₁.Agrees s₂.frame.temps (m₁.push (numbered "elem" (s₂.frame.temps + 1)) p) :=
              agrees_push helem (Nat.lt_succ_self _) m₁ p
            have hchanged := ih hinner (.ident helem.ne_self helem.isPath) hs₃
              (hm₁.of_agrees (hs₁.trans hs₂).2 hpush) (hstore₁.trans hstore) Machine.lookup_push_self
              (helem.not_fresh (Nat.le_refl _))
            exact hchanged

end Setting

-- A change where it stands, and then a change on either target.

-- When Solidity looks at a key or an index: an assignment computes the value first, a push the place.
def Seen.place {α : Type} (isSet : Bool) (v : Seen α) : α := if isSet then v.after else v.before

-- How parts are taken out and put back on the way along a path.
def route (target : Target) (isSet : Bool) (hops : List (Seen Selector)) :
    List (Selector × Selector) :=
  match target with
  | .ink _ => (hops.map (Seen.place isSet)).map fun hop => (hop, hop)
  | .soroban => detour isSet hops

namespace Setting

variable {c : Setting} {m : Machine} {s s' : State} {change : Change} {base : Rust.Expr}
variable {w : Value} {code : List Rust.Stmt} {version : InkVersion} {f : Value → Option Value}

-- The machine once the value has been computed.
def behind (c : Setting) (m : Machine) : Machine := { m with store := c.after }

theorem sees_behind (hm : c.Sees m) : c.Sees (c.behind m) := hm

theorem inPlace_at (htarget : c.env.target = .ink version) (hmakes : c.Makes change f) {root : Root}
    {old new : List Selector} {st : Rust.Stmt} (hw : Writes (change.at base) c.env s st s') (hm : c.Sees m)
    (hstore : m.store = c.machine.store) (hold : Stands c.host c.fuel m base ⟨root, old⟩)
    (hnew : Stands c.host c.fuel (c.behind m) base ⟨root, new⟩)
    (hroot : root.read? (c.behind m) = some w) :
    ∃ es, (st.run c.host c.fuel).run m =
      root.changed (c.behind m) es (w.modify? f (if change.isSet then new else old)) := by
  cases change with
  | set x =>
      obtain ⟨v, hx, rfl⟩ := hmakes
      obtain ⟨es, hrun⟩ := hx m hm hstore
      obtain ⟨rfl, -⟩ := writes_pure.mp hw
      exact ⟨es, Rust.run_assign hrun hnew hroot⟩
  | push x =>
      obtain ⟨v, hx, rfl⟩ := hmakes
      obtain ⟨es, hrun⟩ := hx m hm hstore
      obtain ⟨call, s₁, hpush, hw⟩ := writes_bind.mp hw
      obtain ⟨rfl, -⟩ := writes_pure.mp hw
      rw [arrayPush, writes_of_target, htarget, writes_pure] at hpush
      obtain ⟨rfl, -⟩ := hpush
      have hpushed := Rust.run_mutator "push" rfl hold (evalAll_singleton hrun) hroot
      rw [Rust.mutation_push (.inl rfl)] at hpushed
      exact ⟨es, hpushed⟩
  | pop =>
      obtain ⟨hafter, rfl⟩ := hmakes
      -- nothing is computed, so storage is what it was
      have hsame : c.behind m = m := by rw [behind, hafter, ← hstore]
      rw [hsame] at hroot ⊢
      obtain ⟨call, s₁, hpop, hw⟩ := writes_bind.mp hw
      obtain ⟨rfl, -⟩ := writes_pure.mp hw
      rw [arrayPop, writes_of_target, htarget, writes_pure] at hpop
      obtain ⟨rfl, -⟩ := hpop
      have hpopped := Rust.run_mutator "pop" rfl hold (AllRead.eval .nil) hroot
      rw [Rust.mutation_pop] at hpopped
      exact ⟨[], hpopped⟩

-- By induction along the path, with the place before and behind the value.
theorem inPlace_changePath (htarget : c.env.target = .ink version) (hmakes : c.Makes change f)
    {path : List Step} {hops : List (Seen Selector)} (hpath : List.Forall₂ c.Leads path hops) {root : Root} {old new : List Selector}
    (hw : Writes (changePath change base path) c.env s code s') (hs : SameNames c.state s)
    (hm : c.Sees m) (hstore : m.store = c.machine.store)
    (hold : Stands c.host c.fuel m base ⟨root, old⟩)
    (hnew : Stands c.host c.fuel (c.behind m) base ⟨root, new⟩)
    (hroot : root.read? (c.behind m) = some w) :
    ∃ es, (runAll c.host c.fuel code).run m =
      root.changed (c.behind m) es (w.modify? f
        ((if change.isSet then new else old) ++ hops.map (Seen.place change.isSet))) := by
  induction hpath generalizing base s code old new with
  | nil =>
      rw [changePath] at hw
      obtain ⟨st, s₁, hat, hw⟩ := writes_bind.mp hw
      obtain ⟨rfl, -⟩ := writes_pure.mp hw
      rw [Rust.run_singleton, List.map_nil, List.append_nil]
      exact inPlace_at htarget hmakes hat hm hstore hold hnew hroot
  | @cons step hop rest hops hstep hrest ih =>
      -- the step becomes part of the base
      have hassoc (sel sel' : Selector) (hsel : (if change.isSet then sel' else sel) = hop.place change.isSet) :
          (if change.isSet then new ++ [sel'] else old ++ [sel]) ++ hops.map (Seen.place change.isSet) =
            (if change.isSet then new else old) ++ (hop :: hops).map (Seen.place change.isSet) := by
        rw [List.map_cons, ← hsel]
        split <;> simp
      cases step with
      | member start member on =>
          obtain rfl : hop = _ := hstep
          rw [changePath] at hw
          rw [← hassoc (.field (Rust.Name.value member)) (.field (Rust.Name.value member)) rfl]
          exact ih hw hs (hold.field _) (hnew.field _)
      | index start key on =>
          obtain ⟨i, rfl, hbefore, hafter, hkey⟩ := hstep
          rw [changePath] at hw
          split at hw
          · obtain ⟨_, _, hthrow, -⟩ := writes_bind.mp hw
            exact absurd hthrow not_writes_throw
          · obtain ⟨k, s₁, hk, hw⟩ := writes_bind.mp hw
            obtain ⟨places, _, hplaces, hw⟩ := writes_bind.mp hw
            rw [elementsArePlaces, writes_of_target, htarget, writes_pure] at hplaces
            obtain ⟨rfl, rfl⟩ := hplaces
            rw [if_pos rfl] at hw
            obtain ⟨element, _, helement, hw⟩ := writes_bind.mp hw
            rw [arrayIndex, writes_of_target, htarget, writes_pure] at helement
            obtain ⟨rfl, rfl⟩ := helement
            have hwritten := hkey s k s₁ hs hk
            have hold' := hold.index (Ink.reads_asUsize (indexType key) hbefore (hwritten.before m hm hstore))
            have hnew' := hnew.index (Ink.reads_asUsize (indexType key) hafter
              (hwritten.after (c.behind m) (sees_behind hm) rfl))
            rw [← hassoc (.index i.before) (.index i.after) rfl]
            exact ih hw (hs.trans ((steady_exprAs _ _).sameNames hk)) hold' hnew'

-- A change inside a variable that is no temporary one to come.
theorem changes_inside (hmakes : c.Makes change f) {path : List Step} {hops : List (Seen Selector)}
    (hpath : List.Forall₂ c.Leads path hops) {name : String} (hself : name ≠ "self")
    (hplain : Rust.isPath name = false) (hname : c.env.target = .soroban → ¬Fresh s.frame.temps name)
    (hw : Writes (changePath change (.ident name) path) c.env s code s') (hs : SameNames c.state s)
    (hm : c.Sees m) (hstore : m.store = c.machine.store) (hlook : m.locals.lookup name = some (.value w)) :
    c.Changes s.frame.temps name m code (w.carry? f (route c.env.target change.isSet hops)) := by
  cases htarget : c.env.target with
  | ink version =>
      have hroot : (Root.var name).read? (c.behind m) = some w := Rust.Root.read?_var hlook
      have hold : Stands c.host c.fuel m (.ident name) ⟨.var name, []⟩ := .ident hself hlook
      have hnew : Stands c.host c.fuel (c.behind m) (.ident name) ⟨.var name, []⟩ := .ident hself hlook
      obtain ⟨es, hrun⟩ := inPlace_changePath htarget hmakes hpath hw hs hm hstore hold hnew hroot
      rw [ite_self, List.nil_append] at hrun
      rw [route, Rust.Value.carry?_self]
      exact changes_of_run hlook hrun rfl rfl
  | soroban =>
      exact changes_changePath htarget hmakes hpath hw (.ident hself hplain) hs hm hstore hlook (hname htarget)

end Setting

end RustContracts.Emit
