import RustContracts.Proofs.Emit.Detour

-- A change in storage: its keys, and the container that is read, changed and written back.
namespace RustContracts.Emit

open Program
open Rust (Machine Host Value Selector Store Event runAll)
open Rust.Expr (Reads AllRead)

-- A field on the target at hand.

variable {E : Env} {h : Host} {fuel : Nat} {m : Machine} {d : FieldDecl} {s s' : State}

-- What the code for a field relies on: the host knows the field, and no variable hides the environment.
structure Uses (E : Env) (h : Host) (m : Machine) (d : FieldDecl) : Prop where
  knows : Knows E h d
  env : E.target = .soroban → m.locals.lookup "env" = none

-- Without keys, only fields of Soroban are read and written by methods.
def HasCells (E : Env) (d : FieldDecl) : Prop := E.target = .soroban ∨ d.type.isMapping = true

theorem HasCells.mapping {version : InkVersion} (hcells : HasCells E d)
    (htarget : E.target = .ink version) : d.type.isMapping = true := by
  rcases hcells with h | h
  · rw [htarget] at h
    cases h
  · exact h

-- A mapping has keys.
theorem HasCells.ne_nil {version : InkVersion} {keys : List Rust.Expr} (hcells : HasCells E d)
    (htarget : E.target = .ink version) (hlen : keys.length = d.type.mappingDepth) : keys ≠ [] := by
  have hmap := hcells.mapping htarget
  rintro rfl
  cases ht : d.type with
  | mapping _ _ => simp [Ty.mappingDepth, Ty.mappingKeys, ht] at hlen
  | _ => simp [Ty.isMapping, ht] at hmap

theorem target_of_not_readable {store : Store} {vs : List Value} (hr : ¬Readable E d store vs) :
    E.target = .soroban := by
  by_contra htarget
  exact hr fun hs => absurd hs htarget

-- Reading a field gives what it holds, or stops.
theorem eval_readField {keys : List Rust.Expr} {vs : List Value} {x : Rust.Expr}
    (huses : Uses E h m d) (hcells : HasCells E d) (hlen : keys.length = d.type.mappingDepth)
    (hw : Writes (readField d keys) E s x s') (hkeys : AllRead h fuel m keys vs) :
    (Readable E d m.store vs → Reads h fuel m x (entry E.target h d m.store vs)) ∧
      (¬Readable E d m.store vs → (x.eval h fuel).run m = ⟨.error .panic, m, []⟩) := by
  rw [readField, writes_of_target] at hw
  cases htarget : E.target with
  | ink version =>
      rw [htarget, writes_pure] at hw
      obtain ⟨rfl, -⟩ := hw
      have hmap := hcells.mapping htarget
      have hne := hcells.ne_nil htarget hlen
      refine ⟨fun _ => ?_, fun hn => absurd (fun hs => by rw [htarget] at hs; cases hs) hn⟩
      exact Ink.reads_readField hne (huses.knows.isMapping.trans hmap) hkeys version
  | soroban =>
      rw [htarget] at hw
      exact Soroban.eval_readField htarget huses.knows (huses.env htarget) hw hkeys

theorem run_writeField {keys : List Rust.Expr} {vs : List Value} {x : Rust.Expr} {v : Value}
    {st : Rust.Stmt} (huses : Uses E h m d) (hcells : HasCells E d)
    (hlen : keys.length = d.type.mappingDepth) (hw : Writes (writeField d keys x) E s st s')
    (hkeys : AllRead h fuel m keys vs) (hx : Reads h fuel m x v) :
    (st.run h fuel).run m =
      ⟨.ok (), { m with store := m.store.write (cellOf E.target d vs) v }, []⟩ := by
  rw [writeField, writes_of_target] at hw
  cases htarget : E.target with
  | ink version =>
      rw [htarget, writes_pure] at hw
      obtain ⟨rfl, -⟩ := hw
      have hmap := hcells.mapping htarget
      have hne := hcells.ne_nil htarget hlen
      exact Ink.run_writeField hne (huses.knows.isMapping.trans hmap) hkeys hx version
  | soroban =>
      rw [htarget, writes_pure] at hw
      obtain ⟨rfl, -⟩ := hw
      exact Soroban.run_writeField (huses.env htarget) hkeys hx

-- The three ways to write a change in storage.

-- Whether the container of a change is read, changed and written back.
def ReadsBack (E : Env) (d : FieldDecl) (path : List Step) (isSet : Bool) : Prop :=
  HasCells E d ∧ (path.drop d.type.mappingDepth = [] → isSet = false)

theorem writes_fieldPlace? {place : Option Rust.Expr} (hw : Writes (fieldPlace? d) E s place s') :
    s = s' ∧ (place = none ∧ HasCells E d ∨ ∃ version, E.target = .ink version ∧
      d.type.isMapping = false ∧ place = some (Ink.selfField d.name)) := by
  rw [fieldPlace?, writes_of_target] at hw
  cases htarget : E.target with
  | ink version =>
      rw [htarget, writes_pure, Ink.fieldPlace?] at hw
      obtain ⟨rfl, rfl⟩ := hw
      refine ⟨rfl, ?_⟩
      cases hmap : d.type.isMapping with
      | true => exact .inl ⟨rfl, .inr hmap⟩
      | false => exact .inr ⟨version, rfl, rfl, rfl⟩
  | soroban =>
      rw [htarget, writes_pure] at hw
      obtain ⟨rfl, rfl⟩ := hw
      exact ⟨rfl, .inl ⟨rfl, .inl htarget⟩⟩

theorem writes_changeField {start : Text.Position} {path : List Step} {change : Change}
    {code : List Rust.Stmt} (hw : Writes (changeField start d path change) E s code s') :
    ∃ keys s₁, Writes (mappingKeys d d.type.mappingKeys path) E s keys s₁ ∧
      ((∃ version, E.target = .ink version ∧ d.type.isMapping = false ∧
          Writes (changePath change (Ink.selfField d.name) path) E s₁ code s') ∨
        (HasCells E d ∧ path.drop d.type.mappingDepth = [] ∧ ∃ x st, change = .set x ∧
          Writes (writeField d keys x) E s₁ st s' ∧ code = [st]) ∨
        (ReadsBack E d path change.isSet ∧ ∃ bound ys s₂ old s₃ inner s₄ back,
          Writes (bindAll "key" keys) E s₁ (bound, ys) s₂ ∧
          Writes (readField d (ys.map clonedKey)) E s₂ old s₃ ∧
          Writes (changePath change (.ident (numbered "value" (s₃.frame.temps + 1)))
            (path.drop d.type.mappingDepth)) E s₃.counted inner s₄ ∧
          Writes (writeField d ys (.ident (numbered "value" (s₃.frame.temps + 1)))) E s₄ back s' ∧
          code = bound ++ [Rust.Stmt.letVar true (numbered "value" (s₃.frame.temps + 1)) "" (some old)] ++
            inner ++ [back])) := by
  rw [changeField] at hw
  split at hw
  · obtain ⟨_, _, hthrow, -⟩ := writes_bind.mp hw
    exact absurd hthrow not_writes_throw
  · obtain ⟨keys, s₁, hkeys, hchange⟩ := writes_bind.mp hw
    refine ⟨keys, s₁, hkeys, ?_⟩
    clear hw hkeys
    obtain ⟨place, s₂, hplace, hw⟩ := writes_bind.mp hchange
    clear hchange
    obtain ⟨rfl, hkind⟩ := writes_fieldPlace? hplace
    rcases hkind with ⟨rfl, hcells⟩ | ⟨version, htarget, hmap, rfl⟩
    · dsimp only at hw
      split at hw
      · rename_i hrest
        obtain ⟨st, _, hwrite, hw⟩ := writes_bind.mp hw
        obtain ⟨rfl, rfl⟩ := writes_pure.mp hw
        exact .inr (.inl ⟨hcells, hrest, _, st, rfl, hwrite, rfl⟩)
      · rename_i change _ _ hlast
        have hset : path.drop d.type.mappingDepth = [] → change.isSet = false := fun hrest => by
          cases change with
          | set x => exact absurd rfl (hlast x hrest)
          | push _ => rfl
          | pop => rfl
        obtain ⟨⟨bound, ys⟩, s₂, hbound, hw⟩ := writes_bind.mp hw
        obtain ⟨old, s₃, hold, hw⟩ := writes_bind.mp hw
        obtain ⟨_, _, htemp, hw⟩ := writes_bind.mp hw
        obtain ⟨rfl, rfl⟩ := writes_temp.mp htemp
        obtain ⟨inner, s₄, hinner, hw⟩ := writes_bind.mp hw
        obtain ⟨back, _, hback, hw⟩ := writes_bind.mp hw
        obtain ⟨rfl, rfl⟩ := writes_pure.mp hw
        exact .inr (.inr ⟨⟨hcells, hset⟩, bound, ys, s₂, old, s₃, inner, s₄, back, hbound, hold, hinner,
          hback, rfl⟩)
    · exact .inl ⟨version, htarget, hmap, hw⟩

namespace Setting

variable {c : Setting} {x : Rust.Expr} {v : Value} {code : List Rust.Stmt}

-- Keys.

-- What the keys of a mapping at the start of a path are at the three times.
def Keyed (c : Setting) : List Ty → List Step → List (Seen Value) → Prop
  | [], _, vs => vs = []
  | t :: types, .index _ key _ :: path, v :: vs => c.Denotes t key v ∧ c.Keyed types path vs
  | _, _, _ => False

theorem writes_mappingKeys {types : List Ty} {path : List Step} {vs : List (Seen Value)}
    {keys : List Rust.Expr} (hkeyed : c.Keyed types path vs) (hs : SameNames c.state s)
    (hw : Writes (mappingKeys d types path) c.env s keys s') :
    List.Forall₂ c.Written keys vs ∧ keys.length = types.length ∧ SameNames s s' := by
  induction types generalizing path vs keys s with
  | nil =>
      obtain rfl : vs = [] := hkeyed
      obtain ⟨rfl, rfl⟩ := writes_pure.mp hw
      exact ⟨.nil, rfl, .refl s⟩
  | cons t types ih =>
      match path, vs, hkeyed with
      | .index start key on :: path, v :: vs, hkeyed =>
          obtain ⟨k, s₁, hk, hw⟩ := writes_bind.mp hw
          obtain ⟨ks, s₂, hks, hw⟩ := writes_bind.mp hw
          obtain ⟨rfl, rfl⟩ := writes_pure.mp hw
          have hsame := (steady_exprAs _ _).sameNames hk
          obtain ⟨hall, hlen, hsame'⟩ := ih hkeyed.2 (hs.trans hsame) hks
          exact ⟨.cons (hkeyed.1 s k s₁ hs hk) hall, congrArg Nat.succ hlen, hsame.trans hsame'⟩

theorem bindAll_run {xs ys : List Rust.Expr} {vs : List (Seen Value)} {bound : List Rust.Stmt}
    (hs : SameNames c.state s) (hxs : List.Forall₂ c.Written xs vs) (hm : c.Sees m)
    (hstore : m.store = c.machine.store) (hw : Writes (bindAll "key" xs) c.env s (bound, ys) s') :
    ∃ m₁, (runAll c.host c.fuel bound).run m = ⟨.ok (), m₁, []⟩ ∧ m₁.store = m.store ∧
      m.Agrees s.frame.temps m₁ ∧ SameNames s s' ∧
      List.Forall₂ (c.Holds s'.frame.temps m₁) ys vs := by
  induction hxs generalizing ys bound s m with
  | nil =>
      rw [bindAll, writes_pure, Prod.mk.injEq] at hw
      obtain ⟨⟨rfl, rfl⟩, rfl⟩ := hw
      exact ⟨m, rfl, rfl, .refl _ m, .refl s, .nil⟩
  | cons hx hxs ih =>
      obtain ⟨⟨bound₁, y⟩, s₁, hbound, hw⟩ := writes_bind.mp hw
      obtain ⟨⟨more, ys⟩, s₂, hmore, hw⟩ := writes_bind.mp hw
      rw [writes_pure, Prod.mk.injEq] at hw
      obtain ⟨⟨rfl, rfl⟩, rfl⟩ := hw
      obtain ⟨m₁, hrun, hstore₁, hagree, hs₁, hy⟩ :=
        bindUnlessSimple_run (by decide) hs hx hm hstore hbound
      obtain ⟨m₂, hrun', hstore₂, hagree', hs₂, hys⟩ :=
        ih (hs.trans hs₁) (hm.of_agrees hs.2 hagree) (hstore₁.trans hstore) hmore
      refine ⟨m₂, ?_, hstore₂.trans hstore₁, hagree.trans (hagree'.mono hs₁.2), hs₁.trans hs₂, ?_⟩
      · rw [Rust.run_append_of_ok hrun, hrun']
        rfl
      · exact .cons (hy.of_agrees hs₂.2 hagree') hys

theorem reads_clonedKey {y : Rust.Expr} (hy : Reads h fuel m y v) : Reads h fuel m (clonedKey y) v := by
  unfold clonedKey
  split
  · exact hy.clone
  · exact hy

-- The keys are there before the value is computed and again when the container is written back.
theorem allRead_keys {k : Nat} {m' : Machine} {ys : List Rust.Expr} {vs : List (Seen Value)}
    (hys : List.Forall₂ (c.Holds k m) ys vs) (hm : m.Agrees k m') :
    (m'.store = c.machine.store →
        AllRead c.host c.fuel m' (ys.map clonedKey) (vs.map Seen.before)) ∧
      (m'.store = c.after → AllRead c.host c.fuel m' ys (vs.map Seen.again)) := by
  induction hys with
  | nil => exact ⟨fun _ => .nil, fun _ => .nil⟩
  | cons hy _ ih =>
      refine ⟨fun hstore => .cons (reads_clonedKey ((hy m' hm).1 hstore)) (ih.1 hstore), fun hstore => ?_⟩
      exact .cons ((hy m' hm).2 hstore) (ih.2 hstore)

-- What a run leaves in storage; without a result it stops.
def Stores (c : Setting) (m : Machine) (code : List Rust.Stmt) : Option Store → Prop
  | some store => ∃ m' es, (runAll c.host c.fuel code).run m = ⟨.ok (), m', es⟩ ∧ m'.store = store
  | none => ∃ e m' es, (runAll c.host c.fuel code).run m = ⟨.error e, m', es⟩

theorem Stores.behind {a b : List Rust.Stmt} {m₁ : Machine} {es : List Event} {o : Option Store}
    (ha : (runAll c.host c.fuel a).run m = ⟨.ok (), m₁, es⟩) (hb : c.Stores m₁ b o) :
    c.Stores m (a ++ b) o := by
  cases o with
  | none =>
      obtain ⟨e, m', es', hrun⟩ := hb
      exact ⟨e, m', es ++ es', by rw [Rust.run_append_of_ok ha, hrun]; rfl⟩
  | some store =>
      obtain ⟨m', es', hrun, hstore⟩ := hb
      exact ⟨m', es ++ es', by rw [Rust.run_append_of_ok ha, hrun]; rfl, hstore⟩

theorem stores_none_of_error {a b : List Rust.Stmt} {m₁ : Machine} {e : Rust.Exit} {es : List Event}
    (ha : (runAll c.host c.fuel a).run m = ⟨.error e, m₁, es⟩) : c.Stores m (a ++ b) none :=
  ⟨e, m₁, es, Rust.run_append_of_error ha⟩

theorem uses_of_sees (huses : Uses c.env c.host c.machine d) (hm : c.Sees m) :
    Uses c.env c.host m d where
  knows := huses.knows
  env htarget := by
    have henv : ¬Fresh c.count "env" := not_fresh_of_last (by decide)
    rw [hm "env" henv, huses.env htarget]

-- What is written back: the container as it was before the value was computed, changed. It goes where
-- the keys lead by then, over all that computing the value has left there.
def storeBack (c : Setting) (d : FieldDecl) (isSet : Bool) (v : Value)
    (keys : List (Seen Value)) (hops : List (Seen Selector)) : Option Store :=
  if Readable c.env d c.machine.store (keys.map Seen.before) then
    ((entry c.env.target c.host d c.machine.store (keys.map Seen.before)).carry? (updated isSet v)
        (route c.env.target isSet hops)).map
      (c.after.write (cellOf c.env.target d (keys.map Seen.again)))
  else none

-- A container in a variable: it is changed there and written back.
theorem stores_container {k : Nat} {name : String} {old : Rust.Expr} {w : Value} {o : Option Value}
    {inner : List Rust.Stmt} {back : Rust.Stmt} {cell : Rust.Cell} (hname : IsTemp name (k + 1))
    (hold : Reads c.host c.fuel m old w) (hinner : c.Changes (k + 1) name (m.push name w) inner o)
    (hback : ∀ m₁ u, m.Agrees k m₁ → m₁.store = c.after → m₁.locals.lookup name = some (.value u) →
      (back.run c.host c.fuel).run m₁ = ⟨.ok (), { m₁ with store := m₁.store.write cell u }, []⟩) :
    c.Stores m ([Rust.Stmt.letVar true name "" (some old)] ++ (inner ++ [back]))
      (o.map (c.after.write cell)) := by
  have hlet : (runAll c.host c.fuel [.letVar true name "" (some old)]).run m =
      ⟨.ok (), m.push name w, []⟩ := by
    rw [Rust.run_singleton, Rust.run_letVar hname.isTuplePattern hold]
  refine .behind hlet ?_
  cases o with
  | none =>
      obtain ⟨e, m₁, es, hrun⟩ := hinner
      exact stores_none_of_error hrun
  | some u =>
      obtain ⟨m₁, es, hrun, hafter, hlook, hkeep⟩ := hinner
      have hagree : m.Agrees k m₁ := fun n hn => by
        have hne : n ≠ name := fun heq => hn (heq ▸ hname.fresh (Nat.lt_succ_self k))
        rw [hkeep n hne fun hf => hn (hf.mono (Nat.le_succ k)), Machine.lookup_push_of_ne hne]
      refine .behind hrun ⟨{ m₁ with store := m₁.store.write cell u }, [], ?_, ?_⟩
      · rw [Rust.run_singleton, hback m₁ u hagree hafter hlook]
      · rw [hafter]

theorem stores_readsBack {change : Change} {start : Text.Position} {path : List Step}
    {keys : List (Seen Value)} {hops : List (Seen Selector)}
    (huses : Uses c.env c.host c.machine d) (hvalue : change.value? = some x) (hx : c.Yields x v)
    (hkeys : c.Keyed d.type.mappingKeys path keys)
    (hhops : List.Forall₂ c.Leads (path.drop d.type.mappingDepth) hops)
    (hback : ReadsBack c.env d path change.isSet) (hs : SameNames c.state s)
    (hw : Writes (changeField start d path change) c.env s code s') :
    c.Stores c.machine code (c.storeBack d change.isSet v keys hops) := by
  obtain ⟨xs, s₁, hxs, hcode⟩ := writes_changeField hw
  obtain ⟨hwritten, hlen, hs₁⟩ := writes_mappingKeys hkeys hs hxs
  obtain ⟨version, htarget, hmap, -⟩ | ⟨-, hrest, _, _, rfl, -⟩ |
    ⟨hback, bound, ys, s₂, old, s₃, inner, s₄, back, hbound, hold, hinner, hwrite, rfl⟩ := hcode
  · rw [hback.1.mapping htarget] at hmap
    cases hmap
  · cases hback.2 hrest
  · have hs' := hs.trans hs₁
    have hstart : c.Sees c.machine := .refl _ c.machine
    obtain ⟨m₁, hrun, hstore₁, hagree, hs₂, hys⟩ := bindAll_run hs' hwritten hstart rfl hbound
    have hm₁ : c.Sees m₁ := hstart.of_agrees hs'.2 hagree
    have hlen' : ys.length = d.type.mappingDepth := by
      rw [hys.length_eq, ← hwritten.length_eq, hlen, Ty.mappingDepth]
    have hread := eval_readField (uses_of_sees huses hm₁) hback.1 (by rw [List.length_map, hlen']) hold
      ((allRead_keys hys (.refl _ m₁)).1 hstore₁)
    rw [hstore₁] at hread
    rw [storeBack, List.append_assoc, List.append_assoc]
    refine .behind hrun ?_
    split
    · rename_i hreadable
      have hname : IsTemp (numbered "value" (s₃.frame.temps + 1)) (s₃.frame.temps + 1) :=
        ⟨"value", by decide, rfl⟩
      have hs₃ := (steady_readField _ _).sameNames hold
      have hs₄ : SameNames c.state s₃.counted :=
        ((hs'.trans hs₂).trans hs₃).trans (sameNames_counted s₃)
      have hpush := agrees_push hname (Nat.lt_succ_self _) m₁
        (entry c.env.target c.host d c.machine.store (keys.map Seen.before))
      have hchanges := changes_inside (.of_value hvalue hx) hhops hname.ne_self hname.isPath
        (fun _ => hname.not_fresh (Nat.le_refl _)) hinner hs₄
        (hm₁.of_agrees ((hs'.trans hs₂).trans hs₃).2 hpush) hstore₁ Machine.lookup_push_self
      refine stores_container hname (hread.1 hreadable) hchanges fun m₂ u hagree₂ hafter hlook => ?_
      have hm₂ : c.Sees m₂ := hm₁.of_agrees ((hs'.trans hs₂).trans hs₃).2 hagree₂
      exact run_writeField (uses_of_sees huses hm₂) hback.1 hlen' hwrite
        ((allRead_keys hys (hagree₂.mono hs₃.2)).2 hafter) (.ident hname.ne_self hname.isPath hlook)
    · rename_i hreadable
      have hplain : Rust.isReference "" old = false := by
        rw [readField, writes_of_target, target_of_not_readable hreadable] at hold
        exact Soroban.isReference_readField hold
      exact stores_none_of_error
        ((Rust.run_singleton _).trans (Rust.run_letVar_error hplain (hread.2 hreadable)))

end Setting

end RustContracts.Emit
