import RustContracts.Proofs.Emit.Cell

-- The setting of a change in storage. The value that is stored may have effects: keys and indices are
-- looked at before it is computed, after it, and again when a container is written back.
namespace RustContracts

open Program Emit
open Rust (Machine Host Value Store Event Stmt runAll)
open Rust.Expr (Reads AllRead)

namespace Rust

variable {h : Host} {fuel : Nat} {m m₁ : Machine} {es : List Event}

-- Code behind code.

theorem runAll_append (a b : List Stmt) :
    runAll h fuel (a ++ b) = runAll h fuel a >>= fun _ => runAll h fuel b := by
  induction a with
  | nil => rfl
  | cons s a ih => rw [List.cons_append, runAll, runAll, Run.bind_assoc, ih]

theorem run_append_of_ok {a b : List Stmt} (ha : (runAll h fuel a).run m = ⟨.ok (), m₁, es⟩) :
    (runAll h fuel (a ++ b)).run m = ((runAll h fuel b).run m₁).behind es := by
  rw [runAll_append, Run.run_bind_ok ha]

theorem run_append_of_error {a b : List Stmt} {e : Exit}
    (ha : (runAll h fuel a).run m = ⟨.error e, m₁, es⟩) :
    (runAll h fuel (a ++ b)).run m = ⟨.error e, m₁, es⟩ := by
  rw [runAll_append, Run.run_bind_of_error ha]

theorem run_singleton (s : Stmt) : (runAll h fuel [s]).run m = (s.run h fuel).run m := by
  rw [runAll, Run.run_bind]
  rcases (s.run h fuel).run m with ⟨r, m', es⟩
  cases r with
  | error e => rfl
  | ok u =>
      cases u
      simp [runAll]

end Rust

namespace Emit

structure Setting where
  host : Host
  fuel : Nat
  env : Env
  -- where writing and running start
  state : State
  machine : Machine
  -- storage once the value that is stored has been computed
  after : Store

-- What a key, an index or a step is at the three times.
structure Seen (α : Type) where
  before : α
  after : α
  again : α

def Seen.map {α β : Type} (f : α → β) (v : Seen α) : Seen β := ⟨f v.before, f v.after, f v.again⟩

namespace Setting

variable (c : Setting)

def count : Nat := c.state.frame.temps

-- The machine differs from that at the start in temporary variables and storage only.
def Sees (m : Machine) : Prop := c.machine.Agrees c.count m

-- Code that reads a key without changing anything. Simple code is repeated, other code is not.
structure Written (x : Rust.Expr) (v : Seen Value) : Prop where
  before : ∀ m, c.Sees m → m.store = c.machine.store → Reads c.host c.fuel m x v.before
  after : ∀ m, c.Sees m → m.store = c.after → Reads c.host c.fuel m x v.after
  again : v.again = if x.isSimple then v.after else v.before

-- A source expression without side effects, by what it reads wherever it is written.
def Denotes (t : Ty) (e : Expr) (v : Seen Value) : Prop :=
  ∀ s x s', SameNames c.state s → Writes (exprAs t e) c.env s x s' → c.Written x v

-- The value that is stored; computing it may change storage.
def Yields (x : Rust.Expr) (v : Value) : Prop :=
  ∀ m, c.Sees m → m.store = c.machine.store →
    ∃ es, (x.eval c.host c.fuel).run m = ⟨.ok v, { m with store := c.after }, es⟩

-- A variable or other code that keeps the value of a key, in every machine that agrees on the variables
-- so far.
def Holds (k : Nat) (m : Machine) (y : Rust.Expr) (v : Seen Value) : Prop :=
  ∀ m', m.Agrees k m' →
    (m'.store = c.machine.store → Reads c.host c.fuel m' y v.before) ∧
      (m'.store = c.after → Reads c.host c.fuel m' y v.again)

variable {c} {m m₁ : Machine} {x y : Rust.Expr} {v : Seen Value} {s s' : State}

theorem Sees.of_agrees {k : Nat} (hm : c.Sees m) (hk : c.count ≤ k) (h : m.Agrees k m₁) : c.Sees m₁ :=
  hm.trans (h.mono hk)

theorem Holds.of_agrees {k k' : Nat} (h : c.Holds k m y v) (hk : k ≤ k') (hm : m.Agrees k m₁) :
    c.Holds k' m₁ y v := fun _ hm' => h _ (hm.trans (hm'.mono hk))

theorem agrees_push {name : String} {j k : Nat} (h : IsTemp name k) (hjk : j < k) (m : Machine)
    (v : Value) : m.Agrees j (m.push name v) := fun _ hn =>
  Machine.lookup_push_of_ne fun heq => hn (heq ▸ h.fresh hjk)

theorem bindUnlessSimple_run {stem : String} {bound : List Rust.Stmt} (hstem : stem ∈ stems)
    (hs : SameNames c.state s) (hx : c.Written x v) (hm : c.Sees m)
    (hstore : m.store = c.machine.store)
    (hw : Writes (bindUnlessSimple stem x) c.env s (bound, y) s') :
    ∃ m₁, (runAll c.host c.fuel bound).run m = ⟨.ok (), m₁, []⟩ ∧ m₁.store = m.store ∧
      m.Agrees s.frame.temps m₁ ∧ SameNames s s' ∧ c.Holds s'.frame.temps m₁ y v := by
  rw [bindUnlessSimple] at hw
  by_cases hsimple : x.isSimple
  · rw [if_pos hsimple, writes_pure, Prod.mk.injEq] at hw
    obtain ⟨⟨rfl, rfl⟩, rfl⟩ := hw
    refine ⟨m, rfl, rfl, .refl _ m, .refl s, fun m' hm' => ?_⟩
    have hsees : c.Sees m' := hm.of_agrees hs.2 hm'
    rw [hx.again, if_pos hsimple]
    exact ⟨hx.before m' hsees, hx.after m' hsees⟩
  · rw [if_neg hsimple, writes_bind] at hw
    obtain ⟨name, s₁, htemp, hw⟩ := hw
    obtain ⟨rfl, rfl⟩ := writes_temp.mp htemp
    rw [writes_pure, Prod.mk.injEq] at hw
    obtain ⟨⟨rfl, rfl⟩, rfl⟩ := hw
    have hname : IsTemp (numbered stem (s.frame.temps + 1)) (s.frame.temps + 1) := ⟨stem, hstem, rfl⟩
    have hread := hx.before m hm hstore
    refine ⟨m.push _ v.before, ?_, rfl, agrees_push hname (Nat.lt_succ_self _) m _, ?_, fun m' hm' => ?_⟩
    · rw [Rust.run_singleton, Rust.run_letVar hname.isTuplePattern hread]
    · exact sameNames_counted s
    · have hlook : m'.locals.lookup (numbered stem (s.frame.temps + 1)) = some (.value v.before) := by
        rw [hm' _ (hname.not_fresh (Nat.le_refl _)), Machine.lookup_push_self]
      rw [hx.again, if_neg hsimple]
      have hident : Reads c.host c.fuel m' (.ident _) v.before :=
        .ident hname.ne_self hname.isPath hlook
      exact ⟨fun _ => hident, fun _ => hident⟩

end Setting

end Emit

end RustContracts
