import RustContracts.Proofs.Resolve.Declared

-- What a step of resolving does: the relation that it resolves code to a result, and how many arguments the
-- calls have that it makes.
namespace RustContracts.Resolve

open Program

-- A step that resolves code to a result.
def Resolves {α : Type} (act : Resolving α) (env : Env) (g : Gathered) (a : α) (g' : Gathered) : Prop :=
  (act.run env).run g = .ok (a, g')

variable {α β : Type} {env : Env} {g g' : Gathered}

theorem resolves_pure {a b : α} : Resolves (pure a) env g b g' ↔ a = b ∧ g = g' := by
  constructor
  · intro h
    cases h
    exact ⟨rfl, rfl⟩
  · rintro ⟨rfl, rfl⟩
    rfl

theorem resolves_read {e : Env} : Resolves read env g e g' ↔ env = e ∧ g = g' := by
  constructor
  · intro h
    cases h
    exact ⟨rfl, rfl⟩
  · rintro ⟨rfl, rfl⟩
    rfl

theorem resolves_bind {x : Resolving α} {f : α → Resolving β} {b : β} :
    Resolves (x >>= f) env g b g' ↔ ∃ a mid, Resolves x env g a mid ∧ Resolves (f a) env mid b g' := by
  constructor
  · intro h
    obtain ⟨⟨a, mid⟩, hx, hf⟩ := bind_eq_ok.mp h
    exact ⟨a, mid, hx, hf⟩
  · rintro ⟨a, mid, hx, hf⟩
    exact bind_eq_ok.mpr ⟨(a, mid), hx, hf⟩

theorem not_resolves_throw {d : Diagnostic} {a : α} : ¬Resolves (throw d) env g a g' := by
  intro h
  cases h

theorem length_mapM {xs : List (Resolving Expr)} {ys : List Expr}
    (h : Resolves (xs.mapM id) env g ys g') : ys.length = xs.length := by
  induction xs generalizing g g' ys with
  | nil =>
      obtain ⟨rfl, -⟩ := resolves_pure.mp h
      rfl
  | cons x xs ih =>
      rw [List.mapM_cons] at h
      obtain ⟨y, g₁, -, h⟩ := resolves_bind.mp h
      obtain ⟨rest, g₂, hrest, h⟩ := resolves_bind.mp h
      obtain ⟨rfl, -⟩ := resolves_pure.mp h
      rw [List.length_cons, List.length_cons, ih hrest]

-- Filling an empty place adds an argument.
theorem length_filterMap_set {filled : List (Option Expr)} {i : Nat} (hi : filled[i]? = some none)
    (x : Expr) :
    ((filled.set i (some x)).filterMap id).length = (filled.filterMap id).length + 1 := by
  induction filled generalizing i with
  | nil => simp at hi
  | cons y filled ih =>
      cases i with
      | zero =>
          obtain rfl : y = none := by simpa using hi
          simp
      | succ i =>
          have hrest := ih (i := i) (by simpa using hi)
          cases y with
          | none => simpa using hrest
          | some y => simpa using hrest

theorem length_place {names : List String} {filled after : List (Option Expr)}
    {named : List (Text.Position × String × Resolving Expr)} (hlength : filled.length = names.length)
    (h : Resolves (CallArgs.place names filled named) env g after g') :
    (after.filterMap id).length = (filled.filterMap id).length + named.length := by
  induction named generalizing filled g with
  | nil =>
      obtain ⟨rfl, -⟩ := resolves_pure.mp h
      rfl
  | cons arg named ih =>
      obtain ⟨start, name, value⟩ := arg
      rw [CallArgs.place] at h
      split at h
      · exact absurd h not_resolves_throw
      · next i hi =>
          split at h
          · obtain ⟨_, _, hthrow, _⟩ := resolves_bind.mp h
            exact absurd hthrow not_resolves_throw
          · next hnew =>
              obtain ⟨x, g₁, -, h⟩ := resolves_bind.mp h
              have hlt : i < filled.length := by
                rw [hlength]
                exact (List.findIdx?_eq_some_iff_getElem.mp hi).1
              have hempty : filled[i]? = some none := by
                rw [List.getElem?_eq_getElem hlt] at hnew ⊢
                cases hx : filled[i] with
                | none => rfl
                | some y => simp [hx] at hnew
              rw [ih (by simpa using hlength) h, length_filterMap_set hempty, List.length_cons]
              omega

theorem length_inOrder {c : CallArgs} (hargs : c.named = [] ∨ c.positional = []) {names : List String}
    {xs : List Expr} (h : Resolves (c.inOrder names) env g xs g') : xs.length = c.arity := by
  unfold CallArgs.inOrder at h
  split at h
  · next hnone =>
      rw [CallArgs.arity, length_mapM h, List.isEmpty_iff.mp hnone]
      rfl
  · next hsome =>
      have hpositional : c.positional = [] := hargs.resolve_left fun hnone => hsome (by simp [hnone])
      obtain ⟨filled, g₁, hplace, h⟩ := resolves_bind.mp h
      split at h
      · obtain ⟨_, _, hthrow, _⟩ := resolves_bind.mp h
        exact absurd hthrow not_resolves_throw
      · obtain ⟨rfl, -⟩ := resolves_pure.mp h
        rw [length_place (by simp) hplace, CallArgs.arity, hpositional]
        simp

-- A call of a function of the contract keeps its name and has as many arguments as it is given.
theorem resolves_internalCall {name target : String} {isSuper : Bool} {c : CallArgs} {t : Term}
    (hargs : c.named = [] ∨ c.positional = [])
    (h : Resolves (internalCall name isSuper target c) env g t g') :
    ∃ self args, env.contract = some self ∧ args.length = c.arity ∧
      (self.kind ≠ .library → ∃ ty, t = .value (.call c.start name args isSuper self.name target ty)) := by
  unfold internalCall at h
  obtain ⟨env', g₁, henv, h⟩ := resolves_bind.mp h
  obtain ⟨rfl, rfl⟩ := resolves_read.mp henv
  split at h
  · exact absurd h not_resolves_throw
  · next self hself =>
      dsimp only at h
      generalize (if target != "" then ((env.outline.class? target).map env.outline.chainOf).getD []
        else if isSuper then (env.outline.chainOf self).drop 1 else env.outline.chainOf self) = classes at h
      split at h
      · exact absurd h not_resolves_throw
      · next owner f hf =>
          obtain ⟨args, g₂, hlist, h⟩ := resolves_bind.mp h
          refine ⟨self, args, hself, length_inOrder hargs hlist, fun hkind => ?_⟩
          rw [if_neg hkind] at h
          split at h
          · obtain ⟨_, g₃, -, h⟩ := resolves_bind.mp h
            obtain ⟨rfl, -⟩ := resolves_pure.mp h
            exact ⟨_, rfl⟩
          · obtain ⟨rfl, -⟩ := resolves_pure.mp h
            exact ⟨_, rfl⟩

end RustContracts.Resolve
