import RustContracts.Program.Contract
import RustContracts.Proofs.Program.Overlay

-- Modifiers around a body, one inside the other. Each runs on variables of its own, its arguments and the
-- body on those of the function. What comes of them in one scope is the same where no name is captured.
namespace RustContracts.Program.Run

open RustContracts.Flow

variable {V σ τ α : Type}

-- A modifier on a function: its parameters with their arguments, and its code.
structure Guard where
  bound : List (Param × Expr)
  code : List Stmt

-- The same beside something that stays as it is.
def beside (f : σ → α × σ) : τ × σ → α × (τ × σ) := fun w => ((f w.2).1, (w.1, (f w.2).2))

def Meaning.beside (M : Meaning V σ) : Meaning V (Stack V × σ) where
  test u c vs := Run.beside (M.test u c vs)
  values u es vs := Run.beside (M.values u es vs)
  step u s vs := Run.beside (M.step u s vs)

-- A return gives back its value, or else the named results.
def giveBack (M : Meaning V σ) (results : List String) (unchecked : Bool) : Option Expr → Code V σ
  | none => given results (fun vs w => (some vs, w)) fun vs => leave (.returned vs)
  | some e => given e.vars (M.values unchecked [e]) fun vs => leave (.returned vs)

-- A body is no part of the loops around the placeholder.
def Exit.sealed : Exit V → Exit V
  | broke | continued => stuck
  | e => e

namespace Guard

variable (M : Meaning V σ) (fuel : Nat)

-- An argument knows the variables of the function, and its parameter is one of the modifier.
def argument (p : Param) (arg : Expr) : Code V (Stack V × σ) := fun x =>
  match x.2.1.reads arg.vars with
  | none => (some .stuck, x)
  | some vs =>
    match M.step false (.decl {} [p] arg) vs x.2.2 with
    | (some values, w) => (none, ((p.name, values p.name) :: x.1, (x.2.1, w)))
    | (none, w) => (some .aborted, (x.1, (x.2.1, w)))

def arguments : List (Param × Expr) → Code V (Stack V × σ)
  | [] => skip
  | (p, arg) :: rest => seq (argument M p arg) (arguments rest)

-- A modifier has no value to return.
def back (result : Code V σ) (_ : Bool) : Option Expr → Code V (Stack V × σ)
  | none => Run.beside result
  | some _ => leave .stuck

-- The body inside a modifier; unchecked code has no placeholders.
def hole (inner : Code V σ) (unchecked : Bool) : Code V (Stack V × σ) :=
  if unchecked then leave .stuck else Run.beside (mapExit Exit.sealed (enclosed inner))

def run (g : Guard) (result inner : Code V σ) : Code V σ := fun x =>
  let r := seq (arguments M g.bound) (execAll M.beside fuel (back result) (hole inner) false g.code) ([], x)
  (r.1, r.2.2)

-- The parameters as variables with the arguments as values.
def decls (g : Guard) : List Stmt := g.bound.map fun b => .decl {} [b.1] b.2

-- The parameters of a modifier.
def scope (g : Guard) : List String := (g.bound.map fun b => b.1.name).reverse

-- The variables of a modifier around the body, at each place where the body stands.
def bodyScopes (g : Guard) : List (List String) :=
  (visitsAll g.scope g.code).filterMap fun
    | (scope, .placeholder _) => some scope
    | _ => none

-- The variables of a modifier where the function ends.
def endScopes (g : Guard) : List (List String) :=
  scopeAfter g.scope g.code :: (visitsAll g.scope g.code).filterMap fun
    | (scope, .returnValue _ _) => some scope
    | _ => none

end Guard

section Nested

variable (M : Meaning V σ) (fuel : Nat)

-- A body inside modifiers, the first outermost. Where a return leaves code that a modifier guards the run is
-- cut off, as the rest of the modifier would have to follow.
def nested (body : Block) (back : Bool → Option Expr → Code V σ) : List Guard → Code V σ
  | [] => execAll M fuel back noHole body.unchecked body.stmts
  | g :: rest => g.run M fuel (back false none) (nested body (fun _ _ => leave .cut) rest)

-- A function with modifiers from its start to its results.
def nestedRun (results : List String) (body : Block) (guards : List Guard) : Code V σ :=
  seq (nested M fuel body (giveBack M results) guards) (giveBack M results false none)

-- A function that has all its code in one scope.
def flatRun (results : List String) (body : Block) : Code V σ :=
  seq (execAll M fuel (giveBack M results) noHole body.unchecked body.stmts) (giveBack M results false none)

end Nested

-- The variables of the function that a body inside modifiers uses.
def usedBy (body : Block) : List Guard → List String
  | [] => freeNames body.stmts
  | g :: rest => g.bound.flatMap (fun b => b.2.vars) ++ usedBy body rest

-- No parameter of a modifier is a variable of a later argument, and none of the variables that a modifier has
-- around the body is used inside.
def Apart (body : Block) : List Guard → Prop
  | [] => True
  | g :: rest =>
    g.bound.Pairwise (fun a b => a.1.name ∉ b.2.vars) ∧
      (∀ scope ∈ g.bodyScopes, ∀ n ∈ usedBy body rest, n ∉ scope) ∧ Apart body rest

-- Nor does the outermost modifier hide a named result where the function ends.
structure Hygienic (results : List String) (body : Block) (guards : List Guard) : Prop where
  apart : Apart body guards
  results : ∀ g ∈ guards.head?, ∀ scope ∈ g.endScopes, ∀ n ∈ results, n ∉ scope

section Captures

variable {M : Meaning V σ} {fuel : Nat} {O : Stack V} {k : Nat}

-- More variables in between, on the side of one scope.
def between (M : Meaning V σ) (O : Stack V) (k : Nat) : Ground M M where
  same x y := x.1.length = k ∧ y = (O ++ x.1, x.2)
  sees n := n ∉ O.names
  depth' := k
  depth := O.length + k
  length := by
    rintro x y ⟨hk, rfl⟩
    simp [hk]
  lookup := by
    rintro x y n v ⟨-, rfl⟩ hn hv
    rwa [Stack.lookup_append_of_notMem hn]
  put := by
    rintro x y n v ⟨hk, rfl⟩ hn -
    simp [hk, Stack.put_append_of_notMem hn]
  test := by
    rintro u c vs x y ⟨hk, rfl⟩
    exact ⟨rfl, hk, rfl⟩
  values := by
    rintro u es vs x y ⟨hk, rfl⟩
    exact ⟨rfl, hk, rfl⟩
  step := by
    rintro u s vs x y ⟨hk, rfl⟩
    exact ⟨rfl, hk, rfl⟩

-- The variables of the function, beside those of a modifier on one side and below them on the other.
def below (M : Meaning V σ) (O : Stack V) (k : Nat) : Ground M.beside M where
  same x y := x.1 = [] ∧ x.2.1.length = k ∧ y = (O ++ x.2.1, x.2.2)
  sees _ := True
  depth' := 0
  depth := O.length + k
  length := by
    rintro x y ⟨hx, hk, rfl⟩
    simp [hx, hk]
  lookup := by
    rintro x y n v ⟨hx, -⟩ - hv
    simp [hx] at hv
  put := by
    rintro x y n v ⟨hx, -⟩ - hn
    simp [hx] at hn
  test := by
    rintro u c vs x y ⟨hx, hk, rfl⟩
    exact ⟨rfl, hx, hk, rfl⟩
  values := by
    rintro u es vs x y ⟨hx, hk, rfl⟩
    exact ⟨rfl, hx, hk, rfl⟩
  step := by
    rintro u s vs x y ⟨hx, hk, rfl⟩
    exact ⟨rfl, hx, hk, rfl⟩

-- Under the variables of a modifier are those of the function and what was in between before.
theorem at_below {D : List String} {x : Stack V × (Stack V × σ)} {y : Stack V × σ} :
    (below M O k).At D x y ↔ x.1.names = D ∧ (between M (x.1 ++ O) k).same x.2 y := by
  constructor
  · rintro ⟨top, low', low, hx, hy, hD, hlow', hk, hlow⟩
    obtain ⟨rfl, hw⟩ := Prod.mk.inj hlow
    obtain rfl : low' = [] := hlow'
    rw [List.append_nil] at hx
    refine ⟨hx ▸ hD, hk, Prod.ext ?_ hw⟩
    rw [hx, hy, List.append_assoc]
  · rintro ⟨hD, hk, rfl⟩
    exact ⟨x.1, [], O ++ x.2.1, by simp, by simp, hD, rfl, hk, rfl⟩

-- An argument means the same behind the parameters before it, if it names none of them.
theorem runs_argument {D : List String} {p : Param} {arg : Expr} {back : Bool → Option Expr → Code V σ}
    (hD : ∀ n ∈ arg.vars, n ∉ D) (hO : ∀ n ∈ arg.vars, n ∉ O.names) :
    (below M O k).Runs D ([p.name] ++ D) (Guard.argument M p arg)
      (exec M fuel back noHole false (.decl {} [p] arg)) := by
  intro x y hxy
  obtain ⟨rfl, hk, rfl⟩ := at_below.mp hxy
  cases hx : x.2.1.reads arg.vars with
  | none =>
      simp only [Guard.argument, hx]
      exact .inl rfl
  | some vs =>
      have hy : Stack.reads (x.1 ++ O ++ x.2.1) arg.vars = some vs := by
        refine Stack.reads_mono (fun n hn v hv => ?_) hx
        rw [Stack.lookup_append_of_notMem, hv]
        simp [hD n hn, hO n hn]
      rcases hw : M.step false (.decl {} [p] arg) vs x.2.2 with ⟨_ | values, w⟩
      · simp only [Guard.argument, exec, given, hx, hy, hw]
        exact .inr ⟨_, rfl, at_below.mpr ⟨rfl, hk, rfl⟩⟩
      · simp only [Guard.argument, exec, given, declare, hx, hy, hw]
        exact ⟨_, rfl, at_below.mpr ⟨rfl, hk, rfl⟩⟩

theorem runs_arguments (fuel : Nat) (back : Bool → Option Expr → Code V σ)
    {bound : List (Param × Expr)} {D : List String}
    (hbound : bound.Pairwise fun a b => a.1.name ∉ b.2.vars)
    (hD : ∀ b ∈ bound, ∀ n ∈ b.2.vars, n ∉ D) (hO : ∀ b ∈ bound, ∀ n ∈ b.2.vars, n ∉ O.names) :
    Alike ((below M O k).At D)
      ((below M O k).At ((bound.map fun b => b.1.name).reverse ++ D)) ((below M O k).Above D)
      (Guard.arguments M bound)
      (execAll M fuel back noHole false (bound.map fun b => .decl {} [b.1] b.2)) := by
  induction bound generalizing D with
  | nil => exact .skip fun _ _ h => h
  | cons b bound ih =>
      obtain ⟨hb, hbound⟩ := List.pairwise_cons.mp hbound
      obtain ⟨hDb, hD⟩ := List.forall_mem_cons.mp hD
      obtain ⟨hOb, hO⟩ := List.forall_mem_cons.mp hO
      have hD' : ∀ c ∈ bound, ∀ n ∈ c.2.vars, n ∉ [b.1.name] ++ D := by
        intro c hc n hn hmem
        rcases List.mem_cons.mp hmem with rfl | hmem
        · exact hb c hc hn
        · exact hD c hc n hn hmem
      rw [List.map_cons, List.map_cons, execAll, Guard.arguments, List.reverse_cons, List.append_assoc]
      exact .seq ((runs_argument hDb hOb).widen (fun _ _ h => h) fun _ _ h => h.above)
        ((ih hbound hD' hO).widen (fun _ _ h => h) fun _ _ h => h.of_append)

-- What runs on the variables of the function, with those of a modifier beside.
theorem runs_beside {D : List String} {a b : Code V σ}
    (h : ∀ P : Stack V, P.names = D → (between M (P ++ O) k).Runs [] [] a b) :
    (below M O k).Runs D D (beside a) b := by
  intro x y hxy
  obtain ⟨hD, hsame⟩ := at_below.mp hxy
  have hab := h x.1 hD x.2 y (Ground.at_nil.mpr hsame)
  rcases hx : a x.2 with ⟨_ | e, x'⟩ <;> rw [hx] at hab
  · obtain ⟨y', hy, hxy'⟩ := hab
    simp only [beside, hx]
    exact ⟨y', hy, at_below.mpr ⟨hD, Ground.at_nil.mp hxy'⟩⟩
  · simp only [beside, hx]
    exact hab.imp_right fun ⟨y', hy, hxy'⟩ => ⟨y', hy, at_below.mpr ⟨hD, Ground.at_nil.mp hxy'⟩⟩

theorem Exit.sealed_eq (e : Exit V) : e.sealed = e ∨ e.sealed.isLost = true := by
  cases e with
  | broke => exact .inr rfl
  | continued => exact .inr rfl
  | _ => exact .inl rfl

theorem Guard.mem_bodyScopes {g : Guard} {v : List String × Stmt} {p : Text.Position}
    (hv : v ∈ visitsAll g.scope g.code) (hp : v.2 = .placeholder p) : v.1 ∈ g.bodyScopes := by
  obtain ⟨scope, s⟩ := v
  obtain rfl : s = .placeholder p := hp
  exact List.mem_filterMap.mpr ⟨_, hv, rfl⟩

theorem Guard.mem_endScopes {g : Guard} {v : List String × Stmt} {p : Text.Position} {value : Option Expr}
    (hv : v ∈ visitsAll g.scope g.code) (hp : v.2 = .returnValue p value) : v.1 ∈ g.endScopes := by
  obtain ⟨scope, s⟩ := v
  obtain rfl : s = .returnValue p value := hp
  exact List.mem_cons_of_mem _ (List.mem_filterMap.mpr ⟨_, hv, rfl⟩)

-- The function's variables on one side, and on the other above them those of a modifier.
def Over (M : Meaning V σ) (O : Stack V) (k : Nat) (D : List String) (x y : Stack V × σ) : Prop :=
  ∃ P : Stack V, P.names = D ∧ (between M (P ++ O) k).same x y

def Covers (M : Meaning V σ) (O : Stack V) (k : Nat) (x y : Stack V × σ) : Prop := ∃ D, Over M O k D x y

-- A modifier with its own variables beside those of the function, and in one scope with them.
theorem runs_guard {g : Guard} {result inner : Code V σ} {back : Bool → Option Expr → Code V σ}
    {flat : Bool → Code V σ} (hbound : g.bound.Pairwise fun a b => a.1.name ∉ b.2.vars)
    (hargs : ∀ b ∈ g.bound, ∀ n ∈ b.2.vars, n ∉ O.names)
    (hinner : ∀ scope ∈ g.bodyScopes, ∀ P : Stack V, P.names = scope →
      (between M (P ++ O) k).Runs [] [] (enclosed inner) (flat false))
    (hresult : ∀ scope ∈ g.endScopes, ∀ P : Stack V, P.names = scope →
      ∀ u, (between M (P ++ O) k).Runs [] [] result (back u none)) :
    Alike (between M O k).same (Over M O k (scopeAfter g.scope g.code))
      (Covers M O k) (g.run M fuel result inner)
      (seq (execAll M fuel back noHole false g.decls) (execAll M fuel back flat false g.code)) := by
  have hfits : ∀ v ∈ visitsAll g.scope g.code,
      (below M O k).Fits (Guard.back result) back (Guard.hole inner) flat v := by
    refine fun v hv => ⟨fun _ _ => .inr trivial, fun p value hp u => ?_, fun p hp u => ?_⟩
    · cases value with
      | none => exact runs_beside fun P hP => hresult _ (Guard.mem_endScopes hv hp) P hP u
      | some e => exact Ground.runs_of_lost rfl _
    · cases u with
      | true => exact Ground.runs_of_lost rfl _
      | false =>
          exact runs_beside fun P hP => (hinner _ (Guard.mem_bodyScopes hv hp) P hP).mapExit Exit.sealed_eq
  have hbind := runs_arguments (M := M) (k := k) (D := []) fuel back hbound (by simp) hargs
  rw [List.append_nil] at hbind
  have hcode := (Ground.runs_execAll fuel false g.code hfits).widen (fun _ _ h => h)
    fun _ _ h => Ground.Above.of_append (D := []) (by rwa [List.append_nil])
  have hboth := hbind.seq hcode
  intro x y hxy
  have hab := hboth ([], x) y (at_below.mpr ⟨rfl, hxy⟩)
  rcases hx : seq (Guard.arguments M g.bound)
    (execAll M.beside fuel (Guard.back result) (Guard.hole inner) false g.code) ([], x) with ⟨_ | e, x'⟩ <;>
    rw [hx] at hab
  · obtain ⟨y', hy, hxy'⟩ := hab
    simp only [Guard.run, hx]
    exact ⟨y', hy, x'.1, at_below.mp hxy'⟩
  · simp only [Guard.run, hx]
    exact hab.imp_right fun ⟨y', hy, D, hxy'⟩ => ⟨y', hy, _, x'.1, at_below.mp hxy'⟩

theorem Over.drop {D : List String} {x y x' y' : Stack V × σ} (h : (between M O k).same x y)
    (h' : Over M O k D x' y') :
    (between M O k).same (x'.1.drop (x'.1.length - x.1.length), x'.2)
      (y'.1.drop (y'.1.length - y.1.length), y'.2) := by
  obtain ⟨hk, rfl⟩ := h
  obtain ⟨P, -, hk', rfl⟩ := h'
  have hnested : x'.1.length - x.1.length = 0 := by omega
  have hflat : (P ++ O ++ x'.1).length - (O ++ x.1).length = P.length := by
    simp only [List.length_append]
    omega
  refine ⟨?_, ?_⟩
  · rw [hnested]
    exact hk'
  · rw [hnested, hflat, List.append_assoc, List.drop_left]
    rfl

-- The end of the block around a modifier takes away the modifier's variables.
theorem runs_enclosed_of_covers {a b : Code V σ}
    (h : Alike (between M O k).same (Covers M O k) (Covers M O k) a b) :
    (between M O k).Runs [] [] (enclosed a) (enclosed b) := by
  intro x y hxy
  have hsame := Ground.at_nil.mp hxy
  have hab := h x y hsame
  rcases hx : a x with ⟨_ | e, x'⟩ <;> rw [hx] at hab
  · obtain ⟨y', hy, D, hxy'⟩ := hab
    simp only [enclosed, hx, hy]
    exact ⟨_, rfl, Ground.at_nil.mpr (hxy'.drop hsame)⟩
  · simp only [enclosed, hx]
    refine hab.imp_right ?_
    rintro ⟨y', hy, D, hxy'⟩
    refine ⟨_, ?_, Ground.at_nil.mpr (hxy'.drop hsame)⟩
    rw [hy]

-- A body does not notice more variables below its own, if it uses none of their names.
theorem runs_body {body : Block} {back : Bool → Option Expr → Code V σ}
    (hbody : ∀ n ∈ freeNames body.stmts, n ∉ O.names) :
    (between M O k).Runs [] []
      (enclosed (execAll M fuel (fun _ _ => leave .cut) noHole body.unchecked body.stmts))
      (execBlock M fuel back noHole false body) := by
  have hfits : ∀ v ∈ visitsAll [] body.stmts,
      (between M O k).Fits (fun _ _ => leave .cut) back noHole noHole v := by
    refine fun v hv => ⟨fun n hn => ?_, fun _ _ _ _ => Ground.runs_of_lost rfl _,
      fun _ _ _ => Ground.runs_of_lost rfl _⟩
    by_cases hscope : n ∈ v.1
    · exact .inl hscope
    · refine .inr (hbody n (List.mem_flatMap.mpr ⟨v, hv, ?_⟩))
      exact List.mem_filter.mpr ⟨hn, decide_eq_true hscope⟩
  obtain ⟨start, stmts, isUnchecked⟩ := body
  rw [execBlock, Bool.false_or]
  exact Ground.runs_enclosed ((Ground.runs_execAll fuel isUnchecked stmts hfits).widen
    (fun _ _ h => h.above_of_scopeAfter) fun _ _ h => h)

theorem runs_giveBack {results : List String} (u : Bool) (hresults : ∀ n ∈ results, n ∉ O.names) :
    (between M O k).Runs [] [] (giveBack M results false none) (giveBack M results u none) := by
  rw [giveBack, giveBack]
  exact Ground.runs_given (fun n hn => .inr (hresults n hn)) (fun _ _ _ h => ⟨rfl, h⟩)
    fun _ => .leave _ fun _ _ h => h.1

end Captures

end RustContracts.Program.Run
