import RustContracts.Proofs.Program.Run

-- The same code on two stacks of variables that have one upper part: where the lower parts agree on the
-- variables that the code takes from them, both runs end alike.
namespace RustContracts.Program.Run

open RustContracts.Flow

variable {V ρ σ : Type}

namespace Stack

variable {s t : Stack V} {n name : String} {v : V} {values : String → V}

@[simp] theorem names_nil : names ([] : Stack V) = [] := rfl

@[simp] theorem names_cons (p : String × V) : names (p :: s) = p.1 :: names s := rfl

@[simp] theorem names_append : names (s ++ t) = names s ++ names t := List.map_append

@[simp] theorem length_names : (names s).length = s.length := List.length_map ..

theorem lookup_eq_none_iff : s.lookup n = none ↔ n ∉ names s := by
  induction s with
  | nil => simp
  | cons p s ih =>
      obtain ⟨m, w⟩ := p
      by_cases h : n = m
      · simp [h]
      · have hbeq : (n == m) = false := beq_eq_false_iff_ne.mpr h
        simp [List.lookup_cons, hbeq, h, ih]

theorem mem_names_of_lookup (h : s.lookup n = some v) : n ∈ names s := by
  refine Decidable.byContradiction fun hn => ?_
  rw [lookup_eq_none_iff.mpr hn] at h
  cases h

theorem lookup_append_of_mem (h : n ∈ names s) : (s ++ t).lookup n = s.lookup n := by
  rw [List.lookup_append]
  cases hs : s.lookup n with
  | none => exact absurd h (lookup_eq_none_iff.mp hs)
  | some v => rfl

theorem lookup_append_of_notMem (h : n ∉ names s) : (s ++ t).lookup n = t.lookup n := by
  rw [List.lookup_append, lookup_eq_none_iff.mpr h, Option.none_or]

@[simp] theorem names_put : names (put name v s) = names s := by
  induction s with
  | nil => rfl
  | cons p s ih => by_cases h : p.1 = name <;> simp [put, h, ih]

@[simp] theorem length_put : (put name v s).length = s.length := by
  rw [← length_names, names_put, length_names]

theorem put_append_of_mem (h : name ∈ names s) : put name v (s ++ t) = put name v s ++ t := by
  induction s with
  | nil => cases h
  | cons p s ih =>
      by_cases hp : p.1 = name
      · simp [put, hp]
      · have hs : name ∈ names s := by simpa [Ne.symm hp] using h
        simp [put, hp, ih hs]

theorem put_append_of_notMem (h : name ∉ names s) : put name v (s ++ t) = s ++ put name v t := by
  induction s with
  | nil => rfl
  | cons p s ih =>
      obtain ⟨hp, hs⟩ : name ≠ p.1 ∧ name ∉ names s := by simpa using h
      simp [put, Ne.symm hp, ih hs]

theorem mem_names_of_reads {ns : List String} {vs : List V} (h : reads s ns = some vs) (hn : n ∈ ns) :
    n ∈ names s := by
  induction ns generalizing vs with
  | nil => cases hn
  | cons m ns ih =>
      cases hm : s.lookup m with
      | none => simp [reads, hm] at h
      | some v =>
          cases hns : reads s ns with
          | none => simp [reads, hm, hns] at h
          | some ws =>
              rcases List.mem_cons.mp hn with rfl | hn
              · exact mem_names_of_lookup hm
              · exact ih hns hn

-- A stack that has all the values that another one has.
theorem reads_mono {ns : List String} {vs : List V}
    (hst : ∀ n ∈ ns, ∀ v, s.lookup n = some v → t.lookup n = some v) (h : reads s ns = some vs) :
    reads t ns = some vs := by
  induction ns generalizing vs with
  | nil => exact h
  | cons m ns ih =>
      obtain ⟨hm, hns⟩ := List.forall_mem_cons.mp hst
      cases hv : s.lookup m with
      | none => simp [reads, hv] at h
      | some v =>
          cases hvs : reads s ns with
          | none => simp [reads, hv, hvs] at h
          | some ws => simpa [reads, hv, hvs, hm v hv, ih hns hvs] using h

end Stack

-- From related states the second code does what the first does, unless the run of that is lost.
abbrev Alike (pre post out : Stack V × ρ → Stack V × σ → Prop) (a : Code V ρ) (b : Code V σ) : Prop :=
  Sim (fun e => e.isLost = true) pre post out a b

-- Two answers of the world are the same and leave the lower parts the same.
def Agree {α : Type} (same : Stack V × ρ → Stack V × σ → Prop) (f' : ρ → α × ρ) (f : σ → α × σ) : Prop :=
  ∀ x y, same x y → (f y.2).1 = (f' x.2).1 ∧ same (x.1, (f' x.2).2) (y.1, (f y.2).2)

-- What two runs have below a common upper part.
structure Ground (M' : Meaning V ρ) (M : Meaning V σ) where
  same : Stack V × ρ → Stack V × σ → Prop
  -- the variables on which the lower parts agree
  sees : String → Prop
  depth' : Nat
  depth : Nat
  length {x y} : same x y → x.1.length = depth' ∧ y.1.length = depth
  lookup {x y n v} : same x y → sees n → x.1.lookup n = some v → y.1.lookup n = some v
  put {x y n} (v : V) : same x y → sees n → n ∈ x.1.names → same (x.1.put n v, x.2) (y.1.put n v, y.2)
  test (u e vs) : Agree same (M'.test u e vs) (M.test u e vs)
  values (u es vs) : Agree same (M'.values u es vs) (M.values u es vs)
  step (u s vs) : Agree same (M'.step u s vs) (M.step u s vs)

namespace Ground

variable {M' : Meaning V ρ} {M : Meaning V σ} (G : Ground M' M) {D D' : List String}

-- The upper part holds the variables of a scope.
def At (D : List String) (x : Stack V × ρ) (y : Stack V × σ) : Prop :=
  ∃ top low' low : Stack V, x.1 = top ++ low' ∧ y.1 = top ++ low ∧ top.names = D ∧
    G.same (low', x.2) (low, y.2)

-- Inside a block there may be more.
def Above (D : List String) (x : Stack V × ρ) (y : Stack V × σ) : Prop := ∃ D', G.At (D' ++ D) x y

variable {G} {x : Stack V × ρ} {y : Stack V × σ}

theorem at_nil : G.At [] x y ↔ G.same x y := by
  constructor
  · rintro ⟨top, low', low, hx, hy, htop, hsame⟩
    obtain rfl : top = [] := List.map_eq_nil_iff.mp htop
    rw [List.nil_append] at hx hy
    rwa [← hx, ← hy] at hsame
  · exact fun h => ⟨[], x.1, y.1, rfl, rfl, rfl, h⟩

theorem At.above (h : G.At D x y) : G.Above D x y := ⟨[], h⟩

theorem Above.of_append (h : G.Above (D' ++ D) x y) : G.Above D x y := by
  obtain ⟨D'', h⟩ := h
  exact ⟨D'' ++ D', by rwa [List.append_assoc]⟩

theorem At.reads {ns : List String} {vs : List V} (h : G.At D x y) (hns : ∀ n ∈ ns, n ∈ D ∨ G.sees n)
    (hx : x.1.reads ns = some vs) : y.1.reads ns = some vs := by
  obtain ⟨top, low', low, hx', hy, rfl, hsame⟩ := h
  refine Stack.reads_mono (fun n hn v hv => ?_) hx
  by_cases htop : n ∈ top.names
  · rw [hx', Stack.lookup_append_of_mem htop] at hv
    rw [hy, Stack.lookup_append_of_mem htop, hv]
  · rw [hx', Stack.lookup_append_of_notMem htop] at hv
    rw [hy, Stack.lookup_append_of_notMem htop]
    exact G.lookup hsame ((hns n hn).resolve_left htop) hv

theorem At.agree {α : Type} {f' : ρ → α × ρ} {f : σ → α × σ} (hf : Agree G.same f' f) (h : G.At D x y) :
    (f y.2).1 = (f' x.2).1 ∧ G.At D (x.1, (f' x.2).2) (y.1, (f y.2).2) := by
  obtain ⟨top, low', low, hx, hy, hD, hsame⟩ := h
  obtain ⟨hanswer, hsame⟩ := hf _ _ hsame
  exact ⟨hanswer, top, low', low, hx, hy, hD, hsame⟩

theorem At.declare (h : G.At D x y) (vars : List String) (values : String → V) :
    G.At (vars ++ D) (vars.map (fun n => (n, values n)) ++ x.1, x.2)
      (vars.map (fun n => (n, values n)) ++ y.1, y.2) := by
  obtain ⟨top, low', low, hx, hy, rfl, hsame⟩ := h
  refine ⟨vars.map (fun n => (n, values n)) ++ top, low', low, ?_, ?_, ?_, hsame⟩
  · simp [hx]
  · simp [hy]
  · simp [Stack.names, Function.comp_def]

theorem At.put {n : String} (h : G.At D x y) (hn : n ∈ D ∨ G.sees n) (hx : n ∈ x.1.names) (v : V) :
    G.At D (x.1.put n v, x.2) (y.1.put n v, y.2) := by
  obtain ⟨top, low', low, hx', hy, rfl, hsame⟩ := h
  by_cases htop : n ∈ top.names
  · refine ⟨top.put n v, low', low, ?_, ?_, Stack.names_put, hsame⟩
    · simp only [hx', Stack.put_append_of_mem htop]
    · simp only [hy, Stack.put_append_of_mem htop]
  · have hlow : n ∈ low'.names := by
      rw [hx', Stack.names_append] at hx
      exact (List.mem_append.mp hx).resolve_left htop
    refine ⟨top, low'.put n v, low.put n v, ?_, ?_, rfl, G.put v hsame (hn.resolve_left htop) hlow⟩
    · simp only [hx', Stack.put_append_of_notMem htop]
    · simp only [hy, Stack.put_append_of_notMem htop]

theorem At.putAll {ns : List String} (h : G.At D x y) (hns : ∀ n ∈ ns, n ∈ D ∨ G.sees n)
    (hx : ∀ n ∈ ns, n ∈ x.1.names) (values : String → V) :
    G.At D (x.1.putAll values ns, x.2) (y.1.putAll values ns, y.2) := by
  induction ns generalizing x y with
  | nil => exact h
  | cons n ns ih =>
      obtain ⟨hn, hns⟩ := List.forall_mem_cons.mp hns
      obtain ⟨hxn, hx⟩ := List.forall_mem_cons.mp hx
      refine ih (h.put hn hxn (values n)) hns fun m hm => ?_
      simpa using hx m hm

-- At the end of a block both stacks are cut back to their old lengths.
theorem At.drop {x' : Stack V × ρ} {y' : Stack V × σ} (h : G.At D x y) (h' : G.Above D x' y') :
    G.At D (x'.1.drop (x'.1.length - x.1.length), x'.2) (y'.1.drop (y'.1.length - y.1.length), y'.2) := by
  obtain ⟨top, low', low, hx, hy, rfl, hsame⟩ := h
  obtain ⟨D', top', bottom', bottom, hx', hy', hD, hsame'⟩ := h'
  have hlength : top'.length = D'.length + top.length := by
    have := congrArg List.length hD
    simpa using this
  obtain ⟨hl', hl⟩ := G.length hsame
  obtain ⟨hb', hb⟩ := G.length hsame'
  simp only at hl' hl hb' hb
  have hdrop' : x'.1.length - x.1.length = D'.length := by
    simp only [hx, hx', List.length_append]
    omega
  have hdrop : y'.1.length - y.1.length = D'.length := by
    simp only [hy, hy', List.length_append]
    omega
  have hle : D'.length ≤ top'.length := by omega
  refine ⟨top'.drop D'.length, bottom', bottom, ?_, ?_, ?_, hsame'⟩
  · rw [hdrop', hx', List.drop_append_of_le_length hle]
  · rw [hdrop, hy', List.drop_append_of_le_length hle]
  · rw [Stack.names, List.map_drop]
    change top'.names.drop _ = _
    rw [hD, List.drop_left]

section Sims

variable (G)

-- Both runs end alike, if not inside the code then with the variables of another scope.
abbrev Runs (D D' : List String) (a : Code V ρ) (b : Code V σ) : Prop :=
  Alike (G.At D) (G.At D') (G.At D) a b

variable {G}

theorem runs_of_lost {e : Exit V} (he : e.isLost = true) (b : Code V σ) : G.Runs D D' (leave e) b :=
  fun _ _ _ => .inl he

theorem runs_given {α : Type} {ns : List String} {f' : List V → ρ → Option α × ρ}
    {f : List V → σ → Option α × σ} {next' : α → Code V ρ} {next : α → Code V σ}
    (hns : ∀ n ∈ ns, n ∈ D ∨ G.sees n) (hf : ∀ vs, Agree G.same (f' vs) (f vs))
    (hnext : ∀ a, Alike (fun x y => G.At D x y ∧ ∀ n ∈ ns, n ∈ x.1.names) (G.At D') (G.At D)
      (next' a) (next a)) :
    G.Runs D D' (given ns f' next') (given ns f next) := by
  intro x y hxy
  cases hx : x.1.reads ns with
  | none =>
      simp only [given, hx]
      exact .inl rfl
  | some vs =>
      have hy := hxy.reads hns hx
      obtain ⟨hanswer, hxy'⟩ := hxy.agree (hf vs)
      rcases hw' : f' vs x.2 with ⟨answer, w'⟩
      rcases hw : f vs y.2 with ⟨answer', w⟩
      rw [hw', hw] at hanswer hxy'
      obtain rfl : answer' = answer := hanswer
      cases answer' with
      | none =>
          simp only [given, hx, hy, hw', hw]
          exact .inr ⟨_, rfl, hxy'⟩
      | some a =>
          simp only [given, hx, hy, hw', hw]
          exact hnext a _ _ ⟨hxy', fun n hn => Stack.mem_names_of_reads hx hn⟩

theorem runs_choose {u : Bool} {c : Expr} {a' b' : Code V ρ} {a b : Code V σ}
    (hc : ∀ n ∈ c.vars, n ∈ D ∨ G.sees n) (ha : G.Runs D D a' a) (hb : G.Runs D D b' b) :
    G.Runs D D (choose M' u c a' b') (choose M u c a b) := by
  refine runs_given hc (G.test u c) fun yes => ?_
  cases yes with
  | true => exact ha.mono (fun _ _ h => h.1) (fun _ _ h => h) fun _ _ h => h
  | false => exact hb.mono (fun _ _ h => h.1) (fun _ _ h => h) fun _ _ h => h

theorem runs_chooseOn {u : Bool} {c : Option Expr} {a' b' : Code V ρ} {a b : Code V σ}
    (hc : ∀ n ∈ c.toList.flatMap Expr.vars, n ∈ D ∨ G.sees n) (ha : G.Runs D D a' a)
    (hb : G.Runs D D b' b) : G.Runs D D (chooseOn M' u c a' b') (chooseOn M u c a b) := by
  cases c with
  | none => exact ha
  | some c => exact runs_choose (by simpa using hc) ha hb

theorem runs_change {u : Bool} {s : Stmt} (hs : ∀ n ∈ s.vars, n ∈ D ∨ G.sees n) :
    G.Runs D D (given s.vars (M'.step u s) (change s.vars)) (given s.vars (M.step u s) (change s.vars)) :=
  runs_given hs (G.step u s) fun values _ _ ⟨hxy, hx⟩ => ⟨_, rfl, hxy.putAll hs hx values⟩

theorem runs_enclosed {a : Code V ρ} {b : Code V σ} (h : Alike (G.At D) (G.Above D) (G.Above D) a b) :
    G.Runs D D (enclosed a) (enclosed b) := by
  intro x y hxy
  have hab := h x y hxy
  rcases hx : a x with ⟨_ | e, x'⟩ <;> rw [hx] at hab
  · obtain ⟨y', hy, hxy'⟩ := hab
    simp only [enclosed, hx, hy]
    exact ⟨_, rfl, hxy.drop hxy'⟩
  · simp only [enclosed, hx]
    refine hab.imp_right fun ⟨y', hy, hxy'⟩ => ⟨_, ?_, hxy.drop hxy'⟩
    rw [hy]

theorem runs_turning {a : Code V ρ} {b : Code V σ} (h : G.Runs D D a b) (fuel : Nat) :
    G.Runs D D (turning fuel a) (turning fuel b) :=
  .turns (fun _ => Exit.isContinue_of_isLost) (fun _ => Exit.isBreak_of_isLost) h fuel

theorem runs_catching {a : Code V ρ} {b : Code V σ} (h : G.Runs D D a b) :
    G.Runs D D (catching Exit.isContinue a) (catching Exit.isContinue b) :=
  .catching (fun _ => Exit.isContinue_of_isLost) h

end Sims

section Statements

variable (G) (back' : Bool → Option Expr → Code V ρ) (back : Bool → Option Expr → Code V σ)

-- What a statement in its scope needs for two runs of it to end alike: the lower parts agree on the variables
-- that it takes from them, and returns and placeholders do the same.
structure Fits (hole' : Bool → Code V ρ) (hole : Bool → Code V σ) (v : List String × Stmt) : Prop where
  vars : ∀ n ∈ v.2.vars, n ∈ v.1 ∨ G.sees n
  back : ∀ p value, v.2 = .returnValue p value → ∀ u, G.Runs v.1 v.1 (back' u value) (back u value)
  hole : ∀ p, v.2 = .placeholder p → ∀ u, G.Runs v.1 v.1 (hole' u) (hole u)

variable {G back' back} {hole' : Bool → Code V ρ} {hole : Bool → Code V σ}

theorem Fits.noHole {v : List String × Stmt} (h : G.Fits back' back hole' hole v) :
    G.Fits back' back noHole noHole v :=
  ⟨h.vars, h.back, fun _ _ _ => runs_of_lost rfl _⟩

theorem At.above_of_scopeAfter {code : List Stmt} (h : G.At (scopeAfter D code) x y) : G.Above D x y := by
  obtain ⟨D', hD'⟩ := scopeAfter_eq D code
  exact ⟨D', hD' ▸ h⟩

variable (fuel : Nat)

mutual

-- The upper parts keep the names of the scope that the statement stands in, in both runs.
theorem runs_exec (u : Bool) : ∀ (s : Stmt) {D : List String} {hole' : Bool → Code V ρ}
    {hole : Bool → Code V σ} (_ : ∀ v ∈ visits D s, G.Fits back' back hole' hole v),
    G.Runs D (s.declares ++ D) (exec M' fuel back' hole' u s) (exec M fuel back hole u s)
  | .block b, _, _, _, h => by
      rw [visits] at h
      rw [exec, exec]
      exact runs_execBlock u b h
  | .decl p vars value, D, _, _, h => by
      have hs := h (D, .decl p vars value) (by simp [visits])
      rw [exec, exec]
      have hvalue : ∀ n ∈ value.vars, n ∈ D ∨ G.sees n := by
        simpa [Stmt.vars, Stmt.directExprs] using hs.vars
      exact runs_given hvalue (G.step u _) fun values _ _ hxy => ⟨_, rfl, hxy.1.declare _ values⟩
  | .assign p t v, D, _, _, h => by
      have hs := h (D, .assign p t v) (by simp [visits])
      rw [exec, exec]
      exact runs_change hs.vars
  | .expr p x, D, _, _, h => by
      have hs := h (D, .expr p x) (by simp [visits])
      rw [exec, exec]
      exact runs_change hs.vars
  | .emit p event args, D, _, _, h => by
      have hs := h (D, .emit p event args) (by simp [visits])
      rw [exec, exec]
      exact runs_change hs.vars
  | .ifElse p c t e, D, _, _, h => by
      rw [visits] at h
      obtain ⟨hs, h⟩ := List.forall_mem_cons.mp h
      obtain ⟨ht, he⟩ := List.forall_mem_append.mp h
      have hc : ∀ n ∈ c.vars, n ∈ D ∨ G.sees n := by
        simpa [Stmt.vars, Stmt.directExprs] using hs.vars
      rw [exec, exec]
      exact runs_choose hc (runs_execBlock u t ht) (runs_execElse u e he)
  | .whileLoop p c b false, D, _, _, h => by
      rw [visits] at h
      obtain ⟨hs, hb⟩ := List.forall_mem_cons.mp h
      have hc : ∀ n ∈ c.vars, n ∈ D ∨ G.sees n := by
        simpa [Stmt.vars, Stmt.directExprs] using hs.vars
      rw [exec, exec]
      exact runs_turning (runs_choose hc (runs_execBlock u b hb) (.leave _ fun _ _ h => h)) fuel
  | .whileLoop p c b true, D, _, _, h => by
      rw [visits] at h
      obtain ⟨hs, hb⟩ := List.forall_mem_cons.mp h
      have hc : ∀ n ∈ c.vars, n ∈ D ∨ G.sees n := by
        simpa [Stmt.vars, Stmt.directExprs] using hs.vars
      rw [exec, exec]
      exact runs_turning (.seq (runs_catching (runs_execBlock u b hb))
        (runs_choose hc (.skip fun _ _ h => h) (.leave _ fun _ _ h => h))) fuel
  | .forLoop p init c post b, D, _, _, h => by
      rw [visits] at h
      obtain ⟨hinit, h⟩ := List.forall_mem_append.mp h
      obtain ⟨hs, h⟩ := List.forall_mem_cons.mp h
      obtain ⟨hb, hpost⟩ := List.forall_mem_append.mp h
      have hturn := Sim.seq (runs_catching (runs_execBlock u b hb))
        (runs_enclosed ((runs_execHead u post hpost).widen (fun _ _ h => h.above_of_scopeAfter)
          fun _ _ h => h.above))
      have hloop := runs_turning (runs_chooseOn (u := u) hs.vars hturn (.leave .broke fun _ _ h => h)) fuel
      rw [exec, exec]
      exact runs_enclosed (.seq ((runs_execHead u init hinit).widen (fun _ _ h => h) fun _ _ h => h.above)
        (hloop.widen (fun _ _ h => h.above_of_scopeAfter) fun _ _ h => h.above_of_scopeAfter))
  | .returnValue p value, D, _, _, h => by
      have hs := h (D, .returnValue p value) (by simp [visits])
      rw [exec, exec]
      exact hs.back p value rfl u
  | .require p c error, D, _, _, h => by
      have hs := h (D, .require p c error) (by simp [visits])
      have hc : ∀ n ∈ c.vars, n ∈ D ∨ G.sees n := by
        simpa [Stmt.vars, Stmt.directExprs] using hs.vars
      rw [exec, exec]
      exact runs_choose hc (.skip fun _ _ h => h) (.leave _ fun _ _ h => h)
  | .revert p error args, D, _, _, h => by
      have hs := h (D, .revert p error args) (by simp [visits])
      rw [exec, exec]
      exact runs_given hs.vars (G.values u args) fun vs => .leave _ fun _ _ h => h.1
  | .breakLoop p, _, _, _, _ => by
      rw [exec, exec]
      exact .leave _ fun _ _ h => h
  | .continueLoop p, _, _, _, _ => by
      rw [exec, exec]
      exact .leave _ fun _ _ h => h
  | .placeholder p, D, _, _, h => by
      have hs := h (D, .placeholder p) (by simp [visits])
      rw [exec, exec]
      exact hs.hole p rfl u

theorem runs_execBlock (u : Bool) : ∀ (b : Block) {D : List String} {hole' : Bool → Code V ρ}
    {hole : Bool → Code V σ} (_ : ∀ v ∈ visitsBlock D b, G.Fits back' back hole' hole v),
    G.Runs D D (execBlock M' fuel back' hole' u b) (execBlock M fuel back hole u b)
  | ⟨_, stmts, isUnchecked⟩, _, _, _, h => by
      rw [visitsBlock] at h
      rw [execBlock, execBlock]
      exact runs_enclosed ((runs_execAll (u || isUnchecked) stmts h).widen
        (fun _ _ h => h.above_of_scopeAfter) fun _ _ h => h)

theorem runs_execElse (u : Bool) : ∀ (b : Option Block) {D : List String} {hole' : Bool → Code V ρ}
    {hole : Bool → Code V σ} (_ : ∀ v ∈ visitsElse D b, G.Fits back' back hole' hole v),
    G.Runs D D (execElse M' fuel back' hole' u b) (execElse M fuel back hole u b)
  | none, _, _, _, _ => by
      rw [execElse, execElse]
      exact .skip fun _ _ h => h
  | some b, _, _, _, h => by
      rw [visitsElse] at h
      rw [execElse, execElse]
      exact runs_execBlock u b h

theorem runs_execHead (u : Bool) : ∀ (s : Option Stmt) {D : List String} {hole' : Bool → Code V ρ}
    {hole : Bool → Code V σ} (_ : ∀ v ∈ visitsHead D s, G.Fits back' back hole' hole v),
    G.Runs D (scopeAfter D s.toList) (execHead M' fuel back' u s) (execHead M fuel back u s)
  | none, _, _, _, _ => by
      rw [execHead, execHead]
      exact .skip fun _ _ h => h
  | some s, _, _, _, h => by
      rw [visitsHead] at h
      rw [execHead, execHead]
      exact runs_exec u s fun v hv => (h v hv).noHole

theorem runs_execAll (u : Bool) : ∀ (code : List Stmt) {D : List String} {hole' : Bool → Code V ρ}
    {hole : Bool → Code V σ} (_ : ∀ v ∈ visitsAll D code, G.Fits back' back hole' hole v),
    Alike (G.At D) (G.At (scopeAfter D code)) (G.Above D)
      (execAll M' fuel back' hole' u code) (execAll M fuel back hole u code)
  | [], _, _, _, _ => by
      rw [execAll, execAll]
      exact .skip fun _ _ h => h
  | s :: rest, _, _, _, h => by
      rw [visitsAll] at h
      obtain ⟨hs, hrest⟩ := List.forall_mem_append.mp h
      rw [execAll, execAll]
      exact .seq ((runs_exec u s hs).widen (fun _ _ h => h) fun _ _ h => h.above)
        ((runs_execAll u rest hrest).widen (fun _ _ h => h) fun _ _ h => h.of_append)

end

end Statements

end Ground

end RustContracts.Program.Run
