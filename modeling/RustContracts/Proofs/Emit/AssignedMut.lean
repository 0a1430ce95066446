import RustContracts.Proofs.Emit.Initialize
import RustContracts.Proofs.Emit.Mutability

-- Functions mark what they assign. Marks go with the names of the source and assignments with identifiers, so a variable may
-- be assigned without a mark where another is spelled alike.
namespace RustContracts.Emit

open Program

variable {own : String → Prop} {interfaces vars changed : List String} {E : Env} {s s' : State}

-- Where assignments go: for each variable that code assigns, its innermost binding in scope there.

def innermost (scope : List (Bool × String)) (names : List String) : List (Bool × String) :=
  names.filterMap fun x => scope.find? fun b => b.2 = x

mutual

def stmtTargets (scope : List (Bool × String)) : Rust.Stmt → List (Bool × String)
  | .expr x => innermost scope x.changed ++ exprTargets scope x
  | .whileLoop _ _ b => blockTargets scope b
  | .loop _ b => blockTargets scope b
  | .labeled _ b => blockTargets scope b
  | s => innermost scope s.assigned

def exprTargets (scope : List (Bool × String)) : Rust.Expr → List (Bool × String)
  | .block ⟨stmts, none⟩ => targetsIn scope stmts
  | .ifElse _ _ ⟨stmts, none⟩ none => targetsIn scope stmts
  | .ifElse _ _ ⟨stmts, none⟩ (some e) => targetsIn scope stmts ++ (innermost scope e.changed ++ exprTargets scope e)
  | _ => []

def blockTargets (scope : List (Bool × String)) : Rust.Block → List (Bool × String)
  | ⟨stmts, _⟩ => targetsIn scope stmts

def targetsIn (scope : List (Bool × String)) : List Rust.Stmt → List (Bool × String)
  | [] => []
  | s :: rest => stmtTargets scope s ++ targetsIn ((introducedBy s).reverse ++ scope) rest

end

-- Bindings of variables that these statements assign, made before them or by them.
def Among (scope : List (Bool × String)) (inside : List Rust.Stmt) (found : List (Bool × String)) : Prop :=
  ∀ b ∈ found, b.2 ∈ inside.flatMap Rust.Stmt.assigned ∧ (b ∈ scope ∨ b ∈ inside.flatMap introducedBy)

section Targets

variable {scope found found' : List (Bool × String)} {inside inside' : List Rust.Stmt}

theorem Among.mono (h : Among scope inside found) (hinside : inside ⊆ inside') : Among scope inside' found := by
  have hsubset {α : Type} (f : Rust.Stmt → List α) : inside.flatMap f ⊆ inside'.flatMap f := fun x hx => by
    obtain ⟨st, hst, hx⟩ := List.mem_flatMap.mp hx
    exact List.mem_flatMap.mpr ⟨st, hinside hst, hx⟩
  exact fun b hb => ⟨hsubset _ (h b hb).1, (h b hb).2.imp_right fun hb => hsubset _ hb⟩

theorem Among.append (h : Among scope inside found) (h' : Among scope inside' found') :
    Among scope (inside ++ inside') (found ++ found') := by
  refine List.forall_mem_append.mpr ⟨?_, ?_⟩
  · exact h.mono (List.subset_append_left _ _)
  · exact h'.mono (List.subset_append_right _ _)

theorem among_innermost {st : Rust.Stmt} {names : List String} (hnames : st.assigned = names) :
    Among scope [st] (innermost scope names) := by
  intro b hb
  obtain ⟨x, hx, hfind⟩ := List.mem_filterMap.mp hb
  obtain rfl : b.2 = x := by simpa using List.find?_some hfind
  rw [List.flatMap_singleton, hnames]
  exact ⟨hx, .inl (List.mem_of_find?_eq_some hfind)⟩

theorem mem_nested (st : Rust.Stmt) : st ∈ st.nested := by
  cases st <;> rw [Rust.Stmt.nested] <;> simp

mutual

theorem among_stmt (scope : List (Bool × String)) : ∀ st : Rust.Stmt, Among scope st.nested (stmtTargets scope st)
  | .expr x => by
      rw [Rust.Stmt.nested, stmtTargets]
      exact (among_innermost rfl).append (among_expr scope x)
  | .whileLoop label c b => by
      rw [Rust.Stmt.nested, stmtTargets]
      exact (among_block scope b).mono (List.subset_cons_self _ _)
  | .loop label b => by
      rw [Rust.Stmt.nested, stmtTargets]
      exact (among_block scope b).mono (List.subset_cons_self _ _)
  | .labeled label b => by
      rw [Rust.Stmt.nested, stmtTargets]
      exact (among_block scope b).mono (List.subset_cons_self _ _)
  | .letVar _ _ _ _ | .assign _ _ _ | .returnValue _ | .breakLoop _ | .continueLoop _ => among_innermost rfl

theorem among_expr (scope : List (Bool × String)) : ∀ x : Rust.Expr, Among scope x.nested (exprTargets scope x)
  | .block ⟨stmts, none⟩ => by
      rw [Rust.Expr.nested, exprTargets]
      exact among_targetsIn scope stmts
  | .ifElse _ _ ⟨stmts, none⟩ none => by
      rw [Rust.Expr.nested, exprTargets]
      exact among_targetsIn scope stmts
  | .ifElse _ _ ⟨stmts, none⟩ (some e) => by
      rw [Rust.Expr.nested, exprTargets]
      have helse : Among scope ([Rust.Stmt.expr e] ++ e.nested) (innermost scope e.changed ++ exprTargets scope e) :=
        (among_innermost rfl).append (among_expr scope e)
      exact (among_targetsIn scope stmts).append helse
  | .block ⟨_, some _⟩ | .ifElse _ _ ⟨_, some _⟩ _ | .ident _ | .lit _ | .field _ _ | .methodCall _ _ _ | .call _ _
  | .bangCall _ _ | .binary _ _ _ | .unary _ _ | .index _ _ | .tuple _ | .array _ | .structLit _ _ _ | .cast _ _ | .tryOp _
  | .missing => List.forall_mem_nil _

theorem among_block (scope : List (Bool × String)) : ∀ b : Rust.Block, Among scope b.nested (blockTargets scope b)
  | ⟨stmts, _⟩ => by
      rw [Rust.Block.nested, blockTargets]
      exact among_targetsIn scope stmts

theorem among_targetsIn (scope : List (Bool × String)) : ∀ code : List Rust.Stmt,
    Among scope (Rust.nestedAll code) (targetsIn scope code)
  | [] => by
      rw [targetsIn]
      exact List.forall_mem_nil _
  | st :: rest => by
      rw [Rust.nestedAll, targetsIn]
      have hself : introducedBy st ⊆ (st.nested ++ Rust.nestedAll rest).flatMap introducedBy := fun b hb =>
        List.mem_flatMap.mpr ⟨st, List.mem_append_left _ (mem_nested st), hb⟩
      refine List.forall_mem_append.mpr ⟨(among_stmt scope st).mono (List.subset_append_left _ _), fun b hb => ?_⟩
      obtain ⟨hassigned, hbound⟩ := (among_targetsIn _ rest).mono (List.subset_append_right st.nested _) b hb
      refine ⟨hassigned, hbound.elim (fun hscope => ?_) .inr⟩
      rcases List.mem_append.mp hscope with hb | hb
      · exact .inr (hself (List.mem_reverse.mp hb))
      · exact .inl hb

end

end Targets

-- Functions.

def codeOf (g : Rust.Function) : List Rust.Stmt := (g.body.map Rust.Block.stmts).getD []

-- The parameters and variables of a function, each with whether it may be changed.
def introductions (g : Rust.Function) : List (Bool × String) :=
  g.params.map (fun p => readMark p.name.toList) ++ introducedIn (codeOf g)

def assignments (g : Rust.Function) : List String := assignedIn (codeOf g)

def assignedBindings (g : Rust.Function) : List (Bool × String) :=
  targetsIn (g.params.map fun p => readMark p.name.toList).reverse (codeOf g)

theorem mem_assignedBindings {g : Rust.Function} {b : Bool × String} (hb : b ∈ assignedBindings g) :
    b ∈ introductions g ∧ b.2 ∈ assignments g := by
  obtain ⟨hassigned, hbound⟩ := among_targetsIn _ (codeOf g) b hb
  refine ⟨List.mem_append.mpr (hbound.imp_left fun hb => ?_), hassigned⟩
  exact List.mem_reverse.mp hb

section Functions

variable {g : Rust.Function} {params results : List Param}

theorem amounts_params (hown : ∀ k : Nat, own ("_arg" ++ toString k)) {rparams declared : List Rust.Param} {k : Nat}
    (hnames : rparams.map (·.name) = (params.zipIdx k).map fun pi => paramName pi.1 pi.2)
    (hidents : ∀ p ∈ params, p.name = "" ∨ Solidity.isIdentifier p.name = true) (hvars : ∀ n ∈ named params, n ∈ vars)
    (hs : VarsNamed own vars changed s) (hw : Writes (declareParams params rparams) E s declared s') :
    VarsNamed own vars changed s' ∧
      Amounts (fun b => own b.2) (bindings changed (named params)) (declared.map fun p => readMark p.name.toList) := by
  induction params generalizing s declared rparams k with
  | nil =>
      obtain rfl : rparams = [] := by simpa using hnames
      obtain ⟨rfl, rfl⟩ := writes_pure.mp hw
      exact ⟨hs, .nil⟩
  | cons p params ih =>
      obtain ⟨hp, hidents⟩ := List.forall_mem_cons.mp hidents
      cases rparams with
      | nil => cases hnames
      | cons r rparams =>
          rw [List.zipIdx_cons, List.map_cons, List.map_cons] at hnames
          obtain ⟨hname, hnames⟩ := List.cons.inj hnames
          rw [paramName] at hname
          rw [declareParams] at hw
          rw [named_cons, List.forall_mem_append] at hvars
          obtain ⟨hvars, hvar⟩ := hvars
          rw [named_cons]
          split at hw
          · next hempty =>
              obtain ⟨more, s₁, hmore, hw⟩ := writes_bind.mp hw
              obtain ⟨rfl, rfl⟩ := writes_pure.mp hw
              obtain ⟨hs₁, hamounts⟩ := ih hnames hidents hvars hs hmore
              rw [if_pos hempty] at hname ⊢
              refine ⟨hs₁, ?_⟩
              have hfirst : Amounts (fun b => own b.2) [] [readMark r.name.toList] := .of_own fun b hb => by
                rw [List.mem_singleton.mp hb, ← unmarked_eq, hname, unmarked_arg]
                exact hown k
              rw [List.append_nil]
              exact hfirst.append hamounts
          · next hne =>
              have hident := hp.resolve_left hne
              obtain ⟨isMut, s₁, hisMut, hw⟩ := writes_bind.mp hw
              obtain ⟨_, s₂, hdeclare, hw⟩ := writes_bind.mp hw
              obtain ⟨more, s₃, hmore, hw⟩ := writes_bind.mp hw
              obtain ⟨rfl, rfl⟩ := writes_pure.mp hw
              obtain ⟨rfl, rfl⟩ := isMutated_eq hs hisMut
              rw [if_neg hne] at hname hvar ⊢
              obtain ⟨hs₃, hamounts⟩ := ih hnames hidents hvars (hs.declare (hvar _ (List.mem_singleton_self _)) hdeclare) hmore
              refine ⟨hs₃, ?_⟩
              rw [bindings_append, List.map_cons, hname, ← marked,
                readMark_marked _ (notMem_value hident (by decide) (by decide) (by decide))]
              have hfirst : Amounts (fun b => own b.2) (bindings changed [p.name])
                [(changed.contains p.name, Rust.Name.value p.name)] := .self
              exact hfirst.behind hamounts

theorem amounts_results {code : List Rust.Stmt} (hidents : ∀ p ∈ results, p.name = "" ∨ Solidity.isIdentifier p.name = true)
    (hvars : ∀ n ∈ named results, n ∈ vars) (hs : VarsNamed own vars changed s)
    (hw : Writes (declareResults results) E s code s') :
    VarsNamed own vars changed s' ∧ Amounts (fun b => own b.2) (bindings changed (named results)) (introducedIn code) ∧
      Assigns own [] code := by
  induction results generalizing s code with
  | nil =>
      obtain ⟨rfl, rfl⟩ := writes_pure.mp hw
      exact ⟨hs, .nil, .nil⟩
  | cons r results ih =>
      obtain ⟨hr, hidents⟩ := List.forall_mem_cons.mp hidents
      rw [declareResults] at hw
      rw [named_cons, List.forall_mem_append] at hvars
      obtain ⟨hvars, hvar⟩ := hvars
      rw [named_cons]
      split at hw
      · next hempty =>
          rw [if_pos hempty, List.append_nil]
          exact ih hidents hvars hs hw
      · next hne =>
          obtain ⟨t, s₁, ht, hw⟩ := writes_bind.mp hw
          obtain ⟨z, s₂, hz, hw⟩ := writes_bind.mp hw
          obtain ⟨isMut, s₃, hisMut, hw⟩ := writes_bind.mp hw
          obtain ⟨_, s₄, hdeclare, hw⟩ := writes_bind.mp hw
          obtain ⟨more, s₅, hmore, hw⟩ := writes_bind.mp hw
          obtain ⟨rfl, rfl⟩ := writes_pure.mp hw
          have hs₂ := (hs.steady (steady_typeText _) ht).steady (steady_zero _) hz
          obtain ⟨rfl, rfl⟩ := isMutated_eq hs₂ hisMut
          rw [if_neg hne] at hvar ⊢
          obtain ⟨hs₅, hamounts, hassigns⟩ := ih hidents hvars (hs₂.declare (hvar _ (List.mem_singleton_self _)) hdeclare) hmore
          refine ⟨hs₅, ?_, Assigns.append (assigns_let _ _ _ _) hassigns⟩
          have hfirst : Amounts (fun b => own b.2) (bindings changed [r.name])
              (introducedIn [.letVar (changed.contains r.name) (Rust.Name.value r.name) t (some z)]) := by
            rw [introducedIn_step rfl, introducedBy, isTuplePattern_value (hr.resolve_left hne), if_neg Bool.false_ne_true]
            exact .self
          change Amounts _ _ (introducedIn ([_] ++ more))
          rw [bindings_append, introducedIn_append]
          exact hfirst.behind hamounts

theorem mirrors_preamble {r : Routine} {code : List Rust.Stmt} (hw : Writes (preamble r) E s code s') :
    Mirrors own vars changed [] code := by
  unfold preamble at hw
  rw [writes_of_target] at hw
  split at hw
  · obtain ⟨rfl, -⟩ := writes_pure.mp hw
    exact .nil
  · obtain ⟨rfl, -⟩ := writes_pure.mp hw
    unfold Soroban.preamble
    split
    · exact .silent rfl rfl rfl
    · exact .nil

-- The variables of a function: its parameters, its named results, and those that its code declares.
def namesIn (params results : List Param) (code : List Stmt) : List String :=
  named params ++ (named results ++ declaredIn (substmtsList code))

-- A function introduces its variables with the marks of those that its code changes, and changes those.
theorem marks_of_carries {code : List Stmt} (h : Carries E g params results code)
    (hidents : ∀ v ∈ params ++ results, v.name = "" ∨ Solidity.isIdentifier v.name = true)
    (hcode : ∀ st ∈ substmtsList code, Regular interfaces st) :
    Amounts (fun b => IsOwn E.target interfaces b.2)
        (bindings (changedAmong (substmtsList code)) (namesIn params results code)) (introductions g) ∧
      AssignsVars (IsOwn E.target interfaces) (namesIn params results code) (changedAmong (substmtsList code)) (codeOf g) := by
  obtain ⟨hidents, hresultIdents⟩ := List.forall_mem_append.mp hidents
  obtain @⟨r, declared, shell, before, front, written, s, s₁, s₂, s₃, s₄, s₅, t, t', u, u', hscopes, hmutated, hnames,
    hdeclare, hshell, hparams, hbefore, hframe, hresults, hwritten, tail, hbody⟩ := lays_of_carries h
  have hown : OwnsNames (IsOwn E.target interfaces) interfaces := ⟨fun _ hn => .inr (.inl hn), fun _ hn => .inr (.inr (.inl hn))⟩
  have hs : VarsNamed (IsOwn E.target interfaces) (namesIn params results code) (changedAmong (substmtsList code)) s :=
    ⟨hmutated, by simp [hscopes], by simp [RefsOwn, hscopes]⟩
  have hlisted : ∀ st ∈ substmtsList code, Listed interfaces (namesIn params results code) st := fun st hst =>
    ⟨hcode st hst, fun v hv => List.mem_append_right _ (List.mem_append_right _
      (List.mem_flatMap.mpr ⟨st, hst, List.mem_map_of_mem hv⟩))⟩
  obtain ⟨hs₁, hdeclared⟩ := amounts_params (fun k => .inr (.inr (.inr ⟨k, rfl⟩))) (map_name_rustParams hnames) hidents
    (List.subset_append_left _ _) hs hdeclare
  have hs₂ := hs₁.steady (steady_routineShell _) hshell
  have hs₃ : VarsNamed _ _ _ s₃ := hs₂.of_scopes (fun scope hscope => hframe.1 ▸ hscope) hframe.2
  obtain ⟨hs₄, hnamed, hzeros⟩ := amounts_results hresultIdents
    (fun n hn => List.mem_append_right _ (List.mem_append_left _ hn)) hs₃ hresults
  obtain ⟨-, hmirrors⟩ := marking_stmts hown code hlisted s₄ written s₅ hs₄ hwritten
  have hpreamble : Mirrors (IsOwn E.target interfaces) (namesIn params results code) (changedAmong (substmtsList code))
    [] before := mirrors_preamble hbefore
  obtain ⟨added, hadded, haddedOwn⟩ := own_routineShell hshell
  have hfirst : Amounts (fun b => IsOwn E.target interfaces b.2) [] (added.map fun p => readMark p.name.toList) :=
    .of_own fun b hb => by
      obtain ⟨p, hp, rfl⟩ := List.mem_map.mp hb
      obtain ⟨htarget, hname⟩ := haddedOwn p hp
      have hsame : ∀ name ∈ ["env", "caller"], (readMark name.toList).2 = name := by decide
      exact .inl ⟨htarget, (hsame _ hname).symm ▸ hname⟩
  have hcodeOf : codeOf g = before ++ front ++ written := by rw [codeOf, hbody]; rfl
  constructor
  · rw [introductions, hcodeOf, hparams, hadded, List.map_append, introducedIn_append, introducedIn_append, namesIn,
      bindings_append, bindings_append]
    exact (hfirst.append hdeclared).append ((hpreamble.introduces.append hnamed).append hmirrors.introduces)
  · rw [hcodeOf]
    have hsilent : AssignsVars (IsOwn E.target interfaces) (namesIn params results code) [] front := .silent hzeros
    exact (hpreamble.assigns.append hsilent).append hmirrors.assigns

-- What the compiler adds for deployment assigns nothing.

theorem assignedIn_eq_nil {code : List Rust.Stmt} (h : ∀ st ∈ code, st.isStep = true ∧ st.assigned = []) :
    assignedIn code = [] := by
  rw [assignedIn, Rust.nestedAll_steps fun st hst => (h st hst).1]
  exact List.flatMap_eq_nil_iff.mpr fun st hst => (h st hst).2

theorem silent_bindBaseArgs {bound : List BoundArg} {classes : List Contract} {written : List Rust.Stmt × List BoundArg}
    (hw : Writes (bindBaseArgs (baseCallsOf (E.package.chainOf E.contract)) bound classes) E s written s') :
    ∀ st ∈ written.1, st.isStep = true ∧ st.assigned = [] := by
  obtain ⟨binds, hbinds, hcode⟩ := binds_of_bindBaseArgs hw
  rw [hcode]
  intro st hst
  obtain ⟨code, hmem, hst⟩ := List.mem_flatten.mp hst
  obtain ⟨k, -, args, -, -, hlets⟩ := forall₂_exists hbinds.flip hmem
  obtain ⟨pa, -, ident, x, rfl, -⟩ := forall₂_exists hlets.flip hst
  exact ⟨rfl, rfl⟩

theorem silent_initCalls {main : Contract} {given : List BoundArg} {caller : Bool} {classes : List Contract}
    {written : List Rust.Stmt × List (Contract × Routine)} (hw : Writes (initCalls main given caller classes) E s written s') :
    ∀ st ∈ written.1, st.isStep = true ∧ st.assigned = [] := by
  induction classes generalizing s written with
  | nil =>
      obtain ⟨rfl, -⟩ := writes_pure.mp hw
      exact List.forall_mem_nil _
  | cons c rest ih =>
      rw [initCalls] at hw
      obtain ⟨r, s₁, -, hw⟩ := writes_bind.mp hw
      obtain ⟨x, s₂, -, hw⟩ := writes_bind.mp hw
      obtain ⟨more, s₃, hmore, hw⟩ := writes_bind.mp hw
      obtain ⟨rfl, rfl⟩ := writes_pure.mp hw
      exact List.forall_mem_cons.mpr ⟨⟨rfl, rfl⟩, ih hmore⟩

theorem assignments_deploys (h : Deploys E g) : assignments g = [] := by
  cases h with
  | @constructor init gs s s' hw hg =>
      unfold constructors at hw
      rw [writes_of_target] at hw
      split at hw
      · obtain ⟨env, s₁, -, hw⟩ := writes_bind.mp hw
        dsimp only at hw
        cases init with
        | none =>
            obtain ⟨rfl, -⟩ := writes_pure.mp hw
            obtain rfl := List.mem_singleton.mp hg
            rfl
        | some r =>
            obtain ⟨rfl, -⟩ := writes_pure.mp hw
            obtain rfl := List.mem_singleton.mp hg
            rfl
      · cases init with
        | none =>
            obtain ⟨rfl, -⟩ := writes_pure.mp hw
            cases hg
        | some r =>
            simp only [Soroban.constructors] at hw
            obtain ⟨_, s₁, -, hw⟩ := writes_bind.mp hw
            obtain ⟨_, s₂, -, hw⟩ := writes_bind.mp hw
            split at hw
            · next hcaller =>
                obtain ⟨_, s₃, -, hw⟩ := writes_bind.mp hw
                obtain ⟨rfl, -⟩ := writes_pure.mp hw
                obtain rfl := List.mem_singleton.mp hg
                rfl
            · obtain ⟨rfl, -⟩ := writes_pure.mp hw
              obtain rfl := List.mem_singleton.mp hg
              rfl
  | @init classes order bound given caller binds runs s s' t t' hbinds hruns hbody =>
      obtain ⟨tail, hbody⟩ := hbody
      have hcode : codeOf g = binds.1 ++ runs.1 := by rw [codeOf, hbody]; rfl
      rw [assignments, hcode, assignedIn_append, assignedIn_eq_nil (silent_bindBaseArgs hbinds),
        assignedIn_eq_nil (silent_initCalls hruns), List.append_nil]

end Functions

-- What a function assigns, besides names of the compiler's own, is introduced as something that may be changed.
def AssignsMut (own : String → Prop) (g : Rust.Function) : Prop :=
  ∀ b ∈ introductions g, b.2 ∈ assignments g → ¬own b.2 → b.1 = true

-- Of variables that are spelled alike either all change or none.
def ChangesAlike (own : String → Prop) (vars changed : List String) : Prop :=
  ∀ n ∈ changed, ¬own (Rust.Name.value n) → ∀ m ∈ vars, Rust.Name.value m = Rust.Name.value n → m ∈ changed

theorem assignsMut_iff {g : Rust.Function} (hidents : ∀ n ∈ vars, Solidity.isIdentifier n = true)
    (hintroduces : Amounts (fun b => own b.2) (bindings changed vars) (introductions g))
    (hassigns : AssignsVars own vars changed (codeOf g)) : AssignsMut own g ↔ ChangesAlike own vars changed := by
  obtain ⟨hchanged, hassigns⟩ := hassigns
  constructor
  · intro hmut n hn hown m hm hsame
    have hintroduced : (changed.contains m, Rust.Name.value m) ∈ introductions g :=
      hintroduces.all _ (List.mem_map.mpr ⟨m, hm, rfl⟩)
    have hassigned : Rust.Name.value m ∈ assignments g := hsame ▸ hassigns.all _ (List.mem_map.mpr ⟨n, hn, rfl⟩)
    exact List.contains_iff_mem.mp (hmut _ hintroduced hassigned (hsame ▸ hown))
  · intro halike b hb hassigned hown
    obtain ⟨m, hm, rfl⟩ := List.mem_map.mp ((hintroduces.only b hb).resolve_left hown)
    rcases hassigns.only _ hassigned with (hself | hown') | hmem
    · exact absurd hself (value_ne_self (hidents m hm))
    · exact absurd hown' hown
    · obtain ⟨n, hn, hsame⟩ := List.mem_map.mp hmem
      exact List.contains_iff_mem.mpr (halike n hn (hsame ▸ hown) m hm hsame.symm)

theorem ChangesAlike.of_apart (hapart : SpelledApart own vars) (hchanged : ∀ n ∈ changed, n ∈ vars) :
    ChangesAlike own vars changed := fun n hn _ m hm hsame => (hapart n (hchanged n hn)).1 m hm hsame ▸ hn

theorem named_isIdentifier {params : List Param} (h : ∀ p ∈ params, p.name = "" ∨ Solidity.isIdentifier p.name = true) :
    ∀ n ∈ named params, Solidity.isIdentifier n = true := by
  intro n hn
  rw [named, List.mem_reverse, List.mem_filter, List.mem_map] at hn
  obtain ⟨⟨p, hp, rfl⟩, hne⟩ := hn
  exact (h p hp).resolve_left (of_decide_eq_true hne)

-- What deployment adds assigns nothing. Each other function of a file introduces its variables as may be changed exactly
-- if its code changes them, and assigns the identifiers of those. So what it assigns is introduced as may be changed where
-- of variables that are spelled alike either all change or none.
theorem assigned_mut_iff {name : String} {unit : Solidity.SourceUnit} {p : Package} {c : Contract}
    {target : Target} {out : Rust.File} (hp : Resolve.package name unit = .ok p) (hc : c ∈ p.classes)
    (hfile : file p c target = .ok out) :
    (∀ g ∈ out.methods, IsDeployer target g ∧ assignments g = [] ∨
      ∃ params results code, Carries ⟨p, c, target⟩ g params results code) ∧
    ∀ {g : Rust.Function} {params results : List Param} {code : List Stmt} (interfaces : List String),
      Carries ⟨p, c, target⟩ g params results code →
      (∀ v ∈ params ++ results, v.name = "" ∨ Solidity.isIdentifier v.name = true) →
      (∀ st ∈ substmtsList code, Regular interfaces st) →
      let own := IsOwn target interfaces
      let vars := namesIn params results code
      let changed := changedAmong (substmtsList code)
      (∀ n ∈ changed, n ∈ vars) ∧
      Amounts (fun b => own b.2) (bindings changed vars) (introductions g) ∧
      Amounts (fun x => x = "self" ∨ own x) (idents changed) (assignments g) ∧
      (AssignsMut own g ↔ ChangesAlike own vars changed) ∧
      (AssignsMut own g → ∀ b ∈ assignedBindings g, ¬own b.2 → b.1 = true) ∧
      (SpelledApart own vars → AssignsMut own g) := by
  have hsourced := sourced_package hp hc target
  refine ⟨fun g hg => ?_, fun {g params results code} interfaces hcarries hidents hcode => ?_⟩
  · rcases deploys_or_carries hsourced (origin_of_methods hsourced hfile g hg) with ⟨hdeployer, hdeploys⟩ | hcarries
    · exact .inl ⟨hdeployer, assignments_deploys hdeploys⟩
    · exact .inr hcarries
  · obtain ⟨hintroduces, hassigns⟩ := marks_of_carries hcarries hidents hcode
    obtain ⟨hparams, hresults⟩ := List.forall_mem_append.mp hidents
    have hvars : ∀ n ∈ namesIn params results code, Solidity.isIdentifier n = true := by
      refine List.forall_mem_append.mpr ⟨named_isIdentifier hparams, List.forall_mem_append.mpr ⟨named_isIdentifier hresults, ?_⟩⟩
      intro n hn
      obtain ⟨st, hst, hn⟩ := List.mem_flatMap.mp hn
      obtain ⟨v, hv, rfl⟩ := List.mem_map.mp hn
      exact (hcode st hst).vars v hv
    have hiff := assignsMut_iff hvars hintroduces hassigns
    refine ⟨hassigns.1, hintroduces, hassigns.2, hiff, fun hmut b hb hown => ?_, fun hapart => ?_⟩
    · obtain ⟨hintroduced, hassigned⟩ := mem_assignedBindings hb
      exact hmut b hintroduced hassigned hown
    · exact hiff.mpr (.of_apart hapart hassigns.1)

namespace Covering

-- `function f(bool aB) public` with a variable in front of the change of its parameter: `bool cover = true; aB = false;`

def literal (value : Bool) : Solidity.Expression := Spelling.reading (.term default (.bool value) [])

def source (cover : String) : Solidity.SourceUnit :=
  ⟨default, [Resolve.plainContract "C" false [] [
    .function default
      { start := default, stop := default, kind := "function", name := "f"
        params := [⟨default, Resolve.plainType "bool", "", "aB"⟩], attrs := [.visibility default "public"], returns := []
        body := some ⟨default, default, [
          .varDecl default ⟨default, Resolve.plainType "bool", "", cover, some (literal true)⟩,
          .expr default { Spelling.reading Spelling.given with assigned := some ⟨⟨none⟩, literal false⟩ }]⟩ }]]⟩

-- What it becomes.

def body (cover : String) : List Stmt :=
  [.decl default [⟨cover, .bool⟩] (.bool default true),
    .assign default (.var default "aB" .bool) (.bool default false)]

def implementation (cover : String) : Implementation :=
  { owner := "C", params := [Spelling.taken], body := some ⟨default, body cover, false⟩, implemented := true, start := default }

def changing (cover : String) : Function :=
  { name := "f", sourceName := "f", kind := .function, visibility := .isPublic, params := [Spelling.taken]
    implementations := [implementation cover] }

def contract (cover : String) : Contract :=
  { name := "C", kind := .contract, isAbstract := false, bases := [], start := default, chain := ["C"]
    functions := [changing cover], storage := [], dispatch := [changing cover], modifierTable := [] }

def package (cover : String) : Package := { name := "sample", classes := [contract cover] }

theorem package_apart : Resolve.package "sample" (source "c") = .ok (package "c") := by cbv

theorem package_alike : Resolve.package "sample" (source "a_b") = .ok (package "a_b") := by cbv

theorem file_changing (cover : String) (mark : Bool) (hcover : (cover, mark) = ("c", true) ∨ (cover, mark) = ("a_b", false)) :
    ∃ out, file (package cover) (contract cover) .soroban = .ok out ∧
      ∀ g ∈ out.methods, assignments g = [] ∨ (mark, "a_b") ∈ assignedBindings g := by
  have hchecked : (file (package cover) (contract cover) .soroban).toOption.any (fun out => out.methods.all fun g =>
      decide (assignments g = [] ∨ (mark, "a_b") ∈ assignedBindings g)) = true := by
    rcases hcover with hcover | hcover <;> obtain ⟨rfl, rfl⟩ := Prod.mk.inj hcover <;> decide
  obtain ⟨out, hout, hmethods⟩ := exists_file hchecked
  exact ⟨out, hout, fun g hg => of_decide_eq_true (List.all_eq_true.mp hmethods g hg)⟩

theorem regular_body {cover : String} (hcover : Solidity.isIdentifier cover = true) :
    ∀ st ∈ substmtsList (body cover), Regular [] st := by
  have hbody : substmtsList (body cover) = body cover := rfl
  rw [hbody]
  refine List.forall_mem_cons.mpr ⟨.of_no_calls (List.forall_mem_singleton.mpr hcover) rfl, ?_⟩
  exact List.forall_mem_singleton.mpr (.of_no_calls (List.forall_mem_nil _) rfl)

-- The function that is written for `f`, and the variable that it assigns.
theorem exists_changing {cover : String} {mark : Bool}
    (hcover : (cover, mark) = ("c", true) ∨ (cover, mark) = ("a_b", false))
    (hp : Resolve.package "sample" (source cover) = .ok (package cover)) :
    ∃ out, file (package cover) (contract cover) .soroban = .ok out ∧ ∃ g ∈ out.methods,
      Carries ⟨package cover, contract cover, .soroban⟩ g [Spelling.taken] [] (body cover) ∧
        (mark, "a_b") ∈ assignedBindings g := by
  have hident : Solidity.isIdentifier cover = true := by
    rcases hcover with hcover | hcover <;> obtain ⟨rfl, -⟩ := Prod.mk.inj hcover <;> decide
  obtain ⟨out, hfile, hmethods⟩ := file_changing cover mark hcover
  have hsourced := sourced_package hp (c := contract cover) (List.mem_singleton.mpr rfl) .soroban
  obtain ⟨g, hg, hcarries⟩ := carries_of_dispatch (E := ⟨package cover, contract cover, .soroban⟩) (s := {}) hsourced hfile
    (List.mem_singleton.mpr rfl) rfl rfl (writes_pure.mpr ⟨rfl, rfl⟩)
  refine ⟨out, hfile, g, hg, hcarries, (hmethods g hg).resolve_left fun hnone => ?_⟩
  have htaken : ∀ v : Param, v ∈ [Spelling.taken] ++ [] → v.name = "" ∨ Solidity.isIdentifier v.name = true := by decide
  obtain ⟨-, -, hassigns⟩ := marks_of_carries hcarries htaken (regular_body hident)
  have hassigned := hassigns.all (Rust.Name.value "aB") List.mem_cons_self
  rw [← assignments, hnone] at hassigned
  cases hassigned

theorem changesAlike_apart :
    ChangesAlike (IsOwn .soroban []) (namesIn [Spelling.taken] [] (body "c")) (changedAmong (substmtsList (body "c"))) := by
  have hvars : namesIn [Spelling.taken] [] (body "c") = ["aB", "c"] := by decide
  have hchanged : changedAmong (substmtsList (body "c")) = ["aB"] := by decide
  rw [hvars, hchanged]
  intro n hn _ m hm hsame
  obtain rfl := List.mem_singleton.mp hn
  rcases List.mem_pair.mp hm with rfl | rfl
  · exact hn
  · exact absurd hsame (by decide)

theorem assigned_mut_apart : ∃ out g, file (package "c") (contract "c") .soroban = .ok out ∧ g ∈ out.methods ∧
    AssignsMut (IsOwn .soroban []) g ∧ (true, "a_b") ∈ assignedBindings g ∧
    ∀ b ∈ assignedBindings g, ¬IsOwn .soroban [] b.2 → b.1 = true := by
  obtain ⟨out, hfile, g, hg, hcarries, hassigned⟩ := exists_changing (.inl rfl) package_apart
  obtain ⟨-, hfunctions⟩ := assigned_mut_iff package_apart (List.mem_singleton.mpr rfl) hfile
  obtain ⟨-, -, -, hiff, hbindings, -⟩ := hfunctions [] hcarries (by decide) (regular_body (by decide))
  have hmut := hiff.mpr changesAlike_apart
  exact ⟨out, g, hfile, hg, hmut, hassigned, hbindings hmut⟩

-- The parameter may be changed, but what is assigned is the variable in front of it.
theorem assigned_without_mut : ∃ out g, Resolve.package "sample" (source "a_b") = .ok (package "a_b") ∧
    file (package "a_b") (contract "a_b") .soroban = .ok out ∧ g ∈ out.methods ∧
    Carries ⟨package "a_b", contract "a_b", .soroban⟩ g [Spelling.taken] [] (body "a_b") ∧
    (false, "a_b") ∈ assignedBindings g ∧ ¬IsOwn .soroban [] "a_b" ∧ ¬AssignsMut (IsOwn .soroban []) g := by
  obtain ⟨out, hfile, g, hg, hcarries, hassigned⟩ := exists_changing (.inr rfl) package_alike
  have hown : ¬IsOwn .soroban [] "a_b" := by
    have happart := (Spelling.spelledApart_copy "aB" (by simp)).2
    rwa [show Rust.Name.value "aB" = "a_b" by decide] at happart
  refine ⟨out, g, package_alike, hfile, hg, hcarries, hassigned, hown, fun hmut => ?_⟩
  obtain ⟨hintroduced, hidentifier⟩ := mem_assignedBindings hassigned
  exact absurd (hmut _ hintroduced hidentifier hown) Bool.false_ne_true

end Covering

end RustContracts.Emit
