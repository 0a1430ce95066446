import RustContracts.Proofs.Emit.ConformsFunction
import RustContracts.Proofs.Emit.Layout

-- What runs at deployment keeps to a form, and with it all functions of a file.
namespace RustContracts.Emit

open Program

variable {F : Rust.Form} {E : Env} {s s' : State}

instance : Fitting (List BoundArg) := ⟨fun F bound => ∀ b ∈ bound, F.ident b.ident⟩
instance : Fitting (List Rust.Function) := ⟨fun F gs => ∀ g ∈ gs, Fitting.fits F g⟩

-- Variables of deployment.

-- The identifiers of parameters without a name start with `_`.
theorem fits_paramName (hF : Mild F E.target) {p : Param} (hp : F.ident (Rust.Name.value p.name)) (i : Nat) :
    F.ident (paramName p i) := by
  unfold paramName
  split
  · exact hF.joined "" ("arg" ++ toString i)
  · exact hp

theorem conforms_bindArgs (hE : Lawful F E) (base : String) (i : Nat) (params : List Param) {args : List Expr}
    (hargs : ∀ e ∈ args, e.Each (Suits F E)) : Conforms F E (bindArgs base i params args) := by
  induction params generalizing i args with
  | nil => exact conforms_pure ⟨by nofun, by nofun⟩
  | cons p params ih =>
      cases args with
      | nil => exact conforms_pure ⟨by nofun, by nofun⟩
      | cons arg args =>
          obtain ⟨harg, hargs⟩ := List.forall_mem_cons.mp hargs
          rw [bindArgs]
          refine conforms_bind (conforms_exprAs hE _ harg) fun x hx => conforms_bind (ih _ hargs) fun more hmore => ?_
          exact conforms_pure ⟨List.forall_mem_cons.mpr ⟨.letVar hx, hmore.1⟩,
            List.forall_mem_cons.mpr ⟨hE.mild.joined _ _, hmore.2⟩⟩

theorem conforms_forM {γ : Type} {f : γ → Emit PUnit} (xs : List γ) (hf : ∀ x ∈ xs, Conforms F E (f x)) :
    Conforms F E (xs.forM f) := by
  induction xs with
  | nil => exact conforms_pure trivial
  | cons x xs ih =>
      obtain ⟨hx, hxs⟩ := List.forall_mem_cons.mp hf
      exact conforms_bind hx fun _ _ => ih hxs

theorem fits_boundIdent? {bound : List BoundArg} (hbound : ∀ b ∈ bound, F.ident b.ident) {base param ident : String}
    (h : boundIdent? bound base param = some ident) : F.ident ident := by
  obtain ⟨b, hb, rfl⟩ := Option.map_eq_some_iff.mp h
  exact hbound b (List.mem_reverse.mp (List.mem_of_find?_eq_some hb))

theorem conforms_declareGiver {bound : List BoundArg} (hbound : ∀ b ∈ bound, F.ident b.ident) (giver : String) :
    Conforms F E (declareGiver bound giver) := by
  refine conforms_read_bind ?_
  dsimp only
  split
  · refine conforms_forM _ fun p _ => ?_
    split
    · next hident => exact conforms_declare (fits_boundIdent? hbound hident)
    · exact conforms_pure trivial
  · exact conforms_pure trivial

theorem conforms_bindBaseArgs (hE : Lawful F E) {calls : List BaseCall}
    (hcalls : ∀ call ∈ calls, ∀ e ∈ call.args, e.Each (Suits F E)) {bound : List BoundArg}
    (hbound : ∀ b ∈ bound, F.ident b.ident) (classes : List Contract) :
    Conforms F E (bindBaseArgs calls bound classes) := by
  induction classes generalizing bound with
  | nil => exact conforms_pure ⟨by nofun, hbound⟩
  | cons c rest ih =>
      rw [bindBaseArgs]
      dsimp only
      split
      · split
        · exact conforms_throw_bind _ _
        · exact ih hbound
      · exact ih hbound
      · split
        · exact ih hbound
        · split
          · exact conforms_read_bind (conforms_throw _)
          · next call hcall =>
              split
              · exact conforms_throw_bind _ _
              · have hargs := hcalls call (List.mem_of_find?_eq_some hcall)
                refine conforms_bind (conforms_inScope ?_) fun own hown => ?_
                · exact conforms_bind (conforms_declareGiver hbound _) fun _ _ => conforms_bindArgs hE _ _ _ hargs
                · refine conforms_bind (ih (List.forall_mem_append.mpr ⟨hbound, hown.2⟩)) fun later hlater => ?_
                  exact conforms_pure ⟨List.forall_mem_append.mpr ⟨hown.1, hlater.1⟩, hlater.2⟩

-- Calls of initializers.

theorem fits_idents {γ : Type} (name : γ → String) {as : List γ} (h : ∀ a ∈ as, F.ident (name a)) :
    ∀ x ∈ as.map fun a => Rust.Expr.ident (name a), x.Fits F := by
  rw [List.forall_mem_map]
  exact fun a ha => .ident (h a ha)

theorem fits_initArgs (hF : Mild F E.target) {main : Contract} {bound : List BoundArg}
    (hmain : ∀ p ∈ constructorParams main, F.ident (Rust.Name.value p.name)) (hbound : ∀ b ∈ bound, F.ident b.ident)
    (c : Contract) : ∀ x ∈ initArgs main bound c, x.Fits F := by
  unfold initArgs
  split
  · exact fits_idents (fun pi : Param × Nat => paramName pi.1 pi.2) fun pi hpi =>
      fits_paramName hF (hmain pi.1 (List.fst_mem_of_mem_zipIdx hpi)) pi.2
  · exact fits_idents BoundArg.ident fun b hb => hbound b (List.mem_of_mem_filter hb)

theorem conforms_initCalls (hF : Mild F E.target) {main : Contract} {bound : List BoundArg} {caller : Bool}
    (hmain : ∀ p ∈ constructorParams main, F.ident (Rust.Name.value p.name)) (hbound : ∀ b ∈ bound, F.ident b.ident)
    (hcaller : E.target = .soroban → caller = true → F.ident "caller") (classes : List Contract) :
    Conforms F E (initCalls main bound caller classes) := by
  induction classes with
  | nil => exact conforms_pure ⟨by nofun, trivial⟩
  | cons c rest ih =>
      rw [initCalls]
      refine conforms_bind_of_writes (conforms_bind (conforms_rustParams _) fun _ _ => conforms_pure trivial)
        fun r t t' hr _ => ?_
      have hrcaller : r.caller = caller := by
        obtain ⟨_, _, -, hr⟩ := writes_bind.mp hr
        obtain ⟨rfl, -⟩ := writes_pure.mp hr
        rfl
      refine conforms_bind (conforms_invoke hF (fun ht h => hcaller ht (hrcaller ▸ h))
        (fits_initArgs hF hmain hbound c)) fun x hx => ?_
      exact conforms_bind ih fun more hmore =>
        conforms_pure ⟨List.forall_mem_cons.mpr ⟨.expr (.tryOp hx), hmore.1⟩, trivial⟩

-- What has to hold of what is run at deployment.
structure SuitsDeployment (F : Rust.Form) (E : Env) : Prop where
  code : ∀ c ∈ E.package.chainOf E.contract, ∀ i ∈ constructorImpl? c, ∀ j ∈ E.contract.guarded i, SuitsCode F E j
  fields : ∀ c ∈ E.package.chainOf E.contract, ∀ f ∈ c.fields, ∀ v ∈ f.value, v.Each (Suits F E)
  baseArgs : ∀ c ∈ E.package.chainOf E.contract, ∀ call ∈ c.baseCalls, ∀ e ∈ call.args, e.Each (Suits F E)
  caller : E.target = .soroban → E.package.constructorNeedsCaller E.contract = true → F.ident "caller"

theorem SuitsDeployment.params (h : SuitsDeployment F E) {c : Contract} (hc : c ∈ E.package.chainOf E.contract) :
    ∀ p ∈ constructorParams c, F.ident (Rust.Name.value p.name) := by
  unfold constructorParams
  cases hi : constructorImpl? c with
  | none => nofun
  | some i => exact (List.forall_mem_append.mp (h.code c hc i hi i List.mem_cons_self).names).1

theorem suits_constructorCode (h : SuitsDeployment F E) {c : Contract} (hc : c ∈ E.package.chainOf E.contract)
    {body : List Stmt} (hw : Writes (constructorCode c) E s body s') :
    s' = s ∧ ∀ st ∈ substmtsList body, SuitsStmt F E st := by
  unfold constructorCode at hw
  split at hw
  · next i b hi hb =>
      rw [hi, Option.bind_some] at hb
      have hcode := h.code c hc i hi
      have hself := hcode i List.mem_cons_self
      obtain ⟨inner, s₁, hguarded, hw⟩ := writes_bind.mp hw
      obtain ⟨rfl, rfl⟩ := writes_pure.mp hw
      exact suits_guarded (hself.stmts b hb) hself.args (fun m hm guard hguard j hj =>
        hcode j (mem_guarded.mpr (.inr ⟨m, hm, guard, hguard, hj⟩))) hguarded
  · obtain ⟨rfl, rfl⟩ := writes_pure.mp hw
    exact ⟨rfl, by nofun⟩

theorem suits_fieldInits (h : SuitsDeployment F E) {c : Contract} (hc : c ∈ E.package.chainOf E.contract) :
    ∀ st ∈ substmtsList (fieldInits c), SuitsStmt F E st := by
  have hall : ∀ fields : List StorageField, (∀ f ∈ fields, ∀ v ∈ f.value, v.Each (Suits F E)) →
      ∀ st ∈ substmtsList (fields.filterMap fun f => f.value.map fun v => .assign {} (.field {} f.toFieldDecl) v),
        SuitsStmt F E st := by
    intro fields hfields
    induction fields with
    | nil => nofun
    | cons f fields ih =>
        obtain ⟨hf, hfields⟩ := List.forall_mem_cons.mp hfields
        cases hv : f.value with
        | none => simpa [List.filterMap_cons, hv] using ih hfields
        | some v =>
            rw [List.filterMap_cons, hv]
            refine suits_within ⟨?_, by nofun, by nofun⟩ (ih hfields)
            refine List.forall_mem_cons.mpr ⟨?_, List.forall_mem_singleton.mpr (hf v hv)⟩
            exact Expr.each_iff.mpr ⟨trivial, by simp [Expr.children]⟩
  exact hall c.fields (h.fields c hc)

theorem fits_classInit (hE : Lawful F E) (h : SuitsDeployment F E) {c : Contract}
    (hc : c ∈ E.package.chainOf E.contract) {r : Routine} (hr : TellsCaller F E r) {g : Rust.Function}
    (hw : Writes (classInit c r) E s g s') : Fitting.fits F g := by
  rw [classInit_eq] at hw
  obtain ⟨_, s₁, henter, hw⟩ := writes_bind.mp hw
  obtain rfl := writes_modify.mp henter
  obtain ⟨body, s₂, hcode, hw⟩ := writes_bind.mp hw
  obtain ⟨rfl, hbody⟩ := suits_constructorCode h hc hcode
  have hall : ∀ st ∈ substmtsList (fieldInits c ++ body), SuitsStmt F E st := by
    rw [substmtsList_append]
    exact List.forall_mem_append.mpr ⟨suits_fieldInits h hc, hbody⟩
  refine Conforms.run ?_ (fits_entered false s) hw
  refine conforms_bind (conforms_modifyFrame fun _ => rfl) fun _ _ => ?_
  refine conforms_bind (conforms_declareParams (h.params hc) _) fun _ _ => ?_
  refine conforms_bind (conforms_routineShell _) fun shell _ => ?_
  refine conforms_bind (conforms_stmts hE _ hall) fun written hwritten => ?_
  refine conforms_bind (conforms_preamble hr) fun before hbefore => conforms_pure ?_
  rintro code ⟨⟩
  refine .mk (List.forall_mem_append.mpr ⟨hbefore, hwritten⟩) fun x hx => ?_
  split at hx
  · cases hx
  · cases hx
    exact .call (List.forall_mem_singleton.mpr (fits_lit (by decide)))

theorem fits_classInits (hE : Lawful F E) (h : SuitsDeployment F E) {routines : List (Contract × Routine)}
    (hroutines : ∀ cr ∈ routines, cr.1 ∈ E.package.chainOf E.contract ∧ TellsCaller F E cr.2)
    {gs : List Rust.Function} (hw : Writes (classInits routines) E s gs s') : Fitting.fits F gs := by
  induction routines generalizing s s' gs with
  | nil =>
      obtain ⟨rfl, -⟩ := writes_pure.mp hw
      nofun
  | cons cr routines ih =>
      obtain ⟨⟨hc, hr⟩, hroutines⟩ := List.forall_mem_cons.mp hroutines
      rw [classInits] at hw
      obtain ⟨g, s₁, hg, hw⟩ := writes_bind.mp hw
      obtain ⟨more, s₂, hmore, hw⟩ := writes_bind.mp hw
      obtain ⟨rfl, -⟩ := writes_pure.mp hw
      exact List.forall_mem_cons.mpr ⟨fits_classInit hE h hc hr hg, ih hroutines hmore⟩

theorem fits_constructors (hF : Mild F E.target) {init : Option Routine}
    (hparams : ∀ r ∈ init, ∀ p ∈ r.params, F.ident p.name) (hcaller : ∀ r ∈ init, TellsCaller F E r)
    {gs : List Rust.Function} (hw : Writes (constructors init) E s gs s') : Fitting.fits F gs := by
  unfold constructors at hw
  rw [writes_of_target] at hw
  cases ht : E.target with
  | ink version =>
      rw [ht] at hw
      simp only [Ink.constructors, writes_bind, writes_read] at hw
      obtain ⟨_, _, ⟨rfl, rfl⟩, hw⟩ := hw
      have hstart := fits_lit (F := F) (show "Self::default()".toList.head? ≠ some 'v' by decide)
      cases init with
      | none =>
          obtain ⟨rfl, -⟩ := writes_pure.mp hw
          refine List.forall_mem_singleton.mpr ?_
          rintro code ⟨⟩
          exact .mk (List.forall_mem_nil _) (by rintro x ⟨⟩; exact hstart)
      | some r =>
          obtain ⟨rfl, -⟩ := writes_pure.mp hw
          have hcontract : (Rust.Expr.ident "contract").Fits F := .ident (hF.ink version ht _)
          refine List.forall_mem_singleton.mpr ?_
          rintro code ⟨⟩
          refine .mk ?_ ?_
          · refine List.forall_mem_cons.mpr ⟨.letVar hstart, List.forall_mem_singleton.mpr (.expr (.tryOp ?_))⟩
            exact .methodCall hcontract (fits_idents Rust.Param.name (hparams r rfl))
          · rintro x ⟨⟩
            exact .call (List.forall_mem_singleton.mpr hcontract)
  | soroban =>
      rw [ht] at hw
      cases init with
      | none =>
          obtain ⟨rfl, -⟩ := writes_pure.mp hw
          exact List.forall_mem_nil _
      | some r =>
          simp only [Soroban.constructors] at hw
          obtain ⟨_, _, -, hw⟩ := writes_bind.mp hw
          obtain ⟨_, _, -, hw⟩ := writes_bind.mp hw
          have henv := Soroban.fits_env hF.env
          have hstop : (Rust.Block.mk [.expr (.bangCall "panic_with_error" [Soroban.env, .ident "e"])] none).Fits F :=
            fits_block (List.forall_mem_singleton.mpr (.expr (.bangCall (List.forall_mem_cons.mpr
              ⟨henv, List.forall_mem_singleton.mpr (.ident hF.failure)⟩))))
          have hrun {given : List Rust.Param} (hgiven : ∀ p ∈ given, F.ident p.name) : (Rust.Stmt.expr (.ifElse "Err(e)"
              (.callPath ("Self::" ++ r.name) (Soroban.env :: given.map fun p => Rust.Expr.ident p.name))
              ⟨[.expr (.bangCall "panic_with_error" [Soroban.env, .ident "e"])], none⟩ none)).Fits F :=
            .expr (.ifElse (hF.call _ _) (.call (List.forall_mem_cons.mpr ⟨henv, fits_idents Rust.Param.name hgiven⟩))
              hstop fun _ h => by cases h)
          split at hw
          · next htold =>
              obtain ⟨_, _, -, hw⟩ := writes_bind.mp hw
              obtain ⟨rfl, -⟩ := writes_pure.mp hw
              have hname := hcaller r rfl ht htold
              refine List.forall_mem_singleton.mpr ?_
              rintro code ⟨⟩
              refine fits_block (List.forall_mem_cons.mpr ⟨fits_requireAuth hname, List.forall_mem_singleton.mpr ?_⟩)
              exact hrun (List.forall_mem_cons.mpr ⟨hname, hparams r rfl⟩)
          · next htold =>
              obtain ⟨rfl, -⟩ := writes_pure.mp hw
              refine List.forall_mem_singleton.mpr ?_
              rintro code ⟨⟩
              exact fits_block (List.forall_mem_singleton.mpr (hrun (hparams r rfl)))

theorem fits_rustParams (hF : Mild F E.target) {params : List Param}
    (hparams : ∀ p ∈ params, F.ident (Rust.Name.value p.name)) {rparams : List Rust.Param}
    (hw : Writes (rustParams params) E s rparams s') : ∀ p ∈ rparams, F.ident p.name := by
  intro p hp
  have hmem : Rust.Expr.ident p.name ∈ rparams.map fun p => Rust.Expr.ident p.name := List.mem_map_of_mem hp
  rw [names_rustParams hw] at hmem
  obtain ⟨⟨param, i⟩, hparam, heq⟩ := List.mem_map.mp hmem
  rw [← Rust.Expr.ident.inj heq]
  exact fits_paramName hF (hparams param (List.fst_mem_of_mem_zipIdx hparam)) i

theorem routines_initCalls {main : Contract} {bound : List BoundArg} {caller : Bool} {classes : List Contract}
    {written : List Rust.Stmt × List (Contract × Routine)}
    (hw : Writes (initCalls main bound caller classes) E s written s') :
    ∀ cr ∈ written.2, cr.1 ∈ classes ∧ cr.2.caller = caller := by
  induction classes generalizing s written with
  | nil =>
      obtain ⟨rfl, rfl⟩ := writes_pure.mp hw
      simp
  | cons c rest ih =>
      rw [initCalls] at hw
      obtain ⟨r, s₁, hr, hw⟩ := writes_bind.mp hw
      obtain ⟨x, s₂, -, hw⟩ := writes_bind.mp hw
      obtain ⟨more, s₃, hmore, hw⟩ := writes_bind.mp hw
      obtain ⟨rfl, rfl⟩ := writes_pure.mp hw
      obtain ⟨_, _, -, hr⟩ := writes_bind.mp hr
      obtain ⟨rfl, -⟩ := writes_pure.mp hr
      refine List.forall_mem_cons.mpr ⟨⟨List.mem_cons_self, rfl⟩, fun cr hcr => ?_⟩
      exact ⟨List.mem_cons_of_mem _ (ih hmore cr hcr).1, (ih hmore cr hcr).2⟩

theorem fits_deployment (hE : Lawful F E) (hS : Sourced E) (h : SuitsDeployment F E)
    {written : List Rust.Function × List Rust.Function} (hw : Writes deployment E s written s') :
    ∀ g ∈ written.1 ++ written.2, Fitting.fits F g := by
  obtain ⟨bases, hchain⟩ := hS.chain
  have hmain : E.contract ∈ E.package.chainOf E.contract := hchain ▸ List.mem_cons_self
  have hparams := h.params hmain
  unfold deployment at hw
  obtain ⟨env, s₁, henv, hw⟩ := writes_bind.mp hw
  obtain ⟨rfl, rfl⟩ := writes_read.mp henv
  dsimp only at hw
  split at hw
  · obtain ⟨gs, s₂, hgs, hw⟩ := writes_bind.mp hw
    obtain ⟨rfl, -⟩ := writes_pure.mp hw
    rw [List.append_nil]
    have hnone (P : Routine → Prop) : ∀ r ∈ (none : Option Routine), P r := by simp
    exact fits_constructors hE.mild (hnone _) (hnone _) hgs
  · obtain ⟨rparams, s₂, hrparams, hw⟩ := writes_bind.mp hw
    obtain ⟨_, s₃, henter, hw⟩ := writes_bind.mp hw
    obtain rfl := writes_modify.mp henter
    obtain ⟨_, s₄, hdeclare, hw⟩ := writes_bind.mp hw
    obtain ⟨⟨binds, bound⟩, s₅, hbinds, hw⟩ := writes_bind.mp hw
    obtain ⟨⟨runs, routines⟩, s₆, hruns, hw⟩ := writes_bind.mp hw
    obtain ⟨shell, s₇, hshell, hw⟩ := writes_bind.mp hw
    obtain ⟨inits, s₈, hinits, hw⟩ := writes_bind.mp hw
    obtain ⟨gs, s₉, hgs, hw⟩ := writes_bind.mp hw
    obtain ⟨rfl, -⟩ := writes_pure.mp hw
    have hdeclares : Conforms F E ((constructorParams E.contract).forM fun p =>
        declare p.name (Rust.Name.value p.name)) := conforms_forM _ fun p hp => conforms_declare (hparams p hp)
    have hcalls : ∀ call ∈ baseCallsOf (E.package.chainOf E.contract), ∀ e ∈ call.args, e.Each (Suits F E) := by
      intro call hcall
      obtain ⟨c, hc, hcall⟩ := List.mem_flatMap.mp hcall
      exact h.baseArgs c hc call hcall
    obtain ⟨hs₄, -⟩ := hdeclares _ (fits_entered false s₂)
    rw [hdeclare] at hs₄
    have hnone : ∀ b ∈ ([] : List BoundArg), F.ident b.ident := by simp
    obtain ⟨hs₅, hbound⟩ := conforms_bindBaseArgs hE hcalls hnone _ _ hs₄
    rw [hbinds] at hs₅
    obtain ⟨hbinds, hbound⟩ := hbound _ _ hbinds
    obtain ⟨hs₆, hstmts⟩ := conforms_initCalls hE.mild hparams hbound h.caller _ _ hs₅
    obtain ⟨hstmts, -⟩ := hstmts _ _ hruns
    have hroutines : ∀ cr ∈ routines, cr.1 ∈ E.package.chainOf E.contract ∧ TellsCaller F E cr.2 := by
      intro cr hcr
      obtain ⟨hclass, hcaller⟩ := routines_initCalls hruns cr hcr
      refine ⟨List.mem_of_mem_filter (List.mem_reverse.mp hclass), fun ht htold => h.caller ht ?_⟩
      rwa [hcaller] at htold
    have hgiven := fits_rustParams hE.mild hparams hrparams
    refine List.forall_mem_append.mpr ⟨fits_constructors hE.mild ?_ ?_ hgs, List.forall_mem_cons.mpr ⟨?_, ?_⟩⟩
    · rintro r ⟨⟩
      exact hgiven
    · rintro r ⟨⟩
      exact h.caller
    · rintro code ⟨⟩
      refine .mk (List.forall_mem_append.mpr ⟨hbinds, hstmts⟩) ?_
      rintro x ⟨⟩
      exact .call (List.forall_mem_singleton.mpr (fits_lit (by decide)))
    · exact fits_classInits hE h hroutines hinits

-- Where a function of a file comes from.
inductive Origin (E : Env) : Rust.Function → Prop
  | deployed {s s' : State} {written : List Rust.Function × List Rust.Function} {g : Rust.Function}
      (hw : Writes deployment E s written s') (hg : g ∈ written.1 ++ written.2) : Origin E g
  | entry {s s₁ s' : State} {f : Function} {r : Routine} {g : Rust.Function} (hf : f ∈ E.contract.dispatch)
      (hr : Writes (dispatchRoutine f) E s r s₁) (hw : Writes (function r f f.primary?) E s₁ g s') : Origin E g
  | helper {s s' : State} {key : String} {h : Helper} {g : Rust.Function} (hasked : Asked E key h)
      (hw : Writes (helper h) E s g s') : Origin E g

theorem origin_dispatched {fs : List Function} (hfs : ∀ f ∈ fs, f ∈ E.contract.dispatch)
    {written : List Rust.Function × List Rust.Function} (hw : Writes (dispatched fs) E s written s') :
    ∀ g ∈ written.1 ++ written.2, Origin E g := by
  induction fs generalizing s s' written with
  | nil =>
      obtain ⟨rfl, rfl⟩ := writes_pure.mp hw
      simp
  | cons f rest ih =>
      obtain ⟨hf, hrest⟩ := List.forall_mem_cons.mp hfs
      rw [dispatched] at hw
      obtain ⟨r, s₁, hr, hw⟩ := writes_bind.mp hw
      obtain ⟨g, s₂, hg, hw⟩ := writes_bind.mp hw
      obtain ⟨⟨entries, helpers⟩, s₃, hmore, hw⟩ := writes_bind.mp hw
      obtain ⟨rfl, rfl⟩ := writes_pure.mp hw
      obtain ⟨hentries, hhelpers⟩ := List.forall_mem_append.mp (ih hrest hmore)
      have hfirst : Origin E g := .entry hf hr hg
      split
      · exact List.forall_mem_append.mpr ⟨List.forall_mem_cons.mpr ⟨hfirst, hentries⟩, hhelpers⟩
      · exact List.forall_mem_append.mpr ⟨hentries, List.forall_mem_cons.mpr ⟨hfirst, hhelpers⟩⟩

-- All that is queued has been asked for.
def Queued (E : Env) (s : State) : Prop := ∀ h ∈ s.queue, ∃ key, Asked E key h

theorem Queued.grow (hs : Queued E s) (hgrowth : Growth E s s') : Queued E s' := by
  obtain ⟨new, hqueue, -, -, -, hasked⟩ := hgrowth
  rw [Queued, hqueue]
  refine List.forall_mem_append.mpr ⟨hs, ?_⟩
  rw [List.forall_mem_map]
  exact fun kh hkh => ⟨kh.1, hasked kh hkh⟩

theorem origin_drainHelpers (hE : Sourced E) {count : Nat} {gs : List Rust.Function} (hs : Queued E s)
    (hw : Writes (drainHelpers count) E s gs s') : ∀ g ∈ gs, Origin E g := by
  induction count generalizing s gs with
  | zero =>
      obtain ⟨rfl, rfl⟩ := writes_pure.mp hw
      simp
  | succ count ih =>
      rw [drainHelpers] at hw
      obtain ⟨next, s₁, hnext, hw⟩ := writes_bind.mp hw
      rw [Writes, outcome_nextHelper?] at hnext
      cases hnext
      rcases hq : s.queue with _ | ⟨first, rest⟩
      · rw [hq] at hw
        obtain ⟨rfl, -⟩ := writes_pure.mp hw
        simp
      · rw [hq] at hw
        obtain ⟨g, s₂, hg, hw⟩ := writes_bind.mp hw
        obtain ⟨more, s₃, hmore, hw⟩ := writes_bind.mp hw
        obtain ⟨rfl, rfl⟩ := writes_pure.mp hw
        rw [Queued, hq] at hs
        obtain ⟨⟨key, hasked⟩, hrest⟩ := List.forall_mem_cons.mp hs
        have hgrowth := (emitted_helper hE hasked hg).1
        have hqueued := Queued.grow (s := { s with queue := rest }) hrest hgrowth
        exact List.forall_mem_cons.mpr ⟨.helper hasked hg, ih hqueued hmore⟩

theorem origin_of_methods (hE : Sourced E) {out : Rust.File}
    (hfile : file E.package E.contract E.target = .ok out) : ∀ g ∈ out.methods, Origin E g := by
  obtain ⟨s₁, deployed, inits, s₂, messages, internals, s₃, helpers, s₄, hbefore, hdeployment, hdispatched, hhelpers,
    -, -, hmethods⟩ := writes_contract (writes_of_file hfile)
  have hqueued : Queued E s₃ := by
    have hempty : Queued E {} := by simp [Queued]
    exact hempty.grow (hbefore.trans ((emitted_deployment hE hdeployment).1.trans
      (emitted_dispatched hE (fun _ hf => hf) hdispatched).1))
  obtain ⟨hmessages, hinternals⟩ := List.forall_mem_append.mp (origin_dispatched (fun _ hf => hf) hdispatched)
  have hdeployed : ∀ g ∈ deployed ++ inits, Origin E g := fun g hg => .deployed hdeployment hg
  obtain ⟨hdeployed, hinits⟩ := List.forall_mem_append.mp hdeployed
  rw [hmethods]
  simp only [List.forall_mem_append]
  exact ⟨⟨hdeployed, hmessages⟩, ⟨hinits, hinternals⟩, origin_drainHelpers hE hqueued hhelpers⟩

end RustContracts.Emit
