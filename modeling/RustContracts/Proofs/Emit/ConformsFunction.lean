import RustContracts.Proofs.Emit.ConformsStmt
import RustContracts.Proofs.Emit.Emitted
import RustContracts.Proofs.Resolve.Callers

-- Functions keep to a form, where their code and that of their modifiers suits it.
namespace RustContracts.Emit

open Program

variable {F : Rust.Form} {E : Env} {s s' : State}

-- What has to hold of an implementation or of a modifier.
structure SuitsCode (F : Rust.Form) (E : Env) (i : Implementation) : Prop where
  stmts : ∀ b ∈ i.body, ∀ st ∈ substmtsList b.stmts, SuitsStmt F E st
  args : ∀ m ∈ i.modifiers, ∀ e ∈ m.args, e.Each (Suits F E)
  names : ∀ p ∈ i.params ++ i.returns, F.ident (Rust.Name.value p.name)

-- Code inside modifiers.

section Fill

variable {body : Block}

theorem suitsStmt_block (b : Block) : SuitsStmt F E (.block b) := ⟨by nofun, by nofun, by nofun⟩

-- What a statement says itself stays; the body may stand inside it.
theorem suits_within {st : Stmt} {more : List Stmt} (hst : SuitsStmt F E st)
    (hmore : ∀ x ∈ more, SuitsStmt F E x) : ∀ x ∈ st :: more, SuitsStmt F E x := List.forall_mem_cons.mpr ⟨hst, hmore⟩

mutual

theorem suits_fillStmt (hbody : ∀ st ∈ body.substmts, SuitsStmt F E st) :
    ∀ s : Stmt, (∀ st ∈ s.substmts, SuitsStmt F E st) → ∀ st ∈ (fillStmt body s).substmts, SuitsStmt F E st
  | .placeholder _, _ => hbody
  | .block b, hs => suits_fillBlock hbody b hs
  | .ifElse p c t none, hs => by
      obtain ⟨hself, ht⟩ := List.forall_mem_cons.mp hs
      exact suits_within ⟨hself.exprs, hself.vars, hself.test⟩ (suits_fillBlock hbody t ht)
  | .ifElse p c t (some e), hs => by
      obtain ⟨hself, hinner⟩ := List.forall_mem_cons.mp hs
      obtain ⟨ht, he⟩ := List.forall_mem_append.mp hinner
      exact suits_within ⟨hself.exprs, hself.vars, hself.test⟩
        (List.forall_mem_append.mpr ⟨suits_fillBlock hbody t ht, suits_fillBlock hbody e he⟩)
  | .whileLoop p c b testLast, hs => by
      obtain ⟨hself, hb⟩ := List.forall_mem_cons.mp hs
      exact suits_within ⟨hself.exprs, hself.vars, hself.test⟩ (suits_fillBlock hbody b hb)
  | .forLoop p none c none b, hs => by
      obtain ⟨hself, hb⟩ := List.forall_mem_cons.mp hs
      exact suits_within ⟨hself.exprs, hself.vars, hself.test⟩ (suits_fillBlock hbody b hb)
  | .forLoop p (some i) c none b, hs => by
      obtain ⟨hself, hinner⟩ := List.forall_mem_cons.mp hs
      obtain ⟨hi, hb⟩ := List.forall_mem_append.mp hinner
      exact suits_within ⟨hself.exprs, hself.vars, hself.test⟩
        (List.forall_mem_append.mpr ⟨hi, suits_fillBlock hbody b hb⟩)
  | .forLoop p none c (some q) b, hs => by
      obtain ⟨hself, hinner⟩ := List.forall_mem_cons.mp hs
      obtain ⟨hq, hb⟩ := List.forall_mem_append.mp hinner
      exact suits_within ⟨hself.exprs, hself.vars, hself.test⟩
        (List.forall_mem_append.mpr ⟨hq, suits_fillBlock hbody b hb⟩)
  | .forLoop p (some i) c (some q) b, hs => by
      obtain ⟨hself, hinner⟩ := List.forall_mem_cons.mp hs
      obtain ⟨hsteps, hb⟩ := List.forall_mem_append.mp hinner
      exact suits_within ⟨hself.exprs, hself.vars, hself.test⟩
        (List.forall_mem_append.mpr ⟨hsteps, suits_fillBlock hbody b hb⟩)
  | .decl _ _ _, hs | .assign _ _ _, hs | .expr _ _, hs | .returnValue _ _, hs | .require _ _ _, hs
  | .revert _ _ _, hs | .emit _ _ _, hs | .breakLoop _, hs | .continueLoop _, hs => hs

theorem suits_fillBlock (hbody : ∀ st ∈ body.substmts, SuitsStmt F E st) :
    ∀ b : Block, (∀ st ∈ b.substmts, SuitsStmt F E st) → ∀ st ∈ (fillBlock body b).substmts, SuitsStmt F E st
  | ⟨_, stmts, _⟩, hb =>
      suits_within (suitsStmt_block _) (suits_fillStmts hbody stmts (List.forall_mem_cons.mp hb).2)

theorem suits_fillStmts (hbody : ∀ st ∈ body.substmts, SuitsStmt F E st) :
    ∀ sts : List Stmt, (∀ st ∈ substmtsList sts, SuitsStmt F E st) →
      ∀ st ∈ substmtsList (fillStmts body sts), SuitsStmt F E st
  | [], hs => hs
  | st :: rest, hs => by
      obtain ⟨hst, hrest⟩ := List.forall_mem_append.mp hs
      exact List.forall_mem_append.mpr ⟨suits_fillStmt hbody st hst, suits_fillStmts hbody rest hrest⟩

end

end Fill

theorem substmtsList_append (sts sts' : List Stmt) :
    substmtsList (sts ++ sts') = substmtsList sts ++ substmtsList sts' := by
  induction sts with
  | nil => rfl
  | cons st sts ih => rw [List.cons_append, substmtsList, ih, substmtsList, List.append_assoc]

-- The parameters of a modifier are variables with the arguments as values.
theorem suits_bound {params : List Param} {args : List Expr} (hparams : ∀ p ∈ params, F.ident (Rust.Name.value p.name))
    (hargs : ∀ e ∈ args, e.Each (Suits F E)) :
    ∀ st ∈ substmtsList ((params.zip args).map fun (p, arg) => Stmt.decl {} [p] arg), SuitsStmt F E st := by
  induction params generalizing args with
  | nil => simp [substmtsList]
  | cons p params ih =>
      cases args with
      | nil => simp [substmtsList]
      | cons arg args =>
          obtain ⟨hp, hparams⟩ := List.forall_mem_cons.mp hparams
          obtain ⟨harg, hargs⟩ := List.forall_mem_cons.mp hargs
          refine suits_within ⟨?_, ?_, fun _ h => by cases h⟩ (ih hparams hargs)
          · exact List.forall_mem_singleton.mpr harg
          · exact List.forall_mem_singleton.mpr hp

theorem suits_guarded {body inner : Block} {calls : List ModifierCall}
    (hbody : ∀ st ∈ substmtsList body.stmts, SuitsStmt F E st) (hargs : ∀ m ∈ calls, ∀ e ∈ m.args, e.Each (Suits F E))
    (hguards : ∀ m ∈ calls, ∀ guard, E.contract.modifier? m.name = some guard → ∀ j ∈ guard.implementations,
      SuitsCode F E j) (hw : Writes (guarded body calls) E s inner s') :
    s' = s ∧ ∀ st ∈ substmtsList inner.stmts, SuitsStmt F E st := by
  induction calls generalizing inner s' with
  | nil =>
      obtain ⟨rfl, rfl⟩ := writes_pure.mp hw
      exact ⟨rfl, hbody⟩
  | cons call rest ih =>
      obtain ⟨hcall, hrest⟩ := List.forall_mem_cons.mp hargs
      obtain ⟨hguard, hguards⟩ := List.forall_mem_cons.mp hguards
      rw [guarded] at hw
      obtain ⟨inside, s₁, hwritten, hwith⟩ := writes_bind.mp hw
      obtain ⟨rfl, hinside⟩ := ih hrest hguards hwritten
      unfold guardWith at hwith
      obtain ⟨⟨modifier, code⟩, s₂, hfound, hfilled⟩ := writes_bind.mp hwith
      obtain ⟨rfl, hcode, m, hm, himpl⟩ := writes_of_modifierBody hfound
      have hmodifier := hguard m hm modifier himpl
      dsimp only at hfilled
      split at hfilled
      · obtain ⟨_, _, hthrow, -⟩ := writes_bind.mp hfilled
        exact absurd hthrow not_writes_throw
      · obtain ⟨rfl, rfl⟩ := writes_pure.mp hfilled
        refine ⟨rfl, ?_⟩
        rw [substmtsList_append]
        refine List.forall_mem_append.mpr ⟨suits_bound ?_ hcall, ?_⟩
        · exact (List.forall_mem_append.mp hmodifier.names).1
        · refine suits_fillStmts ?_ code.stmts (hmodifier.stmts code hcode)
          cases inside
          exact suits_within (suitsStmt_block _) hinside

-- Functions.

instance : Fitting Rust.Function := ⟨fun F g => ∀ code ∈ g.body, code.Fits F⟩

theorem conforms_declareParams {params : List Param} (hparams : ∀ p ∈ params, F.ident (Rust.Name.value p.name))
    (rparams : List Rust.Param) : @Conforms (List Rust.Param) (fittingOther _) F E (declareParams params rparams) := by
  induction params generalizing rparams with
  | nil => exact conforms_pure trivial
  | cons p params ih =>
      obtain ⟨hp, hparams⟩ := List.forall_mem_cons.mp hparams
      cases rparams with
      | nil => exact conforms_pure trivial
      | cons r rparams =>
          rw [declareParams]
          split
          · exact conforms_bind (ih hparams rparams) fun _ _ => conforms_pure trivial
          · refine conforms_bind (conforms_isMutated _) fun _ _ => conforms_bind (conforms_declare hp) fun _ _ => ?_
            exact conforms_bind (ih hparams rparams) fun _ _ => conforms_pure trivial

theorem conforms_declareResults (hF : Mild F E.target) {results : List Param}
    (hresults : ∀ p ∈ results, F.ident (Rust.Name.value p.name)) : Conforms F E (declareResults results) := by
  induction results with
  | nil => exact conforms_pure (List.forall_mem_nil _)
  | cons r results ih =>
      obtain ⟨hr, hresults⟩ := List.forall_mem_cons.mp hresults
      rw [declareResults]
      split
      · exact ih hresults
      · refine conforms_bind (conforms_typeText _) fun t _ => conforms_bind (conforms_zero hF _) fun z hz => ?_
        refine conforms_bind (conforms_isMutated _) fun _ _ => conforms_bind (conforms_declare hr) fun _ _ => ?_
        exact conforms_bind (ih hresults) fun more hmore =>
          conforms_pure (List.forall_mem_cons.mpr ⟨.letVar hz, hmore⟩)

-- A function that is told its caller may name it.
def TellsCaller (F : Rust.Form) (E : Env) (r : Routine) : Prop :=
  E.target = .soroban → r.caller = true → F.ident "caller"

theorem fits_requireAuth (hcaller : F.ident "caller") : Soroban.requireAuth.Fits F :=
  .expr (Rust.fits_method (.ident hcaller) _)

theorem conforms_preamble {r : Routine} (hr : TellsCaller F E r) : Conforms F E (preamble r) := by
  refine conforms_target_bind ?_
  cases ht : E.target with
  | ink v => exact conforms_pure (List.forall_mem_nil _)
  | soroban =>
      refine conforms_pure ?_
      dsimp only [fitting_stmts, Soroban.preamble]
      split
      · next h =>
          exact List.forall_mem_singleton.mpr (fits_requireAuth (hr ht (Bool.and_eq_true_iff.mp h).1))
      · exact List.forall_mem_nil _

theorem conforms_routineShell (r : Routine) : Conforms F E (routineShell r) := by
  refine conforms_target_bind ?_
  cases E.target with
  | ink v =>
      refine conforms_read_bind (conforms_bind (conforms_mapM (fun _ => conforms_ended _) _) fun _ _ => ?_)
      exact conforms_pure (by nofun)
  | soroban =>
      refine conforms_bind (conforms_use _) fun _ _ => ?_
      dsimp only
      split
      · exact conforms_bind (conforms_use _) fun _ _ => conforms_pure (by nofun)
      · exact conforms_pure (by nofun)

theorem fits_entered (exposed : Bool) (s : State) : State.Fits F { s with frame := { exposed := exposed } } := by
  intro scope hscope
  obtain rfl := List.mem_singleton.mp hscope
  exact ⟨by nofun, by nofun⟩

theorem Conforms.run {α : Type} [Fitting α] {act : Emit α} {a : α} (h : Conforms F E act) (hs : s.Fits F)
    (hw : Writes act E s a s') : Fitting.fits F a := (h s hs).2 a s' hw

-- What an implementation is written as, with the modifiers around it.
theorem fits_function (hE : Lawful F E) {r : Routine} {f : Function} {impl : Option Implementation} {g : Rust.Function}
    (hcode : ∀ i ∈ impl, ∀ j ∈ E.contract.guarded i, SuitsCode F E j)
    (hlength : ∀ i ∈ impl, i.params.length = r.params.length) (hr : TellsCaller F E r)
    (hw : Writes (function r f impl) E s g s') : ∀ code ∈ g.body, code.Fits F := by
  unfold function at hw
  split at hw
  · next i body hbody =>
      have hi : i.body = some body := by simpa using hbody
      have hself := hcode i rfl i List.mem_cons_self
      obtain ⟨hparams, hreturns⟩ := List.forall_mem_append.mp hself.names
      obtain ⟨_, s₁, henter, hw⟩ := writes_bind.mp hw
      obtain rfl := writes_modify.mp henter
      obtain ⟨inner, s₂, hguarded, hw⟩ := writes_bind.mp hw
      obtain ⟨rfl, hinner⟩ := suits_guarded (hself.stmts body hi) hself.args (fun m hm guard hguard j hj =>
        hcode i rfl j (mem_guarded.mpr (.inr ⟨m, hm, guard, hguard, hj⟩))) hguarded
      refine Conforms.run ?_ (fits_entered r.isExposed s) hw
      refine conforms_bind (conforms_modifyFrame fun _ => rfl) fun _ _ => ?_
      refine conforms_bind (conforms_declareParams (by rwa [if_pos (hlength i rfl)]) _) fun _ _ => ?_
      refine conforms_bind (conforms_routineShell _) fun shell _ => ?_
      refine conforms_bind (conforms_modifyFrame fun _ => rfl) fun _ _ => ?_
      refine conforms_bind (conforms_preamble hr) fun before hbefore => ?_
      refine conforms_bind (conforms_declareResults hE.mild hreturns) fun results hresults => ?_
      refine conforms_bind (conforms_stmts hE inner.stmts hinner) fun written hwritten => ?_
      have hstmts : ∀ st ∈ before ++ results ++ written, st.Fits F :=
        List.forall_mem_append.mpr ⟨List.forall_mem_append.mpr ⟨hbefore, hresults⟩, hwritten⟩
      split
      · refine conforms_pure ?_
        rintro code ⟨⟩
        exact .mk hstmts (by nofun)
      · refine conforms_bind (conforms_defaultResult hE) fun x hx => conforms_pure ?_
        rintro code ⟨⟩
        refine .mk hstmts ?_
        rintro y ⟨⟩
        exact .call (List.forall_mem_singleton.mpr hx)
  · exact absurd hw not_writes_throw

end RustContracts.Emit
