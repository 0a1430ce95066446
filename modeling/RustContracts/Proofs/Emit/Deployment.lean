import RustContracts.Proofs.Emit.Drain

-- Deployment: the constructor calls `_init`, which calls an initializer for each class with an argument for each of its
-- parameters.
namespace RustContracts.Emit

open Program
open Rust (CodeChecked)

variable {E : Env} {K : List (String × String)} {here : Bool} {H : Prop} {s s' : State} {v : Convention}

-- How the constructor calls `_init`.
def deployText (target : Target) (v : Convention) (xs : List Rust.Expr) : Rust.Expr :=
  match target with
  | .ink _ => (Rust.Expr.ident "contract").methodCall v.name xs
  | .soroban =>
    .callPath ("Self::" ++ v.name) (Soroban.env :: (if v.caller then [.ident "caller"] else []) ++ xs)

-- What a function passes on for a type: one of its own parameters of that type, or a variable that it binds to an
-- expression for it.
inductive Argument (E : Env) (g : Rust.Function) : Rust.Expr → Ty → Prop
  | param {p : Rust.Param} {t : Ty} (hp : p ∈ g.params) (ht : TypeText E t p.type) : Argument E g (.ident p.name) t
  | bound {code : Rust.Block} {ident : String} {e : Expr} {x : Rust.Expr} {t : Ty} (hcode : g.body = some code)
      (hx : Rust.Stmt.letVar false ident "" (some x) ∈ code.stmts) (h : Operand E e x t) :
      Argument E g (.ident ident) t

-- Arguments for base constructors.

-- The variables that stand for the parameters of a class's constructor.
def BindsParams (E : Env) (code : List Rust.Stmt) (bound : List BoundArg) (params : List Param) : Prop :=
  List.Forall₂ (fun b p => ∃ e x, Rust.Stmt.letVar false b.ident "" (some x) ∈ code ∧ Operand E e x p.type)
    bound params

theorem BindsParams.mono {code code' : List Rust.Stmt} {bound : List BoundArg} {params : List Param}
    (h : BindsParams E code bound params) (hsubset : code ⊆ code') : BindsParams E code' bound params :=
  h.imp fun _ _ ⟨e, x, hx, hoperand⟩ => ⟨e, x, hsubset hx, hoperand⟩

theorem binds_bindArgs {base : String} {i : Nat} {params : List Param} {args : List Expr}
    (hlength : args.length = params.length) {written : List Rust.Stmt × List BoundArg}
    (hw : Writes (bindArgs base i params args) E s written s') :
    BindsParams E written.1 written.2 params ∧ ∀ b ∈ written.2, b.base = base := by
  induction params generalizing i args written s s' with
  | nil =>
      obtain ⟨rfl, -⟩ := writes_pure.mp hw
      exact ⟨.nil, by simp⟩
  | cons p params ih =>
      cases args with
      | nil => cases hlength
      | cons arg args =>
          rw [bindArgs] at hw
          obtain ⟨x, s₁, hx, hw⟩ := writes_bind.mp hw
          obtain ⟨⟨stmts, bound⟩, s₂, hmore, hw⟩ := writes_bind.mp hw
          obtain ⟨rfl, -⟩ := writes_pure.mp hw
          obtain ⟨hbinds, hbase⟩ := ih (by simpa using hlength) hmore
          refine ⟨.cons ⟨arg, x, List.mem_cons_self, operand_of_exprAs hx⟩ ?_, List.forall_mem_cons.mpr ⟨rfl, hbase⟩⟩
          exact hbinds.mono fun st hst => List.mem_cons_of_mem _ hst

theorem links_bindArgs (hE : Sourced E) (base : String) (i : Nat) (params : List Param) {args : List Expr}
    (hargs : ∀ e ∈ args, e.From E.package) : Links E K here H (bindArgs base i params args) := by
  induction params generalizing i args H with
  | nil => exact links_pure fun _ => ⟨trivial, trivial⟩
  | cons p params ih =>
      cases args with
      | nil => exact links_pure fun _ => ⟨trivial, trivial⟩
      | cons arg args =>
          obtain ⟨harg, hargs⟩ := List.forall_mem_cons.mp hargs
          rw [bindArgs]
          refine links_bind (links_exprAs hE _ harg) fun x => links_bind (ih _ hargs) fun more => links_pure fun h => ?_
          exact ⟨⟨h.1.2, h.2.1⟩, trivial⟩

theorem links_forM {γ : Type} {f : γ → Emit PUnit} (hf : ∀ x H, Links E K here H (f x)) (xs : List γ) :
    Links E K here H (xs.forM f) := by
  induction xs generalizing H with
  | nil => exact links_pure fun _ => trivial
  | cons x xs ih => exact links_bind (hf x H) fun _ => ih

theorem links_declareGiver (bound : List BoundArg) (giver : String) : Links E K here H (declareGiver bound giver) := by
  refine links_read_bind ?_
  dsimp only
  split
  · refine links_forM (fun p H => ?_) _
    split
    · exact links_declare _ _
    · exact links_pure fun _ => trivial
  · exact links_pure fun _ => trivial

-- A step in a scope of its own.

def State.opened (s : State) : State := { s with frame := { s.frame with scopes := {} :: s.frame.scopes } }

def State.closed (s : State) : State := { s with frame := { s.frame with scopes := s.frame.scopes.tail } }

theorem writes_scoped {α : Type} {act : Emit α} {a : α} (hw : Writes (inScope act) E s a s') :
    ∃ t, Writes act E s.opened a t ∧ s' = t.closed := by
  obtain ⟨_, t, hopen, hw⟩ := writes_bind.mp hw
  obtain rfl := writes_modify.mp hopen
  obtain ⟨b, t, hact, hw⟩ := writes_bind.mp hw
  obtain ⟨_, t', hclose, hw⟩ := writes_bind.mp hw
  obtain rfl := writes_modify.mp hclose
  obtain ⟨rfl, rfl⟩ := writes_pure.mp hw
  exact ⟨t, hact, rfl⟩

section BaseArgs

variable {calls : List BaseCall} {bound : List BoundArg} {classes : List Contract}

theorem links_bindBaseArgs (hE : Sourced E) (hcalls : ∀ call ∈ calls, ∀ e ∈ call.args, e.From E.package) :
    Links E K here H (bindBaseArgs calls bound classes) := by
  induction classes generalizing bound H with
  | nil => exact links_pure fun _ => ⟨trivial, trivial⟩
  | cons c rest ih =>
      rw [bindBaseArgs]
      dsimp only
      split
      · split
        · exact links_throw_bind _ _
        · exact ih
      · exact ih
      · split
        · exact ih
        · split
          · exact links_read_bind (links_throw _)
          · next call hcall =>
              split
              · exact links_throw_bind _ _
              · have hargs := hcalls call (List.mem_of_find?_eq_some hcall)
                refine links_bind (links_inScope fun H => ?_) fun w => ?_
                · exact links_bind (links_declareGiver _ _) fun _ => links_bindArgs hE _ _ _ hargs
                · refine links_bind ih fun w' => links_pure fun h => ?_
                  exact ⟨Rust.codeChecked_append.mpr ⟨h.1.2.1, h.2.1⟩, trivial⟩

theorem constructorParams_of_none {c : Contract} (h : c.constructor = none) : constructorParams c = [] := by
  rw [constructorParams, constructorImpl?, h]
  rfl

theorem filter_base_of_fresh {names : List String} {name : String} (hbases : ∀ b ∈ bound, b.base ∈ names)
    (hfresh : name ∉ names) : bound.filter (·.base = name) = [] := by
  rw [List.filter_eq_nil_iff]
  intro b hb hname
  exact hfresh (of_decide_eq_true hname ▸ hbases b hb)

-- A class whose constructor has no parameters is passed over; for any other the most derived class that gives arguments
-- gives one for each parameter.
theorem writes_bindBaseArgs_cons {c : Contract} {rest : List Contract} {written : List Rust.Stmt × List BoundArg}
    (hw : Writes (bindBaseArgs calls bound (c :: rest)) E s written s') :
    (constructorParams c = [] ∧ Writes (bindBaseArgs calls bound rest) E s written s') ∨
    ∃ call t stmts own t' later all, constructorParams c ≠ [] ∧ calls.find? (·.base = c.name) = some call ∧
      call.args.length = (constructorParams c).length ∧
      Writes (declareGiver bound call.declarer) E s.opened () t ∧
      Writes (bindArgs c.name 0 (constructorParams c) call.args) E t (stmts, own) t' ∧
      Writes (bindBaseArgs calls (bound ++ own) rest) E t'.closed (later, all) s' ∧ written = (stmts ++ later, all) := by
  rw [bindBaseArgs] at hw
  dsimp only at hw
  split at hw
  · next hconstructor _ =>
      split at hw
      · obtain ⟨_, _, hthrow, -⟩ := writes_bind.mp hw
        exact absurd hthrow not_writes_throw
      · exact .inl ⟨constructorParams_of_none hconstructor, hw⟩
  · next hconstructor _ => exact .inl ⟨constructorParams_of_none hconstructor, hw⟩
  · split at hw
    · next hempty => exact .inl ⟨List.isEmpty_iff.mp hempty, hw⟩
    · next hempty =>
          have hparams : constructorParams c ≠ [] := fun h => hempty (List.isEmpty_iff.mpr h)
          split at hw
          · obtain ⟨_, _, _, hthrow⟩ := writes_bind.mp hw
            exact absurd hthrow not_writes_throw
          · next call hcall =>
              split at hw
              · obtain ⟨_, _, hthrow, -⟩ := writes_bind.mp hw
                exact absurd hthrow not_writes_throw
              · next hlength =>
                  obtain ⟨⟨stmts, own⟩, s₁, hscope, hw⟩ := writes_bind.mp hw
                  obtain ⟨⟨later, all⟩, s₂, hlater, hw⟩ := writes_bind.mp hw
                  obtain ⟨rfl, rfl⟩ := writes_pure.mp hw
                  obtain ⟨t', hinside, rfl⟩ := writes_scoped hscope
                  obtain ⟨_, t, hgiver, hown⟩ := writes_bind.mp hinside
                  refine .inr ⟨call, t, stmts, own, t', later, all, hparams, hcall, ?_, hgiver, hown, hlater, rfl⟩
                  simpa using hlength

-- The variables for a class are those of its own, since no other class has its name.
theorem binds_bindBaseArgs (hnodup : (classes.map (·.name)).Nodup) {written : List Rust.Stmt × List BoundArg}
    (hw : Writes (bindBaseArgs calls bound classes) E s written s') :
    ∃ more, written.2 = bound ++ more ∧ (∀ b ∈ more, b.base ∈ classes.map (·.name)) ∧
      ∀ c ∈ classes, BindsParams E written.1 (more.filter (·.base = c.name)) (constructorParams c) := by
  induction classes generalizing bound written s with
  | nil =>
      obtain ⟨rfl, -⟩ := writes_pure.mp hw
      exact ⟨[], by simp, by simp, by simp⟩
  | cons c rest ih =>
      obtain ⟨hfresh, hnodup⟩ := List.nodup_cons.mp hnodup
      rcases writes_bindBaseArgs_cons hw with ⟨hparams, hw⟩ |
        ⟨call, t, stmts, own, t', later, all, -, -, hlength, -, hown, hlater, rfl⟩
      · obtain ⟨more, heq, hbases, hbinds⟩ := ih hnodup hw
        have hnone := filter_base_of_fresh hbases hfresh
        refine ⟨more, heq, fun b hb => List.mem_cons_of_mem _ (hbases b hb), List.forall_mem_cons.mpr ⟨?_, hbinds⟩⟩
        rw [hnone, hparams]
        exact .nil
      · obtain ⟨hbinds, hbase⟩ := binds_bindArgs hlength hown
        obtain ⟨more, heq, hbases, hmore⟩ := ih hnodup hlater
        have hnone := filter_base_of_fresh hbases hfresh
        refine ⟨own ++ more, by rw [heq, List.append_assoc], ?_, List.forall_mem_cons.mpr ⟨?_, fun k hk => ?_⟩⟩
        · refine List.forall_mem_append.mpr ⟨fun b hb => ?_, fun b hb => List.mem_cons_of_mem _ (hbases b hb)⟩
          exact hbase b hb ▸ List.mem_cons_self
        · have hall : own.filter (·.base = c.name) = own :=
            List.filter_eq_self.mpr fun b hb => decide_eq_true (hbase b hb)
          rw [List.filter_append, hall, hnone, List.append_nil]
          exact hbinds.mono (List.subset_append_left _ _)
        · have hothers : own.filter (·.base = k.name) = [] :=
            filter_base_of_fresh (fun b hb => List.mem_singleton.mpr (hbase b hb)) fun hname =>
              hfresh (List.mem_map.mpr ⟨k, hk, List.mem_singleton.mp hname⟩)
          rw [List.filter_append, hothers, List.nil_append]
          exact (hmore k hk).mono (List.subset_append_right _ _)

end BaseArgs

-- Initializers.

def initConvention (E : Env) : Convention :=
  ⟨"_init", false, E.package.constructorNeedsCaller E.contract, (constructorParams E.contract).map Param.type⟩

def classConvention (E : Env) (c : Contract) : Convention :=
  ⟨"_init_" ++ trimRaw (Rust.Name.value c.name), false, E.package.constructorNeedsCaller E.contract,
    (constructorParams c).map Param.type⟩

theorem describes_initRoutine {c : Contract} {r : Routine}
    (hw : Writes (initRoutine c (E.package.constructorNeedsCaller E.contract)) E s r s') :
    Describes E (classConvention E c) r := by
  obtain ⟨params, s₁, hparams, hw⟩ := writes_bind.mp hw
  obtain ⟨rfl, -⟩ := writes_pure.mp hw
  exact ⟨rfl, rfl, rfl, types_rustParams hparams⟩

-- The call of each class's initializer.
theorem writes_initCalls {main : Contract} {bound : List BoundArg} {classes : List Contract}
    {written : List Rust.Stmt × List (Contract × Routine)} (hs : s.frame.exposed = false)
    (hw : Writes (initCalls main bound (E.package.constructorNeedsCaller E.contract) classes) E s written s') :
    s'.frame.exposed = false ∧ Growth E s s' ∧
      written.1 = classes.map (fun c =>
        .expr (.tryOp (callText E.target false (classConvention E c) (initArgs main bound c)))) ∧
      List.Forall₂ (fun c cr => cr.1 = c ∧ Describes E (classConvention E c) cr.2) classes written.2 := by
  induction classes generalizing s written with
  | nil =>
      obtain ⟨rfl, rfl⟩ := writes_pure.mp hw
      exact ⟨hs, .refl s, rfl, .nil⟩
  | cons c rest ih =>
      rw [initCalls] at hw
      obtain ⟨r, s₁, hr, hw⟩ := writes_bind.mp hw
      obtain ⟨x, s₂, hx, hw⟩ := writes_bind.mp hw
      obtain ⟨⟨stmts, routines⟩, s₃, hmore, hw⟩ := writes_bind.mp hw
      obtain ⟨rfl, rfl⟩ := writes_pure.mp hw
      obtain ⟨hs₁, hgrowth, -⟩ := Links.run
        (fun K => links_bind (links_rustParams _) fun _ => links_pure fun _ => trivial) hs hr
      have hdescribes := describes_initRoutine hr
      obtain ⟨rfl, rfl⟩ := writes_invoke (classConvention E c).types hx
      obtain ⟨hs', hgrowth', hstmts, hroutines⟩ := ih hs₁ hmore
      refine ⟨hs', hgrowth.trans hgrowth', ?_, .cons ⟨rfl, hdescribes⟩ hroutines⟩
      rw [List.map_cons, ← hstmts, hs₁, hdescribes.name, hdescribes.exposed, hdescribes.caller]

theorem from_fieldInits {c : Contract} (hc : c ∈ E.package.classes) :
    ∀ e ∈ (fieldInits c).flatMap Stmt.exprs, e.From E.package := by
  intro e he
  obtain ⟨st, hst, he⟩ := List.mem_flatMap.mp he
  obtain ⟨f, hf, hst⟩ := List.mem_filterMap.mp hst
  obtain ⟨v, hv, rfl⟩ := Option.map_eq_some_iff.mp hst
  have hexprs : e = .field {} f.toFieldDecl ∨ e = v := by
    simpa [Stmt.exprs, Stmt.substmts, Stmt.directExprs] using he
  rcases hexprs with rfl | rfl
  · exact (Expr.from_iff rfl).mpr (by simp [Expr.children])
  · refine Package.from_class hc ?_
    simp only [ContractDecl.exprs, List.mem_append, List.mem_flatMap]
    exact .inl (.inl (.inr ⟨f, hf, Option.mem_toList.mpr hv⟩))

theorem from_constructor {c : Contract} (hc : c ∈ E.package.classes) {i : Implementation}
    (hi : constructorImpl? c = some i) : ∀ e ∈ i.exprs, e.From E.package := by
  obtain ⟨f, hf, hi⟩ := Option.bind_eq_some_iff.mp hi
  refine fun e he => Package.from_class hc (ContractDecl.mem_exprs ?_ (mem_of_primary? hi) he)
  simp [hf]

-- The initializer of a class in two steps: the code of its constructor, and the function around it.

def constructorCode (c : Contract) : Emit (List Stmt) :=
  match constructorImpl? c, (constructorImpl? c).bind (·.body) with
  | some i, some b => do
    let inner ← guarded b i.modifiers
    return inner.stmts
  | _, _ => return []

def initializer (c : Contract) (r : Routine) (body : List Stmt) : Emit Rust.Function := do
  let all : Block := { start := {}, stmts := fieldInits c ++ body }
  modifyFrame fun fr => { fr with mutated := mutatedVars all }
  let params ← declareParams (constructorParams c) r.params
  let r := { r with params := params }
  let shell ← routineShell r
  let written ← stmts all.stmts
  let tail := if all.endsInReturn then none else some (Rust.Expr.callPath "Ok" [.lit "()"])
  let before ← preamble r
  return { shell with body := some ⟨before ++ written, tail⟩ }

theorem classInit_eq (c : Contract) (r : Routine) :
    classInit c r = enter false >>= fun _ => constructorCode c >>= initializer c r := by
  unfold classInit constructorCode initializer constructorParams
  generalize constructorImpl? c = impl
  cases impl with
  | none => rfl
  | some i => cases hb : i.body <;> simp [hb]

theorem from_constructorCode (hE : Sourced E) {c : Contract} (hc : c ∈ E.package.classes) {body : List Stmt}
    (hw : Writes (constructorCode c) E s body s') : s' = s ∧ ∀ e ∈ body.flatMap Stmt.exprs, e.From E.package := by
  unfold constructorCode at hw
  split at hw
  · next i b hi hb =>
      have hfrom := from_constructor hc hi
      obtain ⟨inner, s₁, hguarded, hw⟩ := writes_bind.mp hw
      obtain ⟨rfl, rfl⟩ := writes_pure.mp hw
      rw [hi, Option.bind_some] at hb
      rw [← Block.exprs_eq]
      exact from_guarded hE (fun e he => hfrom e (List.mem_append_left _ (by simpa [hb] using he)))
        (fun m hm e he => hfrom e (List.mem_append_right _ (List.mem_flatMap.mpr ⟨m, hm, he⟩))) hguarded
  · obtain ⟨rfl, rfl⟩ := writes_pure.mp hw
    exact ⟨rfl, by simp⟩

theorem shell_of_classInit {c : Contract} {r : Routine} {g : Rust.Function} (hw : Writes (classInit c r) E s g s') :
    ∃ declared shell code s₁ s₂ s₃, Writes (declareParams (constructorParams c) r.params) E s₁ declared s₂ ∧
      Writes (routineShell { r with params := declared }) E s₂ shell s₃ ∧ g = { shell with body := some code } := by
  rw [classInit_eq] at hw
  obtain ⟨_, _, -, hw⟩ := writes_bind.mp hw
  obtain ⟨body, _, -, hw⟩ := writes_bind.mp hw
  obtain ⟨_, s₁, -, hw⟩ := writes_bind.mp hw
  obtain ⟨declared, s₂, hdeclare, hw⟩ := writes_bind.mp hw
  obtain ⟨shell, s₃, hshell, hw⟩ := writes_bind.mp hw
  obtain ⟨written, _, -, hw⟩ := writes_bind.mp hw
  obtain ⟨before, _, -, hw⟩ := writes_bind.mp hw
  obtain ⟨rfl, -⟩ := writes_pure.mp hw
  exact ⟨declared, shell, _, s₁, s₂, s₃, hdeclare, hshell, rfl⟩

theorem emitted_classInit (hE : Sourced E) {c : Contract} (hc : c ∈ E.package.classes) {r : Routine}
    {g : Rust.Function} (hr : Describes E (classConvention E c) r) (hw : Writes (classInit c r) E s g s') :
    Growth E s s' ∧ ∀ K, s'.helperNames ⊆ K → Emitted E K (classConvention E c) g := by
  obtain ⟨_, shell, code, _, _, _, hdeclare, hshell, hg⟩ := shell_of_classInit hw
  rw [classInit_eq] at hw
  obtain ⟨u, s₁, henter, hw⟩ := writes_bind.mp hw
  obtain rfl := writes_modify.mp henter
  obtain ⟨body, s₂, hbody, hw⟩ := writes_bind.mp hw
  obtain ⟨rfl, hfrom⟩ := from_constructorCode hE hc hbody
  have hall : ∀ e ∈ (Block.mk {} (fieldInits c ++ body) false).exprs, e.From E.package := by
    rw [Block.exprs_eq, List.flatMap_append]
    exact List.forall_mem_append.mpr ⟨from_fieldInits hc, hfrom⟩
  obtain ⟨-, hgrowth, hchecked⟩ : s'.frame.exposed = false ∧ Growth E s s' ∧
      ∀ K, s'.helperNames ⊆ K → ∀ code ∈ g.body, code.Checked (Site E K false) := by
    refine Links.run (fun K => ?_) rfl hw
    refine links_bind (links_modifyFrame fun _ => rfl) fun _ => links_bind (links_declareParams _ _) fun _ => ?_
    refine links_bind (links_routineShell _) fun shell => ?_
    refine links_bind (links_stmts hE _ _ (from_substmts hall)) fun written => ?_
    refine links_bind (links_preamble _) fun before => links_pure fun h code hcode => ?_
    cases hcode
    refine ⟨Rust.codeChecked_append.mpr ⟨h.2, h.1.2⟩, ?_⟩
    split
    · trivial
    · exact ⟨trivial, trivial, trivial⟩
  refine ⟨hgrowth, fun K hK => ⟨hg ▸ ?_, hchecked K hK⟩⟩
  exact (declares_routineShell (hr.with_params (types_declareParams hdeclare)) hshell).with_body (some code)

theorem emitted_classInits (hE : Sourced E) {classes : List Contract} {routines : List (Contract × Routine)}
    {gs : List Rust.Function} (hclasses : ∀ c ∈ classes, c ∈ E.package.classes)
    (hroutines : List.Forall₂ (fun c cr => cr.1 = c ∧ Describes E (classConvention E c) cr.2) classes routines)
    (hw : Writes (classInits routines) E s gs s') :
    Growth E s s' ∧ ∀ K, s'.helperNames ⊆ K →
      List.Forall₂ (fun c => Emitted E K (classConvention E c)) classes gs := by
  induction hroutines generalizing s gs with
  | nil =>
      obtain ⟨rfl, rfl⟩ := writes_pure.mp hw
      exact ⟨.refl s, fun _ _ => .nil⟩
  | @cons c cr classes routines hr _ ih =>
      obtain ⟨c, r⟩ := cr
      obtain ⟨rfl, hr⟩ := hr
      obtain ⟨hc, hclasses⟩ := List.forall_mem_cons.mp hclasses
      rw [classInits] at hw
      obtain ⟨g, s₁, hg, hw⟩ := writes_bind.mp hw
      obtain ⟨more, s₂, hmore, hw⟩ := writes_bind.mp hw
      obtain ⟨rfl, rfl⟩ := writes_pure.mp hw
      obtain ⟨hgrowth, hemitted⟩ := emitted_classInit hE hc hr hg
      obtain ⟨hgrowth', hgs⟩ := ih hclasses hmore
      exact ⟨hgrowth.trans hgrowth', fun K hK => .cons (hemitted K (List.Subset.trans hgrowth'.subset hK)) (hgs K hK)⟩

-- What is called at deployment.

-- Parameters are arguments for their own types.
theorem arguments_params {g : Rust.Function} {ps : List Rust.Param} {types : List Ty} (hps : ps ⊆ g.params)
    (h : List.Forall₂ (TypeText E) types (ps.map (·.type))) :
    List.Forall₂ (Argument E g) (ps.map fun p => .ident p.name) types := by
  induction ps generalizing types with
  | nil =>
      cases h
      exact .nil
  | cons p ps ih =>
      obtain ⟨hp, hps⟩ := List.cons_subset.mp hps
      rcases h with _ | ⟨ht, h⟩
      exact .cons (.param hp ht) (ih hps h)

theorem arguments_bound {g : Rust.Function} {code : Rust.Block} {bound : List BoundArg} {params : List Param}
    (hg : g.body = some code) (h : BindsParams E code.stmts bound params) :
    List.Forall₂ (Argument E g) (bound.map fun b => .ident b.ident) (params.map Param.type) := by
  rw [List.forall₂_map_left_iff, List.forall₂_map_right_iff]
  exact h.imp fun b p ⟨e, x, hx, hoperand⟩ => .bound hg hx hoperand

theorem names_rustParams {params : List Param} {rparams : List Rust.Param}
    (hw : Writes (rustParams params) E s rparams s') :
    rparams.map (fun p => Rust.Expr.ident p.name) = params.zipIdx.map fun (p, i) => .ident (paramName p i) := by
  unfold rustParams at hw
  generalize params.zipIdx = indexed at hw
  induction indexed generalizing s rparams with
  | nil =>
      obtain ⟨rfl, -⟩ := writes_pure.mp hw
      rfl
  | cons pi indexed ih =>
      rw [List.mapM_cons] at hw
      obtain ⟨rparam, s₁, hrparam, hw⟩ := writes_bind.mp hw
      obtain ⟨more, s₂, hmore, hw⟩ := writes_bind.mp hw
      obtain ⟨rfl, rfl⟩ := writes_pure.mp hw
      obtain ⟨text, s₃, htext, hrparam⟩ := writes_bind.mp hrparam
      obtain ⟨rfl, -⟩ := writes_pure.mp hrparam
      rw [List.map_cons, List.map_cons, ih hmore]

theorem params_routineShell {r : Routine} {g : Rust.Function} (hw : Writes (routineShell r) E s g s') :
    r.params ⊆ g.params := by
  rw [(writes_routineShell hw).params]
  exact List.subset_append_right _ _

def constructorName : Target → String
  | .ink _ => "new"
  | .soroban => "__constructor"

-- A call of `_init` with an argument for each of its parameters.
def CallsInit (E : Env) (g : Rust.Function) (y : Rust.Expr) : Prop :=
  ∃ xs, y = deployText E.target (initConvention E) xs ∧ List.Forall₂ (Argument E g) xs (initConvention E).types

theorem allChecked_idents {Q : Rust.Expr → Prop} {γ : Type} (name : γ → String) (xs : List γ) :
    Rust.AllChecked Q (xs.map fun x => .ident (name x)) := by
  rw [Rust.allChecked_iff]
  intro x hx
  obtain ⟨_, -, rfl⟩ := List.mem_map.mp hx
  trivial

theorem checked_initArgs {Q : Rust.Expr → Prop} (main : Contract) (bound : List BoundArg) (c : Contract) :
    Rust.AllChecked Q (initArgs main bound c) := by
  unfold initArgs
  split
  · exact allChecked_idents (fun pi : Param × Nat => paramName pi.1 pi.2) _
  · exact allChecked_idents _ _

theorem links_constructors (init : Option Routine) : Links E K here H (constructors init) := by
  refine links_bind links_target fun t => ?_
  cases t with
  | ink v =>
      refine links_read_bind ?_
      cases init <;> exact links_pure fun _ => trivial
  | soroban =>
      cases init with
      | none => exact links_pure fun _ => trivial
      | some r =>
          refine links_bind (links_use _) fun _ => links_bind (links_use _) fun _ => ?_
          dsimp only
          split
          · exact links_bind (links_use _) fun _ => links_pure fun _ => trivial
          · exact links_pure fun _ => trivial

theorem callsInit_constructors {init : Routine} {gs : List Rust.Function} (hinit : Describes E (initConvention E) init)
    (hw : Writes (constructors (some init)) E s gs s') :
    ∃ d, gs = [d] ∧ d.name = constructorName E.target ∧ d.isPublic = true ∧
      ∀ code ∈ d.body, code.Checked (CallsInit E d) := by
  have hcalls (d : Rust.Function) (hd : init.params ⊆ d.params) :
      CallsInit E d (deployText E.target (initConvention E) (init.params.map fun p => .ident p.name)) :=
    ⟨_, rfl, arguments_params hd hinit.types⟩
  unfold constructors at hw
  rw [writes_of_target] at hw
  cases ht : E.target with
  | ink version =>
      rw [ht] at hw hcalls
      simp only [Ink.constructors, writes_bind, writes_read, writes_pure] at hw
      obtain ⟨_, _, ⟨rfl, rfl⟩, rfl, rfl⟩ := hw
      refine ⟨_, rfl, rfl, rfl, fun code hcode => ?_⟩
      cases hcode
      refine ⟨⟨trivial, ⟨?_, trivial, allChecked_idents _ _⟩, trivial⟩, trivial, trivial, trivial⟩
      rw [hinit.name]
      exact hcalls _ (List.Subset.refl _)
  | soroban =>
      rw [ht] at hw hcalls
      have hpath : "Self::" ++ init.name = "Self::" ++ (initConvention E).name := by rw [hinit.name]
      simp only [deployText, ← hpath, ← hinit.caller] at hcalls
      have hstop (Q : Rust.Expr → Prop) :
          (Rust.Block.mk [.expr (.bangCall "panic_with_error" [Soroban.env, .ident "e"])] none).Checked Q :=
        ⟨⟨⟨trivial, trivial, trivial⟩, trivial⟩, trivial⟩
      simp only [Soroban.constructors] at hw
      obtain ⟨_, _, -, hw⟩ := writes_bind.mp hw
      obtain ⟨_, _, -, hw⟩ := writes_bind.mp hw
      split at hw
      · next hcaller =>
          obtain ⟨_, _, -, hw⟩ := writes_bind.mp hw
          obtain ⟨rfl, -⟩ := writes_pure.mp hw
          refine ⟨_, rfl, rfl, rfl, fun code hcode => ?_⟩
          cases hcode
          simp only [hcaller, if_true] at hcalls ⊢
          refine ⟨⟨⟨trivial, trivial⟩, ⟨fun _ => ?_, ?_, hstop _, trivial⟩, trivial⟩, trivial⟩
          · exact hcalls _ (List.subset_cons_of_subset _ (List.subset_append_right _ _))
          · exact ⟨trivial, trivial, allChecked_idents _ _⟩
      · next hcaller =>
          obtain ⟨rfl, -⟩ := writes_pure.mp hw
          refine ⟨_, rfl, rfl, rfl, fun code hcode => ?_⟩
          cases hcode
          simp only [hcaller] at hcalls ⊢
          refine ⟨⟨⟨fun _ => ?_, ?_, hstop _, trivial⟩, trivial⟩, trivial⟩
          · exact hcalls _ (List.subset_cons_of_subset _ (List.subset_append_right _ _))
          · exact ⟨trivial, trivial, allChecked_idents _ _⟩

-- The classes that have an initializer, base classes first.
def initClasses (E : Env) : List Contract := ((E.package.chainOf E.contract).filter needsInit).reverse

-- Whether there is anything to run.
def runsInit (E : Env) : Bool :=
  !(((E.package.chainOf E.contract).filter needsInit).isEmpty && (constructorParams E.contract).isEmpty &&
    (baseCallsOf (E.package.chainOf E.contract)).all (·.args.isEmpty))

-- A call of a class's initializer with an argument for each parameter of its constructor.
def CallsClassInit (E : Env) (g : Rust.Function) (y : Rust.Expr) : Prop :=
  ∃ c ∈ initClasses E, ∃ xs, y = callText E.target false (classConvention E c) xs ∧
    List.Forall₂ (Argument E g) xs (classConvention E c).types

-- What is written for deployment: the constructor with nothing to run, or the constructor, `_init` and the initializers.
inductive Deployed (E : Env) (K : List (String × String)) : List Rust.Function → List Rust.Function → Prop
  | plain {gs : List Rust.Function} (hruns : runsInit E = false)
      (hnames : gs.map (·.name) = match E.target with
        | .ink _ => [constructorName E.target]
        | .soroban => [])
      (hcode : ∀ g ∈ gs, ∀ code ∈ g.body, code.Checked fun _ => False) : Deployed E K gs []
  | init {d i : Rust.Function} {inits : List Rust.Function} (hruns : runsInit E = true)
      (hname : d.name = constructorName E.target) (hpublic : d.isPublic = true)
      (hd : ∀ code ∈ d.body, code.Checked (CallsInit E d))
      (hi : Declares E (initConvention E) i)
      (hbody : ∀ code ∈ i.body, code.Checked fun y => Site E K false y ∨ CallsClassInit E i y)
      (hinits : List.Forall₂ (fun c => Emitted E K (classConvention E c)) (initClasses E) inits) :
      Deployed E K [d] (i :: inits)

theorem deployed_plain {gs : List Rust.Function} (hruns : runsInit E = false)
    (hw : Writes (constructors none) E s gs s') : Deployed E K gs [] := by
  unfold constructors at hw
  rw [writes_of_target] at hw
  cases ht : E.target with
  | ink version =>
      rw [ht] at hw
      simp only [Ink.constructors, writes_bind, writes_read, writes_pure] at hw
      obtain ⟨_, _, ⟨rfl, rfl⟩, rfl, rfl⟩ := hw
      refine .plain hruns (by rw [ht]; rfl) fun g hg code hcode => ?_
      obtain rfl := List.mem_singleton.mp hg
      cases hcode
      exact ⟨trivial, trivial⟩
  | soroban =>
      rw [ht] at hw
      obtain ⟨rfl, -⟩ := writes_pure.mp hw
      exact .plain hruns (by rw [ht]; rfl) (by simp)

-- The initializer of the contract itself gets the parameters of `_init`, that of a base what is bound for it.
theorem arguments_initArgs (hE : Sourced E) {g : Rust.Function} {code : Rust.Block}
    {bound : List BoundArg} (hg : g.body = some code)
    (hparams : List.Forall₂ (Argument E g) ((constructorParams E.contract).zipIdx.map fun (p, i) =>
      .ident (paramName p i)) ((constructorParams E.contract).map Param.type))
    (hbound : ∀ c ∈ (E.package.chainOf E.contract).drop 1,
      BindsParams E code.stmts (bound.filter (·.base = c.name)) (constructorParams c))
    {c : Contract} (hc : c ∈ initClasses E) :
    List.Forall₂ (Argument E g) (initArgs E.contract bound c) (classConvention E c).types := by
  obtain ⟨bases, hchain⟩ := hE.chain
  have hnodup := hE.chain_nodup
  have hmem : c ∈ E.package.chainOf E.contract := List.mem_of_mem_filter (List.mem_reverse.mp hc)
  rw [hchain] at hnodup hmem hbound
  unfold initArgs
  split
  · next hname =>
      have hmain : c = E.contract := by
        refine (List.mem_cons.mp hmem).resolve_right fun hbase => (List.nodup_cons.mp hnodup).1 ?_
        exact List.mem_map.mpr ⟨c, hbase, hname⟩
      rw [hmain]
      exact hparams
  · next hname =>
      have hbase : c ∈ bases := (List.mem_cons.mp hmem).resolve_left fun h => hname (h ▸ rfl)
      exact arguments_bound hg (hbound c hbase)

theorem from_baseCalls : ∀ call ∈ baseCallsOf (E.package.chainOf E.contract), ∀ e ∈ call.args, e.From E.package := by
  intro call hcall e he
  obtain ⟨k, hk, hcall⟩ := List.mem_flatMap.mp hcall
  refine Package.from_class (mem_of_chainOf hk) ?_
  simp only [ContractDecl.exprs, List.mem_append, List.mem_flatMap]
  exact .inr ⟨call, hcall, he⟩

theorem emitted_deployment (hE : Sourced E) {written : List Rust.Function × List Rust.Function}
    (hw : Writes deployment E s written s') :
    Growth E s s' ∧ ∀ K, s'.helperNames ⊆ K → Deployed E K written.1 written.2 := by
  unfold deployment at hw
  obtain ⟨env, s₁, henv, hw⟩ := writes_bind.mp hw
  obtain ⟨rfl, rfl⟩ := writes_read.mp henv
  dsimp only at hw
  split at hw
  · next hnothing =>
      obtain ⟨gs, s₂, hgs, hw⟩ := writes_bind.mp hw
      obtain ⟨rfl, rfl⟩ := writes_pure.mp hw
      refine ⟨Links.growth (fun _ _ => links_constructors _) hgs, fun K _ => deployed_plain ?_ hgs⟩
      rw [runsInit, hnothing, Bool.not_true]
  · next hsomething =>
      obtain ⟨rparams, s₂, hrparams, hw⟩ := writes_bind.mp hw
      obtain ⟨_, s₃, henter, hw⟩ := writes_bind.mp hw
      obtain rfl := writes_modify.mp henter
      obtain ⟨_, s₄, hdeclare, hw⟩ := writes_bind.mp hw
      obtain ⟨⟨binds, bound⟩, s₅, hbinds, hw⟩ := writes_bind.mp hw
      obtain ⟨⟨runs, routines⟩, s₆, hruns, hw⟩ := writes_bind.mp hw
      obtain ⟨shell, s₇, hshell, hw⟩ := writes_bind.mp hw
      obtain ⟨inits, s₈, hinits, hw⟩ := writes_bind.mp hw
      obtain ⟨gs, s₉, hgs, hw⟩ := writes_bind.mp hw
      obtain ⟨rfl, rfl⟩ := writes_pure.mp hw
      have hclasses : ∀ c ∈ initClasses E, c ∈ E.package.classes := fun c hc =>
        mem_of_chainOf (List.mem_of_mem_filter (List.mem_reverse.mp hc))
      -- What is asked for along the way.
      have hgrowth₂ : Growth E s s₂ := Links.growth (fun _ _ => links_rustParams _) hrparams
      obtain ⟨hs₄, hgrowth₄, -⟩ := Links.run (fun K => links_forM (fun p H => links_declare _ _) _) rfl hdeclare
      obtain ⟨hs₅, hgrowth₅, hchecked⟩ := Links.run (fun K => links_bindBaseArgs hE from_baseCalls) hs₄ hbinds
      obtain ⟨hs₆, hgrowth₆, hstmts, hroutines⟩ := writes_initCalls hs₅ hruns
      have hgrowth₇ : Growth E s₆ s₇ := Links.growth (fun _ _ => links_routineShell _) hshell
      obtain ⟨hgrowth₈, hemitted⟩ := emitted_classInits hE hclasses hroutines hinits
      have hgrowth₉ : Growth E s₈ s₉ := Links.growth (fun _ _ => links_constructors _) hgs
      have hafter : Growth E s₅ s₉ := hgrowth₆.trans (hgrowth₇.trans (hgrowth₈.trans hgrowth₉))
      refine ⟨hgrowth₂.trans (hgrowth₄.trans (hgrowth₅.trans hafter)), fun K hK => ?_⟩
      have hinit : Describes E (initConvention E) ⟨"_init", none, rparams, "()", true,
          E.package.constructorNeedsCaller E.contract, false⟩ := ⟨rfl, rfl, rfl, types_rustParams hrparams⟩
      obtain ⟨d, rfl, hname, hpublic, hd⟩ := callsInit_constructors hinit hgs
      refine .init (by rw [runsInit, Bool.eq_false_iff.mpr hsomething, Bool.not_false]) hname hpublic hd
        ((declares_routineShell hinit hshell).with_body _) (fun code hcode => ?_)
        (hemitted K (List.Subset.trans hgrowth₉.subset hK))
      cases hcode
      refine ⟨Rust.codeChecked_append.mpr ⟨?_, ?_⟩, trivial, trivial, trivial⟩
      · exact Rust.codeChecked_imp (fun _ h => .inl h) _ (hchecked K (List.Subset.trans hafter.subset hK)).1
      · obtain ⟨bases, hchain⟩ := hE.chain
        have hnodup := hE.chain_nodup
        rw [hchain, List.map_cons, List.nodup_cons] at hnodup
        rw [hchain, List.drop_one, List.tail_cons] at hbinds
        obtain ⟨more, hmore, -, hbound⟩ := binds_bindBaseArgs hnodup.2 hbinds
        obtain rfl : bound = more := hmore
        rw [hstmts, Rust.codeChecked_iff]
        intro st hst
        obtain ⟨c, hc, rfl⟩ := List.mem_map.mp hst
        refine ⟨.inr ⟨c, hc, _, rfl, arguments_initArgs hE rfl ?_ ?_ hc⟩, checked_callText _ _ _ (checked_initArgs _ _ _)⟩
        · rw [← names_rustParams hrparams]
          exact arguments_params (params_routineShell hshell) hinit.types
        · rw [hchain]
          exact fun c hc => (hbound c hc).mono (List.subset_append_left _ _)

end RustContracts.Emit
