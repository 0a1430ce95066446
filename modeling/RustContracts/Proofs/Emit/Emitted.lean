import RustContracts.Proofs.Emit.LinksStmt

-- Functions as they are written: under the name and with the parameters of a convention, and with code that calls by
-- the conventions.
namespace RustContracts.Emit

open Program
open Rust (CodeChecked OptionChecked)

variable {E : Env} {K : List (String × String)} {here : Bool} {H : Prop} {s s' : State} {v : Convention}

-- Code inside modifiers.

mutual

theorem exprs_fillStmt (body : Block) : ∀ s : Stmt, (fillStmt body s).exprs ⊆ body.exprs ++ s.exprs
  | .placeholder _ => by simp [fillStmt]
  | .block b => by simpa [fillStmt] using exprs_fillBlock body b
  | .ifElse p c t none => by
      have ht := exprs_fillBlock body t
      grind [fillStmt, Stmt.exprs_ifElse]
  | .ifElse p c t (some e) => by
      have ht := exprs_fillBlock body t
      have he := exprs_fillBlock body e
      grind [fillStmt, Stmt.exprs_ifElse]
  | .whileLoop p c b testLast => by
      have hb := exprs_fillBlock body b
      grind [fillStmt, Stmt.exprs_whileLoop]
  | .forLoop p i c post b => by
      intro e
      have hb := @exprs_fillBlock body b e
      simp only [fillStmt, Stmt.exprs_forLoop, List.mem_append] at hb ⊢
      grind
  | .decl _ _ _ | .assign _ _ _ | .expr _ _ | .returnValue _ _ | .require _ _ _ | .revert _ _ _ | .emit _ _ _
  | .breakLoop _ | .continueLoop _ => List.subset_append_right _ _

theorem exprs_fillBlock (body : Block) : ∀ b : Block, (fillBlock body b).exprs ⊆ body.exprs ++ b.exprs
  | ⟨start, stmts, unchecked⟩ => by
      rw [fillBlock, Block.exprs_eq, Block.exprs_eq ⟨start, stmts, unchecked⟩]
      exact exprs_fillStmts body stmts

theorem exprs_fillStmts (body : Block) :
    ∀ stmts : List Stmt, (fillStmts body stmts).flatMap Stmt.exprs ⊆ body.exprs ++ stmts.flatMap Stmt.exprs
  | [] => by simp [fillStmts]
  | s :: rest => by
      have hs := exprs_fillStmt body s
      have hrest := exprs_fillStmts body rest
      grind [fillStmts]

end

theorem from_substmts {p : Package} {b : Block} (hb : ∀ e ∈ b.exprs, e.From p) :
    ∀ st ∈ substmtsList b.stmts, Stmt.From p st := by
  intro st hst e he
  refine hb e (List.mem_flatMap.mpr ⟨st, ?_, he⟩)
  cases b
  exact List.mem_cons_of_mem _ hst

theorem writes_of_modifierBody {call : ModifierCall} {found : Implementation × Block}
    (hw : Writes (modifierBody call) E s found s') :
    s' = s ∧ found.1.body = some found.2 ∧
      ∃ m, E.contract.modifier? call.name = some m ∧ found.1 ∈ m.implementations := by
  unfold modifierBody at hw
  obtain ⟨env, s₁, henv, hw⟩ := writes_bind.mp hw
  obtain ⟨rfl, rfl⟩ := writes_read.mp henv
  dsimp only at hw
  split at hw
  · next found' hfound =>
      obtain ⟨rfl, rfl⟩ := writes_pure.mp hw
      have hmem : found' ∈ [found'] := List.mem_singleton.mpr rfl
      rw [← hfound, List.mem_filterMap] at hmem
      obtain ⟨i, hi, hbody⟩ := hmem
      obtain ⟨b, hb, rfl⟩ := Option.map_eq_some_iff.mp hbody
      refine ⟨rfl, hb, ?_⟩
      cases hm : E.contract.modifier? call.name with
      | none => simp [hm] at hi
      | some m =>
          rw [hm, Option.map_some, Option.getD_some] at hi
          exact ⟨m, rfl, hi⟩
  · exact absurd hw not_writes_throw

-- A body inside its modifiers is code of the package.
theorem from_guarded (hE : Sourced E) {body inner : Block} {calls : List ModifierCall}
    (hbody : ∀ e ∈ body.exprs, e.From E.package) (hcalls : ∀ m ∈ calls, ∀ e ∈ m.args, e.From E.package)
    (hw : Writes (guarded body calls) E s inner s') : s' = s ∧ ∀ e ∈ inner.exprs, e.From E.package := by
  induction calls generalizing inner s' with
  | nil =>
      obtain ⟨rfl, rfl⟩ := writes_pure.mp hw
      exact ⟨rfl, hbody⟩
  | cons call rest ih =>
      obtain ⟨hcall, hrest⟩ := List.forall_mem_cons.mp hcalls
      rw [guarded] at hw
      obtain ⟨inside, s₁, hwritten, hguard⟩ := writes_bind.mp hw
      obtain ⟨rfl, hinside⟩ := ih hrest hwritten
      unfold guardWith at hguard
      obtain ⟨⟨modifier, code⟩, s₂, hfound, hfilled⟩ := writes_bind.mp hguard
      obtain ⟨rfl, hcode, m, hm, himpl⟩ := writes_of_modifierBody hfound
      dsimp only at hfilled
      split at hfilled
      · obtain ⟨_, _, hthrow, -⟩ := writes_bind.mp hfilled
        exact absurd hthrow not_writes_throw
      · obtain ⟨rfl, rfl⟩ := writes_pure.mp hfilled
        refine ⟨rfl, fun e he => ?_⟩
        rw [Block.exprs_eq, List.flatMap_append, List.mem_append] at he
        rcases he with he | he
        · obtain ⟨st, hst, he⟩ := List.mem_flatMap.mp he
          obtain ⟨⟨param, arg⟩, hpair, rfl⟩ := List.mem_map.mp hst
          obtain rfl : e = arg := by simpa [Stmt.exprs, Stmt.substmts, Stmt.directExprs] using he
          exact hcall e (List.of_mem_zip hpair).2
        · rcases List.mem_append.mp (exprs_fillStmts inside code.stmts he) with he | he
          · exact hinside e he
          · refine hE.modifiers m (List.mem_of_find?_eq_some hm) modifier himpl e (List.mem_append_left _ ?_)
            rw [hcode, Option.toList_some, List.flatMap_singleton, Block.exprs_eq]
            exact he

-- Declarations.

-- The text of a type.
def TypeText (E : Env) (t : Ty) (text : String) : Prop := ∃ s s', Writes (typeText t) E s text s'

-- The types of all parameters, with what the target puts before them.
def paramTypes (target : Target) (exposed caller : Bool) (types : List String) : List String :=
  match target with
  | .ink _ => types
  | .soroban => (if exposed then "Env" else "&Env") :: (if caller then ["Address"] else []) ++ types

-- A routine that is declared by a convention.
structure Describes (E : Env) (v : Convention) (r : Routine) : Prop where
  name : r.name = v.name
  exposed : r.isExposed = v.exposed
  caller : r.caller = v.caller
  types : List.Forall₂ (TypeText E) v.types (r.params.map (·.type))

-- A function that is called by a convention.
structure Declares (E : Env) (v : Convention) (g : Rust.Function) : Prop where
  name : g.name = v.name
  isPublic : g.isPublic = v.exposed
  -- a method has a receiver, a function that is called by its path has none
  receiver : g.receiver = "" ↔ E.target = .soroban
  params : ∃ texts, List.Forall₂ (TypeText E) v.types texts ∧
    g.params.map (·.type) = paramTypes E.target v.exposed v.caller texts

-- Parameters that are written one by one, each with the text of its type.
theorem types_texts {act : Ty → Emit String}
    (hact : ∀ {type text s s'}, Writes (act type) E s text s' → TypeText E type text) {params : List Param}
    {rparams : List Rust.Param}
    (hw : Writes (params.zipIdx.mapM fun (p, i) => do return (⟨paramName p i, ← act p.type⟩ : Rust.Param)) E s rparams s') :
    List.Forall₂ (TypeText E) (params.map Param.type) (rparams.map (·.type)) := by
  have htexts : List.Forall₂ (fun pi r => TypeText E pi.1.type r.type) params.zipIdx rparams := by
    refine (writes_mapM hw).imp fun pi r hr => ?_
    obtain ⟨t, t', hr⟩ := hr
    obtain ⟨text, t₁, htext, hr⟩ := writes_bind.mp hr
    obtain ⟨rfl, -⟩ := writes_pure.mp hr
    exact hact htext
  rw [← List.zipIdx_map_fst 0 params, List.map_map]
  exact List.forall₂_map_left_iff.mpr (List.forall₂_map_right_iff.mpr htexts)

theorem types_rustParams {params : List Param} {rparams : List Rust.Param}
    (hw : Writes (rustParams params) E s rparams s') :
    List.Forall₂ (TypeText E) (params.map Param.type) (rparams.map (·.type)) :=
  types_texts (fun htext => ⟨_, _, htext⟩) hw

-- The types that a function is declared with.
def declaredTypes (f : Function) (impl : Option Implementation) : List Ty :=
  (match impl with
    | some i => if i.params.length = f.params.length then i.params else f.params
    | none => f.params).map Param.type

theorem describes_functionRoutine {f : Function} {impl : Option Implementation} {name : String}
    {entry : Option Signature} {r : Routine} (hw : Writes (functionRoutine f impl name entry) E s r s') :
    Describes E ⟨name, entry.isSome, E.contract.needsCaller f.toSignature, declaredTypes f impl⟩ r := by
  obtain ⟨hname, hentry, -⟩ := writes_functionRoutine hw
  refine ⟨hname, by rw [Routine.isExposed, hentry], caller_functionRoutine hw, ?_⟩
  unfold functionRoutine at hw
  obtain ⟨rparams, s₁, hparams, hw⟩ := writes_bind.mp hw
  obtain ⟨result, s₂, -, hw⟩ := writes_bind.mp hw
  obtain ⟨env, s₃, -, hw⟩ := writes_bind.mp hw
  obtain ⟨rfl, -⟩ := writes_pure.mp hw
  exact types_rustParams hparams

theorem describes_libraryRoutine {f : Function} {name : String} {r : Routine}
    (hw : Writes (libraryRoutine f name) E s r s') : Describes E ⟨name, false, false, declaredTypes f f.primary?⟩ r := by
  obtain ⟨r', s₁, hr, hw⟩ := writes_bind.mp hw
  obtain ⟨rfl, -⟩ := writes_pure.mp hw
  have h := describes_functionRoutine hr
  exact ⟨h.name, h.exposed, rfl, h.types⟩

theorem declares_routineShell {r : Routine} {g : Rust.Function} (hr : Describes E v r)
    (hw : Writes (routineShell r) E s g s') : Declares E v g := by
  have hof := writes_routineShell hw
  refine ⟨hof.name.trans hr.name, hof.isPublic.trans hr.exposed, hof.receiver, _, hr.types, ?_⟩
  rw [hof.params, List.map_append, ← hr.exposed, ← hr.caller]
  cases E.target with
  | ink version => rfl
  | soroban =>
      rw [frontParams, paramTypes]
      cases r.caller <;> rfl

theorem Declares.with_body {g : Rust.Function} (h : Declares E v g) (body : Option Rust.Block) :
    Declares E v { g with body := body } := ⟨h.name, h.isPublic, h.receiver, h.params⟩

-- Parameters are marked where they are changed; their types stay.
theorem types_declareParams {params : List Param} {rparams declared : List Rust.Param}
    (hw : Writes (declareParams params rparams) E s declared s') :
    declared.map (·.type) = rparams.map (·.type) := by
  induction params generalizing rparams declared s s' with
  | nil =>
      obtain ⟨rfl, -⟩ := writes_pure.mp hw
      rfl
  | cons p params ih =>
      cases rparams with
      | nil =>
          obtain ⟨rfl, -⟩ := writes_pure.mp hw
          rfl
      | cons r rparams =>
          rw [declareParams] at hw
          split at hw
          · obtain ⟨more, s₁, hmore, hw⟩ := writes_bind.mp hw
            obtain ⟨rfl, -⟩ := writes_pure.mp hw
            rw [List.map_cons, ih hmore, List.map_cons]
          · obtain ⟨changed, s₁, -, hw⟩ := writes_bind.mp hw
            obtain ⟨_, s₂, -, hw⟩ := writes_bind.mp hw
            obtain ⟨more, s₃, hmore, hw⟩ := writes_bind.mp hw
            obtain ⟨rfl, -⟩ := writes_pure.mp hw
            rw [List.map_cons, ih hmore, List.map_cons]

theorem Describes.with_params {r : Routine} (h : Describes E v r) {params : List Rust.Param}
    (hparams : params.map (·.type) = r.params.map (·.type)) : Describes E v { r with params := params } :=
  ⟨h.name, h.exposed, h.caller, hparams ▸ h.types⟩

theorem links_declareParams (params : List Param) (rparams : List Rust.Param) :
    Links E K here H (declareParams params rparams) := by
  induction params generalizing rparams H with
  | nil => exact links_pure fun _ => trivial
  | cons p params ih =>
      cases rparams with
      | nil => exact links_pure fun _ => trivial
      | cons r rparams =>
          rw [declareParams]
          split
          · exact links_bind (ih rparams) fun _ => links_pure fun _ => trivial
          · refine links_bind (links_isMutated _) fun _ => links_bind (links_declare _ _) fun _ => ?_
            exact links_bind (ih rparams) fun _ => links_pure fun _ => trivial

theorem links_declareResults (results : List Param) : Links E K here H (declareResults results) := by
  induction results generalizing H with
  | nil => exact links_pure fun _ => trivial
  | cons r results ih =>
      rw [declareResults]
      split
      · exact ih
      · refine links_bind (links_typeText _) fun t => links_bind (links_zero _) fun z => ?_
        refine links_bind (links_isMutated _) fun _ => links_bind (links_declare _ _) fun _ => ?_
        exact links_bind ih fun more => links_pure fun h => ⟨h.1.1.1.2, h.2⟩

theorem links_preamble (r : Routine) : Links E K here H (preamble r) := by
  refine links_bind links_target fun t => ?_
  split
  · exact links_pure fun _ => trivial
  · refine links_pure fun _ => ?_
    unfold Soroban.preamble
    split
    · exact ⟨⟨trivial, trivial⟩, trivial⟩
    · trivial

instance : Calling Rust.Function := ⟨fun Q g => ∀ code ∈ g.body, code.Checked Q⟩

theorem links_routineShell (r : Routine) : Links E K here H (routineShell r) := by
  refine links_bind links_target fun t => ?_
  cases t with
  | ink v =>
      refine links_read_bind (links_bind (links_mapM (fun _ => links_ended _) _) fun _ => ?_)
      exact links_pure fun _ code hcode => by cases hcode
  | soroban =>
      refine links_bind (links_use _) fun _ => ?_
      dsimp only
      split
      · exact links_bind (links_use _) fun _ => links_pure fun _ code hcode => by cases hcode
      · exact links_pure fun _ code hcode => by cases hcode

-- A function that is called by a convention and whose code calls by the conventions.
structure Emitted (E : Env) (K : List (String × String)) (v : Convention) (g : Rust.Function) : Prop where
  declares : Declares E v g
  body : ∀ code ∈ g.body, code.Checked (Site E K v.exposed)

theorem Links.run {α : Type} [Calling α] {act : Emit α} {a : α} (h : ∀ K, Links E K here True act)
    (hs : s.frame.exposed = here) (hw : Writes act E s a s') :
    s'.frame.exposed = here ∧ Growth E s s' ∧ ∀ K, s'.helperNames ⊆ K → Calling.calling (Site E K here) a := by
  obtain ⟨hexposed, hgrowth, -⟩ := h [] s hs
  rw [hw] at hexposed hgrowth
  exact ⟨hexposed, hgrowth, fun K hK => (h K s hs).2.2 a s' hw hK trivial⟩

-- A function is declared with its parameters as they are changed in the body.
theorem shell_of_function {r : Routine} {f : Function} {impl : Option Implementation} {g : Rust.Function}
    (hw : Writes (function r f impl) E s g s') :
    ∃ params declared shell code s₁ s₂ s₃, Writes (declareParams params r.params) E s₁ declared s₂ ∧
      Writes (routineShell { r with params := declared }) E s₂ shell s₃ ∧ g = { shell with body := some code } := by
  unfold function at hw
  split at hw
  · obtain ⟨_, _, -, hw⟩ := writes_bind.mp hw
    obtain ⟨inner, _, -, hw⟩ := writes_bind.mp hw
    obtain ⟨_, s₁, -, hw⟩ := writes_bind.mp hw
    obtain ⟨declared, s₂, hdeclare, hw⟩ := writes_bind.mp hw
    obtain ⟨shell, s₃, hshell, hw⟩ := writes_bind.mp hw
    obtain ⟨_, _, -, hw⟩ := writes_bind.mp hw
    obtain ⟨before, _, -, hw⟩ := writes_bind.mp hw
    obtain ⟨results, _, -, hw⟩ := writes_bind.mp hw
    obtain ⟨written, _, -, hw⟩ := writes_bind.mp hw
    split at hw
    · obtain ⟨rfl, -⟩ := writes_pure.mp hw
      exact ⟨_, declared, shell, _, s₁, s₂, s₃, hdeclare, hshell, rfl⟩
    · obtain ⟨x, _, -, hw⟩ := writes_bind.mp hw
      obtain ⟨rfl, -⟩ := writes_pure.mp hw
      exact ⟨_, declared, shell, _, s₁, s₂, s₃, hdeclare, hshell, rfl⟩
  · exact absurd hw not_writes_throw

-- What is written for an implementation, and for which helpers it asks.
theorem emitted_function (hE : Sourced E) {r : Routine} {f : Function} {impl : Option Implementation}
    {g : Rust.Function} (hcode : ∀ i ∈ impl, ∀ e ∈ i.exprs, e.From E.package) (hr : Describes E v r)
    (hw : Writes (function r f impl) E s g s') :
    Growth E s s' ∧ ∀ K, s'.helperNames ⊆ K → Emitted E K v g := by
  obtain ⟨_, _, shell, code, _, _, _, hdeclare, hshell, hg⟩ := shell_of_function hw
  unfold function at hw
  split at hw
  · next i body hbody =>
      have hi : i.body = some body := by simpa using hbody
      have hfrom := hcode i rfl
      obtain ⟨u, s₁, henter, hw⟩ := writes_bind.mp hw
      obtain rfl := writes_modify.mp henter
      obtain ⟨inner, s₂, hguarded, hw⟩ := writes_bind.mp hw
      obtain ⟨rfl, hinner⟩ := from_guarded hE
        (fun e he => hfrom e (List.mem_append_left _ (by simpa [hi] using he)))
        (fun m hm e he => hfrom e (List.mem_append_right _ (List.mem_flatMap.mpr ⟨m, hm, he⟩))) hguarded
      obtain ⟨-, hgrowth, hchecked⟩ : s'.frame.exposed = r.isExposed ∧ Growth E s s' ∧
          ∀ K, s'.helperNames ⊆ K → ∀ code ∈ g.body, code.Checked (Site E K r.isExposed) := by
        refine Links.run (fun K => ?_) rfl hw
        refine links_bind (links_modifyFrame fun _ => rfl) fun _ => links_bind (links_declareParams _ _) fun _ => ?_
        refine links_bind (links_routineShell _) fun shell => links_bind (links_modifyFrame fun _ => rfl) fun _ => ?_
        refine links_bind (links_preamble _) fun before => links_bind (links_declareResults _) fun results => ?_
        refine links_bind (links_stmts hE _ inner.stmts (from_substmts hinner)) fun written => ?_
        split
        · refine links_pure fun h code hcode => ?_
          cases hcode
          exact ⟨Rust.codeChecked_append.mpr ⟨Rust.codeChecked_append.mpr ⟨h.1.1.2, h.1.2⟩, h.2⟩, trivial⟩
        · refine links_bind links_defaultResult fun x => links_pure fun h code hcode => ?_
          cases hcode
          exact ⟨Rust.codeChecked_append.mpr ⟨Rust.codeChecked_append.mpr ⟨h.1.1.1.2, h.1.1.2⟩, h.1.2⟩,
            trivial, h.2, trivial⟩
      refine ⟨hgrowth, fun K hK => ⟨?_, hr.exposed ▸ hchecked K hK⟩⟩
      exact hg ▸ (declares_routineShell (hr.with_params (types_declareParams hdeclare)) hshell).with_body (some code)
  · exact absurd hw not_writes_throw

end RustContracts.Emit
