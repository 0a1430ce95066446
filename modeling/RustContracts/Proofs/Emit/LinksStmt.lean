import RustContracts.Proofs.Emit.LinksExpr

-- Statements call by the conventions.
namespace RustContracts.Emit

open Program
open Rust (AllChecked OptionChecked CodeChecked)

variable {E : Env} {K : List (String × String)} {here : Bool} {H : Prop} {s s' : State}
variable {x y : Rust.Expr} {xs : List Rust.Expr}

def Change.Checked (Q : Rust.Expr → Prop) : Change → Prop
  | set value | push value => value.Checked Q
  | pop => True

theorem links_changeAt {change : Change} (hchange : H → change.Checked (Site E K here))
    (hx : H → x.Checked (Site E K here)) : Links E K here H (change.at x) := by
  cases change with
  | set value => exact links_pure fun h => ⟨hx h, hchange h⟩
  | push value => exact links_bind (links_arrayPush hx hchange) fun _ => links_pure fun h => h.2
  | pop => exact links_bind (links_arrayPop hx) fun _ => links_pure fun h => h.2

theorem links_bindUnlessSimple (stem : String) (hx : H → x.Checked (Site E K here)) :
    Links E K here H (bindUnlessSimple stem x) := by
  unfold bindUnlessSimple
  split
  · exact links_pure fun h => ⟨trivial, hx h⟩
  · exact links_bind (links_temp stem) fun _ => links_pure fun h => ⟨⟨hx h.1, trivial⟩, trivial⟩

theorem links_bindAll (stem : String) (hxs : H → AllChecked (Site E K here) xs) :
    Links E K here H (bindAll stem xs) := by
  induction xs generalizing H with
  | nil => exact links_pure fun _ => ⟨trivial, trivial⟩
  | cons x xs ih =>
      refine links_bind (links_bindUnlessSimple stem fun h => (hxs h).1) fun b => ?_
      refine links_bind (ih fun h => (hxs h.1).2) fun bs => links_pure fun h => ?_
      exact ⟨Rust.codeChecked_append.mpr ⟨h.1.2.1, h.2.1⟩, h.1.2.2, h.2.2⟩

theorem checked_clonedKeys {Q : Rust.Expr → Prop} (hxs : AllChecked Q xs) : AllChecked Q (xs.map clonedKey) := by
  rw [Rust.allChecked_iff, List.forall_mem_map]
  intro x hx
  have hchecked := Rust.allChecked_iff.mp hxs x hx
  unfold clonedKey
  split
  · exact ⟨trivial, trivial⟩
  · exact hchecked

-- The keys of a path are code of a package.
def Step.From (p : Package) : Step → Prop
  | index _ key _ => key.From p
  | member _ _ _ => True

theorem from_accessPath {p : Package} {e : Expr} (he : e.From p) : ∀ step ∈ (accessPath e).2, step.From p := by
  fun_induction accessPath e with
  | case1 p target key t root steps heq ih =>
      have htarget := Expr.From.children he target (by simp [Expr.children])
      have hkey := Expr.From.children he key (by simp [Expr.children])
      rw [heq] at ih
      exact List.forall_mem_append.mpr ⟨ih htarget, by simpa [Step.From] using hkey⟩
  | case2 p target name t root steps heq ih =>
      have htarget := Expr.From.children he target (by simp [Expr.children])
      rw [heq] at ih
      exact List.forall_mem_append.mpr ⟨ih htarget, by simp [Step.From]⟩
  | case3 e => simp

theorem checked_detour {Q : Rust.Expr → Prop} {bound inner : List Rust.Stmt} {old back : Rust.Stmt}
    (hbound : CodeChecked Q bound) (hold : old.Checked Q) (hinner : CodeChecked Q inner) (hback : back.Checked Q) :
    CodeChecked Q (bound ++ [old] ++ inner ++ [back]) := by
  simp only [Rust.codeChecked_append]
  exact ⟨⟨⟨hbound, hold, trivial⟩, hinner⟩, hback, trivial⟩

theorem links_throw_bind {α β : Type} [Calling β] (stop : Stop) (f : α → Emit β) :
    Links E K here H ((throw stop : Emit α) >>= f) := by
  refine fun s hs => ⟨hs, .refl s, fun b s' hw => ?_⟩
  obtain ⟨a, s₁, hthrow, -⟩ := writes_bind.mp hw
  exact absurd hthrow not_writes_throw

section Changes

variable (hE : Sourced E)
include hE

-- By induction along the path; the base of the rest is an element or a temporary variable.
theorem links_changePath {change : Change} (hchange : H → change.Checked (Site E K here)) {path : List Step}
    (hpath : ∀ step ∈ path, step.From E.package) (hx : H → x.Checked (Site E K here)) :
    Links E K here H (changePath change x path) := by
  induction path generalizing x H with
  | nil => exact links_bind (links_changeAt hchange hx) fun s => links_pure fun h => ⟨h.2, trivial⟩
  | cons step rest ih =>
      obtain ⟨hstep, hrest⟩ := List.forall_mem_cons.mp hpath
      cases step with
      | member p name on => exact ih hchange hrest hx
      | index start key on =>
          rw [changePath]
          split
          · exact links_throw_bind _ _
          · refine links_bind (links_exprAs hE _ hstep) fun k => links_bind links_elementsArePlaces fun inPlace => ?_
            split
            · refine links_bind (links_arrayIndex (fun h => hx h.1.1) (fun h => h.1.2) _) fun element => ?_
              exact ih (fun h => hchange h.1.1.1) hrest fun h => h.2
            · split
              · refine links_bind (links_arraySet (fun h => hx h.1.1) (fun h => h.1.2) _ fun h => hchange h.1.1)
                  fun back => links_pure fun h => ⟨h.2, trivial⟩
              · refine links_bind (links_bindUnlessSimple _ fun h => h.1.2) fun b => ?_
                refine links_bind (links_arrayIndex (fun h => hx h.1.1.1) (fun h => h.2.2) _) fun old => ?_
                refine links_bind (links_temp _) fun name => ?_
                refine links_bind (ih (fun h => hchange h.1.1.1.1.1) hrest fun _ => trivial) fun inner => ?_
                refine links_bind (links_arraySet (fun h => hx h.1.1.1.1.1.1) (fun h => h.1.1.1.2.2) _
                  fun _ => trivial) fun back => links_pure ?_
                rintro ⟨⟨⟨⟨⟨-, hb⟩, hold⟩, -⟩, hinner⟩, hback⟩
                exact checked_detour hb.1 hold hinner hback

theorem links_mappingKeys (d : FieldDecl) (types : List Ty) {path : List Step}
    (hpath : ∀ step ∈ path, step.From E.package) : Links E K here H (mappingKeys d types path) := by
  fun_induction mappingKeys d types path generalizing H with
  | case1 => exact links_pure fun _ => trivial
  | case2 => exact links_pure fun _ => trivial
  | case3 t types p key on path ih =>
      obtain ⟨hkey, hpath⟩ := List.forall_mem_cons.mp hpath
      refine links_bind (links_exprAs hE t hkey) fun k => ?_
      exact links_bind (ih hpath) fun ks => links_pure fun h => ⟨h.1.2, h.2⟩
  | case4 => exact links_throw _

theorem links_changeField {change : Change} (hchange : H → change.Checked (Site E K here)) (start : Text.Position)
    (d : FieldDecl) {path : List Step} (hpath : ∀ step ∈ path, step.From E.package) :
    Links E K here H (changeField start d path change) := by
  have hrest : ∀ step ∈ path.drop d.type.mappingDepth, step.From E.package :=
    fun step hstep => hpath step (List.mem_of_mem_drop hstep)
  unfold changeField
  dsimp only
  split
  · exact links_throw_bind _ _
  · refine links_bind (links_mappingKeys hE d d.type.mappingKeys hpath) fun keys => ?_
    refine links_bind (links_fieldPlace? d) fun place => ?_
    split
    · exact links_changePath hE (fun h => hchange h.1.1) hpath fun h => h.2
    · split
      · refine links_bind (links_writeField d (fun h => h.1.2) fun h => hchange h.1.1) fun s => ?_
        exact links_pure fun h => ⟨h.2, trivial⟩
      · refine links_bind (links_bindAll _ fun h => h.1.2) fun b => ?_
        refine links_bind (links_readField d fun h => checked_clonedKeys h.2.2) fun old => ?_
        refine links_bind (links_temp _) fun name => ?_
        refine links_bind (links_changePath hE (fun h => hchange h.1.1.1.1.1) hrest fun _ => trivial) fun inner => ?_
        refine links_bind (links_writeField d (fun h => h.1.1.1.2.2) fun _ => trivial) fun back => links_pure ?_
        rintro ⟨⟨⟨⟨⟨-, hb⟩, hold⟩, -⟩, hinner⟩, hback⟩
        exact checked_detour hb.1 hold hinner hback

theorem links_changeTarget (change : Change) (hchange : H → change.Checked (Site E K here)) {target : Expr}
    (htarget : target.From E.package) : Links E K here H (changeTarget target change) := by
  have hpath := from_accessPath htarget
  unfold changeTarget
  split
  · rename_i p name t path heq
    rw [heq] at hpath
    refine links_bind (links_local? name) fun found => ?_
    cases found with
    | none => exact links_throw _
    | some ident => exact links_changePath hE (fun h => hchange h.1) hpath fun _ => trivial
  · rename_i p d path heq
    rw [heq] at hpath
    exact links_changeField hE hchange _ d hpath
  · exact links_throw _

omit hE in
theorem links_tupleTemps (es : List Expr) : Links E K here H (tupleTemps es) := by
  induction es generalizing H with
  | nil => exact links_pure fun _ => trivial
  | cons e es ih =>
      exact links_bind (links_temp _) fun _ => links_bind ih fun _ => links_pure fun _ => trivial

-- A tuple is taken apart into temporary variables, each of which is assigned.
theorem links_assign :
    (∀ value target, target.From E.package → ∀ H : Prop, (H → value.Checked (Site E K here)) →
      Links E K here H (assign value target)) ∧
    ∀ names targets, (∀ e ∈ targets, e.From E.package) → ∀ H, Links E K here H (assignAll names targets) := by
  apply assign.mutual_induct
    (fun value target => target.From E.package → ∀ H : Prop, (H → value.Checked (Site E K here)) →
      Links E K here H (assign value target))
    (fun names targets => (∀ e ∈ targets, e.From E.package) → ∀ H, Links E K here H (assignAll names targets))
  · intro value p elements ih htargets H hvalue
    rw [assign]
    refine links_bind (links_tupleTemps elements) fun names => ?_
    refine links_bind (ih names (Expr.From.children htargets) _) fun parts => links_pure fun h => ?_
    exact ⟨hvalue h.1.1, h.2⟩
  · intro value target htuple htarget H hvalue
    rw [assign]
    · exact links_changeTarget hE (.set value) hvalue htarget
    · exact htuple
  · intro name names e rest ihe ihrest htargets H
    obtain ⟨htarget, htargets⟩ := List.forall_mem_cons.mp htargets
    rw [assignAll]
    refine links_bind (ihe htarget _ fun _ => trivial) fun stmts => ?_
    refine links_bind (ihrest htargets _) fun more => links_pure fun h => ?_
    exact Rust.codeChecked_append.mpr ⟨h.1.2, h.2⟩
  · intro names targets hnil _ H
    rw [assignAll]
    · exact links_pure fun _ => trivial
    · exact hnil

theorem links_exprStmt {e : Expr} (he : e.From E.package) : Links E K here H (exprStmt e) := by
  unfold exprStmt
  split
  · rename_i p array value
    have harray := Expr.From.children he array (by simp [Expr.children])
    have hvalue := Expr.From.children he value (by simp [Expr.children])
    exact links_bind (links_exprAs hE _ hvalue) fun x => links_changeTarget hE (.push x) (fun h => h.2) harray
  · rename_i p array
    have harray := Expr.From.children he array (by simp [Expr.children])
    exact links_changeTarget hE .pop (fun _ => trivial) harray
  · exact links_bind (links_expr hE he) fun x => links_pure fun h => ⟨h.2, trivial⟩

theorem links_abort (entry : ErrorEntry) {args : List Expr} (hargs : ∀ e ∈ args, e.From E.package) :
    Links E K here H (abort entry args) := by
  refine links_bind (links_exprsAs hE _ hargs) fun xs => ?_
  exact links_bind (links_errorValue entry fun h => h.2) fun x => links_pure fun h => ⟨trivial, h.2, trivial⟩

omit hE in
theorem links_defaultResults (results : List Param) : Links E K here H (defaultResults results) := by
  induction results generalizing H with
  | nil => exact links_pure fun _ => trivial
  | cons r results ih =>
      rw [defaultResults]
      split
      · refine links_bind (links_zero _) fun x => ?_
        exact links_bind ih fun xs => links_pure fun h => ⟨h.1.2, h.2⟩
      · simp only [pure_bind]
        refine links_bind (links_local? _) fun found => links_bind ih fun xs => links_pure fun h => ⟨trivial, h.2⟩

omit hE in
theorem links_defaultResult : Links E K here H defaultResult := by
  refine links_bind links_frame fun fr => links_bind (links_defaultResults fr.results) fun xs => ?_
  split
  · exact links_pure fun _ => trivial
  · exact links_pure fun h => h.2.1
  · exact links_pure fun h => h.2

theorem links_resultValue {value : Option Expr} (hvalue : ∀ e ∈ value, e.From E.package) :
    Links E K here H (resultValue value) := by
  cases value with
  | none => exact links_defaultResult
  | some e =>
      have he := hvalue e rfl
      refine links_bind links_frame fun fr => ?_
      split
      · exact links_throw _
      · exact links_exprAs hE _ he
      · split
        · exact links_throw_bind _ _
        · exact links_bind (links_exprsAs hE _ (Expr.From.children he)) fun xs => links_pure fun h => h.2
      · exact links_expr hE he

end Changes

-- Declarations and scopes.

theorem links_modifyScope (f : Scope → Scope) : Links E K here H (modifyScope f) :=
  links_modifyFrame fun _ => rfl

theorem links_declare (name ident : String) : Links E K here H (declare name ident) := links_modifyScope _

theorem links_isMutated (name : String) : Links E K here H (isMutated name) :=
  links_bind links_frame fun _ => links_pure fun _ => trivial

theorem links_declareRef (key interface : String) : Links E K here H (declareRef key interface) := by
  refine links_bind links_frame fun _ => links_bind (links_modifyFrame fun _ => rfl) fun _ => ?_
  exact links_bind (links_modifyScope _) fun _ => links_pure fun _ => trivial

theorem links_inScope {α : Type} [Calling α] {act : Emit α} (hact : ∀ H, Links E K here H act) :
    Links E K here H (inScope act) := by
  refine links_bind (links_modifyFrame fun _ => rfl) fun _ => links_bind (hact _) fun x => ?_
  exact links_bind (links_modifyFrame fun _ => rfl) fun _ => links_pure fun h => h.1.2

theorem links_inLoop {α : Type} [Calling α] (resumes : Bool) {act : Emit α} (hact : ∀ H, Links E K here H act) :
    Links E K here H (inLoop resumes act) := by
  refine links_bind links_frame fun _ => links_bind (links_modifyFrame fun _ => rfl) fun _ => ?_
  refine links_bind (hact _) fun x => links_bind (links_modifyFrame fun _ => rfl) fun _ => links_pure fun h => ?_
  exact ⟨trivial, h.1.2⟩

-- A statement whose expressions are code of a package.
def Stmt.From (p : Package) (st : Stmt) : Prop := ∀ e ∈ st.directExprs, e.From p

section Statements

variable (hE : Sourced E)
include hE

theorem links_declareRefs {calls : List (String × Signature × Expr)} (hcalls : ∀ c ∈ calls, c.2.2.From E.package) :
    Links E K here H (declareRefs calls) := by
  induction calls generalizing H with
  | nil => exact links_pure fun _ => trivial
  | cons call rest ih =>
      obtain ⟨interface, method, address⟩ := call
      obtain ⟨haddress, hrest⟩ := List.forall_mem_cons.mp hcalls
      have hmore (H : Prop) (code : List Rust.Stmt) (hcode : H → CodeChecked (Site E K here) code) :
          Links E K here H (do
            let more ← declareRefs rest
            return code ++ more) := by
        refine links_bind (ih hrest) fun more => links_pure fun h => ?_
        exact Rust.codeChecked_append.mpr ⟨hcode h.1, h.2⟩
      rw [declareRefs]
      refine links_bind (links_exprAs hE _ haddress) fun account => links_bind (links_ref? _) fun found => ?_
      cases found with
      | some name =>
          simp only [pure_bind]
          exact hmore _ [] fun _ => trivial
      | none =>
          refine links_bind (links_externalRef interface fun h => h.1.2) fun ref => ?_
          refine links_bind (links_noteInterface interface) fun _ => links_bind (links_declareRef _ _) fun name => ?_
          simp only [pure_bind]
          exact hmore _ _ fun h => ⟨h.1.1.2.1, trivial⟩

theorem links_withRefs {st : Stmt} (hst : Stmt.From E.package st) {written : Emit (List Rust.Stmt)}
    (hwritten : ∀ H, Links E K here H written) : Links E K here H (withRefs st written) := by
  have hcalls : ∀ c ∈ externalCalls st, c.2.2.From E.package := by
    rintro ⟨interface, method, address⟩ hmem
    obtain ⟨e, he, p, args, hsub⟩ := mem_externalCalls hmem
    intro x hx hcall
    have hx' : x ∈ e.subexprs :=
      subexprs_subset hsub (mem_subexprs.mpr (.inr ⟨address, by simp [Expr.children], hx⟩))
    exact hst e he x hx' hcall
  refine links_bind (links_declareRefs hE hcalls) fun refs => ?_
  refine links_bind (hwritten _) fun stmts => links_pure fun h => ?_
  exact Rust.codeChecked_append.mpr ⟨h.1.2, h.2⟩

theorem links_declareVars (vars : List Param) {value : Expr} (hvalue : value.From E.package) :
    Links E K here H (declareVars vars value) := by
  unfold declareVars
  split
  · refine links_bind (links_typeText _) fun t => links_bind (links_exprAs hE _ hvalue) fun x => ?_
    refine links_bind (links_declare _ _) fun _ => links_bind (links_isMutated _) fun isMut => links_pure fun h => ?_
    exact ⟨h.1.1.2, trivial⟩
  · refine links_bind (links_exprAs hE _ hvalue) fun x => ?_
    refine links_bind (links_mapM (fun v => ?_) vars) fun names => links_pure fun h => ⟨h.1.2, trivial⟩
    refine links_bind (links_declare _ _) fun _ => links_bind (links_isMutated _) fun _ => ?_
    exact links_pure fun _ => trivial

theorem links_cond {cond : Option Expr} (hcond : ∀ e ∈ cond.toList, e.From E.package) :
    Links E K here H (cond.mapM (exprAs .bool)) := by
  cases cond with
  | none => exact links_pure fun _ => trivial
  | some e => exact links_bind (links_exprAs hE _ (hcond e (by simp))) fun x => links_pure fun h => h.2

end Statements

-- The shapes that control takes.

section Shapes

variable {Q : Rust.Expr → Prop}

theorem checked_elseBranch (source : Block) {written : Rust.Block} (hwritten : written.Checked Q) :
    (elseBranch source written).Checked Q := by
  unfold elseBranch
  split
  · exact hwritten.1.1
  · exact hwritten

theorem checked_ifNot {cond : Rust.Expr} {st : Rust.Stmt} (hcond : cond.Checked Q) (hst : st.Checked Q) :
    (ifNot cond st).Checked Q :=
  ⟨fun h => absurd rfl h, hcond, ⟨⟨hst, trivial⟩, trivial⟩, trivial⟩

theorem checked_doWhile (l : Loop) {cond : Rust.Expr} {body : Rust.Block} (hcond : cond.Checked Q)
    (hbody : body.Checked Q) : (doWhile l cond body).Checked Q := by
  cases body
  unfold doWhile
  split
  · exact ⟨⟨hbody, checked_ifNot hcond trivial, trivial⟩, trivial⟩
  · exact ⟨Rust.codeChecked_append.mpr ⟨hbody.1, checked_ifNot hcond trivial, trivial⟩, trivial⟩

theorem checked_stepLoop (l : Loop) {cond : Option Rust.Expr} (ownBlock : Bool) {body : Rust.Block}
    {post : List Rust.Stmt} (hcond : OptionChecked Q cond) (hbody : body.Checked Q) (hpost : CodeChecked Q post) :
    (stepLoop l cond ownBlock body post).Checked Q := by
  have hinner : CodeChecked Q
      ((if l.resumes then [.labeled l.resumeLabel body]
        else if ownBlock && !post.isEmpty then [.expr (.block body)]
        else body.stmts) ++ post) := by
    refine Rust.codeChecked_append.mpr ⟨?_, hpost⟩
    cases body
    split
    · exact ⟨hbody, trivial⟩
    · split
      · exact ⟨hbody, trivial⟩
      · exact hbody.1
  unfold stepLoop
  cases cond with
  | none => exact ⟨hinner, trivial⟩
  | some c => exact ⟨hcond, hinner, trivial⟩

end Shapes

mutual

theorem links_block (hE : Sourced E) (H : Prop) :
    ∀ b : Block, (∀ st ∈ b.substmts, Stmt.From E.package st) → Links E K here H (block b)
  | ⟨start, body, unchecked⟩, hb => by
      have hbody : ∀ st ∈ substmtsList body, Stmt.From E.package st := fun st hst => hb st (List.mem_cons_of_mem _ hst)
      rw [block]
      refine links_bind (links_inScope fun H => links_stmts hE H body hbody) fun written => ?_
      exact links_pure fun h => ⟨h.2, trivial⟩

theorem links_stmts (hE : Sourced E) (H : Prop) :
    ∀ sts : List Stmt, (∀ st ∈ substmtsList sts, Stmt.From E.package st) → Links E K here H (stmts sts)
  | [], _ => links_pure fun _ => trivial
  | st :: rest, hsts => by
      have hst : ∀ x ∈ st.substmts, Stmt.From E.package x := fun x hx => hsts x (List.mem_append_left _ hx)
      have hrest : ∀ x ∈ substmtsList rest, Stmt.From E.package x := fun x hx => hsts x (List.mem_append_right _ hx)
      rw [stmts]
      refine links_bind (links_withRefs hE (hst st (self_mem_substmts st)) fun H => links_stmt hE H st hst)
        fun written => ?_
      refine links_bind (links_stmts hE _ rest hrest) fun more => links_pure fun h => ?_
      exact Rust.codeChecked_append.mpr ⟨h.1.2, h.2⟩

theorem links_optionalStmt (hE : Sourced E) (H : Prop) :
    ∀ o : Option Stmt, (∀ st ∈ o, ∀ x ∈ st.substmts, Stmt.From E.package x) → Links E K here H (optionalStmt o)
  | none, _ => links_pure fun _ => trivial
  | some st, ho => by
      have hst := ho st rfl
      rw [optionalStmt]
      exact links_withRefs hE (hst st (self_mem_substmts st)) fun H => links_stmt hE H st hst

theorem links_stmt (hE : Sourced E) (H : Prop) :
    ∀ st : Stmt, (∀ x ∈ st.substmts, Stmt.From E.package x) → Links E K here H (stmt st)
  | .block b, hst => by
      rw [stmt]
      exact links_bind (links_block hE H b hst) fun written => links_pure fun h => ⟨h.2, trivial⟩
  | .decl p vars value, hst => by
      rw [stmt]
      exact links_declareVars hE vars (hst _ (self_mem_substmts _) value List.mem_cons_self)
  | .assign p target value, hst => by
      have hfrom := hst _ (self_mem_substmts _)
      rw [stmt]
      refine links_bind (links_exprAs hE _ (hfrom value (by simp [Stmt.directExprs]))) fun x => ?_
      exact (links_assign hE).1 x target (hfrom target (by simp [Stmt.directExprs])) _ fun h => h.2
  | .expr p e, hst => by
      rw [stmt]
      exact links_exprStmt hE (hst _ (self_mem_substmts _) e List.mem_cons_self)
  | .ifElse p cond whenTrue none, hst => by
      have hcond := hst _ (self_mem_substmts _) cond List.mem_cons_self
      have htrue : ∀ x ∈ whenTrue.substmts, Stmt.From E.package x := fun x hx => hst x (List.mem_cons_of_mem _ hx)
      rw [stmt]
      refine links_bind (links_exprAs hE _ hcond) fun c => ?_
      refine links_bind (links_block hE _ whenTrue htrue) fun t => links_pure fun h => ?_
      exact ⟨⟨fun h => absurd rfl h, h.1.2, h.2, trivial⟩, trivial⟩
  | .ifElse p cond whenTrue (some whenFalse), hst => by
      have hcond := hst _ (self_mem_substmts _) cond List.mem_cons_self
      have htrue : ∀ x ∈ whenTrue.substmts, Stmt.From E.package x := fun x hx =>
        hst x (List.mem_cons_of_mem _ (List.mem_append_left _ hx))
      have hfalse : ∀ x ∈ whenFalse.substmts, Stmt.From E.package x := fun x hx =>
        hst x (List.mem_cons_of_mem _ (List.mem_append_right _ hx))
      rw [stmt]
      refine links_bind (links_exprAs hE _ hcond) fun c => links_bind (links_block hE _ whenTrue htrue) fun t => ?_
      refine links_bind (links_block hE _ whenFalse hfalse) fun e => links_pure fun h => ?_
      exact ⟨⟨fun h => absurd rfl h, h.1.1.2, h.1.2, checked_elseBranch whenFalse h.2⟩, trivial⟩
  | .whileLoop p cond body false, hst => by
      have hcond := hst _ (self_mem_substmts _) cond List.mem_cons_self
      have hbody : ∀ x ∈ body.substmts, Stmt.From E.package x := fun x hx => hst x (List.mem_cons_of_mem _ hx)
      rw [stmt]
      refine links_bind (links_exprAs hE _ hcond) fun c => ?_
      refine links_bind (links_inLoop _ fun H => links_block hE H body hbody) fun lb => links_pure fun h => ?_
      exact ⟨⟨h.1.2, h.2.2⟩, trivial⟩
  | .whileLoop p cond body true, hst => by
      have hcond := hst _ (self_mem_substmts _) cond List.mem_cons_self
      have hbody : ∀ x ∈ body.substmts, Stmt.From E.package x := fun x hx => hst x (List.mem_cons_of_mem _ hx)
      rw [stmt]
      refine links_bind (links_inLoop _ fun H => links_block hE H body hbody) fun lb => ?_
      refine links_bind (links_exprAs hE _ hcond) fun c => links_pure fun h => ?_
      exact ⟨checked_doWhile lb.1 h.2 h.1.2.2, trivial⟩
  | .forLoop p init cond post body, hst => by
      have hcond := hst _ (self_mem_substmts _)
      obtain ⟨hinit, hpost, hbody⟩ := forall_substmts_forLoop hst
      rw [stmt]
      refine links_inScope fun H => ?_
      refine links_bind (links_optionalStmt hE _ init hinit) fun i => links_bind (links_cond hE hcond) fun c => ?_
      refine links_bind (links_inLoop _ fun H => links_block hE H body hbody) fun lb => ?_
      refine links_bind (links_optionalStmt hE _ post hpost) fun p => links_pure ?_
      rintro ⟨⟨⟨⟨-, hi⟩, hc⟩, hlb⟩, hp⟩
      have hloop := checked_stepLoop lb.1 (declaresVars body) hc hlb.2 hp
      split
      · exact ⟨hloop, trivial⟩
      · exact ⟨⟨Rust.codeChecked_append.mpr ⟨hi, hloop, trivial⟩, trivial⟩, trivial⟩
  | .returnValue p value, hst => by
      have hvalue := hst _ (self_mem_substmts _)
      rw [stmt]
      refine links_bind (links_resultValue hE fun e he => hvalue e ?_) fun x => links_pure fun h => ?_
      · exact Option.mem_toList.mpr he
      · exact ⟨⟨trivial, h.2, trivial⟩, trivial⟩
  | .require p cond entry, hst => by
      have hcond := hst _ (self_mem_substmts _) cond List.mem_cons_self
      rw [stmt]
      refine links_bind (links_exprAs hE _ hcond) fun c => links_bind (links_abort hE entry (by simp)) fun out => ?_
      exact links_pure fun h => ⟨checked_ifNot h.1.2 h.2, trivial⟩
  | .revert p entry args, hst => by
      rw [stmt]
      refine links_bind (links_abort hE entry (hst _ (self_mem_substmts _))) fun out => ?_
      exact links_pure fun h => ⟨h.2, trivial⟩
  | .emit p ev args, hst => by
      rw [stmt]
      refine links_bind (links_exprsAs hE _ (hst _ (self_mem_substmts _))) fun xs => ?_
      exact links_bind (links_emitEvent ev fun h => h.2) fun s => links_pure fun h => ⟨h.2, trivial⟩
  | .breakLoop p, _ => by
      rw [stmt]
      unfold breakStmt currentLoop?
      grind
  | .continueLoop p, _ => by
      rw [stmt]
      unfold continueStmt currentLoop?
      grind
  | .placeholder p, _ => by
      rw [stmt]
      exact links_throw _

end

end RustContracts.Emit
