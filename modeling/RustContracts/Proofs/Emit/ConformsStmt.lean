import RustContracts.Proofs.Emit.ConformsExpr
import RustContracts.Proofs.Emit.LinksStmt

-- Statements and functions keep to a form, where the statements of the source suit it.
namespace RustContracts

namespace Program

-- What a statement tests, and whether it is the opposite that is written.
def Stmt.test? : Stmt → Option (Expr × Bool)
  | ifElse _ cond _ _ => some (cond, false)
  | whileLoop _ cond _ testLast => some (cond, testLast)
  | forLoop _ _ cond _ _ => cond.map fun c => (c, false)
  | require _ cond _ => some (cond, true)
  | _ => none

end Program

namespace Emit

open Program

variable {F : Rust.Form} {E : Env} {s s' : State} {x y : Rust.Expr} {xs : List Rust.Expr}

structure SuitsStmt (F : Rust.Form) (E : Env) (st : Stmt) : Prop where
  exprs : ∀ e ∈ st.directExprs, e.Each (Suits F E)
  vars : ∀ v ∈ declaredVars st, F.ident (Rust.Name.value v.name)
  test : ∀ t ∈ st.test?, ∀ x, Operand E t.1 x .bool → F.cond (if t.2 then x.not else x)

def Change.Fits (F : Rust.Form) : Change → Prop
  | set value | push value => value.Fits F
  | pop => True

theorem conforms_changeAt {change : Change} (hchange : change.Fits F) (hx : x.Fits F) : Conforms F E (change.at x) := by
  cases change with
  | set value => exact conforms_pure (.assign hx hchange)
  | push value => exact conforms_bind (conforms_arrayPush hx hchange) fun _ hy => conforms_pure (.expr hy)
  | pop => exact conforms_bind (conforms_arrayPop hx) fun _ hy => conforms_pure (.expr hy)

theorem conforms_bindUnlessSimple (hF : Mild F E.target) (stem : String) (hx : x.Fits F) :
    Conforms F E (bindUnlessSimple stem x) := by
  unfold bindUnlessSimple
  split
  · exact conforms_pure ⟨by nofun, hx⟩
  · refine conforms_bind_of_writes (conforms_temp stem) fun name s s' hw _ => conforms_pure ?_
    exact ⟨List.forall_mem_singleton.mpr (.letVar hx), .ident (fits_of_temp hF hw)⟩

theorem conforms_bindAll (hF : Mild F E.target) (stem : String) (hxs : ∀ x ∈ xs, x.Fits F) :
    Conforms F E (bindAll stem xs) := by
  induction xs with
  | nil => exact conforms_pure ⟨by nofun, by nofun⟩
  | cons x xs ih =>
      obtain ⟨hx, hxs⟩ := List.forall_mem_cons.mp hxs
      refine conforms_bind (conforms_bindUnlessSimple hF stem hx) fun b hb => ?_
      refine conforms_bind (ih hxs) fun bs hbs => conforms_pure ?_
      exact ⟨List.forall_mem_append.mpr ⟨hb.1, hbs.1⟩, List.forall_mem_cons.mpr ⟨hb.2, hbs.2⟩⟩

theorem fits_clonedKeys (hxs : ∀ x ∈ xs, x.Fits F) : ∀ x ∈ xs.map clonedKey, x.Fits F := by
  intro y hy
  obtain ⟨x, hx, rfl⟩ := List.mem_map.mp hy
  unfold clonedKey
  split
  · exact Rust.fits_method (hxs _ hx) _
  · exact hxs _ hx

-- The keys of a path suit a form.
def SuitsStep (F : Rust.Form) (E : Env) : Step → Prop
  | .index _ key _ => key.Each (Suits F E)
  | .member _ _ _ => True

theorem suits_accessPath {e : Expr} (he : e.Each (Suits F E)) : ∀ step ∈ (accessPath e).2, SuitsStep F E step := by
  fun_induction accessPath e with
  | case1 p target key t root steps heq ih =>
      have hchildren := (Expr.each_iff.mp he).2
      rw [heq] at ih
      refine List.forall_mem_append.mpr ⟨ih (hchildren target (by simp [Expr.children])), ?_⟩
      exact List.forall_mem_singleton.mpr (hchildren key (by simp [Expr.children]))
  | case2 p target name t root steps heq ih =>
      have hchildren := (Expr.each_iff.mp he).2
      rw [heq] at ih
      refine List.forall_mem_append.mpr ⟨ih (hchildren target (by simp [Expr.children])), ?_⟩
      exact List.forall_mem_singleton.mpr trivial
  | case3 e => simp

theorem fits_detour {bound inner : List Rust.Stmt} {old back : Rust.Stmt} (hbound : ∀ st ∈ bound, st.Fits F)
    (hold : old.Fits F) (hinner : ∀ st ∈ inner, st.Fits F) (hback : back.Fits F) :
    ∀ st ∈ bound ++ [old] ++ inner ++ [back], st.Fits F := by
  simp only [List.forall_mem_append, List.forall_mem_singleton]
  exact ⟨⟨⟨hbound, hold⟩, hinner⟩, hback⟩

section Changes

variable (hE : Lawful F E)
include hE

-- By induction along the path; the base of the rest is an element or a temporary variable.
theorem conforms_changePath {change : Change} (hchange : change.Fits F) {path : List Step}
    (hpath : ∀ step ∈ path, SuitsStep F E step) (hx : x.Fits F) : Conforms F E (changePath change x path) := by
  induction path generalizing x with
  | nil => exact conforms_bind (conforms_changeAt hchange hx) fun st hst => conforms_pure (List.forall_mem_singleton.mpr hst)
  | cons step rest ih =>
      obtain ⟨hstep, hrest⟩ := List.forall_mem_cons.mp hpath
      cases step with
      | member p name on => exact ih hrest (.field hx)
      | index start key on =>
          rw [changePath]
          split
          · exact conforms_throw_bind _ _
          · refine conforms_bind (conforms_exprAs hE _ hstep) fun k hk => ?_
            refine conforms_bind conforms_elementsArePlaces fun inPlace _ => ?_
            split
            · exact conforms_bind (conforms_arrayIndex hx hk _) fun element helement => ih hrest helement
            · split
              · exact conforms_bind (conforms_arraySet hx hk _ hchange) fun back hback =>
                  conforms_pure (List.forall_mem_singleton.mpr hback)
              · refine conforms_bind (conforms_bindUnlessSimple hE.mild _ hk) fun b hb => ?_
                refine conforms_bind (conforms_arrayIndex hx hb.2 _) fun old hold => ?_
                refine conforms_bind_of_writes (conforms_temp _) fun name s s' hw _ => ?_
                have hname : (Rust.Expr.ident name).Fits F := .ident (fits_of_temp hE.mild hw)
                refine conforms_bind (ih hrest hname) fun inner hinner => ?_
                refine conforms_bind (conforms_arraySet hx hb.2 _ hname) fun back hback => conforms_pure ?_
                exact fits_detour hb.1 (.letVar hold) hinner hback

theorem conforms_mappingKeys (d : FieldDecl) (types : List Ty) {path : List Step}
    (hpath : ∀ step ∈ path, SuitsStep F E step) : Conforms F E (mappingKeys d types path) := by
  fun_induction mappingKeys d types path with
  | case1 => exact conforms_pure (List.forall_mem_nil _)
  | case2 => exact conforms_pure (List.forall_mem_nil _)
  | case3 t types p key on path ih =>
      obtain ⟨hkey, hpath⟩ := List.forall_mem_cons.mp hpath
      refine conforms_bind (conforms_exprAs hE t hkey) fun k hk => ?_
      exact conforms_bind (ih hpath) fun ks hks => conforms_pure (List.forall_mem_cons.mpr ⟨hk, hks⟩)
  | case4 => exact conforms_throw _

theorem conforms_changeField {change : Change} (hchange : change.Fits F) (start : Text.Position) (d : FieldDecl)
    {path : List Step} (hpath : ∀ step ∈ path, SuitsStep F E step) :
    Conforms F E (changeField start d path change) := by
  have hrest : ∀ step ∈ path.drop d.type.mappingDepth, SuitsStep F E step :=
    fun step hstep => hpath step (List.mem_of_mem_drop hstep)
  unfold changeField
  dsimp only
  split
  · exact conforms_throw_bind _ _
  · refine conforms_bind (conforms_mappingKeys hE d d.type.mappingKeys hpath) fun keys hkeys => ?_
    refine conforms_bind (conforms_fieldPlace? hE.mild d) fun place hplace => ?_
    split
    · exact conforms_changePath hE hchange hpath (hplace _ rfl)
    · split
      · refine conforms_bind (conforms_writeField hE.mild d hkeys hchange) fun st hst => ?_
        exact conforms_pure (List.forall_mem_singleton.mpr hst)
      · refine conforms_bind (conforms_bindAll hE.mild _ hkeys) fun b hb => ?_
        refine conforms_bind (conforms_readField hE.mild d (fits_clonedKeys hb.2)) fun old hold => ?_
        refine conforms_bind_of_writes (conforms_temp _) fun name s s' hw _ => ?_
        have hname : (Rust.Expr.ident name).Fits F := .ident (fits_of_temp hE.mild hw)
        refine conforms_bind (conforms_changePath hE hchange hrest hname) fun inner hinner => ?_
        refine conforms_bind (conforms_writeField hE.mild d hb.2 hname) fun back hback => conforms_pure ?_
        exact fits_detour hb.1 (.letVar hold) hinner hback

theorem conforms_changeTarget {change : Change} (hchange : change.Fits F) {target : Expr}
    (htarget : target.Each (Suits F E)) : Conforms F E (changeTarget target change) := by
  have hpath := suits_accessPath htarget
  unfold changeTarget
  split
  · rename_i p name t path heq
    rw [heq] at hpath
    exact conforms_local?_bind (fun ident hident => conforms_changePath hE hchange hpath (.ident hident))
      (conforms_throw _)
  · rename_i p d path heq
    rw [heq] at hpath
    exact conforms_changeField hE hchange _ d hpath
  · exact conforms_throw _

theorem conforms_tupleTemps (es : List Expr) : Conforms F E (tupleTemps es) ∧
    ∀ s names s', Writes (tupleTemps es) E s names s' → ∀ name ∈ names, F.ident name := by
  induction es with
  | nil =>
      refine ⟨conforms_pure trivial, fun s names s' hw => ?_⟩
      obtain ⟨rfl, -⟩ := writes_pure.mp hw
      nofun
  | cons e es ih =>
      refine ⟨conforms_bind (conforms_temp _) fun _ _ => conforms_bind ih.1 fun _ _ => conforms_pure trivial, ?_⟩
      intro s names s' hw
      obtain ⟨name, s₁, hname, hw⟩ := writes_bind.mp hw
      obtain ⟨more, s₂, hmore, hw⟩ := writes_bind.mp hw
      obtain ⟨rfl, -⟩ := writes_pure.mp hw
      exact List.forall_mem_cons.mpr ⟨fits_of_temp hE.mild hname, ih.2 _ _ _ hmore⟩

-- A tuple is taken apart into temporary variables, each of which is assigned.
theorem conforms_assign :
    (∀ value target, target.Each (Suits F E) → value.Fits F → Conforms F E (assign value target)) ∧
    ∀ names targets, (∀ e ∈ targets, e.Each (Suits F E)) → (∀ name ∈ names, F.ident name) →
      Conforms F E (assignAll names targets) := by
  apply assign.mutual_induct
    (fun value target => target.Each (Suits F E) → value.Fits F → Conforms F E (assign value target))
    (fun names targets => (∀ e ∈ targets, e.Each (Suits F E)) → (∀ name ∈ names, F.ident name) →
      Conforms F E (assignAll names targets))
  · intro value p elements ih htargets hvalue
    rw [assign]
    refine conforms_bind_of_writes (conforms_tupleTemps hE elements).1 fun names s s' hw _ => ?_
    have hnames := (conforms_tupleTemps hE elements).2 _ _ _ hw
    refine conforms_bind (ih names (Expr.each_iff.mp htargets).2 hnames) fun parts hparts => conforms_pure ?_
    exact List.forall_mem_cons.mpr ⟨.letVar hvalue, hparts⟩
  · intro value target htuple htarget hvalue
    rw [assign]
    · exact conforms_changeTarget hE (show (Change.set value).Fits F from hvalue) htarget
    · exact htuple
  · intro name names e rest ihe ihrest htargets hnames
    obtain ⟨htarget, htargets⟩ := List.forall_mem_cons.mp htargets
    obtain ⟨hname, hnames⟩ := List.forall_mem_cons.mp hnames
    rw [assignAll]
    refine conforms_bind (ihe htarget (.ident hname)) fun stmts hstmts => ?_
    refine conforms_bind (ihrest htargets hnames) fun more hmore => conforms_pure ?_
    exact List.forall_mem_append.mpr ⟨hstmts, hmore⟩
  · intro names targets hnil _ _
    rw [assignAll]
    · exact conforms_pure (List.forall_mem_nil _)
    · exact hnil

theorem conforms_exprStmt {e : Expr} (he : e.Each (Suits F E)) : Conforms F E (exprStmt e) := by
  have hchildren := (Expr.each_iff.mp he).2
  unfold exprStmt
  split
  · rename_i p array value
    have harray := hchildren array (by simp [Expr.children])
    have hvalue := hchildren value (by simp [Expr.children])
    exact conforms_bind (conforms_exprAs hE _ hvalue) fun x hx =>
      conforms_changeTarget hE (show (Change.push x).Fits F from hx) harray
  · rename_i p array
    exact conforms_changeTarget hE (show Change.pop.Fits F from trivial) (hchildren array (by simp [Expr.children]))
  · exact conforms_bind (conforms_expr hE he) fun x hx => conforms_pure (List.forall_mem_singleton.mpr (.expr hx))

theorem conforms_abort (entry : ErrorEntry) {args : List Expr} (hargs : ∀ e ∈ args, e.Each (Suits F E)) :
    Conforms F E (abort entry args) := by
  refine conforms_bind (conforms_exprsAs hE _ hargs) fun xs hxs => ?_
  refine conforms_bind (conforms_errorValue hE.mild entry hxs) fun x hx => conforms_pure ?_
  exact .returnValue (.call (List.forall_mem_singleton.mpr hx))

theorem conforms_defaultResults (results : List Param) : Conforms F E (defaultResults results) := by
  induction results with
  | nil => exact conforms_pure (by nofun)
  | cons r results ih =>
      have hmore {x : Rust.Expr} (hx : x.Fits F) : Conforms F E (do
          let xs ← defaultResults results
          return x :: xs) :=
        conforms_bind ih fun xs hxs => conforms_pure (List.forall_mem_cons.mpr ⟨hx, hxs⟩)
      rw [defaultResults]
      split
      · exact conforms_bind (conforms_zero hE.mild _) fun x hx => hmore hx
      · simp only [pure_bind]
        exact conforms_local?_bind (fun ident hident => hmore (.ident hident)) (hmore (.ident hE.mild.nameless))

theorem conforms_defaultResult : Conforms F E defaultResult := by
  refine conforms_bind conforms_frame fun fr _ => conforms_bind (conforms_defaultResults hE fr.results) fun xs hxs => ?_
  split
  · exact conforms_pure (fits_lit (by decide))
  · exact conforms_pure (hxs _ List.mem_cons_self)
  · exact conforms_pure (.tuple hxs)

theorem conforms_resultValue {value : Option Expr} (hvalue : ∀ e ∈ value, e.Each (Suits F E)) :
    Conforms F E (resultValue value) := by
  cases value with
  | none => exact conforms_defaultResult hE
  | some e =>
      have he := hvalue e rfl
      refine conforms_bind conforms_frame fun fr _ => ?_
      split
      · exact conforms_throw _
      · exact conforms_exprAs hE _ he
      · split
        · exact conforms_throw_bind _ _
        · exact conforms_bind (conforms_exprsAs hE _ (Expr.each_iff.mp he).2) fun xs hxs => conforms_pure (.tuple hxs)
      · exact conforms_expr hE he

end Changes

-- Scopes and the variables in them.

theorem conforms_modifyScope {f : Scope → Scope}
    (hf : ∀ scope, (∀ l ∈ scope.locals, F.ident l.2) ∧ (∀ r ∈ scope.refs, F.ident r.2) →
      (∀ l ∈ (f scope).locals, F.ident l.2) ∧ ∀ r ∈ (f scope).refs, F.ident r.2) : Conforms F E (modifyScope f) := by
  refine conforms_modify fun s hs => ?_
  dsimp only [State.Fits]
  cases h : s.frame.scopes with
  | nil => exact List.forall_mem_singleton.mpr (hf {} ⟨by nofun, by nofun⟩)
  | cons scope rest =>
      rw [State.Fits, h] at hs
      obtain ⟨hscope, hrest⟩ := List.forall_mem_cons.mp hs
      exact List.forall_mem_cons.mpr ⟨hf scope hscope, hrest⟩

theorem conforms_declare {name ident : String} (hident : F.ident ident) : Conforms F E (declare name ident) :=
  conforms_modifyScope fun _ hscope => ⟨List.forall_mem_cons.mpr ⟨hident, hscope.1⟩, hscope.2⟩

theorem conforms_isMutated (name : String) : Conforms F E (isMutated name) :=
  conforms_bind conforms_frame fun _ _ => conforms_pure trivial

theorem conforms_declareRef (hF : Mild F E.target) (key interface : String) : Conforms F E (declareRef key interface) := by
  refine conforms_bind conforms_frame fun _ _ => conforms_bind (conforms_modifyFrame fun _ => rfl) fun _ _ => ?_
  refine conforms_bind (conforms_modifyScope fun _ hscope => ?_) fun _ _ => conforms_pure trivial
  refine ⟨hscope.1, List.forall_mem_cons.mpr ⟨?_, hscope.2⟩⟩
  exact hF.joined _ _

section Blocks

variable {α : Type} [Fitting α]

theorem conforms_inScope {act : Emit α} (hact : Conforms F E act) : Conforms F E (inScope act) := by
  have hopen : Conforms F E (modifyFrame fun fr => { fr with scopes := {} :: fr.scopes }) :=
    conforms_modify fun s hs => List.forall_mem_cons.mpr ⟨⟨by nofun, by nofun⟩, hs⟩
  have hclose : Conforms F E (modifyFrame fun fr => { fr with scopes := fr.scopes.tail }) :=
    conforms_modify fun s hs scope hscope => hs scope (List.mem_of_mem_tail hscope)
  exact conforms_bind hopen fun _ _ => conforms_bind hact fun x hx => conforms_bind hclose fun _ _ => conforms_pure hx

theorem conforms_inLoop (resumes : Bool) {act : Emit α} (hact : Conforms F E act) :
    Conforms F E (inLoop resumes act) := by
  refine conforms_bind conforms_frame fun _ _ => conforms_bind (conforms_modifyFrame fun _ => rfl) fun _ _ => ?_
  refine conforms_bind hact fun x hx => conforms_bind (conforms_modifyFrame fun _ => rfl) fun _ _ => ?_
  exact conforms_pure ⟨trivial, hx⟩

end Blocks

section Statements

variable (hE : Lawful F E)
include hE

theorem conforms_declareRefs {calls : List (String × Signature × Expr)}
    (hcalls : ∀ c ∈ calls, c.2.2.Each (Suits F E)) : Conforms F E (declareRefs calls) := by
  induction calls with
  | nil => exact conforms_pure (by nofun)
  | cons call rest ih =>
      obtain ⟨interface, method, address⟩ := call
      obtain ⟨haddress, hrest⟩ := List.forall_mem_cons.mp hcalls
      have hmore {code : List Rust.Stmt} (hcode : ∀ st ∈ code, st.Fits F) : Conforms F E (do
          let more ← declareRefs rest
          return code ++ more) :=
        conforms_bind (ih hrest) fun more hmore => conforms_pure (List.forall_mem_append.mpr ⟨hcode, hmore⟩)
      rw [declareRefs]
      refine conforms_bind (conforms_exprAs hE _ haddress) fun account haccount => ?_
      refine conforms_bind (conforms_bind conforms_frame fun _ _ => conforms_pure trivial) fun found _ => ?_
      cases found with
      | some name =>
          simp only [pure_bind]
          exact hmore (by nofun)
      | none =>
          refine conforms_bind (conforms_externalRef hE.mild interface haccount) fun ref href => ?_
          refine conforms_bind (conforms_noteInterface interface) fun _ _ => ?_
          refine conforms_bind (conforms_declareRef hE.mild _ _) fun name _ => ?_
          simp only [pure_bind]
          exact hmore (List.forall_mem_singleton.mpr (.letVar href.1))

theorem conforms_withRefs {st : Stmt} (hst : SuitsStmt F E st) {written : Emit (List Rust.Stmt)}
    (hwritten : Conforms F E written) : Conforms F E (withRefs st written) := by
  have hcalls : ∀ c ∈ externalCalls st, c.2.2.Each (Suits F E) := by
    rintro ⟨interface, method, address⟩ hmem
    obtain ⟨e, he, p, args, hsub⟩ := mem_externalCalls hmem
    exact fun x hx => hst.exprs e he x
      (subexprs_subset hsub (mem_subexprs.mpr (.inr ⟨address, by simp [Expr.children], hx⟩)))
  refine conforms_bind (conforms_declareRefs hE hcalls) fun refs hrefs => ?_
  exact conforms_bind hwritten fun stmts hstmts => conforms_pure (List.forall_mem_append.mpr ⟨hrefs, hstmts⟩)

theorem conforms_declareVars {vars : List Param} (hvars : ∀ v ∈ vars, F.ident (Rust.Name.value v.name)) {value : Expr}
    (hvalue : value.Each (Suits F E)) : Conforms F E (declareVars vars value) := by
  unfold declareVars
  split
  · next v =>
      refine conforms_bind (conforms_typeText _) fun t _ => conforms_bind (conforms_exprAs hE _ hvalue) fun x hx => ?_
      refine conforms_bind (conforms_declare (hvars v List.mem_cons_self)) fun _ _ => ?_
      refine conforms_bind (conforms_isMutated _) fun isMut _ => conforms_pure ?_
      exact List.forall_mem_singleton.mpr (.letVar hx)
  · refine conforms_bind (conforms_exprAs hE _ hvalue) fun x hx => ?_
    have hnames : ∀ vs : List Param, (∀ v ∈ vs, F.ident (Rust.Name.value v.name)) →
        @Conforms (List String) (fittingOther _) F E (vs.mapM fun v => do
          let ident := Rust.Name.value v.name
          declare v.name ident
          return if ← isMutated v.name then "mut " ++ ident else ident) := by
      intro vs hvs
      induction vs with
      | nil => exact conforms_pure trivial
      | cons v vs ih =>
          obtain ⟨hv, hvs⟩ := List.forall_mem_cons.mp hvs
          rw [List.mapM_cons]
          refine conforms_bind ?_ fun _ _ => conforms_bind (ih hvs) fun _ _ => conforms_pure trivial
          exact conforms_bind (conforms_declare hv) fun _ _ => conforms_bind (conforms_isMutated _) fun _ _ =>
            conforms_pure trivial
    exact conforms_bind (hnames _ hvars) fun names _ => conforms_pure (List.forall_mem_singleton.mpr (.letVar hx))

-- What is tested, or its opposite, is fit to be tested.
theorem conforms_test_bind {β : Type} [Fitting β] {cond : Expr} {negated : Bool} (hcond : cond.Each (Suits F E))
    (htest : ∀ x, Operand E cond x .bool → F.cond (if negated then x.not else x)) {f : Rust.Expr → Emit β}
    (hf : ∀ x, x.Fits F → F.cond (if negated then x.not else x) → Conforms F E (f x)) :
    Conforms F E (exprAs .bool cond >>= f) :=
  conforms_bind_of_writes (conforms_exprAs hE .bool hcond) fun x _ _ hw hx =>
    hf x hx (htest x (operand_of_exprAs hw))

end Statements

-- The shapes that control takes.

theorem fits_block {code : List Rust.Stmt} (h : ∀ st ∈ code, st.Fits F) : Rust.Block.Fits F ⟨code, none⟩ :=
  .mk h (by nofun)

theorem fits_elseBranch (source : Block) {written : Rust.Block} (hwritten : written.Fits F) :
    (elseBranch source written).Fits F := by
  unfold elseBranch
  split
  · obtain ⟨hstmts, -⟩ := hwritten
    cases hstmts _ List.mem_cons_self with
    | expr he => exact he
  · exact .block hwritten

theorem fits_ifNot {cond : Rust.Expr} {st : Rust.Stmt} (htest : F.cond cond.not) (hcond : cond.Fits F)
    (hst : st.Fits F) : (ifNot cond st).Fits F :=
  .expr (.ifElse htest (.unary hcond) (fits_block (List.forall_mem_singleton.mpr hst)) (by nofun))

theorem fits_doWhile (l : Loop) {cond : Rust.Expr} {body : Rust.Block} (htest : F.cond cond.not)
    (hcond : cond.Fits F) (hbody : body.Fits F) : (doWhile l cond body).Fits F := by
  unfold doWhile
  split
  · refine .loop (fits_block ?_)
    simp only [List.forall_mem_cons]
    exact ⟨.labeled hbody, fits_ifNot htest hcond .breakLoop, List.forall_mem_nil _⟩
  · obtain ⟨hstmts, -⟩ := hbody
    exact .loop (fits_block (List.forall_mem_append.mpr ⟨hstmts,
      List.forall_mem_singleton.mpr (fits_ifNot htest hcond .breakLoop)⟩))

theorem fits_stepLoop (l : Loop) {cond : Option Rust.Expr} (ownBlock : Bool) {body : Rust.Block}
    {post : List Rust.Stmt} (hcond : ∀ c ∈ cond, F.cond c ∧ c.Fits F) (hbody : body.Fits F)
    (hpost : ∀ st ∈ post, st.Fits F) : (stepLoop l cond ownBlock body post).Fits F := by
  have hinner : ∀ st ∈ (if l.resumes then [.labeled l.resumeLabel body]
        else if ownBlock && !post.isEmpty then [.expr (.block body)]
        else body.stmts) ++ post, st.Fits F := by
    refine List.forall_mem_append.mpr ⟨?_, hpost⟩
    split
    · exact List.forall_mem_singleton.mpr (.labeled hbody)
    · split
      · exact List.forall_mem_singleton.mpr (.expr (.block hbody))
      · obtain ⟨hstmts, -⟩ := hbody
        exact hstmts
  unfold stepLoop
  cases cond with
  | none => exact .loop (fits_block hinner)
  | some c => exact .whileLoop (hcond c rfl).1 (hcond c rfl).2 (fits_block hinner)

-- Statements around blocks.

section Compound

variable (hE : Lawful F E) {p : Text.Position} {cond : Expr} {body whenTrue whenFalse : Block}
include hE

theorem conforms_ifThen (hself : SuitsStmt F E (.ifElse p cond whenTrue none)) (htrue : Conforms F E (block whenTrue)) :
    Conforms F E (stmt (.ifElse p cond whenTrue none)) := by
  rw [stmt]
  refine conforms_test_bind hE (hself.exprs cond List.mem_cons_self) (hself.test (cond, false) rfl) fun c hc htest => ?_
  refine conforms_bind htrue fun t ht => conforms_pure ?_
  exact List.forall_mem_singleton.mpr (.expr (.ifElse htest hc ht (by nofun)))

theorem conforms_ifElse (hself : SuitsStmt F E (.ifElse p cond whenTrue (some whenFalse)))
    (htrue : Conforms F E (block whenTrue)) (hfalse : Conforms F E (block whenFalse)) :
    Conforms F E (stmt (.ifElse p cond whenTrue (some whenFalse))) := by
  rw [stmt]
  refine conforms_test_bind hE (hself.exprs cond List.mem_cons_self) (hself.test (cond, false) rfl) fun c hc htest => ?_
  refine conforms_bind htrue fun t ht => conforms_bind hfalse fun e he => conforms_pure ?_
  refine List.forall_mem_singleton.mpr (.expr (.ifElse htest hc ht ?_))
  rintro x ⟨⟩
  exact fits_elseBranch whenFalse he

theorem conforms_whileLoop (hself : SuitsStmt F E (.whileLoop p cond body false))
    (hbody : Conforms F E (block body)) : Conforms F E (stmt (.whileLoop p cond body false)) := by
  rw [stmt]
  refine conforms_test_bind hE (hself.exprs cond List.mem_cons_self) (hself.test (cond, false) rfl) fun c hc htest => ?_
  refine conforms_bind (conforms_inLoop _ hbody) fun lb hlb => conforms_pure ?_
  exact List.forall_mem_singleton.mpr (.whileLoop htest hc hlb.2)

theorem conforms_doWhile (hself : SuitsStmt F E (.whileLoop p cond body true)) (hbody : Conforms F E (block body)) :
    Conforms F E (stmt (.whileLoop p cond body true)) := by
  rw [stmt]
  refine conforms_bind (conforms_inLoop _ hbody) fun lb hlb => ?_
  refine conforms_test_bind hE (hself.exprs cond List.mem_cons_self) (hself.test (cond, true) rfl) fun c hc htest => ?_
  exact conforms_pure (List.forall_mem_singleton.mpr (fits_doWhile lb.1 htest hc hlb.2))

omit hE in
-- A loop behind what runs before it.
theorem conforms_loopAfter {post : Option Stmt} (hbody : Conforms F E (block body))
    (hpost : Conforms F E (optionalStmt post)) {i : List Rust.Stmt} (hi : ∀ st ∈ i, st.Fits F) {c : Option Rust.Expr}
    (hc : ∀ x ∈ c, F.cond x ∧ x.Fits F) : Conforms F E (do
      let (l, b) ← inLoop (post.isSome && continuesBlock body) (block body)
      let p ← optionalStmt post
      let loop := stepLoop l c (declaresVars body) b p
      return if i.isEmpty then [loop] else [.expr (.block ⟨i ++ [loop], none⟩)]) := by
  refine conforms_bind (conforms_inLoop _ hbody) fun lb hlb => conforms_bind hpost fun p hp => conforms_pure ?_
  have hstep := fits_stepLoop lb.1 (declaresVars body) hc hlb.2 hp
  split
  · exact List.forall_mem_singleton.mpr hstep
  · refine List.forall_mem_singleton.mpr (.expr (.block (fits_block ?_)))
    exact List.forall_mem_append.mpr ⟨hi, List.forall_mem_singleton.mpr hstep⟩

theorem conforms_forLoop {init post : Option Stmt} {cond : Option Expr}
    (hself : SuitsStmt F E (.forLoop p init cond post body)) (hinit : Conforms F E (optionalStmt init))
    (hbody : Conforms F E (block body)) (hpost : Conforms F E (optionalStmt post)) :
    Conforms F E (stmt (.forLoop p init cond post body)) := by
  rw [stmt]
  refine conforms_inScope (conforms_bind hinit fun i hi => ?_)
  cases cond with
  | none => exact conforms_loopAfter hbody hpost hi (by simp)
  | some cond =>
      rw [Option.mapM_some, map_eq_pure_bind, bind_assoc]
      refine conforms_test_bind hE (hself.exprs cond List.mem_cons_self) (hself.test (cond, false) rfl) fun c hc htest => ?_
      rw [pure_bind]
      exact conforms_loopAfter hbody hpost hi (by rintro x ⟨⟩; exact ⟨htest, hc⟩)

theorem conforms_require {entry : ErrorEntry} (hself : SuitsStmt F E (.require p cond entry)) :
    Conforms F E (stmt (.require p cond entry)) := by
  rw [stmt]
  refine conforms_test_bind hE (hself.exprs cond List.mem_cons_self) (hself.test (cond, true) rfl) fun c hc htest => ?_
  refine conforms_bind (conforms_abort hE entry (List.forall_mem_nil _)) fun out hout => ?_
  exact conforms_pure (List.forall_mem_singleton.mpr (fits_ifNot htest hc hout))

omit hE in
theorem conforms_breakStmt (p : Text.Position) : Conforms F E (stmt (.breakLoop p)) := by
  rw [stmt]
  refine conforms_bind (conforms_bind (conforms_bind conforms_frame fun _ _ => conforms_pure trivial) fun l _ => ?_)
    fun st hst => conforms_pure (List.forall_mem_singleton.mpr hst)
  split
  · exact conforms_pure .breakLoop
  · exact conforms_throw _

omit hE in
theorem conforms_continueStmt (p : Text.Position) : Conforms F E (stmt (.continueLoop p)) := by
  rw [stmt]
  refine conforms_bind (conforms_bind (conforms_bind conforms_frame fun _ _ => conforms_pure trivial) fun l _ => ?_)
    fun st hst => conforms_pure (List.forall_mem_singleton.mpr hst)
  split
  · split
    · exact conforms_pure .breakLoop
    · exact conforms_pure .continueLoop
  · exact conforms_throw _

end Compound

mutual

theorem conforms_block (hE : Lawful F E) :
    ∀ b : Block, (∀ st ∈ b.substmts, SuitsStmt F E st) → Conforms F E (block b)
  | ⟨start, body, unchecked⟩, hb => by
      have hbody : ∀ st ∈ substmtsList body, SuitsStmt F E st := fun st hst => hb st (List.mem_cons_of_mem _ hst)
      rw [block]
      exact conforms_bind (conforms_inScope (conforms_stmts hE body hbody)) fun written hwritten =>
        conforms_pure (fits_block hwritten)

theorem conforms_stmts (hE : Lawful F E) :
    ∀ sts : List Stmt, (∀ st ∈ substmtsList sts, SuitsStmt F E st) → Conforms F E (stmts sts)
  | [], _ => conforms_pure (by nofun)
  | st :: rest, hsts => by
      have hst : ∀ x ∈ st.substmts, SuitsStmt F E x := fun x hx => hsts x (List.mem_append_left _ hx)
      have hrest : ∀ x ∈ substmtsList rest, SuitsStmt F E x := fun x hx => hsts x (List.mem_append_right _ hx)
      rw [stmts]
      refine conforms_bind (conforms_withRefs hE (hst st (self_mem_substmts st)) (conforms_stmt hE st hst))
        fun written hwritten => ?_
      exact conforms_bind (conforms_stmts hE rest hrest) fun more hmore =>
        conforms_pure (List.forall_mem_append.mpr ⟨hwritten, hmore⟩)

theorem conforms_optionalStmt (hE : Lawful F E) :
    ∀ o : Option Stmt, (∀ st ∈ o, ∀ x ∈ st.substmts, SuitsStmt F E x) → Conforms F E (optionalStmt o)
  | none, _ => conforms_pure (by nofun)
  | some st, ho => by
      have hst := ho st rfl
      rw [optionalStmt]
      exact conforms_withRefs hE (hst st (self_mem_substmts st)) (conforms_stmt hE st hst)

theorem conforms_stmt (hE : Lawful F E) :
    ∀ st : Stmt, (∀ x ∈ st.substmts, SuitsStmt F E x) → Conforms F E (stmt st)
  | .block b, hst => by
      rw [stmt]
      exact conforms_bind (conforms_block hE b hst) fun written hwritten =>
        conforms_pure (List.forall_mem_singleton.mpr (.expr (.block hwritten)))
  | .decl p vars value, hst => by
      have hself := hst _ (self_mem_substmts _)
      rw [stmt]
      exact conforms_declareVars hE hself.vars (hself.exprs value List.mem_cons_self)
  | .assign p target value, hst => by
      have hself := hst _ (self_mem_substmts _)
      rw [stmt]
      refine conforms_bind (conforms_exprAs hE _ (hself.exprs value (by simp [Stmt.directExprs]))) fun x hx => ?_
      exact (conforms_assign hE).1 x target (hself.exprs target (by simp [Stmt.directExprs])) hx
  | .expr p e, hst => by
      have hself := hst _ (self_mem_substmts _)
      rw [stmt]
      exact conforms_exprStmt hE (hself.exprs e List.mem_cons_self)
  | .ifElse p cond whenTrue none, hst =>
      conforms_ifThen hE (hst _ (self_mem_substmts _))
        (conforms_block hE whenTrue fun x hx => hst x (List.mem_cons_of_mem _ hx))
  | .ifElse p cond whenTrue (some whenFalse), hst =>
      conforms_ifElse hE (hst _ (self_mem_substmts _))
        (conforms_block hE whenTrue fun x hx => hst x (List.mem_cons_of_mem _ (List.mem_append_left _ hx)))
        (conforms_block hE whenFalse fun x hx => hst x (List.mem_cons_of_mem _ (List.mem_append_right _ hx)))
  | .whileLoop p cond body false, hst =>
      conforms_whileLoop hE (hst _ (self_mem_substmts _))
        (conforms_block hE body fun x hx => hst x (List.mem_cons_of_mem _ hx))
  | .whileLoop p cond body true, hst =>
      conforms_doWhile hE (hst _ (self_mem_substmts _))
        (conforms_block hE body fun x hx => hst x (List.mem_cons_of_mem _ hx))
  | .forLoop p init cond post body, hst => by
      obtain ⟨hinit, hpost, hbody⟩ := forall_substmts_forLoop hst
      exact conforms_forLoop hE (hst _ (self_mem_substmts _)) (conforms_optionalStmt hE init hinit)
        (conforms_block hE body hbody) (conforms_optionalStmt hE post hpost)
  | .returnValue p value, hst => by
      have hvalue := (hst _ (self_mem_substmts _)).exprs
      rw [stmt]
      refine conforms_bind (conforms_resultValue hE fun e he => hvalue e (Option.mem_toList.mpr he)) fun x hx => ?_
      exact conforms_pure (List.forall_mem_singleton.mpr (.returnValue (.call (List.forall_mem_singleton.mpr hx))))
  | .require p cond entry, hst => conforms_require hE (hst _ (self_mem_substmts _))
  | .revert p entry args, hst => by
      rw [stmt]
      refine conforms_bind (conforms_abort hE entry (hst _ (self_mem_substmts _)).exprs) fun out hout => ?_
      exact conforms_pure (List.forall_mem_singleton.mpr hout)
  | .emit p ev args, hst => by
      rw [stmt]
      refine conforms_bind (conforms_exprsAs hE _ (hst _ (self_mem_substmts _)).exprs) fun xs hxs => ?_
      exact conforms_bind (conforms_emitEvent hE.mild ev hxs) fun st hst =>
        conforms_pure (List.forall_mem_singleton.mpr hst)
  | .breakLoop p, _ => conforms_breakStmt p
  | .continueLoop p, _ => conforms_continueStmt p
  | .placeholder p, _ => by
      rw [stmt]
      exact conforms_throw _

end

end Emit

end RustContracts
