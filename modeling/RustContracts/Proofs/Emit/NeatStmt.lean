import RustContracts.Proofs.Emit.NeatExpr

-- Changes of variables and storage, and the other statements that declare nothing, are neat.
namespace RustContracts.Emit

open Program
open Rust (Rules AllClean CodeClean)

variable {R : Rules} {E : Env} {C : Calls} {x y : Rust.Expr} {xs : List Rust.Expr}

def Change.Clean (R : Rules) : Change → Prop
  | set value | push value => value.Clean R
  | pop => True

theorem neat_changeAt {change : Change} (hchange : change.Clean R) (hx : x.Clean R) :
    Neat R E C (change.at x) := by
  cases change with
  | set value => exact neat_pure ⟨hx, hchange⟩
  | push value => exact neat_bind (neat_arrayPush hx hchange) fun _ hy => neat_pure hy
  | pop => exact neat_bind (neat_arrayPop hx) fun _ hy => neat_pure hy

theorem neat_bindUnlessSimple (hR : R.Free) {stem : String} (hstem : stem ∈ stems) (hx : x.Clean R) :
    Neat R E C (bindUnlessSimple stem x) := by
  unfold bindUnlessSimple
  split
  · exact neat_pure ⟨trivial, hx⟩
  · refine neat_temp_bind hR hstem fun name hname => neat_pure ?_
    exact ⟨⟨Rust.clean_letVar hx, trivial⟩, .inr hname⟩

theorem neat_bindAll (hR : R.Free) {stem : String} (hstem : stem ∈ stems) (hxs : AllClean R xs) :
    Neat R E C (bindAll stem xs) := by
  induction xs with
  | nil => exact neat_pure ⟨trivial, trivial⟩
  | cons x xs ih =>
      refine neat_bind (neat_bindUnlessSimple hR hstem hxs.1) fun b hb => ?_
      refine neat_bind (ih hxs.2) fun bs hbs => neat_pure ?_
      exact ⟨Rust.codeClean_append.mpr ⟨hb.1, hbs.1⟩, hb.2, hbs.2⟩

theorem clean_clonedKey (hx : x.Clean R) : (clonedKey x).Clean R := by
  unfold clonedKey
  split
  · exact Rust.clean_method (by decide) hx
  · exact hx

theorem allClean_clonedKeys (hxs : AllClean R xs) : AllClean R (xs.map clonedKey) := by
  rw [Rust.allClean_iff, List.forall_mem_map]
  exact fun x hx => clean_clonedKey (Rust.allClean_iff.mp hxs x hx)

-- The calls in the keys of a path count.
def Step.CallsIn (C : Calls) : Step → Prop
  | index _ key _ => Emit.CallsIn C key
  | member _ _ _ => True

theorem callsIn_accessPath {e : Expr} (he : CallsIn C e) :
    ∀ step ∈ (accessPath e).2, step.CallsIn C := by
  fun_induction accessPath e with
  | case1 p target key t root steps heq ih =>
      have htarget := he.children target (by simp [Expr.children])
      have hkey := he.children key (by simp [Expr.children])
      rw [heq] at ih
      intro step hstep
      rcases List.mem_append.mp hstep with hstep | hstep
      · exact ih htarget step hstep
      · obtain rfl := List.mem_singleton.mp hstep
        exact hkey
  | case2 p target name t root steps heq ih =>
      have htarget := he.children target (by simp [Expr.children])
      rw [heq] at ih
      intro step hstep
      rcases List.mem_append.mp hstep with hstep | hstep
      · exact ih htarget step hstep
      · obtain rfl := List.mem_singleton.mp hstep
        trivial
  | case3 e => simp

-- What is read into a variable, changed there and written back.
theorem clean_detour {bound inner : List Rust.Stmt} {old back : Rust.Stmt} (hbound : CodeClean R bound)
    (hold : old.Clean R) (hinner : CodeClean R inner) (hback : back.Clean R) :
    CodeClean R (bound ++ [old] ++ inner ++ [back]) := by
  simp only [Rust.codeClean_append]
  exact ⟨⟨⟨hbound, hold, trivial⟩, hinner⟩, hback, trivial⟩

section Changes

variable (hR : R.Free) (hconsts : ConstantsIn C E)
include hR hconsts

-- By induction along the path; the base of the rest is an element or a temporary variable.
theorem neat_changePath {change : Change} (hchange : change.Clean R) {path : List Step}
    (hpath : ∀ step ∈ path, step.CallsIn C) (hx : x.Clean R) :
    Neat R E C (changePath change x path) := by
  induction path generalizing x with
  | nil => exact neat_bind (neat_changeAt hchange hx) fun s hs => neat_pure ⟨hs, trivial⟩
  | cons step rest ih =>
      obtain ⟨hstep, hrest⟩ := List.forall_mem_cons.mp hpath
      cases step with
      | member p name on => exact ih hrest hx
      | index start key on =>
          rw [changePath]
          split
          · exact neat_throw_bind _ _
          · refine neat_bind (neat_exprAs hR hconsts _ hstep) fun k hk => ?_
            refine neat_bind neat_elementsArePlaces fun inPlace _ => ?_
            split
            · refine neat_bind (neat_arrayIndex hx hk _) fun element helement => ?_
              exact ih hrest helement
            · split
              · refine neat_bind (neat_arraySet hx hk _ hchange) fun back hback => ?_
                exact neat_pure ⟨hback, trivial⟩
              · refine neat_bind (neat_bindUnlessSimple hR (by decide) hk) fun b hb => ?_
                refine neat_bind (neat_arrayIndex hx hb.2 _) fun old hold => ?_
                refine neat_temp_bind hR (by decide) fun name hname => ?_
                refine neat_bind (ih hrest (.inr hname)) fun inner hinner => ?_
                refine neat_bind (neat_arraySet hx hb.2 _ (.inr hname)) fun back hback => neat_pure ?_
                exact clean_detour hb.1 (Rust.clean_letVar hold) hinner hback

theorem neat_mappingKeys (d : FieldDecl) (types : List Ty) {path : List Step}
    (hpath : ∀ step ∈ path, step.CallsIn C) : Neat R E C (mappingKeys d types path) := by
  fun_induction mappingKeys d types path with
  | case1 => exact neat_pure trivial
  | case2 => exact neat_pure trivial
  | case3 t types p key on path ih =>
      obtain ⟨hkey, hpath⟩ := List.forall_mem_cons.mp hpath
      refine neat_bind (neat_exprAs hR hconsts t hkey) fun k hk => ?_
      exact neat_bind (ih hpath) fun ks hks => neat_pure ⟨hk, hks⟩
  | case4 => exact neat_throw _

theorem neat_changeField {change : Change} (hchange : change.Clean R) (start : Text.Position)
    (d : FieldDecl) {path : List Step} (hpath : ∀ step ∈ path, step.CallsIn C) :
    Neat R E C (changeField start d path change) := by
  have hkeys := neat_mappingKeys hR hconsts d d.type.mappingKeys hpath
  have hrest : ∀ step ∈ path.drop d.type.mappingDepth, step.CallsIn C :=
    fun step hstep => hpath step (List.mem_of_mem_drop hstep)
  unfold changeField
  dsimp only
  split
  · exact neat_throw_bind _ _
  · refine neat_bind hkeys fun keys hkeys => neat_bind (neat_fieldPlace? hR d) fun place hplace => ?_
    split
    · exact neat_changePath hR hconsts hchange hpath hplace
    · split
      · exact neat_bind (neat_writeField hR d hkeys hchange) fun s hs => neat_pure ⟨hs, trivial⟩
      · refine neat_bind (neat_bindAll hR (by decide) hkeys) fun b hb => ?_
        refine neat_bind (neat_readField hR d (allClean_clonedKeys hb.2)) fun old hold => ?_
        refine neat_temp_bind hR (by decide) fun name hname => ?_
        refine neat_bind (neat_changePath hR hconsts hchange hrest (.inr hname)) fun inner hinner => ?_
        refine neat_bind (neat_writeField hR d hb.2 (.inr hname)) fun back hback => neat_pure ?_
        exact clean_detour hb.1 (Rust.clean_letVar hold) hinner hback

theorem neat_changeTarget (change : Change) (hchange : change.Clean R) {target : Expr}
    (htarget : CallsIn C target) : Neat R E C (changeTarget target change) := by
  have hpath := callsIn_accessPath htarget
  unfold changeTarget
  split
  · rename_i p name t path heq
    rw [heq] at hpath
    refine neat_local_bind fun found hfound => ?_
    cases found with
    | none => exact neat_throw _
    | some ident => exact neat_changePath hR hconsts hchange hpath (.inr (hfound ident rfl))
  · rename_i p d path heq
    rw [heq] at hpath
    exact neat_changeField hR hconsts hchange _ d hpath
  · exact neat_throw _

omit hconsts in
theorem neat_tupleTemps_bind {α : Type} [Tidy α] (es : List Expr) {f : List String → Emit α}
    (hf : ∀ names, (∀ name ∈ names, ¬R.reserved name) → Neat R E C (f names)) :
    Neat R E C (tupleTemps es >>= f) := by
  induction es generalizing f with
  | nil =>
      rw [tupleTemps, pure_bind]
      exact hf [] (by simp)
  | cons e es ih =>
      simp only [tupleTemps, bind_assoc, pure_bind]
      refine neat_temp_bind hR (by decide) fun name hname => ih fun names hnames => ?_
      exact hf (name :: names) (List.forall_mem_cons.mpr ⟨hname, hnames⟩)

-- A tuple is taken apart into temporary variables, each of which is assigned.
theorem neat_assign :
    (∀ value target, value.Clean R → CallsIn C target → Neat R E C (assign value target)) ∧
      ∀ names targets, (∀ name ∈ names, ¬R.reserved name) → (∀ e ∈ targets, CallsIn C e) →
        Neat R E C (assignAll names targets) := by
  apply assign.mutual_induct
    (fun value target => value.Clean R → CallsIn C target → Neat R E C (assign value target))
    (fun names targets => (∀ name ∈ names, ¬R.reserved name) → (∀ e ∈ targets, CallsIn C e) →
      Neat R E C (assignAll names targets))
  · intro value p elements ih hvalue htargets
    rw [assign]
    refine neat_tupleTemps_bind hR elements fun names hnames => ?_
    refine neat_bind (ih names hnames htargets.children) fun parts hparts => neat_pure ?_
    exact ⟨Rust.clean_letVar hvalue, hparts⟩
  · intro value target htuple hvalue htarget
    rw [assign]
    · exact neat_changeTarget hR hconsts (.set value) hvalue htarget
    · exact htuple
  · intro name names e rest ihe ihrest hnames htargets
    obtain ⟨hname, hnames⟩ := List.forall_mem_cons.mp hnames
    obtain ⟨htarget, htargets⟩ := List.forall_mem_cons.mp htargets
    rw [assignAll]
    refine neat_bind (ihe (.inr hname) htarget) fun stmts hstmts => ?_
    refine neat_bind (ihrest hnames htargets) fun more hmore => neat_pure ?_
    exact Rust.codeClean_append.mpr ⟨hstmts, hmore⟩
  · intro names targets hnil _ _
    rw [assignAll]
    · exact neat_pure trivial
    · exact hnil

theorem neat_exprStmt {e : Expr} (he : CallsIn C e) : Neat R E C (exprStmt e) := by
  unfold exprStmt
  split
  · rename_i p array value
    have harray := he.children array (by simp [Expr.children])
    have hvalue := he.children value (by simp [Expr.children])
    refine neat_bind (neat_exprAs hR hconsts _ hvalue) fun x hx => ?_
    exact neat_changeTarget hR hconsts (.push x) hx harray
  · rename_i p array
    exact neat_changeTarget hR hconsts .pop trivial (he.children array (by simp [Expr.children]))
  · exact neat_bind (neat_expr hR hconsts he) fun x hx => neat_pure ⟨hx, trivial⟩

theorem neat_abort (entry : ErrorEntry) {args : List Expr} (hargs : ∀ e ∈ args, CallsIn C e) :
    Neat R E C (abort entry args) := by
  refine neat_bind (neat_exprsAs hR hconsts _ hargs) fun xs hxs => ?_
  refine neat_bind (neat_errorValue entry hxs) fun x hx => neat_pure ?_
  exact Rust.clean_callPath (by decide) ⟨hx, trivial⟩

omit hconsts in
theorem neat_defaultResults (results : List Param) : Neat R E C (defaultResults results) := by
  induction results with
  | nil => exact neat_pure trivial
  | cons r results ih =>
      rw [defaultResults]
      split
      · refine neat_bind (neat_zero hR _) fun x hx => ?_
        exact neat_bind ih fun xs hxs => neat_pure ⟨hx, hxs⟩
      · simp only [pure_bind]
        refine neat_local_bind fun found hfound => neat_bind ih fun xs hxs => neat_pure ⟨.inr ?_, hxs⟩
        cases found with
        | none => exact hR.of_fixed.2.2.2
        | some ident => exact hfound ident rfl

theorem neat_resultValue {value : Option Expr} (hvalue : ∀ e ∈ value, CallsIn C e) :
    Neat R E C (resultValue value) := by
  have hframe : Neat R E C frame := neat_of_steady steady_frame fun _ => trivial
  cases value with
  | none =>
      refine neat_bind hframe fun fr _ => neat_bind (neat_defaultResults hR fr.results) fun xs hxs => ?_
      split
      · exact neat_pure trivial
      · exact neat_pure hxs.1
      · exact neat_pure hxs
  | some e =>
      have he := hvalue e rfl
      refine neat_bind hframe fun fr _ => ?_
      split
      · exact neat_throw _
      · exact neat_exprAs hR hconsts _ he
      · split
        · exact neat_throw_bind _ _
        · exact neat_bind (neat_exprsAs hR hconsts _ he.children) fun xs hxs => neat_pure hxs
      · exact neat_expr hR hconsts he

end Changes

-- Jumps.

theorem neat_breakStmt (start : Text.Position) : Neat R E C (breakStmt start) := by
  have hloop : Neat R E C currentLoop? := neat_of_steady (by grind [currentLoop?]) fun _ => trivial
  refine neat_bind hloop fun l _ => ?_
  split
  · exact neat_pure trivial
  · exact neat_throw _

theorem neat_continueStmt (start : Text.Position) : Neat R E C (continueStmt start) := by
  have hloop : Neat R E C currentLoop? := neat_of_steady (by grind [currentLoop?]) fun _ => trivial
  refine neat_bind hloop fun l _ => ?_
  split
  · refine neat_pure ?_
    split <;> trivial
  · exact neat_throw _

end RustContracts.Emit
