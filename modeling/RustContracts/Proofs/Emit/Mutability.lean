import RustContracts.Proofs.Emit.Assigned

-- Parameters and variables that may be changed. A function marks those that its code changes, wherever it does so, and no
-- others; the marks go with the names of the source, so variables that share an identifier need not share a mark.
namespace RustContracts.Emit

open Program

variable {own : String → Prop} {interfaces vars changed : List String} {E : Env} {s s' : State} {code : List Rust.Stmt}

-- The variables that statements declare and change themselves.

def declaredIn (inside : List Stmt) : List String := inside.flatMap fun st => (declaredVars st).map Param.name

def changedAmong (inside : List Stmt) : List String := inside.flatMap changedIn

-- The identifiers of variables, each with the mark of those that change.
def bindings (changed names : List String) : List (Bool × String) :=
  names.map fun n => (changed.contains n, Rust.Name.value n)

theorem bindings_append (changed names names' : List String) :
    bindings changed (names ++ names') = bindings changed names ++ bindings changed names' := List.map_append

-- Code introduces the variables of statements with their marks and changes those that they change.
structure Mirrors (own : String → Prop) (vars changed : List String) (inside : List Stmt) (code : List Rust.Stmt) : Prop where
  introduces : Amounts (fun b => own b.2) (bindings changed (declaredIn inside)) (introducedIn code)
  assigns : AssignsVars own vars (changedAmong inside) code

namespace Mirrors

variable {inside inside' : List Stmt} {code' inner : List Rust.Stmt}

theorem nil : Mirrors own vars changed [] [] := ⟨.nil, .nil⟩

theorem append (h : Mirrors own vars changed inside code) (h' : Mirrors own vars changed inside' code') :
    Mirrors own vars changed (inside ++ inside') (code ++ code') where
  introduces := by
    rw [declaredIn, List.flatMap_append, bindings_append, introducedIn_append]
    exact h.introduces.append h'.introduces
  assigns := by
    rw [changedAmong, List.flatMap_append]
    exact h.assigns.append h'.assigns

-- The order of the statements does not count.
theorem of_mem (h : Mirrors own vars changed inside code) (hinside : ∀ st, st ∈ inside' ↔ st ∈ inside) :
    Mirrors own vars changed inside' code where
  introduces := h.introduces.of_mem fun b => by simp only [bindings, declaredIn, List.mem_map, List.mem_flatMap, hinside]
  assigns := by
    refine ⟨fun n hn => h.assigns.1 n ?_, h.assigns.2.of_mem fun x => ?_⟩
    · simpa only [changedAmong, List.mem_flatMap, hinside] using hn
    · simp only [idents, changedAmong, List.mem_map, List.mem_flatMap, hinside]

-- A statement that declares and changes nothing itself.
theorem cons {st : Stmt} (hdeclared : declaredVars st = []) (hchanged : changedIn st = [])
    (h : Mirrors own vars changed inside code) : Mirrors own vars changed (st :: inside) code := by
  have hdeclaredIn : declaredIn (st :: inside) = declaredIn inside := by
    rw [declaredIn, List.flatMap_cons, hdeclared, List.map_nil, List.nil_append, declaredIn]
  have hchangedAmong : changedAmong (st :: inside) = changedAmong inside := by
    rw [changedAmong, List.flatMap_cons, hchanged, List.nil_append, changedAmong]
  exact ⟨hdeclaredIn ▸ h.introduces, hchangedAmong ▸ h.assigns⟩

-- A statement of Rust that introduces and assigns nothing itself, around code.
theorem enclosed {outer : Rust.Stmt} (hnested : outer.nested = outer :: Rust.nestedAll inner)
    (hintroduced : introducedBy outer = []) (hassigned : outer.assigned = []) (h : Mirrors own vars changed inside inner) :
    Mirrors own vars changed inside [outer] := by
  have hintroducedIn : introducedIn [outer] = introducedIn inner := by
    rw [introducedIn, Rust.nestedAll_singleton, hnested, List.flatMap_cons, hintroduced, List.nil_append, introducedIn]
  have hassignedIn : assignedIn [outer] = assignedIn inner := by
    rw [assignedIn, Rust.nestedAll_singleton, hnested, List.flatMap_cons, hassigned, List.nil_append, assignedIn]
  refine ⟨hintroducedIn ▸ h.introduces, h.assigns.1, ?_⟩
  rw [Assigns, hassignedIn]
  exact h.assigns.2

theorem silent {st : Rust.Stmt} (hnested : st.nested = [st]) (hintroduced : introducedBy st = []) (hassigned : st.assigned = []) :
    Mirrors own vars changed [] [st] := by
  have hnothing : Mirrors own vars changed [] [] := .nil
  refine hnothing.enclosed ?_ hintroduced hassigned
  rw [hnested, Rust.nestedAll]

-- Names of the compiler's own, which are not assigned.
theorem of_let {name : String} (hname : own name) (hplain : Rust.isTuplePattern name = false) (isMut : Bool) (type : String)
    (value : Option Rust.Expr) : Mirrors own vars changed [] [.letVar isMut name type value] where
  introduces := .of_own fun b hb => by
    rw [introducedIn_step rfl, introducedBy, hplain, if_neg Bool.false_ne_true] at hb
    exact List.mem_singleton.mp hb ▸ hname
  assigns := .silent (assigns_let _ _ _ _)

-- Steps that bind no more than temporary variables.
theorem of_steps (htemp : ∀ n, Temporary n → own n) (hsteps : ∀ st ∈ code, st.isStep = true) (hbinds : BindsTemps code)
    (hdeclared : declaredIn inside = []) (hassigns : AssignsVars own vars (changedAmong inside) code) :
    Mirrors own vars changed inside code where
  introduces := by
    rw [hdeclared]
    refine .of_own fun b hb => ?_
    rw [introducedIn, Rust.nestedAll_steps hsteps] at hb
    obtain ⟨st, hst, hb⟩ := List.mem_flatMap.mp hb
    refine htemp b.2 (hbinds st hst b.2 ?_)
    rw [← map_snd_introducedBy]
    exact List.mem_map_of_mem hb
  assigns := hassigns

end Mirrors

-- Loops and branches.

section Control

variable {body : Rust.Block} {inside inside' : List Stmt} {post : List Rust.Stmt}

theorem mirrors_block (htail : body.tail = none) (h : Mirrors own vars changed inside body.stmts) :
    Mirrors own vars changed inside [.expr (.block body)] := by
  obtain ⟨stmts, tail⟩ := body
  obtain rfl : tail = none := htail
  exact h.enclosed rfl rfl rfl

theorem mirrors_elseBranch (source : Block) (htail : body.tail = none) (h : Mirrors own vars changed inside body.stmts) :
    Mirrors own vars changed inside [.expr (elseBranch source body)] := by
  unfold elseBranch
  split
  · exact h
  · exact mirrors_block htail h

theorem mirrors_ifNot (cond : Rust.Expr) {st : Rust.Stmt} (h : Mirrors own vars changed [] [st]) :
    Mirrors own vars changed [] [ifNot cond st] := h.enclosed rfl rfl rfl

theorem mirrors_break (label : String) : Mirrors own vars changed [] [.breakLoop label] := .silent rfl rfl rfl

theorem mirrors_doWhile (l : Loop) (cond : Rust.Expr) (h : Mirrors own vars changed inside body.stmts) :
    Mirrors own vars changed inside [doWhile l cond body] := by
  obtain ⟨stmts, tail⟩ := body
  have hlabeled (label : String) : Mirrors own vars changed inside [.labeled label ⟨stmts, tail⟩] := h.enclosed rfl rfl rfl
  have hstop (label : String) : Mirrors own vars changed [] [ifNot cond (.breakLoop label)] := mirrors_ifNot cond (mirrors_break label)
  have hcode {first : List Rust.Stmt} {label : String} (hfirst : Mirrors own vars changed inside first) :
      Mirrors own vars changed inside (first ++ [ifNot cond (.breakLoop label)]) := by
    have hboth := hfirst.append (hstop label)
    rwa [List.append_nil] at hboth
  unfold doWhile
  split
  · exact (hcode (hlabeled _)).enclosed rfl rfl rfl
  · exact (hcode h).enclosed rfl rfl rfl

theorem mirrors_stepLoop (l : Loop) (cond : Option Rust.Expr) (ownBlock : Bool) (htail : body.tail = none)
    (h : Mirrors own vars changed inside body.stmts) (hpost : Mirrors own vars changed inside' post) :
    Mirrors own vars changed (inside ++ inside') [stepLoop l cond ownBlock body post] := by
  have hinner : Mirrors own vars changed inside (if l.resumes then [.labeled l.resumeLabel body]
      else if ownBlock && !post.isEmpty then [.expr (.block body)] else body.stmts) := by
    split
    · obtain ⟨stmts, tail⟩ := body
      exact h.enclosed rfl rfl rfl
    · split
      · exact mirrors_block htail h
      · exact h
  cases cond with
  | some c => exact (hinner.append hpost).enclosed rfl rfl rfl
  | none => exact (hinner.append hpost).enclosed rfl rfl rfl

end Control

-- States along the code of a function.

namespace VarsNamed

theorem of_scopes (h : VarsNamed own vars changed s) (hscopes : ∀ scope ∈ s'.frame.scopes, scope ∈ s.frame.scopes)
    (hmutated : s'.frame.mutated = s.frame.mutated) : VarsNamed own vars changed s' where
  mutated := hmutated.trans h.mutated
  locals scope hscope := h.locals scope (hscopes scope hscope)
  refs scope hscope := h.refs scope (hscopes scope hscope)

theorem opened (h : VarsNamed own vars changed s) : VarsNamed own vars changed s.opened where
  mutated := h.mutated
  locals := List.forall_mem_cons.mpr ⟨by nofun, h.locals⟩
  refs := List.forall_mem_cons.mpr ⟨by nofun, h.refs⟩

theorem closed (h : VarsNamed own vars changed s) : VarsNamed own vars changed s.closed :=
  h.of_scopes (fun _ hscope => List.mem_of_mem_tail hscope) rfl

theorem looped (h : VarsNamed own vars changed s) (resumes : Bool) : VarsNamed own vars changed (s.looped resumes) :=
  h.of_scopes (fun _ hscope => hscope) rfl

theorem unlooped (h : VarsNamed own vars changed s) : VarsNamed own vars changed s.unlooped :=
  h.of_scopes (fun _ hscope => hscope) rfl

theorem mapScope (h : VarsNamed own vars changed s) {f : Scope → Scope}
    (hlocals : ∀ scope, ∀ v ∈ (f scope).locals, v ∈ scope.locals ∨ v.1 ∈ vars ∧ v.2 = Rust.Name.value v.1)
    (hrefs : ∀ scope, ∀ r ∈ (f scope).refs, r ∈ scope.refs ∨ own r.2) : VarsNamed own vars changed (s.mapScope f) where
  mutated := h.mutated
  locals scope hscope v hv := by
    rcases s.mem_mapScope hscope with hscope | ⟨old, hold, rfl⟩
    · exact h.locals scope hscope v hv
    · rcases hlocals old v hv with hv | hv
      · rcases hold with hold | rfl
        · exact h.locals old hold v hv
        · cases hv
      · exact hv
  refs scope hscope r hr := by
    rcases s.mem_mapScope hscope with hscope | ⟨old, hold, rfl⟩
    · exact h.refs scope hscope r hr
    · rcases hrefs old r hr with hr | hr
      · rcases hold with hold | rfl
        · exact h.refs old hold r hr
        · cases hr
      · exact hr

theorem declare (h : VarsNamed own vars changed s) {name : String} {u : Unit} (hname : name ∈ vars)
    (hw : Writes (Emit.declare name (Rust.Name.value name)) E s u s') : VarsNamed own vars changed s' := by
  obtain rfl := writes_modify.mp hw
  refine h.mapScope (f := fun scope => { scope with locals := (name, Rust.Name.value name) :: scope.locals })
    (fun scope v hv => ?_) fun scope r hr => .inl hr
  rcases List.mem_cons.mp hv with rfl | hv
  · exact .inr ⟨hname, rfl⟩
  · exact .inl hv

end VarsNamed

-- Steps.

-- A step that keeps what is known of the state and writes code for statements.
def Marking (own : String → Prop) (vars changed : List String) (E : Env) (inside : List Stmt)
    (act : Emit (List Rust.Stmt)) : Prop :=
  ∀ s code s', VarsNamed own vars changed s → Writes act E s code s' →
    VarsNamed own vars changed s' ∧ Mirrors own vars changed inside code

-- A statement of a source whose variables are among those of its function.
structure Listed (interfaces vars : List String) (st : Stmt) : Prop where
  regular : Regular interfaces st
  vars : ∀ v ∈ declaredVars st, v.name ∈ vars

section Steps

theorem isMutated_eq (hs : VarsNamed own vars changed s) {name : String} {isMut : Bool}
    (hw : Writes (isMutated name) E s isMut s') : isMut = changed.contains name ∧ s' = s := by
  have ho : outcome (isMutated name) E s = (.ok (s.frame.mutated.contains name), s) := rfl
  obtain ⟨hisMut, rfl⟩ := Prod.mk.inj (ho.symm.trans hw)
  obtain rfl := Except.ok.inj hisMut
  exact ⟨by rw [hs.mutated], rfl⟩

theorem varsNamed_pattern {vs : List Param} (hvars : ∀ v ∈ vs, v.name ∈ vars) {names : List String}
    (hs : VarsNamed own vars changed s)
    (hw : Writes (vs.mapM fun v => do
      let ident := Rust.Name.value v.name
      Emit.declare v.name ident
      return if ← isMutated v.name then "mut " ++ ident else ident) E s names s') : VarsNamed own vars changed s' := by
  induction vs generalizing s names with
  | nil =>
      obtain ⟨-, rfl⟩ := writes_pure.mp hw
      exact hs
  | cons v vs ih =>
      obtain ⟨hv, hvars⟩ := List.forall_mem_cons.mp hvars
      rw [List.mapM_cons] at hw
      obtain ⟨name, s₁, hname, hw⟩ := writes_bind.mp hw
      obtain ⟨more, s₂, hmore, hw⟩ := writes_bind.mp hw
      obtain ⟨-, rfl⟩ := writes_pure.mp hw
      obtain ⟨_, s₃, hdeclare, hname⟩ := writes_bind.mp hname
      obtain ⟨isMut, s₄, hisMut, hname⟩ := writes_bind.mp hname
      obtain ⟨-, rfl⟩ := writes_pure.mp hname
      have hdeclared := hs.declare hv hdeclare
      obtain ⟨-, rfl⟩ := isMutated_eq hdeclared hisMut
      exact ih hvars hdeclared hmore

theorem marking_declareVars {p : Text.Position} {vs : List Param} {value : Expr}
    (hst : Listed interfaces vars (.decl p vs value)) :
    Marking own vars changed E [.decl p vs value] (declareVars vs value) := by
  have hdeclared : bindings changed (declaredIn [.decl p vs value]) =
      vs.map fun v => (changed.contains v.name, Rust.Name.value v.name) := by
    rw [declaredIn, List.flatMap_singleton, declaredVars, bindings, List.map_map]
    rfl
  have hmirrors {isMut : Bool} {pattern type : String} {x : Rust.Expr}
      (hintroduced : introducedBy (.letVar isMut pattern type (some x)) =
        vs.map fun v => (changed.contains v.name, Rust.Name.value v.name)) :
      Mirrors own vars changed [.decl p vs value] [.letVar isMut pattern type (some x)] := by
    refine ⟨?_, .silent (assigns_let _ _ _ _)⟩
    rw [introducedIn_step rfl, hintroduced, hdeclared]
    exact .self
  intro s code s' hs hw
  unfold declareVars at hw
  split at hw
  · next v =>
      obtain ⟨t, s₁, ht, hw⟩ := writes_bind.mp hw
      obtain ⟨x, s₂, hx, hw⟩ := writes_bind.mp hw
      obtain ⟨_, s₃, hdeclare, hw⟩ := writes_bind.mp hw
      obtain ⟨isMut, s₄, hisMut, hw⟩ := writes_bind.mp hw
      obtain ⟨rfl, rfl⟩ := writes_pure.mp hw
      have hs₃ := ((hs.steady (steady_typeText _) ht).steady (steady_exprAs _ _) hx).declare
        (hst.vars v List.mem_cons_self) hdeclare
      obtain ⟨rfl, rfl⟩ := isMutated_eq hs₃ hisMut
      refine ⟨hs₃, hmirrors ?_⟩
      rw [introducedBy, isTuplePattern_value (hst.regular.vars v List.mem_cons_self), if_neg Bool.false_ne_true]
      rfl
  · obtain ⟨x, s₁, hx, hw⟩ := writes_bind.mp hw
    obtain ⟨names, s₂, hnames, hw⟩ := writes_bind.mp hw
    obtain ⟨rfl, rfl⟩ := writes_pure.mp hw
    have hs₁ := hs.steady (steady_exprAs _ _) hx
    refine ⟨varsNamed_pattern hst.vars hs₁ hnames, hmirrors ?_⟩
    obtain ⟨rfl, -⟩ := writes_pattern hnames
    have hpattern : (vs.map fun v => marked (s₁.frame.mutated.contains v.name) (Rust.Name.value v.name)) =
        (vs.map fun v => (changed.contains v.name, Rust.Name.value v.name)).map fun n => marked n.1 n.2 := by
      rw [List.map_map, hs₁.mutated]
      rfl
    rw [hpattern, introducedBy_tuple]
    intro n hn
    obtain ⟨v, hv, rfl⟩ := List.mem_map.mp hn
    have hident := hst.regular.vars v hv
    exact ⟨value_ne_empty hident, notMem_value hident (by decide) (by decide) (by decide),
      notMem_value hident (by decide) (by decide) (by decide)⟩

variable (href : ∀ n, RefOf interfaces n → own n)
include href

theorem marking_newRef {interface : String} {method : Signature} {account : Rust.Expr}
    (hcall : interface ∈ interfaces ∧ Solidity.isIdentifier interface = true) :
    Marking own vars changed E [] (newRef interface method account) := by
  intro s code s' hs hw
  obtain ⟨found, s₁, hfound, hw⟩ := writes_bind.mp hw
  have hs₁ := hs.steady (steady_ref? _) hfound
  split at hw
  · obtain ⟨rfl, rfl⟩ := writes_pure.mp hw
    exact ⟨hs₁, .nil⟩
  · obtain ⟨made, s₂, hmade, hw⟩ := writes_bind.mp hw
    obtain ⟨_, s₃, hnote, hw⟩ := writes_bind.mp hw
    obtain ⟨name, s₄, hname, hw⟩ := writes_bind.mp hw
    obtain ⟨rfl, rfl⟩ := writes_pure.mp hw
    have hs₃ : VarsNamed own vars changed s₃ :=
      (hs₁.steady (steady_externalRef _ _) hmade).of_sameNames (.of_frame_eq (frame_noteInterface hnote))
    have ho : outcome (declareRef (refKey interface account) interface) E s₃ =
        (.ok (numbered (Rust.Name.value interface) (s₃.refCount interface)),
          (s₃.countRef interface).mapScope fun scope => { scope with
            refs := (refKey interface account, numbered (Rust.Name.value interface) (s₃.refCount interface)) ::
              scope.refs }) := rfl
    obtain ⟨hok, rfl⟩ := Prod.mk.inj (ho.symm.trans hname)
    obtain rfl := Except.ok.inj hok
    have hown := href _ ⟨interface, hcall.1, s₃.refCount interface, rfl⟩
    have hcounted : VarsNamed own vars changed (s₃.countRef interface) := hs₃.of_scopes (fun _ hscope => hscope) rfl
    refine ⟨hcounted.mapScope (fun _ _ hv => .inl hv) fun scope r hr => ?_,
      .of_let hown (isTuplePattern_ref hcall.2 _) _ _ _⟩
    rcases List.mem_cons.mp hr with rfl | hr
    · exact .inr hown
    · exact .inl hr

theorem marking_declareRefs {calls : List (String × Signature × Expr)}
    (hcalls : ∀ call ∈ calls, call.1 ∈ interfaces ∧ Solidity.isIdentifier call.1 = true) :
    Marking own vars changed E [] (declareRefs calls) := by
  induction calls with
  | nil =>
      intro s code s' hs hw
      obtain ⟨rfl, rfl⟩ := writes_pure.mp hw
      exact ⟨hs, .nil⟩
  | cons call rest ih =>
      obtain ⟨hcall, hrest⟩ := List.forall_mem_cons.mp hcalls
      intro s code s' hs hw
      rw [declareRefs_cons] at hw
      obtain ⟨account, s₁, haccount, hw⟩ := writes_bind.mp hw
      obtain ⟨here, s₂, hhere, hw⟩ := writes_bind.mp hw
      obtain ⟨more, s₃, hmore, hw⟩ := writes_bind.mp hw
      obtain ⟨rfl, rfl⟩ := writes_pure.mp hw
      obtain ⟨hs₂, hfirst⟩ := marking_newRef href hcall s₁ here s₂ (hs.steady (steady_exprAs _ _) haccount) hhere
      obtain ⟨hs₃, hlast⟩ := ih hrest s₂ more s₃ hs₂ hmore
      exact ⟨hs₃, hfirst.append hlast⟩

theorem marking_withRefs {st : Stmt} {inside : List Stmt} {written : Emit (List Rust.Stmt)} (hst : Listed interfaces vars st)
    (h : Marking own vars changed E inside written) : Marking own vars changed E inside (withRefs st written) := by
  intro s code s' hs hw
  obtain ⟨refs, s₁, hrefs, hw⟩ := writes_bind.mp hw
  obtain ⟨stmts, s₂, hstmts, hw⟩ := writes_bind.mp hw
  obtain ⟨rfl, rfl⟩ := writes_pure.mp hw
  obtain ⟨hs₁, hfirst⟩ := marking_declareRefs href hst.regular.calls s refs s₁ hs hrefs
  obtain ⟨hs₂, hlast⟩ := h s₁ stmts s₂ hs₁ hstmts
  exact ⟨hs₂, hfirst.append hlast⟩

end Steps

-- Statements.

section Statements

-- A statement that is written as a single one, which introduces and assigns nothing.
theorem marking_last {α : Type} {act : Emit α} {f : α → Rust.Stmt} {st : Stmt} (hdeclared : declaredVars st = [])
    (hchanged : changedIn st = []) (hact : Steady act)
    (h : ∀ a s s', Writes act E s a s' → Mirrors own vars changed [] [f a]) :
    Marking own vars changed E [st] (act >>= fun a => pure [f a]) := by
  intro s code s' hs hw
  obtain ⟨a, s₁, ha, hw⟩ := writes_bind.mp hw
  obtain ⟨rfl, rfl⟩ := writes_pure.mp hw
  exact ⟨hs.steady hact ha, (h a s s₁ ha).cons hdeclared hchanged⟩

theorem mirrors_return (value : Option Rust.Expr) : Mirrors own vars changed [] [.returnValue value] := .silent rfl rfl rfl

theorem mirrors_abort {entry : ErrorEntry} {args : List Expr} {st : Rust.Stmt} (hw : Writes (abort entry args) E s st s') :
    Mirrors own vars changed [] [st] := by
  obtain ⟨error, rfl⟩ := exists_errorReturn hw
  exact mirrors_return _

theorem mirrors_emitEvent {ev : EventDecl} {xs : List Rust.Expr} {st : Rust.Stmt}
    (hw : Writes (emitEvent ev xs) E s st s') : Mirrors own vars changed [] [st] := by
  unfold emitEvent at hw
  rw [writes_of_target] at hw
  split at hw
  · obtain ⟨rfl, -⟩ := writes_pure.mp hw
    exact .silent rfl rfl rfl
  · obtain ⟨_, s₁, -, hw⟩ := writes_bind.mp hw
    obtain ⟨rfl, -⟩ := writes_pure.mp hw
    exact .silent rfl rfl rfl

theorem mirrors_breakStmt {p : Text.Position} {st : Rust.Stmt} (hw : Writes (breakStmt p) E s st s') :
    Mirrors own vars changed [] [st] := by
  obtain ⟨l, -, rfl⟩ := writes_breakStmt hw
  exact mirrors_break _

theorem mirrors_continueStmt {p : Text.Position} {st : Rust.Stmt} (hw : Writes (continueStmt p) E s st s') :
    Mirrors own vars changed [] [st] := by
  obtain ⟨l, -, rfl⟩ := writes_continueStmt hw
  split <;> exact .silent rfl rfl rfl

theorem marking_assign (htemp : ∀ n, Temporary n → own n) (p : Text.Position) (target value : Expr) :
    Marking own vars changed E [.assign p target value] (stmt (.assign p target value)) := by
  intro s code s' hs hw
  rw [stmt] at hw
  obtain ⟨x, s₁, hx, hw⟩ := writes_bind.mp hw
  have hs₁ := hs.steady (steady_exprAs _ _) hx
  refine ⟨hs₁.steady (steady_assign.1 x target) hw, .of_steps htemp (yields_assign.1 x target E s₁ code s' hw)
    (bindsTemps_assign.1 x target s₁ code s' hw) rfl ?_⟩
  rw [changedAmong, List.flatMap_singleton, changedIn]
  exact (assigns_assign htemp).1 x target s₁ code s' hs₁ hw

theorem marking_expr (htemp : ∀ n, Temporary n → own n) (p : Text.Position) (e : Expr) :
    Marking own vars changed E [.expr p e] (stmt (.expr p e)) := by
  intro s code s' hs hw
  rw [stmt] at hw
  refine ⟨hs.steady (steady_exprStmt e) hw, .of_steps htemp (yields_exprStmt e E s code s' hw)
    (bindsTemps_exprStmt hw) rfl ?_⟩
  rw [changedAmong, List.flatMap_singleton]
  exact assigns_exprStmt htemp hs hw

-- The body of a loop.
theorem marking_inLoop {b : Block} {resumes : Bool}
    (h : ∀ s written s', VarsNamed own vars changed s → Writes (block b) E s written s' →
      VarsNamed own vars changed s' ∧ Mirrors own vars changed b.substmts written.stmts ∧ written.tail = none)
    {lb : Loop × Rust.Block} (hs : VarsNamed own vars changed s) (hw : Writes (inLoop resumes (block b)) E s lb s') :
    VarsNamed own vars changed s' ∧ Mirrors own vars changed b.substmts lb.2.stmts ∧ lb.2.tail = none := by
  obtain ⟨t, hb, rfl, -⟩ := writes_looped hw
  obtain ⟨ht, hbody⟩ := h (s.looped resumes) lb.2 t (hs.looped resumes) hb
  exact ⟨ht.unlooped, hbody⟩

-- A loop behind its initialization, in a block of their own if there is one.
theorem mirrors_initialized {inside inside' : List Stmt} {first : List Rust.Stmt} {loop : Rust.Stmt}
    (hfirst : Mirrors own vars changed inside first) (hloop : Mirrors own vars changed inside' [loop]) :
    Mirrors own vars changed (inside ++ inside')
      (if first.isEmpty then [loop] else [.expr (.block ⟨first ++ [loop], none⟩)]) := by
  have hboth := hfirst.append hloop
  split
  · next hempty =>
      obtain rfl := List.isEmpty_iff.mp hempty
      exact hboth
  · exact mirrors_block rfl hboth

-- Temporary variables and references have names of the compiler's own.
structure OwnsNames (own : String → Prop) (interfaces : List String) : Prop where
  temp : ∀ n, Temporary n → own n
  ref : ∀ n, RefOf interfaces n → own n

mutual

theorem marking_block (hown : OwnsNames own interfaces) : ∀ b : Block, (∀ st ∈ b.substmts, Listed interfaces vars st) →
    ∀ s written s', VarsNamed own vars changed s → Writes (block b) E s written s' →
      VarsNamed own vars changed s' ∧ Mirrors own vars changed b.substmts written.stmts ∧ written.tail = none
  | ⟨start, body, unchecked⟩, hb, s, written, s', hs, hw => by
      rw [block] at hw
      obtain ⟨code, s₁, hcode, hw⟩ := writes_bind.mp hw
      obtain ⟨rfl, rfl⟩ := writes_pure.mp hw
      obtain ⟨t, hinner, rfl⟩ := writes_scoped hcode
      obtain ⟨-, hbody⟩ := List.forall_mem_cons.mp hb
      obtain ⟨ht, hmirrors⟩ := marking_stmts hown body hbody s.opened code t hs.opened hinner
      exact ⟨ht.closed, hmirrors.cons rfl rfl, rfl⟩

theorem marking_stmts (hown : OwnsNames own interfaces) : ∀ sts : List Stmt, (∀ st ∈ substmtsList sts, Listed interfaces vars st) →
    Marking own vars changed E (substmtsList sts) (stmts sts)
  | [], _, s, code, s', hs, hw => by
      rw [stmts] at hw
      obtain ⟨rfl, rfl⟩ := writes_pure.mp hw
      exact ⟨hs, .nil⟩
  | st :: rest, hsts, s, code, s', hs, hw => by
      rw [substmtsList, List.forall_mem_append] at hsts
      rw [stmts] at hw
      obtain ⟨first, s₁, hfirst, hw⟩ := writes_bind.mp hw
      obtain ⟨more, s₂, hmore, hw⟩ := writes_bind.mp hw
      obtain ⟨rfl, rfl⟩ := writes_pure.mp hw
      obtain ⟨hs₁, hst⟩ := marking_withRefs hown.ref (hsts.1 st (self_mem_substmts st)) (marking_stmt hown st hsts.1) s first s₁ hs hfirst
      obtain ⟨hs₂, hrest⟩ := marking_stmts hown rest hsts.2 s₁ more s₂ hs₁ hmore
      exact ⟨hs₂, hst.append hrest⟩

theorem marking_optionalStmt (hown : OwnsNames own interfaces) : ∀ o : Option Stmt, (∀ st ∈ o, ∀ x ∈ st.substmts, Listed interfaces vars x) →
    Marking own vars changed E (o.toList.flatMap Stmt.substmts) (optionalStmt o)
  | none, _, s, code, s', hs, hw => by
      rw [optionalStmt] at hw
      obtain ⟨rfl, rfl⟩ := writes_pure.mp hw
      exact ⟨hs, .nil⟩
  | some st, ho, s, code, s', hs, hw => by
      have hst := ho st rfl
      rw [optionalStmt] at hw
      rw [Option.toList_some, List.flatMap_singleton]
      exact marking_withRefs hown.ref (hst st (self_mem_substmts st)) (marking_stmt hown st hst) s code s' hs hw

theorem marking_stmt (hown : OwnsNames own interfaces) : ∀ st : Stmt, (∀ x ∈ st.substmts, Listed interfaces vars x) →
    Marking own vars changed E st.substmts (stmt st)
  | .block b, hst, s, code, s', hs, hw => by
      rw [stmt] at hw
      obtain ⟨written, s₁, hb, hw⟩ := writes_bind.mp hw
      obtain ⟨rfl, rfl⟩ := writes_pure.mp hw
      obtain ⟨hs₁, hmirrors, htail⟩ := marking_block hown b hst s written s₁ hs hb
      exact ⟨hs₁, mirrors_block htail hmirrors⟩
  | .decl p vs value, hst, s, code, s', hs, hw => by
      rw [stmt] at hw
      exact marking_declareVars (hst _ List.mem_cons_self) s code s' hs hw
  | .assign p target value, _, s, code, s', hs, hw => marking_assign hown.temp p target value s code s' hs hw
  | .expr p e, _, s, code, s', hs, hw => marking_expr hown.temp p e s code s' hs hw
  | .ifElse p cond whenTrue none, hst, s, code, s', hs, hw => by
      rw [stmt] at hw
      obtain ⟨c, s₁, hc, hw⟩ := writes_bind.mp hw
      obtain ⟨⟨t, tail⟩, s₂, ht, hw⟩ := writes_bind.mp hw
      obtain ⟨rfl, rfl⟩ := writes_pure.mp hw
      obtain ⟨-, htrue⟩ := List.forall_mem_cons.mp hst
      obtain ⟨hs₂, hmirrors, htail⟩ := marking_block hown whenTrue htrue s₁ _ s₂ (hs.steady (steady_exprAs _ _) hc) ht
      obtain rfl : tail = none := htail
      exact ⟨hs₂, Mirrors.cons rfl rfl (hmirrors.enclosed rfl rfl rfl)⟩
  | .ifElse p cond whenTrue (some whenFalse), hst, s, code, s', hs, hw => by
      rw [stmt] at hw
      obtain ⟨c, s₁, hc, hw⟩ := writes_bind.mp hw
      obtain ⟨⟨t, tail⟩, s₂, ht, hw⟩ := writes_bind.mp hw
      obtain ⟨e, s₃, he, hw⟩ := writes_bind.mp hw
      obtain ⟨rfl, rfl⟩ := writes_pure.mp hw
      obtain ⟨-, hbranches⟩ := List.forall_mem_cons.mp hst
      obtain ⟨htrue, hfalse⟩ := List.forall_mem_append.mp hbranches
      obtain ⟨hs₂, hfirst, htail⟩ := marking_block hown whenTrue htrue s₁ _ s₂ (hs.steady (steady_exprAs _ _) hc) ht
      obtain ⟨hs₃, hsecond, htail'⟩ := marking_block hown whenFalse hfalse s₂ e s₃ hs₂ he
      obtain rfl : tail = none := htail
      have hboth := hfirst.append (mirrors_elseBranch whenFalse htail' hsecond)
      refine ⟨hs₃, Mirrors.cons rfl rfl (hboth.enclosed ?_ rfl rfl)⟩
      rw [Rust.nestedAll_append, Rust.nestedAll_singleton]
      rfl
  | .whileLoop p cond body false, hst, s, code, s', hs, hw => by
      rw [stmt] at hw
      obtain ⟨c, s₁, hc, hw⟩ := writes_bind.mp hw
      obtain ⟨lb, s₂, hlb, hw⟩ := writes_bind.mp hw
      obtain ⟨rfl, rfl⟩ := writes_pure.mp hw
      obtain ⟨-, hbody⟩ := List.forall_mem_cons.mp hst
      obtain ⟨hs₂, hmirrors, -⟩ := marking_inLoop (marking_block hown body hbody) (hs.steady (steady_exprAs _ _) hc) hlb
      refine ⟨hs₂, Mirrors.cons rfl rfl (hmirrors.enclosed ?_ rfl rfl)⟩
      rw [Rust.Stmt.nested, Rust.Block.nested_eq]
  | .whileLoop p cond body true, hst, s, code, s', hs, hw => by
      rw [stmt] at hw
      obtain ⟨lb, s₁, hlb, hw⟩ := writes_bind.mp hw
      obtain ⟨c, s₂, hc, hw⟩ := writes_bind.mp hw
      obtain ⟨rfl, rfl⟩ := writes_pure.mp hw
      obtain ⟨-, hbody⟩ := List.forall_mem_cons.mp hst
      obtain ⟨hs₁, hmirrors, -⟩ := marking_inLoop (marking_block hown body hbody) hs hlb
      exact ⟨hs₁.steady (steady_exprAs _ _) hc, (mirrors_doWhile lb.1 c hmirrors).cons rfl rfl⟩
  | .forLoop p init cond post body, hst, s, code, s', hs, hw => by
      rw [stmt] at hw
      obtain ⟨hinit, hpost, hbody⟩ := forall_substmts_forLoop hst
      obtain ⟨t, hinner, rfl⟩ := writes_scoped hw
      obtain ⟨i, s₁, hi, hw⟩ := writes_bind.mp hinner
      obtain ⟨c, s₂, hc, hw⟩ := writes_bind.mp hw
      obtain ⟨lb, s₃, hlb, hw⟩ := writes_bind.mp hw
      obtain ⟨q, s₄, hq, hw⟩ := writes_bind.mp hw
      obtain ⟨rfl, rfl⟩ := writes_pure.mp hw
      obtain ⟨hs₁, hbefore⟩ := marking_optionalStmt hown init hinit s.opened i s₁ hs.opened hi
      obtain ⟨hs₃, hturn, htail⟩ := marking_inLoop (marking_block hown body hbody) (hs₁.steady (steady_cond cond) hc) hlb
      obtain ⟨hs₄, hstep⟩ := marking_optionalStmt hown post hpost s₃ q s₄ hs₃ hq
      have hloop := mirrors_stepLoop lb.1 c (declaresVars body) htail hturn hstep
      have hwhole : Mirrors own vars changed (.forLoop p init cond post body :: _) _ :=
        (mirrors_initialized hbefore hloop).cons rfl rfl
      exact ⟨hs₄.closed, hwhole.of_mem fun st => by simp [mem_substmts_forLoop, or_comm, or_left_comm]⟩
  | .returnValue p value, _, s, code, s', hs, hw => by
      rw [stmt] at hw
      exact marking_last rfl rfl (steady_resultValue value) (fun x _ _ _ => mirrors_return _) s code s' hs hw
  | .require p cond entry, _, s, code, s', hs, hw => by
      rw [stmt] at hw
      obtain ⟨c, s₁, hc, hw⟩ := writes_bind.mp hw
      exact marking_last rfl rfl (steady_abort entry []) (fun _ _ _ hout => mirrors_ifNot c (mirrors_abort hout)) s₁ code s'
        (hs.steady (steady_exprAs _ _) hc) hw
  | .revert p entry args, _, s, code, s', hs, hw => by
      rw [stmt] at hw
      exact marking_last rfl rfl (steady_abort entry args) (fun _ _ _ hout => mirrors_abort hout) s code s' hs hw
  | .emit p ev args, _, s, code, s', hs, hw => by
      rw [stmt] at hw
      obtain ⟨xs, s₁, hxs, hw⟩ := writes_bind.mp hw
      exact marking_last rfl rfl (steady_emitEvent ev xs) (fun _ _ _ hev => mirrors_emitEvent hev) s₁ code s'
        (hs.steady (steady_exprsAs _ args) hxs) hw
  | .breakLoop p, _, s, code, s', hs, hw => by
      rw [stmt] at hw
      exact marking_last rfl rfl (steady_breakStmt p) (fun _ _ _ hb => mirrors_breakStmt hb) s code s' hs hw
  | .continueLoop p, _, s, code, s', hs, hw => by
      rw [stmt] at hw
      exact marking_last rfl rfl (steady_continueStmt p) (fun _ _ _ hc => mirrors_continueStmt hc) s code s' hs hw
  | .placeholder p, _, s, code, s', hs, hw => by
      rw [stmt] at hw
      exact absurd hw not_writes_throw

end

end Statements

end RustContracts.Emit
