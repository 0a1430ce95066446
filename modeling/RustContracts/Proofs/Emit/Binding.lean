import RustContracts.Proofs.Emit.Control
import RustContracts.Proofs.Emit.Declare
import RustContracts.Proofs.Emit.Deployment
import RustContracts.Proofs.Emit.TrackedStmt

-- What statements bind: in Rust, behind the code that is written for them, and in the table of the variables in scope.
-- Both grow by the variables that a statement declares; the code binds names of the compiler's own between them.
namespace RustContracts.Emit

open Program

variable {E : Env} {s s' s'' : State} {code : List Rust.Stmt}

-- The names that a statement of Rust binds for what comes behind it.
def boundBy : Rust.Stmt → List String
  | .letVar _ pattern _ _ =>
    if Rust.isTuplePattern pattern then (Rust.patternNames pattern).filter (· ≠ "") else [pattern]
  | _ => []

-- The same names, each with whether it may be changed.
def introducedBy : Rust.Stmt → List (Bool × String)
  | .letVar isMut pattern _ _ =>
    if Rust.isTuplePattern pattern then (patternMarks pattern).filter (·.2 ≠ "") else [(isMut, pattern)]
  | _ => []

theorem map_snd_introducedBy (st : Rust.Stmt) : (introducedBy st).map Prod.snd = boundBy st := by
  cases st with
  | letVar isMut pattern type value =>
      rw [introducedBy, boundBy]
      split
      · rw [← map_snd_patternMarks, List.filter_map]
        rfl
      · rfl
  | _ => rfl

-- The names that code has bound at its end, innermost first.
def lets (code : List Rust.Stmt) : List String := (code.flatMap boundBy).reverse

theorem lets_append (a b : List Rust.Stmt) : lets (a ++ b) = lets b ++ lets a := by
  simp [lets, List.flatMap_append]

theorem lets_cons (st : Rust.Stmt) (code : List Rust.Stmt) : lets (st :: code) = lets code ++ (boundBy st).reverse := by
  simp [lets]

theorem mem_lets {n : String} : n ∈ lets code ↔ ∃ st ∈ code, n ∈ boundBy st := by
  simp [lets]

-- Bound names, innermost first: the identifiers of variables in their order, and names of the compiler's own.
inductive Interleaves (own : String → Prop) : List (String × String) → List String → Prop
  | nil : Interleaves own [] []
  | variable {v : String × String} {vars : List (String × String)} {bound : List String} :
      Interleaves own vars bound → Interleaves own (v :: vars) (v.2 :: bound)
  | own {name : String} {vars : List (String × String)} {bound : List String} :
      own name → Interleaves own vars bound → Interleaves own vars (name :: bound)

namespace Interleaves

variable {own : String → Prop} {vars vars' : List (String × String)} {bound bound' : List String}

theorem append (h : Interleaves own vars bound) (h' : Interleaves own vars' bound') :
    Interleaves own (vars ++ vars') (bound ++ bound') := by
  induction h with
  | nil => exact h'
  | «variable» _ ih => exact .variable ih
  | own hname _ ih => exact .own hname ih

theorem of_own (h : ∀ n ∈ bound, own n) : Interleaves own [] bound := by
  induction bound with
  | nil => exact .nil
  | cons n bound ih =>
      obtain ⟨hn, hbound⟩ := List.forall_mem_cons.mp h
      exact .own hn (ih hbound)

theorem of_vars (vars : List (String × String)) : Interleaves own vars (vars.map Prod.snd) := by
  induction vars with
  | nil => exact .nil
  | cons v vars ih => exact .variable ih

theorem mem_cases (h : Interleaves own vars bound) {n : String} (hn : n ∈ bound) : n ∈ vars.map Prod.snd ∨ own n := by
  induction h with
  | nil => cases hn
  | «variable» _ ih =>
      rcases List.mem_cons.mp hn with rfl | hn
      · exact .inl List.mem_cons_self
      · exact (ih hn).imp_left (List.mem_cons_of_mem _)
  | own hname _ ih =>
      rcases List.mem_cons.mp hn with rfl | hn
      · exact .inr hname
      · exact ih hn

end Interleaves

-- Temporary variables.

def Temporary (name : String) : Prop := ∃ k, IsTemp name k

def BindsTemps (code : List Rust.Stmt) : Prop := ∀ st ∈ code, ∀ n ∈ boundBy st, Temporary n

theorem temporary_temp {stem name : String} (hstem : stem ∈ stems) (hw : Writes (temp stem) E s name s') :
    Temporary name := by
  obtain ⟨rfl, -⟩ := writes_temp.mp hw
  exact ⟨_, stem, hstem, rfl⟩

theorem value_ne_empty {n : String} (h : Solidity.isIdentifier n = true) : Rust.Name.value n ≠ "" := by
  intro hempty
  obtain ⟨c, cs, hword, -⟩ := Rust.Name.word_cons h
  rcases Rust.Name.toList_value_cases h with hvalue | hvalue <;> simp [hempty, hword] at hvalue

theorem boundBy_let {name : String} (hname : Rust.isTuplePattern name = false) (isMut : Bool) (type : String)
    (value : Option Rust.Expr) : boundBy (.letVar isMut name type value) = [name] := by
  rw [boundBy, hname, if_neg Bool.false_ne_true]

-- The names in a pattern of several, with the marks of those that change and without.

theorem introducedBy_tuple {names : List (Bool × String)}
    (hnames : ∀ n ∈ names, n.2 ≠ "" ∧ ',' ∉ n.2.toList ∧ ' ' ∉ n.2.toList) (isMut : Bool) (type : String)
    (value : Option Rust.Expr) :
    introducedBy (.letVar isMut ("(" ++ ", ".intercalate (names.map fun n => marked n.1 n.2) ++ ")") type value) =
      names := by
  have htuple : Rust.isTuplePattern ("(" ++ ", ".intercalate (names.map fun n => marked n.1 n.2) ++ ")") = true := by
    simp [Rust.isTuplePattern, String.toList_append]
  rw [introducedBy, if_pos htuple]
  by_cases hnil : names = []
  · subst hnil
    decide
  · rw [patternMarks_tuple hnil fun n hn => (hnames n hn).2, List.filter_eq_self]
    exact fun n hn => decide_eq_true (hnames n hn).1

theorem boundBy_tuple {names : List (Bool × String)}
    (hnames : ∀ n ∈ names, n.2 ≠ "" ∧ ',' ∉ n.2.toList ∧ ' ' ∉ n.2.toList) (isMut : Bool) (type : String)
    (value : Option Rust.Expr) :
    boundBy (.letVar isMut ("(" ++ ", ".intercalate (names.map fun n => marked n.1 n.2) ++ ")") type value) =
      names.map Prod.snd := by
  rw [← map_snd_introducedBy, introducedBy_tuple hnames]

namespace BindsTemps

theorem nil : BindsTemps [] := by nofun

theorem of_silent {st : Rust.Stmt} (h : boundBy st = []) : BindsTemps [st] := by
  intro st' hst n hn
  obtain rfl := List.mem_singleton.mp hst
  rw [h] at hn
  cases hn

theorem append {a b : List Rust.Stmt} (ha : BindsTemps a) (hb : BindsTemps b) : BindsTemps (a ++ b) :=
  List.forall_mem_append.mpr ⟨ha, hb⟩

theorem letTemp {name : String} (hname : Temporary name) (isMut : Bool) (type : String) (value : Option Rust.Expr) :
    BindsTemps [.letVar isMut name type value] := by
  intro st hst n hn
  obtain rfl := List.mem_singleton.mp hst
  obtain ⟨k, htemp⟩ := hname
  rw [boundBy_let htemp.isTuplePattern, List.mem_singleton] at hn
  exact hn ▸ ⟨k, htemp⟩

-- What is read into a variable, changed there and written back.
theorem detour {bound inner : List Rust.Stmt} {back : Rust.Stmt} {name : String} (hbound : BindsTemps bound)
    (hname : Temporary name) (old : Rust.Expr) (hinner : BindsTemps inner) (hback : boundBy back = []) :
    BindsTemps (bound ++ [Rust.Stmt.letVar true name "" (some old)] ++ inner ++ [back]) :=
  ((hbound.append (letTemp hname _ _ _)).append hinner).append (of_silent hback)

end BindsTemps

section Changes

theorem silent_changeAt {change : Change} {place : Rust.Expr} {st : Rust.Stmt}
    (hw : Writes (change.at place) E s st s') : boundBy st = [] := by
  cases change with
  | set value =>
      obtain ⟨rfl, -⟩ := writes_pure.mp hw
      rfl
  | push value | pop =>
      obtain ⟨x, s₁, -, hw⟩ := writes_bind.mp hw
      obtain ⟨rfl, -⟩ := writes_pure.mp hw
      rfl

theorem silent_arraySet {array key value : Rust.Expr} {t : Ty} {st : Rust.Stmt}
    (hw : Writes (arraySet array key t value) E s st s') : boundBy st = [] := by
  unfold arraySet at hw
  rw [writes_of_target] at hw
  split at hw
  · obtain ⟨rfl, -⟩ := writes_pure.mp hw
    rfl
  · obtain ⟨rfl, -⟩ := writes_pure.mp hw
    rfl

theorem silent_writeField {d : FieldDecl} {keys : List Rust.Expr} {value : Rust.Expr} {st : Rust.Stmt}
    (hw : Writes (writeField d keys value) E s st s') : boundBy st = [] := by
  unfold writeField at hw
  rw [writes_of_target] at hw
  split at hw
  · obtain ⟨rfl, -⟩ := writes_pure.mp hw
    unfold Ink.writeField
    split <;> rfl
  · obtain ⟨rfl, -⟩ := writes_pure.mp hw
    rfl

theorem silent_emitEvent {ev : EventDecl} {xs : List Rust.Expr} {st : Rust.Stmt}
    (hw : Writes (emitEvent ev xs) E s st s') : boundBy st = [] := by
  unfold emitEvent at hw
  rw [writes_of_target] at hw
  split at hw
  · obtain ⟨rfl, -⟩ := writes_pure.mp hw
    rfl
  · obtain ⟨_, s₁, -, hw⟩ := writes_bind.mp hw
    obtain ⟨rfl, -⟩ := writes_pure.mp hw
    rfl

theorem bindsTemps_bindUnlessSimple {stem : String} (hstem : stem ∈ stems) {x : Rust.Expr}
    {b : List Rust.Stmt × Rust.Expr} (hw : Writes (bindUnlessSimple stem x) E s b s') : BindsTemps b.1 := by
  unfold bindUnlessSimple at hw
  split at hw
  · obtain ⟨rfl, -⟩ := writes_pure.mp hw
    exact .nil
  · obtain ⟨name, s₁, hname, hw⟩ := writes_bind.mp hw
    obtain ⟨rfl, -⟩ := writes_pure.mp hw
    exact .letTemp (temporary_temp hstem hname) _ _ _

theorem bindsTemps_bindAll {stem : String} (hstem : stem ∈ stems) {xs : List Rust.Expr}
    {b : List Rust.Stmt × List Rust.Expr} (hw : Writes (bindAll stem xs) E s b s') : BindsTemps b.1 := by
  induction xs generalizing s s' b with
  | nil =>
      obtain ⟨rfl, -⟩ := writes_pure.mp hw
      exact .nil
  | cons x xs ih =>
      obtain ⟨first, s₁, hfirst, hw⟩ := writes_bind.mp hw
      obtain ⟨more, s₂, hmore, hw⟩ := writes_bind.mp hw
      obtain ⟨rfl, -⟩ := writes_pure.mp hw
      exact (bindsTemps_bindUnlessSimple hstem hfirst).append (ih hmore)

theorem bindsTemps_changePath {change : Change} {base : Rust.Expr} {path : List Step}
    (hw : Writes (changePath change base path) E s code s') : BindsTemps code := by
  induction path generalizing base s s' code with
  | nil =>
      obtain ⟨st, s₁, hst, hw⟩ := writes_bind.mp hw
      obtain ⟨rfl, -⟩ := writes_pure.mp hw
      exact .of_silent (silent_changeAt hst)
  | cons step rest ih =>
      cases step with
      | member p name on => exact ih hw
      | index start key on =>
          rw [changePath] at hw
          split at hw
          · obtain ⟨_, _, hthrow, -⟩ := writes_bind.mp hw
            exact absurd hthrow not_writes_throw
          · obtain ⟨k, s₁, -, hw⟩ := writes_bind.mp hw
            obtain ⟨inPlace, s₂, -, hw⟩ := writes_bind.mp hw
            split at hw
            · obtain ⟨element, s₃, -, hw⟩ := writes_bind.mp hw
              exact ih hw
            · split at hw
              · obtain ⟨back, s₃, hback, hw⟩ := writes_bind.mp hw
                obtain ⟨rfl, -⟩ := writes_pure.mp hw
                exact .of_silent (silent_arraySet hback)
              · obtain ⟨b, s₃, hb, hw⟩ := writes_bind.mp hw
                obtain ⟨old, s₄, -, hw⟩ := writes_bind.mp hw
                obtain ⟨name, s₅, hname, hw⟩ := writes_bind.mp hw
                obtain ⟨inner, s₆, hinner, hw⟩ := writes_bind.mp hw
                obtain ⟨back, s₇, hback, hw⟩ := writes_bind.mp hw
                obtain ⟨rfl, -⟩ := writes_pure.mp hw
                exact (bindsTemps_bindUnlessSimple (by decide) hb).detour (temporary_temp (by decide) hname) old
                  (ih hinner) (silent_arraySet hback)

theorem bindsTemps_changeField {start : Text.Position} {d : FieldDecl} {path : List Step} {change : Change}
    (hw : Writes (changeField start d path change) E s code s') : BindsTemps code := by
  unfold changeField at hw
  dsimp only at hw
  split at hw
  · obtain ⟨_, _, hthrow, -⟩ := writes_bind.mp hw
    exact absurd hthrow not_writes_throw
  · obtain ⟨keys, s₁, -, hw⟩ := writes_bind.mp hw
    obtain ⟨place, s₂, -, hw⟩ := writes_bind.mp hw
    split at hw
    · exact bindsTemps_changePath hw
    · split at hw
      · obtain ⟨st, s₃, hst, hw⟩ := writes_bind.mp hw
        obtain ⟨rfl, -⟩ := writes_pure.mp hw
        exact .of_silent (silent_writeField hst)
      · obtain ⟨b, s₃, hb, hw⟩ := writes_bind.mp hw
        obtain ⟨old, s₄, -, hw⟩ := writes_bind.mp hw
        obtain ⟨name, s₅, hname, hw⟩ := writes_bind.mp hw
        obtain ⟨inner, s₆, hinner, hw⟩ := writes_bind.mp hw
        obtain ⟨back, s₇, hback, hw⟩ := writes_bind.mp hw
        obtain ⟨rfl, -⟩ := writes_pure.mp hw
        exact (bindsTemps_bindAll (by decide) hb).detour (temporary_temp (by decide) hname) old
          (bindsTemps_changePath hinner) (silent_writeField hback)

theorem bindsTemps_changeTarget {target : Expr} {change : Change}
    (hw : Writes (changeTarget target change) E s code s') : BindsTemps code := by
  unfold changeTarget at hw
  split at hw
  · obtain ⟨found, s₁, -, hw⟩ := writes_bind.mp hw
    split at hw
    · exact bindsTemps_changePath hw
    · exact absurd hw not_writes_throw
  · exact bindsTemps_changeField hw
  · exact absurd hw not_writes_throw

theorem temporary_tupleTemps {es : List Expr} {names : List String} (hw : Writes (tupleTemps es) E s names s') :
    ∀ name ∈ names, Temporary name := by
  induction es generalizing s s' names with
  | nil =>
      obtain ⟨rfl, -⟩ := writes_pure.mp hw
      nofun
  | cons e es ih =>
      obtain ⟨name, s₁, hname, hw⟩ := writes_bind.mp hw
      obtain ⟨more, s₂, hmore, hw⟩ := writes_bind.mp hw
      obtain ⟨rfl, -⟩ := writes_pure.mp hw
      exact List.forall_mem_cons.mpr ⟨temporary_temp (by decide) hname, ih hmore⟩

theorem notMem_toDigits {c : Char} (hc : c.isDigit = false) (k : Nat) : c ∉ Nat.toDigits 10 k := fun hmem => by
  rw [Nat.isDigit_of_mem_toDigits (by decide) (by decide) hmem] at hc
  cases hc

theorem Temporary.plain {name : String} (h : Temporary name) : name ≠ "" ∧ ',' ∉ name.toList ∧ ' ' ∉ name.toList := by
  obtain ⟨k, stem, hstem, rfl⟩ := h
  have hstems : ∀ stem ∈ stems, ',' ∉ stem.toList ∧ ' ' ∉ stem.toList := by decide
  obtain ⟨hcomma, hblank⟩ := hstems stem hstem
  refine ⟨fun h => ?_, ?_, ?_⟩
  · have hlist := congrArg String.toList h
    simp [toList_numbered] at hlist
  · simp [toList_numbered, hcomma, notMem_toDigits (c := ',') rfl]
  · simp [toList_numbered, hblank, notMem_toDigits (c := ' ') rfl]

-- A tuple is taken apart into temporary variables.
theorem bindsTemps_assign :
    (∀ value target, ∀ s code s', Writes (assign value target) E s code s' → BindsTemps code) ∧
      ∀ names targets, ∀ s code s', Writes (assignAll names targets) E s code s' → BindsTemps code := by
  apply assign.mutual_induct
    (fun value target => ∀ s code s', Writes (assign value target) E s code s' → BindsTemps code)
    (fun names targets => ∀ s code s', Writes (assignAll names targets) E s code s' → BindsTemps code)
  · intro value p elements ih s code s' hw
    rw [assign] at hw
    obtain ⟨names, s₁, hnames, hw⟩ := writes_bind.mp hw
    obtain ⟨parts, s₂, hparts, hw⟩ := writes_bind.mp hw
    obtain ⟨rfl, -⟩ := writes_pure.mp hw
    have htemps := temporary_tupleTemps hnames
    have hpattern : names = (names.map fun n => (false, n)).map fun n => marked n.1 n.2 := by
      rw [List.map_map]
      exact (List.map_id names).symm
    refine List.forall_mem_cons.mpr ⟨fun n hn => ?_, ih names s₁ parts s₂ hparts⟩
    rw [hpattern, boundBy_tuple, List.map_map] at hn
    · exact htemps n (by simpa using hn)
    · intro n hn
      obtain ⟨name, hname, rfl⟩ := List.mem_map.mp hn
      exact (htemps name hname).plain
  · intro value target htuple s code s' hw
    rw [assign] at hw
    · exact bindsTemps_changeTarget hw
    · exact htuple
  · intro name names e rest ihe ihrest s code s' hw
    rw [assignAll] at hw
    obtain ⟨first, s₁, hfirst, hw⟩ := writes_bind.mp hw
    obtain ⟨more, s₂, hmore, hw⟩ := writes_bind.mp hw
    obtain ⟨rfl, -⟩ := writes_pure.mp hw
    exact (ihe s first s₁ hfirst).append (ihrest s₁ more s₂ hmore)
  · intro names targets hnil s code s' hw
    rw [assignAll] at hw
    · obtain ⟨rfl, -⟩ := writes_pure.mp hw
      exact .nil
    · exact hnil

theorem bindsTemps_exprStmt {e : Expr} (hw : Writes (exprStmt e) E s code s') : BindsTemps code := by
  unfold exprStmt at hw
  split at hw
  · obtain ⟨x, s₁, -, hw⟩ := writes_bind.mp hw
    exact bindsTemps_changeTarget hw
  · exact bindsTemps_changeTarget hw
  · obtain ⟨x, s₁, -, hw⟩ := writes_bind.mp hw
    obtain ⟨rfl, -⟩ := writes_pure.mp hw
    exact .of_silent rfl

end Changes

-- The table of the variables in scope.

-- A state of a function: there is a scope.
def InFunction (s : State) : Prop := s.frame.scopes ≠ []

-- The innermost scope has new variables, the others are as they were.
def Extends (new : List (String × String)) (s s' : State) : Prop :=
  ∃ scope scope' outer, s.frame.scopes = scope :: outer ∧ s'.frame.scopes = scope' :: outer ∧
    scope'.locals = new ++ scope.locals

def Extending {α : Type} (new : List (String × String)) (act : Emit α) : Prop :=
  ∀ E s a s', InFunction s → Writes act E s a s' → Extends new s s'

-- The variables that a statement declares itself, with their identifiers.
def declaredLocals (st : Stmt) : List (String × String) :=
  ((declaredVars st).map fun v => (v.name, Rust.Name.value v.name)).reverse

def localsOf : List Stmt → List (String × String)
  | [] => []
  | st :: rest => localsOf rest ++ declaredLocals st

section Extends

variable {α β : Type} {new more : List (String × String)}

theorem Extends.inFunction (h : Extends new s s') : InFunction s' := by
  obtain ⟨_, scope', outer, -, hscopes, -⟩ := h
  rw [InFunction, hscopes]
  exact List.cons_ne_nil _ _

theorem Extends.of_scopes (hs : InFunction s) (h : s'.frame.scopes = s.frame.scopes) : Extends [] s s' := by
  obtain ⟨scope, outer, hscopes⟩ := List.exists_cons_of_ne_nil hs
  exact ⟨scope, scope, outer, hscopes, h.trans hscopes, rfl⟩

theorem Extends.trans (h : Extends new s s') (h' : Extends more s' s'') : Extends (more ++ new) s s'' := by
  obtain ⟨scope, scope', outer, hs, hs', hlocals⟩ := h
  obtain ⟨old, scope'', outer', hold, hs'', hlocals'⟩ := h'
  obtain ⟨rfl, rfl⟩ := List.cons.inj (hs'.symm.trans hold)
  exact ⟨scope, scope'', outer, hs, hs'', by rw [hlocals', hlocals, List.append_assoc]⟩

theorem extending_of_steady {act : Emit α} (h : Steady act) : Extending [] act :=
  fun _ _ _ _ hs hw => .of_scopes hs (h.sameNames hw).scopes_eq

theorem extending_bind {act : Emit α} {f : α → Emit β} (hact : Extending new act) (hf : ∀ a, Extending more (f a)) :
    Extending (more ++ new) (act >>= f) := by
  intro E s b s' hs hw
  obtain ⟨a, s₁, ha, hw⟩ := writes_bind.mp hw
  have hfirst := hact E s a s₁ hs ha
  exact hfirst.trans (hf a E s₁ b s' hfirst.inFunction hw)

-- Steps before and behind one that declares.
theorem extending_behind {act : Emit α} {f : α → Emit β} (hact : Steady act) (hf : ∀ a, Extending new (f a)) :
    Extending new (act >>= f) := by
  have h := extending_bind (extending_of_steady hact) hf
  rwa [List.append_nil] at h

theorem extending_before {act : Emit α} {f : α → Emit β} (hact : Extending new act) (hf : ∀ a, Steady (f a)) :
    Extending new (act >>= f) := extending_bind hact fun a => extending_of_steady (hf a)

theorem extending_mapScope {f : Scope → Scope} (hf : ∀ scope, (f scope).locals = new ++ scope.locals) :
    Extending new (modifyScope f) := by
  intro E s u s' hs hw
  obtain rfl := writes_modify.mp hw
  obtain ⟨scope, outer, hscopes⟩ := List.exists_cons_of_ne_nil hs
  exact ⟨scope, f scope, outer, hscopes, by simp [hscopes], hf scope⟩

theorem extending_declare (name ident : String) : Extending [(name, ident)] (declare name ident) :=
  extending_mapScope fun _ => rfl

theorem extending_declareRef (key interface : String) : Extending [] (declareRef key interface) := by
  intro E s name s' hs hw
  cases hw
  obtain ⟨scope, outer, hscopes⟩ := List.exists_cons_of_ne_nil hs
  exact ⟨scope, { scope with refs := (key, _) :: scope.refs }, outer, hscopes, by simp only [hscopes]; rfl, rfl⟩

-- What a step declares in a scope of its own ends with it.
theorem Extends.closed (hs : InFunction s) (h : Extends new s.opened s') : Extends [] s s'.closed := by
  obtain ⟨scope, scope', outer, hinner, houter, -⟩ := h
  obtain ⟨-, rfl⟩ := List.cons.inj hinner
  exact .of_scopes hs (congrArg List.tail houter)

theorem inFunction_opened (s : State) : InFunction s.opened := List.cons_ne_nil _ _

theorem extending_inScope {act : Emit α} (h : Extending new act) : Extending [] (inScope act) := by
  intro E s a s' hs hw
  obtain ⟨t, hact, rfl⟩ := writes_scoped hw
  exact (h E s.opened a t (inFunction_opened s) hact).closed hs

end Extends

-- A step inside a new loop.

def State.looped (s : State) (resumes : Bool) : State :=
  { s with frame := { s.frame with labels := s.frame.labels + 1, loops := ⟨s.frame.labels, resumes⟩ :: s.frame.loops } }

def State.unlooped (s : State) : State := { s with frame := { s.frame with loops := s.frame.loops.tail } }

theorem writes_looped {α : Type} {resumes : Bool} {act : Emit α} {la : Loop × α}
    (hw : Writes (inLoop resumes act) E s la s') :
    ∃ t, Writes act E (s.looped resumes) la.2 t ∧ s' = t.unlooped ∧ la.1.resumes = resumes := by
  obtain ⟨fr, s₁, hframe, hw⟩ := writes_bind.mp hw
  cases hframe
  obtain ⟨_, t, hopen, hw⟩ := writes_bind.mp hw
  obtain rfl := writes_modify.mp hopen
  obtain ⟨b, t, hact, hw⟩ := writes_bind.mp hw
  obtain ⟨_, t', hclose, hw⟩ := writes_bind.mp hw
  obtain rfl := writes_modify.mp hclose
  obtain ⟨rfl, rfl⟩ := writes_pure.mp hw
  exact ⟨t, hact, rfl, rfl⟩

theorem extending_inLoop {α : Type} {new : List (String × String)} (resumes : Bool) {act : Emit α}
    (h : Extending new act) : Extending new (inLoop resumes act) := by
  intro E s la s' hs hw
  obtain ⟨t, hact, rfl, -⟩ := writes_looped hw
  exact h E (s.looped resumes) la.2 t hs hact

-- Along the statements.

theorem extending_declareEach (vars : List Param) :
    Extending (vars.map fun v => (v.name, Rust.Name.value v.name)).reverse (vars.mapM fun v => do
      declare v.name (Rust.Name.value v.name)
      return if ← isMutated v.name then "mut " ++ Rust.Name.value v.name else Rust.Name.value v.name) := by
  have hmutated (name : String) : Steady (isMutated name) := by grind [isMutated]
  induction vars with
  | nil => exact extending_of_steady (steady_pure _)
  | cons v vars ih =>
      rw [List.mapM_cons, List.map_cons, List.reverse_cons]
      refine extending_bind ?_ fun name => extending_before ih fun names => steady_pure _
      exact extending_before (extending_declare _ _) fun _ => steady_bind (hmutated _) fun _ => steady_pure _

theorem extending_declareVars (vars : List Param) (value : Expr) :
    Extending (vars.map fun v => (v.name, Rust.Name.value v.name)).reverse (declareVars vars value) := by
  have hmutated (name : String) : Steady (isMutated name) := by grind [isMutated]
  unfold declareVars
  split
  · refine extending_behind (steady_typeText _) fun t => extending_behind (steady_exprAs _ _) fun x => ?_
    exact extending_before (extending_declare _ _) fun _ => steady_bind (hmutated _) fun _ => steady_pure _
  · exact extending_behind (steady_exprAs _ _) fun x => extending_before (extending_declareEach _) fun _ => steady_pure _

theorem steady_externalRef (interface : String) (account : Rust.Expr) : Steady (externalRef interface account) := by
  grind [externalRef]

theorem extending_noteInterface (interface : String) : Extending [] (noteInterface interface) := by
  intro E s u s' hs hw
  obtain rfl := writes_modify.mp hw
  refine .of_scopes hs ?_
  split <;> rfl

theorem extending_declareRefs (calls : List (String × Signature × Expr)) : Extending [] (declareRefs calls) := by
  induction calls with
  | nil => exact extending_of_steady (steady_pure _)
  | cons call rest ih =>
      have hmore (here : List Rust.Stmt) : Extending [] (declareRefs rest >>= fun more => pure (here ++ more)) :=
        extending_before ih fun more => steady_pure _
      rw [declareRefs]
      refine extending_behind (steady_exprAs _ _) fun account => ?_
      refine extending_behind (steady_ref? _) fun found => ?_
      split
      · exact hmore []
      · refine extending_behind (steady_externalRef _ _) fun made => ?_
        have hdeclare := extending_bind (extending_declareRef (refKey call.1 account) call.1) fun name =>
          hmore [.letVar call.2.1.mutability.mutates name made.2 (some made.1)]
        exact extending_bind (extending_noteInterface call.1) fun _ => hdeclare

theorem extending_withRefs (st : Stmt) {new : List (String × String)} {written : Emit (List Rust.Stmt)}
    (h : Extending new written) : Extending new (withRefs st written) := by
  have hwhole := extending_bind (extending_declareRefs (externalCalls st)) fun refs =>
    extending_before h fun stmts => steady_pure (refs ++ stmts)
  rwa [List.append_nil] at hwhole

mutual

theorem extending_block : ∀ b : Block, Extending [] (block b)
  | ⟨start, body, unchecked⟩ => by
      rw [block]
      exact extending_before (extending_inScope (extending_stmts body)) fun _ => steady_pure _

theorem extending_stmts : ∀ sts : List Stmt, Extending (localsOf sts) (stmts sts)
  | [] => extending_of_steady (steady_pure _)
  | st :: rest => by
      rw [stmts, localsOf]
      exact extending_bind (extending_withRefs st (extending_stmt st)) fun _ =>
        extending_before (extending_stmts rest) fun _ => steady_pure _

theorem extending_optionalStmt : ∀ o : Option Stmt, Extending (localsOf o.toList) (optionalStmt o)
  | none => extending_of_steady (steady_pure _)
  | some st => by
      rw [optionalStmt]
      exact extending_withRefs st (extending_stmt st)

theorem extending_stmt : ∀ st : Stmt, Extending (declaredLocals st) (stmt st)
  | .block b => by
      rw [stmt]
      exact extending_before (extending_block b) fun _ => steady_pure _
  | .decl p vars value => by
      rw [stmt]
      exact extending_declareVars vars value
  | .assign p target value => by
      rw [stmt]
      exact extending_of_steady (steady_bind (steady_exprAs _ _) fun x => steady_assign.1 x target)
  | .expr p e => by
      rw [stmt]
      exact extending_of_steady (steady_exprStmt e)
  | .ifElse p cond whenTrue none => by
      rw [stmt]
      exact extending_behind (steady_exprAs _ _) fun c => extending_before (extending_block whenTrue) fun _ => steady_pure _
  | .ifElse p cond whenTrue (some whenFalse) => by
      rw [stmt]
      refine extending_behind (steady_exprAs _ _) fun c => ?_
      exact extending_bind  (extending_block whenTrue) fun t =>
        extending_before (extending_block whenFalse) fun _ => steady_pure _
  | .whileLoop p cond body false => by
      rw [stmt]
      refine extending_behind (steady_exprAs _ _) fun c => ?_
      exact extending_before (extending_inLoop _ (extending_block body)) fun _ => steady_pure _
  | .whileLoop p cond body true => by
      rw [stmt]
      exact extending_before (extending_inLoop _ (extending_block body)) fun _ =>
        steady_bind (steady_exprAs _ _) fun _ => steady_pure _
  | .forLoop p init cond post body => by
      rw [stmt]
      have hcond : Steady (cond.mapM (exprAs .bool)) := by
        cases cond with
        | none => exact steady_pure _
        | some e => exact steady_bind (steady_exprAs _ e) fun _ => steady_pure _
      have hpost (f : List Rust.Stmt → List Rust.Stmt) :
          Extending (localsOf post.toList) (optionalStmt post >>= fun p => pure (f p)) :=
        extending_before (extending_optionalStmt post) fun _ => steady_pure _
      refine @extending_inScope _ (localsOf post.toList ++ [] ++ localsOf init.toList) _ ?_
      refine extending_bind (extending_optionalStmt init) fun i => extending_behind hcond fun c => ?_
      exact extending_bind (extending_inLoop _ (extending_block body)) fun lb => hpost fun p =>
        if i.isEmpty then [stepLoop lb.1 c (declaresVars body) lb.2 p]
        else [.expr (.block ⟨i ++ [stepLoop lb.1 c (declaresVars body) lb.2 p], none⟩)]
  | .returnValue p value => by
      rw [stmt]
      exact extending_of_steady (steady_bind (steady_resultValue value) fun _ => steady_pure _)
  | .require p cond entry => by
      rw [stmt]
      exact extending_of_steady (steady_bind (steady_exprAs _ _) fun _ =>
        steady_bind (steady_abort entry []) fun _ => steady_pure _)
  | .revert p entry args => by
      rw [stmt]
      exact extending_of_steady (steady_bind (steady_abort entry args) fun _ => steady_pure _)
  | .emit p ev args => by
      rw [stmt]
      exact extending_of_steady (steady_bind (steady_exprsAs _ args) fun xs =>
        steady_bind (steady_emitEvent ev xs) fun _ => steady_pure _)
  | .breakLoop p => by
      rw [stmt]
      exact extending_of_steady (steady_bind (steady_breakStmt p) fun _ => steady_pure _)
  | .continueLoop p => by
      rw [stmt]
      exact extending_of_steady (steady_bind (steady_continueStmt p) fun _ => steady_pure _)
  | .placeholder p => by
      rw [stmt]
      exact extending_of_steady (steady_throw _)

end

-- The variables in scope with their identifiers, innermost first.
def State.variables (s : State) : List (String × String) := s.frame.scopes.flatMap (·.locals)

theorem Extends.variables {new : List (String × String)} (h : Extends new s s') :
    s'.variables = new ++ s.variables := by
  obtain ⟨scope, scope', outer, hs, hs', hlocals⟩ := h
  rw [State.variables, State.variables, hs, hs', List.flatMap_cons, List.flatMap_cons, hlocals, List.append_assoc]

@[simp] theorem variables_opened (s : State) : s.opened.variables = s.variables := rfl

@[simp] theorem variables_looped (s : State) (resumes : Bool) : (s.looped resumes).variables = s.variables := rfl

-- The names that the code of a statement binds.

section Bound

-- The variables that hold references to contracts with these interfaces.
def RefOf (interfaces : List String) (name : String) : Prop :=
  ∃ interface ∈ interfaces, ∃ k, name = numbered (Rust.Name.value interface) k

-- The names that a condition after the body of a loop would see in the scope of that body.
def testSeesBody : Stmt → Bool
  | .whileLoop _ _ body true => declaresVars body && !continuesBlock body
  | _ => false

-- A statement of a source: its variables and the interfaces that it calls have identifiers for names.
structure Regular (interfaces : List String) (st : Stmt) : Prop where
  vars : ∀ v ∈ declaredVars st, Solidity.isIdentifier v.name = true
  calls : ∀ call ∈ externalCalls st, call.1 ∈ interfaces ∧ Solidity.isIdentifier call.1 = true

variable {interfaces : List String}

theorem Regular.of_no_calls {st : Stmt} (hvars : ∀ v ∈ declaredVars st, Solidity.isIdentifier v.name = true)
    (hcalls : externalCalls st = []) : Regular interfaces st :=
  ⟨hvars, by rw [hcalls]; exact List.forall_mem_nil _⟩

theorem isTuplePattern_ref {interface : String} (h : Solidity.isIdentifier interface = true) (k : Nat) :
    Rust.isTuplePattern (numbered (Rust.Name.value interface) k) = false := by
  have hopen : '(' ∉ (numbered (Rust.Name.value interface) k).toList := by
    have hvalue : '(' ∉ (Rust.Name.value interface).toList := notMem_value h (by decide) (by decide) (by decide)
    simp [toList_numbered, hvalue, notMem_toDigits (c := '(') rfl]
  rw [Rust.isTuplePattern, beq_eq_false_iff_ne]
  exact fun hhead => hopen (List.mem_of_head? hhead)

theorem refs_declareRefs {calls : List (String × Signature × Expr)}
    (hcalls : ∀ call ∈ calls, call.1 ∈ interfaces ∧ Solidity.isIdentifier call.1 = true)
    (hw : Writes (declareRefs calls) E s code s') : ∀ n ∈ lets code, RefOf interfaces n := by
  induction calls generalizing s s' code with
  | nil =>
      obtain ⟨rfl, -⟩ := writes_pure.mp hw
      nofun
  | cons call rest ih =>
      obtain ⟨hcall, hrest⟩ := List.forall_mem_cons.mp hcalls
      rw [declareRefs] at hw
      obtain ⟨account, s₁, -, hw⟩ := writes_bind.mp hw
      dsimp only at hw
      obtain ⟨found, s₂, -, hw⟩ := writes_bind.mp hw
      have hmore {here : List Rust.Stmt} {t t' : State} {code : List Rust.Stmt}
          (hhere : ∀ n ∈ lets here, RefOf interfaces n)
          (hw : Writes (declareRefs rest >>= fun more => pure (here ++ more)) E t code t') :
          ∀ n ∈ lets code, RefOf interfaces n := by
        obtain ⟨more, t₁, hmore, hw⟩ := writes_bind.mp hw
        obtain ⟨rfl, -⟩ := writes_pure.mp hw
        rw [lets_append]
        exact List.forall_mem_append.mpr ⟨ih hrest hmore, hhere⟩
      split at hw
      · exact hmore (by nofun) hw
      · obtain ⟨made, s₃, -, hw⟩ := writes_bind.mp hw
        obtain ⟨_, s₄, -, hw⟩ := writes_bind.mp hw
        obtain ⟨name, s₅, hname, hw⟩ := writes_bind.mp hw
        obtain ⟨k, rfl⟩ : ∃ k, name = numbered (Rust.Name.value call.1) k := by
          cases hname
          exact ⟨_, rfl⟩
        refine hmore (fun n hn => ?_) hw
        rw [lets, List.flatMap_singleton, boundBy_let (isTuplePattern_ref hcall.2 k), List.reverse_singleton,
          List.mem_singleton] at hn
        exact ⟨call.1, hcall.1, k, hn⟩

variable {own : String → Prop}

theorem interleaves_declareVars {vars : List Param} (hvars : ∀ v ∈ vars, Solidity.isIdentifier v.name = true)
    {value : Expr} (hw : Writes (declareVars vars value) E s code s') :
    Interleaves own (vars.map fun v => (v.name, Rust.Name.value v.name)).reverse (lets code) := by
  have hall : lets code = (vars.map fun v => (v.name, Rust.Name.value v.name)).reverse.map Prod.snd := by
    rw [List.map_reverse, List.map_map]
    unfold declareVars at hw
    split at hw
    · next v =>
        obtain ⟨t, s₁, -, hw⟩ := writes_bind.mp hw
        obtain ⟨x, s₂, -, hw⟩ := writes_bind.mp hw
        obtain ⟨_, s₃, -, hw⟩ := writes_bind.mp hw
        obtain ⟨mutated, s₄, -, hw⟩ := writes_bind.mp hw
        obtain ⟨rfl, -⟩ := writes_pure.mp hw
        rw [lets, List.flatMap_singleton, boundBy_let (isTuplePattern_value (hvars v List.mem_cons_self))]
        rfl
    · obtain ⟨x, s₁, -, hw⟩ := writes_bind.mp hw
      obtain ⟨names, s₂, hnames, hw⟩ := writes_bind.mp hw
      obtain ⟨rfl, -⟩ := writes_pure.mp hw
      obtain ⟨rfl, -⟩ := writes_pattern hnames
      rw [lets, List.flatMap_singleton]
      have hpattern : (vars.map fun v => marked (s₁.frame.mutated.contains v.name) (Rust.Name.value v.name)) =
          (vars.map fun v => (s₁.frame.mutated.contains v.name, Rust.Name.value v.name)).map fun n => marked n.1 n.2 := by
        rw [List.map_map]
        rfl
      rw [hpattern, boundBy_tuple, List.map_map]
      · rfl
      · intro n hn
        obtain ⟨v, hv, rfl⟩ := List.mem_map.mp hn
        exact ⟨value_ne_empty (hvars v hv), notMem_value (hvars v hv) (by decide) (by decide) (by decide),
          notMem_value (hvars v hv) (by decide) (by decide) (by decide)⟩
  rw [hall]
  exact .of_vars _

theorem BindsTemps.interleaves (h : BindsTemps code) (htemp : ∀ n, Temporary n → own n) : Interleaves own [] (lets code) :=
  .of_own fun n hn => by
    obtain ⟨st, hst, hn⟩ := mem_lets.mp hn
    exact htemp n (h st hst n hn)

theorem interleaves_of_silent {st : Rust.Stmt} (h : boundBy st = []) : Interleaves own [] (lets [st]) := by
  rw [lets, List.flatMap_singleton, h]
  exact .nil

theorem silent_abort {entry : ErrorEntry} {args : List Expr} {st : Rust.Stmt}
    (hw : Writes (abort entry args) E s st s') : boundBy st = [] := by
  obtain ⟨error, rfl⟩ := exists_errorReturn hw
  rfl

theorem silent_breakStmt {p : Text.Position} {st : Rust.Stmt} (hw : Writes (breakStmt p) E s st s') :
    boundBy st = [] := by
  obtain ⟨l, -, rfl⟩ := writes_breakStmt hw
  rfl

theorem silent_continueStmt {p : Text.Position} {st : Rust.Stmt} (hw : Writes (continueStmt p) E s st s') :
    boundBy st = [] := by
  obtain ⟨l, -, rfl⟩ := writes_continueStmt hw
  split <;> rfl

-- All that is written is a single statement that binds nothing.
theorem interleaves_last {α : Type} {act : Emit α} {f : α → Rust.Stmt}
    (hsilent : ∀ a s s', Writes act E s a s' → boundBy (f a) = [])
    (hw : Writes (act >>= fun a => pure [f a]) E s code s') : Interleaves own [] (lets code) := by
  obtain ⟨a, s₁, ha, hw⟩ := writes_bind.mp hw
  obtain ⟨rfl, -⟩ := writes_pure.mp hw
  exact interleaves_of_silent (hsilent a s s₁ ha)

theorem boundBy_stepLoop (l : Loop) (cond : Option Rust.Expr) (ownBlock : Bool) (body : Rust.Block)
    (post : List Rust.Stmt) : boundBy (stepLoop l cond ownBlock body post) = [] := by
  cases cond <;> rfl

theorem boundBy_doWhile (l : Loop) (cond : Rust.Expr) (body : Rust.Block) : boundBy (doWhile l cond body) = [] := by
  unfold doWhile
  split <;> rfl

theorem interleaves_stmt (htemp : ∀ n, Temporary n → own n) {st : Stmt} (hst : Regular interfaces st)
    (hw : Writes (stmt st) E s code s') : Interleaves own (declaredLocals st) (lets code) := by
  cases st with
  | decl p vars value =>
      rw [stmt] at hw
      exact interleaves_declareVars hst.vars hw
  | assign p target value =>
      rw [stmt] at hw
      obtain ⟨x, s₁, -, hw⟩ := writes_bind.mp hw
      exact (bindsTemps_assign.1 x target s₁ code s' hw).interleaves htemp
  | expr p e =>
      rw [stmt] at hw
      exact (bindsTemps_exprStmt hw).interleaves htemp
  | block b =>
      rw [stmt] at hw
      exact interleaves_last (fun _ _ _ _ => rfl) hw
  | ifElse p cond whenTrue whenFalse =>
      cases whenFalse with
      | none =>
          rw [stmt] at hw
          obtain ⟨c, s₁, -, hw⟩ := writes_bind.mp hw
          exact interleaves_last (fun _ _ _ _ => rfl) hw
      | some e =>
          rw [stmt] at hw
          obtain ⟨c, s₁, -, hw⟩ := writes_bind.mp hw
          obtain ⟨t, s₂, -, hw⟩ := writes_bind.mp hw
          exact interleaves_last (fun _ _ _ _ => rfl) hw
  | whileLoop p cond body testLast =>
      cases testLast with
      | false =>
          rw [stmt] at hw
          obtain ⟨c, s₁, -, hw⟩ := writes_bind.mp hw
          have hsilent (lb : Loop × Rust.Block) : boundBy (.whileLoop "" c lb.2) = [] := rfl
          exact interleaves_last (fun lb _ _ _ => hsilent lb) hw
      | true =>
          rw [stmt] at hw
          obtain ⟨lb, s₁, -, hw⟩ := writes_bind.mp hw
          exact interleaves_last (fun _ _ _ _ => boundBy_doWhile _ _ _) hw
  | forLoop p init cond post body =>
      rw [stmt] at hw
      obtain ⟨t, hw, -⟩ := writes_scoped hw
      obtain ⟨i, s₁, -, hw⟩ := writes_bind.mp hw
      obtain ⟨c, s₂, -, hw⟩ := writes_bind.mp hw
      obtain ⟨lb, s₃, -, hw⟩ := writes_bind.mp hw
      obtain ⟨q, s₄, -, hw⟩ := writes_bind.mp hw
      obtain ⟨rfl, -⟩ := writes_pure.mp hw
      split
      · exact interleaves_of_silent (boundBy_stepLoop _ _ _ _ _)
      · exact interleaves_of_silent rfl
  | returnValue p value =>
      rw [stmt] at hw
      exact interleaves_last (fun _ _ _ _ => rfl) hw
  | require p cond entry =>
      rw [stmt] at hw
      obtain ⟨c, s₁, -, hw⟩ := writes_bind.mp hw
      exact interleaves_last (fun _ _ _ _ => rfl) hw
  | revert p entry args =>
      rw [stmt] at hw
      exact interleaves_last (fun _ _ _ => silent_abort) hw
  | emit p ev args =>
      rw [stmt] at hw
      obtain ⟨xs, s₁, -, hw⟩ := writes_bind.mp hw
      exact interleaves_last (fun _ _ _ => silent_emitEvent) hw
  | breakLoop p =>
      rw [stmt] at hw
      exact interleaves_last (fun _ _ _ => silent_breakStmt) hw
  | continueLoop p =>
      rw [stmt] at hw
      exact interleaves_last (fun _ _ _ => silent_continueStmt) hw
  | placeholder p =>
      rw [stmt] at hw
      exact absurd hw not_writes_throw

variable (htemp : ∀ n, Temporary n → own n) (href : ∀ n, RefOf interfaces n → own n)
include htemp href

theorem interleaves_withRefs {st : Stmt} (hst : Regular interfaces st)
    (hw : Writes (withRefs st (stmt st)) E s code s') : Interleaves own (declaredLocals st) (lets code) := by
  obtain ⟨refs, s₁, hrefs, hw⟩ := writes_bind.mp hw
  obtain ⟨written, s₂, hwritten, hw⟩ := writes_bind.mp hw
  obtain ⟨rfl, -⟩ := writes_pure.mp hw
  rw [lets_append, ← List.append_nil (declaredLocals st)]
  exact (interleaves_stmt htemp hst hwritten).append (.of_own fun n hn => href n (refs_declareRefs hst.calls hrefs n hn))

theorem interleaves_stmts {sts : List Stmt} (hsts : ∀ st ∈ sts, Regular interfaces st)
    (hw : Writes (stmts sts) E s code s') : Interleaves own (localsOf sts) (lets code) := by
  induction sts generalizing s s' code with
  | nil =>
      rw [stmts] at hw
      obtain ⟨rfl, -⟩ := writes_pure.mp hw
      exact .nil
  | cons st rest ih =>
      obtain ⟨hst, hrest⟩ := List.forall_mem_cons.mp hsts
      rw [stmts] at hw
      obtain ⟨first, s₁, hfirst, hw⟩ := writes_bind.mp hw
      obtain ⟨more, s₂, hmore, hw⟩ := writes_bind.mp hw
      obtain ⟨rfl, -⟩ := writes_pure.mp hw
      rw [lets_append, localsOf]
      exact (ih hrest hmore).append (interleaves_withRefs htemp href hst hfirst)

theorem interleaves_optionalStmt {o : Option Stmt} (ho : ∀ st ∈ o, Regular interfaces st)
    (hw : Writes (optionalStmt o) E s code s') : Interleaves own (localsOf o.toList) (lets code) := by
  cases o with
  | none =>
      rw [optionalStmt] at hw
      obtain ⟨rfl, -⟩ := writes_pure.mp hw
      exact .nil
  | some st =>
      rw [optionalStmt] at hw
      exact interleaves_withRefs htemp href (ho st rfl) hw

end Bound

end RustContracts.Emit
