import Mathlib.Logic.Relation
import RustContracts.Proofs.Emit.Binding
import RustContracts.Proofs.Emit.ConformsFile

-- The identifiers of local variables. A variable is written as its own name makes it, at every place of a function; so
-- variables that are spelled alike, or like a name of the compiler's own, share an identifier.
namespace RustContracts.Emit

open Program

variable {E : Env} {s s' : State}

-- The variables that a statement declares, the last first.
def declaredNames (st : Stmt) : List String := ((declaredVars st).map Param.name).reverse

-- A place in the code of a function: the statements that are written next, the variables that are in scope, the state
-- in which the statements are written, and the names that are bound there in Rust. Variables and names stand innermost
-- first.
structure Spot where
  code : List Stmt
  visible : List String
  state : State
  bound : List String

-- The places inside a statement. Nothing is left to write where a loop is tested.
inductive Opens (E : Env) : Stmt → List String → State → List String → Spot → Prop
  | block {b : Block} {visible bound : List String} {s : State} :
      Opens E (.block b) visible s bound ⟨b.stmts, visible, s.opened, bound⟩
  | whenTrue {p : Text.Position} {cond : Expr} {t : Block} {e : Option Block} {visible bound : List String}
      {s s₁ : State} {c : Rust.Expr} (hc : Writes (exprAs .bool cond) E s c s₁) :
      Opens E (.ifElse p cond t e) visible s bound ⟨t.stmts, visible, s₁.opened, bound⟩
  | whenFalse {p : Text.Position} {cond : Expr} {t e : Block} {visible bound : List String} {s s₁ s₂ : State}
      {c : Rust.Expr} {written : Rust.Block} (hc : Writes (exprAs .bool cond) E s c s₁)
      (ht : Writes (Emit.block t) E s₁ written s₂) :
      Opens E (.ifElse p cond t (some e)) visible s bound ⟨e.stmts, visible, s₂.opened, bound⟩
  | body {p : Text.Position} {cond : Expr} {b : Block} {visible bound : List String} {s s₁ : State} {c : Rust.Expr}
      (hc : Writes (exprAs .bool cond) E s c s₁) :
      Opens E (.whileLoop p cond b false) visible s bound ⟨b.stmts, visible, (s₁.looped false).opened, bound⟩
  | bodyFirst {p : Text.Position} {cond : Expr} {b : Block} {visible bound : List String} {s : State} :
      Opens E (.whileLoop p cond b true) visible s bound
        ⟨b.stmts, visible, (s.looped (continuesBlock b)).opened, bound⟩
  | testLast {p : Text.Position} {cond : Expr} {b : Block} {visible bound : List String} {s s₁ : State} {l : Loop}
      {written : Rust.Block} (hb : Writes (inLoop (continuesBlock b) (Emit.block b)) E s (l, written) s₁) :
      Opens E (.whileLoop p cond b true) visible s bound
        ⟨[], visible, s₁, (if continuesBlock b then [] else lets written.stmts) ++ bound⟩
  | init {p : Text.Position} {i : Stmt} {cond : Option Expr} {post : Option Stmt} {b : Block}
      {visible bound : List String} {s : State} :
      Opens E (.forLoop p (some i) cond post b) visible s bound ⟨[i], visible, s.opened, bound⟩
  | test {p : Text.Position} {i : Option Stmt} {cond : Option Expr} {post : Option Stmt} {b : Block}
      {visible bound : List String} {s s₁ : State} {before : List Rust.Stmt}
      (hi : Writes (optionalStmt i) E s.opened before s₁) :
      Opens E (.forLoop p i cond post b) visible s bound
        ⟨[], i.toList.flatMap declaredNames ++ visible, s₁, lets before ++ bound⟩
  | turn {p : Text.Position} {i : Option Stmt} {cond : Option Expr} {post : Option Stmt} {b : Block}
      {visible bound : List String} {s s₁ s₂ : State} {before : List Rust.Stmt} {c : Option Rust.Expr}
      (hi : Writes (optionalStmt i) E s.opened before s₁) (hc : Writes (cond.mapM (exprAs .bool)) E s₁ c s₂) :
      Opens E (.forLoop p i cond post b) visible s bound
        ⟨b.stmts, i.toList.flatMap declaredNames ++ visible, (s₂.looped (post.isSome && continuesBlock b)).opened,
          lets before ++ bound⟩
  | post {p : Text.Position} {i : Option Stmt} {cond : Option Expr} {q : Stmt} {b : Block}
      {visible bound : List String} {s s₁ s₂ s₃ : State} {before : List Rust.Stmt} {c : Option Rust.Expr} {l : Loop}
      {written : Rust.Block} (hi : Writes (optionalStmt i) E s.opened before s₁)
      (hc : Writes (cond.mapM (exprAs .bool)) E s₁ c s₂)
      (hb : Writes (inLoop (continuesBlock b) (Emit.block b)) E s₂ (l, written) s₃) :
      Opens E (.forLoop p i cond (some q) b) visible s bound
        ⟨[q], i.toList.flatMap declaredNames ++ visible, s₃,
          (if continuesBlock b || declaresVars b then [] else lets written.stmts) ++ (lets before ++ bound)⟩

-- From a place to the next: behind a statement, to what the statement evaluates itself, or to a place inside it. The
-- latter two stand behind the references that the statement needs.
inductive Leads (E : Env) : Spot → Spot → Prop
  | behind {st : Stmt} {rest : List Stmt} {visible bound : List String} {s s' : State} {code : List Rust.Stmt}
      (hw : Writes (withRefs st (stmt st)) E s code s') :
      Leads E ⟨st :: rest, visible, s, bound⟩ ⟨rest, declaredNames st ++ visible, s', lets code ++ bound⟩
  | here {st : Stmt} {rest : List Stmt} {visible bound : List String} {s s₁ : State} {refs : List Rust.Stmt}
      (hw : Writes (declareRefs (externalCalls st)) E s refs s₁) :
      Leads E ⟨st :: rest, visible, s, bound⟩ ⟨[], visible, s₁, lets refs ++ bound⟩
  | inside {st : Stmt} {rest : List Stmt} {visible bound : List String} {s s₁ : State} {refs : List Rust.Stmt}
      {spot : Spot} (hw : Writes (declareRefs (externalCalls st)) E s refs s₁)
      (h : Opens E st visible s₁ (lets refs ++ bound) spot) : Leads E ⟨st :: rest, visible, s, bound⟩ spot

-- Variables with the identifiers that their names make.
def identified (names : List String) : List (String × String) := names.map fun n => (n, Rust.Name.value n)

-- What holds of a place whose variables are written as their names make them.
structure Sound (own : String → Prop) (spot : Spot) : Prop where
  inFunction : InFunction spot.state
  table : spot.state.variables = identified spot.visible
  binds : Interleaves own (identified spot.visible) spot.bound

-- What has to hold of all code at a place.
def Spot.Tidy (interfaces : List String) (spot : Spot) : Prop :=
  ∀ st ∈ substmtsList spot.code, Regular interfaces st ∧ testSeesBody st = false

section Sound

variable {own : String → Prop} {interfaces : List String} {visible names bound bound' : List String}
  {code more : List Stmt}

theorem identified_append (names more : List String) : identified (names ++ more) = identified names ++ identified more :=
  List.map_append

theorem declaredLocals_eq (st : Stmt) : declaredLocals st = identified (declaredNames st) := by
  simp [declaredLocals, declaredNames, identified, Function.comp_def]

theorem localsOf_optional (i : Option Stmt) : localsOf i.toList = identified (i.toList.flatMap declaredNames) := by
  cases i with
  | none => rfl
  | some st => simp [localsOf, declaredLocals_eq]

theorem Sound.extend (h : Sound own ⟨code, visible, s, bound⟩) (hext : Extends (identified names) s s')
    (hbinds : Interleaves own (identified names) bound') : Sound own ⟨more, names ++ visible, s', bound' ++ bound⟩ where
  inFunction := hext.inFunction
  table := by rw [hext.variables, h.table, identified_append]
  binds := by
    rw [identified_append]
    exact hbinds.append h.binds

theorem Sound.beside (h : Sound own ⟨code, visible, s, bound⟩) (hscopes : Extends [] s s')
    (hbinds : Interleaves own [] bound') : Sound own ⟨more, visible, s', bound' ++ bound⟩ := by
  have hscopes : Extends (identified []) s s' := hscopes
  exact h.extend hscopes hbinds

theorem Sound.of_scopes (h : Sound own ⟨code, visible, s, bound⟩) (hscopes : s'.frame.scopes = s.frame.scopes) :
    Sound own ⟨more, visible, s', bound⟩ := h.beside (.of_scopes h.inFunction hscopes) .nil

theorem Sound.opened (h : Sound own ⟨code, visible, s, bound⟩) : Sound own ⟨more, visible, s.opened, bound⟩ :=
  ⟨inFunction_opened s, h.table, h.binds⟩

theorem Sound.looped (h : Sound own ⟨code, visible, s, bound⟩) (resumes : Bool) :
    Sound own ⟨more, visible, s.looped resumes, bound⟩ := h.of_scopes rfl

theorem Sound.steady (h : Sound own ⟨code, visible, s, bound⟩) {α : Type} {act : Emit α} {a : α} (hact : Steady act)
    (hw : Writes act E s a s') : Sound own ⟨more, visible, s', bound⟩ :=
  h.of_scopes (hact.sameNames hw).scopes_eq

theorem localsOf_of_not_declaresVars {b : Block} (h : declaresVars b = false) : localsOf b.stmts = [] := by
  have hall : ∀ sts : List Stmt, (∀ st ∈ sts, declaredVars st = []) → localsOf sts = [] := by
    intro sts hsts
    induction sts with
    | nil => rfl
    | cons st rest ih =>
        obtain ⟨hst, hrest⟩ := List.forall_mem_cons.mp hsts
        rw [localsOf, ih hrest, declaredLocals, hst]
        rfl
  refine hall _ fun st hst => ?_
  have hdecl := List.any_eq_false.mp h st hst
  cases st with
  | decl => exact absurd rfl hdecl
  | _ => rfl

theorem writes_block {b : Block} {written : Rust.Block} (hw : Writes (block b) E s written s') :
    ∃ t, Writes (stmts b.stmts) E s.opened written.stmts t ∧ s' = t.closed := by
  cases b
  rw [block] at hw
  obtain ⟨code, s₁, hcode, hw⟩ := writes_bind.mp hw
  obtain ⟨rfl, rfl⟩ := writes_pure.mp hw
  exact writes_scoped hcode

theorem steady_cond (cond : Option Expr) : Steady (cond.mapM (exprAs .bool)) := by
  cases cond with
  | none => exact steady_pure _
  | some e => exact steady_bind (steady_exprAs _ e) fun _ => steady_pure _

theorem Sound.behind_refs (href : ∀ n, RefOf interfaces n → own n) {st : Stmt} {refs : List Rust.Stmt}
    (h : Sound own ⟨code, visible, s, bound⟩) (hst : Regular interfaces st)
    (hw : Writes (declareRefs (externalCalls st)) E s refs s') : Sound own ⟨[], visible, s', lets refs ++ bound⟩ :=
  h.beside (extending_declareRefs _ E _ _ _ h.inFunction hw)
    (.of_own fun n hn => href n (refs_declareRefs hst.calls hw n hn))

variable (htemp : ∀ n, Temporary n → own n) (href : ∀ n, RefOf interfaces n → own n)
include htemp href

-- A body that leaves nothing but names of the compiler's own to what stands behind it.
theorem Sound.behind_body {b : Block} {resumes : Bool} {lb : Loop × Rust.Block} (h : Sound own ⟨code, visible, s, bound⟩)
    (hb : ∀ st ∈ b.stmts, Regular interfaces st) {hides : Bool} (hvars : hides = false → declaresVars b = false)
    (hw : Writes (inLoop resumes (Emit.block b)) E s lb s') :
    Sound own ⟨more, visible, s', (if hides then [] else lets lb.2.stmts) ++ bound⟩ := by
  have hext := extending_inLoop resumes (extending_block b) E s lb s' h.inFunction hw
  obtain ⟨t, hblock, -, -⟩ := writes_looped hw
  obtain ⟨t', hstmts, -⟩ := writes_block hblock
  refine h.beside hext ?_
  cases hides with
  | true => exact .nil
  | false => exact localsOf_of_not_declaresVars (hvars rfl) ▸ interleaves_stmts htemp href hb hstmts

theorem Sound.behind_init {i : Option Stmt} {before : List Rust.Stmt} (h : Sound own ⟨code, visible, s, bound⟩)
    (hi : ∀ st ∈ i, ∀ x ∈ st.substmts, Regular interfaces x) (hw : Writes (optionalStmt i) E s.opened before s') :
    Sound own ⟨more, i.toList.flatMap declaredNames ++ visible, s', lets before ++ bound⟩ := by
  have hext := extending_optionalStmt i E s.opened before s' (inFunction_opened s) hw
  have hbinds := interleaves_optionalStmt htemp href (fun st hst => hi st hst st (self_mem_substmts st)) hw
  rw [localsOf_optional] at hext hbinds
  have hopened : Sound own ⟨code, visible, s.opened, bound⟩ := h.opened
  exact hopened.extend hext hbinds

-- Nothing is written behind the body of a loop that is tested there.
theorem Sound.opens {st : Stmt} {spot : Spot} (h : Sound own ⟨code, visible, s, bound⟩)
    (hst : ∀ x ∈ st.substmts, Regular interfaces x) (hsees : spot.code = [] → testSeesBody st = false)
    (hopens : Opens E st visible s bound spot) : Sound own spot := by
  cases hopens with
  | block => exact h.opened
  | whenTrue hc =>
      have hcond : Sound own ⟨[], visible, _, bound⟩ := h.steady (steady_exprAs _ _) hc
      exact hcond.opened
  | whenFalse hc ht =>
      have hcond : Sound own ⟨[], visible, _, bound⟩ := h.steady (steady_exprAs _ _) hc
      have htrue : Sound own ⟨[], visible, _, bound⟩ :=
        hcond.beside (extending_block _ E _ _ _ hcond.inFunction ht) .nil
      exact htrue.opened
  | body hc =>
      have hcond : Sound own ⟨[], visible, _, bound⟩ := h.steady (steady_exprAs _ _) hc
      have hlooped : Sound own ⟨[], visible, _, bound⟩ := hcond.looped false
      exact hlooped.opened
  | @bodyFirst p cond b =>
      have hlooped : Sound own ⟨[], visible, _, bound⟩ := h.looped (continuesBlock b)
      exact hlooped.opened
  | @testLast p cond b visible bound s s₁ l written hb =>
      obtain ⟨-, hinner⟩ := List.forall_mem_cons.mp hst
      refine h.behind_body htemp href (fun x hx => ?_) (fun hides => ?_) hb
      · exact hinner x (mem_substmts_of_mem hx)
      · simpa [testSeesBody, hides] using hsees rfl
  | init => exact h.opened
  | test hi => exact h.behind_init htemp href (forall_substmts_forLoop hst).1 hi
  | @turn p i cond post b visible bound s s₁ s₂ before c hi hc =>
      have hinit : Sound own ⟨[], _, _, _⟩ := h.behind_init htemp href (forall_substmts_forLoop hst).1 hi
      have hcond : Sound own ⟨[], _, _, _⟩ := hinit.steady (steady_cond _) hc
      have hlooped : Sound own ⟨[], _, _, _⟩ := hcond.looped (post.isSome && continuesBlock b)
      exact hlooped.opened
  | @post p i cond q b visible bound s s₁ s₂ s₃ before c l written hi hc hb =>
      have hinit : Sound own ⟨[], _, _, _⟩ := h.behind_init htemp href (forall_substmts_forLoop hst).1 hi
      have hcond : Sound own ⟨[], _, _, _⟩ := hinit.steady (steady_cond _) hc
      refine hcond.behind_body htemp href (fun x hx => ?_) (fun hides => ?_) hb
      · exact (forall_substmts_forLoop hst).2.2 x (mem_substmts_of_mem hx)
      · exact (Bool.or_eq_false_iff.mp hides).2

theorem Leads.sound_of_regular {spot spot' : Spot} (hleads : Leads E spot spot')
    (hregular : ∀ st ∈ substmtsList spot.code, Regular interfaces st)
    (hsees : spot'.code = [] → ∀ st ∈ spot.code, testSeesBody st = false) (h : Sound own spot) : Sound own spot' := by
  cases hleads with
  | @behind st rest visible bound s s' code hw =>
      have hself := hregular st (mem_substmtsList List.mem_cons_self st (self_mem_substmts st))
      have hext := extending_withRefs st (extending_stmt st) E _ _ _ h.inFunction hw
      have hbinds := interleaves_withRefs htemp href hself hw
      rw [declaredLocals_eq] at hext hbinds
      exact h.extend hext hbinds
  | @here st rest visible bound s s₁ refs hw =>
      exact h.behind_refs href (hregular st (mem_substmtsList List.mem_cons_self st (self_mem_substmts st))) hw
  | @inside st rest visible bound s s₁ refs spot' hw hopens =>
      have hself := hregular st (mem_substmtsList List.mem_cons_self st (self_mem_substmts st))
      exact (h.behind_refs href hself hw).opens htemp href
        (fun x hx => hregular x (mem_substmtsList List.mem_cons_self x hx))
        (fun hnil => hsees hnil st List.mem_cons_self) hopens

theorem Leads.sound {spot spot' : Spot} (hleads : Leads E spot spot') (htidy : spot.Tidy interfaces)
    (h : Sound own spot) : Sound own spot' :=
  hleads.sound_of_regular htemp href (fun st hst => (htidy st hst).1)
    (fun _ st hst => (htidy st (mem_substmtsList hst st (self_mem_substmts st))).2) h

end Sound

theorem Opens.substmts {st : Stmt} {visible bound : List String} {spot : Spot} (h : Opens E st visible s bound spot) :
    ∀ x ∈ substmtsList spot.code, x ∈ st.substmts := by
  have hblock (b : Block) : ∀ x ∈ substmtsList b.stmts, x ∈ b.substmts := by
    cases b
    exact fun x hx => List.mem_cons_of_mem _ hx
  have hsingle (i : Stmt) : ∀ x ∈ substmtsList [i], x ∈ i.substmts := by simp [substmtsList]
  cases h with
  | @block b => exact hblock b
  | @whenTrue p cond t e =>
      intro x hx
      cases e <;> simp [Stmt.substmts, hblock t x hx]
  | @whenFalse p cond t e =>
      intro x hx
      simp [Stmt.substmts, hblock e x hx]
  | @body p cond b | @bodyFirst p cond b =>
      intro x hx
      simp [Stmt.substmts, hblock b x hx]
  | testLast | test =>
      intro x hx
      cases hx
  | @init p i cond post b =>
      intro x hx
      cases post <;> simp [Stmt.substmts, hsingle i x hx]
  | @turn p i cond post b =>
      intro x hx
      cases i <;> cases post <;> simp [Stmt.substmts, hblock b x hx]
  | @post p i cond q b =>
      intro x hx
      cases i <;> simp [Stmt.substmts, hsingle q x hx]

theorem Leads.substmts {spot spot' : Spot} (hleads : Leads E spot spot') :
    ∀ x ∈ substmtsList spot'.code, x ∈ substmtsList spot.code := by
  intro x hx
  cases hleads with
  | behind hw => exact List.mem_append_right _ hx
  | here hw => cases hx
  | inside hw hopens => exact List.mem_append_left _ (hopens.substmts x hx)

theorem Leads.tidy {interfaces : List String} {spot spot' : Spot} (hleads : Leads E spot spot')
    (h : spot.Tidy interfaces) : spot'.Tidy interfaces := fun x hx => h x (hleads.substmts x hx)

-- All places that are reached from a place.
abbrev Reaches (E : Env) : Spot → Spot → Prop := Relation.ReflTransGen (Leads E)

theorem Reaches.sound {own : String → Prop} {interfaces : List String} (htemp : ∀ n, Temporary n → own n)
    (href : ∀ n, RefOf interfaces n → own n) {spot spot' : Spot} (hreaches : Reaches E spot spot')
    (htidy : spot.Tidy interfaces) (h : Sound own spot) : Sound own spot' := by
  have hboth : spot'.Tidy interfaces ∧ Sound own spot' := by
    induction hreaches with
    | refl => exact ⟨htidy, h⟩
    | tail _ hleads ih => exact ⟨hleads.tidy ih.1, hleads.sound htemp href ih.1 ih.2⟩
  exact hboth.2

-- Identifiers.

-- The innermost binding of the identifier of a variable is the one that was made for it.
def Denotes (own : String → Prop) (spot : Spot) (name : String) : Prop :=
  ∃ newer outer names rest, spot.visible = newer ++ name :: outer ∧ spot.bound = names ++ Rust.Name.value name :: rest ∧
    Interleaves own (identified newer) names ∧ Interleaves own (identified outer) rest ∧ name ∉ newer ∧
    Rust.Name.value name ∉ names

theorem Interleaves.split {own : String → Prop} {visible bound : List String}
    (h : Interleaves own (identified visible) bound) {name : String} (hname : name ∈ visible)
    (happart : ∀ n ∈ visible, Rust.Name.value n = Rust.Name.value name → n = name) (hown : ¬own (Rust.Name.value name)) :
    ∃ newer outer names rest, visible = newer ++ name :: outer ∧ bound = names ++ Rust.Name.value name :: rest ∧
      Interleaves own (identified newer) names ∧ Interleaves own (identified outer) rest ∧ name ∉ newer ∧
      Rust.Name.value name ∉ names := by
  generalize hvars : identified visible = vars at h
  induction h generalizing visible with
  | nil =>
      rw [List.map_eq_nil_iff.mp hvars] at hname
      cases hname
  | @«variable» v vars bound h ih =>
      obtain ⟨n, visible, rfl, rfl, rfl⟩ := List.map_eq_cons_iff.mp hvars
      obtain ⟨hsame, happart⟩ := List.forall_mem_cons.mp happart
      by_cases heq : n = name
      · subst heq
        exact ⟨[], visible, [], bound, rfl, rfl, .nil, h, List.not_mem_nil, List.not_mem_nil⟩
      · obtain ⟨newer, outer, names, rest, rfl, rfl, hnewer, houter, hnew, hident⟩ :=
          ih ((List.mem_cons.mp hname).resolve_left (Ne.symm heq)) happart rfl
        refine ⟨n :: newer, outer, Rust.Name.value n :: names, rest, rfl, rfl, .variable hnewer, houter, ?_, ?_⟩
        · exact List.not_mem_cons_of_ne_of_not_mem (Ne.symm heq) hnew
        · exact List.not_mem_cons_of_ne_of_not_mem (fun h => heq (hsame h.symm)) hident
  | @own n vars bound hn h ih =>
      obtain ⟨newer, outer, names, rest, rfl, rfl, hnewer, houter, hnew, hident⟩ := ih hname happart hvars
      refine ⟨newer, outer, n :: names, rest, rfl, rfl, .own hn hnewer, houter, hnew, ?_⟩
      exact List.not_mem_cons_of_ne_of_not_mem (fun h => hown (h ▸ hn)) hident

-- Functions.

-- The name of a parameter, without the mark of those that change.
def unmarked (name : String) : String :=
  if name.toList.take 4 = "mut ".toList then String.ofList (name.toList.drop 4) else name

theorem unmarked_eq (name : String) : unmarked name = (readMark name.toList).2 := by
  unfold unmarked readMark
  split
  · rfl
  · rw [String.ofList_toList]

theorem unmarked_marked (isMut : Bool) {name : String} (h : ' ' ∉ name.toList) : unmarked (marked isMut name) = name := by
  rw [unmarked_eq, readMark_marked isMut h]

theorem unmarked_arg (k : Nat) : unmarked ("_arg" ++ toString k) = "_arg" ++ toString k :=
  unmarked_marked false (by simp [String.toList_append, notMem_toDigits (c := ' ') rfl])

-- What a function is written for: its parameters and named results, and its code inside its modifiers.
inductive Carries (E : Env) (g : Rust.Function) : List Param → List Param → List Stmt → Prop
  | function {r : Routine} {f : Function} {i : Implementation} {body inner : Block} {s s' s₁ s₂ s₃ s₄ : State}
      (hbody : i.body = some body) (hguarded : Writes (guarded body i.modifiers) E s₁ inner s₂)
      (hparams : Writes (rustParams i.params) E s₃ r.params s₄) (hw : Writes (function r f (some i)) E s g s') :
      Carries E g i.params i.returns inner.stmts
  | initializer {c : Contract} {r : Routine} {code : List Stmt} {s s' s₁ s₂ s₃ s₄ : State}
      (hcode : Writes (constructorCode c) E s₁ code s₂)
      (hparams : Writes (rustParams (constructorParams c)) E s₃ r.params s₄) (hw : Writes (classInit c r) E s g s') :
      Carries E g (constructorParams c) [] (fieldInits c ++ code)

-- A function is written by writing the code at a place, behind what binds its parameters and results.
def Enters (E : Env) (g : Rust.Function) (spot : Spot) : Prop :=
  ∃ before written tail s', g.body = some ⟨before ++ written, tail⟩ ∧ Writes (stmts spot.code) E spot.state written s' ∧
    spot.bound = lets before ++ (g.params.map fun p => unmarked p.name).reverse

-- The names of variables that have one, the last first.
def named (params : List Param) : List String := ((params.map Param.name).filter (· ≠ "")).reverse

-- The names that the compiler adds on its own: parameters of Soroban contracts, temporary variables, references to
-- contracts, and parameters without a name.
def IsOwn (target : Target) (interfaces : List String) (name : String) : Prop :=
  (target = .soroban ∧ name ∈ ["env", "caller"]) ∨ Temporary name ∨ RefOf interfaces name ∨
    ∃ k : Nat, name = "_arg" ++ toString k

-- The names that the compiler adds end in a number, but for those of Soroban's parameters.
theorem IsOwn.ends {target : Target} {interfaces : List String} {name : String} (h : IsOwn target interfaces name) :
    name ∈ ["env", "caller"] ∨ ∃ digit, name.toList.getLast? = some digit ∧ digit.isDigit = true := by
  have hends (start : List Char) (k : Nat) (hname : name.toList = start ++ Nat.toDigits 10 k) :
      ∃ digit, name.toList.getLast? = some digit ∧ digit.isDigit = true := by
    have hne : Nat.toDigits 10 k ≠ [] := Nat.toDigits_ne_nil
    refine ⟨(Nat.toDigits 10 k).getLast hne, ?_, ?_⟩
    · rw [hname, List.getLast?_append_of_ne_nil _ hne, List.getLast?_eq_some_getLast hne]
    · exact Nat.isDigit_of_mem_toDigits (by decide) (by decide) (List.getLast_mem hne)
  have hnumbered (stem : String) (k : Nat) (hname : name = numbered stem k) :
      ∃ digit, name.toList.getLast? = some digit ∧ digit.isDigit = true := by
    refine hends (stem.toList ++ ['_']) k ?_
    rw [hname, toList_numbered, List.append_assoc, List.singleton_append]
  rcases h with ⟨-, hname⟩ | ⟨k, stem, -, hname⟩ | ⟨interface, -, k, hname⟩ | ⟨k, hname⟩
  · exact .inl hname
  · exact .inr (hnumbered stem k hname)
  · exact .inr (hnumbered _ k hname)
  · exact .inr (hends "_arg".toList k (by simp [hname, String.toList_append]))

section Functions

variable {own : String → Prop} {g : Rust.Function}

theorem named_cons (p : Param) (params : List Param) :
    named (p :: params) = named params ++ if p.name = "" then [] else [p.name] := by
  by_cases hp : p.name = "" <;> simp [named, hp]

-- The mark of a parameter that changes is no part of its name.
theorem declared_params (hown : ∀ k : Nat, own ("_arg" ++ toString k)) {params : List Param}
    {rparams declared : List Rust.Param} {k : Nat} (hnames : rparams.map (·.name) = (params.zipIdx k).map fun pi => paramName pi.1 pi.2)
    (hidents : ∀ p ∈ params, p.name = "" ∨ Solidity.isIdentifier p.name = true) (hs : InFunction s)
    (hw : Writes (declareParams params rparams) E s declared s') :
    Extends (identified (named params)) s s' ∧
      Interleaves own (identified (named params)) (declared.map fun p => unmarked p.name).reverse := by
  induction params generalizing s declared rparams k with
  | nil =>
      obtain rfl : rparams = [] := by simpa using hnames
      obtain ⟨rfl, rfl⟩ := writes_pure.mp hw
      exact ⟨.of_scopes hs rfl, .nil⟩
  | cons p params ih =>
      obtain ⟨hp, hidents⟩ := List.forall_mem_cons.mp hidents
      cases rparams with
      | nil => cases hnames
      | cons r rparams =>
          rw [List.zipIdx_cons, List.map_cons, List.map_cons] at hnames
          obtain ⟨hname, hnames⟩ := List.cons.inj hnames
          rw [paramName] at hname
          rw [declareParams] at hw
          rw [named_cons, identified_append]
          split at hw
          · next hempty =>
              obtain ⟨more, s₁, hmore, hw⟩ := writes_bind.mp hw
              obtain ⟨rfl, rfl⟩ := writes_pure.mp hw
              obtain ⟨hext, hbinds⟩ := ih hnames hidents hs hmore
              rw [if_pos hempty] at hname ⊢
              refine ⟨by simpa [identified] using hext, ?_⟩
              rw [List.map_cons, List.reverse_cons]
              refine hbinds.append (.of_own (List.forall_mem_singleton.mpr ?_))
              rw [hname, unmarked_arg]
              exact hown k
          · next hne =>
              have hident := hp.resolve_left hne
              obtain ⟨changed, s₁, hchanged, hw⟩ := writes_bind.mp hw
              obtain ⟨_, s₂, hdeclare, hw⟩ := writes_bind.mp hw
              obtain ⟨more, s₃, hmore, hw⟩ := writes_bind.mp hw
              obtain ⟨rfl, rfl⟩ := writes_pure.mp hw
              rw [if_neg hne] at hname ⊢
              have hchanged :=
                (steady_bind steady_frame fun fr => steady_pure (fr.mutated.contains p.name)).sameNames hchanged
              have hs₁ : InFunction s₁ := (Extends.of_scopes hs hchanged.scopes_eq).inFunction
              have hself :=
                (Extends.of_scopes hs hchanged.scopes_eq).trans (extending_declare _ _ E s₁ _ s₂ hs₁ hdeclare)
              obtain ⟨hext, hbinds⟩ := ih hnames hidents hself.inFunction hmore
              refine ⟨hself.trans hext, ?_⟩
              rw [List.map_cons, List.reverse_cons, hname, ← marked,
                unmarked_marked changed (notMem_value hident (by decide) (by decide) (by decide))]
              exact hbinds.append (.of_vars _)

theorem declared_results {results : List Param} {code : List Rust.Stmt}
    (hidents : ∀ p ∈ results, p.name = "" ∨ Solidity.isIdentifier p.name = true) (hs : InFunction s)
    (hw : Writes (declareResults results) E s code s') :
    Extends (identified (named results)) s s' ∧ Interleaves own (identified (named results)) (lets code) := by
  induction results generalizing s code with
  | nil =>
      obtain ⟨rfl, rfl⟩ := writes_pure.mp hw
      exact ⟨.of_scopes hs rfl, .nil⟩
  | cons r results ih =>
      obtain ⟨hr, hidents⟩ := List.forall_mem_cons.mp hidents
      rw [declareResults] at hw
      rw [named_cons, identified_append]
      split at hw
      · next hempty =>
          rw [if_pos hempty]
          simpa [identified] using ih hidents hs hw
      · next hne =>
          obtain ⟨t, s₁, ht, hw⟩ := writes_bind.mp hw
          obtain ⟨z, s₂, hz, hw⟩ := writes_bind.mp hw
          obtain ⟨changed, s₃, hchanged, hw⟩ := writes_bind.mp hw
          obtain ⟨_, s₄, hdeclare, hw⟩ := writes_bind.mp hw
          obtain ⟨more, s₅, hmore, hw⟩ := writes_bind.mp hw
          obtain ⟨rfl, rfl⟩ := writes_pure.mp hw
          have hsteady := ((steady_typeText _).sameNames ht).trans (((steady_zero _).sameNames hz).trans
            ((steady_bind steady_frame fun fr => steady_pure (fr.mutated.contains r.name)).sameNames hchanged))
          have hbefore : Extends [] s s₃ := .of_scopes hs hsteady.scopes_eq
          have hself := hbefore.trans (extending_declare _ _ E s₃ _ s₄ hbefore.inFunction hdeclare)
          obtain ⟨hext, hbinds⟩ := ih hidents hself.inFunction hmore
          rw [if_neg hne]
          refine ⟨hself.trans hext, ?_⟩
          rw [lets_cons, boundBy_let (isTuplePattern_value (hr.resolve_left hne))]
          exact hbinds.append (.of_vars _)

-- The parameters that a target adds come first.
theorem own_routineShell {r : Routine} (hw : Writes (routineShell r) E s g s') :
    ∃ front : List Rust.Param, g.params = front ++ r.params ∧
      ∀ p ∈ front, E.target = .soroban ∧ p.name ∈ ["env", "caller"] := by
  refine ⟨_, (writes_routineShell hw).params, fun p hp => ?_⟩
  cases ht : E.target with
  | ink version =>
      rw [ht] at hp
      cases hp
  | soroban =>
      rw [ht, frontParams] at hp
      refine ⟨rfl, ?_⟩
      rcases List.mem_cons.mp hp with rfl | hp
      · exact List.mem_cons_self
      · split at hp
        · obtain rfl := List.mem_singleton.mp hp
          exact List.mem_cons_of_mem _ (List.mem_singleton_self _)
        · cases hp

theorem steady_routineShell (r : Routine) : Steady (routineShell r) := by
  refine steady_bind steady_target fun t => ?_
  cases t with
  | ink version =>
      refine steady_bind steady_read fun E => ?_
      exact steady_bind (steady_mapM (fun f => steady_ended _) _) fun _ => steady_pure _
  | soroban => grind [Soroban.routine]

theorem steady_preamble (r : Routine) : Steady (preamble r) := by
  grind [preamble]

theorem silent_preamble {r : Routine} {code : List Rust.Stmt} (hw : Writes (preamble r) E s code s') : lets code = [] := by
  unfold preamble at hw
  rw [writes_of_target] at hw
  cases ht : E.target with
  | ink version =>
      rw [ht] at hw
      obtain ⟨rfl, -⟩ := writes_pure.mp hw
      rfl
  | soroban =>
      rw [ht] at hw
      obtain ⟨rfl, -⟩ := writes_pure.mp hw
      unfold Soroban.preamble
      split <;> rfl

theorem map_name_rustParams {params : List Param} {rparams : List Rust.Param} (hw : Writes (rustParams params) E s rparams s') :
    rparams.map (·.name) = params.zipIdx.map fun pi => paramName pi.1 pi.2 := by
  have hident : Function.Injective Rust.Expr.ident := fun a b => Rust.Expr.ident.inj
  refine List.map_injective_iff.mpr hident ?_
  simpa [Function.comp_def] using names_rustParams hw

-- The state in which the code of a function is entered.
theorem sound_params {r : Routine} {params : List Param} {declared : List Rust.Param} {interfaces : List String}
    {code : List Stmt} {t t' t₁ t₂ : State} (hs : s.frame.scopes = [{}])
    (hnames : Writes (rustParams params) E t r.params t')
    (hidents : ∀ p ∈ params, p.name = "" ∨ Solidity.isIdentifier p.name = true)
    (hdeclare : Writes (declareParams params r.params) E s declared t₁)
    (hshell : Writes (routineShell { r with params := declared }) E t₁ g t₂) :
    Sound (IsOwn E.target interfaces) ⟨code, named params, t₂, (g.params.map fun p => unmarked p.name).reverse⟩ := by
  have hin : InFunction s := by simp [InFunction, hs]
  have hargs (k : Nat) : IsOwn E.target interfaces ("_arg" ++ toString k) := .inr (.inr (.inr ⟨k, rfl⟩))
  obtain ⟨hext, hbinds⟩ := declared_params hargs (map_name_rustParams hnames) hidents hin hdeclare
  have hext := hext.trans (Extends.of_scopes hext.inFunction ((steady_routineShell _).sameNames hshell).scopes_eq)
  obtain ⟨front, hparams, hfront⟩ := own_routineShell hshell
  refine ⟨hext.inFunction, ?_, ?_⟩
  · have hnone : s.variables = [] := by simp [State.variables, hs]
    rw [hext.variables, hnone, List.append_nil, List.nil_append]
  · change Interleaves _ _ (g.params.map _).reverse
    rw [hparams, List.map_append, List.reverse_append, ← List.append_nil (identified (named params))]
    refine hbinds.append (.of_own fun n hn => .inl ?_)
    obtain ⟨p, hp, rfl⟩ := List.mem_map.mp (List.mem_reverse.mp hn)
    obtain ⟨htarget, hname⟩ := hfront p hp
    refine ⟨htarget, ?_⟩
    have hsame : ∀ name ∈ ["env", "caller"], unmarked name = name := by decide
    rwa [hsame _ hname]

-- A step that neither reads the state nor changes it.
def Stateless {α : Type} (E : Env) (act : Emit α) : Prop := ∃ r, ∀ s, outcome act E s = (r, s)

section Stateless

variable {α β : Type}

theorem stateless_pure (a : α) : Stateless E (pure a) := ⟨.ok a, fun _ => rfl⟩

theorem stateless_throw (stop : Stop) : Stateless E (throw stop : Emit α) := ⟨.error stop, fun _ => rfl⟩

theorem stateless_bind {act : Emit α} {f : α → Emit β} (hact : Stateless E act) (hf : ∀ a, Stateless E (f a)) :
    Stateless E (act >>= f) := by
  obtain ⟨r, hr⟩ := hact
  cases r with
  | error d =>
      refine ⟨.error d, fun s => ?_⟩
      rw [outcome_bind, hr]
  | ok a =>
      obtain ⟨q, hq⟩ := hf a
      refine ⟨q, fun s => ?_⟩
      rw [outcome_bind, hr]
      exact hq s

theorem Stateless.unique {act : Emit α} (h : Stateless E act) {a b : α} {t t' : State} (hw : Writes act E s a s')
    (hw' : Writes act E t b t') : a = b ∧ t = t' := by
  obtain ⟨r, hr⟩ := h
  obtain ⟨rfl, -⟩ := Prod.mk.inj ((hr s).symm.trans hw)
  obtain ⟨hsame, rfl⟩ := Prod.mk.inj ((hr t).symm.trans hw')
  exact ⟨Except.ok.inj hsame, rfl⟩

theorem stateless_guarded (body : Block) (calls : List ModifierCall) : Stateless E (guarded body calls) := by
  have hfound (call : ModifierCall) : Stateless E (modifierBody call) := by
    refine stateless_bind ⟨.ok E, fun _ => rfl⟩ fun env => ?_
    dsimp only
    split
    · exact stateless_pure _
    · exact stateless_throw _
  induction calls with
  | nil => exact stateless_pure body
  | cons call rest ih =>
      rw [guarded]
      refine stateless_bind ih fun inner => stateless_bind (hfound call) fun found => ?_
      dsimp only
      split
      · exact stateless_bind (stateless_throw _) fun _ => stateless_pure _
      · exact stateless_pure _

theorem stateless_constructorCode (c : Contract) : Stateless E (constructorCode c) := by
  unfold constructorCode
  split
  · exact stateless_bind (stateless_guarded _ _) fun _ => stateless_pure _
  · exact stateless_pure _

end Stateless

theorem length_rustParams {params : List Param} {rparams : List Rust.Param}
    (hw : Writes (rustParams params) E s rparams s') : rparams.length = params.length := by
  simpa using congrArg List.length (names_rustParams hw)

-- The steps by which a function is written: its parameters and named results are declared, then its code is written.
inductive Lays (E : Env) (g : Rust.Function) (params results : List Param) (code : List Stmt) : Prop
  | mk {r : Routine} {declared : List Rust.Param} {shell : Rust.Function} {before front written : List Rust.Stmt}
      {s s₁ s₂ s₃ s₄ s₅ t t' u u' : State} (hscopes : s.frame.scopes = [{}])
      (hmutated : s.frame.mutated = (substmtsList code).flatMap changedIn)
      (hnames : Writes (rustParams params) E t r.params t')
      (hdeclare : Writes (declareParams params r.params) E s declared s₁)
      (hshell : Writes (routineShell { r with params := declared }) E s₁ shell s₂) (hparams : g.params = shell.params)
      (hbefore : Writes (preamble { r with params := declared }) E u before u')
      (hframe : s₃.frame.scopes = s₂.frame.scopes ∧ s₃.frame.mutated = s₂.frame.mutated)
      (hresults : Writes (declareResults results) E s₃ front s₄) (hwritten : Writes (stmts code) E s₄ written s₅)
      (hbody : ∃ tail, g.body = some ⟨before ++ front ++ written, tail⟩) : Lays E g params results code

theorem mutatedVars_eq (b : Block) : mutatedVars b = (substmtsList b.stmts).flatMap changedIn := by
  cases b
  rfl

theorem lays_of_carries {params results : List Param} {code : List Stmt} (h : Carries E g params results code) :
    Lays E g params results code := by
  cases h with
  | @function r f i body inner s s' s₁ s₂ s₃ s₄ hbody hguarded hparams hw =>
      unfold function at hw
      split at hw
      · next i' body' heq hbody' =>
          cases heq
          obtain rfl : body = body' := by simpa [hbody] using hbody'
          obtain ⟨_, t₁, henter, hw⟩ := writes_bind.mp hw
          obtain rfl := writes_modify.mp henter
          obtain ⟨inner', t₂, hinner, hw⟩ := writes_bind.mp hw
          obtain ⟨rfl, rfl⟩ := (stateless_guarded _ _).unique hguarded hinner
          obtain ⟨_, t₃, hmutated, hw⟩ := writes_bind.mp hw
          obtain rfl := writes_modify.mp hmutated
          obtain ⟨declared, t₄, hdeclare, hw⟩ := writes_bind.mp hw
          obtain ⟨shell, t₅, hshell, hw⟩ := writes_bind.mp hw
          obtain ⟨_, t₆, hresult, hw⟩ := writes_bind.mp hw
          obtain rfl := writes_modify.mp hresult
          obtain ⟨before, t₇, hbefore, hw⟩ := writes_bind.mp hw
          obtain ⟨front, t₈, hresults, hw⟩ := writes_bind.mp hw
          obtain ⟨written, t₉, hwritten, hw⟩ := writes_bind.mp hw
          rw [if_pos (length_rustParams hparams).symm] at hdeclare
          have hsame := (steady_preamble _).sameNames hbefore
          have hframe : t₇.frame.scopes = t₅.frame.scopes ∧ t₇.frame.mutated = t₅.frame.mutated := by
            rw [hsame.1]
            exact ⟨rfl, rfl⟩
          split at hw
          · obtain ⟨rfl, -⟩ := writes_pure.mp hw
            exact .mk rfl (mutatedVars_eq inner) hparams hdeclare hshell rfl hbefore hframe hresults hwritten ⟨_, rfl⟩
          · obtain ⟨x, t', -, hw⟩ := writes_bind.mp hw
            obtain ⟨rfl, -⟩ := writes_pure.mp hw
            exact .mk rfl (mutatedVars_eq inner) hparams hdeclare hshell rfl hbefore hframe hresults hwritten ⟨_, rfl⟩
      · exact absurd hw not_writes_throw
  | @initializer c r code s s' s₁ s₂ s₃ s₄ hcode hparams hw =>
      rw [classInit_eq] at hw
      obtain ⟨_, t₁, henter, hw⟩ := writes_bind.mp hw
      obtain rfl := writes_modify.mp henter
      obtain ⟨code', t₂, hcode', hw⟩ := writes_bind.mp hw
      obtain ⟨rfl, rfl⟩ := (stateless_constructorCode c).unique hcode hcode'
      obtain ⟨_, t₃, hmutated, hw⟩ := writes_bind.mp hw
      obtain rfl := writes_modify.mp hmutated
      obtain ⟨declared, t₄, hdeclare, hw⟩ := writes_bind.mp hw
      obtain ⟨shell, t₅, hshell, hw⟩ := writes_bind.mp hw
      obtain ⟨written, t₆, hwritten, hw⟩ := writes_bind.mp hw
      obtain ⟨before, t₇, hbefore, hw⟩ := writes_bind.mp hw
      obtain ⟨rfl, -⟩ := writes_pure.mp hw
      have hnone : Writes (declareResults []) E t₅ [] t₅ := writes_pure.mpr ⟨rfl, rfl⟩
      rw [← List.append_nil before]
      exact .mk rfl (mutatedVars_eq _) hparams hdeclare hshell rfl hbefore ⟨rfl, rfl⟩ hnone hwritten ⟨_, rfl⟩

-- A function is entered with its parameters and named results in scope.
theorem enters_of_carries {params results : List Param} {code : List Stmt} (h : Carries E g params results code)
    (interfaces : List String) (hidents : ∀ v ∈ params ++ results, v.name = "" ∨ Solidity.isIdentifier v.name = true) :
    ∃ start, start.code = code ∧ start.visible = named results ++ named params ∧ Enters E g start ∧
      Sound (IsOwn E.target interfaces) start := by
  obtain ⟨hidents, hresultIdents⟩ := List.forall_mem_append.mp hidents
  obtain @⟨r, declared, shell, before, front, written, s, s₁, s₂, s₃, s₄, s₅, t, t', u, u', hscopes, -, hnames,
    hdeclare, hshell, hparams, hbefore, hframe, hresults, hwritten, tail, hbody⟩ := lays_of_carries h
  have hsound : Sound (IsOwn E.target interfaces) ⟨[], named params, s₂, _⟩ :=
    sound_params hscopes hnames hidents hdeclare hshell
  have hentered : Sound (IsOwn E.target interfaces) ⟨[], named params, s₃, _⟩ := hsound.of_scopes hframe.1
  obtain ⟨hext, hbinds⟩ := declared_results hresultIdents hentered.inFunction hresults
  refine ⟨⟨code, named results ++ named params, s₄, lets front ++ (shell.params.map fun p => unmarked p.name).reverse⟩,
    rfl, rfl, ⟨before ++ front, written, tail, s₅, hbody, hwritten, ?_⟩, hentered.extend hext hbinds⟩
  rw [lets_append, silent_preamble hbefore, List.append_nil, hparams]

end Functions

-- All functions of a file but those that the compiler adds itself are written for code of the source.

section Lowered

variable {g : Rust.Function}

theorem carries_function {r : Routine} {f : Function} {impl : Option Implementation}
    (hparams : ∀ i ∈ impl, ∃ t t', Writes (rustParams i.params) E t r.params t')
    (hw : Writes (function r f impl) E s g s') : ∃ params results code, Carries E g params results code := by
  have hwritten := hw
  unfold function at hw
  split at hw
  · next i body hbody =>
      obtain ⟨_, s₁, -, hw⟩ := writes_bind.mp hw
      obtain ⟨inner, s₂, hinner, hw⟩ := writes_bind.mp hw
      obtain ⟨t, t', hparams⟩ := hparams i rfl
      have hi : i.body = some body := by simpa using hbody
      exact ⟨i.params, i.returns, inner.stmts, .function hi hinner hparams hwritten⟩
  · exact absurd hw not_writes_throw

theorem params_functionRoutine {f : Function} {i : Implementation} {name : String} {entry : Option Signature} {r : Routine}
    (hlength : i.params.length = f.params.length) (hw : Writes (functionRoutine f (some i) name entry) E s r s') :
    ∃ t t', Writes (rustParams i.params) E t r.params t' := by
  unfold functionRoutine at hw
  obtain ⟨rparams, s₁, hrparams, hw⟩ := writes_bind.mp hw
  obtain ⟨result, s₂, -, hw⟩ := writes_bind.mp hw
  obtain ⟨env, s₃, -, hw⟩ := writes_bind.mp hw
  obtain ⟨rfl, -⟩ := writes_pure.mp hw
  dsimp only at hrparams
  rw [if_pos hlength] at hrparams
  exact ⟨s, s₁, hrparams⟩

theorem params_initCalls {main : Contract} {bound : List BoundArg} {caller : Bool} {classes : List Contract}
    {written : List Rust.Stmt × List (Contract × Routine)}
    (hw : Writes (initCalls main bound caller classes) E s written s') :
    ∀ cr ∈ written.2, ∃ t t', Writes (rustParams (constructorParams cr.1)) E t cr.2.params t' := by
  induction classes generalizing s written with
  | nil =>
      obtain ⟨rfl, rfl⟩ := writes_pure.mp hw
      simp
  | cons c rest ih =>
      rw [initCalls] at hw
      obtain ⟨r, s₁, hr, hw⟩ := writes_bind.mp hw
      obtain ⟨x, s₂, -, hw⟩ := writes_bind.mp hw
      obtain ⟨more, s₃, hmore, hw⟩ := writes_bind.mp hw
      obtain ⟨rfl, rfl⟩ := writes_pure.mp hw
      obtain ⟨params, s₄, hparams, hr⟩ := writes_bind.mp hr
      obtain ⟨rfl, -⟩ := writes_pure.mp hr
      exact List.forall_mem_cons.mpr ⟨⟨s, s₄, hparams⟩, ih hmore⟩

theorem carries_classInits {routines : List (Contract × Routine)}
    (hroutines : ∀ cr ∈ routines, ∃ t t', Writes (rustParams (constructorParams cr.1)) E t cr.2.params t')
    {gs : List Rust.Function} (hw : Writes (classInits routines) E s gs s') :
    ∀ g ∈ gs, ∃ params results code, Carries E g params results code := by
  induction routines generalizing s s' gs with
  | nil =>
      obtain ⟨rfl, rfl⟩ := writes_pure.mp hw
      simp
  | cons cr routines ih =>
      obtain ⟨⟨t, t', hparams⟩, hroutines⟩ := List.forall_mem_cons.mp hroutines
      rw [classInits] at hw
      obtain ⟨g, s₁, hg, hw⟩ := writes_bind.mp hw
      obtain ⟨more, s₂, hmore, hw⟩ := writes_bind.mp hw
      obtain ⟨rfl, -⟩ := writes_pure.mp hw
      have hwritten := hg
      rw [classInit_eq] at hg
      obtain ⟨_, _, -, hg⟩ := writes_bind.mp hg
      obtain ⟨code, _, hcode, -⟩ := writes_bind.mp hg
      exact List.forall_mem_cons.mpr ⟨⟨_, _, _, .initializer hcode hparams hwritten⟩, ih hroutines hmore⟩

-- What the compiler adds for deployment.
def IsDeployer (target : Target) (g : Rust.Function) : Prop := g.name = constructorName target ∨ g.name = "_init"

theorem deployers_deployment (hE : Sourced E) {written : List Rust.Function × List Rust.Function}
    (hw : Writes deployment E s written s') : ∀ g ∈ written.1, IsDeployer E.target g := by
  have hdeployed := (emitted_deployment hE hw).2 s'.helperNames (List.Subset.refl _)
  generalize written.1 = gs, written.2 = inits at hdeployed
  cases hdeployed with
  | plain _ hplain _ =>
      intro g hg
      have hname : g.name ∈ gs.map (·.name) := List.mem_map_of_mem hg
      rw [hplain] at hname
      cases htarget : E.target <;> simp_all [IsDeployer]
  | init _ hname _ _ _ _ _ => exact List.forall_mem_singleton.mpr (.inl hname)

-- The steps by which that is written: a constructor, or the arguments for base constructors and the calls of initializers.
inductive Deploys (E : Env) (g : Rust.Function) : Prop
  | constructor {init : Option Routine} {gs : List Rust.Function} {s s' : State} (hw : Writes (constructors init) E s gs s')
      (hg : g ∈ gs) : Deploys E g
  | init {classes order : List Contract} {bound given : List BoundArg} {caller : Bool}
      {binds : List Rust.Stmt × List BoundArg} {runs : List Rust.Stmt × List (Contract × Routine)} {s s' t t' : State}
      (hbinds : Writes (bindBaseArgs (baseCallsOf (E.package.chainOf E.contract)) bound classes) E s binds s')
      (hruns : Writes (initCalls E.contract given caller order) E t runs t')
      (hbody : ∃ tail, g.body = some ⟨binds.1 ++ runs.1, tail⟩) : Deploys E g

theorem deploys_or_carries_deployment (hE : Sourced E) {written : List Rust.Function × List Rust.Function}
    (hw : Writes deployment E s written s') : ∀ g ∈ written.1 ++ written.2,
      IsDeployer E.target g ∧ Deploys E g ∨ ∃ params results code, Carries E g params results code := by
  have hnames := deployers_deployment hE hw
  unfold deployment at hw
  obtain ⟨env, s₁, henv, hw⟩ := writes_bind.mp hw
  obtain ⟨rfl, rfl⟩ := writes_read.mp henv
  dsimp only at hw
  split at hw
  · obtain ⟨gs, s₂, hgs, hw⟩ := writes_bind.mp hw
    obtain ⟨rfl, -⟩ := writes_pure.mp hw
    rw [List.append_nil]
    exact fun g hg => .inl ⟨hnames g hg, .constructor hgs hg⟩
  · obtain ⟨rparams, s₂, -, hw⟩ := writes_bind.mp hw
    obtain ⟨_, s₃, -, hw⟩ := writes_bind.mp hw
    obtain ⟨_, s₄, -, hw⟩ := writes_bind.mp hw
    obtain ⟨⟨binds, bound⟩, s₅, hbinds, hw⟩ := writes_bind.mp hw
    obtain ⟨⟨runs, routines⟩, s₆, hruns, hw⟩ := writes_bind.mp hw
    obtain ⟨shell, s₇, hshell, hw⟩ := writes_bind.mp hw
    obtain ⟨inits, s₈, hinits, hw⟩ := writes_bind.mp hw
    obtain ⟨gs, s₉, hgs, hw⟩ := writes_bind.mp hw
    obtain ⟨rfl, -⟩ := writes_pure.mp hw
    refine List.forall_mem_append.mpr ⟨fun g hg => .inl ⟨hnames g hg, .constructor hgs hg⟩, ?_⟩
    refine List.forall_mem_cons.mpr ⟨.inl ⟨.inr (writes_routineShell hshell).name, .init hbinds hruns ⟨_, rfl⟩⟩, fun g hg => .inr ?_⟩
    exact carries_classInits (params_initCalls hruns) hinits g hg

theorem deploys_or_carries (hE : Sourced E) (h : Origin E g) :
    IsDeployer E.target g ∧ Deploys E g ∨ ∃ params results code, Carries E g params results code := by
  cases h with
  | deployed hw hg => exact deploys_or_carries_deployment hE hw g hg
  | @entry s s₁ s' f r g hf hr hw =>
      refine .inr (carries_function (fun i hi => ?_) hw)
      rw [dispatchRoutine, Option.mem_def.mp hi] at hr
      exact params_functionRoutine (hE.entries f hf i (mem_of_primary? hi)).2 hr
  | @helper s s' key h g hasked hw =>
      cases hasked with
      | @implementation f impl hf himpl _ =>
          obtain ⟨r, s₁, hr, hw⟩ := writes_bind.mp hw
          refine .inr (carries_function (fun i hi => ?_) hw)
          obtain rfl := Option.mem_some.mp hi
          exact params_functionRoutine (hE.entries f hf impl himpl).2 hr
      | @library start library owner sig args hcall =>
          obtain ⟨r, s₁, hr, hw⟩ := writes_bind.mp hw
          refine .inr (carries_function (fun i hi => ?_) hw)
          obtain ⟨impl, hsingle, hparams⟩ := (hE.libraries _ _ _ _ _ hcall).single
          have hlength : i.params.length = (functionIn E.package owner sig).params.length := by
            obtain rfl : i = impl := by simpa [hsingle] using mem_of_primary? hi
            rw [(hE.libraries _ _ _ _ _ hcall).signature, hparams]
          obtain ⟨r', s₂, hr', hr⟩ := writes_bind.mp hr
          obtain ⟨rfl, -⟩ := writes_pure.mp hr
          rw [show (libraryHelper library (functionIn E.package owner sig)).function.primary? = some i from hi] at hr'
          obtain ⟨t, t', hparams⟩ := params_functionRoutine hlength hr'
          exact ⟨t, t', hparams⟩

theorem carries_of_origin (hE : Sourced E) (h : Origin E g) :
    IsDeployer E.target g ∨ ∃ params results code, Carries E g params results code :=
  (deploys_or_carries hE h).imp_left And.left

theorem carries_dispatched {fs : List Function} {written : List Rust.Function × List Rust.Function} {f : Function}
    {i : Implementation} {body inner : Block} {t t' : State} (hw : Writes (dispatched fs) E s written s') (hf : f ∈ fs)
    (hi : f.primary? = some i) (hlength : i.params.length = f.params.length) (hbody : i.body = some body)
    (hguarded : Writes (guarded body i.modifiers) E t inner t') :
    ∃ g ∈ written.1 ++ written.2, Carries E g i.params i.returns inner.stmts := by
  induction fs generalizing s s' written with
  | nil => cases hf
  | cons f' rest ih =>
      rw [dispatched] at hw
      obtain ⟨r, s₁, hr, hw⟩ := writes_bind.mp hw
      obtain ⟨g, s₂, hg, hw⟩ := writes_bind.mp hw
      obtain ⟨⟨entries, helpers⟩, s₃, hmore, hw⟩ := writes_bind.mp hw
      obtain ⟨rfl, -⟩ := writes_pure.mp hw
      rcases List.mem_cons.mp hf with rfl | hf
      · rw [dispatchRoutine, hi] at hr
        rw [hi] at hg
        obtain ⟨_, _, hparams⟩ := params_functionRoutine hlength hr
        refine ⟨g, ?_, .function hbody hguarded hparams hg⟩
        split <;> simp
      · obtain ⟨g', hg', hcarries⟩ := ih hmore hf
        refine ⟨g', ?_, hcarries⟩
        split <;> simp_all [or_left_comm]

-- Each function that a contract answers with is written for its code inside its modifiers.
theorem carries_of_dispatch {out : Rust.File} {f : Function} {i : Implementation} {body inner : Block} (hE : Sourced E)
    (hfile : file E.package E.contract E.target = .ok out) (hf : f ∈ E.contract.dispatch) (hi : f.primary? = some i)
    (hbody : i.body = some body) (hguarded : Writes (guarded body i.modifiers) E s inner s') :
    ∃ g ∈ out.methods, Carries E g i.params i.returns inner.stmts := by
  obtain ⟨s₁, deployed, inits, s₂, messages, internals, s₃, helpers, s₄, -, -, hdispatched, -, -, -, hmethods⟩ :=
    writes_contract (writes_of_file hfile)
  have hlength := (hE.entries f hf i (mem_of_primary? hi)).2
  obtain ⟨g, hg, hcarries⟩ := carries_dispatched hdispatched hf hi hlength hbody hguarded
  refine ⟨g, ?_, hcarries⟩
  rcases List.mem_append.mp hg with hg | hg <;> simp [hmethods, hg]

end Lowered

-- The identifiers of the variables that are in scope differ, from each other and from names of the compiler's own.
def Spot.Distinct (own : String → Prop) (spot : Spot) : Prop :=
  ∀ n ∈ spot.visible, ∀ x, spot.state.local? n = some x →
    (∀ m ∈ spot.visible, spot.state.local? m = some x → m = n) ∧ ¬own x

-- No two of these names are spelled alike, and none like a name of the compiler's own.
def SpelledApart (own : String → Prop) (names : List String) : Prop :=
  ∀ n ∈ names, (∀ m ∈ names, Rust.Name.value m = Rust.Name.value n → m = n) ∧ ¬own (Rust.Name.value n)

section Names

variable {own : String → Prop} {spot : Spot}

-- A variable that is in scope has the identifier that its name makes.
theorem Sound.local?_eq (h : Sound own spot) {n : String} (hn : n ∈ spot.visible) :
    spot.state.local? n = some (Rust.Name.value n) := by
  have hlookup (scopes : List Scope) :
      (scopes.findSome? fun scope => scope.locals.lookup n) = (scopes.flatMap (·.locals)).lookup n := by
    induction scopes with
    | nil => rfl
    | cons scope scopes ih =>
        rw [List.findSome?_cons, List.flatMap_cons, List.lookup_append, ih]
        cases scope.locals.lookup n <;> rfl
  have htable : (identified spot.visible).lookup n = some (Rust.Name.value n) := by
    generalize spot.visible = names at hn
    induction names with
    | nil => cases hn
    | cons m names ih =>
        rw [identified, List.map_cons, List.lookup_cons]
        by_cases hm : n = m
        · subst hm
          simp
        · rw [beq_false_of_ne hm]
          exact ih ((List.mem_cons.mp hn).resolve_left hm)
  rw [State.local?, hlookup, ← State.variables, h.table, htable]

theorem Sound.distinct_iff (h : Sound own spot) : spot.Distinct own ↔ SpelledApart own spot.visible := by
  refine forall₂_congr fun n hn => ?_
  simp only [h.local?_eq hn, Option.some.injEq, forall_eq']
  refine and_congr_left fun _ => forall₂_congr fun m hm => ?_
  rw [h.local?_eq hm, Option.some.injEq]

theorem Sound.denotes (h : Sound own spot) (happart : SpelledApart own spot.visible) :
    ∀ n ∈ spot.visible, Denotes own spot n := fun n hn =>
  h.binds.split hn (happart n hn).1 (happart n hn).2

end Names

-- At every place of a function each variable in scope is written as its own name makes it. The identifiers differ there,
-- from each other and from the names that the compiler adds, where the names are spelled apart; each then denotes its
-- variable.
theorem identifiers_distinct_iff {name : String} {unit : Solidity.SourceUnit} {p : Package} {c : Contract}
    {target : Target} {out : Rust.File} (hp : Resolve.package name unit = .ok p) (hc : c ∈ p.classes)
    (hfile : file p c target = .ok out) :
    (∀ g ∈ out.methods, IsDeployer target g ∨ ∃ params results code, Carries ⟨p, c, target⟩ g params results code) ∧
    ∀ {g : Rust.Function} {params results : List Param} {code : List Stmt} (interfaces : List String),
      Carries ⟨p, c, target⟩ g params results code →
      (∀ v ∈ params ++ results, v.name = "" ∨ Solidity.isIdentifier v.name = true) →
      (∀ st ∈ substmtsList code, Regular interfaces st ∧ testSeesBody st = false) →
      ∃ start : Spot, start.code = code ∧ start.visible = named results ++ named params ∧
        Enters ⟨p, c, target⟩ g start ∧ ∀ spot, Reaches ⟨p, c, target⟩ start spot →
          (∀ n ∈ spot.visible, spot.state.local? n = some (Rust.Name.value n)) ∧
          (spot.Distinct (IsOwn target interfaces) ↔ SpelledApart (IsOwn target interfaces) spot.visible) ∧
          (spot.Distinct (IsOwn target interfaces) → ∀ n ∈ spot.visible, Denotes (IsOwn target interfaces) spot n) := by
  have hsourced := sourced_package hp hc target
  refine ⟨fun g hg => carries_of_origin hsourced (origin_of_methods hsourced hfile g hg), ?_⟩
  intro g params results code interfaces hcarries hidents hcode
  obtain ⟨start, rfl, hvisible, henters, hsound⟩ := enters_of_carries hcarries interfaces hidents
  refine ⟨start, rfl, hvisible, henters, fun spot hreaches => ?_⟩
  have hspot := hreaches.sound (fun _ hn => .inr (.inl hn)) (fun _ hn => .inr (.inr (.inl hn))) hcode hsound
  exact ⟨fun n hn => hspot.local?_eq hn, hspot.distinct_iff, fun h => hspot.denotes (hspot.distinct_iff.mp h)⟩

namespace Spelling

-- `function f(bool aB) returns (bool)` with a copy of its parameter: `bool copy = !aB; return aB;`

def reading (code : Solidity.Operand) : Solidity.Expression := ⟨default, default, ⟨⟨code, []⟩, none⟩, none⟩

def given : Solidity.Operand := .term default (.ident "aB") []

def source (copy : String) : Solidity.SourceUnit :=
  ⟨default, [Resolve.plainContract "C" false [] [
    .function default
      { start := default, stop := default, kind := "function", name := "f"
        params := [⟨default, Resolve.plainType "bool", "", "aB"⟩], attrs := []
        returns := [⟨default, Resolve.plainType "bool", "", ""⟩]
        body := some ⟨default, default, [
          .varDecl default
            ⟨default, Resolve.plainType "bool", "", copy, some (reading (.unary default (.unary .not) given))⟩,
          .returnValue default (some (reading given))]⟩ }]]⟩

-- What it becomes.

def taken : Param := ⟨"aB", .bool⟩

def declaration (copy : String) : Stmt :=
  .decl default [⟨copy, .bool⟩] (.unary default .not (.var default "aB" .bool) .bool)

def answer : Stmt := .returnValue default (some (.var default "aB" .bool))

def implementation (copy : String) : Implementation :=
  { owner := "C", params := [taken], returns := [⟨"", .bool⟩]
    body := some ⟨default, [declaration copy, answer], false⟩, implemented := true, start := default }

def copying (copy : String) : Function :=
  { name := "f", sourceName := "f", kind := .function, params := [taken], returns := [⟨"", .bool⟩]
    implementations := [implementation copy] }

def contract (copy : String) : Contract :=
  { name := "C", kind := .contract, isAbstract := false, bases := [], start := default, chain := ["C"]
    functions := [copying copy], storage := [], dispatch := [copying copy], modifierTable := [] }

def package (copy : String) : Package := { name := "sample", classes := [contract copy] }

theorem package_apart : Resolve.package "sample" (source "c") = .ok (package "c") := by cbv

theorem package_alike : Resolve.package "sample" (source "a_b") = .ok (package "a_b") := by cbv

theorem file_copying (copy : String) (hcopy : copy = "c" ∨ copy = "a_b") (target : Target)
    (htarget : target = .ink .v5 ∨ target = .soroban) :
    ∃ out, file (package copy) (contract copy) target = .ok out := by
  refine file_of_isSome ?_
  rcases hcopy with rfl | rfl <;> rcases htarget with rfl | rfl <;> decide

def code (copy : String) : List Stmt := [declaration copy, answer]

theorem regular_code (copy : String) (hcopy : Solidity.isIdentifier copy = true) :
    ∀ st ∈ substmtsList (code copy), Regular [] st ∧ testSeesBody st = false := by
  have hcode : substmtsList (code copy) = code copy := rfl
  rw [hcode]
  refine List.forall_mem_cons.mpr ⟨⟨.of_no_calls (List.forall_mem_singleton.mpr hcopy) rfl, rfl⟩, ?_⟩
  exact List.forall_mem_singleton.mpr ⟨.of_no_calls (List.forall_mem_nil _) rfl, rfl⟩

theorem carries_copying {copy : String} {target : Target} {out : Rust.File}
    (hp : Resolve.package "sample" (source copy) = .ok (package copy))
    (hfile : file (package copy) (contract copy) target = .ok out) :
    ∃ g ∈ out.methods, Carries ⟨package copy, contract copy, target⟩ g [taken] [⟨"", .bool⟩] (code copy) := by
  have hsourced := sourced_package hp (c := contract copy) (List.mem_singleton.mpr rfl) target
  exact carries_of_dispatch (E := ⟨package copy, contract copy, target⟩) (s := {}) hsourced hfile
    (List.mem_singleton.mpr rfl) rfl rfl (writes_pure.mpr ⟨rfl, rfl⟩)

-- The place behind the declaration of the copy.
theorem exists_behind {copy : String} {g : Rust.Function} {start : Spot} (hcode : start.code = code copy)
    (henters : Enters E g start) : ∃ spot, Leads E start spot ∧ spot.visible = copy :: start.visible := by
  obtain ⟨before, written, tail, s', -, hw, -⟩ := henters
  rw [hcode, code, stmts] at hw
  obtain ⟨first, s₁, hfirst, -⟩ := writes_bind.mp hw
  obtain ⟨todo, visible, s, bound⟩ := start
  obtain rfl : todo = code copy := hcode
  exact ⟨_, .behind hfirst, rfl⟩

theorem spelledApart_copy : SpelledApart (IsOwn .soroban []) ["c", "aB"] := by
  have hown (name : String) (hname : name ∈ ["c", "a_b"]) : ¬IsOwn .soroban [] name := by
    intro h
    have hends := h.ends
    rcases List.mem_pair.mp hname with rfl | rfl <;> simp [Char.isDigit] at hends
  have hvalues : Rust.Name.value "c" = "c" ∧ Rust.Name.value "aB" = "a_b" := by decide
  refine List.forall_mem_cons.mpr ⟨⟨?_, ?_⟩, List.forall_mem_singleton.mpr ⟨?_, ?_⟩⟩
  · simp [hvalues]
  · rw [hvalues.1]
    exact hown "c" (by simp)
  · simp [hvalues]
  · rw [hvalues.2]
    exact hown "a_b" (by simp)

theorem identifiers_apart : ∃ out g start spot, file (package "c") (contract "c") .soroban = .ok out ∧ g ∈ out.methods ∧
    Enters ⟨package "c", contract "c", .soroban⟩ g start ∧ Reaches ⟨package "c", contract "c", .soroban⟩ start spot ∧
    spot.visible = ["c", "aB"] ∧ spot.Distinct (IsOwn .soroban []) ∧
    ∀ n ∈ spot.visible, Denotes (IsOwn .soroban []) spot n := by
  obtain ⟨out, hout⟩ := file_copying "c" (.inl rfl) .soroban (.inr rfl)
  obtain ⟨-, hnames⟩ := identifiers_distinct_iff package_apart (List.mem_singleton.mpr rfl) hout
  obtain ⟨g, hg, hcarries⟩ := carries_copying package_apart hout
  obtain ⟨start, hcode, hvisible, henters, hreached⟩ := hnames [] hcarries (by decide) (regular_code "c" (by decide))
  obtain ⟨spot, hleads, hspot⟩ := exists_behind hcode henters
  replace hspot : spot.visible = ["c", "aB"] := by rw [hspot, hvisible]; decide
  obtain ⟨-, hiff, hdenotes⟩ := hreached spot (.single hleads)
  have hdistinct := hiff.mpr (hspot ▸ spelledApart_copy)
  exact ⟨out, g, start, spot, hout, hg, henters, .single hleads, hspot, hdistinct, hdenotes hdistinct⟩

theorem identifiers_alike : ∃ out g start spot, Resolve.package "sample" (source "a_b") = .ok (package "a_b") ∧
    file (package "a_b") (contract "a_b") .soroban = .ok out ∧ g ∈ out.methods ∧
    Carries ⟨package "a_b", contract "a_b", .soroban⟩ g [taken] [⟨"", .bool⟩] (code "a_b") ∧
    Enters ⟨package "a_b", contract "a_b", .soroban⟩ g start ∧
    Reaches ⟨package "a_b", contract "a_b", .soroban⟩ start spot ∧ spot.visible = ["a_b", "aB"] ∧
    spot.state.local? "a_b" = some "a_b" ∧ spot.state.local? "aB" = some "a_b" ∧ ¬spot.Distinct (IsOwn .soroban []) := by
  obtain ⟨out, hout⟩ := file_copying "a_b" (.inr rfl) .soroban (.inr rfl)
  obtain ⟨g, hg, hcarries⟩ := carries_copying package_alike hout
  obtain ⟨start, hcode, hvisible, henters, hsound⟩ := enters_of_carries hcarries [] (by decide)
  obtain ⟨spot, hleads, hspot⟩ := exists_behind hcode henters
  replace hspot : spot.visible = ["a_b", "aB"] := by rw [hspot, hvisible]; decide
  have hsound := hleads.sound (fun _ hn => .inr (.inl hn)) (fun _ hn => .inr (.inr (.inl hn)))
    (by rw [Spot.Tidy, hcode]; exact regular_code "a_b" (by decide)) hsound
  have hcopy := hsound.local?_eq (n := "a_b") (by simp [hspot])
  have hparam := hsound.local?_eq (n := "aB") (by simp [hspot])
  rw [show Rust.Name.value "a_b" = "a_b" by decide +kernel] at hcopy
  rw [show Rust.Name.value "aB" = "a_b" by decide +kernel] at hparam
  refine ⟨out, g, start, spot, package_alike, hout, hg, hcarries, henters, .single hleads, hspot, hcopy, hparam, ?_⟩
  intro hdistinct
  have hsame := (hdistinct "aB" (by simp [hspot]) "a_b" hparam).1 "a_b" (by simp [hspot]) hcopy
  exact absurd hsame (by decide)

end Spelling

end RustContracts.Emit
