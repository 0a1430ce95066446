import Mathlib
import RustContracts.Proofs.Program.Subterms
import RustContracts.Proofs.Resolve.Errors

-- Reverts with declared errors: what the name of an error finds, and what the entry says that the revert carries.
namespace RustContracts

namespace Program

-- The error that a name stands for in the code of a class: along its chain first, then in the file.
def Package.error? (p : Package) (c : Contract) (name : String) : Option CustomError :=
  ((p.chainOf c).flatMap (·.errors) ++ p.errors).find? (·.name = name)

end Program

namespace Resolve

open Program
open Solidity (ErrorDefinition SourceUnitPart)
open Text (Position)

def Outline.error? (o : Outline) (here : Option ContractDecl) (name : String) : Option CustomError :=
  (((here.map o.chainOf).getD []).flatMap (·.errors) ++ o.errors).find? (·.name = name)

-- What a revert tells: a message, or the entry of the error that its name finds, with an argument for each field.
inductive Reported (lookup : String → Option CustomError) : ErrorEntry → List Expr → Prop
  | message {entry : ErrorEntry} (text : String) (hkey : entry.key = "msg:" ++ text) : Reported lookup entry []
  | declared {name : String} {e : CustomError} {args : List Expr} (hfound : lookup name = some e)
      (harity : args.length = e.fields.length) : Reported lookup e.entry args

def Reverts (lookup : String → Option CustomError) : Stmt → Prop
  | .revert _ entry args => Reported lookup entry args
  | _ => True

variable {α β : Type} {env : Env} {P : α → Prop} {Q : β → Prop} {lookup : String → Option CustomError}

-- A step with results of which a property holds.
def Ensures (env : Env) (act : Resolving α) (P : α → Prop) : Prop := ∀ g a g', Resolves act env g a g' → P a

theorem ensures_pure {a : α} (ha : P a) : Ensures env (pure a) P := by
  intro g b g' h
  obtain ⟨rfl, -⟩ := resolves_pure.mp h
  exact ha

theorem ensures_throw (d : Diagnostic) : Ensures env (throw d : Resolving α) P :=
  fun _ _ _ h => absurd h not_resolves_throw

theorem ensures_bind {x : Resolving α} {f : α → Resolving β} (hx : Ensures env x P)
    (hf : ∀ a, P a → Ensures env (f a) Q) : Ensures env (x >>= f) Q := by
  intro g b g' h
  obtain ⟨a, g₁, ha, h⟩ := resolves_bind.mp h
  exact hf a (hx g a g₁ ha) g₁ b g' h

-- A first step of which nothing is used but that it ends.
theorem ensures_after {x : Resolving α} {f : α → Resolving β} (hf : ∀ a, Ensures env (f a) Q) :
    Ensures env (x >>= f) Q :=
  ensures_bind (P := fun _ => True) (fun _ _ _ _ => trivial) fun a _ => hf a

theorem ensures_throw_bind (d : Diagnostic) (f : α → Resolving β) : Ensures env ((throw d : Resolving α) >>= f) Q :=
  ensures_bind (P := fun _ => False) (ensures_throw d) fun _ h => h.elim

theorem ensures_read : Ensures env (read : Resolving Env) (· = env) := by
  intro g e g' h
  exact (resolves_read.mp h).1.symm

theorem Ensures.mono {act : Resolving α} {P' : α → Prop} (h : Ensures env act P) (hP : ∀ a, P a → P' a) :
    Ensures env act P' :=
  fun g a g' hact => hP a (h g a g' hact)

theorem ensures_inScope {act : Resolving α} (hact : Ensures env act P) : Ensures env (inScope act) P :=
  ensures_after fun _ => ensures_bind hact fun _ ha => ensures_after fun _ => ensures_pure ha

theorem ensures_option_mapM {γ : Type} {f : γ → Resolving α} (o : Option γ) (hf : ∀ c ∈ o, Ensures env (f c) P) :
    Ensures env (o.mapM f) fun r => ∀ a ∈ r, P a := by
  cases o with
  | none => exact ensures_pure (by nofun)
  | some c => exact ensures_bind (hf c rfl) fun a ha => ensures_pure (by rintro _ ⟨⟩; exact ha)

-- Reverts.

theorem ensures_error? (name : String) :
    Ensures env (error? name) (· = env.outline.error? env.contract name) := by
  refine ensures_bind (P := (· = (env.contract.map env.outline.chainOf).getD [])) ?_ fun classes hclasses => ?_
  · exact ensures_bind ensures_read fun e he => ensures_pure (he ▸ rfl)
  · refine ensures_bind ensures_read fun e he => ensures_pure ?_
    rw [he, hclasses]
    rfl

theorem key_register (r : Registry) (key message : String) (custom : Option ErrorDecl) :
    (r.register key message custom).1.key = key := by
  unfold Registry.register
  split
  · next entry hentry => simpa using List.find?_some hentry
  · rfl

theorem ensures_registerMessage (text : String) :
    Ensures env (registerMessage text) fun entry => entry.key = "msg:" ++ text := by
  refine ensures_after fun g => ?_
  dsimp only
  exact ensures_after fun _ => ensures_pure (key_register _ _ _ _)

-- A statement that has no other inside it.
theorem reverts_self {s : Stmt} (hs : s.substmts = [s]) (h : Reverts lookup s) : ∀ x ∈ s.substmts, Reverts lookup x := by
  rw [hs]
  exact List.forall_mem_singleton.mpr h

-- Simple statements.

def AllRevert (lookup : String → Option CustomError) (s : Stmt) : Prop := ∀ x ∈ s.substmts, Reverts lookup x

theorem allRevert_of_isSimple {s : Stmt} (h : s.isSimple = true) : AllRevert lookup s := by
  refine reverts_self (substmts_of_isSimple h) ?_
  cases s with
  | revert => cases h
  | _ => trivial

theorem ensures_stepStmt (start : Position) (op : Solidity.StepOp) (target : Resolving Expr) :
    Ensures env (stepStmt start op target) (Stmt.isSimple · = true) :=
  ensures_after fun _ => ensures_after fun _ => ensures_pure rfl

theorem ensures_requireStmt? (start : Position) (primary : Solidity.Primary) (suffixes : List Solidity.Suffix) :
    Ensures env (requireStmt? start primary suffixes) fun r => ∀ s ∈ r, s.isSimple = true := by
  have hrequire (c : Expr) (entry : ErrorEntry) : ∀ s ∈ some (Stmt.require start c entry), s.isSimple = true := by
    rintro _ ⟨⟩
    rfl
  have hnone : ∀ s ∈ (none : Option Stmt), s.isSimple = true := by nofun
  unfold requireStmt?
  split
  · refine ensures_after fun found => ?_
    split
    · exact ensures_pure hnone
    · dsimp only
      split
      · split
        · exact ensures_after fun _ => ensures_after fun _ => ensures_pure (hrequire _ _)
        · split
          · exact ensures_throw _
          · exact ensures_after fun _ => ensures_after fun _ => ensures_after fun _ => ensures_pure (hrequire _ _)
        · exact ensures_throw _
      · exact ensures_throw _
      · exact ensures_pure hnone
  · exact ensures_pure hnone

theorem ensures_exprStmt (e : Solidity.Expression) : Ensures env (exprStmt e) (Stmt.isSimple · = true) := by
  have hexpr : Ensures env (do return Stmt.expr e.start (← expr e)) (Stmt.isSimple · = true) :=
    ensures_after fun _ => ensures_pure rfl
  unfold exprStmt
  split
  · refine ensures_after fun _ => ensures_after fun _ => ensures_after fun _ => ?_
    split
    · exact ensures_pure rfl
    · exact ensures_pure rfl
  · split
    · exact ensures_stepStmt _ _ _
    · exact ensures_after fun _ => ensures_after fun _ => ensures_pure rfl
    · split
      · exact ensures_stepStmt _ _ _
      · refine ensures_bind (P := fun r => ∀ s ∈ r, Stmt.isSimple s = true) (ensures_requireStmt? _ _ _) fun found hfound => ?_
        split
        · exact ensures_pure (hfound _ rfl)
        · exact hexpr
    · exact hexpr

theorem ensures_varDecl (d : Solidity.VariableDeclaration) : Ensures env (varDecl d) (Stmt.isSimple · = true) := by
  have hdecl (p : Param) (x : Expr) :
      Ensures env (do declareLocal p; return Stmt.decl d.start [p] x) (Stmt.isSimple · = true) :=
    ensures_after fun _ => ensures_pure rfl
  unfold varDecl
  refine ensures_after fun _ => ensures_after fun t => ?_
  dsimp only
  split
  · exact ensures_throw_bind _ _
  · split
    · exact ensures_after fun _ => hdecl _ _
    · exact ensures_after fun _ => hdecl _ _

theorem ensures_emitStmt (start : Position) (e : Solidity.Expression) :
    Ensures env (emitStmt start e) (Stmt.isSimple · = true) := by
  unfold emitStmt
  split
  · exact ensures_throw _
  · refine ensures_after fun found => ?_
    split
    · exact ensures_throw _
    · refine ensures_after fun xs => ?_
      split
      · exact ensures_throw_bind _ _
      · exact ensures_pure rfl

theorem ensures_initStmt (s : Solidity.SimpleStatement) : Ensures env (initStmt s) (Stmt.isSimple · = true) := by
  cases s with
  | expr _ e => exact ensures_exprStmt e
  | varDecl _ d => exact ensures_varDecl d

theorem ensures_revertStmt (hlookup : ∀ name, env.outline.error? env.contract name = lookup name) (start : Position)
    (e : Solidity.Expression) : Ensures env (revertStmt start e) fun s =>
      ∃ entry args, s = .revert start entry args ∧ Reported lookup entry args := by
  have hmessage {entry : ErrorEntry} {text : String} (hkey : entry.key = "msg:" ++ text) :
      ∃ reported args, Stmt.revert start entry [] = .revert start reported args ∧ Reported lookup reported args :=
    ⟨entry, [], rfl, .message text hkey⟩
  unfold revertStmt
  split
  · split
    · exact ensures_bind (ensures_registerMessage _) fun entry hkey => ensures_pure (hmessage hkey)
    · exact ensures_after fun _ => ensures_bind (ensures_registerMessage _) fun entry hkey => ensures_pure (hmessage hkey)
    · exact ensures_throw _
  · split
    · exact ensures_throw _
    · refine ensures_bind (ensures_error? _) fun found hfound => ?_
      split
      · exact ensures_throw _
      · next decl _ =>
          refine ensures_after fun xs => ?_
          split
          · exact ensures_throw_bind _ _
          · next hlength =>
              refine ensures_pure ⟨_, _, rfl, .declared ((hlookup _).symm.trans hfound.symm) ?_⟩
              simpa using hlength

-- Blocks.

theorem allRevert_block {b : Block} : AllRevert lookup (.block b) ↔ ∀ x ∈ b.substmts, Reverts lookup x := by
  rw [AllRevert, Stmt.substmts]

theorem reverts_of_stmts {start : Position} {body : List Stmt} {unchecked : Bool} (h : ∀ s ∈ body, AllRevert lookup s) :
    ∀ x ∈ (Block.mk start body unchecked).substmts, Reverts lookup x := by
  rw [Block.substmts]
  refine List.forall_mem_cons.mpr ⟨trivial, ?_⟩
  induction body with
  | nil => exact List.forall_mem_nil _
  | cons s rest ih =>
      obtain ⟨hs, hrest⟩ := List.forall_mem_cons.mp h
      exact List.forall_mem_append.mpr ⟨hs, ih hrest⟩

theorem reverts_unchecked {b : Block} (h : ∀ x ∈ b.substmts, Reverts lookup x) :
    ∀ x ∈ ({ b with unchecked := true } : Block).substmts, Reverts lookup x := by
  cases b
  rw [Block.substmts] at h ⊢
  exact List.forall_mem_cons.mpr ⟨trivial, (List.forall_mem_cons.mp h).2⟩

theorem allRevert_forLoop {start : Position} {init post : Option Stmt} {cond : Option Expr} {b : Block}
    (hinit : ∀ s ∈ init, AllRevert lookup s) (hpost : ∀ s ∈ post, AllRevert lookup s)
    (hb : ∀ x ∈ b.substmts, Reverts lookup x) : AllRevert lookup (.forLoop start init cond post b) := by
  rw [AllRevert]
  cases init with
  | none =>
      cases post with
      | none =>
          rw [Stmt.substmts]
          exact List.forall_mem_cons.mpr ⟨trivial, hb⟩
      | some p =>
          rw [Stmt.substmts]
          exact List.forall_mem_cons.mpr ⟨trivial, List.forall_mem_append.mpr ⟨hpost p rfl, hb⟩⟩
  | some i =>
      cases post with
      | none =>
          rw [Stmt.substmts]
          exact List.forall_mem_cons.mpr ⟨trivial, List.forall_mem_append.mpr ⟨hinit i rfl, hb⟩⟩
      | some p =>
          rw [Stmt.substmts]
          have hparts := List.forall_mem_append.mpr ⟨hinit i rfl, hpost p rfl⟩
          exact List.forall_mem_cons.mpr ⟨trivial, List.forall_mem_append.mpr ⟨hparts, hb⟩⟩

-- The body of a branch or loop is a block or a statement that stands alone.
theorem ensures_nested {P : Stmt → Prop} {Q : Block → Prop} (hblock : ∀ b, P (.block b) → Q b)
    (halone : ∀ start x, P x → Q ⟨start, [x], false⟩) {s : Solidity.Statement} (hs : Ensures env (stmt s) P) :
    Ensures env (nested s) Q := by
  have hother (h : ∀ p b, s ≠ .block p b) : Ensures env (nested s) Q := by
    rw [nested]
    · exact ensures_bind (ensures_inScope hs) fun x hx => ensures_pure (halone _ x hx)
    · exact h
  cases s with
  | block p b =>
      intro g body g' h
      rw [nested] at h
      have hresolves : Resolves (stmt (.block p b)) env g (.block body) g' := by
        rw [stmt]
        exact resolves_bind.mpr ⟨body, g', h, rfl⟩
      exact hblock body (hs g _ g' hresolves)
  | _ => exact hother fun _ _ h => by cases h

theorem reverts_nested {s : Solidity.Statement} (hs : Ensures env (stmt s) (AllRevert lookup)) :
    Ensures env (nested s) fun b => ∀ x ∈ b.substmts, Reverts lookup x :=
  ensures_nested (fun _ => allRevert_block.mp) (fun _ _ hx => reverts_of_stmts (List.forall_mem_singleton.mpr hx)) hs

mutual

theorem ensures_block (env : Env) (hlookup : ∀ name, env.outline.error? env.contract name = lookup name) :
    ∀ b, Ensures env (block b) fun b => ∀ x ∈ b.substmts, Reverts lookup x
  | ⟨start, _, statements⟩ => by
    rw [block]
    exact ensures_bind (ensures_inScope (ensures_stmts env hlookup statements)) fun body hbody =>
      ensures_pure (reverts_of_stmts hbody)

theorem ensures_stmts (env : Env) (hlookup : ∀ name, env.outline.error? env.contract name = lookup name) :
    ∀ ss, Ensures env (stmts ss) fun ss => ∀ s ∈ ss, AllRevert lookup s
  | [] => by
    rw [stmts]
    exact ensures_pure (by nofun)
  | s :: rest => by
    rw [stmts]
    refine ensures_bind (ensures_stmt env hlookup s) fun x hx => ?_
    refine ensures_bind (ensures_stmts env hlookup rest) fun more hmore => ?_
    exact ensures_pure (List.forall_mem_cons.mpr ⟨hx, hmore⟩)

theorem ensures_stmt (env : Env) (hlookup : ∀ name, env.outline.error? env.contract name = lookup name) :
    ∀ s, Ensures env (stmt s) (AllRevert lookup)
  | .block _ b => by
    rw [stmt]
    exact ensures_bind (ensures_block env hlookup b) fun body hbody => ensures_pure (allRevert_block.mpr hbody)
  | .unchecked _ b => by
    rw [stmt]
    exact ensures_bind (ensures_block env hlookup b) fun body hbody =>
      ensures_pure (allRevert_block.mpr (reverts_unchecked hbody))
  | .ifElse start cond whenTrue none => by
    rw [stmt]
    refine ensures_after fun c => ensures_bind (reverts_nested (ensures_stmt env hlookup whenTrue)) fun t ht => ?_
    refine ensures_pure ?_
    rw [AllRevert, Stmt.substmts]
    exact List.forall_mem_cons.mpr ⟨trivial, ht⟩
  | .ifElse start cond whenTrue (some whenFalse) => by
    rw [stmt]
    refine ensures_after fun c => ensures_bind (reverts_nested (ensures_stmt env hlookup whenTrue)) fun t ht => ?_
    refine ensures_bind (reverts_nested (ensures_stmt env hlookup whenFalse)) fun e he => ensures_pure ?_
    rw [AllRevert, Stmt.substmts]
    exact List.forall_mem_cons.mpr ⟨trivial, List.forall_mem_append.mpr ⟨ht, he⟩⟩
  | .forLoop start init cond post body => by
    rw [stmt]
    have hinit : Ensures env (init.mapM initStmt) fun i => ∀ s ∈ i, AllRevert lookup s :=
      ensures_option_mapM init fun s _ => (ensures_initStmt s).mono fun _ => allRevert_of_isSimple
    have hpost : Ensures env (post.mapM exprStmt) fun p => ∀ s ∈ p, AllRevert lookup s :=
      ensures_option_mapM post fun e _ => (ensures_exprStmt e).mono fun _ => allRevert_of_isSimple
    refine ensures_inScope (ensures_bind hinit fun i hi => ensures_after fun c => ?_)
    refine ensures_bind hpost fun p hp => ?_
    refine ensures_bind (P := fun b => ∀ x ∈ b.substmts, Reverts lookup x) ?_ fun b hb => ensures_pure ?_
    · exact reverts_nested (ensures_stmt { env with inLoop := true } hlookup body)
    · exact allRevert_forLoop hi hp hb
  | .whileLoop start cond body => by
    rw [stmt]
    refine ensures_after fun c => ?_
    refine ensures_bind (P := fun b => ∀ x ∈ b.substmts, Reverts lookup x) ?_ fun b hb => ensures_pure ?_
    · exact reverts_nested (ensures_stmt { env with inLoop := true } hlookup body)
    · rw [AllRevert, Stmt.substmts]
      exact List.forall_mem_cons.mpr ⟨trivial, hb⟩
  | .doWhile start body cond => by
    rw [stmt]
    refine ensures_bind (P := fun b => ∀ x ∈ b.substmts, Reverts lookup x) ?_ fun b hb =>
      ensures_after fun c => ensures_pure ?_
    · exact reverts_nested (ensures_stmt { env with inLoop := true } hlookup body)
    · rw [AllRevert, Stmt.substmts]
      exact List.forall_mem_cons.mpr ⟨trivial, hb⟩
  | .returnValue start value => by
    rw [stmt]
    exact ensures_after fun _ => ensures_pure (reverts_self rfl trivial)
  | .emit start e => by
    rw [stmt]
    exact (ensures_emitStmt start e).mono fun _ => allRevert_of_isSimple
  | .revert start e => by
    rw [stmt]
    refine (ensures_revertStmt hlookup start e).mono ?_
    rintro _ ⟨entry, args, rfl, hreported⟩
    exact reverts_self rfl hreported
  | .breakLoop start => by
    rw [stmt]
    refine ensures_after fun _ => ?_
    split
    · exact ensures_pure (reverts_self rfl trivial)
    · exact ensures_throw _
  | .continueLoop start => by
    rw [stmt]
    refine ensures_after fun _ => ?_
    split
    · exact ensures_pure (reverts_self rfl trivial)
    · exact ensures_throw _
  | .placeholder start => by
    rw [stmt]
    refine ensures_after fun _ => ?_
    split
    · exact ensures_pure (reverts_self rfl trivial)
    · exact ensures_throw _
  | .expr _ e => by
    rw [stmt]
    exact (ensures_exprStmt e).mono fun _ => allRevert_of_isSimple
  | .tupleDecl start vars value => by
    rw [stmt]
    exact ensures_after fun _ => ensures_after fun _ => ensures_pure (reverts_self rfl trivial)
  | .varDecl _ d => by
    rw [stmt]
    exact (ensures_varDecl d).mono fun _ => allRevert_of_isSimple

end

-- Code.

-- A class after code was added: the same errors, and new bodies as they are resolved.
structure Fills (lookup : String → Option CustomError) (c c' : ContractDecl) : Prop where
  heading : errorHeading c' = errorHeading c
  bodies : ∀ impl' ∈ c'.code, ∀ b ∈ impl'.body,
    (∃ impl ∈ c.code, impl.body = some b) ∨ ∀ x ∈ b.substmts, Reverts lookup x

theorem fills_of_code {c c' : ContractDecl} (hheading : errorHeading c' = errorHeading c) (hcode : c'.code = c.code) :
    Fills lookup c c' :=
  ⟨hheading, fun impl himpl _ hb => .inl ⟨impl, hcode ▸ himpl, hb⟩⟩

theorem fills_updateImplementation {c : ContractDecl} (code : CodeOwner) {f : Implementation → Implementation}
    (hf : ∀ impl, ∀ b ∈ (f impl).body, impl.body = some b ∨ ∀ x ∈ b.substmts, Reverts lookup x) :
    Fills lookup c (updateImplementation code f c) := by
  refine ⟨by cases code <;> rfl, fun impl' himpl' b hb => ?_⟩
  rcases mem_code_updateImplementation himpl' with himpl | ⟨k, hk, impl, himpl, rfl⟩
  · exact .inl ⟨impl', himpl, hb⟩
  · exact (hf impl b hb).imp_left fun hold => ⟨impl, mem_code_of_codeFunction? hk himpl, hold⟩

theorem Fills.noted {c c' : ContractDecl} (h : Fills lookup c c') (g : Gathered) (code : Option CodeOwner) :
    Fills lookup c (noted g code c') := by
  cases code with
  | none => exact ⟨h.heading, h.bodies⟩
  | some code =>
      have hnoted : Fills lookup c' (updateImplementation code (noteUses g) c') :=
        fills_updateImplementation code fun impl b hb => .inl hb
      refine ⟨hnoted.heading.trans h.heading, fun impl' himpl' b hb => ?_⟩
      rcases hnoted.bodies impl' himpl' b hb with ⟨impl, himpl, hold⟩ | hb
      · exact h.bodies impl himpl b hold
      · exact .inr hb

theorem fills_runTask {p : Pending} {g g' : Gathered} {r : (ContractDecl → ContractDecl) × (Outline → Outline)}
    (hlookup : ∀ name, env.outline.error? env.contract name = lookup name) (h : Resolves (runTask p) env g r g') :
    (∀ c, Fills lookup c (r.1 c)) ∧ ∀ o, (r.2 o).classes = o.classes ∧ (r.2 o).errors = o.errors := by
  obtain ⟨owner, code, task⟩ := p
  have hsame (c : ContractDecl) : Fills lookup c c := fills_of_code rfl rfl
  unfold runTask at h
  cases task with
  | body block =>
      obtain ⟨body, g₁, hbody, h⟩ := resolves_bind.mp h
      obtain ⟨rfl, -⟩ := resolves_pure.mp h
      have hreverts := ensures_block env hlookup block g body g₁ hbody
      cases code with
      | none => exact ⟨hsame, fun o => ⟨rfl, rfl⟩⟩
      | some code =>
          refine ⟨fun c => fills_updateImplementation code fun impl b hb => .inr ?_, fun o => ⟨rfl, rfl⟩⟩
          obtain rfl := Option.some.inj hb
          exact hreverts
  | fieldValue i value =>
      obtain ⟨x, rfl⟩ := result_of_bind_pure h
      exact ⟨fun c => fills_of_code rfl rfl, fun o => ⟨rfl, rfl⟩⟩
  | constantValue i value =>
      cases owner with
      | some owner =>
          obtain ⟨x, rfl⟩ := result_of_bind_pure h
          exact ⟨fun c => fills_of_code rfl rfl, fun o => ⟨rfl, rfl⟩⟩
      | none =>
          obtain ⟨x, rfl⟩ := result_of_bind_pure h
          exact ⟨hsame, fun o => ⟨rfl, rfl⟩⟩
  | baseArgs i args =>
      obtain ⟨xs, rfl⟩ := result_of_bind_pure h
      exact ⟨fun c => fills_of_code rfl rfl, fun o => ⟨rfl, rfl⟩⟩
  | modifierArgs i args =>
      obtain ⟨xs, rfl⟩ := result_of_bind_pure h
      cases code with
      | none => exact ⟨hsame, fun o => ⟨rfl, rfl⟩⟩
      | some code =>
          exact ⟨fun c => fills_updateImplementation code fun impl b hb => .inl hb, fun o => ⟨rfl, rfl⟩⟩

-- An outline with the errors of the one that its code is resolved against.
structure Outline.Reverting (known o : Outline) : Prop where
  file : o.errors = known.errors
  classes : o.classes.map errorHeading = known.classes.map errorHeading
  bodies : ∀ c ∈ o.classes, ∀ impl ∈ c.code, ∀ b ∈ impl.body, ∀ x ∈ b.substmts,
    Reverts (known.error? (known.class? c.name)) x

variable {known o o' : Outline} {r r' : Registry} {p : Pending} {pending : List Pending}

theorem Outline.Reverting.runPending (ho : known.Reverting o) (h : runPending known (o, r) p = .ok (o', r')) :
    known.Reverting o' := by
  unfold Resolve.runPending at h
  obtain ⟨⟨⟨inClass, inFile⟩, gathered⟩, htask, h⟩ := bind_eq_ok.mp h
  let lookup := known.error? (p.owner.bind known.class?)
  obtain ⟨hclass, hfile⟩ : (∀ c, Fills lookup c (inClass c)) ∧ ∀ o, (inFile o).classes = o.classes ∧ (inFile o).errors = o.errors :=
    fills_runTask (fun _ => rfl) htask
  have hfills (c : ContractDecl) : Fills lookup c (noted gathered p.code (inClass c)) :=
    (hclass c).noted gathered p.code
  cases h
  refine ⟨(hfile _).2.trans ho.file, ?_, ?_⟩
  · rw [(hfile _).1, ← ho.classes, List.map_map]
    refine List.map_congr_left fun c _ => ?_
    rw [Function.comp_apply]
    split
    · exact (hfills c).heading
    · rfl
  · rw [(hfile _).1, List.forall_mem_map]
    intro c hc
    split
    · next howner =>
        have hname : (noted gathered p.code (inClass c)).name = c.name := congrArg Prod.fst (hfills c).heading
        intro impl himpl b hb
        change ∀ x ∈ b.substmts, Reverts (known.error? (known.class? (noted gathered p.code (inClass c)).name)) x
        rw [hname]
        rcases (hfills c).bodies impl himpl b hb with ⟨old, hold, heq⟩ | hnew
        · exact ho.bodies c hc old hold b heq
        · change ∀ x ∈ b.substmts, Reverts (known.error? (p.owner.bind known.class?)) x at hnew
          rwa [← howner] at hnew
    · exact ho.bodies c hc

theorem Outline.Reverting.foldlM (ho : known.Reverting o)
    (h : pending.foldlM (Resolve.runPending known) (o, r) = .ok (o', r')) : known.Reverting o' := by
  induction pending generalizing o r with
  | nil =>
      cases h
      exact ho
  | cons p pending ih =>
      rw [List.foldlM_cons] at h
      obtain ⟨⟨mid, r₁⟩, hmid, h⟩ := bind_eq_ok.mp h
      exact ih (ho.runPending hmid) h

-- Packages.

-- Classes with the same names, chains and errors find the same errors.
theorem error?_congr (hfile : o'.errors = o.errors) (hclasses : o'.classes.map errorHeading = o.classes.map errorHeading)
    {c c' : ContractDecl} (hc : errorHeading c' = errorHeading c) (name : String) :
    o'.error? (some c') name = o.error? (some c) name := by
  have hclass (n : String) : (o'.class? n).map errorHeading = (o.class? n).map errorHeading := by
    have hfind (l : List ContractDecl) : (l.find? (·.name = n)).map errorHeading =
        (l.map errorHeading).find? (·.1 = n) := by
      rw [List.find?_map]
      rfl
    rw [Outline.class?, Outline.class?, hfind, hfind, hclasses]
  have hchain : (o'.chainOf c').map errorHeading = (o.chainOf c).map errorHeading := by
    have hnames : c'.chain = c.chain := congrArg (·.2.1) hc
    rw [Outline.chainOf, Outline.chainOf, List.map_filterMap, List.map_filterMap, hnames]
    exact List.filterMap_congr fun n _ => hclass n
  have herrors (l : List ContractDecl) : l.flatMap (·.errors) = (l.map errorHeading).flatMap (·.2.2) := by
    rw [List.flatMap_map]
    rfl
  simp only [Outline.error?, Option.map_some, Option.getD_some, hfile, herrors, hchain]

theorem error?_finished {p : Package} (hp : p.classes = o.classes.map (finished o)) (herrors : p.errors = o.errors)
    (c : ContractDecl) (name : String) : p.error? (finished o c) name = o.error? (some c) name := by
  have hchain : (p.chainOf (finished o c)).flatMap (·.errors) = (o.chainOf c).flatMap (·.errors) := by
    rw [chainOf_finished hp, List.flatMap_map]
    exact List.flatMap_congr fun k _ => by rw [finished_toContractDecl]
  rw [Package.error?, Outline.error?, hchain, herrors, Option.map_some, Option.getD_some]

-- An error that is found is one of the package.
theorem Enlisted.mem_of_error? {d : Draft} {all : List OwnedError} (hd : Enlisted all d)
    (hfile : o.errors = d.outline.errors) (hclasses : o.classes.map errorHeading = d.outline.classes.map errorHeading)
    {here : Option ContractDecl} {name : String} {e : CustomError} (h : o.error? here name = some e) :
    e.name = name ∧ ∃ owner, (owner, e) ∈ all := by
  refine ⟨by simpa using List.find?_some h, ?_⟩
  rcases List.mem_append.mp (List.mem_of_find?_eq_some h) with hmem | hmem
  · obtain ⟨k, hk, he⟩ := List.mem_flatMap.mp hmem
    have hk : k ∈ o.classes := by
      cases here with
      | none => simp at hk
      | some c => exact chainOf_mem hk
    obtain ⟨k', hk', heq⟩ := List.mem_map.mp (hclasses ▸ List.mem_map_of_mem hk : errorHeading k ∈ _)
    have herrors : k'.errors = k.errors := congrArg (·.2.2) heq
    rw [← herrors, hd.classes k' hk'] at he
    exact ⟨_, mem_ownedBy.mp he⟩
  · rw [hfile, hd.file] at hmem
    exact ⟨none, mem_ownedBy.mp hmem⟩

-- The error of the entry under which an error is declared.
theorem Enlisted.first {d : Draft} {all : List OwnedError} (hd : Enlisted all d) {owner : Option String}
    {e : CustomError} (he : (owner, e) ∈ all) :
    ∃ first, first? e.name all = some first ∧ e.entry.custom = some first.toErrorDecl := by
  obtain ⟨first, hfirst, hentry⟩ := Option.map_eq_some_iff.mp (hd.entries _ he)
  exact ⟨first, hfirst, hentry ▸ hd.custom _ first hfirst⟩

-- The errors of a package are those of its source text in the order in which they stand there. A revert in the code of
-- a class tells a message, or it carries the entry of the error that its name finds and has an argument for each field
-- of that. The entry is that of the first error of the name in the source text, so it says what was found exactly when
-- that is the first.
theorem reverts_carry_first {name : String} {unit : Solidity.SourceUnit} {p : Package} (h : package name unit = .ok p) :
    ∃ all : List OwnedError, List.Forall₂ DeclaredFor all (unit.parts.flatMap partErrors) ∧
      p.errors = ownedBy none all ∧ (∀ c ∈ p.classes, c.errors = ownedBy (some c.name) all) ∧
      ∀ c ∈ p.classes, ∀ impl ∈ c.code, ∀ b ∈ impl.body, ∀ start entry args,
        Stmt.revert start entry args ∈ b.substmts →
          (args = [] ∧ ∃ text, entry.key = "msg:" ++ text) ∨
            ∃ called e first, p.error? c called = some e ∧ entry = e.entry ∧ args.length = e.fields.length ∧
              first? called all = some first ∧ entry.custom = some first.toErrorDecl ∧
              (entry.custom = some e.toErrorDecl ↔ first.toErrorDecl = e.toErrorDecl) := by
  unfold package at h
  obtain ⟨draft, hdraft, h⟩ := bind_eq_ok.mp h
  obtain ⟨-, -, h⟩ := bind_eq_ok.mp h
  obtain ⟨⟨o, registry⟩, hrun, h⟩ := bind_eq_ok.mp h
  obtain ⟨known, hknown, hfile, hrun⟩ : ∃ known : Outline, known.classes = draft.outline.classes ∧
      known.errors = draft.outline.errors ∧
      draft.pending.foldlM (runPending known) (draft.outline, draft.registry) = .ok (o, registry) := by
    refine ⟨_, ?_, ?_, hrun⟩ <;> rfl
  obtain ⟨all, hall, hd⟩ := enlisted_declareUnit hdraft
  have hsound := sound_declareUnit hdraft
  have hstart : known.Reverting draft.outline := by
    refine ⟨hfile.symm, by rw [hknown], fun c hc impl himpl b hb => ?_⟩
    rw [hd.unwritten c hc impl himpl] at hb
    cases hb
  have hcode := hstart.foldlM hrun
  have hclasses : p.classes = o.classes.map (finished o) := by
    cases h
    rw [Outline.flatten, List.map_map]
    rfl
  have herrors : p.errors = o.errors := by
    cases h
    rfl
  -- each class as it was declared
  have hdeclared (k : ContractDecl) (hk : k ∈ o.classes) :
      ∃ k' ∈ draft.outline.classes, errorHeading k' = errorHeading k := by
    have hmem : errorHeading k ∈ draft.outline.classes.map errorHeading := by
      rw [← hknown, ← hcode.classes]
      exact List.mem_map_of_mem hk
    exact List.mem_map.mp hmem
  refine ⟨all, hall, ?_, ?_, ?_⟩
  · rw [herrors, hcode.file, hfile, hd.file]
  · rw [hclasses, List.forall_mem_map]
    intro k hk
    rw [finished_toContractDecl]
    obtain ⟨k', hk', hheading⟩ := hdeclared k hk
    simp only [errorHeading, Prod.mk.injEq] at hheading
    rw [← hheading.2.2, ← hheading.1]
    exact hd.classes k' hk'
  · rw [hclasses, List.forall_mem_map]
    intro k hk impl himpl b hb start entry args hmem
    rw [finished_toContractDecl] at himpl
    obtain ⟨k', hk', hheading⟩ := hdeclared k hk
    have hname : k'.name = k.name := congrArg Prod.fst hheading
    have hclass : known.class? k.name = some k' := by
      rw [← hname, Outline.class?, hknown]
      exact hsound.class_eq hk'
    have hreported : Reported (known.error? (some k')) entry args := hclass ▸ hcode.bodies k hk impl himpl b hb _ hmem
    cases hreported with
    | message text hkey => exact .inl ⟨rfl, text, hkey⟩
    | @declared called e _ hfound harity =>
        obtain ⟨rfl, owner, he⟩ := hd.mem_of_error? hfile (by rw [hknown]) hfound
        obtain ⟨first, hfirst, hcustom⟩ := hd.first he
        refine .inr ⟨e.name, e, first, ?_, rfl, harity, hfirst, hcustom, by rw [hcustom, Option.some.injEq]⟩
        rw [error?_finished hclasses herrors, error?_congr hcode.file hcode.classes hheading.symm]
        exact hfound

-- `contract C { error E(bool b, bool c); function f() public { revert E(true, false); } }`, alone and behind
-- `error E(uint256 a);`.
namespace Namesakes

def definition (params : List (String × String)) : ErrorDefinition :=
  ⟨default, "E", params.map fun p => ⟨default, plainType p.1, "", p.2⟩⟩

def expression (target : Solidity.Operand) : Solidity.Expression := ⟨default, default, ⟨⟨target, []⟩, none⟩, none⟩

def raised : Solidity.Expression :=
  expression (.term default (.ident "E")
    [.call default [expression (.term default (.bool true) []), expression (.term default (.bool false) [])]])

def raising : SourceUnitPart :=
  plainContract "C" false [] [
    .error default (definition [("bool", "b"), ("bool", "c")]),
    .function default
      { start := default, stop := default, kind := "function", name := "f", params := [], attrs := [], returns := []
        body := some ⟨default, default, [.revert default raised]⟩ }]

def alone : Solidity.SourceUnit := ⟨default, [raising]⟩

def behind : Solidity.SourceUnit := ⟨default, [.error default (definition [("uint256", "a")]), raising]⟩

-- What these become.

def inFile : ErrorDecl := ⟨"E", [⟨"a", .int false 256⟩], "", default⟩

def inClass : ErrorDecl := ⟨"E", [⟨"b", .bool⟩, ⟨"c", .bool⟩], "C", default⟩

def entry (first : ErrorDecl) : ErrorEntry := ⟨1, "error:E", "E", some first⟩

def arguments : List Expr := [.bool default true, .bool default false]

def statement (first : ErrorDecl) : Stmt := .revert default (entry first) arguments

def implementation (first : ErrorDecl) : Implementation :=
  { owner := "C", body := some ⟨default, [statement first], false⟩, implemented := true, start := default }

def function (first : ErrorDecl) : Function :=
  { name := "f", sourceName := "f", kind := .function, implementations := [implementation first] }

def contract (first : ErrorDecl) : Contract :=
  { name := "C", kind := .contract, isAbstract := false, bases := [], start := default, chain := ["C"]
    functions := [function first], errors := [⟨inClass, entry first⟩], storage := [], dispatch := [function first]
    modifierTable := [] }

def packageOf (errors : List CustomError) (first : ErrorDecl) : Package :=
  { name := "sample", classes := [contract first], errors := errors, registry := { entries := [entry first] } }

theorem package_alone : package "sample" alone = .ok (packageOf [] inClass) := by cbv

theorem package_behind : package "sample" behind = .ok (packageOf [⟨inFile, entry inFile⟩] inFile) := by cbv

-- Alone, the error is the first of its name and what the entry says.
theorem revert_carries_own : package "sample" alone = .ok (packageOf [] inClass) ∧
    statement inClass ∈ Block.substmts ⟨default, [statement inClass], false⟩ ∧
    ∃ called e, ∃ first : CustomError, (packageOf [] inClass).error? (contract inClass) called = some e ∧
      arguments.length = e.fields.length ∧ (entry inClass).custom = some e.toErrorDecl ∧
      first.toErrorDecl = e.toErrorDecl := by
  have hmem : statement inClass ∈ Block.substmts ⟨default, [statement inClass], false⟩ := .tail _ (.head _)
  obtain ⟨all, -, -, -, hreverts⟩ := reverts_carry_first package_alone
  obtain ⟨hargs, -⟩ | ⟨called, e, first, hfound, -, harity, -, -, hiff⟩ :=
    hreverts (contract inClass) (.head _) (implementation inClass) (.head _) _ rfl _ _ _ hmem
  · cases hargs
  · obtain rfl : e = ⟨inClass, entry inClass⟩ := List.mem_singleton.mp (List.mem_of_find?_eq_some hfound)
    exact ⟨package_alone, hmem, called, _, first, hfound, harity, rfl, hiff.mp rfl⟩

-- Behind the error of the file, the entry says one field where two arguments are given.
theorem revert_carries_other : ∃ p, package "sample" behind = .ok p ∧ ∃ c ∈ p.classes, ∃ impl ∈ c.code, ∃ b ∈ impl.body,
    ∃ start e first args, Stmt.revert start e.entry args ∈ b.substmts ∧ p.error? c "E" = some e ∧
      args.length = e.fields.length ∧ e.entry.custom = some first ∧ first.fields.length ≠ args.length ∧
      e.entry.custom ≠ some e.toErrorDecl := by
  refine ⟨_, package_behind, contract inFile, .head _, implementation inFile, .head _, _, rfl, default,
    ⟨inClass, entry inFile⟩, inFile, arguments, .tail _ (.head _), rfl, rfl, rfl, by decide, ?_⟩
  intro h
  have hfields := congrArg ErrorDecl.fields (Option.some.inj h)
  exact absurd (congrArg List.length hfields) (by decide)

end Namesakes

end Resolve

end RustContracts
