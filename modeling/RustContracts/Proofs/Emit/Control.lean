import RustContracts.Proofs.Emit.Plain
import RustContracts.Proofs.Emit.Skeleton

-- The code that is written for statements has their control flow: it makes the same steps and tests in the
-- same order and is left for the same reason.
namespace RustContracts.Emit

open Program RustContracts.Flow
open Rust (World Jump flowAll)

variable {E : Env} {s s' : State}

-- The jump that is written inside a loop.
def Ending.jump (l : Option Loop) : Ending → Jump
  | broke =>
    match l with
    | some l => .broke (if l.resumes then l.label else "")
    | none => .broke ""
  | continued =>
    match l with
    | some l => if l.resumes then .broke l.resumeLabel else .continued ""
    | none => .continued ""
  | returned value => .returned (some (.callPath "Ok" [value]))
  | reverted error => .returned (some (.callPath "Err" [error]))
  | stopped => .stopped
  | outOfFuel => .outOfFuel

theorem label_ne_resumeLabel (l : Loop) : (l.label == l.resumeLabel) = false := by
  refine beq_eq_false_iff_ne.mpr fun heq => ?_
  have hlist := congrArg String.toList heq
  simp [Loop.label, Loop.resumeLabel] at hlist

-- What is no jump is written alike everywhere.
theorem Ending.jump_eq {e : Ending} (hbreak : e.isBreak = false) (hcontinue : e.isContinue = false)
    (l l' : Option Loop) : e.jump l = e.jump l' := by
  cases e with
  | broke => cases hbreak
  | continued => cases hcontinue
  | _ => rfl

section Shapes

variable {σ : Type} (W : World σ) (fuel : Nat)

theorem mapExit_branchOn {ε δ : Type} (f : ε → δ) (stopped : ε) (cond : Option Rust.Expr) (a b : Act ε σ) :
    mapExit f (branchOn stopped W cond a b) = branchOn (f stopped) W cond (mapExit f a) (mapExit f b) := by
  cases cond with
  | none => rfl
  | some c => exact mapExit_branch f stopped _ a b

theorem catching_branchOn (caught : Ending → Bool) (hstopped : caught .stopped = false)
    (cond : Option Rust.Expr) {e : Ending} (he : caught e = false) (a : Act Ending σ) :
    catching caught (branchOn .stopped W cond a (leave e)) =
      branchOn .stopped W cond (catching caught a) (leave e) := by
  cases cond with
  | none => rfl
  | some c =>
      funext x
      rcases h : W.tests c x with ⟨_ | answer, y⟩
      · simp [branchOn, catching, branch, h, hstopped]
      · cases answer <;> simp [branchOn, catching, branch, leave, h, he]

theorem catching_of_avoids {caught : Ending → Bool} {a : Act Ending σ} (ha : Avoids caught a) :
    catching caught a = a := by
  funext x
  rcases h : a x with ⟨_ | e, y⟩
  · simp [catching, h]
  · simp [catching, h, ha x e y h]

-- A loop takes its own jumps and hands on the rest.
theorem turns_jump {l : Loop} {outer : Option Loop} {turn : Act Ending σ}
    (hturn : l.resumes = true → Avoids Ending.isContinue turn) :
    turns (Jump.resumes (if l.resumes then l.label else ""))
      (Jump.leaves (if l.resumes then l.label else "")) .outOfFuel
      (mapExit (Ending.jump (some l)) turn) fuel = mapExit (Ending.jump outer) (loop turn fuel) := by
  refine @turns_mapExit _ _ _ (Ending.jump outer) (Ending.jump (some l)) _ _ _ _ .outOfFuel turn
    (fun x e y hx => ?_) (fun x e y hx => ?_) (fun e hc hb => ?_) fuel
  · cases e with
    | continued =>
        cases hr : l.resumes with
        | true => exact absurd (hturn hr x _ y hx) (by decide)
        | false => simp [Ending.jump, hr, Jump.resumes, Ending.isContinue]
    | _ => rfl
  · cases e with
    | broke => simp [Ending.jump, Jump.leaves, Ending.isBreak]
    | continued =>
        cases hr : l.resumes with
        | true => exact absurd (hturn hr x _ y hx) (by decide)
        | false => simp [Ending.jump, hr, Jump.leaves, Ending.isBreak]
    | _ => rfl
  · exact Ending.jump_eq hb hc _ _

-- A body in a block of its own: `continue` leaves the block, all else goes past it.
theorem flow_labeled {l : Loop} (hl : l.resumes = true) {body : Rust.Block} {a : Act Ending σ}
    (hbody : flowAll W fuel body.stmts = mapExit (Ending.jump (some l)) a) :
    (Rust.Stmt.labeled l.resumeLabel body).flow W fuel =
      mapExit (Ending.jump (some l)) (catching Ending.isContinue a) := by
  cases body
  rw [Rust.Stmt.flow, hbody]
  refine catching_mapExit (fun e => ?_) a
  cases e with
  | broke => simpa [Ending.jump, hl, Jump.names, Ending.isContinue] using label_ne_resumeLabel l
  | continued => simp [Ending.jump, hl, Jump.names, Ending.isContinue]
  | _ => rfl

theorem flow_ifNot (cond : Rust.Expr) (st : Rust.Stmt) :
    (ifNot cond st).flow W fuel = branch .stopped (W.tests cond) skip (st.flow W fuel) := by
  rw [ifNot, Rust.Stmt.flow, Rust.Expr.flow, if_pos rfl, Rust.flowAll_singleton, World.branch_not]

-- Both branches of an `if`; another `if` behind `else` stands for the block that holds it.

theorem flow_elseBranch (source : Block) {written : Rust.Block} (htail : written.tail = none) :
    (elseBranch source written).flow W fuel = flowAll W fuel written.stmts := by
  obtain ⟨stmts, tail⟩ := written
  obtain rfl : tail = none := htail
  unfold elseBranch
  split
  · rename_i heq
    cases heq
    rw [Rust.flowAll_singleton, Rust.Stmt.flow]
  · rw [Rust.Expr.flow]

theorem flow_ifThen (c : Rust.Expr) {t : Rust.Block} (htail : t.tail = none) :
    flowAll W fuel [.expr (.ifElse "" c t none)] =
      branch .stopped (W.tests c) (flowAll W fuel t.stmts) skip := by
  obtain ⟨stmts, tail⟩ := t
  obtain rfl : tail = none := htail
  rw [Rust.flowAll_singleton, Rust.Stmt.flow, Rust.Expr.flow, if_pos rfl]

theorem flow_ifElse (c e : Rust.Expr) {t : Rust.Block} (htail : t.tail = none) :
    flowAll W fuel [.expr (.ifElse "" c t (some e))] =
      branch .stopped (W.tests c) (flowAll W fuel t.stmts) (e.flow W fuel) := by
  obtain ⟨stmts, tail⟩ := t
  obtain rfl : tail = none := htail
  rw [Rust.flowAll_singleton, Rust.Stmt.flow, Rust.Expr.flow, if_pos rfl]

-- What a loop starts with stands before it in a block, if there is something.
theorem flow_behind (init : List Rust.Stmt) (st : Rust.Stmt) :
    flowAll W fuel (if init.isEmpty then [st] else [.expr (.block ⟨init ++ [st], none⟩)]) =
      seq (flowAll W fuel init) (st.flow W fuel) := by
  cases init with
  | nil => exact Rust.flowAll_singleton W fuel st
  | cons first rest =>
      rw [List.isEmpty_cons, if_neg (by decide), Rust.flowAll_singleton, Rust.Stmt.flow, Rust.Expr.flow,
        Rust.flowAll_append, Rust.flowAll_singleton]

theorem flow_while {l : Loop} (hl : l.resumes = false) (outer : Option Loop) (cond : Rust.Expr)
    {body : Rust.Block} {a : Act Ending σ}
    (hbody : flowAll W fuel body.stmts = mapExit (Ending.jump (some l)) a) :
    (Rust.Stmt.whileLoop "" cond body).flow W fuel = mapExit (Ending.jump outer)
      (loop (branch .stopped (W.tests cond) a (leave .broke)) fuel) := by
  have hturn : l.resumes = true →
      Avoids Ending.isContinue (branch .stopped (W.tests cond) a (leave .broke)) := by
    simp [hl]
  cases body
  rw [← turns_jump fuel hturn, Rust.Stmt.flow, hbody, mapExit_branch]
  simp [hl, Ending.jump]

-- A loop that tests behind its body.
theorem flow_doWhile {l : Loop} (outer : Option Loop) (cond : Rust.Expr) {body : Rust.Block}
    {a : Act Ending σ} (hbody : flowAll W fuel body.stmts = mapExit (Ending.jump (some l)) a)
    (ha : l.resumes = false → Avoids Ending.isContinue a) :
    (doWhile l cond body).flow W fuel = mapExit (Ending.jump outer)
      (loop (seq (catching Ending.isContinue a) (branch .stopped (W.tests cond) skip (leave .broke))) fuel) := by
  have hcaught : Avoids Ending.isContinue
      (seq (catching Ending.isContinue a) (branch .stopped (W.tests cond) skip (leave .broke))) :=
    avoids_seq (avoids_catching fun _ _ _ _ h => h) (avoids_branch rfl avoids_skip (avoids_leave rfl))
  rw [← turns_jump fuel fun _ => hcaught]
  unfold doWhile
  cases hl : l.resumes with
  | true =>
      rw [if_pos rfl, Rust.Stmt.flow, flowAll, Rust.flowAll_singleton, flow_labeled W fuel hl hbody,
        flow_ifNot]
      simp [Ending.jump, hl, Rust.Stmt.flow]
  | false =>
      rw [if_neg (by decide), Rust.Stmt.flow, Rust.flowAll_append, Rust.flowAll_singleton, hbody, flow_ifNot,
        catching_of_avoids (ha hl)]
      simp [Ending.jump, hl, Rust.Stmt.flow]

-- A body stands by itself or in a block, which makes no difference to the control flow.
theorem flow_ownBlock (ownBlock : Bool) {body : Rust.Block} (htail : body.tail = none) :
    flowAll W fuel (if ownBlock then [.expr (.block body)] else body.stmts) = flowAll W fuel body.stmts := by
  obtain ⟨stmts, tail⟩ := body
  obtain rfl : tail = none := htail
  cases ownBlock with
  | true => rw [if_pos rfl, Rust.flowAll_singleton, Rust.Stmt.flow, Rust.Expr.flow]
  | false => rfl

-- One turn of a loop with a step `b` after its body `a`. Without a block for the body either there is no
-- step or the body has no `continue`.
theorem flow_turn {l : Loop} (ownBlock : Bool) {body : Rust.Block} {post : List Rust.Stmt}
    {a b : Act Ending σ} (htail : body.tail = none)
    (hbody : flowAll W fuel body.stmts = mapExit (Ending.jump (some l)) a)
    (hpost : flowAll W fuel post = mapExit (Ending.jump (some l)) b)
    (ha : l.resumes = false → b = skip ∨ Avoids Ending.isContinue a) :
    ∃ c, (c = seq (catching Ending.isContinue a) b ∨ l.resumes = false ∧ b = skip ∧ c = a) ∧
      flowAll W fuel ((if l.resumes then [.labeled l.resumeLabel body]
        else if ownBlock && !post.isEmpty then [.expr (.block body)]
        else body.stmts) ++ post) = mapExit (Ending.jump (some l)) c := by
  rw [Rust.flowAll_append, hpost]
  cases hl : l.resumes with
  | true =>
      refine ⟨_, .inl rfl, ?_⟩
      rw [if_pos rfl, Rust.flowAll_singleton, flow_labeled W fuel hl hbody, mapExit_seq]
  | false =>
      rw [if_neg (by decide), flow_ownBlock W fuel _ htail, hbody, ← mapExit_seq]
      rcases ha hl with rfl | ha
      · exact ⟨a, .inr ⟨rfl, rfl, rfl⟩, by rw [seq_skip]⟩
      · exact ⟨_, .inl rfl, by rw [catching_of_avoids ha]⟩

-- A loop with a step after its body.
theorem flow_stepLoop {l : Loop} (outer : Option Loop) (cond : Option Rust.Expr) (ownBlock : Bool)
    {body : Rust.Block} {post : List Rust.Stmt} {a b : Act Ending σ} (htail : body.tail = none)
    (hbody : flowAll W fuel body.stmts = mapExit (Ending.jump (some l)) a)
    (hpost : flowAll W fuel post = mapExit (Ending.jump (some l)) b)
    (hb : Avoids Ending.isContinue b)
    (ha : l.resumes = false → b = skip ∨ Avoids Ending.isContinue a) :
    (stepLoop l cond ownBlock body post).flow W fuel = mapExit (Ending.jump outer)
      (loop (branchOn .stopped W cond (seq (catching Ending.isContinue a) b) (leave .broke)) fuel) := by
  obtain ⟨c, hc, hflow⟩ := flow_turn W fuel ownBlock htail hbody hpost ha
  have hloop : loop (branchOn .stopped W cond (seq (catching Ending.isContinue a) b) (leave .broke)) fuel =
      loop (branchOn .stopped W cond c (leave .broke)) fuel := by
    rcases hc with rfl | ⟨-, rfl, rfl⟩
    · rfl
    · rw [seq_skip, ← catching_branchOn W _ rfl cond rfl]
      exact turns_catching _ fuel
  have hturn : l.resumes = true → Avoids Ending.isContinue (branchOn .stopped W cond c (leave .broke)) := by
    intro hl
    rcases hc with rfl | ⟨hl', -, -⟩
    · have hseq : Avoids Ending.isContinue (seq (catching Ending.isContinue a) b) :=
        avoids_seq (avoids_catching fun _ _ _ _ h => h) hb
      cases cond with
      | none => exact hseq
      | some c => exact avoids_branch rfl hseq (avoids_leave rfl)
    · rw [hl] at hl'
      cases hl'
  rw [hloop, ← turns_jump fuel hturn, mapExit_branchOn, ← hflow]
  unfold stepLoop
  cases cond with
  | none => rfl
  | some c => rfl

end Shapes

-- What is written.

theorem runEach_append {σ : Type} (W : World σ) (fuel : Nat) (a b : List Skeleton) :
    runEach W fuel (a ++ b) = seq (runEach W fuel a) (runEach W fuel b) := by
  induction a with
  | nil => rfl
  | cons s a ih => simp only [List.cons_append, runEach, ih, seq_assoc]

-- Code for statements in a loop, with their control flow.
def Follows (E : Env) (l : Option Loop) (sts : List Stmt) (code : List Rust.Stmt) : Prop :=
  ∃ sks, List.Forall₂ (Spelled E) sts sks ∧ ∀ {σ : Type} (W : World σ) (fuel : Nat),
    flowAll W fuel code = mapExit (Ending.jump l) (runEach W fuel sks)

theorem Follows.nil (l : Option Loop) : Follows E l [] [] := ⟨[], .nil, fun _ _ => rfl⟩

theorem Follows.one {l : Option Loop} {st : Stmt} {sk : Skeleton} {code : List Rust.Stmt}
    (hsk : Spelled E st sk)
    (hflow : ∀ {σ : Type} (W : World σ) (fuel : Nat),
      flowAll W fuel code = mapExit (Ending.jump l) (sk.run W fuel)) : Follows E l [st] code := by
  refine ⟨[sk], .cons hsk .nil, fun W fuel => ?_⟩
  rw [hflow, runEach, runEach, seq_skip]

theorem Follows.append {l : Option Loop} {a b : List Stmt} {c d : List Rust.Stmt}
    (ha : Follows E l a c) (hb : Follows E l b d) : Follows E l (a ++ b) (c ++ d) := by
  obtain ⟨sks, hsks, hflow⟩ := ha
  obtain ⟨sks', hsks', hflow'⟩ := hb
  refine ⟨sks ++ sks', List.rel_append hsks hsks', fun W fuel => ?_⟩
  rw [Rust.flowAll_append, runEach_append, mapExit_seq, hflow, hflow']

-- What no jump is written for is the same for every loop.
theorem Follows.inside {o : Option Stmt} {code : List Rust.Stmt} {l : Option Loop}
    (h : Follows E l o.toList code) (ho : o.all isSimple = true) (l' : Option Loop) :
    Follows E l' o.toList code := by
  obtain ⟨sks, hsks, hflow⟩ := h
  refine ⟨sks, hsks, fun W fuel => ?_⟩
  have hbreak := avoids_simples (P := Ending.isBreak) rfl (fun _ => rfl) hsks ho W fuel
  have hcontinue := avoids_simples (P := Ending.isContinue) rfl (fun _ => rfl) hsks ho W fuel
  rw [hflow]
  exact mapExit_congr fun x e y hx => Ending.jump_eq (hbreak x e y hx) (hcontinue x e y hx) _ _

-- Steps that leave the loops as they are.
def KeepsLoops {α : Type} (act : Emit α) : Prop :=
  ∀ E s a s', Writes act E s a s' → s'.frame.loops = s.frame.loops

section Loops

variable {α β : Type}

theorem Steady.keepsLoops {act : Emit α} (h : Steady act) : KeepsLoops act := by
  intro E s a s' hw
  rw [(h.sameNames hw).1]

theorem KeepsLoops.bind {x : Emit α} {f : α → Emit β} (hx : KeepsLoops x) (hf : ∀ a, KeepsLoops (f a)) :
    KeepsLoops (x >>= f) := by
  intro E s b s' hw
  obtain ⟨a, s₁, hx', hw⟩ := writes_bind.mp hw
  rw [hf a E s₁ b s' hw, hx E s a s₁ hx']

theorem KeepsLoops.mapM {f : α → Emit β} (hf : ∀ a, KeepsLoops (f a)) (xs : List α) :
    KeepsLoops (xs.mapM f) := by
  induction xs with
  | nil => exact (steady_pure _).keepsLoops
  | cons x xs ih =>
      rw [List.mapM_cons]
      exact (hf x).bind fun _ => ih.bind fun _ => (steady_pure _).keepsLoops

theorem keepsLoops_declare (name ident : String) : KeepsLoops (declare name ident) := by
  intro E s u s' hw
  obtain rfl := writes_modify.mp hw
  rfl

theorem keepsLoops_declareVars (vars : List Param) (value : Expr) :
    KeepsLoops (declareVars vars value) := by
  have hmutated (name : String) : KeepsLoops (isMutated name) :=
    (steady_bind steady_frame fun _ => steady_pure _).keepsLoops
  unfold declareVars
  split
  · refine (steady_typeText _).keepsLoops.bind fun _ => (steady_exprAs _ _).keepsLoops.bind fun _ => ?_
    exact (keepsLoops_declare _ _).bind fun _ => (hmutated _).bind fun _ => (steady_pure _).keepsLoops
  · refine (steady_exprAs _ _).keepsLoops.bind fun _ => KeepsLoops.bind (.mapM (fun v => ?_) _) fun _ => ?_
    · exact (keepsLoops_declare _ _).bind fun _ => (hmutated _).bind fun _ => (steady_pure _).keepsLoops
    · exact (steady_pure _).keepsLoops

theorem writes_inScope {act : Emit α} {a : α} (hw : Writes (inScope act) E s a s') :
    ∃ t t', Writes act E t a t' ∧ t.frame.loops = s.frame.loops ∧ s'.frame.loops = t'.frame.loops := by
  obtain ⟨u, t, hopen, hw⟩ := writes_bind.mp hw
  obtain ⟨b, t', hact, hw⟩ := writes_bind.mp hw
  obtain ⟨u', t'', hclose, hw⟩ := writes_bind.mp hw
  obtain ⟨rfl, rfl⟩ := writes_pure.mp hw
  obtain rfl := writes_modify.mp hopen
  obtain rfl := writes_modify.mp hclose
  exact ⟨_, t', hact, rfl, rfl⟩

theorem writes_inLoop {resumes : Bool} {act : Emit α} {la : Loop × α}
    (hw : Writes (inLoop resumes act) E s la s') :
    la.1.resumes = resumes ∧ ∃ t t', Writes act E t la.2 t' ∧ t.frame.loops = la.1 :: s.frame.loops ∧
      s'.frame.loops = t'.frame.loops.tail := by
  obtain ⟨fr, t, hframe, hw⟩ := writes_bind.mp hw
  obtain ⟨u, t₁, hopen, hw⟩ := writes_bind.mp hw
  obtain ⟨b, t', hact, hw⟩ := writes_bind.mp hw
  obtain ⟨u', t'', hclose, hw⟩ := writes_bind.mp hw
  obtain ⟨rfl, rfl⟩ := writes_pure.mp hw
  obtain rfl := writes_modify.mp hopen
  obtain rfl := writes_modify.mp hclose
  have hloops := steady_frame.keepsLoops _ _ _ _ hframe
  exact ⟨rfl, _, t', hact, by simp [hloops], rfl⟩

end Loops

-- A statement without calls of other contracts needs no references.
theorem writes_withRefs {st : Stmt} (hst : externalCalls st = []) {written : Emit (List Rust.Stmt)}
    {code : List Rust.Stmt} (hw : Writes (withRefs st written) E s code s') :
    Writes written E s code s' := by
  obtain ⟨refs, s₁, hrefs, hw⟩ := writes_bind.mp hw
  obtain ⟨stmts, s₂, hstmts, hw⟩ := writes_bind.mp hw
  obtain ⟨rfl, rfl⟩ := writes_pure.mp hw
  rw [hst] at hrefs
  obtain ⟨rfl, rfl⟩ := writes_pure.mp hrefs
  exact hstmts

theorem exists_errorReturn {entry : ErrorEntry} {args : List Expr} {out : Rust.Stmt}
    (hw : Writes (abort entry args) E s out s') : ∃ error, out = errorReturn error := by
  obtain ⟨xs, s₁, -, hw⟩ := writes_bind.mp hw
  obtain ⟨error, s₂, -, hw⟩ := writes_bind.mp hw
  exact ⟨error, (writes_pure.mp hw).1.symm⟩

-- `break` and `continue` are written for the innermost loop.

theorem writes_currentLoop {l : Option Loop} (hw : Writes currentLoop? E s l s') :
    s.frame.loops.head? = l := by
  have ho : outcome currentLoop? E s = (.ok s.frame.loops.head?, s) := rfl
  rw [Writes, ho] at hw
  cases hw
  rfl

theorem writes_breakStmt {p : Text.Position} {out : Rust.Stmt} (hw : Writes (breakStmt p) E s out s') :
    ∃ l, s.frame.loops.head? = some l ∧ out = .breakLoop (if l.resumes then l.label else "") := by
  obtain ⟨l, s₁, hl, hw⟩ := writes_bind.mp hw
  cases l with
  | none => exact absurd hw not_writes_throw
  | some l => exact ⟨l, writes_currentLoop hl, (writes_pure.mp hw).1.symm⟩

theorem writes_continueStmt {p : Text.Position} {out : Rust.Stmt}
    (hw : Writes (continueStmt p) E s out s') : ∃ l, s.frame.loops.head? = some l ∧
      out = if l.resumes then .breakLoop l.resumeLabel else .continueLoop "" := by
  obtain ⟨l, s₁, hl, hw⟩ := writes_bind.mp hw
  cases l with
  | none => exact absurd hw not_writes_throw
  | some l => exact ⟨l, writes_currentLoop hl, (writes_pure.mp hw).1.symm⟩

theorem keepsLoops_cond (cond : Option Expr) : KeepsLoops (cond.mapM (exprAs .bool)) := by
  cases cond with
  | none => exact (steady_pure _).keepsLoops
  | some e => exact (steady_exprAs _ e).keepsLoops.bind fun _ => (steady_pure _).keepsLoops

-- What is asked of a statement: no calls of other contracts, and nothing but simple statements at the head
-- of a loop.
def isSeparate (st : Stmt) : Bool := (externalCalls st).isEmpty && hasSimpleHead st

theorem externalCalls_of_isSeparate {st : Stmt} (hst : isSeparate st = true) : externalCalls st = [] :=
  List.isEmpty_iff.mp (Bool.and_eq_true_iff.mp hst).1

theorem hasSimpleHead_of_isSeparate {st : Stmt} (hst : isSeparate st = true) : hasSimpleHead st = true :=
  (Bool.and_eq_true_iff.mp hst).2

theorem follows_atom {st : Stmt} {code : List Rust.Stmt} (l : Option Loop) (hst : isAtom st = true)
    (hw : Writes (stmt st) E s code s') (hcode : Shaped.plain code) : Follows E l [st] code :=
  .one (.steps hst hw) fun W fuel => by
    rw [Rust.flowAll_steps W fuel hcode, Skeleton.run, World.mapExit_acts]
    rfl

mutual

theorem follows_block : ∀ (b : Block), (∀ st ∈ b.substmts, isSeparate st = true) → ∀ {s s' : State}
    {written : Rust.Block}, Writes (block b) E s written s' → s'.frame.loops = s.frame.loops ∧
      written.tail = none ∧ Follows E s.frame.loops.head? b.stmts written.stmts
  | ⟨start, body, unchecked⟩, hb, s, s', written, hw => by
      rw [block] at hw
      obtain ⟨code, s₁, hcode, hw⟩ := writes_bind.mp hw
      obtain ⟨rfl, rfl⟩ := writes_pure.mp hw
      obtain ⟨t, t', hcode, ht, hs'⟩ := writes_inScope hcode
      obtain ⟨hloops, hfollows⟩ := follows_stmts body (fun st hst => hb st (.tail _ hst)) hcode
      rw [hs', hloops, ht]
      exact ⟨rfl, rfl, ht ▸ hfollows⟩

theorem follows_stmts : ∀ (sts : List Stmt), (∀ st ∈ substmtsList sts, isSeparate st = true) →
    ∀ {s s' : State} {code : List Rust.Stmt}, Writes (stmts sts) E s code s' →
      s'.frame.loops = s.frame.loops ∧ Follows E s.frame.loops.head? sts code
  | [], _, s, s', code, hw => by
      rw [stmts] at hw
      obtain ⟨rfl, rfl⟩ := writes_pure.mp hw
      exact ⟨rfl, .nil _⟩
  | st :: rest, hsts, s, s', code, hw => by
      have hst : ∀ x ∈ st.substmts, isSeparate x = true := fun x hx => hsts x (List.mem_append_left _ hx)
      have hrest : ∀ x ∈ substmtsList rest, isSeparate x = true := fun x hx =>
        hsts x (List.mem_append_right _ hx)
      rw [stmts] at hw
      obtain ⟨first, s₁, hfirst, hw⟩ := writes_bind.mp hw
      obtain ⟨more, s₂, hmore, hw⟩ := writes_bind.mp hw
      obtain ⟨rfl, rfl⟩ := writes_pure.mp hw
      have hcalls := externalCalls_of_isSeparate (hst st (self_mem_substmts st))
      obtain ⟨hloops, hfollows⟩ := follows_stmt st hst (writes_withRefs hcalls hfirst)
      obtain ⟨hloops', hfollows'⟩ := follows_stmts rest hrest hmore
      rw [hloops] at hloops' hfollows'
      exact ⟨hloops', hfollows.append hfollows'⟩

theorem follows_optionalStmt : ∀ (o : Option Stmt), (∀ st ∈ o, ∀ x ∈ st.substmts, isSeparate x = true) →
    ∀ {s s' : State} {code : List Rust.Stmt}, Writes (optionalStmt o) E s code s' →
      s'.frame.loops = s.frame.loops ∧ Follows E s.frame.loops.head? o.toList code
  | none, _, s, s', code, hw => by
      rw [optionalStmt] at hw
      obtain ⟨rfl, rfl⟩ := writes_pure.mp hw
      exact ⟨rfl, .nil _⟩
  | some st, ho, s, s', code, hw => by
      have hst := ho st rfl
      rw [optionalStmt] at hw
      have hcalls := externalCalls_of_isSeparate (hst st (self_mem_substmts st))
      exact follows_stmt st hst (writes_withRefs hcalls hw)

theorem follows_stmt : ∀ (st : Stmt), (∀ x ∈ st.substmts, isSeparate x = true) → ∀ {s s' : State}
    {code : List Rust.Stmt}, Writes (stmt st) E s code s' → s'.frame.loops = s.frame.loops ∧
      Follows E s.frame.loops.head? [st] code
  | .block b, hst, s, s', code, hw => by
      rw [stmt] at hw
      obtain ⟨written, s₁, hb, hw⟩ := writes_bind.mp hw
      obtain ⟨rfl, rfl⟩ := writes_pure.mp hw
      obtain ⟨hloops, htail, sks, hsks, hflow⟩ := follows_block b hst hb
      refine ⟨hloops, .one (.block hsks) fun W fuel => ?_⟩
      rw [Skeleton.run, ← hflow, ← flow_ownBlock W fuel true htail, if_pos rfl]
  | .decl p vars value, hst, s, s', code, hw => by
      have hw' := hw
      rw [stmt] at hw'
      exact ⟨keepsLoops_declareVars _ _ _ _ _ _ hw',
        follows_atom _ rfl hw (yields_declareVars vars value _ _ _ _ hw')⟩
  | .assign p target value, hst, s, s', code, hw => by
      have hw' := hw
      rw [stmt] at hw'
      have hsteady := steady_bind (steady_exprAs target.type value) fun x => steady_assign.1 x target
      exact ⟨hsteady.keepsLoops _ _ _ _ hw',
        follows_atom _ rfl hw (yields_last (fun x => yields_assign.1 x target) _ _ _ _ hw')⟩
  | .expr p e, hst, s, s', code, hw => by
      have hw' := hw
      rw [stmt] at hw'
      exact ⟨(steady_exprStmt e).keepsLoops _ _ _ _ hw',
        follows_atom _ rfl hw (yields_exprStmt e _ _ _ _ hw')⟩
  | .emit p ev args, hst, s, s', code, hw => by
      have hw' := hw
      rw [stmt] at hw'
      have hsteady := steady_bind (steady_exprsAs (ev.fields.map (·.type)) args) fun xs =>
        steady_bind (steady_emitEvent ev xs) fun st => steady_pure [st]
      exact ⟨hsteady.keepsLoops _ _ _ _ hw',
        follows_atom _ rfl hw (yields_last (fun xs => yields_one (yields_emitEvent ev xs)) _ _ _ _ hw')⟩
  | .ifElse p cond whenTrue none, hst, s, s', code, hw => by
      rw [stmt] at hw
      obtain ⟨c, s₁, hc, hw⟩ := writes_bind.mp hw
      obtain ⟨t, s₂, ht, hw⟩ := writes_bind.mp hw
      obtain ⟨rfl, rfl⟩ := writes_pure.mp hw
      have hs₁ := (steady_exprAs _ _).keepsLoops _ _ _ _ hc
      obtain ⟨hloops, htail, sks, hsks, hflow⟩ := follows_block whenTrue (fun x hx => hst x (.tail _ hx)) ht
      rw [hs₁] at hloops hflow
      refine ⟨hloops, .one (.ifThen hc hsks) fun W fuel => ?_⟩
      rw [flow_ifThen W fuel c htail, Skeleton.run, mapExit_branch, ← hflow]
      rfl
  | .ifElse p cond whenTrue (some whenFalse), hst, s, s', code, hw => by
      rw [stmt] at hw
      obtain ⟨c, s₁, hc, hw⟩ := writes_bind.mp hw
      obtain ⟨t, s₂, ht, hw⟩ := writes_bind.mp hw
      obtain ⟨e, s₃, he, hw⟩ := writes_bind.mp hw
      obtain ⟨rfl, rfl⟩ := writes_pure.mp hw
      have hs₁ := (steady_exprAs _ _).keepsLoops _ _ _ _ hc
      obtain ⟨hs₂, htail, sks, hsks, hflow⟩ :=
        follows_block whenTrue (fun x hx => hst x (.tail _ (List.mem_append_left _ hx))) ht
      obtain ⟨hloops, htail', sks', hsks', hflow'⟩ :=
        follows_block whenFalse (fun x hx => hst x (.tail _ (List.mem_append_right _ hx))) he
      rw [hs₂, hs₁] at hloops hflow'
      rw [hs₁] at hflow
      refine ⟨hloops, .one (.ifElse hc hsks hsks') fun W fuel => ?_⟩
      rw [flow_ifElse W fuel c _ htail, flow_elseBranch W fuel whenFalse htail', Skeleton.run,
        mapExit_branch, ← hflow, ← hflow']
      rfl
  | .whileLoop p cond body false, hst, s, s', code, hw => by
      rw [stmt] at hw
      obtain ⟨c, s₁, hc, hw⟩ := writes_bind.mp hw
      obtain ⟨lb, s₂, hlb, hw⟩ := writes_bind.mp hw
      obtain ⟨rfl, rfl⟩ := writes_pure.mp hw
      have hs₁ := (steady_exprAs _ _).keepsLoops _ _ _ _ hc
      obtain ⟨hresumes, t, t', hb, ht, hs₂⟩ := writes_inLoop hlb
      obtain ⟨hloops, htail, sks, hsks, hflow⟩ := follows_block body (fun x hx => hst x (.tail _ hx)) hb
      rw [hloops, ht] at hs₂
      rw [ht] at hflow
      refine ⟨hs₂.trans hs₁, .one (.whileLoop hc hsks) fun W fuel => ?_⟩
      rw [Rust.flowAll_singleton, Skeleton.run]
      exact flow_while W fuel hresumes _ c (hflow W fuel)
  | .whileLoop p cond body true, hst, s, s', code, hw => by
      rw [stmt] at hw
      obtain ⟨lb, s₁, hlb, hw⟩ := writes_bind.mp hw
      obtain ⟨c, s₂, hc, hw⟩ := writes_bind.mp hw
      obtain ⟨rfl, rfl⟩ := writes_pure.mp hw
      have hs₂ := (steady_exprAs _ _).keepsLoops _ _ _ _ hc
      obtain ⟨hresumes, t, t', hb, ht, hs₁⟩ := writes_inLoop hlb
      have hbody : ∀ x ∈ body.substmts, isSeparate x = true := fun x hx => hst x (.tail _ hx)
      obtain ⟨hloops, htail, sks, hsks, hflow⟩ := follows_block body hbody hb
      rw [hloops, ht] at hs₁
      rw [ht] at hflow
      refine ⟨hs₂.trans hs₁, .one (.doWhile hsks hc) fun W fuel => ?_⟩
      rw [Rust.flowAll_singleton, Skeleton.run]
      refine flow_doWhile W fuel _ c (hflow W fuel) fun hl => ?_
      exact avoids_continue_block W fuel hsks (fun x hx => hasSimpleHead_of_isSeparate (hbody x hx))
        (hresumes.symm.trans hl)
  | .forLoop p init cond post body, hst, s, s', code, hw => by
      obtain ⟨hinit, hpost, hbody⟩ := forall_substmts_forLoop hst
      have hheads := Bool.and_eq_true_iff.mp (hasSimpleHead_of_isSeparate (hst _ (self_mem_substmts _)))
      rw [stmt] at hw
      obtain ⟨t, t', hw, ht, ht'⟩ := writes_inScope hw
      obtain ⟨i, s₁, hi, hw⟩ := writes_bind.mp hw
      obtain ⟨c, s₂, hc, hw⟩ := writes_bind.mp hw
      obtain ⟨lb, s₃, hlb, hw⟩ := writes_bind.mp hw
      obtain ⟨q, s₄, hq, hw⟩ := writes_bind.mp hw
      obtain ⟨rfl, rfl⟩ := writes_pure.mp hw
      obtain ⟨hs₁, inits, hinits, hiflow⟩ := follows_optionalStmt init hinit hi
      have hs₂ := keepsLoops_cond cond _ _ _ _ hc
      obtain ⟨hresumes, u, u', hb, hu, hs₃⟩ := writes_inLoop hlb
      obtain ⟨hu', htail, sks, hsks, hflow⟩ := follows_block body hbody hb
      obtain ⟨hs₄, hqfollows⟩ := follows_optionalStmt post hpost hq
      obtain ⟨posts, hposts, hqflow⟩ := hqfollows.inside hheads.2 (some lb.1)
      rw [hu', hu] at hs₃
      rw [hu] at hflow
      have hloops : s₄.frame.loops = t.frame.loops := hs₄.trans (hs₃.trans (hs₂.trans hs₁))
      refine ⟨ht'.trans (hloops.trans ht), .one (.forLoop hinits hc hposts hsks) fun W fuel => ?_⟩
      have hstep := avoids_simples (P := Ending.isContinue) rfl (fun _ => rfl) hposts hheads.2 W fuel
      -- the body stands in a block of its own if there is a step to be reached by `continue`
      have hplain : lb.1.resumes = false →
          runEach W fuel posts = skip ∨ Avoids Ending.isContinue (runEach W fuel sks) := by
        intro hl
        rw [hresumes] at hl
        cases post with
        | none =>
            cases hposts
            exact .inl rfl
        | some q =>
            exact .inr (avoids_continue_block W fuel hsks
              (fun x hx => hasSimpleHead_of_isSeparate (hbody x hx)) hl)
      rw [← ht, flow_behind, Skeleton.run, mapExit_seq, ← hiflow,
        flow_stepLoop W fuel _ c (declaresVars body) htail (hflow W fuel) (hqflow W fuel) hstep hplain]
  | .returnValue p value, hst, s, s', code, hw => by
      rw [stmt] at hw
      obtain ⟨x, s₁, hx, hw⟩ := writes_bind.mp hw
      obtain ⟨rfl, rfl⟩ := writes_pure.mp hw
      refine ⟨(steady_resultValue value).keepsLoops _ _ _ _ hx, .one (.give hx) fun W fuel => ?_⟩
      rw [Rust.flowAll_singleton, Rust.Stmt.flow]
      rfl
  | .require p cond entry, hst, s, s', code, hw => by
      rw [stmt] at hw
      obtain ⟨c, s₁, hc, hw⟩ := writes_bind.mp hw
      obtain ⟨out, s₂, hout, hw⟩ := writes_bind.mp hw
      obtain ⟨rfl, rfl⟩ := writes_pure.mp hw
      have hs₁ := (steady_exprAs _ _).keepsLoops _ _ _ _ hc
      have hs₂ := (steady_abort entry []).keepsLoops _ _ _ _ hout
      obtain ⟨error, rfl⟩ := exists_errorReturn hout
      refine ⟨hs₂.trans hs₁, .one (.require hc hout) fun W fuel => ?_⟩
      rw [Rust.flowAll_singleton, flow_ifNot, errorReturn, Rust.Stmt.flow, Skeleton.run, mapExit_branch]
      rfl
  | .revert p entry args, hst, s, s', code, hw => by
      rw [stmt] at hw
      obtain ⟨out, s₁, hout, hw⟩ := writes_bind.mp hw
      obtain ⟨rfl, rfl⟩ := writes_pure.mp hw
      obtain ⟨error, rfl⟩ := exists_errorReturn hout
      refine ⟨(steady_abort entry args).keepsLoops _ _ _ _ hout, .one (.revert hout) fun W fuel => ?_⟩
      rw [Rust.flowAll_singleton, errorReturn, Rust.Stmt.flow]
      rfl
  | .breakLoop p, hst, s, s', code, hw => by
      rw [stmt] at hw
      obtain ⟨out, s₁, hout, hw⟩ := writes_bind.mp hw
      obtain ⟨rfl, rfl⟩ := writes_pure.mp hw
      refine ⟨(steady_breakStmt p).keepsLoops _ _ _ _ hout, .one .breakLoop fun W fuel => ?_⟩
      obtain ⟨l, hl, rfl⟩ := writes_breakStmt hout
      rw [Rust.flowAll_singleton, Rust.Stmt.flow, hl]
      rfl
  | .continueLoop p, hst, s, s', code, hw => by
      rw [stmt] at hw
      obtain ⟨out, s₁, hout, hw⟩ := writes_bind.mp hw
      obtain ⟨rfl, rfl⟩ := writes_pure.mp hw
      refine ⟨(steady_continueStmt p).keepsLoops _ _ _ _ hout, .one .continueLoop fun W fuel => ?_⟩
      obtain ⟨l, hl, rfl⟩ := writes_continueStmt hout
      rw [Rust.flowAll_singleton, hl]
      cases hr : l.resumes <;> simp [Skeleton.run, Ending.jump, hr, Rust.Stmt.flow]
  | .placeholder p, hst, s, s', code, hw => by
      rw [stmt] at hw
      exact absurd hw not_writes_throw

end

-- The code of a body makes the steps and tests of the body in their order, whatever they do, and is left as
-- the body is: by a jump that is written for the loop around it, with a result or with an error.
theorem control_flow_kept {sts : List Stmt} {code : List Rust.Stmt}
    (hsts : ∀ st ∈ substmtsList sts, isSeparate st = true) (hw : Writes (stmts sts) E s code s') :
    ∃ sks, List.Forall₂ (Spelled E) sts sks ∧
      ∀ {σ : Type} (W : World σ) (fuel : Nat) (x : σ),
        flowAll W fuel code x =
          ((runEach W fuel sks x).1.map (Ending.jump s.frame.loops.head?), (runEach W fuel sks x).2) := by
  obtain ⟨-, sks, hsks, hflow⟩ := follows_stmts sts hsts hw
  exact ⟨sks, hsks, fun W fuel x => congrFun (hflow W fuel) x⟩

-- Loops in loops, left and continued in all ways.
def nestedLoops : List Stmt :=
  let test : Expr := .bool {} true
  let continueIf : Stmt := .ifElse {} test ⟨{}, [.continueLoop {}], false⟩ none
  let inner : Stmt := .whileLoop {} test ⟨{}, [continueIf, .breakLoop {}], false⟩ true
  [.forLoop {} (some (.decl {} [⟨"more", .bool⟩] test)) (some (.var {} "more" .bool))
    (some (.assign {} (.var {} "more" .bool) (.bool {} false)))
    ⟨{}, [continueIf, inner, .ifElse {} test ⟨{}, [.breakLoop {}], false⟩
      (some ⟨{}, [.returnValue {} none], false⟩)], false⟩]

theorem control_flow_kept_nested : ∃ code s',
    (∀ st ∈ substmtsList nestedLoops, isSeparate st = true) ∧
    Writes (stmts nestedLoops) { package := default, contract := default, target := .soroban } {} code s' ∧
    ∃ sks, List.Forall₂ (Spelled { package := default, contract := default, target := .soroban })
        nestedLoops sks ∧
      ∀ {σ : Type} (W : World σ) (fuel : Nat) (x : σ),
        flowAll W fuel code x =
          ((runEach W fuel sks x).1.map (Ending.jump none), (runEach W fuel sks x).2) := by
  have hseparate : ∀ st ∈ substmtsList nestedLoops, isSeparate st = true := by decide
  obtain ⟨code, s', hw⟩ : ∃ code s', Writes (stmts nestedLoops)
      { package := default, contract := default, target := .soroban } {} code s' := ⟨_, _, rfl⟩
  exact ⟨code, s', hseparate, hw, control_flow_kept hseparate hw⟩

end RustContracts.Emit
