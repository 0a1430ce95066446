import Mathlib.Data.List.Forall2
import RustContracts.Proofs.Emit.Steady
import RustContracts.Proofs.Program.Subterms
import RustContracts.Proofs.Rust.Flow

-- The control flow of statements: what is run after what, with the code that is written for their parts as
-- steps and tests.
namespace RustContracts.Emit

open Program RustContracts.Flow
open Rust (World)

-- Why a statement is left.
inductive Ending where
  | broke
  | continued
  | returned (value : Rust.Expr)
  | reverted (error : Rust.Expr)
  | stopped
  | outOfFuel

namespace Ending

def isBreak : Ending → Bool
  | broke => true
  | _ => false

def isContinue : Ending → Bool
  | continued => true
  | _ => false

end Ending

-- Statements with their steps, tests and results written out.
inductive Skeleton where
  | steps (code : List Rust.Stmt)
  | block (body : List Skeleton)
  | branch (cond : Rust.Expr) (whenTrue whenFalse : List Skeleton)
  | whileLoop (cond : Rust.Expr) (body : List Skeleton)
  | doWhile (body : List Skeleton) (cond : Rust.Expr)
  | forLoop (init : List Skeleton) (cond : Option Rust.Expr) (post body : List Skeleton)
  | give (value : Rust.Expr)
  | require (cond error : Rust.Expr)
  | revert (error : Rust.Expr)
  | breakLoop
  | continueLoop

section Runs

variable {σ : Type}

-- A loop without a condition goes on.
def branchOn {ε : Type} (stopped : ε) (W : World σ) (cond : Option Rust.Expr) (a b : Act ε σ) : Act ε σ :=
  match cond with
  | some c => branch stopped (W.tests c) a b
  | none => a

-- A loop that takes `break` and `continue` for itself.
def loop (turn : Act Ending σ) (fuel : Nat) : Act Ending σ :=
  turns Ending.isContinue Ending.isBreak .outOfFuel turn fuel

mutual

-- `continue` leaves the body of the innermost loop: the test of a `do` and the step of a `for` still follow.
def Skeleton.run (W : World σ) (fuel : Nat) : Skeleton → Act Ending σ
  | .steps code => W.acts .stopped code
  | .block body => runEach W fuel body
  | .branch c whenTrue whenFalse =>
    branch .stopped (W.tests c) (runEach W fuel whenTrue) (runEach W fuel whenFalse)
  | .whileLoop c body =>
    loop (branch .stopped (W.tests c) (runEach W fuel body) (leave .broke)) fuel
  | .doWhile body c =>
    loop (seq (catching Ending.isContinue (runEach W fuel body))
      (branch .stopped (W.tests c) skip (leave .broke))) fuel
  | .forLoop init c post body =>
    seq (runEach W fuel init)
      (loop (branchOn .stopped W c (seq (catching Ending.isContinue (runEach W fuel body)) (runEach W fuel post))
        (leave .broke)) fuel)
  | .give value => leave (.returned value)
  | .require c error => branch .stopped (W.tests c) skip (leave (.reverted error))
  | .revert error => leave (.reverted error)
  | .breakLoop => leave .broke
  | .continueLoop => leave .continued

def runEach (W : World σ) (fuel : Nat) : List Skeleton → Act Ending σ
  | [] => skip
  | s :: rest => seq (s.run W fuel) (runEach W fuel rest)

end

end Runs

-- Statements that are steps.
def isAtom : Stmt → Bool
  | .decl _ _ _ | .assign _ _ _ | .expr _ _ | .emit _ _ _ => true
  | _ => false

-- What may stand at the head of a loop.
def isSimple : Stmt → Bool
  | .require _ _ _ | .revert _ _ _ => true
  | s => isAtom s

def hasSimpleHead : Stmt → Bool
  | .forLoop _ init _ post _ => init.all isSimple && post.all isSimple
  | _ => true

-- An abort with an error.
def errorReturn (error : Rust.Expr) : Rust.Stmt := .returnValue (some (.callPath "Err" [error]))

-- The skeleton of a statement: it has the same control, and in place of every step, test and result what is
-- written for it.
inductive Spelled (E : Env) : Stmt → Skeleton → Prop
  | steps {st : Stmt} {code : List Rust.Stmt} {s s' : State} (hst : isAtom st = true)
      (hw : Writes (stmt st) E s code s') : Spelled E st (.steps code)
  | block {b : Block} {body : List Skeleton} (hb : List.Forall₂ (Spelled E) b.stmts body) :
      Spelled E (.block b) (.block body)
  | ifThen {p : Text.Position} {cond : Expr} {t : Block} {c : Rust.Expr} {ts : List Skeleton}
      {s s' : State} (hc : Writes (exprAs .bool cond) E s c s') (ht : List.Forall₂ (Spelled E) t.stmts ts) :
      Spelled E (.ifElse p cond t none) (.branch c ts [])
  | ifElse {p : Text.Position} {cond : Expr} {t e : Block} {c : Rust.Expr} {ts es : List Skeleton}
      {s s' : State} (hc : Writes (exprAs .bool cond) E s c s') (ht : List.Forall₂ (Spelled E) t.stmts ts)
      (he : List.Forall₂ (Spelled E) e.stmts es) :
      Spelled E (.ifElse p cond t (some e)) (.branch c ts es)
  | whileLoop {p : Text.Position} {cond : Expr} {b : Block} {c : Rust.Expr} {body : List Skeleton}
      {s s' : State} (hc : Writes (exprAs .bool cond) E s c s')
      (hb : List.Forall₂ (Spelled E) b.stmts body) :
      Spelled E (.whileLoop p cond b false) (.whileLoop c body)
  | doWhile {p : Text.Position} {cond : Expr} {b : Block} {c : Rust.Expr} {body : List Skeleton}
      {s s' : State} (hb : List.Forall₂ (Spelled E) b.stmts body)
      (hc : Writes (exprAs .bool cond) E s c s') :
      Spelled E (.whileLoop p cond b true) (.doWhile body c)
  | forLoop {p : Text.Position} {init post : Option Stmt} {cond : Option Expr} {b : Block}
      {c : Option Rust.Expr} {inits posts body : List Skeleton} {s s' : State}
      (hi : List.Forall₂ (Spelled E) init.toList inits)
      (hc : Writes (cond.mapM (exprAs .bool)) E s c s')
      (hp : List.Forall₂ (Spelled E) post.toList posts) (hb : List.Forall₂ (Spelled E) b.stmts body) :
      Spelled E (.forLoop p init cond post b) (.forLoop inits c posts body)
  | give {p : Text.Position} {value : Option Expr} {x : Rust.Expr} {s s' : State}
      (hx : Writes (resultValue value) E s x s') : Spelled E (.returnValue p value) (.give x)
  | require {p : Text.Position} {cond : Expr} {entry : ErrorEntry} {c error : Rust.Expr}
      {s s' t t' : State} (hc : Writes (exprAs .bool cond) E s c s')
      (he : Writes (abort entry []) E t (errorReturn error) t') :
      Spelled E (.require p cond entry) (.require c error)
  | revert {p : Text.Position} {entry : ErrorEntry} {args : List Expr} {error : Rust.Expr} {s s' : State}
      (he : Writes (abort entry args) E s (errorReturn error) s') :
      Spelled E (.revert p entry args) (.revert error)
  | breakLoop {p : Text.Position} : Spelled E (.breakLoop p) .breakLoop
  | continueLoop {p : Text.Position} : Spelled E (.continueLoop p) .continueLoop

-- What a statement is not left for.

section Avoids

variable {ε σ : Type} {P : ε → Bool} {a b : Act ε σ}

def Avoids (P : ε → Bool) (a : Act ε σ) : Prop := ∀ x e y, a x = (some e, y) → P e = false

theorem avoids_skip : Avoids P (skip : Act ε σ) := by
  intro x e y h
  cases h

theorem avoids_leave {e : ε} (he : P e = false) : Avoids P (leave e : Act ε σ) := by
  intro x e' y h
  cases h
  exact he

theorem avoids_seq (ha : Avoids P a) (hb : Avoids P b) : Avoids P (seq a b) := by
  intro x e y h
  unfold seq at h
  split at h
  · exact hb _ e y h
  · rename_i e' y' hx
    cases h
    exact ha x e y hx

theorem avoids_branch {stopped : ε} {test : σ → Option Bool × σ} (hstopped : P stopped = false)
    (ha : Avoids P a) (hb : Avoids P b) : Avoids P (branch stopped test a b) := by
  intro x e y h
  unfold branch at h
  split at h
  · exact ha _ e y h
  · exact hb _ e y h
  · cases h
    exact hstopped

theorem avoids_catching {caught : ε → Bool} (ha : ∀ x e y, a x = (some e, y) → caught e = false → P e = false) :
    Avoids P (catching caught a) := by
  intro x e y h
  unfold catching at h
  split at h
  · cases h
  · rename_i e' y' hx
    split at h
    · cases h
    · rename_i hc
      cases h
      exact ha x e y hx (by simpa using hc)

-- A loop is not left for what leads to its next turn.
theorem avoids_turns {resumes leaves : ε → Bool} {outOfFuel : ε} (hfuel : P outOfFuel = false)
    (hP : ∀ e, resumes e = false → P e = false) (turn : Act ε σ) (n : Nat) :
    Avoids P (turns resumes leaves outOfFuel turn n) := by
  induction n with
  | zero => exact avoids_leave hfuel
  | succ n ih =>
      intro x e y h
      rw [turns] at h
      dsimp only at h
      split at h
      · exact ih _ e y h
      · rename_i e' y' hx
        by_cases hr : resumes e'
        · rw [if_pos hr] at h
          exact ih _ e y h
        · rw [if_neg hr] at h
          split at h
          · cases h
          · cases h
            exact hP e (by simpa using hr)

theorem avoids_acts (W : World σ) {stopped : ε} (hstopped : P stopped = false) (code : List Rust.Stmt) :
    Avoids P (W.acts stopped code) := by
  induction code with
  | nil => exact avoids_skip
  | cons s code ih =>
      refine avoids_seq (fun x e y h => ?_) ih
      unfold World.act at h
      split at h
      · cases h
      · cases h
        exact hstopped

end Avoids

variable {E : Env} {σ : Type}

-- A simple statement does not jump.
theorem avoids_simple {P : Ending → Bool} (hstopped : P .stopped = false)
    (hreverted : ∀ error, P (.reverted error) = false) {st : Stmt} {sk : Skeleton}
    (hsk : Spelled E st sk) (hst : isSimple st = true) (W : World σ) (fuel : Nat) :
    Avoids P (sk.run W fuel) := by
  cases hsk with
  | steps hatom hw => exact avoids_acts W hstopped _
  | require hc he => exact avoids_branch hstopped avoids_skip (avoids_leave (hreverted _))
  | revert he => exact avoids_leave (hreverted _)
  | _ => cases hst

theorem avoids_simples {P : Ending → Bool} (hstopped : P .stopped = false)
    (hreverted : ∀ error, P (.reverted error) = false) {o : Option Stmt} {sks : List Skeleton}
    (hsks : List.Forall₂ (Spelled E) o.toList sks) (ho : o.all isSimple = true) (W : World σ)
    (fuel : Nat) : Avoids P (runEach W fuel sks) := by
  cases o with
  | none =>
      cases hsks
      exact avoids_skip
  | some st =>
      obtain _ | ⟨hsk, ⟨⟩⟩ := hsks
      exact avoids_seq (avoids_simple hstopped hreverted hsk ho W fuel) avoids_skip

mutual

-- Code without `continue` for the loop around it is not left by one. A loop keeps its own for itself.
theorem avoids_continue_stmt (W : World σ) (fuel : Nat) : ∀ {st : Stmt} {sk : Skeleton},
    Spelled E st sk → (∀ x ∈ st.substmts, hasSimpleHead x = true) → continuesStmt st = false →
      Avoids Ending.isContinue (sk.run W fuel)
  | .block ⟨_, body, _⟩, _, .block hb, hheads, hc =>
    avoids_continue W fuel hb (fun x hx => hheads x (List.mem_cons_of_mem _ hx)) hc
  | .ifElse _ _ ⟨_, whenTrue, _⟩ none, _, .ifThen _ ht, hheads, hc => by
      have htrue := avoids_continue W fuel ht (fun x hx => hheads x (.tail _ (.tail _ hx))) hc
      exact avoids_branch rfl htrue avoids_skip
  | .ifElse _ _ ⟨_, whenTrue, _⟩ (some ⟨_, whenFalse, _⟩), _, .ifElse _ ht he, hheads, hc => by
      obtain ⟨htrue, hfalse⟩ := Bool.or_eq_false_iff.mp hc
      refine avoids_branch rfl (avoids_continue W fuel ht (fun x hx => hheads x ?_) htrue)
        (avoids_continue W fuel he (fun x hx => hheads x ?_) hfalse)
      · exact .tail _ (List.mem_append_left _ (.tail _ hx))
      · exact .tail _ (List.mem_append_right _ (.tail _ hx))
  | .forLoop _ _ _ _ _, _, .forLoop hi _ _ _, hheads, _ => by
      have hhead := Bool.and_eq_true_iff.mp (hheads _ (self_mem_substmts _))
      exact avoids_seq (avoids_simples rfl (fun _ => rfl) hi hhead.1 W fuel)
        (avoids_turns rfl (fun _ h => h) _ fuel)
  | _, _, .whileLoop _ _, _, _ => avoids_turns rfl (fun _ h => h) _ fuel
  | _, _, .doWhile _ _, _, _ => avoids_turns rfl (fun _ h => h) _ fuel
  | _, _, .steps _ _, _, _ => avoids_acts W rfl _
  | _, _, .give _, _, _ => avoids_leave rfl
  | _, _, .require _ _, _, _ => avoids_branch rfl avoids_skip (avoids_leave rfl)
  | _, _, .revert _, _, _ => avoids_leave rfl
  | _, _, .breakLoop, _, _ => avoids_leave rfl
termination_by structural st => st

theorem avoids_continue (W : World σ) (fuel : Nat) : ∀ {sts : List Stmt} {sks : List Skeleton},
    List.Forall₂ (Spelled E) sts sks → (∀ x ∈ substmtsList sts, hasSimpleHead x = true) →
      continues sts = false → Avoids Ending.isContinue (runEach W fuel sks)
  | [], _, .nil, _, _ => avoids_skip
  | st :: rest, _, .cons hsk hsks, hheads, hc => by
      rw [continues, Bool.or_eq_false_iff] at hc
      have hst := avoids_continue_stmt W fuel hsk (fun x hx => hheads x (List.mem_append_left _ hx)) hc.1
      have hrest := avoids_continue W fuel hsks (fun x hx => hheads x (List.mem_append_right _ hx)) hc.2
      exact avoids_seq hst hrest
termination_by structural sts => sts

end

theorem avoids_continue_block (W : World σ) (fuel : Nat) {b : Block} {sks : List Skeleton}
    (hsks : List.Forall₂ (Spelled E) b.stmts sks) (hheads : ∀ x ∈ b.substmts, hasSimpleHead x = true)
    (hb : continuesBlock b = false) : Avoids Ending.isContinue (runEach W fuel sks) := by
  cases b
  exact avoids_continue W fuel hsks (fun x hx => hheads x (.tail _ hx)) hb

end RustContracts.Emit
