import RustContracts.Proofs.Emit.Control
import RustContracts.Proofs.Emit.Layout
import RustContracts.Proofs.Emit.LocalNames
import RustContracts.Proofs.Program.Run

-- How code is left. A block whose last statement returns or reverts, directly or in both branches, never goes to its
-- end, and neither does what is written for it; so every function gives back a result at its end or has none to reach.
namespace RustContracts

namespace Flow

variable {ε σ : Type} {a b : Act ε σ}

-- An act that never goes to its end.
def Quits (a : Act ε σ) : Prop := ∀ x, (a x).1 ≠ none

theorem quits_leave (e : ε) : Quits (leave e : Act ε σ) := fun _ h => nomatch h

theorem Quits.after (h : Quits b) (a : Act ε σ) : Quits (seq a b) := by
  intro x
  unfold seq
  split
  · exact h _
  · simp

theorem Quits.branch {stopped : ε} {test : σ → Option Bool × σ} (ha : Quits a) (hb : Quits b) :
    Quits (branch stopped test a b) := by
  intro x
  unfold Flow.branch
  split
  · exact ha _
  · exact hb _
  · simp

end Flow

namespace Program.Run

open RustContracts.Flow

variable {V σ α : Type}

theorem quits_given {names : List String} {f : List V → σ → Option α × σ} {next : α → Code V σ}
    (h : ∀ a, Quits (next a)) : Quits (given names f next) := by
  intro x
  unfold given
  split
  · simp
  · split
    · exact h _ _
    · simp

theorem Quits.enclosed {a : Code V σ} (h : Quits a) : Quits (enclosed a) := fun x => h x

section Statements

variable (M : Meaning V σ) (fuel : Nat) {back : Bool → Option Expr → Code V σ} (hole : Bool → Code V σ)

mutual

-- Along the last statements; what stands before them makes no difference.
theorem quits_block (hback : ∀ u v, Quits (back u v)) : ∀ (u : Bool) (b : Block), b.endsInReturn = true →
    Quits (execBlock M fuel back hole u b)
  | u, ⟨_, code, isUnchecked⟩, h => by
      rw [execBlock]
      exact Quits.enclosed (quits_all hback (u || isUnchecked) code h)

theorem quits_all (hback : ∀ u v, Quits (back u v)) : ∀ (u : Bool) (code : List Stmt), lastReturns code = true →
    Quits (execAll M fuel back hole u code)
  | u, [st], h => by
      rw [execAll, execAll, seq_skip]
      exact quits_stmt hback u st h
  | u, st :: st' :: rest, h => by
      rw [execAll]
      exact (quits_all hback u (st' :: rest) h).after _

theorem quits_stmt (hback : ∀ u v, Quits (back u v)) : ∀ (u : Bool) (st : Stmt), st.returns = true →
    Quits (exec M fuel back hole u st)
  | u, .block b, h => by
      rw [exec]
      exact quits_block hback u b h
  | u, .ifElse _ c t (some e), h => by
      obtain ⟨ht, he⟩ := Bool.and_eq_true_iff.mp h
      rw [exec, choose]
      refine quits_given fun yes => ?_
      cases yes with
      | true => exact quits_block hback u t ht
      | false =>
          rw [execElse]
          exact quits_block hback u e he
  | u, .returnValue _ v, _ => by
      rw [exec]
      exact hback u v
  | u, .revert _ error args, _ => by
      rw [exec]
      exact quits_given fun vs => quits_leave _

end

end Statements

end Program.Run

namespace Emit

open Program RustContracts.Flow
open Rust (World Jump flowAll)

variable {E : Env} {s s' : State}

-- What is written for a block that never goes to its end does not either.

section Quits

theorem quits_errorReturn {σ : Type} (W : World σ) (fuel : Nat) (error : Rust.Expr) :
    Quits (flowAll W fuel [errorReturn error]) := by
  rw [Rust.flowAll_singleton, errorReturn, Rust.Stmt.flow]
  exact quits_leave _

theorem quits_append {σ : Type} {W : World σ} {fuel : Nat} {code : List Rust.Stmt} (before : List Rust.Stmt)
    (h : Quits (flowAll W fuel code)) : Quits (flowAll W fuel (before ++ code)) := by
  rw [Rust.flowAll_append]
  exact h.after _

mutual

theorem quits_writtenBlock : ∀ (b : Block), b.endsInReturn = true → ∀ {s s' : State} {written : Rust.Block},
    Writes (block b) E s written s' → written.tail = none ∧
      ∀ {σ : Type} (W : World σ) (fuel : Nat), Quits (flowAll W fuel written.stmts)
  | ⟨_, code, _⟩, h, s, s', written, hw => by
      rw [block] at hw
      obtain ⟨out, s₁, hout, hw⟩ := writes_bind.mp hw
      obtain ⟨rfl, rfl⟩ := writes_pure.mp hw
      obtain ⟨t, t', hout, -, -⟩ := writes_inScope hout
      exact ⟨rfl, quits_writtenAll code h hout⟩

theorem quits_writtenAll : ∀ (sts : List Stmt), lastReturns sts = true → ∀ {s s' : State} {code : List Rust.Stmt},
    Writes (stmts sts) E s code s' → ∀ {σ : Type} (W : World σ) (fuel : Nat), Quits (flowAll W fuel code)
  | [st], h, s, s', code, hw, σ, W, fuel => by
      rw [stmts, stmts] at hw
      obtain ⟨first, s₁, hfirst, hw⟩ := writes_bind.mp hw
      obtain ⟨more, s₂, hmore, hw⟩ := writes_bind.mp hw
      obtain ⟨rfl, rfl⟩ := writes_pure.mp hmore
      obtain ⟨rfl, rfl⟩ := writes_pure.mp hw
      obtain ⟨refs, s₃, -, hfirst⟩ := writes_bind.mp hfirst
      obtain ⟨written, s₄, hwritten, hfirst⟩ := writes_bind.mp hfirst
      obtain ⟨rfl, rfl⟩ := writes_pure.mp hfirst
      rw [List.append_nil]
      exact quits_append refs (quits_written st h hwritten W fuel)
  | st :: st' :: rest, h, s, s', code, hw, σ, W, fuel => by
      rw [stmts] at hw
      obtain ⟨first, s₁, -, hw⟩ := writes_bind.mp hw
      obtain ⟨more, s₂, hmore, hw⟩ := writes_bind.mp hw
      obtain ⟨rfl, rfl⟩ := writes_pure.mp hw
      exact quits_append first (quits_writtenAll (st' :: rest) h hmore W fuel)

theorem quits_written : ∀ (st : Stmt), st.returns = true → ∀ {s s' : State} {code : List Rust.Stmt},
    Writes (stmt st) E s code s' → ∀ {σ : Type} (W : World σ) (fuel : Nat), Quits (flowAll W fuel code)
  | .block b, h, s, s', code, hw, σ, W, fuel => by
      rw [stmt] at hw
      obtain ⟨written, s₁, hb, hw⟩ := writes_bind.mp hw
      obtain ⟨rfl, rfl⟩ := writes_pure.mp hw
      obtain ⟨htail, hquits⟩ := quits_writtenBlock b h hb
      have hflow : flowAll W fuel [.expr (.block written)] = flowAll W fuel written.stmts :=
        flow_ownBlock W fuel true htail
      rw [hflow]
      exact hquits W fuel
  | .ifElse p cond t (some e), h, s, s', code, hw, σ, W, fuel => by
      obtain ⟨ht, he⟩ := Bool.and_eq_true_iff.mp h
      rw [stmt] at hw
      obtain ⟨c, s₁, -, hw⟩ := writes_bind.mp hw
      obtain ⟨whenTrue, s₂, hthen, hw⟩ := writes_bind.mp hw
      obtain ⟨whenFalse, s₃, helse, hw⟩ := writes_bind.mp hw
      obtain ⟨rfl, rfl⟩ := writes_pure.mp hw
      obtain ⟨htail, hthen⟩ := quits_writtenBlock t ht hthen
      obtain ⟨htail', helse⟩ := quits_writtenBlock e he helse
      rw [flow_ifElse W fuel c _ htail, flow_elseBranch W fuel e htail']
      exact (hthen W fuel).branch (helse W fuel)
  | .returnValue p value, _, s, s', code, hw, σ, W, fuel => by
      rw [stmt] at hw
      obtain ⟨x, s₁, -, hw⟩ := writes_bind.mp hw
      obtain ⟨rfl, rfl⟩ := writes_pure.mp hw
      rw [Rust.flowAll_singleton, Rust.Stmt.flow]
      exact quits_leave _
  | .revert p entry args, _, s, s', code, hw, σ, W, fuel => by
      rw [stmt] at hw
      obtain ⟨out, s₁, hout, hw⟩ := writes_bind.mp hw
      obtain ⟨rfl, rfl⟩ := writes_pure.mp hw
      obtain ⟨error, rfl⟩ := exists_errorReturn hout
      exact quits_errorReturn W fuel error

end

end Quits

-- What is written for a loop is left for no other jumps than those of the loop around it.

-- The label of the jumps that end a loop.
def Loop.mark (l : Loop) : String := if l.resumes then l.label else ""

-- The jumps of code in a loop are those that are written for the loop.
def strays (around : Option Loop) : Jump → Bool
  | .broke label => !around.any fun l => label == l.mark || l.resumes && label == l.resumeLabel
  | .continued label => !around.any fun l => !l.resumes && label == ""
  | _ => false

-- In a turn of a loop there are those that the loop takes for itself as well.
def straysInTurn (l : Loop) (around : Option Loop) : Jump → Bool
  | .broke label => label != l.mark && strays around (.broke label)
  | .continued label => (l.resumes || label != "") && strays around (.continued label)
  | _ => false

-- Written code in a loop, or in none.
def Inside (around : Option Loop) (code : List Rust.Stmt) : Prop :=
  ∀ {σ : Type} (W : World σ) (fuel : Nat), Avoids (strays around) (flowAll W fuel code)

section Loops

variable {σ : Type} {P Q : Jump → Bool} {a : Act Jump σ} {l : Loop} {around : Option Loop}

theorem Avoids.mono (h : Avoids P a) (hPQ : ∀ j, P j = false → Q j = false) : Avoids Q a :=
  fun x j y hx => hPQ j (h x j y hx)

theorem straysInTurn_of_strays {j : Jump} (h : strays around j = false) : straysInTurn l around j = false := by
  cases j <;> simp_all [straysInTurn]

-- A loop takes its own jumps and hands on the rest.
theorem avoids_turns_of_turn {turn : Act Jump σ} (hturn : Avoids (straysInTurn l around) turn) (n : Nat) :
    Avoids (strays around) (turns (Jump.resumes l.mark) (Jump.leaves l.mark) .outOfFuel turn n) := by
  induction n with
  | zero => exact avoids_leave rfl
  | succ n ih =>
      intro x j y h
      rw [turns] at h
      dsimp only at h
      split at h
      · exact ih _ j y h
      · next j' y' hx =>
          have hj := hturn x j' y' hx
          split at h
          · exact ih _ j y h
          · next hresumes =>
              split at h
              · cases h
              · next hleaves =>
                  obtain ⟨hsame, rfl⟩ := Prod.mk.inj h
                  obtain rfl := Option.some.inj hsame
                  cases j' with
                  | broke label => simp_all [straysInTurn, Jump.leaves]
                  | continued label => cases hr : l.resumes <;> simp_all [straysInTurn, Jump.resumes]
                  | _ => rfl

-- In a block of its own a body is left behind it by its `continue`, and in none there is no other jump of the loop.
theorem avoids_body {body : Rust.Block} (htail : body.tail = none) (hbody : Inside (some l) body.stmts) (ownBlock : Bool)
    (W : World σ) (fuel : Nat) :
    Avoids (straysInTurn l around) (flowAll W fuel (if l.resumes then [.labeled l.resumeLabel body]
      else if ownBlock then [.expr (.block body)] else body.stmts)) := by
  have hinside : Avoids (strays (some l)) (flowAll W fuel body.stmts) := hbody W fuel
  cases hresumes : l.resumes with
  | true =>
      rw [if_pos rfl, Rust.flowAll_singleton]
      have hflow : (Rust.Stmt.labeled l.resumeLabel body).flow W fuel =
          catching (Jump.names l.resumeLabel) (flowAll W fuel body.stmts) := by
        cases body
        rw [Rust.Stmt.flow]
      rw [hflow]
      refine avoids_catching fun x j y hx hcaught => ?_
      have hj := hinside x j y hx
      cases j with
      | broke label => simp_all [strays, straysInTurn, Jump.names]
      | continued label => simp_all [strays]
      | _ => rfl
  | false =>
      rw [if_neg Bool.false_ne_true, flow_ownBlock W fuel _ htail]
      refine hinside.mono fun j hj => ?_
      cases j with
      | broke label => simp_all [strays, straysInTurn]
      | continued label => simp_all [strays, straysInTurn]
      | _ => rfl

-- The test that ends a loop.
theorem avoids_test (W : World σ) (fuel : Nat) (c : Rust.Expr) :
    Avoids (straysInTurn l around) (flowAll W fuel [ifNot c (.breakLoop l.mark)]) := by
  rw [Rust.flowAll_singleton, flow_ifNot, Rust.Stmt.flow]
  exact avoids_branch rfl avoids_skip (avoids_leave (by simp [straysInTurn]))

theorem avoids_append {code more : List Rust.Stmt} {W : World σ} {fuel : Nat} (h : Avoids P (flowAll W fuel code))
    (h' : Avoids P (flowAll W fuel more)) : Avoids P (flowAll W fuel (code ++ more)) := by
  rw [Rust.flowAll_append]
  exact avoids_seq h h'

theorem inside_while (hresumes : l.resumes = false) {body : Rust.Block} (htail : body.tail = none)
    (hbody : Inside (some l) body.stmts) (c : Rust.Expr) : Inside around [.whileLoop "" c body] := by
  intro σ W fuel
  have hmark : l.mark = "" := by rw [Loop.mark, hresumes, if_neg Bool.false_ne_true]
  have hturn : Avoids (straysInTurn l around) _ := avoids_body htail hbody false W fuel
  rw [hresumes, if_neg Bool.false_ne_true, if_neg Bool.false_ne_true] at hturn
  obtain ⟨code, tail⟩ := body
  rw [Rust.flowAll_singleton, Rust.Stmt.flow, ← hmark]
  exact avoids_turns_of_turn (avoids_branch rfl hturn (avoids_leave (by simp [straysInTurn]))) fuel

theorem inside_doWhile {body : Rust.Block} (htail : body.tail = none) (hbody : Inside (some l) body.stmts)
    (c : Rust.Expr) : Inside around [doWhile l c body] := by
  intro σ W fuel
  have hfirst : Avoids (straysInTurn l around) _ := avoids_body htail hbody false W fuel
  have hturn := avoids_append hfirst (avoids_test W fuel c)
  have hloop : doWhile l c body = .loop l.mark ⟨(if l.resumes then [.labeled l.resumeLabel body]
      else if false then [.expr (.block body)] else body.stmts) ++ [ifNot c (.breakLoop l.mark)], none⟩ := by
    unfold doWhile Loop.mark
    split <;> rfl
  rw [Rust.flowAll_singleton, hloop, Rust.Stmt.flow]
  exact avoids_turns_of_turn hturn fuel

theorem inside_stepLoop {body : Rust.Block} (htail : body.tail = none) (hbody : Inside (some l) body.stmts)
    {post : List Rust.Stmt} (hpost : Inside around post) (cond : Option Rust.Expr) (ownBlock : Bool) :
    Inside around [stepLoop l cond ownBlock body post] := by
  intro σ W fuel
  have hstep : Avoids (straysInTurn l around) (flowAll W fuel post) :=
    (hpost W fuel).mono fun _ => straysInTurn_of_strays
  have hfirst : Avoids (straysInTurn l around) _ := avoids_body htail hbody (ownBlock && !post.isEmpty) W fuel
  have hturn := avoids_append hfirst hstep
  unfold stepLoop
  rw [Rust.flowAll_singleton]
  cases cond with
  | some c =>
      rw [Rust.Stmt.flow]
      exact avoids_turns_of_turn (avoids_branch rfl hturn (avoids_leave (by simp [straysInTurn, Loop.mark]))) fuel
  | none =>
      rw [Rust.Stmt.flow]
      exact avoids_turns_of_turn hturn fuel

theorem Inside.append {code more : List Rust.Stmt} (h : Inside around code) (h' : Inside around more) :
    Inside around (code ++ more) := fun W fuel => avoids_append (h W fuel) (h' W fuel)

theorem inside_steps {code : List Rust.Stmt} (h : Shaped.plain code) : Inside around code := by
  intro σ W fuel
  rw [Rust.flowAll_steps W fuel h]
  exact avoids_acts W rfl code

theorem inside_block {written : Rust.Block} (htail : written.tail = none) (h : Inside around written.stmts) :
    Inside around [.expr (.block written)] := by
  intro σ W fuel
  have hflow : flowAll W fuel [.expr (.block written)] = flowAll W fuel written.stmts :=
    flow_ownBlock W fuel true htail
  rw [hflow]
  exact h W fuel

theorem inside_errorReturn (error : Rust.Expr) : Inside around [errorReturn error] := by
  intro σ W fuel
  rw [Rust.flowAll_singleton, errorReturn, Rust.Stmt.flow]
  exact avoids_leave rfl

end Loops

section References

theorem keepsLoops_modify {f : State → State} (h : ∀ s, (f s).frame.loops = s.frame.loops) :
    KeepsLoops (modify f : Emit Unit) := by
  intro E s u s' hw
  obtain rfl := writes_modify.mp hw
  exact h s

theorem keepsLoops_declareRef (key interface : String) : KeepsLoops (declareRef key interface) := by
  unfold declareRef
  refine KeepsLoops.bind steady_frame.keepsLoops fun fr => ?_
  refine KeepsLoops.bind (keepsLoops_modify fun _ => rfl) fun _ => ?_
  exact KeepsLoops.bind (keepsLoops_modify fun _ => rfl) fun _ => (steady_pure _).keepsLoops

theorem keepsLoops_declareRefs (calls : List (String × Signature × Expr)) : KeepsLoops (declareRefs calls) := by
  induction calls with
  | nil => exact (steady_pure _).keepsLoops
  | cons call rest ih =>
      have hmore (here : List Rust.Stmt) : KeepsLoops (declareRefs rest >>= fun more => pure (here ++ more)) :=
        ih.bind fun more => (steady_pure _).keepsLoops
      rw [declareRefs]
      refine (steady_exprAs _ _).keepsLoops.bind fun account => (steady_ref? _).keepsLoops.bind fun found => ?_
      split
      · exact hmore []
      · refine (steady_externalRef _ _).keepsLoops.bind fun made => ?_
        refine KeepsLoops.bind (keepsLoops_modify fun s => by split <;> rfl) fun _ => ?_
        exact (keepsLoops_declareRef _ _).bind fun name => hmore _

-- References are declared by steps.
theorem yields_declareRefs (calls : List (String × Signature × Expr)) : Yields (declareRefs calls) := by
  induction calls with
  | nil => exact yields_pure (by simp [Shaped.plain])
  | cons call rest ih =>
      have hmore {here : List Rust.Stmt} (hhere : Shaped.plain here) :
          Yields (declareRefs rest >>= fun more => pure (here ++ more)) :=
        yields_bind ih fun more hmore => yields_pure (List.forall_mem_append.mpr ⟨hhere, hmore⟩)
      rw [declareRefs]
      refine yields_last fun account => yields_last fun found => ?_
      split
      · exact hmore (by simp [Shaped.plain])
      · refine yields_last fun made => yields_last fun _ => yields_last fun name => hmore ?_
        simp [Shaped.plain, Rust.Stmt.isStep]

end References

theorem inside_withRefs {st : Stmt} {written : Emit (List Rust.Stmt)} {code : List Rust.Stmt}
    (h : ∀ {s s' : State} {code : List Rust.Stmt}, Writes written E s code s' →
      s'.frame.loops = s.frame.loops ∧ Inside s.frame.loops.head? code)
    (hw : Writes (withRefs st written) E s code s') :
    s'.frame.loops = s.frame.loops ∧ Inside s.frame.loops.head? code := by
  obtain ⟨refs, s₁, hrefs, hw⟩ := writes_bind.mp hw
  obtain ⟨behind, s₂, hbehind, hw⟩ := writes_bind.mp hw
  obtain ⟨rfl, rfl⟩ := writes_pure.mp hw
  have hloops := keepsLoops_declareRefs _ _ _ _ _ hrefs
  obtain ⟨hloops', hinside⟩ := h hbehind
  rw [hloops] at hloops' hinside
  exact ⟨hloops', Inside.append (inside_steps (yields_declareRefs _ _ _ _ _ hrefs)) hinside⟩

-- By induction on the statements; what is written leaves the loops as they are.

mutual

theorem inside_writtenBlock : ∀ (b : Block) {s s' : State} {written : Rust.Block}, Writes (block b) E s written s' →
    s'.frame.loops = s.frame.loops ∧ written.tail = none ∧ Inside s.frame.loops.head? written.stmts
  | ⟨_, body, _⟩, s, s', written, hw => by
      rw [block] at hw
      obtain ⟨code, s₁, hcode, hw⟩ := writes_bind.mp hw
      obtain ⟨rfl, rfl⟩ := writes_pure.mp hw
      obtain ⟨t, t', hcode, ht, hs'⟩ := writes_inScope hcode
      obtain ⟨hloops, hinside⟩ := inside_writtenAll body hcode
      rw [hs', hloops, ht]
      exact ⟨rfl, rfl, ht ▸ hinside⟩

theorem inside_writtenAll : ∀ (sts : List Stmt) {s s' : State} {code : List Rust.Stmt}, Writes (stmts sts) E s code s' →
    s'.frame.loops = s.frame.loops ∧ Inside s.frame.loops.head? code
  | [], s, s', code, hw => by
      rw [stmts] at hw
      obtain ⟨rfl, rfl⟩ := writes_pure.mp hw
      exact ⟨rfl, fun W fuel => avoids_skip⟩
  | st :: rest, s, s', code, hw => by
      rw [stmts] at hw
      obtain ⟨first, s₁, hfirst, hw⟩ := writes_bind.mp hw
      obtain ⟨more, s₂, hmore, hw⟩ := writes_bind.mp hw
      obtain ⟨rfl, rfl⟩ := writes_pure.mp hw
      obtain ⟨hloops, hinside⟩ := inside_withRefs (fun hw => inside_written st hw) hfirst
      obtain ⟨hloops', hinside'⟩ := inside_writtenAll rest hmore
      rw [hloops] at hloops' hinside'
      exact ⟨hloops', hinside.append hinside'⟩

theorem inside_optional : ∀ (o : Option Stmt) {s s' : State} {code : List Rust.Stmt}, Writes (optionalStmt o) E s code s' →
    s'.frame.loops = s.frame.loops ∧ Inside s.frame.loops.head? code
  | none, s, s', code, hw => by
      rw [optionalStmt] at hw
      obtain ⟨rfl, rfl⟩ := writes_pure.mp hw
      exact ⟨rfl, fun W fuel => avoids_skip⟩
  | some st, s, s', code, hw => by
      rw [optionalStmt] at hw
      exact inside_withRefs (fun hw => inside_written st hw) hw

theorem inside_written : ∀ (st : Stmt) {s s' : State} {code : List Rust.Stmt}, Writes (stmt st) E s code s' →
    s'.frame.loops = s.frame.loops ∧ Inside s.frame.loops.head? code
  | .block b, s, s', code, hw => by
      rw [stmt] at hw
      obtain ⟨written, s₁, hb, hw⟩ := writes_bind.mp hw
      obtain ⟨rfl, rfl⟩ := writes_pure.mp hw
      obtain ⟨hloops, htail, hinside⟩ := inside_writtenBlock b hb
      exact ⟨hloops, inside_block htail hinside⟩
  | .decl p vars value, s, s', code, hw => by
      rw [stmt] at hw
      exact ⟨keepsLoops_declareVars _ _ _ _ _ _ hw, inside_steps (yields_declareVars vars value _ _ _ _ hw)⟩
  | .assign p target value, s, s', code, hw => by
      rw [stmt] at hw
      have hsteady := steady_bind (steady_exprAs target.type value) fun x => steady_assign.1 x target
      exact ⟨hsteady.keepsLoops _ _ _ _ hw,
        inside_steps (yields_last (fun x => yields_assign.1 x target) _ _ _ _ hw)⟩
  | .expr p e, s, s', code, hw => by
      rw [stmt] at hw
      exact ⟨(steady_exprStmt e).keepsLoops _ _ _ _ hw, inside_steps (yields_exprStmt e _ _ _ _ hw)⟩
  | .emit p ev args, s, s', code, hw => by
      rw [stmt] at hw
      have hsteady := steady_bind (steady_exprsAs (ev.fields.map (·.type)) args) fun xs =>
        steady_bind (steady_emitEvent ev xs) fun st => steady_pure [st]
      exact ⟨hsteady.keepsLoops _ _ _ _ hw,
        inside_steps (yields_last (fun xs => yields_one (yields_emitEvent ev xs)) _ _ _ _ hw)⟩
  | .ifElse p cond whenTrue none, s, s', code, hw => by
      rw [stmt] at hw
      obtain ⟨c, s₁, hc, hw⟩ := writes_bind.mp hw
      obtain ⟨t, s₂, ht, hw⟩ := writes_bind.mp hw
      obtain ⟨rfl, rfl⟩ := writes_pure.mp hw
      have hs₁ := (steady_exprAs _ _).keepsLoops _ _ _ _ hc
      obtain ⟨hloops, htail, hinside⟩ := inside_writtenBlock whenTrue ht
      rw [hs₁] at hloops hinside
      refine ⟨hloops, fun W fuel => ?_⟩
      rw [flow_ifThen W fuel c htail]
      exact avoids_branch rfl (hinside W fuel) avoids_skip
  | .ifElse p cond whenTrue (some whenFalse), s, s', code, hw => by
      rw [stmt] at hw
      obtain ⟨c, s₁, hc, hw⟩ := writes_bind.mp hw
      obtain ⟨t, s₂, ht, hw⟩ := writes_bind.mp hw
      obtain ⟨e, s₃, he, hw⟩ := writes_bind.mp hw
      obtain ⟨rfl, rfl⟩ := writes_pure.mp hw
      have hs₁ := (steady_exprAs _ _).keepsLoops _ _ _ _ hc
      obtain ⟨hs₂, htail, hinside⟩ := inside_writtenBlock whenTrue ht
      obtain ⟨hloops, htail', hinside'⟩ := inside_writtenBlock whenFalse he
      rw [hs₂, hs₁] at hloops hinside'
      rw [hs₁] at hinside
      refine ⟨hloops, fun W fuel => ?_⟩
      rw [flow_ifElse W fuel c _ htail, flow_elseBranch W fuel whenFalse htail']
      exact avoids_branch rfl (hinside W fuel) (hinside' W fuel)
  | .whileLoop p cond body false, s, s', code, hw => by
      rw [stmt] at hw
      obtain ⟨c, s₁, hc, hw⟩ := writes_bind.mp hw
      obtain ⟨lb, s₂, hlb, hw⟩ := writes_bind.mp hw
      obtain ⟨rfl, rfl⟩ := writes_pure.mp hw
      have hs₁ := (steady_exprAs _ _).keepsLoops _ _ _ _ hc
      obtain ⟨hresumes, t, t', hb, ht, hs₂⟩ := writes_inLoop hlb
      obtain ⟨hloops, htail, hinside⟩ := inside_writtenBlock body hb
      rw [hloops, ht] at hs₂
      rw [ht] at hinside
      exact ⟨hs₂.trans hs₁, inside_while hresumes htail hinside c⟩
  | .whileLoop p cond body true, s, s', code, hw => by
      rw [stmt] at hw
      obtain ⟨lb, s₁, hlb, hw⟩ := writes_bind.mp hw
      obtain ⟨c, s₂, hc, hw⟩ := writes_bind.mp hw
      obtain ⟨rfl, rfl⟩ := writes_pure.mp hw
      have hs₂ := (steady_exprAs _ _).keepsLoops _ _ _ _ hc
      obtain ⟨-, t, t', hb, ht, hs₁⟩ := writes_inLoop hlb
      obtain ⟨hloops, htail, hinside⟩ := inside_writtenBlock body hb
      rw [hloops, ht] at hs₁
      rw [ht] at hinside
      exact ⟨hs₂.trans hs₁, inside_doWhile htail hinside c⟩
  | .forLoop p init cond post body, s, s', code, hw => by
      rw [stmt] at hw
      obtain ⟨t, t', hw, ht, ht'⟩ := writes_inScope hw
      obtain ⟨i, s₁, hi, hw⟩ := writes_bind.mp hw
      obtain ⟨c, s₂, hc, hw⟩ := writes_bind.mp hw
      obtain ⟨lb, s₃, hlb, hw⟩ := writes_bind.mp hw
      obtain ⟨q, s₄, hq, hw⟩ := writes_bind.mp hw
      obtain ⟨rfl, rfl⟩ := writes_pure.mp hw
      obtain ⟨hs₁, hinit⟩ := inside_optional init hi
      have hs₂ := keepsLoops_cond cond _ _ _ _ hc
      obtain ⟨-, u, u', hb, hu, hs₃⟩ := writes_inLoop hlb
      obtain ⟨hu', htail, hinside⟩ := inside_writtenBlock body hb
      obtain ⟨hs₄, hpost⟩ := inside_optional post hq
      rw [hu', hu] at hs₃
      rw [hu] at hinside
      have hloops : s₃.frame.loops = s.frame.loops := hs₃.trans (hs₂.trans (hs₁.trans ht))
      rw [hloops] at hpost hs₄
      rw [ht] at hinit
      refine ⟨ht'.trans hs₄, fun W fuel => ?_⟩
      have hloop := inside_stepLoop htail hinside hpost c (declaresVars body) W fuel
      rw [Rust.flowAll_singleton] at hloop
      rw [flow_behind]
      exact avoids_seq (hinit W fuel) hloop
  | .returnValue p value, s, s', code, hw => by
      rw [stmt] at hw
      obtain ⟨x, s₁, hx, hw⟩ := writes_bind.mp hw
      obtain ⟨rfl, rfl⟩ := writes_pure.mp hw
      refine ⟨(steady_resultValue value).keepsLoops _ _ _ _ hx, fun W fuel => ?_⟩
      rw [Rust.flowAll_singleton, Rust.Stmt.flow]
      exact avoids_leave rfl
  | .require p cond entry, s, s', code, hw => by
      rw [stmt] at hw
      obtain ⟨c, s₁, hc, hw⟩ := writes_bind.mp hw
      obtain ⟨out, s₂, hout, hw⟩ := writes_bind.mp hw
      obtain ⟨rfl, rfl⟩ := writes_pure.mp hw
      have hs₁ := (steady_exprAs _ _).keepsLoops _ _ _ _ hc
      have hs₂ := (steady_abort entry []).keepsLoops _ _ _ _ hout
      obtain ⟨error, rfl⟩ := exists_errorReturn hout
      refine ⟨hs₂.trans hs₁, fun W fuel => ?_⟩
      rw [Rust.flowAll_singleton, flow_ifNot, ← Rust.flowAll_singleton]
      exact avoids_branch rfl avoids_skip (inside_errorReturn error W fuel)
  | .revert p entry args, s, s', code, hw => by
      rw [stmt] at hw
      obtain ⟨out, s₁, hout, hw⟩ := writes_bind.mp hw
      obtain ⟨rfl, rfl⟩ := writes_pure.mp hw
      obtain ⟨error, rfl⟩ := exists_errorReturn hout
      exact ⟨(steady_abort entry args).keepsLoops _ _ _ _ hout, inside_errorReturn error⟩
  | .breakLoop p, s, s', code, hw => by
      rw [stmt] at hw
      obtain ⟨out, s₁, hout, hw⟩ := writes_bind.mp hw
      obtain ⟨rfl, rfl⟩ := writes_pure.mp hw
      refine ⟨(steady_breakStmt p).keepsLoops _ _ _ _ hout, fun W fuel => ?_⟩
      obtain ⟨l, hl, rfl⟩ := writes_breakStmt hout
      rw [Rust.flowAll_singleton, Rust.Stmt.flow, hl]
      exact avoids_leave (by simp [strays, Loop.mark])
  | .continueLoop p, s, s', code, hw => by
      rw [stmt] at hw
      obtain ⟨out, s₁, hout, hw⟩ := writes_bind.mp hw
      obtain ⟨rfl, rfl⟩ := writes_pure.mp hw
      refine ⟨(steady_continueStmt p).keepsLoops _ _ _ _ hout, fun W fuel => ?_⟩
      obtain ⟨l, hl, rfl⟩ := writes_continueStmt hout
      rw [Rust.flowAll_singleton, hl]
      split
      · next hresumes =>
          rw [Rust.Stmt.flow]
          exact avoids_leave (by simp [strays, hresumes])
      · next hresumes =>
          rw [Rust.Stmt.flow]
          exact avoids_leave (by simp [strays, hresumes])
  | .placeholder p, s, s', code, hw => by
      rw [stmt] at hw
      exact absurd hw not_writes_throw

end

-- Functions.

-- A function that is left by returns only, unless a step stops it or it runs forever, and that gives back a result at
-- its end or never gets there.
def Ends (g : Rust.Function) : Prop :=
  ∃ body, g.body = some body ∧
    (∀ {σ : Type} (W : World σ) (fuel : Nat) (x : σ) (j : Jump) (y : σ), flowAll W fuel body.stmts x = (some j, y) →
      (∃ value, j = .returned value) ∨ j = .stopped ∨ j = .outOfFuel) ∧
    ((∃ x, body.tail = some (.callPath "Ok" [x])) ∨
      body.tail = none ∧ ∀ {σ : Type} (W : World σ) (fuel : Nat), Quits (flowAll W fuel body.stmts))

-- What a deployment calls gives back the contract, or has no result at all.
def IsEntry (target : Target) (g : Rust.Function) : Prop :=
  g.name = constructorName target ∧ ∃ body, g.body = some body ∧
    match target with
    | .ink _ => body.tail = some (.lit "Self::default()") ∨ body.tail = some (.callPath "Ok" [.ident "contract"])
    | .soroban => body.tail = none ∧ g.result = ""

theorem ends_of_inside {g : Rust.Function} {code : List Rust.Stmt} {tail : Option Rust.Expr}
    (hbody : g.body = some ⟨code, tail⟩) (hinside : Inside none code)
    (htail : (∃ x, tail = some (.callPath "Ok" [x])) ∨
      tail = none ∧ ∀ {σ : Type} (W : World σ) (fuel : Nat), Quits (flowAll W fuel code)) : Ends g := by
  refine ⟨_, hbody, fun W fuel x j y hx => ?_, htail⟩
  have hj := hinside W fuel x j y hx
  cases j with
  | broke label => cases hj
  | continued label => cases hj
  | returned value => exact .inl ⟨value, rfl⟩
  | stopped => exact .inr (.inl rfl)
  | outOfFuel => exact .inr (.inr rfl)

theorem keepsLoops_isMutated (name : String) : KeepsLoops (isMutated name) :=
  (steady_bind steady_frame fun _ => steady_pure _).keepsLoops

theorem keepsLoops_declareParams (params : List Param) (rparams : List Rust.Param) :
    KeepsLoops (declareParams params rparams) := by
  induction params generalizing rparams with
  | nil => exact (steady_pure _).keepsLoops
  | cons p params ih =>
      cases rparams with
      | nil => exact (steady_pure _).keepsLoops
      | cons r rest =>
          have hrest (first : Rust.Param) : KeepsLoops (declareParams params rest >>= fun more => pure (first :: more)) :=
            (ih rest).bind fun more => (steady_pure _).keepsLoops
          rw [declareParams]
          split
          · exact hrest r
          · exact (keepsLoops_isMutated _).bind fun changed => (keepsLoops_declare _ _).bind fun _ => hrest _

theorem keepsLoops_declareResults (results : List Param) : KeepsLoops (declareResults results) := by
  induction results with
  | nil => exact (steady_pure _).keepsLoops
  | cons r results ih =>
      rw [declareResults]
      split
      · exact ih
      · refine (steady_typeText _).keepsLoops.bind fun t => (steady_zero _).keepsLoops.bind fun z => ?_
        refine (keepsLoops_isMutated _).bind fun changed => (keepsLoops_declare _ _).bind fun _ => ?_
        exact ih.bind fun more => (steady_pure _).keepsLoops

theorem yields_declareResults (results : List Param) : Yields (declareResults results) := by
  induction results with
  | nil => exact yields_pure (by simp [Shaped.plain])
  | cons r results ih =>
      rw [declareResults]
      split
      · exact ih
      · refine yields_last fun t => yields_last fun z => yields_last fun changed => yields_last fun _ => ?_
        exact yields_bind ih fun more hmore => yields_pure (List.forall_mem_cons.mpr ⟨rfl, hmore⟩)

theorem yields_preamble (r : Routine) : Yields (preamble r) := by
  refine yields_last fun target => ?_
  cases target with
  | ink version => exact yields_pure (by simp [Shaped.plain])
  | soroban =>
      refine yields_pure ?_
      unfold Soroban.preamble
      split
      · exact List.forall_mem_singleton.mpr rfl
      · simp [Shaped.plain]

theorem ends_function {r : Routine} {f : Function} {impl : Option Implementation} {g : Rust.Function}
    (hw : Writes (function r f impl) E s g s') : Ends g := by
  unfold function at hw
  split at hw
  · obtain ⟨_, t₁, henter, hw⟩ := writes_bind.mp hw
    obtain rfl := writes_modify.mp henter
    obtain ⟨inner, t₂, hinner, hw⟩ := writes_bind.mp hw
    obtain ⟨-, rfl⟩ := (stateless_guarded _ _).unique hinner hinner
    obtain ⟨_, t₃, hmutated, hw⟩ := writes_bind.mp hw
    obtain rfl := writes_modify.mp hmutated
    obtain ⟨declared, t₄, hdeclare, hw⟩ := writes_bind.mp hw
    obtain ⟨shell, t₅, hshell, hw⟩ := writes_bind.mp hw
    obtain ⟨_, t₆, hresult, hw⟩ := writes_bind.mp hw
    obtain rfl := writes_modify.mp hresult
    obtain ⟨before, t₇, hbefore, hw⟩ := writes_bind.mp hw
    obtain ⟨results, t₈, hdeclared, hw⟩ := writes_bind.mp hw
    obtain ⟨written, t₉, hwritten, hw⟩ := writes_bind.mp hw
    have hentered := (steady_routineShell _).keepsLoops _ _ _ _ hshell
    rw [keepsLoops_declareParams _ _ _ _ _ _ hdeclare] at hentered
    have hloops := (keepsLoops_declareResults _ _ _ _ _ hdeclared).trans
      ((steady_preamble _).keepsLoops _ _ _ _ hbefore)
    obtain ⟨start, code, isUnchecked⟩ := inner
    obtain ⟨-, hinside⟩ := inside_writtenAll code hwritten
    rw [hloops.trans hentered] at hinside
    have hcode : Inside none (before ++ results ++ written) :=
      Inside.append (Inside.append (inside_steps (yields_preamble _ _ _ _ _ hbefore))
        (inside_steps (yields_declareResults _ _ _ _ _ hdeclared))) hinside
    split at hw
    · next hreturns =>
        obtain ⟨rfl, -⟩ := writes_pure.mp hw
        exact ends_of_inside rfl hcode (.inr ⟨rfl, fun W fuel =>
          quits_append _ (quits_writtenAll code hreturns hwritten W fuel)⟩)
    · obtain ⟨x, t', -, hw⟩ := writes_bind.mp hw
      obtain ⟨rfl, -⟩ := writes_pure.mp hw
      exact ends_of_inside rfl hcode (.inl ⟨x, rfl⟩)
  · exact absurd hw not_writes_throw

theorem ends_classInit {c : Contract} {r : Routine} {g : Rust.Function} (hw : Writes (classInit c r) E s g s') : Ends g := by
  rw [classInit_eq] at hw
  obtain ⟨_, t₁, henter, hw⟩ := writes_bind.mp hw
  obtain rfl := writes_modify.mp henter
  obtain ⟨code, t₂, hcode, hw⟩ := writes_bind.mp hw
  obtain ⟨-, rfl⟩ := (stateless_constructorCode c).unique hcode hcode
  obtain ⟨_, t₃, hmutated, hw⟩ := writes_bind.mp hw
  obtain rfl := writes_modify.mp hmutated
  obtain ⟨declared, t₄, hdeclare, hw⟩ := writes_bind.mp hw
  obtain ⟨shell, t₅, hshell, hw⟩ := writes_bind.mp hw
  obtain ⟨written, t₆, hwritten, hw⟩ := writes_bind.mp hw
  obtain ⟨before, t₇, hbefore, hw⟩ := writes_bind.mp hw
  obtain ⟨rfl, -⟩ := writes_pure.mp hw
  have hloops := (steady_routineShell _).keepsLoops _ _ _ _ hshell
  rw [keepsLoops_declareParams _ _ _ _ _ _ hdeclare] at hloops
  obtain ⟨-, hinside⟩ := inside_writtenAll _ hwritten
  rw [hloops] at hinside
  refine ends_of_inside rfl (Inside.append (inside_steps (yields_preamble _ _ _ _ _ hbefore)) hinside) ?_
  split
  · next hreturns => exact .inr ⟨rfl, fun W fuel => quits_append _ (quits_writtenAll _ hreturns hwritten W fuel)⟩
  · exact .inl ⟨_, rfl⟩

theorem ends_classInits {routines : List (Contract × Routine)} {gs : List Rust.Function}
    (hw : Writes (classInits routines) E s gs s') : ∀ g ∈ gs, Ends g := by
  induction routines generalizing s gs with
  | nil =>
      obtain ⟨rfl, rfl⟩ := writes_pure.mp hw
      simp
  | cons cr routines ih =>
      rw [classInits] at hw
      obtain ⟨g, s₁, hg, hw⟩ := writes_bind.mp hw
      obtain ⟨more, s₂, hmore, hw⟩ := writes_bind.mp hw
      obtain ⟨rfl, rfl⟩ := writes_pure.mp hw
      exact List.forall_mem_cons.mpr ⟨ends_classInit hg, ih hmore⟩

-- The arguments of base constructors are bound by steps, and so are the calls of the initializers.

theorem yields_bindArgs (base : String) (i : Nat) (params : List Param) (args : List Expr) :
    Yields (bindArgs base i params args) := by
  induction params generalizing i args with
  | nil => exact yields_pure ⟨by simp [Shaped.plain], trivial⟩
  | cons p params ih =>
      cases args with
      | nil => exact yields_pure ⟨by simp [Shaped.plain], trivial⟩
      | cons arg args =>
          rw [bindArgs]
          refine yields_last fun x => yields_bind (ih (i + 1) args) fun more hmore => yields_pure ⟨?_, trivial⟩
          exact List.forall_mem_cons.mpr ⟨rfl, hmore.1⟩

theorem yields_inScope {α : Type} [Shaped α] {act : Emit α} (h : Yields act) : Yields (inScope act) :=
  yields_last fun _ => yields_bind h fun _ hx => yields_last fun _ => yields_pure hx

theorem yields_bindBaseArgs (calls : List BaseCall) (bound : List BoundArg) (classes : List Contract) :
    Yields (bindBaseArgs calls bound classes) := by
  induction classes generalizing bound with
  | nil => exact yields_pure ⟨by simp [Shaped.plain], trivial⟩
  | cons c rest ih =>
      rw [bindBaseArgs]
      dsimp only
      split
      · split
        · exact yields_throw_bind _ _
        · exact ih bound
      · exact ih bound
      · split
        · exact ih bound
        · split
          · exact yields_last fun env => yields_throw _
          · split
            · exact yields_throw_bind _ _
            · refine yields_bind (yields_inScope (yields_last fun _ => yields_bindArgs _ _ _ _)) fun first hfirst => yields_bind (ih _) fun later hlater => ?_
              exact yields_pure ⟨List.forall_mem_append.mpr ⟨hfirst.1, hlater.1⟩, trivial⟩

theorem yields_initCalls (main : Contract) (bound : List BoundArg) (caller : Bool) (classes : List Contract) :
    Yields (initCalls main bound caller classes) := by
  induction classes with
  | nil => exact yields_pure ⟨by simp [Shaped.plain], trivial⟩
  | cons c rest ih =>
      rw [initCalls]
      refine yields_last fun r => yields_last fun x => yields_bind ih fun more hmore => yields_pure ⟨?_, trivial⟩
      exact List.forall_mem_cons.mpr ⟨rfl, hmore.1⟩

theorem isEntry_constructors {init : Option Routine} {gs : List Rust.Function}
    (hw : Writes (constructors init) E s gs s') : ∀ g ∈ gs, IsEntry E.target g := by
  unfold constructors at hw
  rw [writes_of_target] at hw
  cases ht : E.target with
  | ink version =>
      rw [ht] at hw
      obtain ⟨env, s₁, -, hw⟩ := writes_bind.mp hw
      dsimp only at hw
      cases init with
      | none =>
          obtain ⟨rfl, -⟩ := writes_pure.mp hw
          exact List.forall_mem_singleton.mpr ⟨rfl, _, rfl, .inl rfl⟩
      | some r =>
          obtain ⟨rfl, -⟩ := writes_pure.mp hw
          exact List.forall_mem_singleton.mpr ⟨rfl, _, rfl, .inr rfl⟩
  | soroban =>
      rw [ht] at hw
      cases init with
      | none =>
          obtain ⟨rfl, -⟩ := writes_pure.mp hw
          simp
      | some r =>
          simp only [Soroban.constructors] at hw
          obtain ⟨_, s₁, -, hw⟩ := writes_bind.mp hw
          obtain ⟨_, s₂, -, hw⟩ := writes_bind.mp hw
          split at hw
          · obtain ⟨_, s₃, -, hw⟩ := writes_bind.mp hw
            obtain ⟨rfl, -⟩ := writes_pure.mp hw
            exact List.forall_mem_singleton.mpr ⟨rfl, _, rfl, rfl, rfl⟩
          · obtain ⟨rfl, -⟩ := writes_pure.mp hw
            exact List.forall_mem_singleton.mpr ⟨rfl, _, rfl, rfl, rfl⟩

theorem ends_deployment {written : List Rust.Function × List Rust.Function} (hw : Writes deployment E s written s') :
    (∀ g ∈ written.1, IsEntry E.target g) ∧ ∀ g ∈ written.2, Ends g := by
  unfold deployment at hw
  obtain ⟨env, s₁, henv, hw⟩ := writes_bind.mp hw
  obtain ⟨rfl, rfl⟩ := writes_read.mp henv
  dsimp only at hw
  split at hw
  · obtain ⟨gs, s₂, hgs, hw⟩ := writes_bind.mp hw
    obtain ⟨rfl, -⟩ := writes_pure.mp hw
    exact ⟨isEntry_constructors hgs, by simp⟩
  · obtain ⟨rparams, s₂, -, hw⟩ := writes_bind.mp hw
    obtain ⟨_, s₃, -, hw⟩ := writes_bind.mp hw
    obtain ⟨_, s₄, -, hw⟩ := writes_bind.mp hw
    obtain ⟨⟨binds, bound⟩, s₅, hbinds, hw⟩ := writes_bind.mp hw
    obtain ⟨⟨runs, routines⟩, s₆, hruns, hw⟩ := writes_bind.mp hw
    obtain ⟨shell, s₇, hshell, hw⟩ := writes_bind.mp hw
    obtain ⟨inits, s₈, hinits, hw⟩ := writes_bind.mp hw
    obtain ⟨gs, s₉, hgs, hw⟩ := writes_bind.mp hw
    obtain ⟨rfl, -⟩ := writes_pure.mp hw
    refine ⟨isEntry_constructors hgs, List.forall_mem_cons.mpr ⟨?_, ends_classInits hinits⟩⟩
    have hsteps : Shaped.plain (binds ++ runs) := List.forall_mem_append.mpr
      ⟨(yields_bindBaseArgs _ _ _ _ _ _ _ hbinds).1, (yields_initCalls _ _ _ _ _ _ _ _ hruns).1⟩
    exact ends_of_inside rfl (inside_steps hsteps) (.inl ⟨_, rfl⟩)

theorem ends_dispatched {fs : List Function} {written : List Rust.Function × List Rust.Function}
    (hw : Writes (dispatched fs) E s written s') : ∀ g ∈ written.1 ++ written.2, Ends g := by
  induction fs generalizing s s' written with
  | nil =>
      obtain ⟨rfl, -⟩ := writes_pure.mp hw
      simp
  | cons f rest ih =>
      rw [dispatched] at hw
      obtain ⟨r, s₁, -, hw⟩ := writes_bind.mp hw
      obtain ⟨g, s₂, hg, hw⟩ := writes_bind.mp hw
      obtain ⟨⟨entries, helpers⟩, s₃, hmore, hw⟩ := writes_bind.mp hw
      obtain ⟨rfl, -⟩ := writes_pure.mp hw
      obtain ⟨hentries, hhelpers⟩ := List.forall_mem_append.mp (ih hmore)
      split
      · exact List.forall_mem_append.mpr ⟨List.forall_mem_cons.mpr ⟨ends_function hg, hentries⟩, hhelpers⟩
      · exact List.forall_mem_append.mpr ⟨hentries, List.forall_mem_cons.mpr ⟨ends_function hg, hhelpers⟩⟩

theorem ends_drainHelpers {count : Nat} {gs : List Rust.Function} (hw : Writes (drainHelpers count) E s gs s') :
    ∀ g ∈ gs, Ends g := by
  induction count generalizing s s' gs with
  | zero =>
      obtain ⟨rfl, -⟩ := writes_pure.mp hw
      simp
  | succ count ih =>
      rw [drainHelpers] at hw
      obtain ⟨next, s₁, -, hw⟩ := writes_bind.mp hw
      cases next with
      | none =>
          obtain ⟨rfl, -⟩ := writes_pure.mp hw
          simp
      | some h =>
          obtain ⟨g, s₂, hg, hw⟩ := writes_bind.mp hw
          obtain ⟨more, s₃, hmore, hw⟩ := writes_bind.mp hw
          obtain ⟨rfl, -⟩ := writes_pure.mp hw
          refine List.forall_mem_cons.mpr ⟨?_, ih hmore⟩
          unfold helper at hg
          dsimp only at hg
          split at hg
          all_goals
            obtain ⟨r, s₄, -, hg⟩ := writes_bind.mp hg
            exact ends_function hg

-- No run of a block that ends in a return goes to its end, whatever expressions mean, and so each function of a file
-- is left by a return or gives back a result at its end.
theorem endsInReturn_sound :
    (∀ b : Block, b.endsInReturn = true → ∀ {V σ : Type} (M : Run.Meaning V σ) (fuel : Nat)
      (back : Bool → Option Expr → Run.Code V σ) (hole : Bool → Run.Code V σ) (unchecked : Bool),
      (∀ u value, Quits (back u value)) → Quits (Run.execBlock M fuel back hole unchecked b)) ∧
    ∀ (p : Package) (c : Contract) (target : Target) (out : Rust.File), file p c target = .ok out →
      ∀ g ∈ out.methods, IsEntry target g ∨ Ends g := by
  refine ⟨fun b hb V σ M fuel back hole unchecked hback => Run.quits_block M fuel hole hback unchecked b hb, ?_⟩
  intro p c target out hfile g hg
  obtain ⟨s₁, deployed, inits, s₂, messages, internals, s₃, helpers, s₄, -, hdeployment, hdispatched, hhelpers, -, -, hmethods⟩ :=
    writes_contract (writes_of_file (E := ⟨p, c, target⟩) hfile)
  obtain ⟨hentries, hinits⟩ := ends_deployment hdeployment
  obtain ⟨hmessages, hinternals⟩ := List.forall_mem_append.mp (ends_dispatched hdispatched)
  have hhelpers := ends_drainHelpers hhelpers
  rw [hmethods] at hg
  simp only [List.mem_append] at hg
  rcases hg with (hg | hg) | (hg | hg) | hg
  · exact .inl (hentries g hg)
  · exact .inr (hmessages g hg)
  · exact .inr (hinits g hg)
  · exact .inr (hinternals g hg)
  · exact .inr (hhelpers g hg)

-- A block that reverts in one branch and returns in the other, behind a loop that is left; and a contract with a
-- function that ends in a return.
def refusing : Block :=
  let test : Expr := .bool {} true
  ⟨{}, [.whileLoop {} test ⟨{}, [.breakLoop {}], false⟩ false,
    .ifElse {} test ⟨{}, [.revert {} default []], false⟩ (some ⟨{}, [.returnValue {} (some test)], false⟩)], false⟩

theorem endsInReturn_sound_refusing :
    refusing.endsInReturn = true ∧
    (∀ {V σ : Type} (M : Run.Meaning V σ) (fuel : Nat) (values : List V),
      Quits (Run.execBlock M fuel (fun _ _ => leave (.returned values)) Run.noHole false refusing)) ∧
    ∃ out, file (Spelling.package "c") (Spelling.contract "c") .soroban = .ok out ∧
      ∀ g ∈ out.methods, IsEntry .soroban g ∨ Ends g := by
  obtain ⟨out, hfile⟩ := Spelling.file_copying "c" (.inl rfl) .soroban (.inr rfl)
  refine ⟨rfl, fun M fuel values => ?_, out, hfile, endsInReturn_sound.2 _ _ _ out hfile⟩
  exact endsInReturn_sound.1 refusing rfl M fuel _ _ false fun _ _ => quits_leave _

end Emit

end RustContracts
