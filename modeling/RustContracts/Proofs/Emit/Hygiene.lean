import Mathlib.Data.List.Forall2
import RustContracts.Emit.Modifier
import RustContracts.Proofs.Emit.Writes
import RustContracts.Proofs.Program.Nested

-- A body and its modifiers written into one block run as the modifiers do one inside the other, where no name
-- of a modifier is used inside it.
namespace RustContracts.Emit

open Program RustContracts.Flow
open Program.Run (Stack Meaning Code Guard exec execBlock execElse execHead execAll noHole)

variable {V σ : Type}

section Filled

variable (M : Meaning V σ) (fuel : Nat) (back : Bool → Option Expr → Code V σ) (body : Block)

mutual

-- The body in place of the placeholder runs where the placeholder would.
theorem exec_fillStmt (u : Bool) : ∀ s : Stmt,
    exec M fuel back noHole u (fillStmt body s) =
      exec M fuel back (fun u => execBlock M fuel back noHole u body) u s
  | .placeholder _ => by rw [fillStmt, exec, exec]
  | .block b => by rw [fillStmt, exec, exec, execBlock_fillBlock u b]
  | .ifElse p c t none => by rw [fillStmt, exec, exec, execBlock_fillBlock u t, execElse, execElse]
  | .ifElse p c t (some e) => by
      rw [fillStmt, exec, exec, execBlock_fillBlock u t, execElse, execElse, execBlock_fillBlock u e]
  | .whileLoop p c b false => by rw [fillStmt, exec, exec, execBlock_fillBlock u b]
  | .whileLoop p c b true => by rw [fillStmt, exec, exec, execBlock_fillBlock u b]
  | .forLoop p i c s b => by rw [fillStmt, exec, exec, execBlock_fillBlock u b]
  | .decl _ _ _ | .assign _ _ _ | .expr _ _ | .emit _ _ _ | .returnValue _ _ | .require _ _ _
  | .revert _ _ _ | .breakLoop _ | .continueLoop _ => by
      simp only [fillStmt, exec]

theorem execBlock_fillBlock (u : Bool) : ∀ b : Block,
    execBlock M fuel back noHole u (fillBlock body b) =
      execBlock M fuel back (fun u => execBlock M fuel back noHole u body) u b
  | ⟨_, stmts, isUnchecked⟩ => by
      rw [fillBlock, execBlock, execBlock, execAll_fillStmts (u || isUnchecked) stmts]

theorem execAll_fillStmts (u : Bool) : ∀ code : List Stmt,
    execAll M fuel back noHole u (fillStmts body code) =
      execAll M fuel back (fun u => execBlock M fuel back noHole u body) u code
  | [] => by rw [fillStmts, execAll, execAll]
  | s :: rest => by rw [fillStmts, execAll, execAll, exec_fillStmt u s, execAll_fillStmts u rest]

end

end Filled

-- A body with modifiers in one block.
def inlined (body : Block) : List Guard → Block
  | [] => body
  | g :: rest => { start := {}, stmts := g.decls ++ fillStmts (inlined body rest) g.code }

-- The modifier that a call names has one implementation with a body, and takes as many arguments.
def Resolves (E : Env) (call : ModifierCall) (g : Guard) : Prop :=
  ∃ modifier code,
    (((E.contract.modifier? call.name).map fun m => m.implementations).getD []).filterMap
      (fun i => i.body.map fun b => (i, b)) = [(modifier, code)] ∧
    call.args.length = modifier.params.length ∧
    g = ⟨modifier.params.zip call.args, code.stmts⟩

theorem writes_modifierBody {E : Env} {s : State} {call : ModifierCall} {found : Implementation × Block}
    (h : (((E.contract.modifier? call.name).map fun m => m.implementations).getD []).filterMap
      (fun i => i.body.map fun b => (i, b)) = [found]) : Writes (modifierBody call) E s found s := by
  refine writes_bind.mpr ⟨E, s, writes_read.mpr ⟨rfl, rfl⟩, ?_⟩
  simp only [h]
  exact writes_pure.mpr ⟨rfl, rfl⟩

theorem writes_guardWith {E : Env} {s : State} {call : ModifierCall} {g : Guard} (h : Resolves E call g)
    (body : Block) :
    Writes (guardWith call body) E s { start := {}, stmts := g.decls ++ fillStmts body g.code } s := by
  obtain ⟨modifier, code, hfound, hlength, rfl⟩ := h
  refine writes_bind.mpr ⟨_, s, writes_modifierBody hfound, ?_⟩
  simp only [hlength, bne_self_eq_false, Bool.false_eq_true, if_false]
  exact writes_pure.mpr ⟨rfl, rfl⟩

theorem writes_guarded {E : Env} {s : State} (body : Block) {calls : List ModifierCall}
    {guards : List Guard} (h : List.Forall₂ (Resolves E) calls guards) :
    Writes (guarded body calls) E s (inlined body guards) s := by
  induction h with
  | nil => exact writes_pure.mpr ⟨rfl, rfl⟩
  | cons hcall _ ih => exact writes_bind.mpr ⟨_, s, ih, writes_guardWith hcall _⟩

section Runs

open Program.Run

variable {M : Meaning V σ} {fuel : Nat} {O : Stack V} {k : Nat} {body : Block} {guards : List Guard}

theorem execAll_append (back : Bool → Option Expr → Code V σ) (hole : Bool → Code V σ) (u : Bool)
    (a b : List Stmt) :
    execAll M fuel back hole u (a ++ b) =
      seq (execAll M fuel back hole u a) (execAll M fuel back hole u b) := by
  induction a with
  | nil => rw [List.nil_append, execAll]; rfl
  | cons s a ih => rw [List.cons_append, execAll, ih, execAll, seq_assoc]

theorem execAll_inlined (back : Bool → Option Expr → Code V σ) (g : Guard) (rest : List Guard) :
    execAll M fuel back noHole false (inlined body (g :: rest)).stmts =
      seq (execAll M fuel back noHole false g.decls)
        (execAll M fuel back (fun u => execBlock M fuel back noHole u (inlined body rest)) false g.code) := by
  rw [inlined, execAll_append, execAll_fillStmts]

-- Inside a guarded body, with the variables of the modifiers around it in between.
theorem runs_inlined (back : Bool → Option Expr → Code V σ) (hapart : Apart body guards)
    (hused : ∀ n ∈ usedBy body guards, n ∉ O.names) :
    (between M O k).Runs [] [] (enclosed (nested M fuel body (fun _ _ => leave .cut) guards))
      (execBlock M fuel back noHole false (inlined body guards)) := by
  induction guards generalizing O with
  | nil => exact runs_body hused
  | cons g rest ih =>
      obtain ⟨hbound, hscopes, hapart⟩ := hapart
      obtain ⟨hargs, hused⟩ := List.forall_mem_append.mp hused
      have hflat : execBlock M fuel back noHole false (inlined body (g :: rest)) =
          enclosed (execAll M fuel back noHole false (inlined body (g :: rest)).stmts) := by
        rw [inlined, execBlock, Bool.false_or]
      rw [hflat, execAll_inlined, nested]
      refine runs_enclosed_of_covers ((runs_guard hbound ?_ (fun scope hscope P hP => ?_)
        fun _ _ _ _ _ => Ground.runs_of_lost rfl _).widen (fun _ _ h => ⟨_, h⟩) fun _ _ h => h)
      · exact fun b hb n hn => hargs n (List.mem_flatMap.mpr ⟨b, hb, hn⟩)
      -- what stands inside sees the variables of this modifier in between as well
      · refine ih hapart fun n hn => ?_
        rw [Stack.names_append, List.mem_append, not_or, hP]
        exact ⟨hscopes scope hscope n hn, hused n hn⟩

-- From the start of a function to its results.
theorem sim_nestedRun (M : Meaning V σ) (fuel : Nat) {results : List String} {g : Guard}
    (h : Hygienic results body (g :: guards)) (k : Nat) :
    Alike (between M [] k).same (Covers M [] k) (Covers M [] k)
      (nestedRun M fuel results body (g :: guards))
      (flatRun M fuel results (inlined body (g :: guards))) := by
  obtain ⟨⟨hbound, hscopes, hapart⟩, hresults⟩ := h
  have hend : ∀ scope ∈ g.endScopes, ∀ P : Stack V, P.names = scope → ∀ u,
      (between M (P ++ []) k).Runs [] [] (giveBack M results false none) (giveBack M results u none) := by
    refine fun scope hscope P hP u => runs_giveBack u fun n hn => ?_
    rw [List.append_nil, hP]
    exact hresults g rfl scope hscope n hn
  have hinner : ∀ scope ∈ g.bodyScopes, ∀ P : Stack V, P.names = scope →
      (between M (P ++ []) k).Runs [] [] (enclosed (nested M fuel body (fun _ _ => leave .cut) guards))
        (execBlock M fuel (giveBack M results) noHole false (inlined body guards)) := by
    refine fun scope hscope P hP => runs_inlined _ hapart fun n hn => ?_
    rw [List.append_nil, hP]
    exact hscopes scope hscope n hn
  have hflat : flatRun M fuel results (inlined body (g :: guards)) =
      seq (execAll M fuel (giveBack M results) noHole false (inlined body (g :: guards)).stmts)
        (giveBack M results false none) := rfl
  rw [hflat, execAll_inlined, nestedRun, nested]
  refine .seq (runs_guard hbound (fun _ _ _ _ => List.not_mem_nil) hinner hend) fun x y ⟨P, hP, hsame⟩ => ?_
  have hcovers : ∀ x y, (between M (P ++ []) k).At [] x y → Covers M [] k x y :=
    fun _ _ h => ⟨_, P, hP, Ground.at_nil.mp h⟩
  exact (hend _ List.mem_cons_self P hP false).widen hcovers hcovers x y
    (Ground.at_nil.mpr hsame)

theorem giveBack_none (results : List String) (x : Stack V × σ) :
    ∃ e, giveBack M results false none x = (some e, x) := by
  cases hx : x.1.reads results with
  | none => exact ⟨.stuck, by simp [giveBack, given, hx]⟩
  | some vs => exact ⟨.returned vs, by simp [giveBack, given, leave, hx]⟩

-- A function comes to an end, with its results or for another reason.
theorem nestedRun_ends (M : Meaning V σ) (fuel : Nat) (results : List String) (body : Block)
    (guards : List Guard) (x : Stack V × σ) :
    ∃ e x', nestedRun M fuel results body guards x = (some e, x') := by
  rcases hx : nested M fuel body (giveBack M results) guards x with ⟨_ | e, x'⟩
  · obtain ⟨e, he⟩ := giveBack_none (M := M) results x'
    exact ⟨e, x', by simp [nestedRun, seq, hx, he]⟩
  · exact ⟨e, x', by simp [nestedRun, seq, hx]⟩

end Runs

open Program.Run (Hygienic nestedRun flatRun)

theorem modifiers_hygienic {E : Env} {body : Block} {calls : List ModifierCall} {guards : List Guard}
    {results : List String} (hcalls : List.Forall₂ (Resolves E) calls guards)
    (h : Hygienic results body guards) (s : State) :
    ∃ block, Writes (guarded body calls) E s block s ∧
      ∀ {V σ : Type} (M : Meaning V σ) (fuel : Nat) (x : Stack V × σ), ∃ e x',
        nestedRun M fuel results body guards x = (some e, x') ∧
        (e.isLost = false →
          ∃ top, flatRun M fuel results block x = (some e, (top ++ x'.1, x'.2))) := by
  refine ⟨_, writes_guarded body hcalls, fun M fuel x => ?_⟩
  obtain ⟨e, x', hx⟩ := nestedRun_ends M fuel results body guards x
  refine ⟨e, x', hx, fun he => ?_⟩
  cases guards with
  | nil => exact ⟨[], hx⟩
  | cons g rest =>
      have hsim := sim_nestedRun M fuel h x.1.length x x ⟨rfl, rfl⟩
      rw [hx] at hsim
      rcases hsim with hlost | ⟨y', hy, D, P, -, -, rfl⟩
      · rw [he] at hlost
        cases hlost
      · exact ⟨P ++ [], hy⟩

namespace Capture

-- Numbers that are compared, declared and assigned.
def numbers : Meaning Nat Unit where
  test _ c vs w :=
    match c, vs with
    | .binary _ .gt _ (.int _ n) _, [v] => (some (n < v), w)
    | _, _ => (none, w)
  values _ _ vs w := (some vs, w)
  step _ s vs w :=
    match s, vs with
    | .decl _ _ (.int _ n), [] => (some fun _ => n, w)
    | .decl _ _ (.var _ _ _), [v] => (some fun _ => v, w)
    | .assign _ (.var _ _ _) (.var _ _ _), [_, v] => (some fun _ => v, w)
    | _, _ => (none, w)

def number (name : String) : Expr := .var {} name .uint256

def above (name : String) (n : Nat) : Expr := .binary {} .gt (number name) (.int {} n) .bool

-- `y = x` in a function with the parameter `x` and the result `y`
def body : Block := { start := {}, stmts := [.assign {} (number "y") (number "x")] }

def start : Stack Nat × Unit := ([("y", 0), ("x", 5)], ())

def modifier (name : String) (params : List Param) (code : List Stmt) : Function :=
  { name := name, sourceName := name, kind := .modifier
    implementations :=
      [{ owner := "C", params := params, body := some { start := {}, stmts := code }, start := {} }] }

def env (modifiers : List Function) : Env :=
  { package := { name := "sample", classes := [] }
    contract := { (default : Contract) with modifierTable := modifiers }
    target := .ink .v5 }

-- Two modifiers, one that may leave out the body and one that runs it twice behind a variable of its own.

def passes : List Stmt :=
  [.require {} (above "low" 0) default,
    .ifElse {} (above "low" 1) { start := {}, stmts := [.placeholder {}] } none]

def twice : List Stmt := [.decl {} [⟨"first", .uint256⟩] (.int {} 1), .placeholder {}, .placeholder {}]

def apartCalls : List ModifierCall := [⟨"passes", [number "x"], {}⟩, ⟨"twice", [], {}⟩]

def apartGuards : List Guard := [⟨[(⟨"low", .uint256⟩, number "x")], passes⟩, ⟨[], twice⟩]

def apartEnv : Env := env [modifier "passes" [⟨"low", .uint256⟩] passes, modifier "twice" [] twice]

theorem resolves_apartCalls : List.Forall₂ (Resolves apartEnv) apartCalls apartGuards :=
  .cons ⟨_, _, rfl, rfl, rfl⟩ (.cons ⟨_, _, rfl, rfl, rfl⟩ .nil)

theorem hygienic_apartGuards : Hygienic ["y"] body apartGuards := by
  refine ⟨⟨?_, ?_, ?_, ?_, trivial⟩, ?_⟩
  · decide
  · decide
  · decide
  · decide
  · intro g hg
    cases hg
    decide

theorem apart_names_kept :
    ∃ block top, Writes (guarded body apartCalls) apartEnv {} block {} ∧
      flatRun numbers 0 ["y"] block start = (some (.returned [5]), (top ++ [("y", 5), ("x", 5)], ())) := by
  obtain ⟨block, hw, hruns⟩ := modifiers_hygienic resolves_apartCalls hygienic_apartGuards {}
  obtain ⟨e, x', hx, hflat⟩ := hruns numbers 0 start
  have hnested : nestedRun numbers 0 ["y"] body apartGuards start =
      (some (.returned [5]), ([("y", 5), ("x", 5)], ())) := rfl
  cases hx.symm.trans hnested
  obtain ⟨top, htop⟩ := hflat rfl
  exact ⟨block, top, hw, htop⟩

-- The parameter of the modifier has the name of the function's.

def checked : List Stmt := [.require {} (above "x" 0) default, .placeholder {}]

theorem parameter_captures :
    ∃ block, Writes (guarded body [⟨"checked", [.int {} 1], {}⟩])
        (env [modifier "checked" [⟨"x", .uint256⟩] checked]) {} block {} ∧
      nestedRun numbers 0 ["y"] body [⟨[(⟨"x", .uint256⟩, .int {} 1)], checked⟩] start =
        (some (.returned [5]), ([("y", 5), ("x", 5)], ())) ∧
      flatRun numbers 0 ["y"] block start =
        (some (.returned [1]), ([("x", 1), ("y", 1), ("x", 5)], ())) := by
  have hcalls : List.Forall₂ (Resolves (env [modifier "checked" [⟨"x", .uint256⟩] checked]))
      [⟨"checked", [.int {} 1], {}⟩] [⟨[(⟨"x", .uint256⟩, .int {} 1)], checked⟩] :=
    .cons ⟨_, _, rfl, rfl, rfl⟩ .nil
  exact ⟨_, writes_guarded body hcalls, rfl, rfl⟩

end Capture

end RustContracts.Emit
