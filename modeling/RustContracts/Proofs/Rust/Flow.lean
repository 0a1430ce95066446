import RustContracts.Rust.Tree

-- Control flow by itself: in which order code makes its steps and tests, whatever these mean.
namespace RustContracts

namespace Flow

-- A run goes to its end or leaves early for a reason.
abbrev Act (ε σ : Type) := σ → Option ε × σ

variable {ε δ σ : Type}

def skip : Act ε σ := fun x => (none, x)

def leave (e : ε) : Act ε σ := fun x => (some e, x)

def seq (a b : Act ε σ) : Act ε σ := fun x =>
  match a x with
  | (none, y) => b y
  | (some e, y) => (some e, y)

-- A test that has no answer stops the run.
def branch (stopped : ε) (test : σ → Option Bool × σ) (a b : Act ε σ) : Act ε σ := fun x =>
  match test x with
  | (some true, y) => a y
  | (some false, y) => b y
  | (none, y) => (some stopped, y)

-- Goes on behind an act that is left for some reasons.
def catching (caught : ε → Bool) (a : Act ε σ) : Act ε σ := fun x =>
  match a x with
  | (none, y) => (none, y)
  | (some e, y) => if caught e then (none, y) else (some e, y)

-- Turns of a loop, a bounded number of them. Some reasons lead to the next turn, some behind the loop.
def turns (resumes leaves : ε → Bool) (outOfFuel : ε) (turn : Act ε σ) : Nat → Act ε σ
  | 0 => leave outOfFuel
  | n + 1 => fun x =>
    match turn x with
    | (none, y) => turns resumes leaves outOfFuel turn n y
    | (some e, y) =>
      if resumes e then turns resumes leaves outOfFuel turn n y
      else if leaves e then (none, y)
      else (some e, y)

-- The same act with other names for the reasons.
def mapExit (f : ε → δ) (a : Act ε σ) : Act δ σ := fun x => ((a x).1.map f, (a x).2)

theorem seq_skip (a : Act ε σ) : seq a skip = a := by
  funext x
  rcases h : a x with ⟨_ | e, y⟩
  · simp [seq, skip, h]
  · simp [seq, h]

theorem seq_assoc (a b c : Act ε σ) : seq (seq a b) c = seq a (seq b c) := by
  funext x
  rcases h : a x with ⟨_ | e, y⟩
  · simp [seq, h]
  · simp [seq, h]

@[simp] theorem mapExit_skip (f : ε → δ) : mapExit f (skip : Act ε σ) = skip := rfl

@[simp] theorem mapExit_leave (f : ε → δ) (e : ε) : mapExit f (leave e : Act ε σ) = leave (f e) := rfl

@[simp] theorem mapExit_seq (f : ε → δ) (a b : Act ε σ) :
    mapExit f (seq a b) = seq (mapExit f a) (mapExit f b) := by
  funext x
  rcases h : a x with ⟨_ | e, y⟩
  · simp [mapExit, seq, h]
  · simp [mapExit, seq, h]

@[simp] theorem mapExit_branch (f : ε → δ) (stopped : ε) (test : σ → Option Bool × σ) (a b : Act ε σ) :
    mapExit f (branch stopped test a b) = branch (f stopped) test (mapExit f a) (mapExit f b) := by
  funext x
  rcases h : test x with ⟨_ | answer, y⟩
  · simp [mapExit, branch, h]
  · cases answer <;> simp [mapExit, branch, h]

-- Two names for the reasons for which an act is really left.
theorem mapExit_congr {f g : ε → δ} {a : Act ε σ} (h : ∀ x e y, a x = (some e, y) → f e = g e) :
    mapExit f a = mapExit g a := by
  funext x
  rcases hx : a x with ⟨_ | e, y⟩
  · simp [mapExit, hx]
  · simp [mapExit, hx, h x e y hx]

theorem catching_mapExit {f : ε → δ} {caught : ε → Bool} {caught' : δ → Bool}
    (h : ∀ e, caught' (f e) = caught e) (a : Act ε σ) :
    catching caught' (mapExit f a) = mapExit f (catching caught a) := by
  funext x
  rcases hx : a x with ⟨_ | e, y⟩
  · simp [mapExit, catching, hx]
  · by_cases he : caught e <;> simp [mapExit, catching, hx, h, he]

-- A loop with its reasons named anew. Inside the names may differ from those outside for the reasons that
-- the loop takes for itself.
theorem turns_mapExit {f g : ε → δ} {resumes leaves : ε → Bool} {resumes' leaves' : δ → Bool}
    {outOfFuel : ε} {turn : Act ε σ}
    (hresumes : ∀ x e y, turn x = (some e, y) → resumes' (g e) = resumes e)
    (hleaves : ∀ x e y, turn x = (some e, y) → leaves' (g e) = leaves e)
    (hothers : ∀ e, resumes e = false → leaves e = false → g e = f e) (n : Nat) :
    turns resumes' leaves' (f outOfFuel) (mapExit g turn) n =
      mapExit f (turns resumes leaves outOfFuel turn n) := by
  induction n with
  | zero => rfl
  | succ n ih =>
      funext x
      rcases hx : turn x with ⟨_ | e, y⟩
      · simp [turns, mapExit, hx, ih]
      · have hr := hresumes x e y hx
        have hl := hleaves x e y hx
        by_cases h : resumes e
        · simp [turns, mapExit, hx, hr, h, ih]
        · by_cases h' : leaves e
          · simp [turns, mapExit, hx, hr, hl, h, h']
          · have ho := hothers e (by simpa using h) (by simpa using h')
            simp [turns, mapExit, hx, hr, hl, h, h', ← ho]

-- What leads to the next turn need not be caught before.
theorem turns_catching {resumes leaves : ε → Bool} {outOfFuel : ε} (turn : Act ε σ) (n : Nat) :
    turns resumes leaves outOfFuel (catching resumes turn) n =
      turns resumes leaves outOfFuel turn n := by
  induction n with
  | zero => rfl
  | succ n ih =>
      funext x
      rcases hx : turn x with ⟨_ | e, y⟩
      · simp [turns, catching, hx, ih]
      · by_cases h : resumes e <;> simp [turns, catching, hx, h, ih]

section Sim

variable {ε δ σ τ : Type} {bad : ε → Prop} {pre mid post out : σ → τ → Prop}

-- From states related by `pre` the second act does what the first does, unless that is left for a bad reason:
-- both go to the end with states related by `post` or are left for one reason with states related by `out`.
def Sim (bad : ε → Prop) (pre post out : σ → τ → Prop) (a : Act ε σ) (b : Act ε τ) : Prop :=
  ∀ x y, pre x y →
    match a x with
    | (none, x') => ∃ y', b y = (none, y') ∧ post x' y'
    | (some e, x') => bad e ∨ ∃ y', b y = (some e, y') ∧ out x' y'

namespace Sim

theorem skip (h : ∀ x y, pre x y → post x y) : Sim bad pre post out Flow.skip Flow.skip :=
  fun x y hpre => ⟨y, rfl, h x y hpre⟩

theorem leave (e : ε) (h : ∀ x y, pre x y → out x y) :
    Sim bad pre post out (Flow.leave e) (Flow.leave e) :=
  fun x y hpre => .inr ⟨y, rfl, h x y hpre⟩

theorem mono {pre' post' out' : σ → τ → Prop} {a : Act ε σ} {b : Act ε τ} (h : Sim bad pre post out a b)
    (hpre : ∀ x y, pre' x y → pre x y) (hpost : ∀ x y, post x y → post' x y)
    (hout : ∀ x y, out x y → out' x y) : Sim bad pre' post' out' a b := by
  intro x y hxy
  have hab := h x y (hpre x y hxy)
  rcases hx : a x with ⟨_ | e, x'⟩ <;> rw [hx] at hab
  · obtain ⟨y', hy, hxy'⟩ := hab
    exact ⟨y', hy, hpost x' y' hxy'⟩
  · exact hab.imp_right fun ⟨y', hy, hxy'⟩ => ⟨y', hy, hout x' y' hxy'⟩

theorem widen {post' out' : σ → τ → Prop} {a : Act ε σ} {b : Act ε τ} (h : Sim bad pre post out a b)
    (hpost : ∀ x y, post x y → post' x y) (hout : ∀ x y, out x y → out' x y) :
    Sim bad pre post' out' a b :=
  h.mono (fun _ _ hxy => hxy) hpost hout

theorem seq {a a' : Act ε σ} {b b' : Act ε τ} (h : Sim bad pre mid out a b)
    (h' : Sim bad mid post out a' b') : Sim bad pre post out (seq a a') (seq b b') := by
  intro x y hxy
  have hab := h x y hxy
  rcases hx : a x with ⟨_ | e, x'⟩ <;> rw [hx] at hab
  · obtain ⟨y', hy, hxy'⟩ := hab
    simpa only [Flow.seq, hx, hy] using h' x' y' hxy'
  · simp only [Flow.seq, hx]
    refine hab.imp_right fun ⟨y', hy, hxy'⟩ => ⟨y', ?_, hxy'⟩
    rw [hy]

theorem catching {caught : ε → Bool} (hcaught : ∀ e, bad e → caught e = false) {a : Act ε σ} {b : Act ε τ}
    (h : Sim bad pre post post a b) : Sim bad pre post post (catching caught a) (catching caught b) := by
  intro x y hxy
  have hab := h x y hxy
  rcases hx : a x with ⟨_ | e, x'⟩ <;> rw [hx] at hab
  · obtain ⟨y', hy, hxy'⟩ := hab
    simp only [Flow.catching, hx, hy]
    exact ⟨y', rfl, hxy'⟩
  · rcases hab with hbad | ⟨y', hy, hxy'⟩
    · simp only [Flow.catching, hx, hcaught e hbad, Bool.false_eq_true, if_false]
      exact .inl hbad
    · cases he : caught e with
      | true => simp only [Flow.catching, hx, hy, he, if_true]; exact ⟨y', rfl, hxy'⟩
      | false =>
          simp only [Flow.catching, hx, hy, he, Bool.false_eq_true, if_false]
          exact .inr ⟨y', rfl, hxy'⟩

-- Bad reasons may be given to the first act.
theorem mapExit {f : ε → ε} (hf : ∀ e, f e = e ∨ bad (f e)) {a : Act ε σ} {b : Act ε τ}
    (h : Sim bad pre post out a b) : Sim bad pre post out (mapExit f a) b := by
  intro x y hxy
  have hab := h x y hxy
  rcases hx : a x with ⟨_ | e, x'⟩ <;> rw [hx] at hab
  · simpa only [Flow.mapExit, hx, Option.map_none] using hab
  · simp only [Flow.mapExit, hx, Option.map_some]
    rcases hf e with he | he
    · rwa [he]
    · exact .inl he

-- A loop keeps what each of its turns keeps.
theorem turns {resumes leaves : ε → Bool} {outOfFuel : ε} (hresumes : ∀ e, bad e → resumes e = false)
    (hleaves : ∀ e, bad e → leaves e = false) {a : Act ε σ} {b : Act ε τ} (h : Sim bad pre pre pre a b)
    (n : Nat) :
    Sim bad pre pre pre (turns resumes leaves outOfFuel a n) (turns resumes leaves outOfFuel b n) := by
  induction n with
  | zero => exact leave outOfFuel fun _ _ hxy => hxy
  | succ n ih =>
      intro x y hxy
      have hab := h x y hxy
      rcases hx : a x with ⟨_ | e, x'⟩ <;> rw [hx] at hab
      · obtain ⟨y', hy, hxy'⟩ := hab
        simpa only [Flow.turns, hx, hy] using ih x' y' hxy'
      · rcases hab with hbad | ⟨y', hy, hxy'⟩
        · simp only [Flow.turns, hx, hresumes e hbad, hleaves e hbad, Bool.false_eq_true, if_false]
          exact .inl hbad
        · cases hr : resumes e with
          | true => simpa only [Flow.turns, hx, hy, hr, if_true] using ih x' y' hxy'
          | false =>
              cases hl : leaves e with
              | true =>
                  simp only [Flow.turns, hx, hy, hr, hl, Bool.false_eq_true, if_false, if_true]
                  exact ⟨y', rfl, hxy'⟩
              | false =>
                  simp only [Flow.turns, hx, hy, hr, hl, Bool.false_eq_true, if_false]
                  exact .inr ⟨y', rfl, hxy'⟩

end Sim

end Sim

end Flow

namespace Rust

open RustContracts.Flow

-- What single steps and tests do. A step may stop the run, and a test may have no answer.
structure World (σ : Type) where
  step : Stmt → σ → Bool × σ
  test : Expr → σ → Option Bool × σ

namespace World

variable {ε σ : Type}

-- A condition; `!` turns the answer around.
def tests (W : World σ) : Expr → σ → Option Bool × σ
  | .unary op c =>
    if op = "!" then fun x => ((W.tests c x).1.map not, (W.tests c x).2)
    else W.test (.unary op c)
  | c => W.test c

def act (W : World σ) (stopped : ε) (s : Stmt) : Act ε σ := fun x =>
  match W.step s x with
  | (true, y) => (none, y)
  | (false, y) => (some stopped, y)

-- Steps one after the other.
def acts (W : World σ) (stopped : ε) : List Stmt → Act ε σ
  | [] => skip
  | s :: rest => seq (W.act stopped s) (W.acts stopped rest)

variable (W : World σ)

theorem mapExit_act {δ : Type} (f : ε → δ) (stopped : ε) (s : Stmt) :
    mapExit f (W.act stopped s) = W.act (f stopped) s := by
  funext x
  rcases h : W.step s x with ⟨goes, y⟩
  cases goes <;> simp [mapExit, act, h]

theorem mapExit_acts {δ : Type} (f : ε → δ) (stopped : ε) (code : List Stmt) :
    mapExit f (W.acts stopped code) = W.acts (f stopped) code := by
  induction code with
  | nil => rfl
  | cons s rest ih => simp [acts, ih, mapExit_act]

-- The branches of a condition that is turned around change places.
theorem branch_not (stopped : ε) (c : Expr) (a b : Act ε σ) :
    branch stopped (W.tests c.not) a b = branch stopped (W.tests c) b a := by
  funext x
  rcases h : W.tests c x with ⟨_ | answer, y⟩
  · simp [branch, Expr.not, tests, h]
  · cases answer <;> simp [branch, Expr.not, tests, h]

end World

-- Why code is left.
inductive Jump where
  -- labels are empty where none is written
  | broke (label : String)
  | continued (label : String)
  | returned (value : Option Expr)
  | stopped
  | outOfFuel

namespace Jump

-- Without a label a jump is one of the innermost loop.

def resumes (label : String) : Jump → Bool
  | continued l => l == "" || l == label
  | _ => false

def leaves (label : String) : Jump → Bool
  | broke l => l == "" || l == label
  | _ => false

-- A block is left only by naming it.
def names (label : String) : Jump → Bool
  | broke l => l == label
  | _ => false

end Jump

mutual

-- `if` and blocks without a value are control, every other expression is a step.
def Expr.flow {σ : Type} (W : World σ) (fuel : Nat) : Expr → Act Jump σ
  | .block ⟨stmts, none⟩ => flowAll W fuel stmts
  | .ifElse pattern c ⟨stmts, none⟩ none =>
    if pattern = "" then branch .stopped (W.tests c) (flowAll W fuel stmts) skip
    else W.act .stopped (.expr (.ifElse pattern c ⟨stmts, none⟩ none))
  | .ifElse pattern c ⟨stmts, none⟩ (some e) =>
    if pattern = "" then branch .stopped (W.tests c) (flowAll W fuel stmts) (e.flow W fuel)
    else W.act .stopped (.expr (.ifElse pattern c ⟨stmts, none⟩ (some e)))
  | x => W.act .stopped (.expr x)

-- `fuel` bounds how often each loop turns.
def Stmt.flow {σ : Type} (W : World σ) (fuel : Nat) : Stmt → Act Jump σ
  | .expr x => x.flow W fuel
  | .whileLoop label c ⟨stmts, _⟩ =>
    turns (Jump.resumes label) (Jump.leaves label) .outOfFuel
      (branch .stopped (W.tests c) (flowAll W fuel stmts) (leave (.broke label))) fuel
  | .loop label ⟨stmts, _⟩ =>
    turns (Jump.resumes label) (Jump.leaves label) .outOfFuel (flowAll W fuel stmts) fuel
  | .labeled label ⟨stmts, _⟩ => catching (Jump.names label) (flowAll W fuel stmts)
  | .breakLoop label => leave (.broke label)
  | .continueLoop label => leave (.continued label)
  | .returnValue value => leave (.returned value)
  | s => W.act .stopped s

def flowAll {σ : Type} (W : World σ) (fuel : Nat) : List Stmt → Act Jump σ
  | [] => skip
  | s :: rest => seq (s.flow W fuel) (flowAll W fuel rest)

end

attribute [local simp] Expr.flow Stmt.flow flowAll

end Rust

end RustContracts
