import RustContracts.Proofs.Emit.Leaving
import RustContracts.Proofs.Emit.Orderly
import RustContracts.Proofs.Resolve.Placed

-- Jumps and placeholders of the code that functions are written for. Modifiers with bodies in them leave no placeholder,
-- and every jump is written inside a loop; so no code is refused as misplaced.
namespace RustContracts.Emit

open Program

variable {E : Env} {s s' : State} {α β : Type}

section Steps

def OrderlyAt (E : Env) (s : State) (act : Emit α) : Prop :=
  ∀ stop, (outcome act E s).1 = .error stop → stop.Admissible E.package False

theorem Orderly.here {act : Emit α} (h : Orderly E False act) : OrderlyAt E s act := h s

theorem orderlyAt_bind {x : Emit α} {f : α → Emit β} (hx : OrderlyAt E s x)
    (hf : ∀ a s', Writes x E s a s' → OrderlyAt E s' (f a)) : OrderlyAt E s (x >>= f) := by
  intro stop h
  have hfirst := hx stop
  rw [outcome_bind] at h
  rcases ho : outcome x E s with ⟨r, s'⟩
  rw [ho] at h hfirst
  cases r with
  | error e =>
      cases h
      exact hfirst rfl
  | ok a => exact hf a s' ho stop h

-- A step that is orderly from a state, with results of which a property holds.
structure Delivers (E : Env) (s : State) (act : Emit α) (P : α → Prop) : Prop where
  orderly : OrderlyAt E s act
  result : ∀ {a s'}, Writes act E s a s' → P a

theorem delivers_pure {P : α → Prop} {a : α} (h : P a) : Delivers E s (pure a) P := by
  refine ⟨(orderly_pure a).here, fun hw => ?_⟩
  obtain ⟨rfl, -⟩ := writes_pure.mp hw
  exact h

theorem delivers_fault {P : α → Prop} {d : Diagnostic} (h : ¬d.IsMisplaced) :
    Delivers E s (throw (.fault d) : Emit α) P :=
  ⟨(orderly_fault h).here, fun hw => absurd hw not_writes_throw⟩

theorem delivers_bind {P : β → Prop} {x : Emit α} {f : α → Emit β} (hx : OrderlyAt E s x)
    (hf : ∀ a s', Writes x E s a s' → Delivers E s' (f a) P) : Delivers E s (x >>= f) P := by
  refine ⟨orderlyAt_bind hx fun a s' hw => (hf a s' hw).orderly, fun hw => ?_⟩
  obtain ⟨a, s₁, ha, hw⟩ := writes_bind.mp hw
  exact (hf a s₁ ha).result hw

theorem orderlyAt_inScope {act : Emit α} (hact : OrderlyAt E s.opened act) : OrderlyAt E s (inScope act) := by
  refine orderlyAt_bind (orderly_modify _).here fun _ s₁ hopen => ?_
  obtain rfl := writes_modify.mp hopen
  exact orderlyAt_bind hact fun a s₂ _ => (orderly_bind (orderly_modify _) fun _ => orderly_pure a).here

theorem orderlyAt_inLoop {resumes : Bool} {act : Emit α} (hact : OrderlyAt E (s.looped resumes) act) :
    OrderlyAt E s (inLoop resumes act) := by
  refine orderlyAt_bind orderly_frame.here fun fr s₁ hframe => ?_
  obtain ⟨rfl, rfl⟩ : s.frame = fr ∧ s = s₁ := by
    obtain ⟨t, s₂, hget, hw⟩ := writes_bind.mp hframe
    cases hget
    exact writes_pure.mp hw
  refine orderlyAt_bind (orderly_modify _).here fun _ s₂ hopen => ?_
  obtain rfl := writes_modify.mp hopen
  exact orderlyAt_bind hact fun a s₃ _ => (orderly_bind (orderly_modify _) fun _ => orderly_pure _).here

end Steps

-- Bodies inside modifiers.

section Filling

variable {body : Block} {inModifier : Bool}

mutual

-- Code whose placeholders give way to a body has no more placeholders than the body.
theorem placed_fillStmt (hbody : body.placed inModifier false = true) : ∀ (st : Stmt) {inLoop : Bool},
    st.placed true inLoop = true → (fillStmt body st).placed inModifier inLoop = true
  | .placeholder _, inLoop, _ => by
      rw [fillStmt, Stmt.placed]
      exact body.placed_mono id Bool.noConfusion hbody
  | .block b, inLoop, h => by
      rw [Stmt.placed] at h
      rw [fillStmt, Stmt.placed]
      exact placed_fillBlock hbody b h
  | .ifElse _ _ t none, inLoop, h => by
      rw [Stmt.placed] at h
      rw [fillStmt, Stmt.placed]
      exact placed_fillBlock hbody t h
  | .ifElse _ _ t (some e), inLoop, h => by
      rw [Stmt.placed, Bool.and_eq_true] at h
      rw [fillStmt, Stmt.placed, Bool.and_eq_true]
      exact ⟨placed_fillBlock hbody t h.1, placed_fillBlock hbody e h.2⟩
  | .whileLoop _ _ b _, inLoop, h => by
      rw [Stmt.placed] at h
      rw [fillStmt, Stmt.placed]
      exact placed_fillBlock hbody b h
  | .forLoop _ _ _ _ b, inLoop, h => by
      rw [Stmt.placed, Bool.and_eq_true] at h
      rw [fillStmt, Stmt.placed, Bool.and_eq_true]
      exact ⟨h.1, placed_fillBlock hbody b h.2⟩
  | .breakLoop _, inLoop, h | .continueLoop _, inLoop, h => by simpa [fillStmt, Stmt.placed] using h
  | .decl _ _ _, inLoop, _ | .assign _ _ _, inLoop, _ | .expr _ _, inLoop, _ | .returnValue _ _, inLoop, _
  | .require _ _ _, inLoop, _ | .revert _ _ _, inLoop, _ | .emit _ _ _, inLoop, _ => by simp [fillStmt, Stmt.placed]

theorem placed_fillBlock (hbody : body.placed inModifier false = true) : ∀ (b : Block) {inLoop : Bool},
    b.placed true inLoop = true → (fillBlock body b).placed inModifier inLoop = true
  | ⟨_, stmts, _⟩, inLoop, h => by
      rw [Block.placed] at h
      rw [fillBlock, Block.placed]
      exact placed_fillStmts hbody stmts h

theorem placed_fillStmts (hbody : body.placed inModifier false = true) : ∀ (sts : List Stmt) {inLoop : Bool},
    placedAll true inLoop sts = true → placedAll inModifier inLoop (fillStmts body sts) = true
  | [], inLoop, _ => by rw [fillStmts, placedAll]
  | st :: rest, inLoop, h => by
      rw [placedAll, Bool.and_eq_true] at h
      rw [fillStmts, placedAll, Bool.and_eq_true]
      exact ⟨placed_fillStmt hbody st h.1, placed_fillStmts hbody rest h.2⟩

end

end Filling

-- A contract all of whose code has its jumps and placeholders in place.
structure Env.Placed (E : Env) : Prop where
  declared : ∀ k ∈ E.package.classes, ∀ f ∈ k.constructor.toList ++ k.functions, ∀ i ∈ f.implementations, i.Placed false
  entries : ∀ f ∈ E.contract.dispatch, ∀ i ∈ f.implementations, i.Placed false
  modifiers : ∀ m ∈ E.contract.modifierTable, ∀ i ∈ m.implementations, i.Placed true

theorem placed_package {name : String} {unit : Solidity.SourceUnit} {p : Package} {c : Contract}
    (hp : Resolve.package name unit = .ok p) (hc : c ∈ p.classes) (target : Target) : Env.Placed ⟨p, c, target⟩ := by
  have hplaced := Resolve.package_placed hp
  have hgetter (field : FieldDecl) : (getter field).Has (Implementation.Placed false) := by
    intro i hi
    obtain rfl := List.mem_singleton.mp hi
    refine ⟨?_, rfl⟩
    rintro _ ⟨⟩
    simp [Block.placed, placedAll, Stmt.placed]
  refine ⟨fun k hk => (hplaced k hk).functions, fun f hf i hi => ?_, ?_⟩
  · have hcode : ∀ k ∈ p.classes, ∀ f ∈ k.functions, ∀ i ∈ f.implementations, i.Placed false :=
      fun k hk f hf => (hplaced k hk).functions f (List.mem_append_right _ hf)
    exact (functions_gathered hp hc hcode hgetter f hf i hi).1
  · exact modifiers_gathered hp hc fun k hk => (hplaced k hk).modifiers

theorem delivers_modifierBody (hE : E.Placed) (call : ModifierCall) :
    Delivers E s (modifierBody call) fun found => found.2.placed true false = true := by
  refine delivers_bind orderly_read.here fun env s₁ henv => ?_
  obtain ⟨rfl, rfl⟩ := writes_read.mp henv
  dsimp only
  split
  · next found hfound =>
      refine delivers_pure ?_
      obtain ⟨i, hi, hbody⟩ := List.mem_filterMap.mp (hfound ▸ List.mem_singleton_self found)
      obtain ⟨b, hb, rfl⟩ := Option.map_eq_some_iff.mp hbody
      cases hm : E.contract.modifier? call.name with
      | none => simp [hm] at hi
      | some m =>
          rw [hm] at hi
          exact hE.modifiers m (List.mem_of_find?_eq_some hm) i hi b hb
  · exact delivers_fault (Diagnostic.not_misplaced_modifierCount _ _ _)

theorem delivers_guarded (hE : E.Placed) {body : Block} (hbody : body.placed false false = true)
    (calls : List ModifierCall) : Delivers E s (guarded body calls) fun inner => inner.placed false false = true := by
  induction calls generalizing s with
  | nil => exact delivers_pure hbody
  | cons call rest ih =>
      rw [guarded]
      refine delivers_bind ih.orderly fun inner s₁ hinner => ?_
      have hinner := ih.result hinner
      have hmodifier := delivers_modifierBody (s := s₁) hE call
      refine delivers_bind hmodifier.orderly fun found s₂ hfound => ?_
      have hcode := hmodifier.result hfound
      dsimp only
      split
      · exact delivers_bind (orderly_fault (Diagnostic.not_misplaced_plural _ _ _ _)).here fun _ _ hw => absurd hw not_writes_throw
      · refine delivers_pure ?_
        rw [Block.placed, placedAll_iff, List.forall_mem_append, List.forall_mem_map, ← placedAll_iff]
        rw [placed_block] at hcode
        exact ⟨fun _ _ => placed_of_isSimple rfl, placed_fillStmts hinner _ hcode⟩

-- Statements.

section Statements

def State.inLoop (s : State) : Bool := !s.frame.loops.isEmpty

theorem inLoop_of_loops (h : s'.frame.loops = s.frame.loops) : s'.inLoop = s.inLoop := by
  rw [State.inLoop, State.inLoop, h]

theorem orderlyAt_withRefs {st : Stmt} {written : Emit (List Rust.Stmt)}
    (h : ∀ s' : State, s'.inLoop = s.inLoop → OrderlyAt E s' written) : OrderlyAt E s (withRefs st written) := by
  refine orderlyAt_bind (orderly_declareRefs _).here fun refs s₁ hrefs => ?_
  refine orderlyAt_bind (h s₁ (inLoop_of_loops (keepsLoops_declareRefs _ _ _ _ _ hrefs))) fun written s₂ _ => ?_
  exact (orderly_pure _).here

theorem orderly_emitted (p : Text.Position) (ev : EventDecl) (args : List Expr) : Orderly E False (stmt (.emit p ev args)) := by
  rw [stmt]
  exact orderly_bind (orderly_exprsAs _ _) fun _ => orderly_bind (orderly_emitEvent _ _) fun _ => orderly_pure _

theorem orderly_simple {st : Stmt} (h : st.isSimple = true) : Orderly E False (stmt st) := by
  cases st with
  | decl p vars value =>
      rw [stmt]
      exact orderly_declareVars vars value
  | assign p target value =>
      rw [stmt]
      exact orderly_bind (orderly_exprAs _ _) fun x => orderly_assign.1 x target
  | expr p e =>
      rw [stmt]
      exact orderly_exprStmt e
  | require p cond entry =>
      rw [stmt]
      exact orderly_bind (orderly_exprAs _ _) fun c => orderly_bind (orderly_abort _ _) fun _ => orderly_pure _
  | emit p ev args => exact orderly_emitted p ev args
  | _ => cases h

theorem orderlyAt_optional {o : Option Stmt} (h : o.all Stmt.isSimple = true) : OrderlyAt E s (optionalStmt o) := by
  cases o with
  | none => exact (orderly_pure []).here
  | some st => exact orderlyAt_withRefs fun s' _ => (orderly_simple h).here

theorem orderly_cond (cond : Option Expr) : Orderly E False (cond.mapM (exprAs .bool)) := by
  cases cond with
  | none => exact orderly_pure none
  | some c => exact orderly_bind (orderly_exprAs .bool c) fun _ => orderly_pure _

theorem orderlyAt_jump {f : Option Loop → Emit Rust.Stmt} (hf : ∀ l, Orderly E False (f (some l))) (h : s.inLoop = true) :
    OrderlyAt E s (currentLoop? >>= f) := by
  refine orderlyAt_bind (orderly_bind orderly_frame fun _ => orderly_pure _).here fun l s₁ hl => ?_
  cases l with
  | some l => exact (hf l).here
  | none =>
      rw [State.inLoop, List.head?_eq_none_iff.mp (writes_currentLoop hl)] at h
      cases h

mutual

-- Code that is in place is never refused as misplaced.
theorem orderlyAt_block : ∀ (b : Block) {s : State}, b.placed false s.inLoop = true → OrderlyAt E s (block b)
  | ⟨_, body, _⟩, s, h => by
      rw [Block.placed] at h
      rw [block]
      refine orderlyAt_bind (orderlyAt_inScope (orderlyAt_stmts body ?_)) fun _ _ _ => (orderly_pure _).here
      exact h

theorem orderlyAt_stmts : ∀ (sts : List Stmt) {s : State}, placedAll false s.inLoop sts = true → OrderlyAt E s (stmts sts)
  | [], s, _ => by
      rw [stmts]
      exact (orderly_pure _).here
  | st :: rest, s, h => by
      rw [placedAll, Bool.and_eq_true] at h
      rw [stmts]
      refine orderlyAt_bind (orderlyAt_withRefs fun s' hs' => orderlyAt_stmt st ?_) fun first s₁ hfirst => ?_
      · rw [hs']
        exact h.1
      · have hloops := (inside_withRefs (fun hw => inside_written st hw) hfirst).1
        refine orderlyAt_bind (orderlyAt_stmts rest ?_) fun _ _ _ => (orderly_pure _).here
        rw [inLoop_of_loops hloops]
        exact h.2

theorem orderlyAt_stmt : ∀ (st : Stmt) {s : State}, st.placed false s.inLoop = true → OrderlyAt E s (stmt st)
  | .block b, s, h => by
      rw [Stmt.placed] at h
      rw [stmt]
      exact orderlyAt_bind (orderlyAt_block b h) fun _ _ _ => (orderly_pure _).here
  | .ifElse p cond t none, s, h => by
      rw [Stmt.placed] at h
      rw [stmt]
      refine orderlyAt_bind (orderly_exprAs .bool cond).here fun c s₁ hc => ?_
      rw [← inLoop_of_loops ((steady_exprAs _ _).keepsLoops _ _ _ _ hc)] at h
      exact orderlyAt_bind (orderlyAt_block t h) fun _ _ _ => (orderly_pure _).here
  | .ifElse p cond t (some e), s, h => by
      rw [Stmt.placed, Bool.and_eq_true] at h
      rw [stmt]
      refine orderlyAt_bind (orderly_exprAs .bool cond).here fun c s₁ hc => ?_
      rw [← inLoop_of_loops ((steady_exprAs _ _).keepsLoops _ _ _ _ hc)] at h
      refine orderlyAt_bind (orderlyAt_block t h.1) fun written s₂ ht => ?_
      rw [← inLoop_of_loops (inside_writtenBlock t ht).1] at h
      exact orderlyAt_bind (orderlyAt_block e h.2) fun _ _ _ => (orderly_pure _).here
  | .whileLoop p cond body false, s, h => by
      rw [Stmt.placed] at h
      rw [stmt]
      refine orderlyAt_bind (orderly_exprAs .bool cond).here fun c s₁ _ => ?_
      exact orderlyAt_bind (orderlyAt_inLoop (orderlyAt_block body h)) fun _ _ _ => (orderly_pure _).here
  | .whileLoop p cond body true, s, h => by
      rw [Stmt.placed] at h
      rw [stmt]
      refine orderlyAt_bind (orderlyAt_inLoop (orderlyAt_block body h)) fun _ _ _ => ?_
      exact (orderly_bind (orderly_exprAs .bool cond) fun _ => orderly_pure _).here
  | .forLoop p init cond post body, s, h => by
      rw [Stmt.placed, Bool.and_eq_true, Bool.and_eq_true] at h
      rw [stmt]
      refine orderlyAt_inScope (orderlyAt_bind (orderlyAt_optional h.1.1) fun i s₁ _ => ?_)
      refine orderlyAt_bind (orderly_cond cond).here fun c s₂ _ => ?_
      refine orderlyAt_bind (orderlyAt_inLoop (orderlyAt_block body h.2)) fun _ s₃ _ => ?_
      exact orderlyAt_bind (orderlyAt_optional h.1.2) fun _ _ _ => (orderly_pure _).here
  | .returnValue p value, s, _ => by
      rw [stmt]
      exact (orderly_bind (orderly_resultValue value) fun _ => orderly_pure _).here
  | .revert p entry args, s, _ => by
      rw [stmt]
      exact (orderly_bind (orderly_abort entry args) fun _ => orderly_pure _).here
  | .breakLoop p, s, h => by
      rw [Stmt.placed] at h
      rw [stmt]
      exact orderlyAt_bind (orderlyAt_jump (fun _ => orderly_pure _) h) fun _ _ _ => (orderly_pure _).here
  | .continueLoop p, s, h => by
      rw [Stmt.placed] at h
      rw [stmt]
      refine orderlyAt_bind (orderlyAt_jump (fun l => ?_) h) fun _ _ _ => (orderly_pure _).here
      dsimp only
      split <;> exact orderly_pure _
  | .placeholder p, s, h => by
      rw [Stmt.placed] at h
      cases h
  | .decl p vars value, s, _ => (orderly_simple rfl).here
  | .assign p target value, s, _ => (orderly_simple rfl).here
  | .expr p e, s, _ => (orderly_simple rfl).here
  | .require p cond entry, s, _ => (orderly_simple rfl).here
  | .emit p ev args, s, _ => (orderly_simple rfl).here

end

end Statements

-- Functions.

section Functions

-- A function that is written for code with all jumps and placeholders in place.
def Lowered (E : Env) (g : Rust.Function) : Prop :=
  ∃ start : Spot, Enters E g start ∧ placedAll false false start.code = true

theorem delivers_function (hE : E.Placed) (r : Routine) (f : Function) {impl : Option Implementation}
    (himpl : ∀ i ∈ impl, i.Placed false) : Delivers E s (function r f impl) (Lowered E) := by
  unfold function
  split
  · next i body hbody =>
      have hplaced : body.placed false false = true := himpl i rfl body (by simpa using hbody)
      refine delivers_bind (orderly_modify _).here fun _ s₁ _ => ?_
      have hguarded := delivers_guarded (s := s₁) hE hplaced i.modifiers
      refine delivers_bind hguarded.orderly fun inner s₂ hinner => ?_
      have hcode : placedAll false false inner.stmts = true := placed_block inner ▸ hguarded.result hinner
      refine delivers_bind (orderly_modify _).here fun _ s₃ _ => ?_
      refine delivers_bind (orderly_declareParams _ _).here fun rparams s₄ _ => ?_
      refine delivers_bind (orderly_routineShell _).here fun shell s₅ _ => ?_
      refine delivers_bind (orderly_modify _).here fun _ s₆ _ => ?_
      refine delivers_bind (orderly_preamble _).here fun before s₇ _ => ?_
      refine delivers_bind (orderly_declareResults _).here fun results s₈ _ => ?_
      have hstmts : placedAll false s₈.inLoop inner.stmts = true := placedAll_mono id Bool.noConfusion _ hcode
      refine delivers_bind (orderlyAt_stmts _ hstmts) fun written s₉ hwritten => ?_
      have hlowered (tail : Option Rust.Expr) :
          Lowered E { shell with body := some ⟨before ++ results ++ written, tail⟩ } :=
        ⟨⟨inner.stmts, [], s₈, _⟩, ⟨before ++ results, written, tail, s₉, rfl, hwritten, rfl⟩, hcode⟩
      split
      · exact delivers_pure (hlowered _)
      · exact delivers_bind orderly_defaultResult.here fun x s₁₀ _ => delivers_pure (hlowered _)
  · exact delivers_fault (Diagnostic.not_misplaced_invalidFunction _ _)

theorem placed_fieldInits (c : Contract) : placedAll false false (fieldInits c) = true := by
  rw [placedAll_iff]
  intro st hst
  obtain ⟨f, -, hf⟩ := List.mem_filterMap.mp hst
  obtain ⟨v, -, rfl⟩ := Option.map_eq_some_iff.mp hf
  exact placed_of_isSimple rfl

theorem delivers_constructorCode (hE : E.Placed) {c : Contract} (hc : c ∈ E.package.classes) :
    Delivers E s (constructorCode c) fun code => placedAll false false code = true := by
  unfold constructorCode
  split
  · next i b hi hb =>
      obtain ⟨f, hf, hprimary⟩ := Option.bind_eq_some_iff.mp hi
      have hmem : f ∈ c.constructor.toList ++ c.functions :=
        List.mem_append_left _ (Option.mem_toList.mpr hf)
      rw [hi, Option.bind_some] at hb
      have hguarded := delivers_guarded (s := s) hE (hE.declared c hc f hmem i (mem_of_primary? hprimary) b hb) i.modifiers
      refine delivers_bind hguarded.orderly fun inner s₁ hinner => delivers_pure ?_
      exact placed_block inner ▸ hguarded.result hinner
  · exact delivers_pure (by rw [placedAll])

theorem delivers_classInit (hE : E.Placed) {c : Contract} (hc : c ∈ E.package.classes) (r : Routine) :
    Delivers E s (classInit c r) (Lowered E) := by
  rw [classInit_eq]
  refine delivers_bind (orderly_modify _).here fun _ s₁ _ => ?_
  have hconstructor := delivers_constructorCode (s := s₁) hE hc
  refine delivers_bind hconstructor.orderly fun code s₂ hcode => ?_
  have hall : placedAll false false (fieldInits c ++ code) = true := by
    rw [placedAll_iff, List.forall_mem_append, ← placedAll_iff, ← placedAll_iff]
    exact ⟨placed_fieldInits c, hconstructor.result hcode⟩
  refine delivers_bind (orderly_modify _).here fun _ s₃ _ => ?_
  refine delivers_bind (orderly_declareParams _ _).here fun rparams s₄ _ => ?_
  refine delivers_bind (orderly_routineShell _).here fun shell s₅ _ => ?_
  have hstmts : placedAll false s₅.inLoop (fieldInits c ++ code) = true := placedAll_mono id Bool.noConfusion _ hall
  refine delivers_bind (orderlyAt_stmts _ hstmts) fun written s₆ hwritten => ?_
  refine delivers_bind (orderly_preamble _).here fun before s₇ _ => delivers_pure ?_
  exact ⟨⟨fieldInits c ++ code, [], s₅, _⟩, ⟨before, written, _, s₆, rfl, hwritten, rfl⟩, hall⟩

theorem delivers_classInits (hE : E.Placed) {routines : List (Contract × Routine)}
    (hroutines : ∀ cr ∈ routines, cr.1 ∈ E.package.classes) :
    Delivers E s (classInits routines) fun gs => ∀ g ∈ gs, Lowered E g := by
  induction routines generalizing s with
  | nil => exact delivers_pure (List.forall_mem_nil _)
  | cons cr rest ih =>
      obtain ⟨hfirst, hrest⟩ := List.forall_mem_cons.mp hroutines
      have hinit := delivers_classInit (s := s) hE hfirst cr.2
      refine delivers_bind hinit.orderly fun g s₁ hg => ?_
      have hmore := ih (s := s₁) hrest
      refine delivers_bind hmore.orderly fun gs s₂ hgs => delivers_pure ?_
      exact List.forall_mem_cons.mpr ⟨hinit.result hg, hmore.result hgs⟩

theorem delivers_deployment (hE : E.Placed) :
    Delivers E s deployment fun written => ∀ g ∈ written.2, g.name = "_init" ∨ Lowered E g := by
  unfold deployment
  refine delivers_bind orderly_read.here fun env s₁ henv => ?_
  obtain ⟨rfl, rfl⟩ := writes_read.mp henv
  dsimp only
  split
  · exact delivers_bind (orderly_constructors none).here fun gs s₂ _ => delivers_pure (List.forall_mem_nil _)
  · refine delivers_bind (orderly_rustParams _).here fun rparams s₂ _ => ?_
    refine delivers_bind (orderly_modify _).here fun _ s₃ _ => ?_
    refine delivers_bind (orderly_forM (fun p => orderly_declare _ _) _).here fun _ s₄ _ => ?_
    refine delivers_bind (orderly_bindBaseArgs _ _ _).here fun bound s₅ _ => ?_
    refine delivers_bind (orderly_initCalls _ _ _ _).here fun runs s₆ hruns => ?_
    refine delivers_bind (orderly_routineShell _).here fun shell s₇ hshell => ?_
    have hclasses : ∀ cr ∈ runs.2, cr.1 ∈ E.package.classes := by
      intro cr hcr
      have hmem := (routines_initCalls hruns cr hcr).1
      exact mem_of_chainOf (List.mem_of_mem_filter (List.mem_reverse.mp hmem))
    have hinits := delivers_classInits (s := s₇) hE hclasses
    refine delivers_bind hinits.orderly fun inits s₈ hw => ?_
    refine delivers_bind (orderly_constructors _).here fun gs s₉ _ => delivers_pure ?_
    exact List.forall_mem_cons.mpr ⟨.inl (writes_routineShell hshell).name, fun g hg => .inr (hinits.result hw g hg)⟩

theorem orderlyAt_dispatched (hE : E.Placed) {fs : List Function} (hfs : ∀ f ∈ fs, f ∈ E.contract.dispatch) :
    OrderlyAt E s (dispatched fs) := by
  induction fs generalizing s with
  | nil => exact (orderly_pure _).here
  | cons f rest ih =>
      obtain ⟨hf, hrest⟩ := List.forall_mem_cons.mp hfs
      rw [dispatched]
      refine orderlyAt_bind (orderly_functionRoutine _ _ _ _).here fun r s₁ _ => ?_
      have hfunction := delivers_function (s := s₁) hE r f fun i hi => hE.entries f hf i (mem_of_primary? hi)
      refine orderlyAt_bind hfunction.orderly fun g s₂ _ => orderlyAt_bind (ih hrest) fun more s₃ _ => ?_
      dsimp only
      split <;> exact (orderly_pure _).here

theorem delivers_helper (hE : E.Placed) (hS : Sourced E) {key : String} {h : Helper} (hasked : Asked E key h) :
    Delivers E s (helper h) (Lowered E) := by
  unfold helper
  cases hasked with
  | @implementation f i hf hi _ =>
      refine delivers_bind (orderly_functionRoutine _ _ _ _).here fun r s₁ _ => delivers_function hE r _ ?_
      rintro _ ⟨⟩
      exact hE.entries f hf i hi
  | @library start library owner sig args hcall =>
      refine delivers_bind (orderly_libraryRoutine _ _).here fun r s₁ _ => delivers_function hE r _ fun i hi => ?_
      obtain ⟨k, hk, -, hf⟩ := (hS.libraries _ _ _ _ _ hcall).declared
      exact hE.declared k hk _ (List.mem_append_right _ hf) i (mem_of_primary? hi)

theorem orderlyAt_drainHelpers (hE : E.Placed) (hS : Sourced E) {count : Nat} (hs : Queued E s) :
    OrderlyAt E s (drainHelpers count) := by
  induction count generalizing s with
  | zero => exact (orderly_pure _).here
  | succ count ih =>
      rw [drainHelpers]
      refine orderlyAt_bind orderly_nextHelper?.here fun next s₁ hnext => ?_
      rw [Writes, outcome_nextHelper?] at hnext
      cases hnext
      rcases hq : s.queue with _ | ⟨first, rest⟩
      · exact (orderly_pure _).here
      · rw [Queued, hq] at hs
        obtain ⟨⟨key, hasked⟩, hrest⟩ := List.forall_mem_cons.mp hs
        refine orderlyAt_bind (delivers_helper hE hS hasked).orderly fun g s₂ hg => ?_
        have hqueued := Queued.grow (s := { s with queue := rest }) hrest (emitted_helper hS hasked hg).1
        exact orderlyAt_bind (ih hqueued) fun _ _ _ => (orderly_pure _).here

theorem orderlyAt_contract (hE : E.Placed) (hS : Sourced E) : OrderlyAt E {} contract := by
  have hqueued : Queued E {} := by simp [Queued]
  unfold contract
  refine orderlyAt_bind orderly_read.here fun env s₁ henv => ?_
  obtain ⟨rfl, rfl⟩ := writes_read.mp henv
  refine orderlyAt_bind (orderly_mapM orderly_enumItem _).here fun enums s₁ henums => ?_
  replace hqueued := hqueued.grow ((quiet_mapM quiet_enumItem _).growth henums)
  refine orderlyAt_bind (orderly_mapM orderly_structItem _).here fun structs s₂ hstructs => ?_
  replace hqueued := hqueued.grow ((quiet_mapM quiet_structItem _).growth hstructs)
  refine orderlyAt_bind orderly_storageItems.here fun storage s₃ hstorage => ?_
  replace hqueued := hqueued.grow (quiet_storageItems.growth hstorage)
  refine orderlyAt_bind (orderly_eventItems _).here fun events s₄ hevents => ?_
  replace hqueued := hqueued.grow ((quiet_eventItems _).growth hevents)
  refine orderlyAt_bind (orderly_errorItems _).here fun errors s₅ herrors => ?_
  replace hqueued := hqueued.grow ((quiet_errorItems _).growth herrors)
  refine orderlyAt_bind (delivers_deployment hE).orderly fun deployed s₆ hdeployed => ?_
  replace hqueued := hqueued.grow (emitted_deployment hS hdeployed).1
  refine orderlyAt_bind (orderlyAt_dispatched hE fun _ hf => hf) fun written s₇ hwritten => ?_
  replace hqueued := hqueued.grow (emitted_dispatched hS (fun _ hf => hf) hwritten).1
  refine orderlyAt_bind (orderlyAt_drainHelpers hE hS hqueued) fun helpers s₈ _ => ?_
  exact orderlyAt_bind orderly_calledInterfaces.here fun _ _ _ => (orderly_assemble _).here

theorem lowered_of_origin (hE : E.Placed) (hS : Sourced E) {g : Rust.Function} (h : Origin E g) :
    IsDeployer E.target g ∨ Lowered E g := by
  cases h with
  | @deployed s s' written g hw hg =>
      rcases List.mem_append.mp hg with hg | hg
      · exact .inl (deployers_deployment hS hw g hg)
      · exact ((delivers_deployment hE).result hw g hg).imp_left .inr
  | @entry s s₁ s' f r g hf hr hw =>
      exact .inr ((delivers_function hE r f fun i hi => hE.entries f hf i (mem_of_primary? hi)).result hw)
  | @helper s s' key h g hasked hw => exact .inr ((delivers_helper hE hS hasked).result hw)

end Functions

-- Places in code.

section Places

def isJump : Stmt → Bool
  | .breakLoop _ | .continueLoop _ => true
  | _ => false

def Spot.Placed (spot : Spot) : Prop := placedAll false spot.state.inLoop spot.code = true

theorem Opens.placed {st : Stmt} {visible bound : List String} {spot : Spot} (h : Opens E st visible s bound spot)
    (hst : st.placed false s.inLoop = true) : spot.Placed := by
  have hblock {b : Block} {s' : State} (hloops : s'.frame.loops = s.frame.loops)
      (hb : b.placed false s.inLoop = true) : placedAll false s'.opened.inLoop b.stmts = true := by
    have hopened : s'.opened.inLoop = s.inLoop := inLoop_of_loops hloops
    rw [hopened, ← placed_block]
    exact hb
  have hbody {b : Block} {s' : State} {resumes : Bool} (hb : b.placed false true = true) :
      placedAll false (s'.looped resumes).opened.inLoop b.stmts = true := placed_block b ▸ hb
  have hhead {st : Stmt} {inLoop : Bool} (h : st.isSimple = true) : placedAll false inLoop [st] = true :=
    placedAll_iff.mpr (List.forall_mem_singleton.mpr (placed_of_isSimple h))
  cases h with
  | block =>
      rw [Stmt.placed] at hst
      exact hblock rfl hst
  | @whenTrue p cond t e _ _ _ s₁ c hc =>
      refine hblock ((steady_exprAs _ _).keepsLoops _ _ _ _ hc) ?_
      cases e with
      | none => rwa [Stmt.placed] at hst
      | some e =>
          rw [Stmt.placed, Bool.and_eq_true] at hst
          exact hst.1
  | whenFalse hc ht =>
      rw [Stmt.placed, Bool.and_eq_true] at hst
      exact hblock ((inside_writtenBlock _ ht).1.trans ((steady_exprAs _ _).keepsLoops _ _ _ _ hc)) hst.2
  | body hc =>
      rw [Stmt.placed] at hst
      exact hbody hst
  | bodyFirst =>
      rw [Stmt.placed] at hst
      exact hbody hst
  | testLast hb => exact placedAll_iff.mpr (List.forall_mem_nil _)
  | init =>
      rw [Stmt.placed, Bool.and_eq_true, Bool.and_eq_true] at hst
      exact hhead hst.1.1
  | test hi => exact placedAll_iff.mpr (List.forall_mem_nil _)
  | turn hi hc =>
      rw [Stmt.placed, Bool.and_eq_true] at hst
      exact hbody hst.2
  | post hi hc hb =>
      rw [Stmt.placed, Bool.and_eq_true, Bool.and_eq_true] at hst
      exact hhead hst.1.2

theorem Leads.placed {spot spot' : Spot} (hleads : Leads E spot spot') (h : spot.Placed) : spot'.Placed := by
  cases hleads with
  | @behind st rest visible bound s s' code hw =>
      rw [Spot.Placed, placedAll, Bool.and_eq_true] at h
      rw [Spot.Placed, inLoop_of_loops (inside_withRefs (fun hw => inside_written st hw) hw).1]
      exact h.2
  | here hw => exact placedAll_iff.mpr (List.forall_mem_nil _)
  | @inside st rest visible bound s s₁ refs spot hw hopens =>
      rw [Spot.Placed, placedAll, Bool.and_eq_true] at h
      rw [← inLoop_of_loops (keepsLoops_declareRefs _ _ _ _ _ hw)] at h
      exact hopens.placed h.1

-- A jump that is reached stands inside a loop.
theorem Reaches.inLoop {start spot : Spot} (hreaches : Reaches E start spot)
    (hstart : placedAll false false start.code = true) {st : Stmt} {rest : List Stmt} (hcode : spot.code = st :: rest)
    (hjump : isJump st = true) : spot.state.frame.loops ≠ [] := by
  have hplaced : spot.Placed := by
    clear hcode
    induction hreaches with
    | refl => exact placedAll_mono id Bool.noConfusion _ hstart
    | tail _ hleads ih => exact hleads.placed ih
  rw [Spot.Placed, hcode, placedAll, Bool.and_eq_true] at hplaced
  have hloop : spot.state.inLoop = true := by
    cases st with
    | breakLoop p => simpa [Stmt.placed] using hplaced.1
    | continueLoop p => simpa [Stmt.placed] using hplaced.1
    | _ => cases hjump
  simpa [State.inLoop] using hloop

end Places

-- No code of a package is refused as misplaced. Behind its modifiers a body has no placeholder at any depth; and every
-- function of a file but those for deployment is written for such code, with each jump inside a loop.
theorem never_misplaced {name : String} {unit : Solidity.SourceUnit} {p : Package} {c : Contract}
    (hp : Resolve.package name unit = .ok p) (hc : c ∈ p.classes) (target : Target) :
    (∀ d, file p c target = .error (.fault d) → ¬d.IsMisplaced) ∧
    (∀ k ∈ p.classes, ∀ f ∈ k.constructor.toList ++ k.functions, ∀ i ∈ f.implementations, ∀ body ∈ i.body,
      ∀ {inner s s'}, Writes (guarded body i.modifiers) ⟨p, c, target⟩ s inner s' →
        ∀ x ∈ inner.substmts, x.isPlaceholder = false) ∧
    ∀ out, file p c target = .ok out → ∀ g ∈ out.methods, IsDeployer target g ∨
      ∃ start, Enters ⟨p, c, target⟩ g start ∧ (∀ x ∈ substmtsList start.code, x.isPlaceholder = false) ∧
        ∀ spot, Reaches ⟨p, c, target⟩ start spot → ∀ st rest, spot.code = st :: rest → isJump st = true →
          spot.state.frame.loops ≠ [] := by
  have hE := placed_package hp hc target
  have hS := sourced_package hp hc target
  refine ⟨fun d hd => orderlyAt_contract hE hS (.fault d) hd, ?_, fun out hfile g hg => ?_⟩
  · intro k hk f hf i hi body hbody inner s s' hw
    exact inner.no_placeholder ((delivers_guarded hE (hE.declared k hk f hf i hi body hbody) i.modifiers).result hw)
  · refine (lowered_of_origin hE hS (origin_of_methods hS hfile g hg)).imp_right ?_
    rintro ⟨start, henters, hcode⟩
    refine ⟨start, henters, no_placeholders _ hcode, fun spot hreaches st rest hspot hjump => ?_⟩
    exact hreaches.inLoop hcode hspot hjump

namespace Guarding

-- `contract C { modifier m() { while (true) { _; break; } } function f() public m { while (true) { continue; } } }`.

def forever (code : List Solidity.Statement) : Solidity.Statement :=
  .whileLoop default ⟨default, default, ⟨⟨.term default (.bool true) [], []⟩, none⟩, none⟩
    (.block default ⟨default, default, code⟩)

def source : Solidity.SourceUnit :=
  ⟨default, [Resolve.plainContract "C" false [] [
    .modifier default
      ⟨default, "m", [], [], some ⟨default, default, [forever [.placeholder default, .breakLoop default]]⟩⟩,
    .function default
      { start := default, stop := default, kind := "function", name := "f", params := []
        attrs := [.modifier default ⟨default, "m", false, []⟩], returns := []
        body := some ⟨default, default, [forever [.continueLoop default]]⟩ }]]⟩

-- What it becomes.

def turns (code : List Stmt) : Block := ⟨default, [.whileLoop default (.bool default true) ⟨default, code, false⟩ false], false⟩

def body : Block := turns [.continueLoop default]

def implementation : Implementation :=
  { owner := "C", modifiers := [{ name := "m", start := default }], body := some body, implemented := true
    start := default }

def function : Function := { name := "f", sourceName := "f", kind := .function, implementations := [implementation] }

def guard : Function :=
  { name := "m", sourceName := "m", kind := .modifier, visibility := .isInternal
    implementations := [{ implementation with
      modifiers := [], body := some (turns [.placeholder default, .breakLoop default]) }] }

def contract : Contract :=
  { name := "C", kind := .contract, isAbstract := false, bases := [], start := default, chain := ["C"]
    functions := [function], modifiers := [guard], storage := [], dispatch := [function], modifierTable := [guard] }

def package : Package := { name := "sample", classes := [contract] }

theorem package_guarding : Resolve.package "sample" source = .ok package := by cbv

def inside : Block := turns [.block body, .breakLoop default]

theorem guarded_body (s : State) : Writes (guarded body implementation.modifiers) ⟨package, contract, .ink .v6⟩ s inside s := rfl

theorem file_guarding : ∃ out, file package contract (.ink .v6) = .ok out := file_of_isSome (by decide +kernel)

theorem never_misplaced_guarding :
    Resolve.package "sample" source = .ok package ∧ contract ∈ package.classes ∧
    (∀ x ∈ inside.substmts, x.isPlaceholder = false) ∧
    ∃ out, file package contract (.ink .v6) = .ok out ∧ ∀ g ∈ out.methods, IsDeployer (.ink .v6) g ∨
      ∃ start, Enters ⟨package, contract, .ink .v6⟩ g start ∧ (∀ x ∈ substmtsList start.code, x.isPlaceholder = false) ∧
        ∀ spot, Reaches ⟨package, contract, .ink .v6⟩ start spot → ∀ st rest, spot.code = st :: rest →
          isJump st = true → spot.state.frame.loops ≠ [] := by
  have hc : contract ∈ package.classes := List.mem_singleton.mpr rfl
  obtain ⟨out, hout⟩ := file_guarding
  obtain ⟨-, hguarded, hfile⟩ := never_misplaced package_guarding hc (.ink .v6)
  refine ⟨package_guarding, hc, ?_, out, hout, hfile out hout⟩
  exact hguarded contract hc function (List.mem_singleton.mpr rfl) implementation (List.mem_singleton.mpr rfl) body rfl
    (guarded_body {})

end Guarding

end RustContracts.Emit
