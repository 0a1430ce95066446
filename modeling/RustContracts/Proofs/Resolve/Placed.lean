import RustContracts.Proofs.Resolve.Reverts

-- The code of a package has its jumps inside loops and its placeholders in modifiers.
namespace RustContracts

namespace Program

def Implementation.Placed (inModifier : Bool) (i : Implementation) : Prop := ∀ b ∈ i.body, b.placed inModifier false = true

structure ContractDecl.Placed (c : ContractDecl) : Prop where
  functions : ∀ f ∈ c.constructor.toList ++ c.functions, ∀ i ∈ f.implementations, i.Placed false
  modifiers : ∀ m ∈ c.modifiers, ∀ i ∈ m.implementations, i.Placed true

end Program

namespace Resolve

open Program
open Text (Position)

-- Statements.

theorem places_nested {env : Env} {inModifier inLoop : Bool} {s : Solidity.Statement}
    (hs : Ensures env (stmt s) (Stmt.placed inModifier inLoop · = true)) :
    Ensures env (nested s) (Block.placed inModifier inLoop · = true) := by
  refine ensures_nested (fun b hb => ?_) (fun start x hx => ?_) hs
  · rwa [Stmt.placed] at hb
  · rw [placed_block, placedAll_iff]
    exact List.forall_mem_singleton.mpr hx

mutual

-- The code that stands at a place has its jumps and placeholders as the place allows them.
theorem places_block (env : Env) : ∀ b, Ensures env (block b) (Block.placed env.inModifier env.inLoop · = true)
  | ⟨start, _, statements⟩ => by
    rw [block]
    exact ensures_bind (ensures_inScope (places_stmts env statements)) fun body hbody =>
      ensures_pure (by rwa [Block.placed])

theorem places_stmts (env : Env) : ∀ ss, Ensures env (stmts ss) (placedAll env.inModifier env.inLoop · = true)
  | [] => by
    rw [stmts]
    exact ensures_pure (by rw [placedAll])
  | s :: rest => by
    rw [stmts]
    refine ensures_bind (places_stmt env s) fun x hx => ensures_bind (places_stmts env rest) fun more hmore => ?_
    exact ensures_pure (by rw [placedAll, hx, hmore, Bool.and_self])

theorem places_stmt (env : Env) : ∀ s, Ensures env (stmt s) (Stmt.placed env.inModifier env.inLoop · = true)
  | .block _ b => by
    rw [stmt]
    exact ensures_bind (places_block env b) fun body hbody => ensures_pure (by rwa [Stmt.placed])
  | .unchecked _ b => by
    rw [stmt]
    refine ensures_bind (places_block env b) fun body hbody => ensures_pure ?_
    rwa [Stmt.placed, placed_block, ← placed_block body]
  | .ifElse start cond whenTrue none => by
    rw [stmt]
    refine ensures_after fun c => ensures_bind (places_nested (places_stmt env whenTrue)) fun t ht => ?_
    exact ensures_pure (by rwa [Stmt.placed])
  | .ifElse start cond whenTrue (some whenFalse) => by
    rw [stmt]
    refine ensures_after fun c => ensures_bind (places_nested (places_stmt env whenTrue)) fun t ht => ?_
    refine ensures_bind (places_nested (places_stmt env whenFalse)) fun e he => ensures_pure ?_
    rw [Stmt.placed, ht, he, Bool.and_self]
  | .forLoop start init cond post body => by
    rw [stmt]
    have hinit : Ensures env (init.mapM initStmt) fun i => ∀ s ∈ i, s.isSimple = true :=
      ensures_option_mapM init fun s _ => ensures_initStmt s
    have hpost : Ensures env (post.mapM exprStmt) fun p => ∀ s ∈ p, s.isSimple = true :=
      ensures_option_mapM post fun e _ => ensures_exprStmt e
    refine ensures_inScope (ensures_bind hinit fun i hi => ensures_after fun c => ?_)
    refine ensures_bind hpost fun p hp => ?_
    refine ensures_bind (P := (Block.placed env.inModifier true · = true)) ?_ fun b hb => ensures_pure ?_
    · exact places_nested (places_stmt { env with inLoop := true } body)
    · rw [Stmt.placed, (Option.all_eq_true _ _).mpr hi, (Option.all_eq_true _ _).mpr hp, hb, Bool.and_self, Bool.and_self]
  | .whileLoop start cond body => by
    rw [stmt]
    refine ensures_after fun c => ?_
    refine ensures_bind (P := (Block.placed env.inModifier true · = true)) ?_ fun b hb => ensures_pure ?_
    · exact places_nested (places_stmt { env with inLoop := true } body)
    · rwa [Stmt.placed]
  | .doWhile start body cond => by
    rw [stmt]
    refine ensures_bind (P := (Block.placed env.inModifier true · = true)) ?_ fun b hb =>
      ensures_after fun c => ensures_pure ?_
    · exact places_nested (places_stmt { env with inLoop := true } body)
    · rwa [Stmt.placed]
  | .returnValue start value => by
    rw [stmt]
    exact ensures_after fun _ => ensures_pure (by simp [Stmt.placed])
  | .emit start e => by
    rw [stmt]
    exact (ensures_emitStmt start e).mono fun _ => placed_of_isSimple
  | .revert start e => by
    rw [stmt]
    refine (ensures_revertStmt (fun _ => rfl) start e).mono ?_
    rintro _ ⟨entry, args, rfl, -⟩
    simp [Stmt.placed]
  | .breakLoop start => by
    rw [stmt]
    refine ensures_bind ensures_read fun e he => ?_
    split
    · next hloop => exact ensures_pure (by rw [Stmt.placed, ← he, hloop])
    · exact ensures_throw _
  | .continueLoop start => by
    rw [stmt]
    refine ensures_bind ensures_read fun e he => ?_
    split
    · next hloop => exact ensures_pure (by rw [Stmt.placed, ← he, hloop])
    · exact ensures_throw _
  | .placeholder start => by
    rw [stmt]
    refine ensures_bind ensures_read fun e he => ?_
    split
    · next hmodifier => exact ensures_pure (by rw [Stmt.placed, ← he, hmodifier])
    · exact ensures_throw _
  | .expr _ e => by
    rw [stmt]
    exact (ensures_exprStmt e).mono fun _ => placed_of_isSimple
  | .tupleDecl start vars value => by
    rw [stmt]
    exact ensures_after fun _ => ensures_after fun _ => ensures_pure (placed_of_isSimple rfl)
  | .varDecl _ d => by
    rw [stmt]
    exact (ensures_varDecl d).mono fun _ => placed_of_isSimple

end

-- Classes.

def CodeOwner.isModifier : CodeOwner → Bool
  | .modifier _ => true
  | _ => false

theorem placed_updateImplementation {c : ContractDecl} (hc : c.Placed) (code : CodeOwner)
    {f : Implementation → Implementation}
    (hf : ∀ i, ∀ b ∈ (f i).body, i.body = some b ∨ b.placed code.isModifier false = true) :
    (updateImplementation code f c).Placed := by
  have hmap {inModifier : Bool} (hcode : code.isModifier = inModifier) {g : Function}
      (hg : ∀ i ∈ g.implementations, i.Placed inModifier) : ∀ i ∈ g.implementations.map f, i.Placed inModifier := by
    rw [List.forall_mem_map]
    exact fun i hi b hb => (hf i b hb).elim (fun hold => hg i hi b hold) fun hnew => hcode ▸ hnew
  have hmodify {inModifier : Bool} (hcode : code.isModifier = inModifier) {gs : List Function} (n : Nat)
      (hgs : ∀ g ∈ gs, ∀ i ∈ g.implementations, i.Placed inModifier) :
      ∀ g ∈ gs.modify n fun g => { g with implementations := g.implementations.map f },
        ∀ i ∈ g.implementations, i.Placed inModifier := by
    intro g hg
    rcases mem_modify hg with hg | ⟨old, hold, rfl⟩
    · exact hgs g hg
    · exact hmap hcode (hgs old hold)
  obtain ⟨hconstructor, hfunctions⟩ := List.forall_mem_append.mp hc.functions
  cases code with
  | constructor =>
      refine ⟨List.forall_mem_append.mpr ⟨fun g hg => ?_, hfunctions⟩, hc.modifiers⟩
      obtain ⟨old, hold, rfl⟩ := Option.map_eq_some_iff.mp (Option.mem_toList.mp hg)
      exact hmap rfl (hconstructor old (Option.mem_toList.mpr hold))
  | function n => exact ⟨List.forall_mem_append.mpr ⟨hconstructor, hmodify rfl n hfunctions⟩, hc.modifiers⟩
  | modifier n => exact ⟨hc.functions, hmodify rfl n hc.modifiers⟩

theorem placed_noted {c : ContractDecl} (hc : c.Placed) (g : Gathered) (code : Option CodeOwner) :
    (noted g code c).Placed := by
  cases code with
  | none => exact ⟨hc.functions, hc.modifiers⟩
  | some code => exact placed_updateImplementation hc code fun i b hb => .inl hb

theorem places_runTask {env : Env} {p : Pending} {g g' : Gathered}
    {r : (ContractDecl → ContractDecl) × (Outline → Outline)} (hloop : env.inLoop = false)
    (hmodifier : ∀ code ∈ p.code, env.inModifier = true → code.isModifier = true)
    (h : Resolves (runTask p) env g r g') : ∀ c : ContractDecl, c.Placed → (r.1 c).Placed := by
  obtain ⟨owner, code, task⟩ := p
  unfold runTask at h
  cases task with
  | body b =>
      obtain ⟨body, g₁, hbody, h⟩ := resolves_bind.mp h
      obtain ⟨rfl, -⟩ := resolves_pure.mp h
      have hplaced := places_block env b g body g₁ hbody
      cases code with
      | none => exact fun c hc => hc
      | some code =>
          refine fun c hc => placed_updateImplementation hc code fun i b hb => .inr ?_
          obtain rfl := Option.some.inj hb
          exact body.placed_mono (hmodifier code rfl) (fun h => hloop ▸ h) hplaced
  | fieldValue i value =>
      obtain ⟨x, rfl⟩ := result_of_bind_pure h
      exact fun c hc => ⟨hc.functions, hc.modifiers⟩
  | constantValue i value =>
      cases owner with
      | some owner =>
          obtain ⟨x, rfl⟩ := result_of_bind_pure h
          exact fun c hc => ⟨hc.functions, hc.modifiers⟩
      | none =>
          obtain ⟨x, rfl⟩ := result_of_bind_pure h
          exact fun c hc => hc
  | baseArgs i args =>
      obtain ⟨xs, rfl⟩ := result_of_bind_pure h
      exact fun c hc => ⟨hc.functions, hc.modifiers⟩
  | modifierArgs i args =>
      obtain ⟨xs, rfl⟩ := result_of_bind_pure h
      cases code with
      | none => exact fun c hc => hc
      | some code => exact fun c hc => placed_updateImplementation hc code fun i b hb => .inl hb

variable {known o o' : Outline} {r r' : Registry} {p : Pending} {pending : List Pending}

theorem placed_runPending (ho : ∀ c ∈ o.classes, c.Placed) (h : runPending known (o, r) p = .ok (o', r')) :
    ∀ c ∈ o'.classes, c.Placed := by
  unfold runPending at h
  obtain ⟨⟨⟨inClass, inFile⟩, gathered⟩, htask, h⟩ := bind_eq_ok.mp h
  obtain ⟨-, hfile⟩ := runTask_amends htask
  have hplaces : ∀ c : ContractDecl, c.Placed → (inClass c).Placed := by
    refine places_runTask rfl (fun code hcode hmodifier => ?_) htask
    rw [Option.mem_def.mp hcode] at hmodifier
    cases code with
    | modifier => rfl
    | _ => cases hmodifier
  cases h
  rw [hfile, List.forall_mem_map]
  intro c hc
  split
  · exact placed_noted (hplaces c (ho c hc)) gathered p.code
  · exact ho c hc

theorem placed_foldlM (ho : ∀ c ∈ o.classes, c.Placed)
    (h : pending.foldlM (runPending known) (o, r) = .ok (o', r')) : ∀ c ∈ o'.classes, c.Placed := by
  induction pending generalizing o r with
  | nil =>
      cases h
      exact ho
  | cons p pending ih =>
      rw [List.foldlM_cons] at h
      obtain ⟨⟨mid, r₁⟩, hmid, h⟩ := bind_eq_ok.mp h
      exact ih (placed_runPending ho hmid) h

-- In the code of a package every jump stands inside a loop, and every placeholder in a modifier.
theorem package_placed {name : String} {unit : Solidity.SourceUnit} {p : Package} (h : package name unit = .ok p) :
    ∀ c ∈ p.classes, c.Placed := by
  unfold package at h
  obtain ⟨draft, hdraft, h⟩ := bind_eq_ok.mp h
  obtain ⟨-, -, h⟩ := bind_eq_ok.mp h
  obtain ⟨⟨o, registry⟩, hrun, h⟩ := bind_eq_ok.mp h
  obtain ⟨all, -, hd⟩ := enlisted_declareUnit hdraft
  have hunwritten : ∀ c ∈ draft.outline.classes, c.Placed := by
    intro c hc
    have hnone {f : Function} (hf : f ∈ c.constructor.toList ++ c.functions ++ c.modifiers) (inModifier : Bool) :
        ∀ i ∈ f.implementations, i.Placed inModifier := by
      intro i hi b hb
      rw [hd.unwritten c hc i (List.mem_flatMap.mpr ⟨f, hf, hi⟩)] at hb
      cases hb
    exact ⟨fun f hf => hnone (List.mem_append_left _ hf) false, fun m hm => hnone (List.mem_append_right _ hm) true⟩
  have hplaced := placed_foldlM hunwritten hrun
  have hclasses : p.classes = o.classes.map (finished o) := by
    cases h
    rw [Outline.flatten, List.map_map]
    rfl
  rw [hclasses, List.forall_mem_map]
  intro c hc
  rw [finished_toContractDecl]
  exact hplaced c hc

end Resolve

end RustContracts
