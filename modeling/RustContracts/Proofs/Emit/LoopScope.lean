import RustContracts.Proofs.Emit.LocalNames

-- The conditions and steps of loops. They are written outside of the body, and none of its variables is bound where they
-- stand, but for those of a body that shares its block with the condition behind it.
namespace RustContracts.Emit

open Program

variable {E : Env} {s s' : State}

-- Where code stands.

-- A block that is run by a statement.
inductive Encloses : Rust.Stmt → Rust.Block → Prop
  | block {b : Rust.Block} : Encloses (.expr (.block b)) b
  | whileLoop {label : String} {c : Rust.Expr} {b : Rust.Block} : Encloses (.whileLoop label c b) b
  | loop {label : String} {b : Rust.Block} : Encloses (.loop label b) b
  | labeled {label : String} {b : Rust.Block} : Encloses (.labeled label b) b
  | whenTrue {pattern : String} {c : Rust.Expr} {b : Rust.Block} {e : Option Rust.Expr} :
      Encloses (.expr (.ifElse pattern c b e)) b
  | whenFalse {pattern : String} {c e : Rust.Expr} {b : Rust.Block} :
      Encloses (.expr (.ifElse pattern c b (some e))) ⟨[.expr e], none⟩

-- The rest of a block somewhere inside code, and the names that are bound before it, innermost first.
inductive Within : List Rust.Stmt → List String → List Rust.Stmt → List String → Prop
  | here {code : List Rust.Stmt} {bound : List String} : Within code bound code bound
  | behind {st : Rust.Stmt} {rest tail : List Rust.Stmt} {bound names : List String}
      (h : Within rest ((boundBy st).reverse ++ bound) tail names) : Within (st :: rest) bound tail names
  | inside {st : Rust.Stmt} {b : Rust.Block} {rest tail : List Rust.Stmt} {bound names : List String}
      (hb : Encloses st b) (h : Within b.stmts bound tail names) : Within (st :: rest) bound tail names

theorem Within.append {before rest tail : List Rust.Stmt} {bound names : List String}
    (h : Within rest (lets before ++ bound) tail names) : Within (before ++ rest) bound tail names := by
  induction before generalizing bound with
  | nil => exact h
  | cons st before ih =>
      rw [lets_cons, List.append_assoc] at h
      exact .behind (ih h)

theorem Within.trans {code tail last : List Rust.Stmt} {bound names more : List String}
    (h : Within code bound tail names) (h' : Within tail names last more) : Within code bound last more := by
  induction h with
  | here => exact h'
  | behind _ ih => exact .behind (ih h')
  | inside hb _ ih => exact .inside hb (ih h')

-- More code behind some is behind what ends it.
theorem Within.extend {code tail : List Rust.Stmt} {bound names : List String} (h : Within code bound tail names)
    (more : List Rust.Stmt) : ∃ rest, Within (code ++ more) bound (tail ++ rest) names := by
  induction h with
  | here => exact ⟨more, .here⟩
  | behind _ ih =>
      obtain ⟨rest, ih⟩ := ih
      exact ⟨rest, .behind ih⟩
  | inside hb h _ => exact ⟨[], .inside hb (by rwa [List.append_nil])⟩

-- What the step of a loop sees of the body: nothing of one that stands in a block.
def seenByStep (l : Loop) (ownBlock : Bool) (body : Rust.Block) : List String :=
  if l.resumes || ownBlock then [] else lets body.stmts

section Loops

variable (l : Loop) (cond : Option Rust.Expr) (ownBlock : Bool) (body : Rust.Block) (post : List Rust.Stmt)
  (bound : List String)

theorem within_stepLoop {inner tail : List Rust.Stmt} {names : List String}
    (hinner : inner = if l.resumes then [.labeled l.resumeLabel body]
      else if ownBlock && !post.isEmpty then [.expr (.block body)] else body.stmts)
    (h : Within (inner ++ post) bound tail names) : Within [stepLoop l cond ownBlock body post] bound tail names := by
  subst hinner
  rw [stepLoop.eq_def]
  cases cond with
  | some c => exact .inside .whileLoop h
  | none => exact .inside .loop h

theorem within_turn : ∃ more, Within [stepLoop l cond ownBlock body post] bound (body.stmts ++ more) bound := by
  have hblock {st : Rust.Stmt} (hst : Encloses st body) : Within ([st] ++ post) bound (body.stmts ++ []) bound := by
    rw [List.append_nil]
    exact .inside hst .here
  by_cases hresumes : l.resumes
  · exact ⟨[], within_stepLoop l cond ownBlock body post bound (if_pos hresumes).symm (hblock .labeled)⟩
  · by_cases hown : (ownBlock && !post.isEmpty)
    · exact ⟨[], within_stepLoop l cond ownBlock body post bound (by rw [if_neg hresumes, if_pos hown]) (hblock .block)⟩
    · exact ⟨post, within_stepLoop l cond ownBlock body post bound (by rw [if_neg hresumes, if_neg hown]) .here⟩

theorem within_step : Within [stepLoop l cond ownBlock body post] bound post (seenByStep l ownBlock body ++ bound) := by
  by_cases hresumes : l.resumes
  · rw [seenByStep, hresumes]
    exact within_stepLoop l cond ownBlock body post bound (if_pos hresumes).symm (.behind .here)
  · by_cases hown : ownBlock
    · rw [seenByStep, hown, Bool.or_true, if_pos rfl]
      cases hpost : post.isEmpty with
      | true =>
          -- Without a step the body needs no block; what follows the loop sees nothing of it.
          obtain rfl := List.isEmpty_iff.mp hpost
          refine .behind ?_
          rw [boundBy_stepLoop]
          exact .here
      | false =>
          have hinner : Within ([Rust.Stmt.expr (.block body)] ++ post) bound post bound := .behind .here
          refine within_stepLoop l cond true body post bound ?_ hinner
          rw [if_neg hresumes, hpost]
          rfl
    · rw [Bool.not_eq_true] at hown
      subst hown
      rw [seenByStep, Bool.not_eq_true _ |>.mp hresumes, Bool.or_false, if_neg Bool.false_ne_true]
      refine within_stepLoop l cond false body post bound ?_ (.append .here)
      rw [if_neg hresumes, Bool.false_and, if_neg Bool.false_ne_true]

end Loops

theorem within_bodyFirst (l : Loop) (c : Rust.Expr) (body : Rust.Block) (bound : List String) :
    ∃ more, Within [doWhile l c body] bound (body.stmts ++ more) bound := by
  rw [doWhile]
  split
  · refine ⟨[], .inside .loop (.inside .labeled ?_)⟩
    rw [List.append_nil]
    exact .here
  · exact ⟨_, .inside .loop .here⟩

-- A loop stands behind its initialization, in a block of their own if there is one.
theorem within_initialized {first tail : List Rust.Stmt} {loop : Rust.Stmt} {bound names : List String}
    (h : Within (first ++ [loop]) bound tail names) :
    Within (if first.isEmpty then [loop] else [.expr (.block ⟨first ++ [loop], none⟩)]) bound tail names := by
  split
  · next hempty =>
      obtain rfl := List.isEmpty_iff.mp hempty
      exact h
  · exact .inside .block h

-- What a loop evaluates apart from its body: its condition, and the step of a `for`.
def outside : Stmt → List (Expr ⊕ Stmt)
  | .whileLoop _ cond _ _ => [.inl cond]
  | .forLoop _ _ cond post _ => cond.toList.map .inl ++ post.toList.map .inr
  | _ => []

-- The code that is written for a condition or a step in a state: for a condition the statement that tests it.
inductive CodeOf (E : Env) (s : State) : Expr ⊕ Stmt → List Rust.Stmt → Prop
  | test {cond : Expr} {c : Rust.Expr} {s' : State} {label : String} {body : Rust.Block}
      (hw : Writes (exprAs .bool cond) E s c s') : CodeOf E s (.inl cond) [.whileLoop label c body]
  | stop {cond : Expr} {c : Rust.Expr} {s' : State} {label : String} (hw : Writes (exprAs .bool cond) E s c s') :
      CodeOf E s (.inl cond) [ifNot c (.breakLoop label)]
  | step {q : Stmt} {code : List Rust.Stmt} {s' : State} (hw : Writes (withRefs q (stmt q)) E s code s') :
      CodeOf E s (.inr q) code

-- The variables in scope for the condition and the step of a statement: those declared in its head, and those around.
def scopeOf (st : Stmt) (visible : List String) : List String :=
  match st with
  | .forLoop _ init _ _ _ => init.toList.flatMap declaredNames ++ visible
  | _ => visible

-- The identifiers of the variables that a body declares in the block of the condition behind it.
def sharedIdents : Stmt → List String
  | .whileLoop _ _ body true => if continuesBlock body then [] else (localsOf body.stmts).map Prod.snd
  | _ => []

-- The identifier of a variable of a place leads to the binding that was made for it, with these names bound since.
def DenotesPast (own : String → Prop) (since : List String) (spot : Spot) (name : String) : Prop :=
  Rust.Name.value name ∉ since ∧ Denotes own spot name

section Parts

variable {own : String → Prop} {interfaces : List String} {visible bound : List String} {code : List Stmt}

theorem Interleaves.mem_of_variable {vars : List (String × String)} {names : List String}
    (h : Interleaves own vars names) {n : String} (hn : n ∈ vars.map Prod.snd) : n ∈ names := by
  induction h with
  | nil => cases hn
  | «variable» _ ih =>
      rcases List.mem_cons.mp hn with rfl | hn
      · exact List.mem_cons_self
      · exact List.mem_cons_of_mem _ (ih hn)
  | own _ _ ih => exact List.mem_cons_of_mem _ (ih hn)

-- A part of a loop and the code for it: the place outside the body at which it is written, and the names that are bound
-- between that place and its code.
structure Stands (E : Env) (own : String → Prop) (st : Stmt) (part : Expr ⊕ Stmt) (written : List Rust.Stmt)
    (visible bound since : List String) (place : Spot) : Prop where
  code : ∃ code more, CodeOf E place.state part code ∧ Within written bound (code ++ more) (since ++ place.bound)
  visible_eq : place.visible = scopeOf st visible
  sound : Sound own place
  since_iff : ∀ x, ¬own x → (x ∈ since ↔ x ∈ sharedIdents st)

variable (htemp : ∀ n, Temporary n → own n) (href : ∀ n, RefOf interfaces n → own n)
include htemp href

-- What the block of a body leaves bound.
theorem bound_body {b : Block} {resumes : Bool} {lb : Loop × Rust.Block} (hb : ∀ x ∈ b.substmts, Regular interfaces x)
    (hw : Writes (inLoop resumes (Emit.block b)) E s lb s') :
    Interleaves own (localsOf b.stmts) (lets lb.2.stmts) ∧ lb.1.resumes = resumes := by
  obtain ⟨t, hblock, -, hresumes⟩ := writes_looped hw
  obtain ⟨t', hstmts, -⟩ := writes_block hblock
  exact ⟨interleaves_stmts htemp href (fun x hx => hb x (mem_substmts_of_mem hx)) hstmts, hresumes⟩

omit htemp href in
theorem stands_while {p : Text.Position} {cond : Expr} {b : Block} {written : List Rust.Stmt}
    (h : Sound own ⟨code, visible, s, bound⟩) (hw : Writes (stmt (.whileLoop p cond b false)) E s written s') :
    ∃ place, Stands E own (.whileLoop p cond b false) (.inl cond) written visible bound [] place := by
  rw [stmt] at hw
  obtain ⟨c, s₁, hc, hw⟩ := writes_bind.mp hw
  obtain ⟨⟨l, body⟩, s₂, -, hw⟩ := writes_bind.mp hw
  obtain ⟨rfl, -⟩ := writes_pure.mp hw
  exact ⟨⟨[], visible, s, bound⟩, ⟨_, [], .test hc, .here⟩, rfl, h.of_scopes rfl, by simp [sharedIdents]⟩

theorem stands_doWhile {p : Text.Position} {cond : Expr} {b : Block} {written : List Rust.Stmt}
    (h : Sound own ⟨code, visible, s, bound⟩) (hb : ∀ x ∈ b.substmts, Regular interfaces x)
    (hw : Writes (stmt (.whileLoop p cond b true)) E s written s') :
    ∃ since place, Stands E own (.whileLoop p cond b true) (.inl cond) written visible bound since place := by
  rw [stmt] at hw
  obtain ⟨⟨l, body⟩, s₁, hbody, hw⟩ := writes_bind.mp hw
  obtain ⟨c, s₂, hc, hw⟩ := writes_bind.mp hw
  obtain ⟨rfl, -⟩ := writes_pure.mp hw
  obtain ⟨hbinds, hresumes⟩ := bound_body htemp href hb hbody
  have hplace : Sound own ⟨[], visible, s₁, bound⟩ :=
    h.beside (extending_inLoop _ (extending_block b) E s _ s₁ h.inFunction hbody) .nil
  dsimp only at hbinds hresumes ⊢
  rw [doWhile, hresumes]
  cases hcontinues : continuesBlock b with
  | true =>
      refine ⟨[], ⟨[], visible, s₁, bound⟩, ⟨_, [], .stop hc, .inside .loop (.behind .here)⟩, rfl, hplace, ?_⟩
      simp [sharedIdents, hcontinues]
  | false =>
      refine ⟨lets body.stmts, ⟨[], visible, s₁, bound⟩, ⟨_, [], .stop hc, .inside .loop (.append .here)⟩, rfl, hplace,
        fun x hx => ?_⟩
      rw [sharedIdents, hcontinues, if_neg Bool.false_ne_true]
      exact ⟨fun hmem => (hbinds.mem_cases hmem).resolve_right hx, hbinds.mem_of_variable⟩

omit htemp href in
theorem writes_for {p : Text.Position} {init : Option Stmt} {cond : Option Expr} {post : Option Stmt} {b : Block}
    {written : List Rust.Stmt} (hw : Writes (stmt (.forLoop p init cond post b)) E s written s') :
    ∃ before s₁ c s₂ l body s₃ q s₄, Writes (optionalStmt init) E s.opened before s₁ ∧
      Writes (cond.mapM (exprAs .bool)) E s₁ c s₂ ∧
      Writes (inLoop (post.isSome && continuesBlock b) (Emit.block b)) E s₂ (l, body) s₃ ∧
      Writes (optionalStmt post) E s₃ q s₄ ∧
      written = if before.isEmpty then [stepLoop l c (declaresVars b) body q]
        else [.expr (.block ⟨before ++ [stepLoop l c (declaresVars b) body q], none⟩)] := by
  rw [stmt] at hw
  obtain ⟨t, hw, -⟩ := writes_scoped hw
  obtain ⟨before, s₁, hi, hw⟩ := writes_bind.mp hw
  obtain ⟨c, s₂, hc, hw⟩ := writes_bind.mp hw
  obtain ⟨⟨l, body⟩, s₃, hlooped, hw⟩ := writes_bind.mp hw
  obtain ⟨q, s₄, hq, hw⟩ := writes_bind.mp hw
  obtain ⟨rfl, -⟩ := writes_pure.mp hw
  exact ⟨before, s₁, c, s₂, l, body, s₃, q, s₄, hi, hc, hlooped, hq, rfl⟩

theorem stands_for {p : Text.Position} {init : Option Stmt} {cond : Option Expr} {post : Option Stmt} {b : Block}
    {written : List Rust.Stmt} (h : Sound own ⟨code, visible, s, bound⟩)
    (hst : ∀ x ∈ (Stmt.forLoop p init cond post b).substmts, Regular interfaces x)
    (hw : Writes (stmt (.forLoop p init cond post b)) E s written s') :
    ∀ part ∈ outside (.forLoop p init cond post b),
      ∃ since place, Stands E own (.forLoop p init cond post b) part written visible bound since place := by
  obtain ⟨hinit, hpost, hbody⟩ := forall_substmts_forLoop hst
  obtain ⟨i, s₁, c, s₂, l, body, s₃, q, s₄, hi, hc, hlooped, hq, rfl⟩ := writes_for hw
  have htest : Sound own ⟨[], init.toList.flatMap declaredNames ++ visible, s₁, lets i ++ bound⟩ :=
    h.behind_init htemp href hinit hi
  have hturn : Sound own ⟨[], init.toList.flatMap declaredNames ++ visible, s₂, lets i ++ bound⟩ :=
    htest.steady (steady_cond cond) hc
  have hstep : Sound own ⟨[], init.toList.flatMap declaredNames ++ visible, s₃, lets i ++ bound⟩ :=
    hturn.beside (extending_inLoop _ (extending_block b) E s₂ _ s₃ hturn.inFunction hlooped) .nil
  obtain ⟨hbinds, -⟩ := bound_body htemp href hbody hlooped
  intro part hpart
  rcases List.mem_append.mp hpart with hpart | hpart
  · obtain ⟨e, he, rfl⟩ := List.mem_map.mp hpart
    obtain rfl := Option.mem_toList.mp he
    obtain ⟨x, t', hx, hpure⟩ := writes_bind.mp hc
    obtain ⟨rfl, -⟩ := writes_pure.mp hpure
    exact ⟨[], _, ⟨_, [], .test hx, within_initialized (.append .here)⟩, rfl, htest, by simp [sharedIdents]⟩
  · obtain ⟨q', hq', rfl⟩ := List.mem_map.mp hpart
    obtain rfl := Option.mem_toList.mp hq'
    rw [optionalStmt] at hq
    refine ⟨seenByStep l (declaresVars b) body, _, ⟨q, [], .step hq, ?_⟩, rfl, hstep, fun x hx => ?_⟩
    · rw [List.append_nil]
      exact within_initialized (.append (within_step l c (declaresVars b) body q _))
    suffices hnone : x ∉ seenByStep l (declaresVars b) body by simp [sharedIdents, hnone]
    intro hseen
    rw [seenByStep] at hseen
    split at hseen
    · cases hseen
    · next hplain =>
        simp only [Bool.not_eq_true, Bool.or_eq_false_iff] at hplain
        rw [localsOf_of_not_declaresVars hplain.2] at hbinds
        exact hx ((hbinds.mem_cases hseen).resolve_left List.not_mem_nil)

-- Every loop, behind the references that it needs.
theorem stands_outside {st : Stmt} {rest : List Stmt} {written : List Rust.Stmt}
    (h : Sound own ⟨st :: rest, visible, s, bound⟩) (hst : ∀ x ∈ st.substmts, Regular interfaces x)
    (hw : Writes (withRefs st (stmt st)) E s written s') :
    ∀ part ∈ outside st, ∃ since place, Stands E own st part written visible bound since place := by
  obtain ⟨refs, s₁, hrefs, hw⟩ := writes_bind.mp hw
  obtain ⟨code, s₂, hcode, hw⟩ := writes_bind.mp hw
  obtain ⟨rfl, -⟩ := writes_pure.mp hw
  have hbehind := h.behind_refs href (hst st (self_mem_substmts st)) hrefs
  have hstands : ∀ part ∈ outside st, ∃ since place, Stands E own st part code visible (lets refs ++ bound) since place := by
    intro part hpart
    cases st with
    | whileLoop p cond b doesFirst =>
        obtain rfl := List.mem_singleton.mp hpart
        cases doesFirst with
        | false =>
            obtain ⟨place, hplace⟩ := stands_while hbehind hcode
            exact ⟨[], place, hplace⟩
        | true => exact stands_doWhile htemp href hbehind (fun x hx => hst x (List.mem_cons_of_mem _ hx)) hcode
    | forLoop p init cond post b => exact stands_for htemp href hbehind hst hcode part hpart
    | _ => cases hpart
  intro part hpart
  obtain ⟨since, place, hplace⟩ := hstands part hpart
  obtain ⟨tail, more, htail, hwithin⟩ := hplace.code
  exact ⟨since, place, ⟨tail, more, htail, hwithin.append⟩, hplace.visible_eq, hplace.sound, hplace.since_iff⟩

end Parts

-- Along a function.

-- The code at a place stands in other code as it is written there.
def Spot.WrittenIn (E : Env) (code : List Rust.Stmt) (bound : List String) (spot : Spot) : Prop :=
  ∃ written more s', Writes (stmts spot.code) E spot.state written s' ∧ Within code bound (written ++ more) spot.bound

theorem writes_unique {α : Type} {act : Emit α} {a b : α} {t t' : State} (ha : Writes act E s a t)
    (hb : Writes act E s b t') : a = b ∧ t = t' := by
  obtain ⟨hsame, rfl⟩ := Prod.mk.inj (ha.symm.trans hb)
  exact ⟨Except.ok.inj hsame, rfl⟩

-- The body of a block, in the state in which the block is entered.
theorem writtenIn_block {b : Block} {body : Rust.Block} {visible bound bound' : List String} {code more : List Rust.Stmt}
    (hw : Writes (block b) E s body s') (hwithin : Within code bound (body.stmts ++ more) bound') :
    Spot.WrittenIn E code bound ⟨b.stmts, visible, s.opened, bound'⟩ := by
  obtain ⟨t, hstmts, -⟩ := writes_block hw
  exact ⟨body.stmts, more, t, hstmts, hwithin⟩

theorem within_enclosed {st : Rust.Stmt} {b : Rust.Block} (bound : List String) (h : Encloses st b) :
    Within [st] bound (b.stmts ++ []) bound := by
  rw [List.append_nil]
  exact .inside h .here

theorem within_elseBranch (pattern : String) (c : Rust.Expr) (t : Rust.Block) (source : Block) (written : Rust.Block)
    (bound : List String) :
    Within [.expr (.ifElse pattern c t (some (elseBranch source written)))] bound (written.stmts ++ []) bound := by
  unfold elseBranch
  split
  · rw [List.append_nil]
    exact .inside .whenFalse .here
  · exact .inside .whenFalse (within_enclosed bound .block)

theorem writes_singleton {st : Stmt} {code : List Rust.Stmt} (hw : Writes (withRefs st (stmt st)) E s code s') :
    Writes (stmts [st]) E s code s' := by
  have hnil : Writes (stmts []) E s' [] s' := by
    rw [stmts]
    exact writes_pure.mpr ⟨rfl, rfl⟩
  rw [stmts]
  exact writes_bind.mpr ⟨_, _, hw, writes_bind.mpr ⟨[], s', hnil, writes_pure.mpr ⟨List.append_nil _, rfl⟩⟩⟩

theorem Opens.writtenIn {st : Stmt} {visible bound : List String} {code : List Rust.Stmt} {spot : Spot}
    (hopens : Opens E st visible s bound spot) (hw : Writes (stmt st) E s code s') (hcode : spot.code ≠ []) :
    spot.WrittenIn E code bound := by
  cases hopens with
  | @block b =>
      rw [stmt] at hw
      obtain ⟨written, s₁, hblock, hw⟩ := writes_bind.mp hw
      obtain ⟨rfl, -⟩ := writes_pure.mp hw
      exact writtenIn_block hblock (within_enclosed bound .block)
  | @whenTrue p cond t e visible bound s s₁ c hc =>
      cases e with
      | none =>
          rw [stmt] at hw
          obtain ⟨c', t₁, hc', hw⟩ := writes_bind.mp hw
          obtain ⟨rfl, rfl⟩ := writes_unique hc hc'
          obtain ⟨body, t₂, hbody, hw⟩ := writes_bind.mp hw
          obtain ⟨rfl, -⟩ := writes_pure.mp hw
          exact writtenIn_block hbody (within_enclosed bound .whenTrue)
      | some e =>
          rw [stmt] at hw
          obtain ⟨c', t₁, hc', hw⟩ := writes_bind.mp hw
          obtain ⟨rfl, rfl⟩ := writes_unique hc hc'
          obtain ⟨body, t₂, hbody, hw⟩ := writes_bind.mp hw
          obtain ⟨other, t₃, -, hw⟩ := writes_bind.mp hw
          obtain ⟨rfl, -⟩ := writes_pure.mp hw
          exact writtenIn_block hbody (within_enclosed bound .whenTrue)
  | @whenFalse p cond t e visible bound s s₁ s₂ c written hc ht =>
      rw [stmt] at hw
      obtain ⟨c', t₁, hc', hw⟩ := writes_bind.mp hw
      obtain ⟨rfl, rfl⟩ := writes_unique hc hc'
      obtain ⟨body, t₂, hbody, hw⟩ := writes_bind.mp hw
      obtain ⟨rfl, rfl⟩ := writes_unique ht hbody
      obtain ⟨other, t₃, hother, hw⟩ := writes_bind.mp hw
      obtain ⟨rfl, -⟩ := writes_pure.mp hw
      exact writtenIn_block hother (within_elseBranch "" c written e other bound)
  | @body p cond b visible bound s s₁ c hc =>
      rw [stmt] at hw
      obtain ⟨c', t₁, hc', hw⟩ := writes_bind.mp hw
      obtain ⟨rfl, rfl⟩ := writes_unique hc hc'
      obtain ⟨⟨l, body⟩, t₂, hlooped, hw⟩ := writes_bind.mp hw
      obtain ⟨rfl, -⟩ := writes_pure.mp hw
      obtain ⟨t, hbody, -⟩ := writes_looped hlooped
      exact writtenIn_block hbody (within_enclosed bound .whileLoop)
  | @bodyFirst p cond b =>
      rw [stmt] at hw
      obtain ⟨⟨l, body⟩, t₁, hlooped, hw⟩ := writes_bind.mp hw
      obtain ⟨c, t₂, -, hw⟩ := writes_bind.mp hw
      obtain ⟨rfl, -⟩ := writes_pure.mp hw
      obtain ⟨t, hbody, -⟩ := writes_looped hlooped
      obtain ⟨more, hwithin⟩ := within_bodyFirst l c body bound
      exact writtenIn_block hbody hwithin
  | testLast | test => exact absurd rfl hcode
  | @init p i cond post b =>
      obtain ⟨before, t₁, c, t₂, l, body, t₃, q, t₄, hi, -, -, -, rfl⟩ := writes_for hw
      exact ⟨before, [stepLoop l c (declaresVars b) body q], t₁, writes_singleton hi, within_initialized .here⟩
  | @turn p i cond post b visible bound s s₁ s₂ before c hi hc =>
      obtain ⟨before', t₁, c', t₂, l, body, t₃, q, t₄, hi', hc', hlooped, -, rfl⟩ := writes_for hw
      obtain ⟨rfl, rfl⟩ := writes_unique hi hi'
      obtain ⟨rfl, rfl⟩ := writes_unique hc hc'
      obtain ⟨t, hbody, -⟩ := writes_looped hlooped
      obtain ⟨more, hwithin⟩ := within_turn l c (declaresVars b) body q (lets before ++ bound)
      exact writtenIn_block hbody (within_initialized (.append hwithin))
  | @post p i cond q b visible bound s s₁ s₂ s₃ before c l written hi hc hb =>
      obtain ⟨before', t₁, c', t₂, l', body, t₃, code, t₄, hi', hc', hlooped, hq, rfl⟩ := writes_for hw
      obtain ⟨rfl, rfl⟩ := writes_unique hi hi'
      obtain ⟨rfl, rfl⟩ := writes_unique hc hc'
      obtain ⟨hpair, rfl⟩ := writes_unique hb hlooped
      cases hpair
      obtain ⟨-, -, -, hresumes⟩ := writes_looped hb
      have hstep := within_step l c (declaresVars b) written code (lets before ++ bound)
      rw [seenByStep, hresumes] at hstep
      refine ⟨code, [], t₄, writes_singleton hq, ?_⟩
      rw [List.append_nil]
      exact within_initialized (.append hstep)

theorem Leads.writtenIn {spot spot' : Spot} {code : List Rust.Stmt} {bound : List String} (hleads : Leads E spot spot')
    (h : spot.WrittenIn E code bound) (hcode : spot'.code ≠ []) : spot'.WrittenIn E code bound := by
  obtain ⟨written, more, s', hw, hwithin⟩ := h
  cases hleads with
  | @behind st rest visible bound' s t first hfirst =>
      rw [stmts] at hw
      obtain ⟨first', t', hfirst', hw⟩ := writes_bind.mp hw
      obtain ⟨rfl, rfl⟩ := writes_unique hfirst hfirst'
      obtain ⟨behind, t', hbehind, hw⟩ := writes_bind.mp hw
      obtain ⟨rfl, -⟩ := writes_pure.mp hw
      rw [List.append_assoc] at hwithin
      exact ⟨behind, more, t', hbehind, hwithin.trans (.append .here)⟩
  | here hrefs => exact absurd rfl hcode
  | @inside st rest visible bound' s s₁ refs spot' hrefs hopens =>
      rw [stmts, withRefs] at hw
      obtain ⟨first, t, hfirst, hw⟩ := writes_bind.mp hw
      obtain ⟨behind, t', -, hw⟩ := writes_bind.mp hw
      obtain ⟨rfl, -⟩ := writes_pure.mp hw
      obtain ⟨refs', t₁, hrefs', hfirst⟩ := writes_bind.mp hfirst
      obtain ⟨rfl, rfl⟩ := writes_unique hrefs hrefs'
      obtain ⟨own, t₂, hown, hfirst⟩ := writes_bind.mp hfirst
      obtain ⟨rfl, -⟩ := writes_pure.mp hfirst
      obtain ⟨inner, after, u, hinner, hinside⟩ := hopens.writtenIn hown hcode
      obtain ⟨last, hextended⟩ := hinside.extend (behind ++ more)
      refine ⟨inner, after ++ last, u, hinner, ?_⟩
      rw [List.append_assoc, List.append_assoc] at hwithin
      rw [List.append_assoc] at hextended
      exact hwithin.trans (.append hextended)

theorem Leads.code_ne_nil {spot spot' : Spot} (h : Leads E spot spot') : spot.code ≠ [] := by
  cases h <;> exact List.cons_ne_nil _ _

-- What holds where a function is entered holds at every place with code.
theorem Reaches.keeps {own : String → Prop} {interfaces : List String} {code : List Rust.Stmt} {bound : List String}
    (htemp : ∀ n, Temporary n → own n) (href : ∀ n, RefOf interfaces n → own n) {start spot : Spot}
    (hreaches : Reaches E start spot) (hregular : ∀ st ∈ substmtsList start.code, Regular interfaces st)
    (hsound : Sound own start) (hwritten : start.WrittenIn E code bound) (hcode : spot.code ≠ []) :
    (∀ st ∈ substmtsList spot.code, Regular interfaces st) ∧ Sound own spot ∧ spot.WrittenIn E code bound := by
  induction hreaches with
  | refl => exact ⟨hregular, hsound, hwritten⟩
  | tail _ hleads ih =>
      obtain ⟨hregular, hsound, hwritten⟩ := ih hleads.code_ne_nil
      exact ⟨fun st hst => hregular st (hleads.substmts st hst),
        hleads.sound_of_regular htemp href hregular (fun hnil => absurd hnil hcode) hsound,
        hleads.writtenIn hwritten hcode⟩

-- The names of a function's parameters, the last first.
def paramNames (g : Rust.Function) : List String := (g.params.map fun p => unmarked p.name).reverse

theorem Enters.writtenIn {g : Rust.Function} {start : Spot} (h : Enters E g start) :
    ∃ body, g.body = some body ∧ start.WrittenIn E body.stmts (paramNames g) := by
  obtain ⟨before, written, tail, s', hbody, hw, hbound⟩ := h
  refine ⟨_, hbody, written, [], s', hw, ?_⟩
  rw [hbound, List.append_nil]
  exact .append .here

-- The condition or the step of a loop at a place, in the code of a function.
theorem exists_part {own : String → Prop} {interfaces : List String} {code : List Rust.Stmt} {visible bound names : List String}
    {st : Stmt} {rest : List Stmt} (htemp : ∀ n, Temporary n → own n) (href : ∀ n, RefOf interfaces n → own n)
    (hregular : ∀ x ∈ st.substmts, Regular interfaces x) (hsound : Sound own ⟨st :: rest, visible, s, bound⟩)
    (hwritten : Spot.WrittenIn E code names ⟨st :: rest, visible, s, bound⟩) :
    ∀ part ∈ outside st, ∃ since place, Stands E own st part code visible names since place := by
  obtain ⟨written, more, s', hw, hwithin⟩ := hwritten
  rw [stmts] at hw
  obtain ⟨first, t, hfirst, hw⟩ := writes_bind.mp hw
  obtain ⟨behind, t', -, hw⟩ := writes_bind.mp hw
  obtain ⟨rfl, -⟩ := writes_pure.mp hw
  intro part hpart
  obtain ⟨since, place, hplace⟩ := stands_outside htemp href hsound hregular hfirst part hpart
  obtain ⟨tail, after, htail, hinside⟩ := hplace.code
  obtain ⟨last, hinside⟩ := hinside.extend (behind ++ more)
  rw [List.append_assoc] at hwithin hinside
  exact ⟨since, place, ⟨tail, after ++ last, htail, hwithin.trans hinside⟩, hplace.visible_eq, hplace.sound, hplace.since_iff⟩

theorem Stands.denotesPast_iff {own : String → Prop} {st : Stmt} {part : Expr ⊕ Stmt} {code : List Rust.Stmt}
    {visible bound since : List String} {place : Spot} (h : Stands E own st part code visible bound since place)
    (happart : SpelledApart own place.visible) {n : String} (hn : n ∈ place.visible) :
    DenotesPast own since place n ↔ Rust.Name.value n ∉ sharedIdents st := by
  rw [DenotesPast, h.since_iff _ (happart n hn).2]
  exact and_iff_left (h.sound.denotes happart n hn)

-- A variable in the condition or the step of a loop is written as its name makes it, and leads to the binding that was
-- made for it outside of the body, unless a body without a block of its own declares one with that identifier.
theorem loop_variables_denote_iff {name : String} {unit : Solidity.SourceUnit} {p : Package} {c : Contract}
    {target : Target} {out : Rust.File} (hp : Resolve.package name unit = .ok p) (hc : c ∈ p.classes)
    (hfile : file p c target = .ok out) :
    (∀ g ∈ out.methods, IsDeployer target g ∨ ∃ params results code, Carries ⟨p, c, target⟩ g params results code) ∧
    ∀ {g : Rust.Function} {params results : List Param} {code : List Stmt} (interfaces : List String),
      Carries ⟨p, c, target⟩ g params results code →
      (∀ v ∈ params ++ results, v.name = "" ∨ Solidity.isIdentifier v.name = true) →
      (∀ st ∈ substmtsList code, Regular interfaces st) →
      ∃ start body, start.code = code ∧ start.visible = named results ++ named params ∧
        Enters ⟨p, c, target⟩ g start ∧ g.body = some body ∧
        ∀ {st : Stmt} {rest : List Stmt} {visible bound : List String} {s : State},
          Reaches ⟨p, c, target⟩ start ⟨st :: rest, visible, s, bound⟩ → ∀ part ∈ outside st,
          ∃ written more since place, CodeOf ⟨p, c, target⟩ place.state part written ∧
            Within body.stmts (paramNames g) (written ++ more) (since ++ place.bound) ∧
            place.visible = scopeOf st visible ∧
            (SpelledApart (IsOwn target interfaces) place.visible → ∀ n ∈ place.visible,
              place.state.local? n = some (Rust.Name.value n) ∧
              (DenotesPast (IsOwn target interfaces) since place n ↔ Rust.Name.value n ∉ sharedIdents st)) := by
  have hsourced := sourced_package hp hc target
  refine ⟨fun g hg => carries_of_origin hsourced (origin_of_methods hsourced hfile g hg), ?_⟩
  intro g params results code interfaces hcarries hidents hcode
  obtain ⟨start, rfl, hvisible, henters, hsound⟩ := enters_of_carries hcarries interfaces hidents
  obtain ⟨body, hbody, hwritten⟩ := henters.writtenIn
  refine ⟨start, body, rfl, hvisible, henters, hbody, fun hreaches part hpart => ?_⟩
  have htemp : ∀ n, Temporary n → IsOwn target interfaces n := fun _ hn => .inr (.inl hn)
  have href : ∀ n, RefOf interfaces n → IsOwn target interfaces n := fun _ hn => .inr (.inr (.inl hn))
  obtain ⟨hregular, hspot, hwritten⟩ := hreaches.keeps htemp href hcode hsound hwritten (List.cons_ne_nil _ _)
  obtain ⟨since, place, hplace⟩ := exists_part htemp href
    (fun x hx => hregular x (mem_substmtsList List.mem_cons_self x hx)) hspot hwritten part hpart
  obtain ⟨written, more, hpartCode, hwithin⟩ := hplace.code
  refine ⟨written, more, since, place, hpartCode, hwithin, hplace.visible_eq, fun happart n hn => ?_⟩
  exact ⟨hplace.sound.local?_eq hn, hplace.denotesPast_iff happart hn⟩

namespace Shadowed

-- `function f(bool a)` with a loop that tests its parameter, around a local of the same name.

def reading (code : Solidity.Operand) : Solidity.Expression := ⟨default, default, ⟨⟨code, []⟩, none⟩, none⟩

def condition : Solidity.Expression := reading (.term default (.ident "a") [])

def inner : Solidity.Statement :=
  .block default ⟨default, default, [
    .varDecl default ⟨default, Resolve.plainType "bool", "", "a", some (reading (.term default (.bool false) []))⟩]⟩

def source (loop : Solidity.Statement) : Solidity.SourceUnit :=
  ⟨default, [Resolve.plainContract "C" false [] [
    .function default
      { start := default, stop := default, kind := "function", name := "f"
        params := [⟨default, Resolve.plainType "bool", "", "a"⟩], attrs := [], returns := []
        body := some ⟨default, default, [loop]⟩ }]]⟩

-- What it becomes.

def taken : Param := ⟨"a", .bool⟩

def body : Block := ⟨default, [.decl default [taken] (.bool default false)], false⟩

def loop (doesFirst : Bool) : Stmt := .whileLoop default (.var default "a" .bool) body doesFirst

def implementation (doesFirst : Bool) : Implementation :=
  { owner := "C", params := [taken], body := some ⟨default, [loop doesFirst], false⟩, implemented := true
    start := default }

def looping (doesFirst : Bool) : Function :=
  { name := "f", sourceName := "f", kind := .function, params := [taken]
    implementations := [implementation doesFirst] }

def contract (doesFirst : Bool) : Contract :=
  { name := "C", kind := .contract, isAbstract := false, bases := [], start := default, chain := ["C"]
    functions := [looping doesFirst], storage := [], dispatch := [looping doesFirst], modifierTable := [] }

def package (doesFirst : Bool) : Package := { name := "sample", classes := [contract doesFirst] }

theorem package_while : Resolve.package "sample" (source (.whileLoop default condition inner)) = .ok (package false) := by
  cbv

theorem package_doWhile : Resolve.package "sample" (source (.doWhile default inner condition)) = .ok (package true) := by
  cbv

theorem file_looping (doesFirst : Bool) : ∃ out, file (package doesFirst) (contract doesFirst) (.ink .v5) = .ok out := by
  refine file_of_isSome ?_
  cases doesFirst <;> decide +kernel

def env (doesFirst : Bool) : Env := ⟨package doesFirst, contract doesFirst, .ink .v5⟩

theorem carries_looping {doesFirst : Bool} {unit : Solidity.SourceUnit} {out : Rust.File}
    (hp : Resolve.package "sample" unit = .ok (package doesFirst))
    (hfile : file (package doesFirst) (contract doesFirst) (.ink .v5) = .ok out) :
    ∃ g ∈ out.methods, Carries (env doesFirst) g [taken] [] [loop doesFirst] := by
  have hsourced := sourced_package hp (c := contract doesFirst) (List.mem_singleton.mpr rfl) (.ink .v5)
  exact carries_of_dispatch (E := env doesFirst) (s := {}) hsourced hfile (List.mem_singleton.mpr rfl) rfl rfl
    (writes_pure.mpr ⟨rfl, rfl⟩)

theorem regular_loop (doesFirst : Bool) : ∀ st ∈ substmtsList [loop doesFirst], Regular [] st := by
  have hparts : substmtsList [loop doesFirst] =
      [loop doesFirst, .block body, .decl default [taken] (.bool default false)] := rfl
  rw [hparts]
  refine List.forall_mem_cons.mpr ⟨.of_no_calls (List.forall_mem_nil _) rfl, List.forall_mem_cons.mpr
    ⟨.of_no_calls (List.forall_mem_nil _) rfl, List.forall_mem_singleton.mpr (.of_no_calls ?_ rfl)⟩⟩
  exact List.forall_mem_singleton.mpr (by decide)

theorem spelledApart_a : SpelledApart (IsOwn (.ink .v5) []) ["a"] := by
  have hvalue : Rust.Name.value "a" = "a" := by decide
  refine List.forall_mem_singleton.mpr ⟨fun m hm _ => List.mem_singleton.mp hm, fun hown => ?_⟩
  have hends := hown.ends
  rw [hvalue] at hends
  simp [Char.isDigit] at hends

-- The condition of the function's loop, in the code that is written.
def Tests (doesFirst : Bool) (g : Rust.Function) (since : List String) (place : Spot) : Prop :=
  ∃ body written more, g.body = some body ∧
    CodeOf (env doesFirst) place.state (.inl (.var default "a" .bool)) written ∧
    Within body.stmts (paramNames g) (written ++ more) (since ++ place.bound)

theorem tested_denotes : ∃ out g since place, file (package false) (contract false) (.ink .v5) = .ok out ∧
    g ∈ out.methods ∧ Tests false g since place ∧ place.visible = ["a"] ∧
    DenotesPast (IsOwn (.ink .v5) []) since place "a" := by
  obtain ⟨out, hout⟩ := file_looping false
  obtain ⟨-, hloops⟩ := loop_variables_denote_iff package_while (List.mem_singleton.mpr rfl) hout
  obtain ⟨g, hg, hcarries⟩ := carries_looping package_while hout
  obtain ⟨⟨code, visible, s, bound⟩, body, rfl, rfl, -, hbody, hparts⟩ :=
    hloops [] hcarries (by decide) (regular_loop false)
  obtain ⟨written, more, since, place, hcode, hwithin, hvisible, hdenotes⟩ :=
    hparts .refl (.inl (.var default "a" .bool)) (List.mem_singleton.mpr rfl)
  replace hvisible : place.visible = ["a"] := hvisible.trans (by decide)
  obtain ⟨-, hiff⟩ := hdenotes (hvisible ▸ spelledApart_a) "a" (by simp [hvisible])
  exact ⟨out, g, since, place, hout, hg, ⟨body, written, more, hbody, hcode, hwithin⟩, hvisible, hiff.mpr (by simp [sharedIdents, loop])⟩

-- Tested behind its body, the loop reads the local that the body declares.
theorem tested_shadowed : ∃ out g since place,
    Resolve.package "sample" (source (.doWhile default inner condition)) = .ok (package true) ∧
    file (package true) (contract true) (.ink .v5) = .ok out ∧ g ∈ out.methods ∧ Tests true g since place ∧
    place.visible = ["a"] ∧ ¬DenotesPast (IsOwn (.ink .v5) []) since place "a" := by
  obtain ⟨out, hout⟩ := file_looping true
  obtain ⟨g, hg, hcarries⟩ := carries_looping package_doWhile hout
  obtain ⟨⟨code, visible, s, bound⟩, rfl, rfl, henters, hsound⟩ := enters_of_carries hcarries [] (by decide)
  obtain ⟨body, hbody, hwritten⟩ := henters.writtenIn
  obtain ⟨since, place, hplace⟩ := exists_part (fun _ hn => .inr (.inl hn)) (fun _ hn => .inr (.inr (.inl hn)))
    (fun x hx => regular_loop true x (mem_substmtsList List.mem_cons_self x hx)) hsound hwritten
    (.inl (.var default "a" .bool)) (List.mem_singleton.mpr rfl)
  have hvisible : place.visible = ["a"] := hplace.visible_eq.trans (by decide)
  have hiff : DenotesPast (IsOwn (.ink .v5) []) since place "a" ↔ _ :=
    hplace.denotesPast_iff (hvisible ▸ spelledApart_a) (by simp [hvisible])
  obtain ⟨written, more, hcode, hwithin⟩ := hplace.code
  refine ⟨out, g, since, place, package_doWhile, hout, hg, ⟨body, written, more, hbody, hcode, hwithin⟩, hvisible, ?_⟩
  rw [hiff]
  decide +kernel

end Shadowed

end RustContracts.Emit
