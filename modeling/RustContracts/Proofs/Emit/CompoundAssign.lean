import RustContracts.Proofs.Emit.CallCount
import RustContracts.Proofs.Emit.Tracked
import RustContracts.Proofs.Resolve.Steps

-- What a compound assignment calls. Its target is written twice, once for its value and once as the place that is
-- assigned, so the calls in the keys of the target are made twice.
namespace RustContracts.Emit

open Program
open Rust (Rules callsOfList callsOfStmts)

variable {isRef : String → Bool} {E : Env} {n m : Nat} {x y : Rust.Expr} {xs : List Rust.Expr} {s s' : State}

-- Keys that are repeated.

-- The rules under which only references are called by the methods of other contracts.
def refRules (isRef : String → Bool) : Rules where
  reserved name := isRef name = true
  declares _ _ := False
  marks _ _ := False
  calls _ method := method ≠ "clone" ∧ method ≠ "into"
  reserved_of_declares h := h.elim
  calls_plain h := h

-- The calls that can be told apart from what code does with values.
def plainCalls : Calls := fun _ method _ => method.name ≠ "clone" ∧ method.name ≠ "into"

theorem Spares.free (h : Spares isRef) : (refRules isRef).Free where
  temp stem hstem k := Bool.eq_false_iff.mp (h.temp stem hstem k)
  type name := Bool.eq_false_iff.mp (h.type name)
  fixed name hname := Bool.eq_false_iff.mp (h.fixed name hname)

theorem Tells.named {scopes : List Scope} (h : Tells isRef scopes) : Named (refRules isRef) E plainCalls scopes where
  locals scope hscope name ident hmem := Bool.eq_false_iff.mp (h.locals scope hscope name ident hmem)
  refs _ _ _ _ _ _ _ _ _ hcall _ _ := hcall

theorem callsIn_of_countable {e : Expr} (he : e.Each (Countable E)) : CallsIn plainCalls e :=
  fun p interface method address args hmem => he (.externalCall p interface method address args) hmem

-- A value that is repeated and not bound to a variable calls nothing.
def Repeatable (isRef : String → Bool) (x : Rust.Expr) : Prop := x.isSimple = true → x.calls isRef = 0

section Steps

variable {β : Type} [Tallied β]

theorem takes_key_bind (hfree : Spares isRef) (hconsts : ConstantsCallNothing E) (t : Ty) {e : Expr}
    (he : e.Each (Countable E)) {f : Rust.Expr → Emit β}
    (hf : ∀ x, x.calls isRef = e.callCount → Repeatable isRef x → Takes isRef E m (f x)) :
    Takes isRef E m (exprAs t e >>= f) := by
  intro s b s' hs hw
  obtain ⟨x, s₁, hx, hw⟩ := writes_bind.mp hw
  obtain ⟨hsame, hcalls⟩ := takes_exprAs hfree hconsts t he s x s₁ hs hx
  have hplain : ConstantsIn plainCalls E := fun r c v hc hv => callsIn_of_countable (hconsts r c v hc hv).2
  have hclean := (neat_exprAs hfree.free hplain t (callsIn_of_countable he) s x s₁ hs.named hx).2
  have hreserved (name : String) (href : isRef name = true) : (refRules isRef).reserved name ∧ Rust.isPath name = false :=
    ⟨href, Bool.eq_false_iff.mpr fun hpath => absurd href (Bool.eq_false_iff.mp (hfree.path name hpath))⟩
  have hrepeat : Repeatable isRef x := fun hsimple => Rust.calls_of_isSimple hreserved hsimple hclean
  obtain ⟨hsame', hb⟩ := hf x hcalls hrepeat s₁ b s' (hsame.scopes_eq ▸ hs) hw
  exact ⟨hsame.trans hsame', hb⟩

theorem takes_bindUnlessSimple_bind (hfree : Spares isRef) {stem : String} (hstem : stem ∈ stems)
    (hx : Repeatable isRef x) {f : List Rust.Stmt × Rust.Expr → Emit β}
    (hf : ∀ bound y, callsOfStmts isRef bound = x.calls isRef → y.calls isRef = 0 → Takes isRef E m (f (bound, y))) :
    Takes isRef E m (bindUnlessSimple stem x >>= f) := by
  unfold bindUnlessSimple
  split
  · next hsimple =>
      rw [pure_bind]
      exact hf [] x (hx hsimple).symm (hx hsimple)
  · rw [bind_assoc]
    refine takes_temp_bind hfree hstem fun name hname => ?_
    rw [pure_bind]
    refine hf _ _ ?_ (Rust.calls_variable hname)
    rw [Rust.callsOfStmts_cons, Rust.calls_letVar, Rust.callsOfStmts_nil, Nat.add_zero]

theorem takes_bindAll_bind (hfree : Spares isRef) {stem : String} (hstem : stem ∈ stems)
    (hxs : ∀ x ∈ xs, Repeatable isRef x) {f : List Rust.Stmt × List Rust.Expr → Emit β}
    (hf : ∀ bound ys, callsOfStmts isRef bound = callsOfList isRef xs → callsOfList isRef ys = 0 →
      Takes isRef E m (f (bound, ys))) : Takes isRef E m (bindAll stem xs >>= f) := by
  induction xs generalizing f with
  | nil =>
      rw [bindAll, pure_bind]
      exact hf [] [] rfl rfl
  | cons x xs ih =>
      obtain ⟨hx, hxs⟩ := List.forall_mem_cons.mp hxs
      rw [bindAll, bind_assoc]
      refine takes_bindUnlessSimple_bind hfree hstem hx fun bound y hbound hy => ?_
      rw [bind_assoc]
      refine ih hxs fun more ys hmore hys => ?_
      rw [pure_bind]
      refine hf _ _ ?_ ?_
      · rw [Rust.callsOfStmts_append, Rust.callsOfList_cons, hbound, hmore]
      · rw [Rust.callsOfList_cons, hy, hys]

end Steps

theorem callsOfList_clonedKeys : callsOfList isRef (xs.map clonedKey) = callsOfList isRef xs := by
  have hclone (x : Rust.Expr) : (clonedKey x).calls isRef = x.calls isRef := by
    unfold clonedKey
    split
    · exact Rust.calls_method _
    · rfl
  induction xs with
  | nil => rfl
  | cons x xs ih => rw [List.map_cons, Rust.callsOfList_cons, Rust.callsOfList_cons, hclone, ih]

-- Places.

-- How many calls the keys of a path make.
def Step.callCount : Step → Nat
  | index _ key _ => key.callCount
  | member _ _ _ => 0

def stepsCount (path : List Step) : Nat := (path.map Step.callCount).sum

theorem stepsCount_cons (step : Step) (path : List Step) :
    stepsCount (step :: path) = step.callCount + stepsCount path := by
  rw [stepsCount, List.map_cons, List.sum_cons, stepsCount]

theorem stepsCount_append (path more : List Step) : stepsCount (path ++ more) = stepsCount path + stepsCount more := by
  rw [stepsCount, List.map_append, List.sum_append, stepsCount, stepsCount]

-- A target calls what its root and its keys call.
theorem callCount_accessPath (e : Expr) : e.callCount = (accessPath e).1.callCount + stepsCount (accessPath e).2 := by
  fun_induction accessPath e with
  | case1 p target key t root steps heq ih =>
      rw [heq] at ih
      rw [Expr.callCount, ih, stepsCount_append, stepsCount_cons, Nat.add_assoc]
      rfl
  | case2 p target name t root steps heq ih =>
      rw [heq] at ih
      rw [Expr.callCount, ih, stepsCount_append, stepsCount_cons]
      rfl
  | case3 e => rfl

def Step.Countable (E : Env) : Step → Prop
  | index _ key _ => key.Each (Emit.Countable E)
  | member _ _ _ => True

theorem countable_accessPath {e : Expr} (he : e.Each (Countable E)) : ∀ step ∈ (accessPath e).2, step.Countable E := by
  fun_induction accessPath e with
  | case1 p target key t root steps heq ih =>
      obtain ⟨-, hchildren⟩ := Expr.each_iff.mp he
      obtain ⟨htarget, hkey, -⟩ : target.Each (Countable E) ∧ key.Each (Countable E) ∧ True := by
        simpa [Expr.children] using hchildren
      rw [heq] at ih
      exact List.forall_mem_append.mpr ⟨ih htarget, List.forall_mem_singleton.mpr hkey⟩
  | case2 p target name t root steps heq ih =>
      obtain ⟨-, hchildren⟩ := Expr.each_iff.mp he
      rw [heq] at ih
      refine List.forall_mem_append.mpr ⟨ih (hchildren target ?_), List.forall_mem_singleton.mpr trivial⟩
      exact List.mem_singleton_self target
  | case3 e => simp

theorem takes_elementsArePlaces_bind {β : Type} [Tallied β] {f : Bool → Emit β}
    (hplaces : ∀ v, E.target = .ink v → Takes isRef E m (f true))
    (hcells : E.target = .soroban → Takes isRef E m (f false)) :
    Takes isRef E m (elementsArePlaces >>= f) := by
  intro s b s' hs hw
  obtain ⟨inPlace, s₁, hplace, hw⟩ := writes_bind.mp hw
  rw [elementsArePlaces, writes_of_target] at hplace
  cases htarget : E.target with
  | ink v =>
      rw [htarget] at hplace
      obtain ⟨rfl, rfl⟩ := writes_pure.mp hplace
      exact hplaces v htarget s b s' hs hw
  | soroban =>
      rw [htarget] at hplace
      obtain ⟨rfl, rfl⟩ := writes_pure.mp hplace
      exact hcells htarget s b s' hs hw

-- What is read into a variable, changed there and written back.
theorem callsOfStmts_detour {bound inner : List Rust.Stmt} {old : Rust.Expr} {back : Rust.Stmt} {name : String}
    (hold : old.calls isRef = 0) (hback : back.calls isRef = 0) :
    callsOfStmts isRef (bound ++ [Rust.Stmt.letVar true name "" (some old)] ++ inner ++ [back]) =
      callsOfStmts isRef bound + callsOfStmts isRef inner := by
  simp only [Rust.callsOfStmts_append, Rust.callsOfStmts_cons, Rust.callsOfStmts_nil, Rust.calls_letVar, hold, hback,
    Nat.add_zero]

section Changes

variable (hfree : Spares isRef) (hconsts : ConstantsCallNothing E)
include hfree hconsts

-- By induction along the path. Where an element is no place, the base is a variable that is read and written.
theorem takes_changePath (value : Rust.Expr) {path : List Step} (hpath : ∀ step ∈ path, step.Countable E)
    (hbase : E.target = .soroban → x.calls isRef = 0) :
    Takes isRef E (x.calls isRef + value.calls isRef + stepsCount path) (changePath (.set value) x path) := by
  induction path generalizing x with
  | nil =>
      refine takes_pure ?_
      rw [tally_stmts, Rust.callsOfStmts_cons, Rust.calls_assign]
      rfl
  | cons step rest ih =>
      obtain ⟨hstep, hrest⟩ := List.forall_mem_cons.mp hpath
      rw [stepsCount_cons]
      cases step with
      | member p name on =>
          have hfield : (Rust.Expr.field x (Rust.Name.value name)).calls isRef = x.calls isRef := Rust.calls_field _
          have htakes := ih hrest (fun h => hfield.trans (hbase h))
          rw [hfield] at htakes
          rw [changePath, Step.callCount, Nat.zero_add]
          exact htakes
      | index start key on =>
          rw [changePath, Step.callCount]
          split
          · exact takes_throw_bind _ _
          · refine takes_key_bind hfree hconsts _ hstep fun k hk hrepeat => ?_
            refine takes_elementsArePlaces_bind (fun v hink => ?_) fun hsoroban => ?_
            · rw [if_pos rfl]
              refine takes_bind (takes_arrayIndex rfl _) fun element helement => ?_
              have htakes := ih (x := element) hrest fun h => by rw [hink] at h; cases h
              have helement : element.calls isRef = x.calls isRef + k.calls isRef := helement
              rw [helement, hk] at htakes
              have hsum : x.calls isRef + value.calls isRef + (key.callCount + stepsCount rest) =
                  x.calls isRef + key.callCount + value.calls isRef + stepsCount rest := by omega
              rw [hsum]
              exact htakes
            · have hx := hbase hsoroban
              rw [if_neg Bool.false_ne_true]
              split
              · next v hset =>
                obtain rfl := Change.set.inj hset
                refine takes_bind (takes_arraySet _ rfl) fun back hback => takes_pure ?_
                have hback : back.calls isRef = x.calls isRef + k.calls isRef + value.calls isRef := hback
                rw [tally_stmts, Rust.callsOfStmts_cons, Rust.callsOfStmts_nil, hback, hk]
                change _ = _ + (key.callCount + 0)
                omega
              · refine takes_bindUnlessSimple_bind hfree (by decide) hrepeat fun bound k' hbound hk' => ?_
                refine takes_bind (takes_arrayIndex (congrArg₂ (· + ·) hx hk') _) fun old hold => ?_
                refine takes_temp_bind hfree (by decide) fun name hname => ?_
                have hvar : (Rust.Expr.ident name).calls isRef = 0 := Rust.calls_variable hname
                refine takes_bind (ih hrest fun _ => hvar) fun inner hinner => ?_
                have hset : x.calls isRef + k'.calls isRef + (Rust.Expr.ident name).calls isRef = 0 := by
                  rw [hx, hk', hvar]
                refine takes_bind (takes_arraySet _ hset) fun back hback => takes_pure ?_
                have hinner : callsOfStmts isRef inner = _ := hinner
                rw [tally_stmts, callsOfStmts_detour hold hback, hbound, hinner, hk, hvar, hx]
                omega

theorem takes_mappingKeys_bind {β : Type} [Tallied β] (d : FieldDecl) (types : List Ty) {path : List Step}
    (hpath : ∀ step ∈ path, step.Countable E) {f : List Rust.Expr → Emit β}
    (hf : ∀ ks, callsOfList isRef ks = stepsCount (path.take types.length) → (∀ k ∈ ks, Repeatable isRef k) →
      Takes isRef E m (f ks)) : Takes isRef E m (mappingKeys d types path >>= f) := by
  induction types generalizing path f with
  | nil =>
      rw [mappingKeys, pure_bind]
      exact hf [] rfl (by simp)
  | cons t types ih =>
      cases path with
      | nil =>
          rw [mappingKeys.eq_def]
          exact hf [] rfl (by simp)
      | cons step path =>
          obtain ⟨hstep, hmore⟩ := List.forall_mem_cons.mp hpath
          cases step with
          | member start name on => exact takes_throw_bind _ _
          | index start key on =>
              rw [mappingKeys, bind_assoc]
              refine takes_key_bind hfree hconsts t hstep fun k hk hrepeat => ?_
              rw [bind_assoc]
              refine ih hmore fun ks hks hrepeats => ?_
              rw [pure_bind]
              refine hf _ ?_ (List.forall_mem_cons.mpr ⟨hrepeat, hrepeats⟩)
              rw [Rust.callsOfList_cons, hk, hks, List.length_cons, List.take_succ_cons, stepsCount_cons]
              rfl

theorem takes_changeField (value : Rust.Expr) (start : Text.Position) (d : FieldDecl) {path : List Step}
    (hpath : ∀ step ∈ path, step.Countable E) :
    Takes isRef E (value.calls isRef + stepsCount path) (changeField start d path (.set value)) := by
  have hrest : ∀ step ∈ path.drop d.type.mappingDepth, step.Countable E :=
    fun step hstep => hpath step (List.mem_of_mem_drop hstep)
  have hsplit : stepsCount (path.take d.type.mappingDepth) + stepsCount (path.drop d.type.mappingDepth) =
      stepsCount path := by rw [← stepsCount_append, List.take_append_drop]
  unfold changeField
  dsimp only
  split
  · exact takes_throw_bind _ _
  · refine takes_mappingKeys_bind hfree hconsts d _ hpath fun keys hkeys hrepeats => ?_
    refine takes_bind (takes_fieldPlace? hfree d) fun place hplace => ?_
    split
    · next field =>
        have hfield : field.calls isRef = 0 := hplace field rfl
        have htakes := takes_changePath hfree hconsts value hpath fun _ => hfield
        rwa [hfield, Nat.zero_add] at htakes
    · split
      · next v hnil hset =>
          obtain rfl := Change.set.inj hset
          refine takes_bind (takes_writeField hfree d rfl) fun st hst => takes_pure ?_
          have hst : st.calls isRef = callsOfList isRef keys + value.calls isRef := hst
          have hkeys : callsOfList isRef keys = stepsCount (path.take d.type.mappingDepth) := hkeys
          rw [hnil] at hsplit
          rw [tally_stmts, Rust.callsOfStmts_cons, Rust.callsOfStmts_nil, hst, hkeys, ← hsplit]
          change _ = _ + (_ + 0)
          omega
      · refine takes_bindAll_bind hfree (by decide) hrepeats fun bound ks hbound hks => ?_
        have hcloned : callsOfList isRef (ks.map clonedKey) = 0 := callsOfList_clonedKeys.trans hks
        refine takes_bind (takes_readField hfree d hcloned) fun old hold => ?_
        refine takes_temp_bind hfree (by decide) fun name hname => ?_
        have hvar : (Rust.Expr.ident name).calls isRef = 0 := Rust.calls_variable hname
        refine takes_bind (takes_changePath hfree hconsts value hrest fun _ => hvar) fun inner hinner => ?_
        refine takes_bind (takes_writeField hfree d (congrArg₂ (· + ·) hks hvar)) fun back hback => takes_pure ?_
        have hinner : callsOfStmts isRef inner = _ := hinner
        have hkeys : callsOfList isRef keys = stepsCount (path.take d.type.mappingDepth) := hkeys
        rw [tally_stmts, callsOfStmts_detour hold hback, hbound, hinner, hkeys, hvar]
        omega

-- A place that is assigned makes the calls of its keys and of the value.
theorem takes_changeTarget (value : Rust.Expr) {target : Expr} (htarget : target.Each (Countable E)) :
    Takes isRef E (value.calls isRef + target.callCount) (changeTarget target (.set value)) := by
  have hpath := countable_accessPath htarget
  rw [callCount_accessPath]
  unfold changeTarget
  split
  · next p name t path heq =>
      rw [heq] at hpath ⊢
      change Takes isRef E (_ + (0 + stepsCount path)) _
      rw [Nat.zero_add]
      refine takes_local_bind fun found hfound => ?_
      cases found with
      | none => exact takes_throw _
      | some ident =>
          have hvar : (Rust.Expr.ident ident).calls isRef = 0 := Rust.calls_variable (hfound ident rfl)
          have htakes := takes_changePath hfree hconsts value hpath fun _ => hvar
          rwa [hvar, Nat.zero_add] at htakes
  · next p d path heq =>
      rw [heq] at hpath ⊢
      change Takes isRef E (_ + (0 + stepsCount path)) _
      rw [Nat.zero_add]
      exact takes_changeField hfree hconsts value _ d hpath
  · exact takes_throw _

omit hconsts in
theorem takes_tupleTemps_bind {β : Type} [Tallied β] (es : List Expr) {f : List String → Emit β}
    (hf : ∀ names, names.length = es.length → (∀ name ∈ names, isRef name = false) → Takes isRef E m (f names)) :
    Takes isRef E m (tupleTemps es >>= f) := by
  induction es generalizing f with
  | nil =>
      rw [tupleTemps, pure_bind]
      exact hf [] rfl (by simp)
  | cons e es ih =>
      simp only [tupleTemps, bind_assoc, pure_bind]
      refine takes_temp_bind hfree (by decide) fun name hname => ih fun names hlength hnames => ?_
      exact hf (name :: names) (by rw [List.length_cons, List.length_cons, hlength])
        (List.forall_mem_cons.mpr ⟨hname, hnames⟩)

-- A tuple is taken apart into temporary variables, each of which is assigned.
theorem takes_assign :
    (∀ value target, target.Each (Countable E) →
      Takes isRef E (value.calls isRef + target.callCount) (assign value target)) ∧
      ∀ names targets, names.length = targets.length → (∀ name ∈ names, isRef name = false) →
        (∀ e ∈ targets, e.Each (Countable E)) → Takes isRef E (callCountOf targets) (assignAll names targets) := by
  apply assign.mutual_induct
    (fun value target => target.Each (Countable E) →
      Takes isRef E (value.calls isRef + target.callCount) (assign value target))
    (fun names targets => names.length = targets.length → (∀ name ∈ names, isRef name = false) →
        (∀ e ∈ targets, e.Each (Countable E)) → Takes isRef E (callCountOf targets) (assignAll names targets))
  · intro value p elements ih htargets
    rw [assign]
    refine takes_tupleTemps_bind hfree elements fun names hlength hnames => ?_
    refine takes_bind (ih names hlength hnames (Expr.each_iff.mp htargets).2) fun parts hparts => takes_pure ?_
    have hparts : callsOfStmts isRef parts = callCountOf elements := hparts
    rw [tally_stmts, Rust.callsOfStmts_cons, Rust.calls_letVar, hparts, Expr.callCount]
  · intro value target htuple htarget
    rw [assign]
    · exact takes_changeTarget hfree hconsts value htarget
    · exact htuple
  · intro name names e rest ihe ihrest hlength hnames htargets
    obtain ⟨hname, hnames⟩ := List.forall_mem_cons.mp hnames
    obtain ⟨htarget, htargets⟩ := List.forall_mem_cons.mp htargets
    have htakes := ihe htarget
    rw [Rust.calls_variable hname, Nat.zero_add] at htakes
    rw [assignAll]
    refine takes_bind htakes fun stmts hstmts => ?_
    refine takes_bind (ihrest (Nat.succ.inj hlength) hnames htargets) fun more hmore => takes_pure ?_
    exact Rust.callsOfStmts_append.trans (congrArg₂ (· + ·) hstmts hmore)
  · intro targets names hnil hlength _ _
    rw [assignAll]
    · cases targets with
      | nil => exact takes_pure rfl
      | cons e rest =>
          cases names with
          | nil => cases hlength
          | cons name names => exact absurd rfl (hnil name names e rest rfl)
    · exact hnil

end Changes

-- References that are declared.

theorem Tells.declareRef (hs : Tells isRef s.frame.scopes) {key interface name : String}
    (hrefs : ∀ k, isRef (numbered (Rust.Name.value interface) k) = true)
    (hw : Writes (Emit.declareRef key interface) E s name s') : Tells isRef s'.frame.scopes := by
  have ho : outcome (Emit.declareRef key interface) E s =
      (.ok (numbered (Rust.Name.value interface) (s.refCount interface)),
        (s.countRef interface).mapScope fun scope => { scope with
          refs := (key, numbered (Rust.Name.value interface) (s.refCount interface)) :: scope.refs }) := rfl
  rw [Writes, ho] at hw
  obtain ⟨-, rfl⟩ := Prod.mk.inj hw
  refine ⟨fun scope hscope n ident hmem => ?_, fun scope hscope k n hmem => ?_⟩
  · rcases State.mem_mapScope hscope with hscope | ⟨old, hold | rfl, rfl⟩
    · exact hs.locals scope hscope n ident hmem
    · exact hs.locals old hold n ident hmem
    · cases hmem
  · rcases State.mem_mapScope hscope with hscope | ⟨old, hold, rfl⟩
    · exact hs.refs scope hscope k n hmem
    · rcases List.mem_cons.mp hmem with heq | hmem
      · cases heq
        exact hrefs _
      · rcases hold with hold | rfl
        · exact hs.refs old hold k n hmem
        · cases hmem

theorem Tells.newRef (hs : Tells isRef s.frame.scopes) {interface : String} {method : Signature} {account : Rust.Expr}
    (hrefs : ∀ k, isRef (numbered (Rust.Name.value interface) k) = true) {code : List Rust.Stmt}
    (hw : Writes (Emit.newRef interface method account) E s code s') : Tells isRef s'.frame.scopes := by
  obtain ⟨found, s₁, hfound, hw⟩ := writes_bind.mp hw
  rw [← (steady_ref? _).sameNames hfound |>.scopes_eq] at hs
  cases found with
  | some name =>
      obtain ⟨-, rfl⟩ := writes_pure.mp hw
      exact hs
  | none =>
      obtain ⟨made, s₂, hmade, hw⟩ := writes_bind.mp hw
      obtain ⟨u, s₃, hnote, hw⟩ := writes_bind.mp hw
      obtain ⟨name, s₄, hname, hw⟩ := writes_bind.mp hw
      obtain ⟨-, rfl⟩ := writes_pure.mp hw
      obtain ⟨-, rfl⟩ := writes_externalRef hmade
      rw [← frame_noteInterface hnote] at hs
      exact hs.declareRef hrefs hname

theorem Tells.declareRefs (hs : Tells isRef s.frame.scopes) {calls : List (String × Signature × Expr)}
    (hrefs : ∀ c ∈ calls, ∀ k, isRef (numbered (Rust.Name.value c.1) k) = true) {code : List Rust.Stmt}
    (hw : Writes (Emit.declareRefs calls) E s code s') : Tells isRef s'.frame.scopes := by
  induction calls generalizing s code with
  | nil =>
      obtain ⟨-, rfl⟩ := writes_pure.mp hw
      exact hs
  | cons c calls ih =>
      obtain ⟨interface, method, address⟩ := c
      obtain ⟨hnew, hrefs⟩ := List.forall_mem_cons.mp hrefs
      rw [declareRefs_cons] at hw
      obtain ⟨account, s₁, haccount, hw⟩ := writes_bind.mp hw
      obtain ⟨here, s₂, hhere, hw⟩ := writes_bind.mp hw
      obtain ⟨more, s₃, hmore, hw⟩ := writes_bind.mp hw
      obtain ⟨-, rfl⟩ := writes_pure.mp hw
      rw [← ((steady_exprAs _ _).sameNames haccount).scopes_eq] at hs
      exact ih (hs.newRef hnew hhere) hrefs hmore

end RustContracts.Emit

namespace RustContracts.Resolve

open Program
open Text (Position)

variable {env : Env} {g g' : Gathered}

-- Statements such as `x += 1`, `x++` and `--x`.
def isCompound (e : Solidity.Expression) : Bool :=
  match e.assigned with
  | some assigned => assigned.op.compound.isSome
  | none =>
    match e.operand? with
    | some (.unary _ (.step _) _) => true
    | some (.term _ _ suffixes) =>
      match suffixes.getLast? with
      | some (.step _ _) => true
      | _ => false
    | _ => false

theorem resolves_stepStmt {start : Position} {op : Solidity.StepOp} {target : Resolving Expr} {st : Stmt}
    (h : Resolves (stepStmt start op target) env g st g') :
    ∃ x, st = .assign start x (newBinary start op.binary x (.int start 1)) := by
  obtain ⟨x, g₁, -, h⟩ := resolves_bind.mp h
  obtain ⟨u, g₂, -, h⟩ := resolves_bind.mp h
  obtain ⟨rfl, -⟩ := resolves_pure.mp h
  exact ⟨x, rfl⟩

-- One expression is both the target and the left operand.
theorem resolves_compound {e : Solidity.Expression} {st : Stmt} (he : isCompound e = true)
    (h : Resolves (exprStmt e) env g st g') :
    ∃ op target value, st = .assign e.start target (newBinary e.start op target value) := by
  unfold isCompound at he
  unfold exprStmt at h
  split at he
  · next assigned hassigned =>
      rw [hassigned] at h
      obtain ⟨target, g₁, -, h⟩ := resolves_bind.mp h
      obtain ⟨u, g₂, -, h⟩ := resolves_bind.mp h
      obtain ⟨value, g₃, -, h⟩ := resolves_bind.mp h
      obtain ⟨op, hop⟩ := Option.isSome_iff_exists.mp he
      rw [hop] at h
      obtain ⟨rfl, -⟩ := resolves_pure.mp h
      exact ⟨op, target, value, rfl⟩
  · next hassigned =>
      rw [hassigned] at h
      split at he
      · next start op inner hoperand =>
          rw [hoperand] at h
          obtain ⟨x, rfl⟩ := resolves_stepStmt h
          exact ⟨_, x, _, rfl⟩
      · next start primary suffixes hoperand =>
          rw [hoperand] at h
          split at he
          · next p op hlast =>
              simp only [hlast] at h
              obtain ⟨x, rfl⟩ := resolves_stepStmt h
              exact ⟨_, x, _, rfl⟩
          · cases he
      · cases he

theorem callCount_newBinary (start : Position) (op : Solidity.BinaryOp) (x y : Expr) :
    (newBinary start op x y).callCount = x.callCount + y.callCount := by
  unfold newBinary
  dsimp only
  split
  · split <;> rfl
  · rfl

end RustContracts.Resolve

namespace RustContracts.Emit

open Program
open Rust (callsOfStmts)

variable {isRef : String → Bool} {E : Env} {s s' : State}

-- The calls of the target are made for its value and again for its place.
theorem takes_compound (hfree : Spares isRef) (hconsts : ConstantsCallNothing E) {start : Text.Position}
    {op : Solidity.BinaryOp} {target value : Expr} (htarget : target.Each (Countable E))
    (hvalue : (Resolve.newBinary start op target value).Each (Countable E)) :
    Takes isRef E (2 * target.callCount + value.callCount)
      (stmt (.assign start target (Resolve.newBinary start op target value))) := by
  rw [stmt]
  refine takes_bind (takes_exprAs hfree hconsts _ hvalue) fun x hx => ?_
  have hx : x.calls isRef = target.callCount + value.callCount :=
    hx.trans (Resolve.callCount_newBinary start op target value)
  have htakes := (takes_assign hfree hconsts).1 x target htarget
  have hsum : 2 * target.callCount + value.callCount = x.calls isRef + target.callCount := by omega
  rw [hsum]
  exact htakes

-- A compound assignment, an increment or a decrement makes all calls of its target twice. So each of them is made once
-- only where the target calls nothing.
theorem compound_calls_target_twice (hfree : Spares isRef) (hconsts : ConstantsCallNothing E) {env : Resolve.Env}
    {g g' : Resolve.Gathered} {e : Solidity.Expression} {st : Stmt} (he : Resolve.isCompound e = true)
    (hresolves : Resolve.Resolves (Resolve.exprStmt e) env g st g') (hst : ∀ x ∈ st.directExprs, x.Each (Countable E))
    (hrefs : ∀ c ∈ externalCalls st, ∀ k, isRef (numbered (Rust.Name.value c.1) k) = true)
    (hs : Tells isRef s.frame.scopes) {written : List Rust.Stmt} (hw : Writes (withRefs st (stmt st)) E s written s') :
    ∃ op target value, st = .assign e.start target (Resolve.newBinary e.start op target value) ∧
      ∃ refs code s₁, written = refs ++ code ∧ Writes (declareRefs (externalCalls st)) E s refs s₁ ∧
        callsOfStmts isRef code = 2 * target.callCount + value.callCount ∧
        (callsOfStmts isRef code = target.callCount + value.callCount ↔ target.callCount = 0) := by
  obtain ⟨op, target, value, rfl⟩ := Resolve.resolves_compound he hresolves
  obtain ⟨htarget, hvalue, -⟩ : target.Each (Countable E) ∧
      (Resolve.newBinary e.start op target value).Each (Countable E) ∧ True := by
    simpa [Stmt.directExprs] using hst
  obtain ⟨refs, s₁, hrefs', hw⟩ := writes_bind.mp hw
  obtain ⟨code, s₂, hcode, hw⟩ := writes_bind.mp hw
  obtain ⟨rfl, -⟩ := writes_pure.mp hw
  have hcount : callsOfStmts isRef code = 2 * target.callCount + value.callCount :=
    (takes_compound hfree hconsts htarget hvalue s₁ code s₂ (hs.declareRefs hrefs hrefs') hcode).2
  exact ⟨op, target, value, rfl, refs, code, s₁, rfl, hrefs', hcount, by omega⟩

-- A key that a function gives: `m[next()] += 5`
namespace NextKey

def operand (primary : Solidity.Primary) (suffixes : List Solidity.Suffix) : Solidity.Conditional :=
  ⟨⟨.term {} primary suffixes, []⟩, none⟩

def value (primary : Solidity.Primary) (suffixes : List Solidity.Suffix) : Solidity.Expression :=
  ⟨{}, {}, operand primary suffixes, none⟩

-- `m[next()] += 5`
def source : Solidity.Expression :=
  ⟨{}, {}, operand (.ident "m") [.index {} (some (value (.ident "next") [.call {} []]))],
    some ⟨⟨some .add⟩, value (.number {} "5" "") []⟩⟩

def field : FieldDecl :=
  { name := "m", sourceName := "m", type := .mapping .uint256 .uint256, owner := "C", start := {} }

def next : Function :=
  { name := "next", sourceName := "next", kind := .function, visibility := .isInternal, returns := [⟨"", .uint256⟩]
    implementations :=
      [{ owner := "C", returns := [⟨"", .uint256⟩], body := some default, implemented := true, start := {} }] }

def decl : ContractDecl :=
  { name := "C", kind := .contract, isAbstract := false, bases := [], start := {}, chain := ["C"]
    fields := [{ field with }], functions := [next] }

def scope : Resolve.Env := { outline := { classes := [decl] }, contract := some decl, inFunction := true }

def contract : Contract :=
  { decl with storage := [{ field with }], dispatch := [next], modifierTable := [] }

def env (t : Target) : Env :=
  { package := { name := "sample", classes := [contract] }, contract := contract, target := t }

def key : Expr := .call {} "next" [] false "C" "" .uint256

def target : Expr := .index {} (.field {} field) key .uint256

def statement : Stmt := .assign {} target (Resolve.newBinary {} .add target (.int {} 5))

-- No contract is called.
def noRef : String → Bool := fun _ => false

theorem countable_statement (t : Target) : ∀ x ∈ statement.directExprs, x.Each (Countable (env t)) := by
  have hnone (x : Expr) (hx : x ∈ statement.directExprs.flatMap Expr.subexprs) : Countable (env t) x := by
    simp only [statement, Stmt.directExprs, List.flatMap_cons, List.flatMap_nil, target, key, Resolve.newBinary,
      Expr.subexprs, Expr.subexprsList, List.append_nil, List.cons_append, List.nil_append, List.mem_cons,
      List.not_mem_nil, or_false] at hx
    rcases hx with rfl | rfl | rfl | rfl | rfl | rfl | rfl | rfl <;> trivial
  exact fun x hx y hy => hnone y (List.mem_flatMap.mpr ⟨x, hx, hy⟩)

theorem calls_next_twice : ∃ written s' op t value refs code,
    Writes (withRefs statement (stmt statement)) (env .soroban) {} written s' ∧
      statement = .assign {} t (Resolve.newBinary {} op t value) ∧ written = refs ++ code ∧
      callsOfStmts noRef code = 2 * t.callCount + value.callCount := by
  have hfree : Spares noRef := ⟨fun _ _ _ => rfl, fun _ => rfl, fun _ _ => rfl, fun _ _ => rfl⟩
  have hconsts : ConstantsCallNothing (env .soroban) := by
    intro r c v hc
    cases hc
  have hwrites : ∃ written s', Writes (withRefs statement (stmt statement)) (env .soroban) {} written s' := ⟨_, _, rfl⟩
  have hresolves : ∃ g', Resolve.Resolves (Resolve.exprStmt source) scope {} statement g' := ⟨_, rfl⟩
  have htells : Tells noRef ({} : State).frame.scopes := ⟨by simp, by simp⟩
  have hrefs : ∀ c ∈ externalCalls statement, ∀ k, noRef (numbered (Rust.Name.value c.1) k) = true := by
    have hnone : externalCalls statement = [] := rfl
    simp [hnone]
  obtain ⟨written, s', hw⟩ := hwrites
  obtain ⟨g', hresolves⟩ := hresolves
  obtain ⟨op, t, value, hst, refs, code, s₁, hsplit, -, hcount, -⟩ :=
    compound_calls_target_twice hfree hconsts (by decide) hresolves (countable_statement .soroban)
      hrefs htells hw
  exact ⟨written, s', op, t, value, refs, code, hw, hst, hsplit, hcount⟩

-- One statement of the source, in whose target there is one call, is written as code with two.
theorem two_calls_for_one : (∃ g', Resolve.Resolves (Resolve.exprStmt source) scope {} statement g') ∧
    target.callCount = 1 ∧ ∀ t ∈ [Target.ink .v5, .ink .v6, .soroban], ∃ code s',
      Writes (withRefs statement (stmt statement)) (env t) {} code s' ∧ callsOfStmts noRef code = 2 := by
  refine ⟨⟨_, rfl⟩, rfl, ?_⟩
  simp only [List.forall_mem_cons]
  exact ⟨⟨_, _, rfl, rfl⟩, ⟨_, _, rfl, rfl⟩, ⟨_, _, rfl, rfl⟩, by simp⟩

end NextKey

end RustContracts.Emit
