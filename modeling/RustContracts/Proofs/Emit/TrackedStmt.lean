import RustContracts.Emit.Function
import RustContracts.Proofs.Emit.Tracked
import RustContracts.Proofs.Program.Subterms

-- The table of references grows along a function by the calls in their order, and all the code that is written keeps to
-- it.
namespace RustContracts.Emit

open Program
open Rust (Rules AllClean CodeClean)

variable {E : Env} {C : Calls} {T U V : Table} {s s' : State} {calls calls' : List (String × Signature × Expr)}

mutual

-- The calls of other contracts in the order in which code is written for them: for each statement its own before those of
-- the statements in it. The step of a loop is written behind the body.
def callsAlong : List Stmt → List (String × Signature × Expr)
  | [] => []
  | st :: rest => externalCalls st ++ callsInside st ++ callsAlong rest

def callsOptional : Option Stmt → List (String × Signature × Expr)
  | none => []
  | some st => externalCalls st ++ callsInside st

def callsInside : Stmt → List (String × Signature × Expr)
  | .block b => callsInBlock b
  | .ifElse _ _ t none => callsInBlock t
  | .ifElse _ _ t (some e) => callsInBlock t ++ callsInBlock e
  | .whileLoop _ _ b _ => callsInBlock b
  | .forLoop _ init _ post b => callsOptional init ++ (callsInBlock b ++ callsOptional post)
  | _ => []

def callsInBlock : Block → List (String × Signature × Expr)
  | ⟨_, body, _⟩ => callsAlong body

end

-- The variables that a statement declares itself.
def declaredVars : Stmt → List Param
  | .decl _ vars _ => vars
  | _ => []

-- A statement whose calls count and whose variables have no names of references.
structure Fits (C : Calls) (st : Stmt) : Prop where
  calls : ∀ e ∈ st.directExprs, CallsIn C e
  vars : ∀ v ∈ declaredVars st, ¬IsRef C (Rust.Name.value v.name)

theorem keeps_modifyFrame {f : Frame → Frame}
    (hf : ∀ s : State, Tracked C T s → Tracked C T { s with frame := f s.frame }) :
    Keeps E C [] T (modifyFrame f) := by
  intro s u s' hs hw
  obtain rfl := writes_modify.mp hw
  exact ⟨T, .refl T, hf s hs, fun _ _ => trivial⟩

theorem keeps_declare {name ident : String} (hident : ¬IsRef C ident) :
    Keeps E C [] T (declare name ident) := by
  unfold declare modifyScope
  refine keeps_modifyFrame fun s hs => ?_
  refine hs.mapScope (f := fun scope => { scope with locals := (name, ident) :: scope.locals })
    (fun scope n i hmem => ?_) fun _ _ _ hmem => .inl hmem
  rcases List.mem_cons.mp hmem with heq | hmem
  · cases heq
    exact .inr hident
  · exact .inl hmem

section Blocks

variable {α : Type} [Tidy α]

theorem keeps_inScope {act : Emit α} (hact : ∀ U, T <+: U → Keeps E C calls U act) :
    Keeps E C calls T (inScope act) := by
  have hopen : Keeps E C [] T (modifyFrame fun fr => { fr with scopes := {} :: fr.scopes }) := by
    refine keeps_modifyFrame fun s hs => ⟨?_, ?_, hs.counted, hs.unique⟩
    · intro scope hscope name ident hmem
      rcases List.mem_cons.mp hscope with rfl | hscope
      · cases hmem
      · exact hs.locals scope hscope name ident hmem
    · intro scope hscope key name hmem
      rcases List.mem_cons.mp hscope with rfl | hscope
      · cases hmem
      · exact hs.refs scope hscope key name hmem
  have hclose (U : Table) : Keeps E C [] U (modifyFrame fun fr => { fr with scopes := fr.scopes.tail }) :=
    keeps_modifyFrame fun s hs => hs.of_frame (fun scope hscope => List.mem_of_mem_tail hscope) rfl
  unfold inScope
  refine keeps_bind hopen fun U _ hTU _ => keeps_last (hact U hTU) fun V x _ hx => ?_
  exact keeps_bind (hclose V) fun W _ hVW _ => keeps_pure (hx.mono hVW)

theorem keeps_inLoop (resumes : Bool) {act : Emit α} (hact : ∀ U, T <+: U → Keeps E C calls U act) :
    Keeps E C calls T (inLoop resumes act) := by
  have hframe : Keeps E C [] T frame := by
    intro s fr s' hs hw
    exact ⟨T, .refl T, hs.of_sameNames (steady_frame.sameNames hw), fun _ _ => trivial⟩
  have hloops (U : Table) (f : Frame → Frame)
      (hf : ∀ fr, (f fr).scopes = fr.scopes ∧ (f fr).refCounts = fr.refCounts) :
      Keeps E C [] U (modifyFrame f) := by
    refine keeps_modifyFrame fun s hs => hs.of_frame (fun scope hscope => ?_) (hf s.frame).2
    exact (hf s.frame).1 ▸ hscope
  unfold inLoop
  refine keeps_bind hframe fun U fr hTU _ => ?_
  refine keeps_bind (hloops U _ fun _ => ⟨rfl, rfl⟩) fun V _ hUV _ => ?_
  refine keeps_last (hact V (hTU.trans hUV)) fun W x _ hx => ?_
  refine keeps_bind (hloops W _ fun _ => ⟨rfl, rfl⟩) fun X _ hWX _ => keeps_pure fun Y hY => ?_
  exact ⟨trivial, hx Y (hWX.trans hY)⟩

end Blocks

section Statements

variable (hC : Distinct C) (hconsts : ConstantsIn C E)
include hC hconsts

theorem keeps_exprAs (t : Ty) {e : Expr} (he : CallsIn C e) : Keeps E C [] T (exprAs t e) :=
  keeps_of_neat hC fun U _ => neat_exprAs (free_rules hC U) hconsts t he

theorem keeps_withRefs {st : Stmt} (hst : Fits C st) {written : Emit (List Rust.Stmt)}
    (hwritten : ∀ U, T <+: U → Keeps E C calls U written) :
    Keeps E C (externalCalls st ++ calls) T (withRefs st written) := by
  have hcalls : ∀ c ∈ externalCalls st, C c.1 c.2.1 c.2.2 ∧ CallsIn C c.2.2 := by
    rintro ⟨interface, method, address⟩ hmem
    obtain ⟨e, he, p, args, hsub⟩ := mem_externalCalls hmem
    have hcall := callsIn_subexprs.1 e (hst.calls e he) _ hsub
    exact ⟨hst.calls e he p interface method address args hsub,
      hcall.children address (by simp [Expr.children])⟩
  refine keeps_seq (keeps_declareRefs hC hconsts hcalls) fun U refs hTU hrefs => ?_
  refine keeps_last (hwritten U hTU) fun V stmts hUV hstmts => keeps_pure fun W hW => ?_
  exact Rust.codeClean_append.mpr ⟨hrefs W (hUV.trans hW), hstmts W hW⟩

omit hconsts in
theorem keeps_isMutated (name : String) : Keeps E C [] T (isMutated name) :=
  keeps_of_neat hC fun U _ => neat_of_steady (by grind [isMutated]) fun _ => trivial

-- A variable of a tuple is declared, and marked where it is changed.
omit hconsts in
theorem keeps_declareEach {vars : List Param}
    (hvars : ∀ v ∈ vars, ¬IsRef C (Rust.Name.value v.name)) :
    Keeps E C [] T (vars.mapM fun v => do
      declare v.name (Rust.Name.value v.name)
      return if ← isMutated v.name then "mut " ++ Rust.Name.value v.name
        else Rust.Name.value v.name) := by
  induction vars generalizing T with
  | nil => exact keeps_pure fun _ _ => trivial
  | cons v vars ih =>
      obtain ⟨hv, hvars⟩ := List.forall_mem_cons.mp hvars
      rw [List.mapM_cons]
      refine keeps_bind (keeps_bind (keeps_declare hv) fun U _ _ _ => ?_) fun V _ _ _ => ?_
      · exact keeps_bind (keeps_isMutated hC _) fun _ _ _ _ => keeps_pure fun _ _ => trivial
      · exact keeps_bind (ih hvars) fun _ _ _ _ => keeps_pure fun _ _ => trivial

theorem keeps_declareVars {vars : List Param} {value : Expr} (hvalue : CallsIn C value)
    (hvars : ∀ v ∈ vars, ¬IsRef C (Rust.Name.value v.name)) :
    Keeps E C [] T (declareVars vars value) := by
  unfold declareVars
  split
  · rename_i v
    have hv := hvars v List.mem_cons_self
    refine keeps_bind (keeps_of_neat hC fun U _ => neat_text (steady_typeText v.type)) fun U t _ _ => ?_
    refine keeps_bind (keeps_exprAs hC hconsts _ hvalue) fun V x _ hx => ?_
    refine keeps_bind (keeps_declare hv) fun W _ hVW _ => ?_
    refine keeps_bind (keeps_isMutated hC _) fun X isMut hWX _ => keeps_pure fun Y hY => ?_
    exact ⟨Rust.clean_letVar (hx Y (hVW.trans (hWX.trans hY))), trivial⟩
  · refine keeps_bind (keeps_exprAs hC hconsts _ hvalue) fun V x _ hx => ?_
    refine keeps_bind (keeps_declareEach hC hvars) fun W names hVW _ => keeps_pure fun X hX => ?_
    exact ⟨Rust.clean_letVar (hx X (hVW.trans hX)), trivial⟩

-- The test of a loop, where it has one.
theorem keeps_cond {cond : Option Expr} (hcond : ∀ e ∈ cond.toList, CallsIn C e) :
    Keeps E C [] T (cond.mapM (exprAs .bool)) := by
  cases cond with
  | none => exact keeps_pure fun _ _ => trivial
  | some e =>
      refine keeps_bind (keeps_exprAs hC hconsts _ (hcond e (by simp))) fun U x _ hx => ?_
      exact keeps_pure fun V hV => hx V hV

end Statements

-- The shapes that control takes.

section Shapes

variable {R : Rules}

theorem clean_elseBranch (source : Block) {written : Rust.Block} (hwritten : written.Clean R) :
    (elseBranch source written).Clean R := by
  unfold elseBranch
  split
  · exact hwritten.1.1
  · exact hwritten

theorem clean_ifNot {cond : Rust.Expr} {st : Rust.Stmt} (hcond : cond.Clean R) (hst : st.Clean R) :
    (ifNot cond st).Clean R :=
  ⟨Rust.clean_not hcond, ⟨⟨hst, trivial⟩, trivial⟩, trivial⟩

theorem clean_doWhile (l : Loop) {cond : Rust.Expr} {body : Rust.Block} (hcond : cond.Clean R)
    (hbody : body.Clean R) : (doWhile l cond body).Clean R := by
  cases body
  unfold doWhile
  split
  · exact ⟨⟨hbody, clean_ifNot hcond trivial, trivial⟩, trivial⟩
  · refine ⟨Rust.codeClean_append.mpr ⟨hbody.1, clean_ifNot hcond trivial, trivial⟩, trivial⟩

theorem clean_stepLoop (l : Loop) {cond : Option Rust.Expr} (ownBlock : Bool) {body : Rust.Block}
    {post : List Rust.Stmt} (hcond : Rust.OptionClean R cond) (hbody : body.Clean R)
    (hpost : CodeClean R post) : (stepLoop l cond ownBlock body post).Clean R := by
  have hinner : CodeClean R
      ((if l.resumes then [.labeled l.resumeLabel body]
        else if ownBlock && !post.isEmpty then [.expr (.block body)]
        else body.stmts) ++ post) := by
    refine Rust.codeClean_append.mpr ⟨?_, hpost⟩
    cases body
    split
    · exact ⟨hbody, trivial⟩
    · split
      · exact ⟨hbody, trivial⟩
      · exact hbody.1
  unfold stepLoop
  cases cond with
  | none => exact ⟨hinner, trivial⟩
  | some c => exact ⟨hcond, hinner, trivial⟩

end Shapes

mutual

-- Along the statements; every table is kept, so that of the references in scope is.
theorem keeps_block (hC : Distinct C) (hconsts : ConstantsIn C E) (T : Table) :
    ∀ b : Block, (∀ st ∈ b.substmts, Fits C st) → Keeps E C (callsInBlock b) T (block b)
  | ⟨start, body, unchecked⟩, hb => by
      have hbody : ∀ st ∈ substmtsList body, Fits C st := fun st hst => hb st (List.mem_cons_of_mem _ hst)
      rw [block, callsInBlock]
      refine keeps_last (keeps_inScope fun U _ => keeps_stmts hC hconsts U body hbody)
        fun U written _ hwritten => ?_
      exact keeps_pure fun V hV => ⟨hwritten V hV, trivial⟩

theorem keeps_stmts (hC : Distinct C) (hconsts : ConstantsIn C E) (T : Table) :
    ∀ sts : List Stmt, (∀ st ∈ substmtsList sts, Fits C st) → Keeps E C (callsAlong sts) T (stmts sts)
  | [], _ => keeps_pure fun _ _ => trivial
  | st :: rest, hsts => by
      have hst : ∀ x ∈ st.substmts, Fits C x := fun x hx => hsts x (List.mem_append_left _ hx)
      have hrest : ∀ x ∈ substmtsList rest, Fits C x := fun x hx => hsts x (List.mem_append_right _ hx)
      rw [stmts, callsAlong]
      have hfits := hst st (self_mem_substmts st)
      refine keeps_seq (keeps_withRefs hC hconsts hfits fun U _ => keeps_stmt hC hconsts U st hst)
        fun U written _ hwritten => ?_
      refine keeps_last (keeps_stmts hC hconsts U rest hrest) fun V more hUV hmore => ?_
      refine keeps_pure fun W hW => ?_
      exact Rust.codeClean_append.mpr ⟨hwritten W (hUV.trans hW), hmore W hW⟩

theorem keeps_optionalStmt (hC : Distinct C) (hconsts : ConstantsIn C E) (T : Table) :
    ∀ o : Option Stmt, (∀ st ∈ o, ∀ x ∈ st.substmts, Fits C x) → Keeps E C (callsOptional o) T (optionalStmt o)
  | none, _ => keeps_pure fun _ _ => trivial
  | some st, ho => by
      have hst := ho st rfl
      rw [optionalStmt, callsOptional]
      have hfits := hst st (self_mem_substmts st)
      exact keeps_withRefs hC hconsts hfits fun U _ => keeps_stmt hC hconsts U st hst

theorem keeps_stmt (hC : Distinct C) (hconsts : ConstantsIn C E) (T : Table) :
    ∀ st : Stmt, (∀ x ∈ st.substmts, Fits C x) → Keeps E C (callsInside st) T (stmt st)
  | .block b, hst => by
      rw [stmt, callsInside]
      refine keeps_last (keeps_block hC hconsts T b hst) fun U written _ hwritten => keeps_pure fun V hV => ?_
      exact ⟨hwritten V hV, trivial⟩
  | .decl p vars value, hst => by
      have hfits := hst _ (self_mem_substmts _)
      rw [stmt]
      exact keeps_declareVars hC hconsts (hfits.calls value List.mem_cons_self) hfits.vars
  | .assign p target value, hst => by
      have hcalls := (hst _ (self_mem_substmts _)).calls
      rw [stmt]
      refine keeps_of_neat hC fun U _ => ?_
      have hR := free_rules (E := E) hC U
      refine neat_bind (neat_exprAs hR hconsts _ (hcalls value (by simp [Stmt.directExprs])))
        fun x hx => ?_
      exact (neat_assign hR hconsts).1 x target hx (hcalls target (by simp [Stmt.directExprs]))
  | .expr p e, hst => by
      have hcalls := (hst _ (self_mem_substmts _)).calls
      rw [stmt]
      exact keeps_of_neat hC fun U _ =>
        neat_exprStmt (free_rules hC U) hconsts (hcalls e List.mem_cons_self)
  | .ifElse p cond whenTrue none, hst => by
      have hcalls := (hst _ (self_mem_substmts _)).calls
      have htrue : ∀ x ∈ whenTrue.substmts, Fits C x := fun x hx => hst x (List.mem_cons_of_mem _ hx)
      rw [stmt, callsInside]
      refine keeps_bind (keeps_exprAs hC hconsts _ (hcalls cond List.mem_cons_self)) fun U c _ hc => ?_
      refine keeps_last (keeps_block hC hconsts U whenTrue htrue) fun V t hUV ht => keeps_pure fun W hW => ?_
      exact ⟨⟨hc W (hUV.trans hW), ht W hW, trivial⟩, trivial⟩
  | .ifElse p cond whenTrue (some whenFalse), hst => by
      have hcalls := (hst _ (self_mem_substmts _)).calls
      have htrue : ∀ x ∈ whenTrue.substmts, Fits C x := fun x hx =>
        hst x (List.mem_cons_of_mem _ (List.mem_append_left _ hx))
      have hfalse : ∀ x ∈ whenFalse.substmts, Fits C x := fun x hx =>
        hst x (List.mem_cons_of_mem _ (List.mem_append_right _ hx))
      rw [stmt, callsInside]
      refine keeps_bind (keeps_exprAs hC hconsts _ (hcalls cond List.mem_cons_self)) fun U c _ hc => ?_
      refine keeps_seq (keeps_block hC hconsts U whenTrue htrue) fun V t hUV ht => ?_
      refine keeps_last (keeps_block hC hconsts V whenFalse hfalse) fun W e hVW he => ?_
      refine keeps_pure fun X hX => ?_
      have hVX := hVW.trans hX
      exact ⟨⟨hc X (hUV.trans hVX), ht X hVX,
        clean_elseBranch whenFalse (he X hX)⟩, trivial⟩
  | .whileLoop p cond body false, hst => by
      have hcalls := (hst _ (self_mem_substmts _)).calls
      have hbody : ∀ x ∈ body.substmts, Fits C x := fun x hx => hst x (List.mem_cons_of_mem _ hx)
      rw [stmt, callsInside]
      refine keeps_bind (keeps_exprAs hC hconsts _ (hcalls cond List.mem_cons_self)) fun U c _ hc => ?_
      refine keeps_last (keeps_inLoop _ fun V _ => keeps_block hC hconsts V body hbody) fun V lb hUV hlb => ?_
      exact keeps_pure fun W hW => ⟨⟨hc W (hUV.trans hW), (hlb W hW).2⟩, trivial⟩
  | .whileLoop p cond body true, hst => by
      have hcalls := (hst _ (self_mem_substmts _)).calls
      have hbody : ∀ x ∈ body.substmts, Fits C x := fun x hx => hst x (List.mem_cons_of_mem _ hx)
      rw [stmt, callsInside]
      refine keeps_last (keeps_inLoop _ fun V _ => keeps_block hC hconsts V body hbody) fun V lb hUV hlb => ?_
      refine keeps_bind (keeps_exprAs hC hconsts _ (hcalls cond List.mem_cons_self)) fun W c hVW hc => ?_
      refine keeps_pure fun X hX => ⟨clean_doWhile lb.1 (hc X hX) (hlb X ?_).2, trivial⟩
      exact hVW.trans hX
  | .forLoop p init cond post body, hst => by
      have hcalls := (hst _ (self_mem_substmts _)).calls
      obtain ⟨hinit, hpost, hbody⟩ := forall_substmts_forLoop hst
      rw [stmt, callsInside]
      refine keeps_inScope fun U _ => ?_
      refine keeps_seq (keeps_optionalStmt hC hconsts U init hinit) fun V i _ hi => ?_
      refine keeps_bind (keeps_cond hC hconsts hcalls) fun W c hVW hc => ?_
      refine keeps_seq (keeps_inLoop _ fun X _ => keeps_block hC hconsts X body hbody) fun X lb hWX hlb => ?_
      refine keeps_last (keeps_optionalStmt hC hconsts X post hpost) fun Y p hXY hp => ?_
      refine keeps_pure fun Z hZ => ?_
      have hXZ := hXY.trans hZ
      have hWZ := hWX.trans hXZ
      have hloop := clean_stepLoop lb.1 (declaresVars body) (hc Z hWZ) (hlb Z hXZ).2 (hp Z hZ)
      split
      · exact ⟨hloop, trivial⟩
      · refine ⟨⟨Rust.codeClean_append.mpr ⟨hi Z ?_, hloop, trivial⟩, trivial⟩, trivial⟩
        exact hVW.trans hWZ
  | .returnValue p value, hst => by
      have hcalls := (hst _ (self_mem_substmts _)).calls
      rw [stmt]
      refine keeps_of_neat hC fun U _ => ?_
      refine neat_bind (neat_resultValue (free_rules hC U) hconsts fun e he =>
        hcalls e (Option.mem_toList.mpr he)) fun x hx => neat_pure ?_
      exact ⟨Rust.clean_callPath (by decide) ⟨hx, trivial⟩, trivial⟩
  | .require p cond entry, hst => by
      have hcalls := (hst _ (self_mem_substmts _)).calls
      rw [stmt]
      refine keeps_of_neat hC fun U _ => ?_
      have hR := free_rules (E := E) hC U
      refine neat_bind (neat_exprAs hR hconsts _ (hcalls cond List.mem_cons_self)) fun c hc => ?_
      refine neat_bind (neat_abort hR hconsts entry (by simp)) fun out hout => neat_pure ?_
      exact ⟨clean_ifNot hc hout, trivial⟩
  | .revert p entry args, hst => by
      have hcalls := (hst _ (self_mem_substmts _)).calls
      rw [stmt]
      refine keeps_of_neat hC fun U _ => ?_
      refine neat_bind (neat_abort (free_rules hC U) hconsts entry hcalls) fun out hout => neat_pure ?_
      exact ⟨hout, trivial⟩
  | .emit p ev args, hst => by
      have hcalls := (hst _ (self_mem_substmts _)).calls
      rw [stmt]
      refine keeps_of_neat hC fun U _ => ?_
      have hR := free_rules (E := E) hC U
      refine neat_bind (neat_exprsAs hR hconsts _ hcalls) fun xs hxs => ?_
      exact neat_bind (neat_emitEvent hR ev hxs) fun st hst => neat_pure ⟨hst, trivial⟩
  | .breakLoop p, _ => by
      rw [stmt]
      exact keeps_of_neat hC fun U _ =>
        neat_bind (neat_breakStmt p) fun st hst => neat_pure ⟨hst, trivial⟩
  | .continueLoop p, _ => by
      rw [stmt]
      exact keeps_of_neat hC fun U _ =>
        neat_bind (neat_continueStmt p) fun st hst => neat_pure ⟨hst, trivial⟩
  | .placeholder p, _ => by
      rw [stmt]
      exact keeps_of_neat hC fun U _ => neat_throw _

end

-- Functions.

-- The body of an implementation inside its modifiers.
def Guarded (E : Env) (impl : Implementation) (body : Block) : Prop :=
  ∃ b s s', impl.body = some b ∧ Writes (guarded b impl.modifiers) E s body s'

theorem keeps_declareParams (hC : Distinct C) {params : List Param}
    (hparams : ∀ p ∈ params, ¬IsRef C (Rust.Name.value p.name)) (rparams : List Rust.Param) :
    Keeps E C [] T (declareParams params rparams) := by
  induction params generalizing rparams T with
  | nil => exact keeps_pure fun _ _ => trivial
  | cons p params ih =>
      obtain ⟨hp, hparams⟩ := List.forall_mem_cons.mp hparams
      cases rparams with
      | nil => exact keeps_pure fun _ _ => trivial
      | cons r rparams =>
          rw [declareParams]
          split
          · exact keeps_bind (ih hparams rparams) fun _ _ _ _ => keeps_pure fun _ _ => trivial
          · refine keeps_bind (keeps_isMutated hC _) fun U _ _ _ => ?_
            refine keeps_bind (keeps_declare hp) fun V _ _ _ => ?_
            exact keeps_bind (ih hparams rparams) fun _ _ _ _ => keeps_pure fun _ _ => trivial

theorem keeps_declareResults (hC : Distinct C) {results : List Param}
    (hresults : ∀ r ∈ results, ¬IsRef C (Rust.Name.value r.name)) :
    Keeps E C [] T (declareResults results) := by
  induction results generalizing T with
  | nil => exact keeps_pure fun _ _ => trivial
  | cons r results ih =>
      obtain ⟨hr, hresults⟩ := List.forall_mem_cons.mp hresults
      rw [declareResults]
      split
      · exact ih hresults
      · refine keeps_bind (keeps_of_neat hC fun U _ => neat_text (steady_typeText _)) fun U t _ _ => ?_
        refine keeps_bind (keeps_of_neat hC fun V _ => neat_zero (free_rules hC V) r.type)
          fun V z _ hz => ?_
        refine keeps_bind (keeps_isMutated hC _) fun W isMut hVW _ => ?_
        refine keeps_bind (keeps_declare hr) fun X _ hWX _ => ?_
        refine keeps_bind (ih hresults) fun Y more hXY hmore => keeps_pure fun Z hZ => ?_
        refine ⟨Rust.clean_letVar (hz Z ?_), hmore Z hZ⟩
        exact hVW.trans (hWX.trans (hXY.trans hZ))

theorem keeps_preamble (hC : Distinct C) (r : Routine) : Keeps E C [] T (preamble r) := by
  refine keeps_of_neat hC fun U _ => ?_
  have hcaller := (free_rules (E := E) hC U).of_fixed.2.2.1
  refine neat_bind (neat_of_steady steady_target fun _ => trivial) fun t _ => ?_
  split
  · exact neat_pure trivial
  · refine neat_pure ?_
    unfold Soroban.preamble
    split
    · exact ⟨Rust.clean_method (by decide) (.inr hcaller), trivial⟩
    · trivial

theorem keeps_defaultResult (hC : Distinct C) (hconsts : ConstantsIn C E) :
    Keeps E C [] T defaultResult := by
  have hnone : ∀ e ∈ (none : Option Expr), CallsIn C e := by simp
  exact keeps_of_neat hC fun U _ => neat_resultValue (free_rules hC U) hconsts hnone

instance : Tidy Rust.Function := ⟨fun R fn => ∀ code ∈ fn.body, code.Clean R⟩

-- A new function has no references yet.
theorem tracked_enter (C : Calls) {exposed : Bool} {u : Unit} (hw : Writes (enter exposed) E s u s') :
    Tracked C [] s' := by
  obtain rfl := writes_modify.mp hw
  refine ⟨fun scope hscope name ident hmem => ?_, fun scope hscope key name hmem => ?_, by simp [Table.Has],
    by simp [Table.Has]⟩
  · obtain rfl := List.mem_singleton.mp hscope
    cases hmem
  · obtain rfl := List.mem_singleton.mp hscope
    cases hmem

theorem Tracked.tidy {α : Type} [Tidy α] {act : Emit α} {a : α} (hs : Tracked C T s)
    (hw : Writes act E s a s') (hact : Keeps E C calls T act) :
    ∃ U, Grows E calls T U ∧ Tracked C U s' ∧ Tidy.tidy (rules E C U) a := by
  obtain ⟨U, hTU, hs', ha⟩ := hact s a s' hs hw
  exact ⟨U, hTU, hs', ha U (List.prefix_refl U)⟩

theorem steady_modifierBody (call : ModifierCall) : Steady (modifierBody call) := by
  refine steady_bind steady_read fun E => ?_
  dsimp only
  split
  · exact steady_pure _
  · exact steady_throw _

-- Modifiers are put around a body without a change of names.
theorem steady_guarded (body : Block) (calls : List ModifierCall) : Steady (guarded body calls) := by
  induction calls with
  | nil => exact steady_pure _
  | cons call calls ih =>
      refine steady_bind ih fun inner => steady_bind (steady_modifierBody call) fun found => ?_
      dsimp only
      split
      · exact steady_bind (steady_throw _) fun _ => steady_pure _
      · exact steady_pure _

theorem keeps_routineShell (hC : Distinct C) (r : Routine) : Keeps E C [] T (routineShell r) := by
  refine keeps_of_neat hC fun U _ => ?_
  refine neat_bind (neat_of_steady steady_target fun _ => trivial) fun t _ => ?_
  cases t with
  | ink v =>
      exact neat_read_bind (neat_bind (neat_of_steady (steady_mapM (fun _ => steady_ended _) _) fun _ => trivial)
        fun _ _ => neat_pure fun code hcode => by cases hcode)
  | soroban =>
      refine neat_bind (neat_use _) fun _ _ => ?_
      dsimp only
      split
      · exact neat_bind (neat_use _) fun _ _ => neat_pure fun code hcode => by cases hcode
      · exact neat_pure fun code hcode => by cases hcode

theorem keeps_frame {f : Frame → Frame} (hf : ∀ fr, (f fr).scopes = fr.scopes ∧ (f fr).refCounts = fr.refCounts) :
    Keeps E C [] T (modifyFrame f) :=
  keeps_modifyFrame fun s hs => hs.of_frame (fun _ hscope => (hf s.frame).1 ▸ hscope) (hf s.frame).2

-- The code of a whole function keeps to the table of its calls.
theorem exists_log (hC : Distinct C) (hconsts : ConstantsIn C E) {r : Routine} {f : Function}
    {impl : Implementation} {fn : Rust.Function}
    (hbody : ∀ body, Guarded E impl body → ∀ st ∈ substmtsList body.stmts, Fits C st)
    (hparams : ∀ p ∈ (if impl.params.length = r.params.length then impl.params else f.params) ++ impl.returns,
      ¬IsRef C (Rust.Name.value p.name))
    (hw : Writes (function r f (some impl)) E s fn s') :
    ∃ body, Guarded E impl body ∧ ∃ T, Grows E (callsAlong body.stmts) [] T ∧ Tracked C T s' ∧
      ∀ code ∈ fn.body, code.Clean (rules E C T) := by
  obtain ⟨hparams, hreturns⟩ := List.forall_mem_append.mp hparams
  unfold function at hw
  cases hb : impl.body with
  | none =>
      simp only [Option.bind_some, hb] at hw
      exact absurd hw not_writes_throw
  | some b =>
      simp only [Option.bind_some, hb] at hw
      obtain ⟨u, s₁, henter, hw⟩ := writes_bind.mp hw
      obtain ⟨body, s₂, hguarded, hw⟩ := writes_bind.mp hw
      have hfits := hbody body ⟨b, s₁, s₂, hb, hguarded⟩
      have hs₂ := (tracked_enter C henter).of_sameNames ((steady_guarded b _).sameNames hguarded)
      refine ⟨body, ⟨b, s₁, s₂, hb, hguarded⟩, hs₂.tidy hw ?_⟩
      refine keeps_bind (keeps_frame fun _ => ⟨rfl, rfl⟩) fun _ _ _ _ => ?_
      refine keeps_bind (keeps_declareParams hC hparams _) fun _ _ _ _ => ?_
      refine keeps_bind (keeps_routineShell hC _) fun _ shell _ _ => ?_
      refine keeps_bind (keeps_frame fun _ => ⟨rfl, rfl⟩) fun _ _ _ _ => ?_
      refine keeps_bind (keeps_preamble hC _) fun V before _ hbefore => ?_
      refine keeps_bind (keeps_declareResults hC hreturns) fun W results hVW hresults => ?_
      refine keeps_last (keeps_stmts hC hconsts W body.stmts hfits) fun X written hWX hwritten => ?_
      have hclose (Y : Table) (hXY : X <+: Y) (tail : Option Rust.Expr) (htail : Lasting E C Y tail) :
          Keeps E C [] Y (pure { shell with body := some ⟨before ++ results ++ written, tail⟩ }) := by
        refine keeps_pure fun Z hZ => ?_
        rintro code ⟨⟩
        have hXZ := hXY.trans hZ
        have hWZ := hWX.trans hXZ
        simp only [Rust.Block.Clean, Rust.codeClean_append]
        exact ⟨⟨⟨hbefore Z (hVW.trans hWZ), hresults Z hWZ⟩, hwritten Z hXZ⟩, htail Z hZ⟩
      split
      · exact hclose X (List.prefix_refl X) none fun _ _ => trivial
      · refine keeps_bind (keeps_defaultResult hC hconsts) fun Y x hXY hx => ?_
        refine hclose Y hXY (some (Rust.Expr.callPath "Ok" [x])) fun Z hZ => ?_
        exact Rust.clean_callPath (by decide) ⟨hx Z hZ, trivial⟩

theorem exists_table (hC : Distinct C) (hconsts : ConstantsIn C E) {r : Routine} {f : Function}
    {impl : Implementation} {fn : Rust.Function}
    (hbody : ∀ body, Guarded E impl body → ∀ st ∈ substmtsList body.stmts, Fits C st)
    (hparams : ∀ p ∈ f.params ++ impl.params ++ impl.returns, ¬IsRef C (Rust.Name.value p.name))
    (hw : Writes (function r f (some impl)) E s fn s') :
    ∃ T, Tracked C T s' ∧ ∀ code ∈ fn.body, code.Clean (rules E C T) := by
  have hdeclared : ∀ p ∈ (if impl.params.length = r.params.length then impl.params else f.params) ++ impl.returns,
      ¬IsRef C (Rust.Name.value p.name) := fun p hp => hparams p (by grind)
  obtain ⟨-, -, T, -, htracked, hclean⟩ := exists_log hC hconsts hbody hdeclared hw
  exact ⟨T, htracked, hclean⟩

end RustContracts.Emit
