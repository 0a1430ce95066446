import RustContracts.Proofs.Emit.Sourced
import RustContracts.Proofs.Emit.TrackedStmt
import RustContracts.Proofs.Rust.Checked

-- Steps whose code calls only what the contract has: an entry of the dispatch table, or a helper that has been asked
-- for. Helpers are asked for once, under keys of their own.
namespace RustContracts

open Program Emit
open Rust (AllChecked FieldsChecked OptionChecked CodeChecked)

namespace Emit

-- What is called.

def implementationKey (f : Function) (impl : Implementation) : String := "impl:" ++ impl.owner ++ ":" ++ f.key

def implementationHelper (f : Function) (impl : Implementation) : Helper :=
  { name := "_" ++ trimRaw f.name ++ "_" ++ Rust.Name.value impl.owner
    function := f
    implementation := some impl
    isLibrary := false }

def libraryKey (library : String) (f : Function) : String := "lib:" ++ library ++ ":" ++ f.key

def libraryHelper (library : String) (f : Function) : Helper :=
  { name := Rust.Name.value library ++ "_" ++ trimRaw f.name
    function := f
    implementation := f.primary?
    isLibrary := true }

-- The helpers that a contract may ask for, with their keys.
inductive Asked (E : Env) : String → Helper → Prop
  | implementation {f : Function} {impl : Implementation} (hf : f ∈ E.contract.dispatch)
      (himpl : impl ∈ f.implementations) (hother : isPrimary f impl = false) :
      Asked E (implementationKey f impl) (implementationHelper f impl)
  | library {start : Text.Position} {library owner : String} {s : Signature} {args : List Expr}
      (hcall : E.package.Holds (.libraryCall start library owner s args)) :
      Asked E (libraryKey library (functionIn E.package owner s)) (libraryHelper library (functionIn E.package owner s))

-- How a function is called: under which name, whether callers from outside reach it, whether it is told its caller,
-- and with arguments of which types.
structure Convention where
  name : String
  exposed : Bool
  caller : Bool
  types : List Ty

-- The conventions of the calls that code of the package makes, with the arguments that it gives. `K` has the names of
-- helpers, by key.
inductive Names (E : Env) (K : List (String × String)) : List Expr → Convention → Prop
  | entry {start : Text.Position} {name : String} {args : List Expr} {isSuper : Bool} {inClass base : String} {t : Ty}
      {f : Function} {impl : Implementation}
      (hcall : E.package.Holds (.call start name args isSuper inClass base t))
      (hlookup : E.contract.lookup? name args.length = some f)
      (hcalled : calledImplementation? E.package f isSuper inClass base = some impl)
      (hprimary : isPrimary f impl = true) :
      Names E K args
        ⟨f.name, isMessage f.toSignature, E.contract.needsCaller f.toSignature, impl.params.map Param.type⟩
  | implementation {start : Text.Position} {name : String} {args : List Expr} {isSuper : Bool}
      {inClass base : String} {t : Ty} {f : Function} {impl : Implementation} {helper : String}
      (hcall : E.package.Holds (.call start name args isSuper inClass base t))
      (hlookup : E.contract.lookup? name args.length = some f)
      (hcalled : calledImplementation? E.package f isSuper inClass base = some impl)
      (hother : isPrimary f impl = false) (hname : (implementationKey f impl, helper) ∈ K) :
      Names E K args ⟨helper, false, E.contract.needsCaller f.toSignature, impl.params.map Param.type⟩
  | library {start : Text.Position} {library owner helper : String} {s : Signature} {args : List Expr}
      (hcall : E.package.Holds (.libraryCall start library owner s args))
      (hname : (libraryKey library (functionIn E.package owner s), helper) ∈ K) :
      Names E K args ⟨helper, false, false, s.params.map Param.type⟩

-- How a call is written, in a function that callers from outside reach or in another.
def callText (target : Target) (here : Bool) (v : Convention) (xs : List Rust.Expr) : Rust.Expr :=
  match target with
  | .ink _ => (Rust.Expr.ident "self").methodCall v.name xs
  | .soroban =>
    let envArg :=
      if v.exposed then (Rust.Expr.ident "env").method "clone" else if here then Soroban.env else .ident "env"
    let callerArg := if v.caller then [(Rust.Expr.ident "caller").method "clone"] else []
    .callPath ("Self::" ++ v.name) (envArg :: callerArg ++ xs)

-- An expression as it is written for a type.
def Operand (E : Env) (e : Expr) (x : Rust.Expr) (t : Ty) : Prop :=
  ∃ depth s s', Writes (operandAs (some t) e fun t => access (constantValue depth) t e) E s x s'

theorem operandAs_congr {e : Expr} {t : Option Ty} {written written' : Option Ty → Emit Access}
    (h : written t E = written' t E) : operandAs t e written E = operandAs t e written' E := by
  unfold operandAs operandOf valueOf
  simp only [bind, ReaderT.bind, h]

theorem operand_of_exprAs {e : Expr} {x : Rust.Expr} {t : Ty} (hw : Writes (exprAs t e) E s x s') :
    Operand E e x t := by
  refine ⟨E.package.constantCount + 1, s, s', ?_⟩
  have hsame : exprAs t e E = operandAs (some t) e (access (constantValue (E.package.constantCount + 1)) · e) E :=
    operandAs_congr rfl
  have houtcome : outcome (exprAs t e) E s =
      outcome (operandAs (some t) e (access (constantValue (E.package.constantCount + 1)) · e)) E s :=
    congrArg (·.run.run s) hsame
  exact houtcome.symm.trans hw

inductive Operands (E : Env) : List Expr → List Rust.Expr → List Ty → Prop
  | nil : Operands E [] [] []
  | cons {e : Expr} {x : Rust.Expr} {t : Ty} {es : List Expr} {xs : List Rust.Expr} {ts : List Ty}
      (h : Operand E e x t) (hs : Operands E es xs ts) : Operands E (e :: es) (x :: xs) (t :: ts)

-- A call of the package by its convention, with its arguments written for the types there.
def Site (E : Env) (K : List (String × String)) (here : Bool) (y : Rust.Expr) : Prop :=
  ∃ args v xs, Names E K args v ∧ y = callText E.target here v xs ∧ Operands E args xs v.types

-- The helpers that are asked for between two states.
def Growth (E : Env) (s s' : State) : Prop :=
  ∃ new : List (String × Helper), s'.queue = s.queue ++ new.map Prod.snd ∧
    s'.helperNames = (new.map fun kh => (kh.1, kh.2.name)).reverse ++ s.helperNames ∧
    (new.map Prod.fst).Nodup ∧ (∀ kh ∈ new, kh.1 ∉ s.helperNames.map Prod.fst) ∧
    ∀ kh ∈ new, Asked E kh.1 kh.2

variable {E : Env} {K : List (String × String)} {here : Bool} {H : Prop} {s s' s'' : State}

theorem Growth.of_same (hqueue : s'.queue = s.queue) (hnames : s'.helperNames = s.helperNames) : Growth E s s' :=
  ⟨[], by simp [hqueue], by simp [hnames], by simp, by simp, by simp⟩

theorem Growth.refl (s : State) : Growth E s s := .of_same rfl rfl

theorem Growth.trans (h : Growth E s s') (h' : Growth E s' s'') : Growth E s s'' := by
  obtain ⟨new, hqueue, hnames, hnodup, hfresh, hasked⟩ := h
  obtain ⟨new', hqueue', hnames', hnodup', hfresh', hasked'⟩ := h'
  have hkeys (kh : String × Helper) (hkh : kh ∈ new') : kh.1 ∉ new.map Prod.fst ∧ kh.1 ∉ s.helperNames.map Prod.fst := by
    have := hfresh' kh hkh
    rw [hnames] at this
    simpa [not_or] using this
  refine ⟨new ++ new', ?_, ?_, ?_, ?_, List.forall_mem_append.mpr ⟨hasked, hasked'⟩⟩
  · rw [hqueue', hqueue, List.map_append, List.append_assoc]
  · rw [hnames', hnames, List.map_append, List.reverse_append, List.append_assoc]
  · rw [List.map_append, List.nodup_append]
    refine ⟨hnodup, hnodup', ?_⟩
    intro a ha b hb hab
    obtain ⟨kh, hkh, rfl⟩ := List.mem_map.mp hb
    exact (hkeys kh hkh).1 (hab ▸ ha)
  · exact List.forall_mem_append.mpr ⟨hfresh, fun kh hkh => (hkeys kh hkh).2⟩

theorem Growth.subset (h : Growth E s s') : s.helperNames ⊆ s'.helperNames := by
  obtain ⟨new, -, hnames, -⟩ := h
  rw [hnames]
  exact List.subset_append_right _ _

-- What it means that the calls in something written have a property; in text and numbers there are none.
class Calling (α : Type) where
  calling : (Rust.Expr → Prop) → α → Prop

instance (priority := low) callingOther (α : Type) : Calling α := ⟨fun _ _ => True⟩
instance : Calling Rust.Expr := ⟨fun Q x => x.Checked Q⟩
instance : Calling (List Rust.Expr) := ⟨AllChecked⟩
instance : Calling (Option Rust.Expr) := ⟨OptionChecked⟩
instance : Calling Rust.Block := ⟨fun Q b => b.Checked Q⟩
instance : Calling Rust.Stmt := ⟨fun Q s => s.Checked Q⟩
instance : Calling (List Rust.Stmt) := ⟨CodeChecked⟩

def Access.Checked (Q : Rust.Expr → Prop) : Access → Prop
  | value x => x.Checked Q
  | entry _ keys _ => AllChecked Q keys

instance : Calling Access := ⟨Access.Checked⟩
instance {α β : Type} [Calling α] [Calling β] : Calling (α × β) :=
  ⟨fun Q p => Calling.calling Q p.1 ∧ Calling.calling Q p.2⟩

section Calling

variable (Q : Rust.Expr → Prop)

@[grind =] theorem calling_other (α : Type) (a : α) : @Calling.calling α (callingOther α) Q a = True := rfl
@[grind =] theorem calling_expr (x : Rust.Expr) : Calling.calling Q x = x.Checked Q := rfl
@[grind =] theorem calling_exprs (xs : List Rust.Expr) : Calling.calling Q xs = AllChecked Q xs := rfl
@[grind =] theorem calling_option (x : Option Rust.Expr) : Calling.calling Q x = OptionChecked Q x := rfl
@[grind =] theorem calling_block (b : Rust.Block) : Calling.calling Q b = b.Checked Q := rfl
@[grind =] theorem calling_stmt (s : Rust.Stmt) : Calling.calling Q s = s.Checked Q := rfl
@[grind =] theorem calling_stmts (code : List Rust.Stmt) : Calling.calling Q code = CodeChecked Q code := rfl
@[grind =] theorem calling_access (a : Access) : Calling.calling Q a = a.Checked Q := rfl
@[grind =] theorem calling_pair {α β : Type} [Calling α] [Calling β] (p : α × β) :
    Calling.calling Q p = (Calling.calling Q p.1 ∧ Calling.calling Q p.2) := rfl

attribute [grind =] Access.Checked

end Calling

variable {α β : Type} [Calling α] [Calling β]

-- A step in a function that asks for helpers and, under a condition, writes calls by the conventions: of entries, and
-- of helpers that have been asked for behind the step. `K` has what is asked for in the end.
def Links (E : Env) (K : List (String × String)) (here : Bool) (H : Prop) (act : Emit α) : Prop :=
  ∀ s, s.frame.exposed = here → (outcome act E s).2.frame.exposed = here ∧ Growth E s (outcome act E s).2 ∧
    ∀ a s', Writes act E s a s' → s'.helperNames ⊆ K → H → Calling.calling (Site E K here) a

@[grind ←] theorem links_pure {a : α} (ha : H → Calling.calling (Site E K here) a) : Links E K here H (pure a) := by
  refine fun s hs => ⟨hs, .refl s, fun b s' hw _ hH => ?_⟩
  obtain ⟨rfl, -⟩ := writes_pure.mp hw
  exact ha hH

@[grind ←] theorem links_throw (stop : Stop) : Links E K here H (throw stop : Emit α) :=
  fun s hs => ⟨hs, .refl s, fun _ _ hw => absurd hw not_writes_throw⟩

@[grind ←] theorem links_ended (text? : Option String) : Links E K here H (Ink.ended text?) := by
  cases text? with
  | none => exact links_throw _
  | some text => exact links_pure fun _ => trivial

-- The second step may use what the first has written, but asks for helpers anyway.
theorem links_bind_of_writes {x : Emit α} {f : α → Emit β} (hx : Links E K here H x)
    (hf : ∀ a s s', s.frame.exposed = here → Writes x E s a s' →
      Links E K here (H ∧ s'.helperNames ⊆ K ∧ Calling.calling (Site E K here) a) (f a)) :
    Links E K here H (x >>= f) := by
  intro s hs
  obtain ⟨hexposed, hgrowth, hwrites⟩ := hx s hs
  rcases ho : outcome x E s with ⟨r, s₁⟩
  rw [ho] at hgrowth hexposed
  rw [outcome_bind, ho]
  cases r with
  | error d =>
      refine ⟨hexposed, hgrowth, fun b s' hw => ?_⟩
      obtain ⟨a, s₂, hxa, -⟩ := writes_bind.mp hw
      cases ho.symm.trans hxa
  | ok a =>
      obtain ⟨hexposed', hgrowth', hwrites'⟩ := hf a s s₁ hs ho s₁ hexposed
      refine ⟨hexposed', hgrowth.trans hgrowth', fun b s' hw hK hH => ?_⟩
      obtain ⟨a', s₂, hxa, hfa⟩ := writes_bind.mp hw
      obtain ⟨rfl, rfl⟩ : a = a' ∧ s₁ = s₂ := by simpa using ho.symm.trans hxa
      rw [hfa] at hgrowth'
      have hK₁ := List.Subset.trans hgrowth'.subset hK
      exact hwrites' b s' hfa hK ⟨hH, hK₁, hwrites a s₁ ho hK₁ hH⟩

theorem Links.imp {H' : Prop} {act : Emit α} (h : Links E K here H act) (himp : H' → H) : Links E K here H' act :=
  fun s hs => ⟨(h s hs).1, (h s hs).2.1, fun a s' hw hK hH => (h s hs).2.2 a s' hw hK (himp hH)⟩

@[grind ←] theorem links_bind {x : Emit α} {f : α → Emit β} (hx : Links E K here H x)
    (hf : ∀ a, Links E K here (H ∧ Calling.calling (Site E K here) a) (f a)) : Links E K here H (x >>= f) :=
  links_bind_of_writes hx fun a _ _ _ _ => (hf a).imp fun ⟨hH, _, ha⟩ => ⟨hH, ha⟩

@[grind ←] theorem links_read_bind {f : Env → Emit β} (hf : Links E K here H (f E)) :
    Links E K here H (read >>= f) := hf

theorem links_get : Links E K here H (get : Emit State) := fun s hs => ⟨hs, .refl s, fun _ _ _ _ _ => trivial⟩

-- A step that writes no code and asks for nothing.
theorem links_modify {f : State → State}
    (hf : ∀ s, (f s).frame.exposed = s.frame.exposed ∧ (f s).queue = s.queue ∧ (f s).helperNames = s.helperNames) :
    Links E K here H (modify f) :=
  fun s hs => ⟨(hf s).1.trans hs, .of_same (hf s).2.1 (hf s).2.2, fun _ _ _ _ _ => trivial⟩

theorem links_tryCatch {x : Emit α} {f : Stop → Emit α} (hx : Links E K here H x)
    (hf : ∀ d, Links E K here H (f d)) : Links E K here H (tryCatch x f) := by
  intro s hs
  obtain ⟨hexposed, hgrowth, hwrites⟩ := hx s hs
  rcases ho : outcome x E s with ⟨r, s₁⟩
  rw [ho] at hgrowth hexposed
  simp only [Writes, outcome_tryCatch, ho]
  cases r with
  | ok a => exact ⟨hexposed, hgrowth, fun b s' hw => hwrites b s' (ho.trans hw)⟩
  | error d =>
      obtain ⟨hexposed', hgrowth', hwrites'⟩ := hf d s₁ hexposed
      exact ⟨hexposed', hgrowth.trans hgrowth', hwrites'⟩

-- Steps over lists that write no code.
theorem links_mapM {γ δ : Type} [Calling δ] {f : γ → Emit δ} (hf : ∀ x, Links E K here H (f x)) (xs : List γ) :
    @Links (List δ) (callingOther _) E K here H (xs.mapM f) := by
  induction xs with
  | nil => exact @links_pure _ _ _ _ _ (callingOther _) _ fun _ => trivial
  | cons x xs ih =>
      rw [List.mapM_cons]
      exact links_bind (hf x) fun _ => links_bind (ih.imp fun ⟨h, _⟩ => h) fun _ => links_pure fun _ => trivial

@[grind ←] theorem links_use (path : String) : Links E K here H (use path) :=
  links_modify fun s => by split <;> exact ⟨rfl, rfl, rfl⟩

@[grind ←] theorem links_noteInterface (name : String) : Links E K here H (noteInterface name) :=
  links_modify fun s => by split <;> exact ⟨rfl, rfl, rfl⟩

theorem links_modifyFrame {f : Frame → Frame} (hf : ∀ fr, (f fr).exposed = fr.exposed) :
    Links E K here H (modifyFrame f) := links_modify fun s => ⟨hf s.frame, rfl, rfl⟩

@[grind .] theorem links_frame : Links E K here H frame :=
  links_bind links_get fun _ => links_pure fun _ => trivial

@[grind .] theorem links_target : Links E K here H target := links_read_bind (links_pure fun _ => trivial)

@[grind ←] theorem links_local? (name : String) : Links E K here H (local? name) :=
  links_bind links_frame fun _ => links_pure fun _ => trivial

@[grind ←] theorem links_ref? (key : String) : Links E K here H (ref? key) :=
  links_bind links_frame fun _ => links_pure fun _ => trivial

@[grind ←] theorem links_temp (stem : String) : Links E K here H (temp stem) :=
  links_bind (links_modifyFrame fun _ => rfl) fun _ => links_bind links_frame fun _ => links_pure fun _ => trivial

end Emit

namespace Ink

variable {E : Env} {K : List (String × String)} {here : Bool} {H : Prop} {x y : Rust.Expr} {xs : List Rust.Expr}

@[grind ←] theorem links_useU256 (v : InkVersion) : Links E K here H (useU256 v) := by
  unfold useU256
  grind

@[grind .] theorem links_useString : Links E K here H useString := links_use _

@[grind .] theorem links_useVec : Links E K here H useVec := links_use _

@[grind ←] theorem links_intName (signed : Bool) (bits : Nat) : Links E K here H (intName signed bits) := by
  unfold intName
  grind

@[grind ←] theorem links_addressType (v : InkVersion) : Links E K here H (addressType v) := by
  unfold addressType
  grind

@[grind ←] theorem links_type (v : InkVersion) (t : Ty) : Links E K here H (type v t) := by
  induction t using type.induct (motive_2 := fun ts => ∀ H, Links E K here H (types v ts)) generalizing H
  all_goals simp only [type, types]
  all_goals grind

@[grind ←] theorem links_toU256 (v : InkVersion) (hx : H → x.Checked (Site E K here)) :
    Links E K here H (toU256 v x) := by
  unfold toU256
  grind

@[grind .] theorem checked_u256 (Q : Rust.Expr → Prop) (value : Nat) : (u256 value).Checked Q := by
  unfold u256
  split
  · exact ⟨trivial, trivial, trivial⟩
  · exact ⟨trivial, ⟨trivial, trivial, trivial, trivial, trivial⟩, trivial⟩

@[grind ←] theorem links_intLiteral (v : InkVersion) (value : Nat) (negative signed : Bool) (bits : Nat) :
    Links E K here H (intLiteral v value negative signed bits) := by
  unfold intLiteral
  grind

@[grind ←] theorem links_stringLiteral (text : String) : Links E K here H (stringLiteral text) := by
  unfold stringLiteral
  grind

@[grind ←] theorem links_zero (v : InkVersion) (t : Ty) : Links E K here H (zero v t) := by
  unfold zero
  grind

@[grind ←] theorem links_intBound (v : InkVersion) (signed : Bool) (bits : Nat) (isMax : Bool) :
    Links E K here H (intBound v signed bits isMax) := by
  unfold intBound
  grind

@[grind ←] theorem checked_binary {Q : Rust.Expr → Prop} (op : Solidity.BinaryOp) (hx : x.Checked Q)
    (hy : y.Checked Q) (t u : Ty) : (binary op x y t u).Checked Q := by
  unfold binary power
  grind

@[grind ←] theorem links_unary (op : Solidity.UnaryOp) (hx : H → x.Checked (Site E K here)) (t : Ty) :
    Links E K here H (unary op x t) := by
  unfold unary
  grind

@[grind ←] theorem links_cast (v : InkVersion) (hx : H → x.Checked (Site E K here)) (source result : Ty) :
    Links E K here H (cast v x source result) := by
  have htext (hH : H) : (Rust.Expr.callPath "String::from_utf8" [x]).Checked (Site E K here) := by grind
  unfold cast
  split
  all_goals grind

@[grind ←] theorem checked_arrayIndex {Q : Rust.Expr → Prop} (hx : x.Checked Q) (hy : y.Checked Q) (t : Ty) :
    (arrayIndex x y t).Checked Q := by
  unfold arrayIndex asUsize
  grind

@[grind ←] theorem links_arrayLength (v : InkVersion) (hx : H → x.Checked (Site E K here)) :
    Links E K here H (arrayLength v x) := by
  unfold arrayLength
  grind

@[grind ←] theorem links_newArray (v : InkVersion) (elem t : Ty) : Links E K here H (newArray v elem x t) := by
  unfold newArray
  grind

@[grind ←] theorem links_arrayLiteral (length : Int) (hxs : H → AllChecked (Site E K here) xs) :
    Links E K here H (arrayLiteral length xs) := by
  unfold arrayLiteral
  grind

@[grind ←] theorem links_envValue (v : InkVersion) (kind : EnvKind) : Links E K here H (envValue v kind) := by
  have henv : ((Rust.Expr.ident "self").method "env").Checked (Site E K here) := ⟨trivial, trivial⟩
  unfold envValue
  grind

@[grind .] theorem checked_fieldPlace? (Q : Rust.Expr → Prop) (d : FieldDecl) : OptionChecked Q (fieldPlace? d) := by
  unfold fieldPlace? selfField
  grind

@[grind ←] theorem checked_mappingKey {Q : Rust.Expr → Prop} (hxs : AllChecked Q xs) : (mappingKey xs).Checked Q := by
  unfold mappingKey
  grind

@[grind ←] theorem checked_readField {Q : Rust.Expr → Prop} (d : FieldDecl) (hxs : AllChecked Q xs) :
    (readField d xs).Checked Q := by
  unfold readField selfField
  grind

@[grind ←] theorem checked_writeField {Q : Rust.Expr → Prop} (d : FieldDecl) (hx : x.Checked Q)
    (hxs : AllChecked Q xs) : (writeField d x xs).Checked Q := by
  unfold writeField selfField
  grind

@[grind ←] theorem links_revert (entry : ErrorEntry) (hxs : H → AllChecked (Site E K here) xs) :
    Links E K here H (revert entry xs) := by
  have hfields (x : Rust.Expr) (hx : x.Checked (Site E K here)) :
      FieldsChecked (Site E K here) [⟨"code", .lit (toString entry.code.toNat)⟩, ⟨"message", x⟩] := ⟨trivial, hx, trivial⟩
  unfold revert
  grind

@[grind ←] theorem checked_emitEvent {Q : Rust.Expr → Prop} (ev : EventDecl) (hxs : AllChecked Q xs) :
    (emitEvent ev xs).Checked Q := by
  refine ⟨⟨trivial, trivial⟩, ?_, trivial⟩
  split
  · trivial
  · exact ⟨Rust.fieldsChecked_zip (fun _ => rfl) hxs, trivial⟩

end Ink

namespace Soroban

variable {E : Env} {K : List (String × String)} {here : Bool} {H : Prop} {x y : Rust.Expr} {xs : List Rust.Expr}

@[grind .] theorem checked_env (Q : Rust.Expr → Prop) : env.Checked Q := trivial

@[grind ←] theorem checked_hostCall {Q : Rust.Expr → Prop} (path : String) (hxs : AllChecked Q xs) :
    (hostCall path xs).Checked Q := ⟨trivial, trivial, hxs⟩

@[grind ←] theorem checked_borrow {Q : Rust.Expr → Prop} (hx : x.Checked Q) : (borrow x).Checked Q :=
  Rust.checked_borrowed hx

@[grind ←] theorem checked_asU32 {Q : Rust.Expr → Prop} (hx : x.Checked Q) (t : Ty) : (asU32 x t).Checked Q := by
  unfold asU32
  grind

theorem checked_lits {γ : Type} (Q : Rust.Expr → Prop) (f : γ → String) (as : List γ) :
    AllChecked Q (as.map fun a => .lit (f a)) := by
  simp [Rust.allChecked_iff, Rust.Expr.Checked]

@[grind ←] theorem links_type (t : Ty) : Links E K here H (type t) := by
  induction t using type.induct (motive_2 := fun ts => ∀ H, Links E K here H (types ts)) generalizing H
  all_goals simp only [type, types, named]
  all_goals grind

@[grind ←] theorem links_intLiteral (value : Nat) (negative signed : Bool) (bits : Nat) :
    Links E K here H (intLiteral value negative signed bits) := by
  have hlimbs := checked_lits (Site E K here) (fun i => "0x" ++ Text.hex 16 (limb value i)) [3, 2, 1, 0]
  unfold intLiteral
  grind

@[grind ←] theorem links_stringLiteral (text : String) : Links E K here H (stringLiteral text) := by
  unfold stringLiteral
  grind

theorem checked_replicate {Q : Rust.Expr → Prop} (n : Nat) (hx : x.Checked Q) : AllChecked Q (List.replicate n x) := by
  rw [Rust.allChecked_iff]
  intro y hy
  rwa [(List.mem_replicate.mp hy).2]

theorem links_zerosWith {structZero : DeclRef → Emit Rust.Expr} (h : ∀ H r, Links E K here H (structZero r)) :
    (∀ t H, Links E K here H (zeroWith structZero t)) ∧ ∀ ts H, Links E K here H (zerosWith structZero ts) := by
  have hbytes (size : Nat) : AllChecked (Site E K here) [(Rust.Expr.lit ("[0u8; " ++ toString size ++ "]")).ref] :=
    ⟨trivial, trivial⟩
  apply zeroWith.mutual_induct (fun t => ∀ H, Links E K here H (zeroWith structZero t))
    (fun ts => ∀ H, Links E K here H (zerosWith structZero ts))
  all_goals intros
  all_goals simp only [zeroWith, zerosWith, enumVariant]
  all_goals grind [checked_replicate]

@[grind ←] theorem links_zero (t : Ty) : Links E K here H (zero t) := by
  refine links_read_bind ((links_zerosWith ?_).1 t H)
  generalize E.package.structCount + 1 = depth
  induction depth with
  | zero => exact fun H r => links_throw _
  | succ depth ih =>
      intro H r
      refine links_read_bind (links_bind ((links_zerosWith ih).2 _ H) fun xs => links_pure fun ⟨_, hxs⟩ => ?_)
      exact ⟨Rust.fieldsChecked_zip (fun _ => rfl) hxs, trivial⟩

@[grind ←] theorem links_intBound (signed : Bool) (bits : Nat) (isMax : Bool) :
    Links E K here H (intBound signed bits isMax) := by
  have hlimbs (limbs : List String) : AllChecked (Site E K here) (limbs.map Rust.Expr.lit) :=
    checked_lits (Site E K here) id limbs
  unfold intBound
  grind

@[grind ←] theorem links_binary (op : Solidity.BinaryOp) (hx : H → x.Checked (Site E K here))
    (hy : H → y.Checked (Site E K here)) (t u : Ty) : Links E K here H (binary op x y t u) := by
  unfold binary wideBinary wideMethod?
  cases op
  all_goals grind

@[grind ←] theorem links_unary (op : Solidity.UnaryOp) (hx : H → x.Checked (Site E K here)) (t : Ty) :
    Links E K here H (unary op x t) := by
  unfold unary
  grind

@[grind ←] theorem links_cast (hx : H → x.Checked (Site E K here)) (source result : Ty) :
    Links E K here H (cast x source result) := by
  unfold cast
  split
  all_goals grind

@[grind ←] theorem checked_arrayIndex {Q : Rust.Expr → Prop} (hx : x.Checked Q) (hy : y.Checked Q) (t : Ty) :
    (arrayIndex x y t).Checked Q := by
  unfold arrayIndex
  grind

@[grind ←] theorem checked_arraySet {Q : Rust.Expr → Prop} (hx : x.Checked Q) (hy : y.Checked Q) (t : Ty)
    {z : Rust.Expr} (hz : z.Checked Q) : (arraySet x y t z).Checked Q := by
  unfold arraySet
  grind

@[grind ←] theorem links_arrayLength (hx : H → x.Checked (Site E K here)) : Links E K here H (arrayLength x) := by
  unfold arrayLength
  grind

@[grind ←] theorem links_arrayLiteral (hxs : H → AllChecked (Site E K here) xs) :
    Links E K here H (arrayLiteral xs) := by
  unfold arrayLiteral
  grind

@[grind ←] theorem links_envValue (kind : EnvKind) : Links E K here H (envValue kind) := by
  have hledger (name : String) : (((Rust.Expr.ident "env").method "ledger").method name).Checked (Site E K here) :=
    ⟨⟨trivial, trivial⟩, trivial⟩
  unfold envValue
  grind

-- The vector that is filled is no more than variables of its own.
@[grind ←] theorem links_newArray (elem : Ty) (hx : H → x.Checked (Site E K here)) (t : Ty) :
    Links E K here H (newArray elem x t) := by
  refine links_bind (links_zero elem) fun z => links_bind (links_use _) fun _ => links_bind (links_temp _) fun v => ?_
  refine links_bind (links_temp _) fun n => links_bind (links_temp _) fun i => links_pure ?_
  rintro ⟨⟨⟨⟨⟨hH, hz⟩, -⟩, -⟩, -⟩, -⟩
  exact ⟨⟨⟨trivial, trivial, trivial⟩, checked_asU32 (hx hH) t, trivial,
    ⟨⟨trivial, trivial⟩, ⟨⟨trivial, hz, trivial⟩, ⟨trivial, trivial⟩, trivial⟩, trivial⟩, trivial⟩, trivial⟩

theorem checked_dataKey {Q : Rust.Expr → Prop} (d : FieldDecl) (hxs : AllChecked Q xs) : (dataKey d xs).Checked Q := by
  cases xs with
  | nil => trivial
  | cons x xs => exact ⟨trivial, hxs⟩

@[grind ←] theorem links_readField (d : FieldDecl) (hxs : H → AllChecked (Site E K here) xs) :
    Links E K here H (readField d xs) := by
  have hget (t : String) (hH : H) : (persistent.methodCall ("get::<DataKey, " ++ t ++ ">")
      [(dataKey d xs).ref]).Checked (Site E K here) :=
    ⟨⟨⟨trivial, trivial⟩, trivial⟩, checked_dataKey d (hxs hH), trivial⟩
  refine links_bind (links_type _) fun t => links_tryCatch ?_ fun _ => ?_
  · grind
  · grind

@[grind ←] theorem checked_writeField {Q : Rust.Expr → Prop} (d : FieldDecl) (hx : x.Checked Q)
    (hxs : AllChecked Q xs) : (writeField d x xs).Checked Q :=
  ⟨⟨⟨trivial, trivial⟩, trivial⟩, checked_dataKey d hxs, checked_borrow hx, trivial⟩

@[grind ←] theorem links_revert (entry : ErrorEntry) : Links E K here H (revert entry) :=
  links_read_bind (links_pure fun _ => trivial)

@[grind ←] theorem checked_externalCall {Q : Rust.Expr → Prop} (method : Signature) (hx : x.Checked Q)
    (hxs : AllChecked Q xs) : (externalCall method x xs).Checked Q := by
  refine ⟨hx, ?_⟩
  rw [Rust.allChecked_iff, List.forall_mem_map]
  exact fun x hx => checked_borrow (Rust.allChecked_iff.mp hxs x hx)

@[grind ←] theorem links_emitEvent (ev : EventDecl) (hxs : H → AllChecked (Site E K here) xs) :
    Links E K here H (emitEvent ev xs) := by
  have hfields (keep : EventField × Rust.Expr → Bool) (hH : H) :
      AllChecked (Site E K here) (((ev.fields.zip xs).filter keep).map Prod.snd) := by
    rw [Rust.allChecked_iff, List.forall_mem_map]
    intro p hp
    exact Rust.allChecked_iff.mp (hxs hH) p.2 (List.of_mem_zip (List.mem_of_mem_filter hp)).2
  refine links_bind (links_use _) fun _ => links_pure fun ⟨hH, _⟩ => ?_
  refine ⟨⟨trivial, trivial⟩, ⟨checked_hostCall _ ⟨trivial, trivial⟩, hfields _ hH⟩, ?_, trivial⟩
  split
  · trivial
  · exact hfields _ hH

end Soroban

end RustContracts
