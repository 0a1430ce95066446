import RustContracts.Proofs.Emit.LinksExpr
import RustContracts.Proofs.Rust.Form

-- Steps whose code keeps to a form, where the variables in scope do.
namespace RustContracts

open Program Emit

namespace Emit

-- A form to which all code keeps that the compiler adds on its own. In ink! contracts any name will do.
structure Mild (F : Rust.Form) (target : Target) : Prop where
  ink : ∀ v, target = .ink v → ∀ name, F.ident name
  env : F.ident "env"
  failure : F.ident "e"
  nameless : F.ident ""
  path : ∀ name : String, ':' ∈ name.toList → F.ident name
  joined : ∀ a b : String, F.ident (a ++ "_" ++ b)
  left : ∀ op x, op ≠ "<" → op ≠ "<<" → F.left op x
  count : ∀ i n, F.left "<" (.ident i) ∧ F.cond (.binary "<" (.ident i) (.ident n))
  call : ∀ path args, F.cond (.callPath path args)

attribute [grind →] Mild.env

theorem Mild.left_text {F : Rust.Form} {target : Target} (hF : Mild F target) (op : Solidity.BinaryOp) {x : Rust.Expr}
    (hleft : op = .lt ∨ op = .shl → F.left op.text x) : F.left op.text x := by
  by_cases h : op = .lt ∨ op = .shl
  · exact hleft h
  · have hother : op.text ≠ "<" ∧ op.text ≠ "<<" := by
      rw [not_or] at h
      cases op <;> simp_all [Solidity.BinaryOp.text]
    exact hF.left _ _ hother.1 hother.2

def State.Fits (F : Rust.Form) (s : State) : Prop :=
  ∀ scope ∈ s.frame.scopes, (∀ l ∈ scope.locals, F.ident l.2) ∧ ∀ r ∈ scope.refs, F.ident r.2

-- What it means that something written keeps to a form; text and numbers keep to any.
class Fitting (α : Type) where
  fits : Rust.Form → α → Prop

instance (priority := low) fittingOther (α : Type) : Fitting α := ⟨fun _ _ => True⟩
instance : Fitting Rust.Expr := ⟨fun F x => x.Fits F⟩
instance : Fitting (List Rust.Expr) := ⟨fun F xs => ∀ x ∈ xs, x.Fits F⟩
instance : Fitting (Option Rust.Expr) := ⟨fun F x => ∀ y ∈ x, y.Fits F⟩
instance : Fitting Rust.Block := ⟨fun F b => b.Fits F⟩
instance : Fitting Rust.Stmt := ⟨fun F st => st.Fits F⟩
instance : Fitting (List Rust.Stmt) := ⟨fun F code => ∀ st ∈ code, st.Fits F⟩

def Access.Fits (F : Rust.Form) : Access → Prop
  | value x => x.Fits F
  | entry _ keys _ => ∀ x ∈ keys, x.Fits F

instance : Fitting Access := ⟨fun F a => a.Fits F⟩
instance {α β : Type} [Fitting α] [Fitting β] : Fitting (α × β) :=
  ⟨fun F p => Fitting.fits F p.1 ∧ Fitting.fits F p.2⟩

section Fitting

variable (F : Rust.Form)

@[grind =] theorem fitting_other (α : Type) (a : α) : @Fitting.fits α (fittingOther α) F a = True := rfl
@[grind =] theorem fitting_expr (x : Rust.Expr) : Fitting.fits F x = x.Fits F := rfl
@[grind =] theorem fitting_exprs (xs : List Rust.Expr) : Fitting.fits F xs = ∀ x ∈ xs, x.Fits F := rfl
@[grind =] theorem fitting_option (x : Option Rust.Expr) : Fitting.fits F x = ∀ y ∈ x, y.Fits F := rfl
@[grind =] theorem fitting_block (b : Rust.Block) : Fitting.fits F b = b.Fits F := rfl
@[grind =] theorem fitting_stmt (st : Rust.Stmt) : Fitting.fits F st = st.Fits F := rfl
@[grind =] theorem fitting_stmts (code : List Rust.Stmt) : Fitting.fits F code = ∀ st ∈ code, st.Fits F := rfl
@[grind =] theorem fitting_access (a : Access) : Fitting.fits F a = a.Fits F := rfl
@[grind =] theorem fitting_pair {α β : Type} [Fitting α] [Fitting β] (p : α × β) :
    Fitting.fits F p = (Fitting.fits F p.1 ∧ Fitting.fits F p.2) := rfl

attribute [grind =] Access.Fits

end Fitting

variable {F : Rust.Form} {E : Env} {s s' : State} {α β : Type} [Fitting α] [Fitting β]

def Conforms (F : Rust.Form) (E : Env) (act : Emit α) : Prop :=
  ∀ s, s.Fits F → (outcome act E s).2.Fits F ∧ ∀ a s', Writes act E s a s' → Fitting.fits F a

@[grind ←] theorem conforms_pure {a : α} (ha : Fitting.fits F a) : Conforms F E (pure a) := by
  refine fun s hs => ⟨hs, fun b s' hw => ?_⟩
  obtain ⟨rfl, -⟩ := writes_pure.mp hw
  exact ha

@[grind ←] theorem conforms_throw (stop : Stop) : Conforms F E (throw stop : Emit α) :=
  fun _ hs => ⟨hs, fun _ _ hw => absurd hw not_writes_throw⟩

@[grind ←] theorem conforms_ended (text? : Option String) : Conforms F E (Ink.ended text?) := by
  cases text? with
  | none => exact conforms_throw _
  | some text => exact conforms_pure trivial

-- The second step may use what the first has written.
theorem conforms_bind_of_writes {x : Emit α} {f : α → Emit β} (hx : Conforms F E x)
    (hf : ∀ a s s', Writes x E s a s' → Fitting.fits F a → Conforms F E (f a)) : Conforms F E (x >>= f) := by
  intro s hs
  obtain ⟨hfits, hwrites⟩ := hx s hs
  rcases ho : outcome x E s with ⟨r, s₁⟩
  rw [ho] at hfits
  rw [outcome_bind, ho]
  cases r with
  | error d =>
      refine ⟨hfits, fun b s' hw => ?_⟩
      obtain ⟨a, s₂, hxa, -⟩ := writes_bind.mp hw
      cases ho.symm.trans hxa
  | ok a =>
      obtain ⟨hfits', hwrites'⟩ := hf a s s₁ ho (hwrites a s₁ ho) s₁ hfits
      refine ⟨hfits', fun b s' hw => ?_⟩
      obtain ⟨a', s₂, hxa, hfa⟩ := writes_bind.mp hw
      obtain ⟨rfl, rfl⟩ : a = a' ∧ s₁ = s₂ := by simpa using ho.symm.trans hxa
      exact hwrites' b s' hfa

@[grind ←] theorem conforms_bind {x : Emit α} {f : α → Emit β} (hx : Conforms F E x)
    (hf : ∀ a, Fitting.fits F a → Conforms F E (f a)) : Conforms F E (x >>= f) :=
  conforms_bind_of_writes hx fun a _ _ _ => hf a

theorem conforms_throw_bind (stop : Stop) (f : α → Emit β) : Conforms F E ((throw stop : Emit α) >>= f) :=
  conforms_bind_of_writes (conforms_throw stop) fun _ _ _ hw _ => absurd hw not_writes_throw

@[grind ←] theorem conforms_read_bind {f : Env → Emit β} (hf : Conforms F E (f E)) : Conforms F E (read >>= f) := hf

-- What depends on the target has to keep to the form for the target at hand.
@[grind ←] theorem conforms_target_bind {f : Target → Emit β} (hf : Conforms F E (f E.target)) :
    Conforms F E (target >>= f) := hf

theorem conforms_get : Conforms F E (get : Emit State) := fun _ hs => ⟨hs, fun _ _ _ => trivial⟩

theorem conforms_modify {f : State → State} (hf : ∀ s, s.Fits F → (f s).Fits F) : Conforms F E (modify f) :=
  fun s hs => ⟨hf s hs, fun _ _ _ => trivial⟩

theorem conforms_tryCatch {x : Emit α} {f : Stop → Emit α} (hx : Conforms F E x)
    (hf : ∀ d, Conforms F E (f d)) : Conforms F E (tryCatch x f) := by
  intro s hs
  obtain ⟨hfits, hwrites⟩ := hx s hs
  rcases ho : outcome x E s with ⟨r, s₁⟩
  rw [ho] at hfits
  simp only [Writes, outcome_tryCatch, ho]
  cases r with
  | ok a => exact ⟨hfits, fun b s' hw => hwrites b s' (ho.trans hw)⟩
  | error d => exact hf d s₁ hfits

theorem conforms_mapM {γ δ : Type} [Fitting δ] {f : γ → Emit δ} (hf : ∀ x, Conforms F E (f x)) (xs : List γ) :
    @Conforms (List δ) (fittingOther _) F E (xs.mapM f) := by
  induction xs with
  | nil => exact @conforms_pure _ _ _ (fittingOther _) _ trivial
  | cons x xs ih =>
      rw [List.mapM_cons]
      exact conforms_bind (hf x) fun _ _ => conforms_bind ih fun _ _ => conforms_pure trivial

-- Steps that leave the variables alone.

theorem State.Fits.of_scopes (hs : s.Fits F) (h : s'.frame.scopes = s.frame.scopes) : s'.Fits F := by
  rwa [State.Fits, h]

theorem conforms_modifyFrame {f : Frame → Frame} (hf : ∀ fr, (f fr).scopes = fr.scopes) :
    Conforms F E (modifyFrame f) := conforms_modify fun s hs => hs.of_scopes (hf s.frame)

@[grind ←] theorem conforms_use (path : String) : Conforms F E (use path) :=
  conforms_modify fun s hs => hs.of_scopes (by split <;> rfl)

@[grind ←] theorem conforms_noteInterface (name : String) : Conforms F E (noteInterface name) :=
  conforms_modify fun s hs => hs.of_scopes (by split <;> rfl)

@[grind .] theorem conforms_frame : Conforms F E frame :=
  conforms_bind conforms_get fun _ _ => conforms_pure trivial

@[grind .] theorem conforms_target : Conforms F E target := conforms_read_bind (conforms_pure trivial)

@[grind ←] theorem conforms_helperName (key : String) (h : Helper) : Conforms F E (helperName key h) := by
  refine conforms_bind conforms_get fun s _ => ?_
  split
  · exact conforms_pure trivial
  · exact conforms_bind (conforms_modify fun _ hs => hs) fun _ _ => conforms_pure trivial

@[grind ←] theorem conforms_temp (stem : String) : Conforms F E (temp stem) := by
  refine conforms_bind (conforms_modifyFrame fun _ => rfl) fun _ _ => conforms_bind conforms_frame fun _ _ => ?_
  exact conforms_pure trivial

-- A variable of the compiler's own has a number at its end.
theorem fits_of_temp (hF : Mild F E.target) {stem name : String} (hw : Writes (temp stem) E s name s') :
    F.ident name := by
  cases hw
  exact hF.joined _ _

-- Literals.

theorem fits_lit {text : String} (h : text.toList.head? ≠ some 'v') : (Rust.Expr.lit text).Fits F := .lit h

-- A text that starts with a character of its own.
theorem fits_lit_append {c : Char} {front : List Char} (hc : c ≠ 'v') {text : String} (htext : text.toList = c :: front)
    (rest : String) : (Rust.Expr.lit (text ++ rest)).Fits F := by
  refine .lit ?_
  rw [String.toList_append, htext]
  simpa using hc

theorem fits_number (value : Nat) (suffix : String) : (Rust.Expr.lit (toString value ++ suffix)).Fits F := by
  have hdigits : (toString value).toList = Nat.toDigits 10 value := by simp
  obtain ⟨c, front, hfront⟩ := List.exists_cons_of_ne_nil (Nat.toDigits_ne_nil (b := 10) (n := value))
  have hmem : c ∈ Nat.toDigits 10 value := hfront ▸ List.mem_cons_self
  have hdigit := Nat.isDigit_of_mem_toDigits (by decide) (by decide) hmem
  refine fits_lit_append ?_ (hdigits.trans hfront) suffix
  rintro rfl
  exact absurd hdigit (by decide)

theorem fits_signedNumber (negative : Bool) (value : Nat) (suffix : String) :
    (Rust.Expr.lit ((if negative then "-" else "") ++ toString value ++ suffix)).Fits F := by
  cases negative with
  | true =>
      rw [if_pos rfl, String.append_assoc]
      exact fits_lit_append (c := '-') (by decide) rfl _
  | false =>
      rw [if_neg (by decide), String.empty_append]
      exact fits_number value suffix

@[grind .] theorem fits_quoted (text : String) : (Rust.Expr.lit (Rust.quoted text)).Fits F := by
  unfold Rust.quoted
  rw [String.append_assoc]
  exact fits_lit_append (c := '"') (by decide) rfl _

@[grind .] theorem fits_hex (text : String) : (Rust.Expr.lit ("0x" ++ text)).Fits F :=
  fits_lit_append (c := '0') (by decide) rfl text

@[grind .] theorem fits_bytes (text : String) : (Rust.Expr.lit ("[0u8; " ++ text ++ "]")).Fits F := by
  rw [String.append_assoc]
  exact fits_lit_append (c := '[') (by decide) rfl _

end Emit

namespace Ink

variable {F : Rust.Form} {E : Env} {target : Target} {x y : Rust.Expr} {xs : List Rust.Expr}

@[grind ←] theorem conforms_useU256 (v : InkVersion) : Conforms F E (useU256 v) := by
  unfold useU256
  grind

@[grind .] theorem conforms_useString : Conforms F E useString := conforms_use _

@[grind .] theorem conforms_useVec : Conforms F E useVec := conforms_use _

@[grind ←] theorem conforms_intName (signed : Bool) (bits : Nat) : Conforms F E (intName signed bits) := by
  unfold intName
  grind

@[grind ←] theorem conforms_addressType (v : InkVersion) : Conforms F E (addressType v) := by
  unfold addressType
  grind

@[grind ←] theorem conforms_type (v : InkVersion) (t : Ty) : Conforms F E (type v t) := by
  induction t using type.induct (motive_2 := fun ts => Conforms F E (types v ts))
  all_goals simp only [type, types]
  all_goals grind

@[grind ←] theorem conforms_toU256 (v : InkVersion) (hx : x.Fits F) : Conforms F E (toU256 v x) := by
  unfold toU256
  grind

@[grind .] theorem fits_u256 (value : Nat) : (u256 value).Fits F := by
  unfold u256
  split
  · exact .call (List.forall_mem_singleton.mpr (fits_number value _))
  · refine .call (List.forall_mem_singleton.mpr (.array fun x hx => ?_))
    obtain ⟨i, -, rfl⟩ := List.mem_map.mp hx
    exact fits_hex _

@[grind ←] theorem conforms_intLiteral (v : InkVersion) (value : Nat) (negative signed : Bool) (bits : Nat) :
    Conforms F E (intLiteral v value negative signed bits) := by
  unfold intLiteral
  refine conforms_bind (conforms_intName _ _) fun name _ => ?_
  split
  · exact conforms_bind (conforms_useU256 v) fun _ _ => conforms_pure (fits_u256 value)
  · exact conforms_pure (fits_signedNumber negative value name)

@[grind ←] theorem conforms_stringLiteral (text : String) : Conforms F E (stringLiteral text) := by
  unfold stringLiteral
  grind

-- The name of a primitive integer type.
theorem writes_intName {signed : Bool} {bits : Nat} {s s' : State} {name : String}
    (hw : Writes (intName signed bits) E s name s') : ∃ c front, c ≠ 'v' ∧ name.toList = c :: front := by
  unfold intName at hw
  split at hw
  · obtain ⟨rfl, -⟩ := writes_pure.mp hw
    cases signed with
    | true => exact ⟨'i', _, by decide, by rw [if_pos rfl, String.toList_append]; rfl⟩
    | false => exact ⟨'u', _, by decide, by rw [if_neg (by decide), String.toList_append]; rfl⟩
  · split at hw
    · exact absurd hw not_writes_throw
    · obtain ⟨rfl, -⟩ := writes_pure.mp hw
      exact ⟨'U', _, by decide, rfl⟩

@[grind ←] theorem conforms_zero (v : InkVersion) (t : Ty) : Conforms F E (zero v t) := by
  have hlit {text : String} (h : text.toList.head? ≠ some 'v') : (Rust.Expr.lit text).Fits F := .lit h
  have hzero (text : String) : (Rust.Expr.lit ("0" ++ text)).Fits F := fits_lit_append (c := '0') (by decide) rfl text
  have hu256 := hlit (show "U256::zero()".toList.head? ≠ some 'v' by decide)
  have hfalse := hlit (show "false".toList.head? ≠ some 'v' by decide)
  have haccount := hlit (show "AccountId::from([0u8; 32])".toList.head? ≠ some 'v' by decide)
  have hh160 := hlit (show "H160::zero()".toList.head? ≠ some 'v' by decide)
  have hstring := hlit (show "String::new()".toList.head? ≠ some 'v' by decide)
  have hvec := hlit (show "Vec::new()".toList.head? ≠ some 'v' by decide)
  have hdefault := hlit (show "Default::default()".toList.head? ≠ some 'v' by decide)
  unfold zero
  grind

@[grind ←] theorem conforms_intBound (v : InkVersion) (signed : Bool) (bits : Nat) (isMax : Bool) :
    Conforms F E (intBound v signed bits isMax) := by
  unfold intBound
  refine conforms_bind_of_writes (conforms_intName _ _) fun name s s' hw _ => ?_
  obtain ⟨c, front, hc, hname⟩ := writes_intName hw
  split
  · refine conforms_bind (conforms_useU256 v) fun _ _ => conforms_pure (fits_lit ?_)
    cases isMax <;> decide
  · exact conforms_pure (fits_lit_append hc hname _)

@[grind ←] theorem conforms_unary (op : Solidity.UnaryOp) (hx : x.Fits F) (t : Ty) :
    Conforms F E (unary op x t) := by
  unfold unary
  grind

@[grind ←] theorem conforms_cast (v : InkVersion) (hx : x.Fits F) (source result : Ty) :
    Conforms F E (cast v x source result) := by
  have htext : (Rust.Expr.callPath "String::from_utf8" [x]).Fits F := .call (List.forall_mem_singleton.mpr hx)
  unfold cast
  split
  all_goals grind

@[grind ←] theorem fits_arrayIndex (hx : x.Fits F) (hy : y.Fits F) (t : Ty) : (arrayIndex x y t).Fits F := by
  unfold arrayIndex asUsize
  grind

@[grind ←] theorem conforms_arrayLength (v : InkVersion) (hx : x.Fits F) : Conforms F E (arrayLength v x) := by
  unfold arrayLength
  grind

@[grind ←] theorem conforms_newArray (v : InkVersion) (elem t : Ty) (hx : x.Fits F) :
    Conforms F E (newArray v elem x t) := by
  have hsize : (asUsize x t).Fits F := by
    unfold asUsize
    grind
  refine conforms_bind (conforms_zero v elem) fun z hz => conforms_bind (conforms_use _) fun _ _ => ?_
  exact conforms_pure (.vec hz hsize)

@[grind ←] theorem conforms_arrayLiteral (length : Int) (hxs : ∀ x ∈ xs, x.Fits F) :
    Conforms F E (arrayLiteral length xs) := by
  unfold arrayLiteral
  grind

@[grind ←] theorem fits_mappingKey (hxs : ∀ x ∈ xs, x.Fits F) : (mappingKey xs).Fits F := by
  unfold mappingKey
  grind

section Names

variable (hF : ∀ name, F.ident name)
include hF

@[grind ←] theorem conforms_envValue (v : InkVersion) (kind : EnvKind) : Conforms F E (envValue v kind) := by
  have hself : (Rust.Expr.ident "self").Fits F := .ident (hF _)
  unfold envValue
  grind

@[grind ←] theorem fits_selfField (name : String) : (selfField name).Fits F := .field (.ident (hF _))

@[grind ←] theorem fits_readField (d : FieldDecl) (hxs : ∀ x ∈ xs, x.Fits F) : (readField d xs).Fits F := by
  unfold readField
  grind

@[grind ←] theorem fits_writeField (d : FieldDecl) (hx : x.Fits F) (hxs : ∀ x ∈ xs, x.Fits F) :
    (writeField d x xs).Fits F := by
  unfold writeField
  grind

theorem conforms_revert (entry : ErrorEntry) (hxs : ∀ x ∈ xs, x.Fits F) : Conforms F E (revert entry xs) := by
  unfold revert
  split
  · split
    · exact conforms_pure (.ident (hF _))
    · exact conforms_pure (.call hxs)
  · refine conforms_bind (conforms_stringLiteral _) fun x hx => conforms_pure (.structLit fun f hf => ?_)
    have hcode := fits_number (F := F) entry.code.toNat ""
    rw [String.append_empty] at hcode
    rcases List.mem_cons.mp hf with rfl | hf
    · exact hcode
    · rw [List.mem_singleton.mp hf]
      exact hx

theorem fits_emitEvent (ev : EventDecl) (hxs : ∀ x ∈ xs, x.Fits F) : (emitEvent ev xs).Fits F := by
  refine .expr (.methodCall (Rust.fits_method (.ident (hF _)) _) (List.forall_mem_singleton.mpr ?_))
  split
  · exact .ident (hF _)
  · exact Rust.fits_structLit_zip (fun _ => rfl) hxs

end Names

-- `<` and `<<` have to be fit for what stands to the left of them; every other operator is fit for anything.
theorem fits_binary (hF : Mild F target) (op : Solidity.BinaryOp) (hleft : op = .lt ∨ op = .shl → F.left op.text x)
    (hx : x.Fits F) (hy : y.Fits F) (t u : Ty) : (binary op x y t u).Fits F := by
  have hop := hF.left_text op hleft
  unfold binary power
  cases op
  all_goals grind

end Ink

namespace Soroban

variable {F : Rust.Form} {E : Env} {target : Target} {x y : Rust.Expr} {xs : List Rust.Expr}

@[grind ←] theorem conforms_type (t : Ty) : Conforms F E (type t) := by
  induction t using type.induct (motive_2 := fun ts => Conforms F E (types ts))
  all_goals simp only [type, types, named]
  all_goals grind

@[grind ←] theorem fits_borrow (hx : x.Fits F) : (borrow x).Fits F := Rust.fits_ref (Rust.fits_borrowed hx)

@[grind ←] theorem fits_asU32 (hx : x.Fits F) (t : Ty) : (asU32 x t).Fits F := by
  unfold asU32
  grind

theorem fits_intName (signed : Bool) (bits : Nat) (rest : String) :
    (Rust.Expr.lit (intName signed bits ++ rest)).Fits F := by
  have hname : ∃ c front, c ≠ 'v' ∧ (intName signed bits).toList = c :: front := by
    unfold intName
    split
    · cases signed with
      | true => exact ⟨'i', _, by decide, by rw [if_pos rfl, String.toList_append]; rfl⟩
      | false => exact ⟨'u', _, by decide, by rw [if_neg (by decide), String.toList_append]; rfl⟩
    · cases signed with
      | true => exact ⟨'I', _, by decide, rfl⟩
      | false => exact ⟨'U', _, by decide, rfl⟩
  obtain ⟨c, front, hc, hfront⟩ := hname
  exact fits_lit_append hc hfront rest

theorem fits_lits {γ : Type} {f : γ → String} (hf : ∀ a, (Rust.Expr.lit (f a)).Fits F) (as : List γ) :
    ∀ x ∈ as.map fun a => Rust.Expr.lit (f a), x.Fits F := by
  intro x hx
  obtain ⟨a, -, rfl⟩ := List.mem_map.mp hx
  exact hf a

section Host

variable (henv : F.ident "env")
include henv

@[grind ←] theorem fits_env : env.Fits F := Rust.fits_ref (.ident henv)

@[grind ←] theorem fits_hostCall (path : String) (hxs : ∀ x ∈ xs, x.Fits F) : (hostCall path xs).Fits F :=
  .call (List.forall_mem_cons.mpr ⟨fits_env henv, hxs⟩)

@[grind ←] theorem conforms_intLiteral (value : Nat) (negative signed : Bool) (bits : Nat) :
    Conforms F E (intLiteral value negative signed bits) := by
  have hdigits := fits_signedNumber (F := F) negative value ""
  have hvalue := fits_number (F := F) value ""
  rw [String.append_empty] at hdigits hvalue
  unfold intLiteral
  dsimp only
  split
  · exact conforms_pure (fits_signedNumber negative value _)
  · refine conforms_bind (conforms_use _) fun _ _ => ?_
    split
    · split
      · exact conforms_throw_bind _ _
      · exact conforms_pure (fits_hostCall henv _ (by simpa using hdigits))
    · split
      · exact conforms_pure (fits_hostCall henv _ (by simpa using hvalue))
      · exact conforms_pure (fits_hostCall henv _ (fits_lits (fun i => fits_hex _) _))

@[grind ←] theorem conforms_stringLiteral (text : String) : Conforms F E (stringLiteral text) := by
  unfold stringLiteral
  grind

@[grind ←] theorem conforms_intBound (signed : Bool) (bits : Nat) (isMax : Bool) :
    Conforms F E (intBound signed bits isMax) := by
  have hbound (rest : String) := fits_intName (F := F) signed bits rest
  have hlimbs : ∀ limbs ∈ [["u64::MAX", "u64::MAX", "u64::MAX", "u64::MAX"], ["0", "0", "0", "0"],
      ["i64::MAX", "u64::MAX", "u64::MAX", "u64::MAX"], ["i64::MIN", "0", "0", "0"]],
      ∀ x ∈ limbs.map Rust.Expr.lit, x.Fits F := by
    intro limbs hlimbs x hx
    obtain ⟨text, htext, rfl⟩ := List.mem_map.mp hx
    have hall : ∀ limbs ∈ [["u64::MAX", "u64::MAX", "u64::MAX", "u64::MAX"], ["0", "0", "0", "0"],
        ["i64::MAX", "u64::MAX", "u64::MAX", "u64::MAX"], ["i64::MIN", "0", "0", "0"]],
        ∀ text ∈ limbs, text.toList.head? ≠ some 'v' := by decide
    exact .lit (hall limbs hlimbs text htext)
  unfold intBound
  dsimp only
  split
  · exact conforms_pure (hbound _)
  · refine conforms_bind (conforms_use _) fun _ _ => conforms_pure (fits_hostCall henv _ (hlimbs _ ?_))
    cases signed <;> cases isMax <;> simp

@[grind ←] theorem conforms_cast (hx : x.Fits F) (source result : Ty) : Conforms F E (cast x source result) := by
  unfold cast
  split
  all_goals grind

omit henv in
@[grind ←] theorem fits_arrayIndex (hx : x.Fits F) (hy : y.Fits F) (t : Ty) : (arrayIndex x y t).Fits F := by
  unfold arrayIndex
  grind

omit henv in
@[grind ←] theorem fits_arraySet (hx : x.Fits F) (hy : y.Fits F) (t : Ty) {z : Rust.Expr} (hz : z.Fits F) :
    (arraySet x y t z).Fits F := by
  unfold arraySet
  grind

@[grind ←] theorem conforms_arrayLength (hx : x.Fits F) : Conforms F E (arrayLength x) := by
  unfold arrayLength
  grind

@[grind ←] theorem conforms_arrayLiteral (hxs : ∀ x ∈ xs, x.Fits F) : Conforms F E (arrayLiteral xs) := by
  unfold arrayLiteral
  grind

@[grind ←] theorem conforms_envValue {kind : EnvKind} (hcaller : kind = .sender → F.ident "caller") :
    Conforms F E (envValue kind) := by
  have hident : (Rust.Expr.ident "env").Fits F := .ident henv
  unfold envValue
  cases kind with
  | sender =>
      have hident : (Rust.Expr.ident "caller").Fits F := .ident (hcaller rfl)
      grind
  | _ => grind

end Host

theorem conforms_zerosWith (hF : Mild F E.target) {structZero : DeclRef → Emit Rust.Expr}
    (h : ∀ r, Conforms F E (structZero r)) :
    (∀ t, Conforms F E (zeroWith structZero t)) ∧ ∀ ts, Conforms F E (zerosWith structZero ts) := by
  have hzero (text : String) : (Rust.Expr.lit ("0" ++ text)).Fits F := fits_lit_append (c := '0') (by decide) rfl text
  have hvariant (e : EnumDecl) (variant : String) : (enumVariant e variant).Fits F := .ident (hF.path _ (by simp))
  have hfalse := fits_lit (F := F) (show "false".toList.head? ≠ some 'v' by decide)
  have hunit := fits_lit (F := F) (show "()".toList.head? ≠ some 'v' by decide)
  apply zeroWith.mutual_induct (fun t => Conforms F E (zeroWith structZero t))
    (fun ts => Conforms F E (zerosWith structZero ts))
  all_goals intros
  all_goals simp only [zeroWith, zerosWith]
  all_goals grind

@[grind ←] theorem conforms_zero (hF : Mild F E.target) (t : Ty) : Conforms F E (zero t) := by
  refine conforms_read_bind ((conforms_zerosWith hF ?_).1 t)
  generalize E.package.structCount + 1 = depth
  induction depth with
  | zero => exact fun r => conforms_throw _
  | succ depth ih =>
      intro r
      refine conforms_read_bind (conforms_bind ((conforms_zerosWith hF ih).2 _) fun xs hxs => conforms_pure ?_)
      exact Rust.fits_structLit_zip (fun _ => rfl) hxs

@[grind ←] theorem conforms_binary (hF : Mild F E.target) (op : Solidity.BinaryOp)
    (hleft : op = .lt ∨ op = .shl → F.left op.text x) (hx : x.Fits F) (hy : y.Fits F) (t u : Ty) :
    Conforms F E (binary op x y t u) := by
  have hop := hF.left_text op hleft
  unfold binary wideBinary wideMethod?
  cases op
  all_goals grind

@[grind ←] theorem conforms_unary (hF : Mild F E.target) (op : Solidity.UnaryOp) (hx : x.Fits F) (t : Ty) :
    Conforms F E (unary op x t) := by
  unfold unary
  grind

-- The vector that is filled and what counts its elements are variables of the compiler's own.
@[grind ←] theorem conforms_newArray (hF : Mild F E.target) (elem : Ty) (hx : x.Fits F) (t : Ty) :
    Conforms F E (newArray elem x t) := by
  have htemp (stem : String) {s s' : State} {name : String} (hw : Writes (temp stem) E s name s') :
      (Rust.Expr.ident name).Fits F := .ident (fits_of_temp hF hw)
  unfold newArray
  refine conforms_bind (conforms_zero hF elem) fun z hz => conforms_bind (conforms_use _) fun _ _ => ?_
  refine conforms_bind_of_writes (conforms_temp _) fun v _ _ hv _ => ?_
  refine conforms_bind_of_writes (conforms_temp _) fun n _ _ hn _ => ?_
  refine conforms_bind_of_writes (conforms_temp _) fun i _ _ hi _ => conforms_pure (.block (.mk ?_ ?_))
  · have hzero := fits_lit (F := F) (show "0u32".toList.head? ≠ some 'v' by decide)
    have hone := fits_lit (F := F) (show "1".toList.head? ≠ some 'v' by decide)
    have hcount := hF.count i n
    have hloop : (Rust.Stmt.whileLoop "" (.binary "<" (.ident i) (.ident n))
        ⟨[.expr ((Rust.Expr.ident v).methodCall "push_back" [z]), .assign (.ident i) "+=" (.lit "1")], none⟩).Fits F := by
      refine .whileLoop hcount.2 (.binary hcount.1 (htemp _ hi) (htemp _ hn)) (.mk ?_ (by simp))
      simp only [List.forall_mem_cons]
      exact ⟨.expr (.methodCall (htemp _ hv) (List.forall_mem_singleton.mpr hz)), .assign (htemp _ hi) hone, by simp⟩
    simp only [List.forall_mem_cons]
    exact ⟨.letVar (fits_hostCall hF.env _ (by simp)), .letVar (fits_asU32 hx t), .letVar hzero, hloop, by simp⟩
  · rintro y ⟨⟩
    exact htemp _ hv

theorem fits_dataKey (hF : Mild F target) (d : FieldDecl) (hxs : ∀ x ∈ xs, x.Fits F) : (dataKey d xs).Fits F := by
  cases xs with
  | nil => exact .ident (hF.path _ (by simp))
  | cons x xs => exact .call hxs

theorem fits_persistent (henv : F.ident "env") : persistent.Fits F :=
  Rust.fits_method (Rust.fits_method (.ident henv) _) _

@[grind ←] theorem conforms_readField (hF : Mild F E.target) (d : FieldDecl) (hxs : ∀ x ∈ xs, x.Fits F) :
    Conforms F E (readField d xs) := by
  have hget (t : String) : (persistent.methodCall ("get::<DataKey, " ++ t ++ ">") [(dataKey d xs).ref]).Fits F :=
    .methodCall (fits_persistent hF.env) (List.forall_mem_singleton.mpr (.unary (fits_dataKey hF d hxs)))
  refine conforms_bind (conforms_type _) fun t _ => conforms_tryCatch ?_ fun stop => ?_
  · exact conforms_bind (conforms_zero hF _) fun z hz => conforms_pure
      (.methodCall (hget t) (List.forall_mem_singleton.mpr hz))
  · cases stop with
    | fault d => exact conforms_pure (Rust.fits_method (hget t) _)
    | overflow => exact conforms_throw _

theorem fits_writeField (hF : Mild F target) (d : FieldDecl) (hx : x.Fits F) (hxs : ∀ x ∈ xs, x.Fits F) :
    (writeField d x xs).Fits F := by
  refine .expr (.methodCall (fits_persistent hF.env) ?_)
  simp only [List.forall_mem_cons]
  exact ⟨.unary (fits_dataKey hF d hxs), fits_borrow hx, by simp⟩

@[grind ←] theorem conforms_revert (hF : Mild F E.target) (entry : ErrorEntry) : Conforms F E (revert entry) :=
  conforms_read_bind (conforms_pure (.ident (hF.path _ (by simp))))

@[grind ←] theorem fits_externalRef (henv : F.ident "env") (interface : String) (hx : x.Fits F) :
    (externalRef interface x).Fits F := fits_hostCall henv _ (List.forall_mem_singleton.mpr (fits_borrow hx))

@[grind ←] theorem fits_externalCall (method : Signature) (hx : x.Fits F) (hxs : ∀ x ∈ xs, x.Fits F) :
    (externalCall method x xs).Fits F := by
  refine .methodCall hx fun y hy => ?_
  obtain ⟨z, hz, rfl⟩ := List.mem_map.mp hy
  exact fits_borrow (hxs z hz)

theorem conforms_emitEvent (henv : F.ident "env") (ev : EventDecl) (hxs : ∀ x ∈ xs, x.Fits F) :
    Conforms F E (emitEvent ev xs) := by
  have hparts (keep : EventField × Rust.Expr → Bool) : ∀ x ∈ ((ev.fields.zip xs).filter keep).map Prod.snd, x.Fits F := by
    intro x hx
    obtain ⟨p, hp, rfl⟩ := List.mem_map.mp hx
    exact hxs _ (List.of_mem_zip (List.mem_filter.mp hp).1).2
  have hname := fits_hostCall henv "Symbol::new" (List.forall_mem_singleton.mpr (fits_quoted ev.name))
  have hevents : ((Rust.Expr.ident "env").method "events").Fits F := Rust.fits_method (.ident henv) _
  refine conforms_bind (conforms_use _) fun _ _ => conforms_pure (.expr (.methodCall hevents ?_))
  refine List.forall_mem_cons.mpr ⟨.tuple (List.forall_mem_cons.mpr ⟨hname, hparts _⟩), List.forall_mem_singleton.mpr ?_⟩
  split
  · exact fits_lit (by decide)
  · exact .tuple (hparts _)

end Soroban

end RustContracts
