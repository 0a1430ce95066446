import RustContracts.Emit.Contract
import RustContracts.Proofs.Abi.Signature
import RustContracts.Proofs.Emit.Steady

-- Errors of writing. What misplaced code would be refused with, and that no step refuses so but those of statements;
-- and that no step goes on without an end but where declarations refer to themselves.
namespace RustContracts

open Program Emit

-- What code is refused with where a loop, a statement or an expression is missing.
def Diagnostic.IsMisplaced (d : Diagnostic) : Prop :=
  d.kind = .unexpectedExpression ∧ ∃ expected ∈ ["loop", "statement", "expression"], ∃ found,
    d.message = "expected " ++ expected ++ ", found " ++ found

namespace Diagnostic

theorem not_misplaced_of_kind {d : Diagnostic} (h : d.kind ≠ .unexpectedExpression) : ¬d.IsMisplaced :=
  fun hd => h hd.1

@[grind .] theorem not_misplaced_unsupported (p : Text.Position) (what : String) : ¬(unsupported p what).IsMisplaced :=
  not_misplaced_of_kind (by simp [unsupported, covering, fault])

@[grind .] theorem not_misplaced_numSize (p : Text.Position) (message : String) : ¬(numSize p message).IsMisplaced :=
  not_misplaced_of_kind (by simp [numSize, fault])

@[grind .] theorem not_misplaced_badMapping (p : Text.Position) (message : String) : ¬(badMapping p message).IsMisplaced :=
  not_misplaced_of_kind (by simp [badMapping, fault])

@[grind .] theorem not_misplaced_invalidFunction (p : Text.Position) (message : String) :
    ¬(invalidFunction p message).IsMisplaced :=
  not_misplaced_of_kind (by simp [invalidFunction, fault])

theorem not_misplaced_missingConstructor (p : Text.Position) (contract : String) :
    ¬(missingConstructor p contract).IsMisplaced :=
  not_misplaced_of_kind (by simp [missingConstructor, fault])

theorem not_misplaced_modifierCount (p : Text.Position) (name : String) (count : Nat) :
    ¬(modifierCount p name count).IsMisplaced := by
  refine not_misplaced_of_kind ?_
  unfold modifierCount
  split <;> simp [covering, fault]

-- What else can be missing starts with another letter.
theorem not_misplaced_unexpected (expected : String) (h : expected.toList.head? ∉ [some 'l', some 's', some 'e'])
    (p : Text.Position) (found : String) : ¬(unexpected p expected found).IsMisplaced := by
  rintro ⟨-, other, hother, found', hmessage⟩
  have hlists : expected.toList ++ (", found ".toList ++ found.toList) =
      other.toList ++ (", found ".toList ++ found'.toList) := by
    have hlist := congrArg String.toList hmessage
    simpa only [unexpected, fault, String.toList_append, List.append_assoc, List.append_cancel_left_eq] using hlist
  have hstarts : ∀ other ∈ ["loop", "statement", "expression"],
      other.toList.head?.or (some ',') ∈ [some 'l', some 's', some 'e'] := by decide
  have hstart := hstarts other hother
  have hheads : expected.toList.head?.or (some ',') = other.toList.head?.or (some ',') := by
    simpa [List.head?_append] using congrArg List.head? hlists
  rw [← hheads] at hstart
  cases hexpected : expected.toList.head? with
  | none =>
      rw [hexpected] at hstart
      exact absurd hstart (by decide)
  | some c =>
      rw [hexpected] at hstart h
      exact h hstart

theorem not_misplaced_plural (p : Text.Position) (n : Nat) (word found : String) :
    ¬(unexpected p (plural n word) found).IsMisplaced := by
  refine not_misplaced_unexpected _ (fun hhead => ?_) p found
  have hplural : (plural n word).toList = Nat.toDigits 10 n ++ (' ' :: (word ++ if n = 1 then "" else "s").toList) := by
    simp [plural, String.toList_append]
  rw [hplural, List.head?_append, List.head?_cons] at hhead
  cases hdigits : (Nat.toDigits 10 n).head? with
  | none =>
      rw [hdigits] at hhead
      exact absurd hhead (by decide)
  | some c =>
      have hdigit := Nat.isDigit_of_mem_toDigits (by decide) (by decide) (List.mem_of_mem_head? hdigits)
      have hletters : ∀ c : Char, some c ∈ [some 'l', some 's', some 'e'] → c.isDigit = false := by simp
      rw [hdigits] at hhead
      rw [hletters c hhead] at hdigit
      cases hdigit

end Diagnostic

-- Why a step may stop: with an error that misplaced code is not refused with, or for want of an end, where declarations
-- refer to themselves or `Q` allows it.
def Stop.Admissible (p : Package) (Q : Prop) : Stop → Prop
  | .fault d => ¬d.IsMisplaced
  | .overflow => p.Circular ∨ Q

end RustContracts

namespace RustContracts.Emit

variable {E : Env} {Q : Prop} {α β : Type}

-- A step that stops for no other reason.
def Orderly (E : Env) (Q : Prop) (act : Emit α) : Prop := ∀ s stop, (outcome act E s).1 = .error stop → stop.Admissible E.package Q

theorem Orderly.imp {Q' : Prop} {act : Emit α} (h : Orderly E Q act) (himp : Q → E.package.Circular ∨ Q') :
    Orderly E Q' act := by
  intro s stop hstop
  have hadmissible := h s stop hstop
  cases stop with
  | fault d => exact hadmissible
  | overflow => exact hadmissible.elim .inl himp

@[grind ←] theorem orderly_pure (a : α) : Orderly E Q (pure a) := by
  rintro s stop ⟨⟩

theorem orderly_throw {stop : Stop} (h : stop.Admissible E.package Q) : Orderly E Q (throw stop : Emit α) := by
  rintro s _ ⟨⟩
  exact h

@[grind ←] theorem orderly_fault {d : Diagnostic} (h : ¬d.IsMisplaced) : Orderly E Q (throw (.fault d) : Emit α) :=
  orderly_throw h

@[grind .] theorem orderly_read : Orderly E Q read := by
  rintro s stop ⟨⟩

@[grind .] theorem orderly_get : Orderly E Q (get : Emit State) := by
  rintro s stop ⟨⟩

theorem orderly_modify (f : State → State) : Orderly E Q (modify f) := by
  rintro s stop ⟨⟩

@[grind ←] theorem orderly_bind {x : Emit α} {f : α → Emit β} (hx : Orderly E Q x) (hf : ∀ a, Orderly E Q (f a)) :
    Orderly E Q (x >>= f) := by
  intro s stop h
  have hfirst := hx s stop
  rw [outcome_bind] at h
  rcases ho : outcome x E s with ⟨r, s'⟩
  rw [ho] at h hfirst
  cases r with
  | error e =>
      cases h
      exact hfirst rfl
  | ok a => exact hf a s' stop h

theorem orderly_read_bind {f : Env → Emit α} (hf : Orderly E Q (f E)) : Orderly E Q (read >>= f) := hf

-- A step whose failure is caught, or passed on.
theorem orderly_tryCatch {x : Emit α} {f : Stop → Emit α} (hx : Orderly E Q x)
    (hf : ∀ stop, stop.Admissible E.package Q → Orderly E Q (f stop)) : Orderly E Q (tryCatch x f) := by
  intro s stop h
  rw [outcome_tryCatch] at h
  rcases ho : outcome x E s with ⟨r, s'⟩
  rw [ho] at h
  cases r with
  | error e => exact hf e (hx s e (by rw [ho])) s' stop h
  | ok a => cases h

-- A text has no end only where declarations refer to themselves.
theorem orderly_ended {text? : Option String} (h : text? = none → E.package.Circular) : Orderly E Q (Ink.ended text?) := by
  cases text? with
  | none => exact orderly_throw (.inl (h rfl))
  | some text => exact orderly_pure text

@[grind ←] theorem orderly_selectorAttr (f : Program.Signature) : Orderly E Q (Ink.ended (Ink.selectorAttr E.package f)) :=
  orderly_ended fun h => Abi.circular_of_signature (Option.map_eq_none_iff.mp (Option.map_eq_none_iff.mp h))

@[grind ←] theorem orderly_messageSelector (f : Program.Signature) :
    Orderly E Q (Ink.ended (Ink.messageSelector E.package E.contract f)) := by
  unfold Ink.messageSelector
  cases hown : Ink.selectorAttr E.package f with
  | none =>
      have hcircular := Abi.circular_of_signature (Option.map_eq_none_iff.mp (Option.map_eq_none_iff.mp hown))
      exact orderly_ended fun _ => hcircular
  | some own =>
      dsimp only [Option.bind_eq_bind, Option.bind_some]
      split <;> exact orderly_pure _

theorem orderly_mapM {f : α → Emit β} (hf : ∀ a, Orderly E Q (f a)) (xs : List α) : Orderly E Q (xs.mapM f) := by
  induction xs with
  | nil => exact orderly_pure []
  | cons x xs ih =>
      rw [List.mapM_cons]
      exact orderly_bind (hf x) fun _ => orderly_bind ih fun _ => orderly_pure _

@[grind ←] theorem orderly_use (path : String) : Orderly E Q (use path) := orderly_modify _

@[grind ←] theorem orderly_temp (stem : String) : Orderly E Q (temp stem) :=
  orderly_bind (orderly_modify _) fun _ => orderly_bind (orderly_bind orderly_get fun _ => orderly_pure _) fun _ => orderly_pure _

@[grind ←] theorem orderly_helperName (key : String) (helper : Helper) : Orderly E Q (helperName key helper) := by
  refine orderly_bind orderly_get fun s => ?_
  split
  · exact orderly_pure _
  · exact orderly_bind (orderly_modify _) fun _ => orderly_pure _

@[grind .] theorem orderly_frame : Orderly E Q frame := by grind [frame]

@[grind .] theorem orderly_target : Orderly E Q target := by grind [target]

@[grind ←] theorem orderly_local? (name : String) : Orderly E Q (local? name) := by grind [local?]

@[grind ←] theorem orderly_ref? (key : String) : Orderly E Q (ref? key) := by grind [ref?]

end RustContracts.Emit

namespace RustContracts

open Program Emit

variable {E : Env} {Q : Prop}

namespace Ink

@[grind ←] theorem orderly_intName (signed : Bool) (bits : Nat) : Orderly E Q (intName signed bits) := by
  unfold intName
  grind

@[grind ←] theorem orderly_useU256 (v : InkVersion) : Orderly E Q (useU256 v) := by
  unfold useU256
  grind

@[grind .] theorem orderly_useString : Orderly E Q useString := by grind [useString]

@[grind .] theorem orderly_useVec : Orderly E Q useVec := by grind [useVec]

@[grind ←] theorem orderly_toU256 (v : InkVersion) (x : Rust.Expr) : Orderly E Q (toU256 v x) := by
  grind [toU256]

@[grind ←] theorem orderly_type (v : InkVersion) (t : Ty) : Orderly E Q (type v t) := by
  induction t using type.induct (motive_2 := fun ts => Orderly E Q (types v ts)) <;>
    grind [type, types, addressType]

@[grind ←] theorem orderly_intLiteral (v : InkVersion) (value : Nat) (negative signed : Bool)
    (bits : Nat) : Orderly E Q (intLiteral v value negative signed bits) := by
  grind [intLiteral]

@[grind ←] theorem orderly_stringLiteral (text : String) : Orderly E Q (stringLiteral text) := by
  grind [stringLiteral]

@[grind ←] theorem orderly_zero (v : InkVersion) (t : Ty) : Orderly E Q (zero v t) := by
  unfold zero
  grind

@[grind ←] theorem orderly_intBound (v : InkVersion) (signed : Bool) (bits : Nat) (isMax : Bool) :
    Orderly E Q (intBound v signed bits isMax) := by
  grind [intBound]

@[grind ←] theorem orderly_unary (op : Solidity.UnaryOp) (x : Rust.Expr) (t : Ty) :
    Orderly E Q (unary op x t) := by
  unfold unary
  grind

@[grind ←] theorem orderly_cast (v : InkVersion) (x : Rust.Expr) (source result : Ty) :
    Orderly E Q (cast v x source result) := by
  unfold cast
  grind

@[grind ←] theorem orderly_arrayLength (v : InkVersion) (x : Rust.Expr) :
    Orderly E Q (arrayLength v x) := by
  grind [arrayLength]

@[grind ←] theorem orderly_newArray (v : InkVersion) (elem : Ty) (size : Rust.Expr) (t : Ty) :
    Orderly E Q (newArray v elem size t) := by
  grind [newArray]

@[grind ←] theorem orderly_arrayLiteral (length : Int) (xs : List Rust.Expr) :
    Orderly E Q (arrayLiteral length xs) := by
  grind [arrayLiteral]

@[grind ←] theorem orderly_envValue (v : InkVersion) (kind : EnvKind) : Orderly E Q (envValue v kind) := by
  unfold envValue
  grind

end Ink

namespace Soroban

@[grind ←] theorem orderly_named (name : String) : Orderly E Q (named name) := by grind [named]

@[grind ←] theorem orderly_type (t : Ty) : Orderly E Q (type t) := by
  induction t using type.induct (motive_2 := fun ts => Orderly E Q (types ts)) <;> grind [type, types]

@[grind ←] theorem orderly_intLiteral (value : Nat) (negative signed : Bool) (bits : Nat) :
    Orderly E Q (intLiteral value negative signed bits) := by
  grind [intLiteral]

@[grind ←] theorem orderly_stringLiteral (text : String) : Orderly E Q (stringLiteral text) := by
  grind [stringLiteral]

theorem orderly_zerosWith (structZero : DeclRef → Emit Rust.Expr) :
    (∀ t, (∀ r, t.Holds r → Orderly E Q (structZero r)) → Orderly E Q (zeroWith structZero t)) ∧
      ∀ ts, (∀ t ∈ ts, ∀ r, t.Holds r → Orderly E Q (structZero r)) → Orderly E Q (zerosWith structZero ts) := by
  apply zeroWith.mutual_induct
    (fun t => (∀ r, t.Holds r → Orderly E Q (structZero r)) → Orderly E Q (zeroWith structZero t))
    (fun ts => (∀ t ∈ ts, ∀ r, t.Holds r → Orderly E Q (structZero r)) → Orderly E Q (zerosWith structZero ts))
  all_goals grind [zeroWith, zerosWith, Ty.Holds]

-- A struct is followed too deep only along as many references.
theorem orderly_structZero (depth : Nat) (r : DeclRef) :
    Orderly E (Deep (StructRefers E.package) depth r) (structZero depth r) := by
  induction depth generalizing r with
  | zero => exact orderly_throw (.inr trivial)
  | succ depth ih =>
      refine orderly_read_bind (orderly_bind ((orderly_zerosWith _).2 _ fun t ht r' hr' => ?_) fun _ => orderly_pure _)
      exact (ih r').imp fun hdeep => .inr ⟨r', ⟨t, ht, hr'⟩, hdeep⟩

@[grind ←] theorem orderly_zero (t : Ty) : Orderly E Q (zero t) := by
  refine orderly_read_bind ((orderly_zerosWith _).1 t fun r _ => ?_)
  exact (orderly_structZero _ r).imp fun hdeep => .inl (circular_of_deep_structs hdeep)

@[grind ←] theorem orderly_intBound (signed : Bool) (bits : Nat) (isMax : Bool) :
    Orderly E Q (intBound signed bits isMax) := by
  unfold intBound
  grind

@[grind ←] theorem orderly_binary (op : Solidity.BinaryOp) (left right : Rust.Expr) (t u : Ty) :
    Orderly E Q (binary op left right t u) := by
  unfold binary wideBinary
  grind

@[grind ←] theorem orderly_unary (op : Solidity.UnaryOp) (x : Rust.Expr) (t : Ty) :
    Orderly E Q (unary op x t) := by
  unfold unary
  grind

@[grind ←] theorem orderly_cast (x : Rust.Expr) (source result : Ty) :
    Orderly E Q (cast x source result) := by
  unfold cast
  grind

@[grind ←] theorem orderly_arrayLength (x : Rust.Expr) : Orderly E Q (arrayLength x) := by
  grind [arrayLength]

@[grind ←] theorem orderly_newArray (elem : Ty) (size : Rust.Expr) (t : Ty) :
    Orderly E Q (newArray elem size t) := by
  grind [newArray]

@[grind ←] theorem orderly_arrayLiteral (xs : List Rust.Expr) : Orderly E Q (arrayLiteral xs) := by
  grind [arrayLiteral]

@[grind ←] theorem orderly_envValue (kind : EnvKind) : Orderly E Q (envValue kind) := by
  unfold envValue
  grind

@[grind ←] theorem orderly_readField (d : FieldDecl) (keys : List Rust.Expr) :
    Orderly E Q (readField d keys) := by
  refine orderly_bind (orderly_type _) fun _ => orderly_tryCatch ?_ fun stop hstop => ?_
  · exact orderly_bind (orderly_zero _) fun _ => orderly_pure _
  · cases stop with
    | fault d => exact orderly_pure _
    | overflow => exact orderly_throw hstop

@[grind ←] theorem orderly_call (callee : Routine) (args : List Rust.Expr) :
    Orderly E Q (call callee args) := by
  grind [call]

end Soroban

namespace Emit

open Solidity (BinaryOp UnaryOp)

@[grind ←] theorem orderly_typeText (t : Ty) : Orderly E Q (typeText t) := by grind [typeText]

@[grind ←] theorem orderly_isCopy (t : Ty) : Orderly E Q (isCopy t) := by grind [isCopy]

@[grind ←] theorem orderly_intLiteral (value : Nat) (negative signed : Bool) (bits : Nat) :
    Orderly E Q (intLiteral value negative signed bits) := by
  grind [intLiteral]

@[grind ←] theorem orderly_stringLiteral (text : String) : Orderly E Q (stringLiteral text) := by
  grind [stringLiteral]

@[grind ←] theorem orderly_zero (t : Ty) : Orderly E Q (zero t) := by grind [zero]

@[grind ←] theorem orderly_intBound (signed : Bool) (bits : Nat) (isMax : Bool) :
    Orderly E Q (intBound signed bits isMax) := by
  grind [intBound]

@[grind ←] theorem orderly_applyBinary (op : BinaryOp) (left right : Rust.Expr) (t u : Ty) :
    Orderly E Q (applyBinary op left right t u) := by
  grind [applyBinary]

@[grind ←] theorem orderly_applyUnary (op : UnaryOp) (x : Rust.Expr) (t : Ty) :
    Orderly E Q (applyUnary op x t) := by
  grind [applyUnary]

@[grind ←] theorem orderly_convert (x : Rust.Expr) (source result : Ty) :
    Orderly E Q (convert x source result) := by
  grind [convert]

@[grind .] theorem orderly_elementsArePlaces : Orderly E Q elementsArePlaces := by
  grind [elementsArePlaces]

@[grind ←] theorem orderly_arrayIndex (array key : Rust.Expr) (t : Ty) :
    Orderly E Q (arrayIndex array key t) := by
  grind [arrayIndex]

@[grind ←] theorem orderly_arrayLength (array : Rust.Expr) : Orderly E Q (arrayLength array) := by
  grind [arrayLength]

@[grind ←] theorem orderly_newArray (elem : Ty) (size : Rust.Expr) (t : Ty) :
    Orderly E Q (newArray elem size t) := by
  grind [newArray]

@[grind ←] theorem orderly_arrayLiteral (length : Int) (xs : List Rust.Expr) :
    Orderly E Q (arrayLiteral length xs) := by
  grind [arrayLiteral]

@[grind ←] theorem orderly_envValue (kind : EnvKind) : Orderly E Q (envValue kind) := by
  grind [envValue]

@[grind ←] theorem orderly_fieldPlace? (d : FieldDecl) : Orderly E Q (fieldPlace? d) := by
  grind [fieldPlace?]

@[grind ←] theorem orderly_readField (d : FieldDecl) (keys : List Rust.Expr) :
    Orderly E Q (readField d keys) := by
  grind [readField]

@[grind ←] theorem orderly_writeField (d : FieldDecl) (keys : List Rust.Expr) (value : Rust.Expr) :
    Orderly E Q (writeField d keys value) := by
  grind [writeField]

@[grind ←] theorem orderly_arraySet (array key : Rust.Expr) (t : Ty) (value : Rust.Expr) :
    Orderly E Q (arraySet array key t value) := by
  grind [arraySet]

@[grind ←] theorem orderly_externalCall (method : Signature) (ref : Rust.Expr)
    (args : List Rust.Expr) : Orderly E Q (externalCall method ref args) := by
  grind [externalCall]

@[grind ←] theorem orderly_invoke (callee : Routine) (args : List Rust.Expr) :
    Orderly E Q (invoke callee args) := by
  grind [invoke]

-- Calls.

@[grind ←] theorem orderly_functionRoutine (f : Function) (impl : Option Implementation)
    (name : String) (entry : Option Signature) : Orderly E Q (functionRoutine f impl name entry) := by
  have hparams (params : List Param) : Orderly E Q (rustParams params) := by
    exact orderly_mapM (fun _ => orderly_bind (orderly_typeText _) fun _ => orderly_pure _) _
  have hresult (returns : List Param) : Orderly E Q (resultText returns) := by
    unfold resultText
    refine orderly_bind (orderly_mapM (fun _ => orderly_typeText _) _) fun _ => ?_
    grind
  unfold functionRoutine
  grind

@[grind ←] theorem orderly_callRoutine (f : Function) (impl : Implementation) :
    Orderly E Q (callRoutine f impl) := by
  grind [callRoutine, dispatchRoutine, implementationName]

@[grind ←] theorem orderly_libraryRoutine (f : Function) (name : String) :
    Orderly E Q (libraryRoutine f name) := by
  grind [libraryRoutine]

@[grind ←] theorem orderly_callee (start : Text.Position) (name : String) (arity : Nat)
    (isSuper : Bool) (inClass base : String) :
    Orderly E Q (callee start name arity isSuper inClass base) := by
  unfold callee
  grind

@[grind ←] theorem orderly_declaredFunction (owner : String) (f : Signature) :
    Orderly E Q (declaredFunction owner f) := by
  grind [declaredFunction]

@[grind ←] theorem orderly_libraryName (library : String) (f : Function) :
    Orderly E Q (libraryName library f) := by
  grind [libraryName]

-- Expressions.

@[grind ←] theorem orderly_isPlace (e : Expr) : Orderly E Q (isPlace e) := by
  unfold isPlace
  grind

@[grind .] theorem not_misplaced_missingKeys (start : Text.Position) (d : FieldDecl) :
    ¬(missingKeys start d).IsMisplaced :=
  Diagnostic.not_misplaced_badMapping _ _

@[grind ←] theorem orderly_checkKeys (e : Expr) : Orderly E Q (checkKeys e) := by
  unfold checkKeys
  grind

@[grind ←] theorem orderly_fieldAccess (d : FieldDecl) : Orderly E Q (fieldAccess d) := by
  unfold fieldAccess
  grind

@[grind ←] theorem orderly_member (a : Access) (start : Text.Position) (name : String) :
    Orderly E Q (a.member start name) := by
  unfold Access.member
  grind

@[grind ←] theorem orderly_index (a : Access) (start : Text.Position) (on keyType : Ty)
    {key : Ty → Emit Rust.Expr} (hk : ∀ t, Orderly E Q (key t)) :
    Orderly E Q (a.index start on keyType key) := by
  unfold Access.index
  grind

@[grind ←] theorem orderly_valueOf (e : Expr) {written : Emit Access} (h : Orderly E Q written) :
    Orderly E Q (valueOf e written) := by
  unfold valueOf
  grind

@[grind ←] theorem orderly_operandOf (e : Expr) {written : Emit Access} (h : Orderly E Q written) :
    Orderly E Q (operandOf e written) := by
  grind [operandOf]

@[grind ←] theorem orderly_operandAs (t : Option Ty) (e : Expr) {written : Option Ty → Emit Access}
    (h : ∀ t, Orderly E Q (written t)) : Orderly E Q (operandAs t e written) := by
  unfold operandAs
  grind

@[grind ←] theorem orderly_numberLiteral (expected : Option Ty) (start : Text.Position)
    (value : Nat) (negative : Bool) : Orderly E Q (numberLiteral expected start value negative) := by
  unfold numberLiteral
  grind

-- An expression whose constants are written in order.
def OrderlyIn (E : Env) (Q : Prop) (inlined : ConstantDecl → Emit Rust.Expr) (e : Expr) : Prop :=
  e.Each fun x => ∀ start d, x = .const start d → Orderly E Q (inlined d)

theorem OrderlyIn.parts {inlined : ConstantDecl → Emit Rust.Expr} {e : Expr} (h : OrderlyIn E Q inlined e) :
    (∀ start d, e = .const start d → Orderly E Q (inlined d)) ∧ ∀ c ∈ e.children, OrderlyIn E Q inlined c :=
  Expr.each_iff.mp h

-- By induction along the expression; every case puts orderly steps together.
theorem orderly_access {inlined : ConstantDecl → Emit Rust.Expr} :
    (∀ expected e, OrderlyIn E Q inlined e → Orderly E Q (access inlined expected e)) ∧
      ∀ types es, (∀ e ∈ es, OrderlyIn E Q inlined e) → Orderly E Q (accessList inlined types es) := by
  have hvariable := Diagnostic.not_misplaced_unexpected "variable" (by decide)
  have harray := Diagnostic.not_misplaced_unexpected "array" (by decide)
  apply access.mutual_induct (fun expected e => OrderlyIn E Q inlined e → Orderly E Q (access inlined expected e))
    (fun types es => (∀ e ∈ es, OrderlyIn E Q inlined e) → Orderly E Q (accessList inlined types es))
  all_goals intros
  all_goals rename_i hconstants
  all_goals first
    | have hparts := OrderlyIn.parts hconstants
      simp only [Expr.children, List.forall_mem_cons] at hparts
    | simp only [List.forall_mem_cons] at hconstants
    | skip
  all_goals simp only [access, accessList]
  all_goals grind

-- A constant is followed too deep only along as many references.
theorem orderly_constantValue (depth : Nat) (d : ConstantDecl) :
    Orderly E (Deep (ConstantRefers E.package) depth d.ref) (constantValue depth d) := by
  have hconstant := Diagnostic.not_misplaced_unexpected "constant value" (by decide)
  induction depth generalizing d with
  | zero => exact orderly_throw (.inr trivial)
  | succ depth ih =>
      refine orderly_read_bind ?_
      split
      · next v hv =>
          obtain ⟨c, hc, hv⟩ := Option.bind_eq_some_iff.mp hv
          refine orderly_valueOf v (orderly_access.1 _ v ?_)
          rintro _ hx start used rfl
          exact (ih used).imp fun hdeep => .inr ⟨used.ref, ⟨c, v, start, used, hc, hv, hx, rfl⟩, hdeep⟩
      · exact orderly_fault (hconstant _ _)

@[grind ←] theorem orderly_accessOf (expected : Option Ty) (e : Expr) :
    Orderly E Q (accessOf expected e) := by
  refine orderly_read_bind (orderly_access.1 expected e ?_)
  rintro _ - start d rfl
  exact (orderly_constantValue _ d).imp fun hdeep => .inl (circular_of_deep_constants hdeep)

@[grind ←] theorem orderly_exprAs (t : Ty) (e : Expr) : Orderly E Q (exprAs t e) := by grind [exprAs]

@[grind ←] theorem orderly_expr (e : Expr) : Orderly E Q (expr e) := by grind [expr]

@[grind ←] theorem orderly_exprsAs (types : List Ty) (es : List Expr) : Orderly E Q (exprsAs types es) := by
  induction es generalizing types with
  | nil => exact orderly_pure []
  | cons e es ih => exact orderly_bind (orderly_exprAs _ e) fun _ => orderly_bind (ih _) fun _ => orderly_pure _

@[grind ←] theorem orderly_fault_bind {α β : Type} {d : Diagnostic} (h : ¬d.IsMisplaced) (f : α → Emit β) :
    Orderly E Q ((throw (.fault d) : Emit α) >>= f) := by
  rintro s _ ⟨⟩
  exact h

-- Changes of places, and the other steps that write statements without a scope of their own.

@[grind ←] theorem orderly_changeAt (change : Change) (x : Rust.Expr) : Orderly E Q (change.at x) := by
  cases change <;> grind [Change.at, arrayPush, arrayPop]

@[grind ←] theorem orderly_bindUnlessSimple (stem : String) (x : Rust.Expr) :
    Orderly E Q (bindUnlessSimple stem x) := by
  grind [bindUnlessSimple]

@[grind ←] theorem orderly_bindAll (stem : String) (xs : List Rust.Expr) : Orderly E Q (bindAll stem xs) := by
  induction xs with
  | nil => exact orderly_pure _
  | cons x xs ih =>
      exact orderly_bind (orderly_bindUnlessSimple stem x) fun _ => orderly_bind ih fun _ => orderly_pure _

@[grind ←] theorem orderly_changePath (change : Change) (x : Rust.Expr) (path : List Step) :
    Orderly E Q (changePath change x path) := by
  induction path generalizing x with
  | nil => exact orderly_bind (orderly_changeAt change x) fun _ => orderly_pure _
  | cons step rest ih =>
      cases step with
      | member p name on => exact ih _
      | index start key on =>
          rw [changePath]
          split
          · exact orderly_fault_bind (Diagnostic.not_misplaced_badMapping _ _) _
          · refine orderly_bind (orderly_exprAs _ key) fun k => orderly_bind orderly_elementsArePlaces fun _ => ?_
            split
            · exact orderly_bind (orderly_arrayIndex _ _ _) fun _ => ih _
            · split
              · exact orderly_bind (orderly_arraySet _ _ _ _) fun _ => orderly_pure _
              · refine orderly_bind (orderly_bindUnlessSimple _ k) fun b => ?_
                refine orderly_bind (orderly_arrayIndex _ _ _) fun _ => orderly_bind (orderly_temp _) fun _ => ?_
                exact orderly_bind (ih _) fun _ => orderly_bind (orderly_arraySet _ _ _ _) fun _ => orderly_pure _

@[grind ←] theorem orderly_mappingKeys (d : FieldDecl) (types : List Ty) (path : List Step) :
    Orderly E Q (mappingKeys d types path) := by
  fun_induction mappingKeys d types path with
  | case1 => exact orderly_pure _
  | case2 => exact orderly_pure _
  | case3 t types p key on path ih =>
      exact orderly_bind (orderly_exprAs t key) fun _ => orderly_bind ih fun _ => orderly_pure _
  | case4 => exact orderly_fault (Diagnostic.not_misplaced_badMapping _ _)

@[grind ←] theorem orderly_changeField (start : Text.Position) (d : FieldDecl) (path : List Step)
    (change : Change) : Orderly E Q (changeField start d path change) := by
  unfold changeField
  dsimp only
  split
  · exact orderly_fault_bind (not_misplaced_missingKeys _ _) _
  · refine orderly_bind (orderly_mappingKeys d _ path) fun keys => orderly_bind (orderly_fieldPlace? d) fun _ => ?_
    split
    · exact orderly_changePath change _ path
    · split
      · exact orderly_bind (orderly_writeField d _ _) fun _ => orderly_pure _
      · refine orderly_bind (orderly_bindAll _ keys) fun b => orderly_bind (orderly_readField d _) fun _ => ?_
        refine orderly_bind (orderly_temp _) fun _ => orderly_bind (orderly_changePath _ _ _) fun _ => ?_
        exact orderly_bind (orderly_writeField d _ _) fun _ => orderly_pure _

@[grind ←] theorem orderly_changeTarget (target : Expr) (change : Change) :
    Orderly E Q (changeTarget target change) := by
  have hvariable := Diagnostic.not_misplaced_unexpected "variable" (by decide)
  have hassignable := Diagnostic.not_misplaced_unexpected "assignable expression" (by decide)
  unfold changeTarget
  grind

theorem orderly_tupleTemps (es : List Expr) : Orderly E Q (tupleTemps es) := by
  induction es with
  | nil => exact orderly_pure _
  | cons e es ih => exact orderly_bind (orderly_temp _) fun _ => orderly_bind ih fun _ => orderly_pure _

theorem orderly_assign :
    (∀ value target, Orderly E Q (assign value target)) ∧ ∀ names targets, Orderly E Q (assignAll names targets) := by
  apply assign.mutual_induct (fun value target => Orderly E Q (assign value target))
    (fun names targets => Orderly E Q (assignAll names targets))
  · intro value p elements ih
    rw [assign]
    exact orderly_bind (orderly_tupleTemps elements) fun names => orderly_bind (ih names) fun _ => orderly_pure _
  · intro value target htuple
    rw [assign]
    · exact orderly_changeTarget target _
    · exact htuple
  · intro name names e rest ihe ihrest
    rw [assignAll]
    exact orderly_bind ihe fun _ => orderly_bind ihrest fun _ => orderly_pure _
  · intro names targets hnil
    rw [assignAll]
    · exact orderly_pure _
    · exact hnil

theorem orderly_exprStmt (e : Expr) : Orderly E Q (exprStmt e) := by
  unfold exprStmt
  grind

theorem orderly_emitEvent (ev : EventDecl) (xs : List Rust.Expr) : Orderly E Q (emitEvent ev xs) := by
  grind [emitEvent, Soroban.emitEvent]

theorem orderly_errorValue (entry : ErrorEntry) (xs : List Rust.Expr) : Orderly E Q (errorValue entry xs) := by
  refine orderly_bind orderly_target fun t => ?_
  cases t with
  | ink v =>
      unfold Ink.revert
      grind
  | soroban => exact orderly_bind orderly_read fun _ => orderly_pure _

theorem orderly_abort (entry : ErrorEntry) (args : List Expr) : Orderly E Q (abort entry args) :=
  orderly_bind (orderly_exprsAs _ args) fun xs => orderly_bind (orderly_errorValue entry xs) fun _ => orderly_pure _

theorem orderly_defaultResults (results : List Param) : Orderly E Q (defaultResults results) := by
  induction results with
  | nil => exact orderly_pure _
  | cons r results ih =>
      rw [defaultResults]
      grind

theorem orderly_resultValue (value : Option Expr) : Orderly E Q (resultValue value) := by
  have hdefault (results : List Param) : Orderly E Q (defaultResults results) := orderly_defaultResults results
  have hnone := Diagnostic.not_misplaced_unexpected "no return value" (by decide)
  have hcount := Diagnostic.not_misplaced_plural
  unfold resultValue defaultResult
  grind

theorem orderly_defaultResult : Orderly E Q defaultResult := by
  refine orderly_bind orderly_frame fun fr => orderly_bind (orderly_defaultResults _) fun xs => ?_
  split
  · exact orderly_pure _
  · exact orderly_pure _
  · exact orderly_pure _

-- Declarations of variables.

@[grind ←] theorem orderly_declare (name ident : String) : Orderly E Q (declare name ident) := orderly_modify _

@[grind ←] theorem orderly_isMutated (name : String) : Orderly E Q (isMutated name) := by grind [isMutated]

theorem orderly_declareVars (vars : List Param) (value : Expr) : Orderly E Q (declareVars vars value) := by
  unfold declareVars
  split
  · grind
  · refine orderly_bind (orderly_exprAs _ value) fun x => orderly_bind (orderly_mapM (fun v => ?_) _) fun _ => orderly_pure _
    exact orderly_bind (orderly_declare _ _) fun _ => orderly_bind (orderly_isMutated _) fun _ => orderly_pure _

theorem orderly_declareRef (key interface : String) : Orderly E Q (declareRef key interface) := by
  refine orderly_bind orderly_frame fun fr => orderly_bind (orderly_modify _) fun _ => ?_
  exact orderly_bind (orderly_modify _) fun _ => orderly_pure _

theorem orderly_declareRefs (calls : List (String × Signature × Expr)) : Orderly E Q (declareRefs calls) := by
  induction calls with
  | nil => exact orderly_pure _
  | cons call rest ih =>
      have hmore (here : List Rust.Stmt) : Orderly E Q (declareRefs rest >>= fun more => pure (here ++ more)) :=
        orderly_bind ih fun _ => orderly_pure _
      have href (interface : String) (account : Rust.Expr) : Orderly E Q (externalRef interface account) := by grind [externalRef]
      rw [declareRefs]
      refine orderly_bind (orderly_exprAs _ _) fun account => orderly_bind (orderly_ref? _) fun known => ?_
      cases known with
      | some name => exact hmore []
      | none =>
          refine orderly_bind (href _ _) fun ref => orderly_bind (orderly_modify _) fun _ => ?_
          exact orderly_bind (orderly_declareRef _ _) fun _ => hmore _

theorem orderly_declareParams (params : List Param) (rparams : List Rust.Param) : Orderly E Q (declareParams params rparams) := by
  fun_induction declareParams params rparams with
  | case1 p params r rest hunnamed ih => exact orderly_bind ih fun _ => orderly_pure _
  | case2 p params r rest hnamed ih =>
      refine orderly_bind (orderly_isMutated _) fun _ => orderly_bind (orderly_declare _ _) fun _ => ?_
      exact orderly_bind ih fun _ => orderly_pure _
  | case3 => exact orderly_pure _

theorem orderly_declareResults (results : List Param) : Orderly E Q (declareResults results) := by
  induction results with
  | nil => exact orderly_pure _
  | cons r rest ih =>
      rw [declareResults]
      grind

-- Functions without their code.

theorem orderly_routineShell (r : Routine) : Orderly E Q (routineShell r) := by
  refine orderly_bind orderly_target fun t => ?_
  cases t with
  | ink v =>
      exact orderly_read_bind (orderly_bind (orderly_mapM (fun f => orderly_messageSelector f) _) fun _ => orderly_pure _)
  | soroban => grind [Soroban.routine]

theorem orderly_preamble (r : Routine) : Orderly E Q (preamble r) := by
  grind [preamble]

theorem orderly_rustParams (params : List Param) : Orderly E Q (rustParams params) :=
  orderly_mapM (fun _ => orderly_bind (orderly_typeText _) fun _ => orderly_pure _) _

theorem orderly_initRoutine (c : Contract) (caller : Bool) : Orderly E Q (initRoutine c caller) :=
  orderly_bind (orderly_rustParams _) fun _ => orderly_pure _

theorem orderly_constructors (init : Option Routine) : Orderly E Q (constructors init) := by
  refine orderly_bind orderly_target fun t => ?_
  cases t with
  | ink v =>
      refine orderly_bind orderly_read fun E => ?_
      cases init <;> exact orderly_pure _
  | soroban =>
      cases init with
      | none => exact orderly_pure _
      | some r => grind [Soroban.constructors]

theorem orderly_nextHelper? : Orderly E Q nextHelper? := by
  refine orderly_bind orderly_get fun s => ?_
  split
  · exact orderly_pure _
  · exact orderly_bind (orderly_modify _) fun _ => orderly_pure _

-- Arguments for base constructors.

theorem orderly_forM {α : Type} {f : α → Emit PUnit} (hf : ∀ a, Orderly E Q (f a)) (xs : List α) : Orderly E Q (xs.forM f) := by
  induction xs with
  | nil => exact orderly_pure _
  | cons x xs ih => exact orderly_bind (hf x) fun _ => ih

theorem orderly_inScope {α : Type} {act : Emit α} (hact : Orderly E Q act) : Orderly E Q (inScope act) :=
  orderly_bind (orderly_modify _) fun _ => orderly_bind hact fun _ => orderly_bind (orderly_modify _) fun _ => orderly_pure _

theorem orderly_bindArgs (base : String) (i : Nat) (params : List Param) (args : List Expr) :
    Orderly E Q (bindArgs base i params args) := by
  fun_induction bindArgs base i params args with
  | case1 i p params arg args ih =>
      exact orderly_bind (orderly_exprAs _ arg) fun _ => orderly_bind ih fun _ => orderly_pure _
  | case2 => exact orderly_pure _

theorem orderly_declareGiver (bound : List BoundArg) (giver : String) : Orderly E Q (declareGiver bound giver) := by
  refine orderly_bind orderly_read fun E => ?_
  dsimp only
  split
  · refine orderly_forM (fun p => ?_) _
    split
    · exact orderly_declare _ _
    · exact orderly_pure _
  · exact orderly_pure _

theorem orderly_bindBaseArgs (calls : List BaseCall) (bound : List BoundArg) (classes : List Contract) :
    Orderly E Q (bindBaseArgs calls bound classes) := by
  induction classes generalizing bound with
  | nil => exact orderly_pure _
  | cons c rest ih =>
      rw [bindBaseArgs]
      dsimp only
      split
      · split
        · exact orderly_fault_bind (Diagnostic.not_misplaced_missingConstructor _ _) _
        · exact ih bound
      · exact ih bound
      · split
        · exact ih bound
        · split
          · exact orderly_bind orderly_read fun E => orderly_fault (Diagnostic.not_misplaced_of_kind nofun)
          · split
            · exact orderly_fault_bind (Diagnostic.not_misplaced_plural _ _ _ _) _
            · refine orderly_bind (orderly_inScope ?_) fun own => orderly_bind (ih _) fun _ => orderly_pure _
              exact orderly_bind (orderly_declareGiver _ _) fun _ => orderly_bindArgs _ _ _ _

theorem orderly_initCalls (main : Contract) (bound : List BoundArg) (caller : Bool) (classes : List Contract) :
    Orderly E Q (initCalls main bound caller classes) := by
  induction classes with
  | nil => exact orderly_pure _
  | cons c rest ih =>
      refine orderly_bind (orderly_initRoutine c caller) fun r => orderly_bind (orderly_invoke r _) fun _ => ?_
      exact orderly_bind ih fun _ => orderly_pure _

-- The other parts of a file.

theorem orderly_enumItem (e : EnumDecl) : Orderly E Q (enumItem e) := by grind [enumItem, Soroban.enumItem]

theorem orderly_structItem (d : StructDecl) : Orderly E Q (structItem d) := by
  refine orderly_bind orderly_target fun t => ?_
  cases t with
  | ink v => exact orderly_bind (orderly_mapM (fun _ => orderly_bind (Ink.orderly_type v _) fun _ => orderly_pure _) _) fun _ => orderly_pure _
  | soroban =>
      refine orderly_bind (orderly_use _) fun _ => ?_
      exact orderly_bind (orderly_mapM (fun _ => orderly_bind (Soroban.orderly_type _) fun _ => orderly_pure _) _) fun _ => orderly_pure _

theorem orderly_storageItems : Orderly E Q storageItems := by
  have hink (v : InkVersion) (ts : List Ty) : Orderly E Q (Ink.types v ts) := by
    induction ts <;> grind [Ink.types]
  have hsoroban (ts : List Ty) : Orderly E Q (Soroban.types ts) := by
    induction ts <;> grind [Soroban.types]
  refine orderly_bind orderly_target fun t => ?_
  cases t with
  | ink v =>
      refine orderly_bind orderly_read fun E => orderly_bind (orderly_mapM (fun f => ?_) _) fun _ => orderly_pure _
      unfold Ink.fieldType
      grind
  | soroban =>
      refine orderly_bind orderly_read fun E => ?_
      dsimp only
      split
      · exact orderly_pure _
      · refine orderly_bind (orderly_use _) fun _ => orderly_bind (orderly_mapM (fun f => ?_) _) fun _ => orderly_pure _
        grind [Soroban.keyVariant]

theorem orderly_eventItems (events : List EventDecl) : Orderly E Q (eventItems events) := by
  refine orderly_bind orderly_target fun t => ?_
  cases t with
  | ink v =>
      refine orderly_mapM (fun ev => orderly_bind (orderly_mapM (fun f => ?_) _) fun _ => orderly_pure _) _
      exact orderly_bind (Ink.orderly_type v _) fun _ => orderly_pure _
  | soroban => exact orderly_pure _

theorem orderly_errorItems (entries : List ErrorEntry) : Orderly E Q (errorItems entries) := by
  have htypes (v : InkVersion) (ts : List Ty) : Orderly E Q (Ink.types v ts) := by
    induction ts <;> grind [Ink.types]
  refine orderly_bind orderly_target fun t => ?_
  cases t with
  | ink v =>
      refine orderly_bind Ink.orderly_useString fun _ => orderly_bind (orderly_mapM (fun decl => ?_) _) fun _ => orderly_pure _
      exact orderly_bind (htypes v _) fun _ => orderly_pure _
  | soroban => exact orderly_bind (orderly_use _) fun _ => orderly_pure _

theorem orderly_interfaceItems (c : Contract) : Orderly E Q (interfaceItems c) := by
  refine orderly_bind orderly_target fun t => ?_
  cases t with
  | ink v =>
      refine orderly_bind (orderly_mapM (fun f => ?_) _) fun _ => orderly_pure _
      refine orderly_bind (orderly_mapM (fun x => ?_) _) fun _ => ?_
      · exact orderly_bind (Ink.orderly_type v _) fun _ => orderly_pure _
      · refine orderly_bind (Ink.orderly_type v _) fun _ => orderly_read_bind ?_
        exact orderly_bind (orderly_selectorAttr _) fun _ => orderly_pure _
  | soroban =>
      refine orderly_bind (orderly_use _) fun _ => orderly_bind (orderly_use _) fun _ => ?_
      refine orderly_bind (orderly_mapM (fun f => ?_) _) fun _ => orderly_pure _
      refine orderly_bind (orderly_mapM (fun x => ?_) _) fun _ => ?_
      · exact orderly_bind (Soroban.orderly_type _) fun _ => orderly_pure _
      · exact orderly_bind (Soroban.orderly_type _) fun _ => orderly_pure _

theorem orderly_calledInterfaces : Orderly E Q calledInterfaces := by
  refine orderly_bind orderly_get fun s => orderly_bind orderly_read fun E => ?_
  exact orderly_bind (orderly_mapM orderly_interfaceItems _) fun _ => orderly_pure _

theorem orderly_assemble (m : Module) : Orderly E Q (assemble m) := by
  have himports : Orderly E Q importPaths := orderly_bind orderly_get fun _ => orderly_pure _
  refine orderly_bind orderly_target fun t => ?_
  cases t with
  | ink v => exact orderly_bind orderly_read fun _ => orderly_bind himports fun _ => orderly_pure _
  | soroban =>
      refine orderly_bind (orderly_use _) fun _ => orderly_bind (orderly_use _) fun _ => ?_
      exact orderly_bind orderly_read fun _ => orderly_bind himports fun _ => orderly_pure _

end Emit

end RustContracts
