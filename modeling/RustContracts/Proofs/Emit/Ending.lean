import RustContracts.Proofs.Emit.ConformsFile
import RustContracts.Proofs.Rust.Context

-- Which expressions of the source are written with a cast at their end, and which with a struct literal in the open.
namespace RustContracts.Emit

open Program
open Solidity (BinaryOp UnaryOp)

-- Where casts stand at the end.

-- An operator that is written between its operands, not as the name of a method.
def IsInfix (target : Target) (op : BinaryOp) (t : Ty) : Prop :=
  op ≠ .pow ∧ (target = .soroban → Soroban.isWideType t = true → op.isLogical = true)

-- What a conversion makes of the end of a text.
inductive TextEnding where
  -- nothing is written
  | same
  -- `as` and a type
  | cast
  -- the closing parenthesis of a call
  | call
deriving DecidableEq

def conversionEnding (source result : Ty) : TextEnding :=
  match result, source with
  | .int _ bits, .int _ bits' => if bits ≤ 128 then .cast else if bits' ≤ 128 then .call else .same
  | .int _ bits, _ => if bits ≤ 128 then .cast else .call
  | .address _, _ => .same
  | _, _ => .call

-- The same for what is asked of an operand.
def operandEnding (t : Option Ty) (e : Expr) : TextEnding :=
  match writtenType t e, t with
  | .int s n, some (.int s' n') => if s = s' && n = n' then .same else conversionEnding (.int s n) (.int s' n')
  | _, _ => .same

-- The type as which the right operand is written.
def rightOperandType (expected : Option Ty) (op : BinaryOp) (left right : Ty) : Ty :=
  if op = .and ∨ op = .or then .bool
  else if op.keepsLeft then (if right.isLiteral then .int false 32 else right)
  else operandType expected op left right

mutual

-- An expression whose text ends in a cast, where a type is asked for and anything looser than `least` is in parentheses.
inductive Trails (p : Package) (target : Target) : Nat → Option Ty → Expr → Prop
  | binary {least : Nat} {expected : Option Ty} {start : Text.Position} {op : BinaryOp} {left right : Expr} {t : Ty}
      (hop : IsInfix target op (operandType expected op left.type right.type)) (hleast : least ≤ Rust.operatorTightness op.text)
      (hright : TrailsAs p target (Rust.operatorTightness op.text + 1)
        (some (rightOperandType expected op left.type right.type)) right) :
      Trails p target least expected (.binary start op left right t)
  | kept {least : Nat} {expected : Option Ty} {start : Text.Position} {result : Ty} {value : Expr}
      (hplan : castPlan value.type result = .keep) (hvalue : Trails p target least expected value) :
      Trails p target least expected (.cast start result value)
  | asked {least : Nat} {expected : Option Ty} {start : Text.Position} {result t : Ty} {value : Expr}
      (hplan : castPlan value.type result = .asType t) (hvalue : TrailsAs p target least (some t) value) :
      Trails p target least expected (.cast start result value)
  | unchanged {least : Nat} {expected : Option Ty} {start : Text.Position} {result t : Ty} {value : Expr}
      (hplan : castPlan value.type result = .through t) (hsame : t.same result = true ∨ conversionEnding t result = .same)
      (hvalue : TrailsAs p target least (some t) value) : Trails p target least expected (.cast start result value)
  | converted {least : Nat} {expected : Option Ty} {start : Text.Position} {result t : Ty} {value : Expr}
      (hplan : castPlan value.type result = .through t) (hcast : conversionEnding t result = .cast)
      (hleast : least ≤ Rust.Tightness.cast) : Trails p target least expected (.cast start result value)
  | single {least : Nat} {expected : Option Ty} {start : Text.Position} {t : Option Ty} {e : Expr}
      (he : TrailsAs p target least t e) : Trails p target least expected (.tuple start [e])
  | const {least : Nat} {expected : Option Ty} {start : Text.Position} {d : ConstantDecl} {c : Constant} {v : Expr}
      (hc : p.constant? d.ref = some c) (hv : c.value = some v) (h : Trails p target least (some d.type) v) :
      Trails p target least expected (.const start d)

-- The same for an operand, which may be converted.
inductive TrailsAs (p : Package) (target : Target) : Nat → Option Ty → Expr → Prop
  | same {least : Nat} {t : Option Ty} {e : Expr} (hsame : operandEnding t e = .same) (he : Trails p target least t e) :
      TrailsAs p target least t e
  | cast {least : Nat} {t : Option Ty} {e : Expr} (hcast : operandEnding t e = .cast)
      (hleast : least ≤ Rust.Tightness.cast) : TrailsAs p target least t e

end

-- Where structs stand in the open.

-- An expression that builds a struct outside of the arguments of a call, of keys and of the parts of a choice.
inductive Shows (p : Package) (target : Target) : Expr → Prop
  | structLit {start : Text.Position} {r : DeclRef} {values : List Expr} : Shows p target (.structLit start r values)
  | zero {start : Text.Position} {r : DeclRef} : target = .soroban → Shows p target (.zero start (.struct r))
  | member {start : Text.Position} {x : Expr} {name : String} {t : Ty} :
      Shows p target x → Shows p target (.member start x name t)
  | index {start : Text.Position} {x key : Expr} {t : Ty} : Shows p target x → Shows p target (.index start x key t)
  | left {start : Text.Position} {op : BinaryOp} {x y : Expr} {t : Ty} :
      Shows p target x → Shows p target (.binary start op x y t)
  | right {start : Text.Position} {op : BinaryOp} {x y : Expr} {t : Ty} :
      op ≠ .pow → Shows p target y → Shows p target (.binary start op x y t)
  | unary {start : Text.Position} {op : UnaryOp} {x : Expr} {t : Ty} :
      Shows p target x → Shows p target (.unary start op x t)
  | cast {start : Text.Position} {result : Ty} {x : Expr} : Shows p target x → Shows p target (.cast start result x)
  | single {start : Text.Position} {x : Expr} : Shows p target x → Shows p target (.tuple start [x])
  | const {start : Text.Position} {d : ConstantDecl} {c : Constant} {v : Expr} :
      p.constant? d.ref = some c → c.value = some v → Shows p target v → Shows p target (.const start d)

-- Text that neither ends in a cast nor shows a struct.

def IsClosed (x : Rust.Expr) : Prop := (∀ least, ¬ x.EndsInCast least) ∧ ¬ x.ShowsStruct 0

variable {E : Env} {s s' : State} {x y : Rust.Expr} {xs : List Rust.Expr}

section IsClosed

theorem closed_ident (name : String) : IsClosed (.ident name) := ⟨fun _ => id, id⟩

@[grind .] theorem closed_lit (text : String) : IsClosed (.lit text) := ⟨fun _ => id, id⟩

@[grind .] theorem closed_callPath (path : String) (xs : List Rust.Expr) : IsClosed (.callPath path xs) :=
  ⟨fun _ => id, fun h => h.2⟩

@[grind .] theorem closed_bangCall (name : String) (xs : List Rust.Expr) : IsClosed (.bangCall name xs) := ⟨fun _ => id, id⟩

@[grind .] theorem closed_array (xs : List Rust.Expr) : IsClosed (.array xs) := ⟨fun _ => id, id⟩

@[grind .] theorem closed_tuple (xs : List Rust.Expr) : IsClosed (.tuple xs) := ⟨fun _ => id, id⟩

@[grind .] theorem closed_block (b : Rust.Block) : IsClosed (.block b) := ⟨fun _ => id, id⟩

@[grind ←] theorem IsClosed.methodCall (hx : IsClosed x) (method : String) (xs : List Rust.Expr) :
    IsClosed (.methodCall x method xs) := ⟨fun _ => id, fun h => hx.2 (h.2.mono (Nat.zero_le _))⟩

@[grind ←] theorem IsClosed.method (hx : IsClosed x) (method : String) : IsClosed (x.method method) := hx.methodCall method []

@[grind ←] theorem IsClosed.field (hx : IsClosed x) (name : String) : IsClosed (.field x name) :=
  ⟨fun _ => id, fun h => hx.2 (h.2.mono (Nat.zero_le _))⟩

@[grind ←] theorem IsClosed.tryOp (hx : IsClosed x) : IsClosed (.tryOp x) :=
  ⟨fun _ => id, fun h => hx.2 (h.2.mono (Nat.zero_le _))⟩

attribute [grind .] closed_ident

end IsClosed

-- A step that writes closed text.
def Closing (act : Emit Rust.Expr) : Prop := ∀ E s x s', Writes act E s x s' → IsClosed x

@[grind ←] theorem closing_pure (hx : IsClosed x) : Closing (pure x) := by
  intro E s y s' hw
  obtain ⟨rfl, -⟩ := writes_pure.mp hw
  exact hx

@[grind ←] theorem closing_throw (stop : Stop) : Closing (throw stop) := fun _ _ _ _ hw => absurd hw not_writes_throw

@[grind ←] theorem closing_bind {α : Type} {act : Emit α} {f : α → Emit Rust.Expr} (hf : ∀ a, Closing (f a)) :
    Closing (act >>= f) := by
  intro E s x s' hw
  obtain ⟨a, s₁, -, hw⟩ := writes_bind.mp hw
  exact hf a E s₁ x s' hw

theorem closing_tryCatch {act : Emit Rust.Expr} {f : Stop → Emit Rust.Expr} (hact : Closing act)
    (hf : ∀ d, Closing (f d)) : Closing (tryCatch act f) := by
  intro E s x s' hw
  rw [Writes, outcome_tryCatch] at hw
  rcases ho : outcome act E s with ⟨r, s₁⟩
  rw [ho] at hw
  cases r with
  | ok y => exact hact E s x s' (ho.trans hw)
  | error d => exact hf d E s₁ x s' hw

@[grind .] theorem closed_hostCall (path : String) (xs : List Rust.Expr) : IsClosed (Soroban.hostCall path xs) :=
  closed_callPath path _

@[grind .] theorem closing_sorobanInt (value : Nat) (negative signed : Bool) (bits : Nat) :
    Closing (Soroban.intLiteral value negative signed bits) := by
  unfold Soroban.intLiteral
  grind

@[grind .] theorem closing_sorobanString (text : String) : Closing (Soroban.stringLiteral text) :=
  closing_bind fun _ => closing_pure (closed_hostCall _ _)

@[grind .] theorem closing_intLiteral (value : Nat) (negative signed : Bool) (bits : Nat) :
    Closing (intLiteral value negative signed bits) := by
  unfold intLiteral Ink.intLiteral Ink.u256
  grind

@[grind .] theorem closing_stringLiteral (text : String) : Closing (stringLiteral text) := by
  unfold stringLiteral Ink.stringLiteral
  grind

theorem closing_numberLiteral (expected : Option Ty) (start : Text.Position) (value : Nat) (negative : Bool) :
    Closing (numberLiteral expected start value negative) := by
  unfold numberLiteral
  grind

theorem closing_zero (signed : Bool) (bits : Nat) : Closing (Soroban.zero (.int signed bits)) := by
  refine closing_bind fun env => ?_
  unfold Soroban.zeroWith
  grind

theorem closing_intBound (signed : Bool) (bits : Nat) (isMax : Bool) : Closing (intBound signed bits isMax) := by
  unfold intBound Ink.intBound Soroban.intBound
  grind

theorem closing_arrayLength (x : Rust.Expr) : Closing (arrayLength x) := by
  unfold arrayLength Ink.arrayLength Soroban.arrayLength Ink.toU256
  grind

theorem closing_newArray (elem : Ty) (x : Rust.Expr) (t : Ty) : Closing (newArray elem x t) := by
  refine closing_bind fun target => ?_
  cases target with
  | ink v => exact closing_bind fun _ => closing_bind fun _ => closing_pure (closed_lit _)
  | soroban =>
      refine closing_bind fun _ => closing_bind fun _ => ?_
      exact closing_bind fun _ => closing_bind fun _ => closing_bind fun _ => closing_pure (closed_block _)

theorem closing_arrayLiteral (length : Int) (xs : List Rust.Expr) : Closing (arrayLiteral length xs) := by
  unfold arrayLiteral Ink.arrayLiteral Soroban.arrayLiteral
  grind

theorem closing_envValue (kind : EnvKind) : Closing (envValue kind) := by
  refine closing_bind fun target => ?_
  cases target with
  | ink v =>
      unfold Ink.envValue Ink.toU256
      grind
  | soroban =>
      unfold Soroban.envValue
      grind

theorem closing_readField (d : FieldDecl) (xs : List Rust.Expr) : Closing (readField d xs) := by
  have hget (t : String) : IsClosed (Soroban.persistent.methodCall ("get::<DataKey, " ++ t ++ ">")
      [(Soroban.dataKey d xs).ref]) :=
    (((closed_ident "env").method "storage").method "persistent").methodCall _ _
  unfold readField Ink.readField Ink.selfField Soroban.readField
  refine closing_bind fun target => ?_
  cases target with
  | ink v => grind
  | soroban =>
      refine closing_bind fun t => closing_tryCatch (closing_bind fun z => closing_pure ?_) fun stop => ?_
      · exact (hget t).methodCall _ _
      · cases stop with
        | fault d => exact closing_pure ((hget t).method _)
        | overflow => exact closing_throw _

theorem closing_invoke (r : Routine) (xs : List Rust.Expr) : Closing (invoke r xs) := by
  unfold invoke Ink.call Soroban.call
  grind

theorem closing_externalCall (method : Signature) (name : String) (xs : List Rust.Expr) :
    Closing (externalCall method (.ident name) xs) := by
  unfold externalCall Ink.externalCall Soroban.externalCall
  grind

-- Conversions.

theorem not_showsStruct_callPath {path : String} {xs : List Rust.Expr} {least : Nat} :
    ¬ (Rust.Expr.callPath path xs).ShowsStruct least := fun h => h.2

theorem showsStruct_of_method {method : String} {xs : List Rust.Expr} {least : Nat}
    (h : (Rust.Expr.methodCall x method xs).ShowsStruct least) : x.ShowsStruct 0 := h.2.mono (Nat.zero_le _)

theorem showsStruct_of_cast {type : String} {least : Nat} (h : (Rust.Expr.cast x type).ShowsStruct least) :
    x.ShowsStruct 0 := h.2.mono (Nat.zero_le _)

-- What a conversion writes: the text itself, a cast of it or of a method of it, or a call.
inductive Conversion (x : Rust.Expr) : TextEnding → Rust.Expr → Prop
  | same : Conversion x .same x
  | cast {type : String} : Conversion x .cast (.cast x type)
  | castMethod {first second type : String} : Conversion x .cast (.cast ((x.method first).method second) type)
  | castLow {method type : String} : Conversion x .cast (.cast (x.method method) type)
  | call {path : String} {xs : List Rust.Expr} : Conversion x .call (.callPath path xs)
  | callMethod {path method : String} {xs : List Rust.Expr} : Conversion x .call ((Rust.Expr.callPath path xs).method method)
  | method {method : String} : Conversion x .call (x.method method)

theorem Conversion.endsInCast {ending : TextEnding} (h : Conversion x ending y) {least : Nat} (hy : y.EndsInCast least) :
    ending = .same ∧ x.EndsInCast least ∨ ending = .cast ∧ least ≤ Rust.Tightness.cast := by
  cases h with
  | same => exact .inl ⟨rfl, hy⟩
  | cast | castMethod | castLow => exact .inr ⟨rfl, hy⟩
  | call | callMethod | method => exact hy.elim

theorem Conversion.showsStruct {ending : TextEnding} (h : Conversion x ending y) {least : Nat} (hy : y.ShowsStruct least) :
    x.ShowsStruct 0 := by
  cases h with
  | same => exact hy.mono (Nat.zero_le _)
  | cast => exact showsStruct_of_cast hy
  | castMethod => exact showsStruct_of_method (showsStruct_of_method (showsStruct_of_cast hy))
  | castLow => exact showsStruct_of_method (showsStruct_of_cast hy)
  | call => exact absurd hy not_showsStruct_callPath
  | callMethod => exact absurd (showsStruct_of_method hy) not_showsStruct_callPath
  | method => exact showsStruct_of_method hy

-- A step that converts.
def Converting (x : Rust.Expr) (ending : TextEnding) (act : Emit Rust.Expr) : Prop :=
  ∀ E s y s', Writes act E s y s' → Conversion x ending y

theorem converting_pure {ending : TextEnding} (h : Conversion x ending y) : Converting x ending (pure y) := by
  intro E s z s' hw
  obtain ⟨rfl, -⟩ := writes_pure.mp hw
  exact h

theorem converting_throw (x : Rust.Expr) (ending : TextEnding) (stop : Stop) : Converting x ending (throw stop) :=
  fun _ _ _ _ hw => absurd hw not_writes_throw

theorem converting_bind {α : Type} {ending : TextEnding} {act : Emit α} {f : α → Emit Rust.Expr}
    (hf : ∀ a, Converting x ending (f a)) : Converting x ending (act >>= f) := by
  intro E s y s' hw
  obtain ⟨a, s₁, -, hw⟩ := writes_bind.mp hw
  exact hf a E s₁ y s' hw

theorem ending_of_wide {bits bits' : Nat} {signed signed' : Bool} (h : 128 < bits) (h' : 128 < bits') :
    conversionEnding (.int signed' bits') (.int signed bits) = .same := by
  rw [conversionEnding, if_neg (Nat.not_le.mpr h), if_neg (Nat.not_le.mpr h')]

theorem ending_of_widened {bits bits' : Nat} {signed signed' : Bool} (h : 128 < bits) (h' : ¬ 128 < bits') :
    conversionEnding (.int signed' bits') (.int signed bits) = .call := by
  rw [conversionEnding, if_neg (Nat.not_le.mpr h), if_pos (Nat.not_lt.mp h')]

theorem ending_of_narrow {bits : Nat} {signed : Bool} (h : ¬ 128 < bits) (source : Ty) :
    conversionEnding source (.int signed bits) = .cast := by
  cases source <;> exact if_pos (Nat.not_lt.mp h)

theorem converting_ink (v : InkVersion) (x : Rust.Expr) (source result : Ty) :
    Converting x (conversionEnding source result) (Ink.cast v x source result) := by
  unfold Ink.cast
  split
  · next signed bits _ bits' =>
      refine converting_bind fun name => ?_
      by_cases h : 128 < bits <;> by_cases h' : 128 < bits' <;> simp only [Ink.isWide, h, h', decide_true, decide_false]
      · exact converting_pure (ending_of_wide h h' ▸ .same)
      · exact converting_bind fun _ => converting_pure (ending_of_widened h h' ▸ .call)
      · exact converting_pure (ending_of_narrow h _ ▸ .castLow)
      · exact converting_pure (ending_of_narrow h _ ▸ .cast)
  · next signed bits r =>
      refine converting_bind fun name => ?_
      by_cases h : 128 < bits <;> simp only [Ink.isWide, h, decide_true, decide_false, if_true]
      · have hending : conversionEnding (.enum r) (.int signed bits) = .call := if_neg (Nat.not_le.mpr h)
        exact converting_bind fun _ => converting_pure (hending ▸ .call)
      · exact converting_pure (ending_of_narrow h _ ▸ .cast)
  · exact converting_bind fun _ => converting_pure .callMethod
  · exact converting_pure .method
  · exact converting_pure .same
  · split
    · exact converting_bind fun _ => converting_throw x _ _
    · exact converting_throw x _ _

theorem converting_soroban (x : Rust.Expr) (source result : Ty) :
    Converting x (conversionEnding source result) (Soroban.cast x source result) := by
  unfold Soroban.cast
  dsimp only
  split
  · next signed bits signed' bits' =>
      by_cases h : 128 < bits <;> by_cases h' : 128 < bits' <;> simp only [Soroban.isWide, h, h', decide_true, decide_false]
      · split
        · exact converting_pure (ending_of_wide h h' ▸ .same)
        · exact converting_throw x _ _
      · refine converting_bind fun _ => ?_
        split
        · exact converting_pure (ending_of_widened h h' ▸ .call)
        · exact converting_pure (ending_of_widened h h' ▸ .call)
      · exact converting_pure (ending_of_narrow h _ ▸ .castMethod)
      · exact converting_pure (ending_of_narrow h _ ▸ .cast)
  · next signed bits r =>
      by_cases h : 128 < bits <;> simp only [Soroban.isWide, h, decide_true, decide_false, Bool.not_true, Bool.not_false,
        if_true]
      · have hending : conversionEnding (.enum r) (.int signed bits) = .call := if_neg (Nat.not_le.mpr h)
        exact converting_bind fun _ => converting_pure (hending ▸ .call)
      · exact converting_pure (ending_of_narrow h _ ▸ .cast)
  · exact converting_pure .same
  · exact converting_throw x _ _

theorem conversion_convert {source result : Ty} (hw : Writes (convert x source result) E s y s') :
    Conversion x (conversionEnding source result) y := by
  unfold convert at hw
  rw [writes_of_target] at hw
  cases ht : E.target with
  | ink v =>
      rw [ht] at hw
      exact converting_ink v x source result E s y s' hw
  | soroban =>
      rw [ht] at hw
      exact converting_soroban x source result E s y s' hw

-- What is written for an expression ends in a cast, or shows a struct, only where the expression does.

structure Marks (E : Env) (expected : Option Ty) (e : Expr) (x : Rust.Expr) : Prop where
  ends : ∀ least, x.EndsInCast least → Trails E.package E.target least expected e
  shows : x.ShowsStruct 0 → Shows E.package E.target e

structure MarksAs (E : Env) (t : Option Ty) (e : Expr) (x : Rust.Expr) : Prop where
  ends : ∀ least, x.EndsInCast least → TrailsAs E.package E.target least t e
  shows : x.ShowsStruct 0 → Shows E.package E.target e

def Marked (E : Env) (expected : Option Ty) (e : Expr) (act : Emit Access) : Prop :=
  ∀ s x s', Writes act E s (.value x) s' → Marks E expected e x

section Marked

variable {expected t : Option Ty} {e : Expr} {α : Type}

theorem IsClosed.marks (hx : IsClosed x) : Marks E expected e x :=
  ⟨fun least h => absurd h (hx.1 least), fun h => absurd h hx.2⟩

theorem marked_pure (hx : Marks E expected e x) : Marked E expected e (pure (.value x)) := by
  intro s y s' hw
  obtain ⟨heq, -⟩ := writes_pure.mp hw
  exact Access.value.inj heq ▸ hx

theorem marked_entry (d : FieldDecl) (keys : List Rust.Expr) (missing : List Ty) :
    Marked E expected e (pure (.entry d keys missing)) := by
  intro s y s' hw
  obtain ⟨heq, -⟩ := writes_pure.mp hw
  cases heq

theorem marked_throw (stop : Stop) : Marked E expected e (throw stop) := fun _ _ _ hw => absurd hw not_writes_throw

theorem marked_bind_of_writes {act : Emit α} {f : α → Emit Access}
    (h : ∀ s a s', Writes act E s a s' → Marked E expected e (f a)) : Marked E expected e (act >>= f) := by
  intro s x s' hw
  obtain ⟨a, s₁, ha, hw⟩ := writes_bind.mp hw
  exact h s a s₁ ha s₁ x s' hw

theorem marked_bind {act : Emit α} {f : α → Emit Access} (h : ∀ a, Marked E expected e (f a)) :
    Marked E expected e (act >>= f) := marked_bind_of_writes fun _ a _ _ => h a

theorem marked_closing {act : Emit Rust.Expr} (h : Closing act) :
    Marked E expected e (act >>= fun x => pure (.value x)) :=
  marked_bind_of_writes fun s x s' hx => marked_pure (h E s x s' hx).marks

theorem marks_valueOf {e' : Expr} {written : Emit Access} (h : Marked E expected e written)
    (hw : Writes (valueOf e' written) E s x s') : Marks E expected e x := by
  obtain ⟨_, s₁, -, hw⟩ := writes_bind.mp hw
  obtain ⟨a, s₂, ha, hw⟩ := writes_bind.mp hw
  cases a with
  | value y =>
      obtain ⟨rfl, -⟩ := writes_pure.mp hw
      exact h s₁ y s₂ ha
  | entry d keys missing => exact absurd hw not_writes_throw

theorem marks_operandOf {e' : Expr} {written : Emit Access} (h : Marked E expected e written)
    (hw : Writes (operandOf e' written) E s x s') : Marks E expected e x := by
  obtain ⟨y, s₁, hy, hw⟩ := writes_bind.mp hw
  have hmarks := marks_valueOf h hy
  obtain ⟨place, s₂, -, hw⟩ := writes_bind.mp hw
  obtain ⟨copy, s₃, -, hw⟩ := writes_bind.mp hw
  split at hw
  · obtain ⟨rfl, -⟩ := writes_pure.mp hw
    exact ⟨fun _ => False.elim, fun h => hmarks.shows (showsStruct_of_method h)⟩
  · obtain ⟨rfl, -⟩ := writes_pure.mp hw
    exact hmarks

theorem marks_operandAs {written : Option Ty → Emit Access} (h : Marked E t e (written t))
    (hw : Writes (operandAs t e written) E s y s') : MarksAs E t e y := by
  unfold operandAs at hw
  obtain ⟨x, s₁, hx, hw⟩ := writes_bind.mp hw
  have hmarks := marks_operandOf h hx
  have hsame (hending : operandEnding t e = .same) (heq : x = y) : MarksAs E t e y :=
    ⟨fun least hy => .same hending (hmarks.ends least (heq ▸ hy)), fun hy => hmarks.shows (heq ▸ hy)⟩
  unfold operandEnding at hsame
  split at hw
  · next s n s' n' _ hwritten =>
      rw [hwritten] at hsame
      split at hw
      · next heq => exact hsame (if_pos heq) (writes_pure.mp hw).1
      · next hne =>
          have hconversion := conversion_convert hw
          have hending : operandEnding (some (.int s' n')) e = conversionEnding (.int s n) (.int s' n') := by
            unfold operandEnding
            rw [hwritten]
            exact if_neg hne
          rw [← hending] at hconversion
          refine ⟨fun least hy => ?_, fun hy => hmarks.shows (hconversion.showsStruct hy)⟩
          rcases hconversion.endsInCast hy with ⟨hkept, hends⟩ | ⟨hcast, hleast⟩
          · exact .same hkept (hmarks.ends least hends)
          · exact .cast hcast hleast
  · next hother =>
      refine hsame ?_ (writes_pure.mp hw).1
      split
      · next heq => exact (hother _ _ _ _ heq rfl).elim
      · rfl

end Marked

-- Operators.

-- The text of an operator and its operands.
structure Joins (target : Target) (op : BinaryOp) (t : Ty) (left right x : Rust.Expr) : Prop where
  ends : ∀ least, x.EndsInCast least → IsInfix target op t ∧ least ≤ Rust.operatorTightness op.text ∧
    right.EndsInCast (Rust.operatorTightness op.text + 1)
  shows : x.ShowsStruct 0 → left.ShowsStruct 0 ∨ op ≠ .pow ∧ right.ShowsStruct 0

section Operators

variable {target : Target} {op : BinaryOp} {t u : Ty} {left right right' : Rust.Expr}

theorem joins_between (hop : IsInfix target op t) (hends : ∀ least, right'.EndsInCast least → right.EndsInCast least)
    (hshows : right'.ShowsStruct 0 → right.ShowsStruct 0) : Joins target op t left right (.binary op.text left right') := by
  refine ⟨fun least h => ⟨hop, h.1, hends _ h.2⟩, fun h => ?_⟩
  rcases h.2 with hleft | hright
  · exact .inl (hleft.mono (Nat.zero_le _))
  · exact .inr ⟨hop.1, hshows (hright.mono (Nat.zero_le _))⟩

theorem joins_method {receiver : Rust.Expr} (hshows : receiver.ShowsStruct 0 → left.ShowsStruct 0) (method : String)
    (xs : List Rust.Expr) : Joins target op t left right (.methodCall receiver method xs) :=
  ⟨fun _ => False.elim, fun h => .inl (hshows (showsStruct_of_method h))⟩

theorem joins_ink (v : InkVersion) : Joins (.ink v) op t left right (Ink.binary op left right t u) := by
  have hbetween (hop : op ≠ .pow) : IsInfix (.ink v) op t := ⟨hop, by nofun⟩
  unfold Ink.binary
  split
  · unfold Ink.power
    split
    · exact joins_method id _ _
    · split <;> exact joins_method id _ _
  · refine joins_between (hbetween (by decide)) (fun least h => ?_) fun h => ?_ <;> split at h
    · exact h.elim
    · exact h
    · exact showsStruct_of_method h
    · exact h
  · refine joins_between (hbetween (by decide)) (fun least h => ?_) fun h => ?_ <;> split at h
    · exact h.elim
    · exact h
    · exact showsStruct_of_method h
    · exact h
  · next hpow _ _ => exact joins_between (hbetween hpow) (fun _ => id) id

theorem joins_soroban (hw : Writes (Soroban.binary op left right t u) E s x s') : Joins .soroban op t left right x := by
  have hborrowed : left.borrowed.ShowsStruct 0 → left.ShowsStruct 0 := Rust.Expr.showsStruct_borrowed
  unfold Soroban.binary at hw
  split at hw
  · unfold Soroban.wideBinary at hw
    split at hw
    case h_7 | h_8 | h_9 =>
        obtain ⟨rfl, -⟩ := writes_pure.mp hw
        exact joins_method hborrowed _ _
    case h_10 =>
        split at hw
        · obtain ⟨rfl, -⟩ := writes_pure.mp hw
          exact joins_method hborrowed _ _
        · exact absurd hw not_writes_throw
    all_goals
      obtain ⟨rfl, -⟩ := writes_pure.mp hw
      exact joins_between ⟨by decide, fun _ _ => rfl⟩ (fun _ => id) id
  · next hnarrow =>
      split at hw
      · obtain ⟨rfl, -⟩ := writes_pure.mp hw
        exact joins_method id _ _
      · next hpow =>
          obtain ⟨rfl, -⟩ := writes_pure.mp hw
          exact joins_between ⟨hpow, fun _ hwide => absurd hwide hnarrow⟩ (fun _ => id) id

theorem joins_applyBinary (hw : Writes (applyBinary op left right t u) E s x s') : Joins E.target op t left right x := by
  unfold applyBinary at hw
  rw [writes_of_target] at hw
  cases ht : E.target with
  | ink v =>
      rw [ht] at hw
      obtain ⟨rfl, -⟩ := writes_pure.mp hw
      exact joins_ink v
  | soroban =>
      rw [ht] at hw
      exact joins_soroban hw

theorem not_endsInCast_unary {op : String} {least : Nat} : ¬ (Rust.Expr.unary op x).EndsInCast least :=
  fun h => absurd h.2.le (by decide)

theorem showsStruct_of_unary {op : String} (h : (Rust.Expr.unary op x).ShowsStruct 0) : x.ShowsStruct 0 :=
  h.2.mono (Nat.zero_le _)

theorem marks_applyUnary {op : UnaryOp} (hw : Writes (applyUnary op x t) E s y s') :
    (∀ least, ¬ y.EndsInCast least) ∧ (y.ShowsStruct 0 → x.ShowsStruct 0) := by
  have hunary (text : String) : (∀ least, ¬ (Rust.Expr.unary text x).EndsInCast least) ∧
      ((Rust.Expr.unary text x).ShowsStruct 0 → x.ShowsStruct 0) :=
    ⟨fun _ => not_endsInCast_unary, showsStruct_of_unary⟩
  unfold applyUnary at hw
  rw [writes_of_target] at hw
  cases ht : E.target with
  | ink v =>
      rw [ht] at hw
      change Writes (Ink.unary op x t) E s y s' at hw
      unfold Ink.unary at hw
      split at hw
      · exact absurd hw not_writes_throw
      · obtain ⟨rfl, -⟩ := writes_pure.mp hw
        exact hunary "-"
      · obtain ⟨rfl, -⟩ := writes_pure.mp hw
        exact hunary "!"
      · exact absurd hw not_writes_throw
  | soroban =>
      rw [ht] at hw
      change Writes (Soroban.unary op x t) E s y s' at hw
      unfold Soroban.unary at hw
      dsimp only at hw
      split at hw
      · next bits =>
          split at hw
          · obtain ⟨z, s₁, hz, hw⟩ := writes_bind.mp hw
            obtain ⟨rfl, -⟩ := writes_pure.mp hw
            have hclosed : IsClosed z := closing_zero true bits E s z s₁ hz
            exact ⟨fun _ => id, fun h => absurd (showsStruct_of_method h) hclosed.2⟩
          · obtain ⟨rfl, -⟩ := writes_pure.mp hw
            exact hunary "-"
      · split at hw
        · exact absurd hw not_writes_throw
        · obtain ⟨rfl, -⟩ := writes_pure.mp hw
          exact hunary "!"
      · exact absurd hw not_writes_throw

end Operators

-- Accesses.

section Accesses

variable {expected : Option Ty} {e key : Expr} {start : Text.Position} {t : Ty}

theorem marked_fieldAccess (d : FieldDecl) : Marked E expected e (fieldAccess d) := by
  unfold fieldAccess
  split
  · exact marked_entry _ _ _
  · refine marked_bind_of_writes fun s place s' hplace => ?_
    split
    · next x =>
        refine marked_pure (IsClosed.marks ?_)
        unfold fieldPlace? at hplace
        rw [writes_of_target] at hplace
        cases ht : E.target with
        | ink v =>
            rw [ht] at hplace
            have hfound := (writes_pure.mp hplace).1
            unfold Ink.fieldPlace? at hfound
            split at hfound
            · cases hfound
            · obtain rfl := Option.some.inj hfound
              exact (closed_ident "self").field d.name
        | soroban =>
            rw [ht] at hplace
            cases (writes_pure.mp hplace).1
    · exact marked_closing (closing_readField d [])

theorem marked_member {a : Access} (ha : ∀ x, a = .value x → Marks E expected e x) (name : String) :
    Marked E expected (.member start e name t) (a.member start name) := by
  cases a with
  | value x =>
      refine marked_pure ⟨fun _ => False.elim, fun h => ?_⟩
      exact .member ((ha x rfl).shows (h.2.mono (Nat.zero_le _)))
  | entry d keys missing => exact marked_throw _

theorem shows_arrayIndex {array k : Rust.Expr} (hw : Writes (arrayIndex array k t) E s x s') :
    (∀ least, ¬ x.EndsInCast least) ∧ (x.ShowsStruct 0 → array.ShowsStruct 0) := by
  unfold arrayIndex at hw
  rw [writes_of_target] at hw
  cases ht : E.target with
  | ink v =>
      rw [ht] at hw
      obtain ⟨rfl, -⟩ := writes_pure.mp hw
      exact ⟨fun _ => id, fun h => h.2.mono (Nat.zero_le _)⟩
  | soroban =>
      rw [ht] at hw
      obtain ⟨rfl, -⟩ := writes_pure.mp hw
      exact ⟨fun _ => id, fun h => showsStruct_of_method (showsStruct_of_method h)⟩

theorem marked_index {a : Access} (ha : ∀ x, a = .value x → Marks E expected e x) (on keyType : Ty)
    (written : Ty → Emit Rust.Expr) : Marked E expected (.index start e key t) (a.index start on keyType written) := by
  unfold Access.index
  split
  · next x =>
      split
      · exact marked_bind_of_writes fun _ _ _ hw => absurd hw not_writes_throw
      · refine marked_bind fun k => marked_bind_of_writes fun s y s' hy => marked_pure ?_
        obtain ⟨hends, hshows⟩ := shows_arrayIndex hy
        exact ⟨fun least h => absurd h (hends least), fun h => .index ((ha x rfl).shows (hshows h))⟩
  · exact marked_entry _ _ _
  · exact marked_bind fun k => marked_closing (closing_readField _ _)
  · exact marked_bind fun k => marked_entry _ _ _

theorem marks_binary {op : BinaryOp} {left right : Expr} {x y z : Rust.Expr}
    (hx : x.ShowsStruct 0 → Shows E.package E.target left)
    (hy : MarksAs E (some (rightOperandType expected op left.type right.type)) right y)
    (hz : Joins E.target op (operandType expected op left.type right.type) x y z) :
    Marks E expected (.binary start op left right t) z := by
  refine ⟨fun least h => ?_, fun h => ?_⟩
  · obtain ⟨hop, hleast, hright⟩ := hz.ends least h
    exact .binary hop hleast (hy.ends _ hright)
  · rcases hz.shows h with hleft | ⟨hop, hright⟩
    · exact .left (hx hleft)
    · exact .right hop (hy.shows hright)

theorem MarksAs.borrowed {t : Option Ty} (h : MarksAs E t e x) : MarksAs E t e x.borrowed :=
  ⟨fun least hx => h.ends least (Rust.Expr.endsInCast_borrowed hx), fun hx => h.shows (Rust.Expr.showsStruct_borrowed hx)⟩

end Accesses

theorem not_endsInCast_structZero {depth : Nat} {r : DeclRef} (hw : Writes (Soroban.structZero depth r) E s x s')
    {least : Nat} : ¬ x.EndsInCast least := by
  cases depth with
  | zero => exact absurd hw not_writes_throw
  | succ depth =>
      obtain ⟨_, s₁, -, hw⟩ := writes_bind.mp hw
      obtain ⟨_, s₂, -, hw⟩ := writes_bind.mp hw
      obtain ⟨rfl, -⟩ := writes_pure.mp hw
      exact id

theorem closing_zeroWith {structZero : DeclRef → Emit Rust.Expr} {t : Ty} (ht : ∀ r, t ≠ .struct r) :
    Closing (Soroban.zeroWith structZero t) := by
  cases t with
  | struct r => exact absurd rfl (ht r)
  | tuple elems =>
      cases elems with
      | nil => exact closing_pure (closed_lit _)
      | cons t ts => exact closing_bind fun xs => closing_pure (closed_tuple xs)
  | _ =>
      simp only [Soroban.zeroWith]
      grind [Soroban.enumVariant]

-- Of all default values only that of a struct shows one.
theorem marked_zero (expected : Option Ty) (start : Text.Position) (t : Ty) :
    Marked E expected (.zero start t) (zero t >>= fun x => pure (.value x)) := by
  refine marked_bind_of_writes fun s x s' hx => marked_pure ?_
  unfold zero at hx
  rw [writes_of_target] at hx
  cases ht : E.target with
  | ink v =>
      rw [ht] at hx
      have hclosing : Closing (Ink.zero v t) := by
        unfold Ink.zero
        grind
      exact (hclosing E s x s' hx).marks
  | soroban =>
      rw [ht] at hx
      obtain ⟨env, s₁, -, hx⟩ := writes_bind.mp hx
      cases t with
      | struct r =>
          rw [Soroban.zeroWith] at hx
          exact ⟨fun least h => absurd h (not_endsInCast_structZero hx), fun _ => .zero ht⟩
      | _ =>
          refine (closing_zeroWith ?_ E s₁ x s' hx).marks
          exact fun _ h => by cases h

-- What a constant is written as.
def MarksConstant (E : Env) (d : ConstantDecl) (x : Rust.Expr) : Prop :=
  ∃ c v, E.package.constant? d.ref = some c ∧ c.value = some v ∧ Marks E (some d.type) v x

theorem marked_access {depth : Nat} (h : ∀ d s x s', Writes (constantValue depth d) E s x s' → MarksConstant E d x) :
    (∀ expected e, Marked E expected e (access (constantValue depth) expected e)) ∧
      ∀ types es s xs s', Writes (accessList (constantValue depth) types es) E s xs s' →
        List.Forall₂ (fun e x => ∃ t, MarksAs E t e x) es xs := by
  apply access.mutual_induct
    (fun expected e => Marked E expected e (access (constantValue depth) expected e))
    (fun types es => ∀ s xs s', Writes (accessList (constantValue depth) types es) E s xs s' →
      List.Forall₂ (fun e x => ∃ t, MarksAs E t e x) es xs)
  all_goals intros
  case case33 hw =>
    rw [accessList] at hw
    obtain ⟨rfl, -⟩ := writes_pure.mp hw
    exact .nil
  case case34 he ih _ _ _ hw =>
    rw [accessList] at hw
    obtain ⟨x, s₁, hx, hw⟩ := writes_bind.mp hw
    obtain ⟨xs, s₂, hxs, hw⟩ := writes_bind.mp hw
    obtain ⟨rfl, -⟩ := writes_pure.mp hw
    exact .cons ⟨_, marks_operandAs (he _) hx⟩ (ih s₁ xs s₂ hxs)
  all_goals simp only [access]
  case case1 => exact marked_closing (closing_numberLiteral _ _ _ _)
  case case2 => exact marked_pure (closed_lit _).marks
  case case3 => exact marked_closing (closing_stringLiteral _)
  case case4 =>
    refine marked_bind fun ident => ?_
    split
    · exact marked_pure (closed_ident _).marks
    · exact marked_throw _
  case case5 => exact marked_fieldAccess _
  case case6 expected start d =>
    refine marked_bind_of_writes fun s x s' hx => marked_pure ?_
    obtain ⟨c, v, hc, hv, hmarks⟩ := h d s x s' hx
    exact ⟨fun least hends => .const hc hv (hmarks.ends least hends), fun hshows => .const hc hv (hmarks.shows hshows)⟩
  case case7 ih =>
    refine marked_bind_of_writes fun s a s' ha => marked_member ?_ _
    rintro x rfl
    exact ih s x s' ha
  case case8 ih _ =>
    refine marked_bind_of_writes fun s a s' ha => marked_index ?_ _ _ _
    rintro x rfl
    exact ih s x s' ha
  case case9 hlogical hleft hright =>
    rw [if_pos hlogical]
    refine marked_bind_of_writes fun s x s₁ hx => marked_bind_of_writes fun s₂ y s' hy => marked_pure ?_
    have hop := hlogical
    simp only [Bool.or_eq_true, decide_eq_true_eq] at hop
    have hmarks := marks_operandAs (hright _) hy
    rw [← show rightOperandType _ _ _ _ = Ty.bool from if_pos hop] at hmarks
    refine marks_binary (marks_operandAs (hleft _) hx).shows hmarks (joins_between ⟨?_, fun _ _ => ?_⟩ (fun _ => id) id)
    · rcases hop with rfl | rfl <;> decide
    · rcases hop with rfl | rfl <;> rfl
  case case10 hlogical hleft hright =>
    rw [if_neg hlogical]
    refine marked_bind_of_writes fun s x s₁ hx => marked_bind_of_writes fun s₂ y s₃ hy => ?_
    have hop := hlogical
    simp only [Bool.or_eq_true, decide_eq_true_eq] at hop
    have hmarks := marks_operandAs (hright _) hy
    rw [← show rightOperandType _ _ _ _ = _ from if_neg hop] at hmarks
    have hleft := marks_operandAs (hleft _) hx
    refine marked_bind_of_writes fun s₄ z s' hz => marked_pure ?_
    have hjoins := joins_applyBinary hz
    split at hjoins
    · exact marks_binary hleft.borrowed.shows hmarks.borrowed hjoins
    · exact marks_binary hleft.shows hmarks hjoins
  case case11 ih =>
    refine marked_bind_of_writes fun s x s' hx => marked_pure ?_
    refine ⟨fun _ h => absurd h not_endsInCast_unary, fun h => .unary ?_⟩
    exact (marks_operandAs (ih _) hx).shows (showsStruct_of_unary h)
  case case12 hnumber =>
    rw [hnumber]
    exact marked_closing (closing_numberLiteral _ _ _ _)
  case case13 ih =>
    refine marked_bind_of_writes fun s x s₁ hx => marked_bind_of_writes fun s₂ y s' hy => marked_pure ?_
    obtain ⟨hends, hshows⟩ := marks_applyUnary hy
    exact ⟨fun least h => absurd h (hends least), fun h => .unary ((marks_operandAs (ih _) hx).shows (hshows h))⟩
  case case14 | case15 =>
    refine marked_bind fun _ => marked_bind fun _ => marked_bind fun _ => ?_
    first
      | exact marked_bind_of_writes fun s x s' hx => marked_pure (closing_invoke _ _ E s x s' hx).tryOp.marks
      | exact marked_bind fun _ => marked_bind_of_writes fun s x s' hx =>
          marked_pure (closing_invoke _ _ E s x s' hx).tryOp.marks
  case case16 =>
    refine marked_bind fun account => marked_bind fun name => ?_
    split
    · exact marked_throw _
    · exact marked_bind fun xs => marked_closing (closing_externalCall _ _ xs)
  case case17 => exact marked_throw _
  case case18 => exact marked_throw _
  case case19 => exact marked_bind fun a => marked_closing (closing_arrayLength a)
  case case20 => exact marked_closing (closing_envValue _)
  case case21 =>
    exact marked_bind fun c => marked_bind fun x => marked_bind fun y => marked_pure (IsClosed.marks ⟨fun _ => id, id⟩)
  case case22 ih =>
    refine marked_bind_of_writes fun s xs s' hxs => ?_
    have hparts := ih s xs s' hxs
    split
    · next x =>
        obtain ⟨e, rest, ⟨t, hmarks⟩, hrest, rfl⟩ := List.forall₂_cons_right_iff.mp hparts
        obtain rfl := List.forall₂_nil_right_iff.mp hrest
        exact marked_pure ⟨fun least h => .single (hmarks.ends least h), fun h => .single (hmarks.shows h)⟩
    · exact marked_pure (closed_tuple _).marks
  case case23 hplan ih =>
    rw [hplan]
    refine marked_bind_of_writes fun s x s' hx => marked_pure ?_
    have hmarks := marks_operandOf ih hx
    exact ⟨fun least h => .kept hplan (hmarks.ends least h), fun h => .cast (hmarks.shows h)⟩
  case case24 hplan ih =>
    rw [hplan]
    refine marked_bind_of_writes fun s x s' hx => marked_pure ?_
    have hmarks := marks_operandAs (ih _) hx
    exact ⟨fun least h => .asked hplan (hmarks.ends least h), fun h => .cast (hmarks.shows h)⟩
  case case25 hplan ih =>
    rw [hplan]
    refine marked_bind_of_writes fun s x s₁ hx => ?_
    have hmarks := marks_operandAs (ih _) hx
    split
    · next hsame =>
        exact marked_pure ⟨fun least h => .unchanged hplan (.inl hsame) (hmarks.ends least h), fun h => .cast (hmarks.shows h)⟩
    · refine marked_bind_of_writes fun s₂ y s' hy => marked_pure ?_
      have hconversion := conversion_convert hy
      refine ⟨fun least h => ?_, fun h => .cast (hmarks.shows (hconversion.showsStruct h))⟩
      rcases hconversion.endsInCast h with ⟨hkept, hends⟩ | ⟨hcast, hleast⟩
      · exact .unchanged hplan (.inr hkept) (hmarks.ends least hends)
      · exact .converted hplan hcast hleast
  case case26 => exact marked_pure (closed_ident _).marks
  case case27 => exact marked_bind fun _ => marked_bind fun xs => marked_pure ⟨fun _ => False.elim, fun _ => .structLit⟩
  case case28 => exact marked_closing (closing_intBound _ _ _)
  case case29 => exact marked_bind fun n => marked_closing (closing_newArray _ _ _)
  case case30 => exact marked_bind fun xs => marked_closing (closing_arrayLiteral _ _)
  case case31 => exact marked_throw _
  case case32 => exact marked_zero _ _ _

theorem marks_constantValue (depth : Nat) {d : ConstantDecl} (hw : Writes (constantValue depth d) E s x s') :
    MarksConstant E d x := by
  induction depth generalizing d s x s' with
  | zero => exact absurd hw not_writes_throw
  | succ depth ih =>
      obtain ⟨env, s₁, henv, hw⟩ := writes_bind.mp hw
      obtain ⟨rfl, rfl⟩ := writes_read.mp henv
      split at hw
      · next v hvalue =>
          obtain ⟨c, hc, hv⟩ := Option.bind_eq_some_iff.mp hvalue
          exact ⟨c, v, hc, hv, marks_valueOf ((marked_access fun _ _ _ _ => ih).1 _ v) hw⟩
      · exact absurd hw not_writes_throw

theorem marks_operand {e : Expr} {t : Ty} (h : Operand E e x t) : MarksAs E (some t) e x := by
  obtain ⟨depth, s, s', hw⟩ := h
  exact marks_operandAs ((marked_access fun _ _ _ _ => marks_constantValue depth).1 _ e) hw

end RustContracts.Emit
