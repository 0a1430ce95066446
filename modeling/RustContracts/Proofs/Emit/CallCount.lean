import RustContracts.Proofs.Emit.NeatStmt
import RustContracts.Proofs.Program.Subterms
import RustContracts.Proofs.Rust.CallCount

-- How many calls stand in what is written for an expression: as many as the expression makes. No operand is written
-- twice.
namespace RustContracts

open Program Emit

namespace Emit

open Rust (callsOfList callsOfStmts)

-- Names that no reference has: those of temporary variables, of types, of paths and those without a number at the end.
structure Spares (isRef : String → Bool) : Prop where
  temp : ∀ stem ∈ stems, ∀ k, isRef (numbered stem k) = false
  type : ∀ name, isRef (Rust.Name.type name) = false
  path : ∀ name, Rust.isPath name = true → isRef name = false
  fixed : ∀ name, (name.toList.reverse.takeWhile Char.isDigit).isEmpty = true → isRef name = false

@[grind →] theorem Spares.of_fixed {isRef : String → Bool} (h : Spares isRef) :
    isRef "self" = false ∧ isRef "env" = false ∧ isRef "caller" = false :=
  ⟨h.fixed _ (by decide), h.fixed _ (by decide), h.fixed _ (by decide)⟩

-- What is in scope: variables that hold values, and references.
structure Tells (isRef : String → Bool) (scopes : List Scope) : Prop where
  locals : ∀ scope ∈ scopes, ∀ name ident, (name, ident) ∈ scope.locals → isRef ident = false
  refs : ∀ scope ∈ scopes, ∀ key name, (key, name) ∈ scope.refs → isRef name = true

-- So many calls stand in something written.
class Tallied (α : Type) where
  tally : (String → Bool) → Nat → α → Prop

instance : Tallied Rust.Expr := ⟨fun isRef n x => x.calls isRef = n⟩
instance : Tallied (List Rust.Expr) := ⟨fun isRef n xs => callsOfList isRef xs = n⟩
instance : Tallied Rust.Stmt := ⟨fun isRef n st => st.calls isRef = n⟩
instance : Tallied (List Rust.Stmt) := ⟨fun isRef n code => callsOfStmts isRef code = n⟩
instance : Tallied (Option Rust.Expr) := ⟨fun isRef n o => ∀ x ∈ o, x.calls isRef = n⟩

-- At a mapping some key is missing.
def Access.Tallies (isRef : String → Bool) (n : Nat) : Access → Prop
  | value x => x.calls isRef = n
  | entry _ keys missing => callsOfList isRef keys = n ∧ missing ≠ []

instance : Tallied Access := ⟨Access.Tallies⟩

-- A step that writes code with so many calls, in any state whose names are told apart, and keeps the names.
def Takes {α : Type} [Tallied α] (isRef : String → Bool) (E : Env) (n : Nat) (act : Emit α) : Prop :=
  ∀ s a s', Tells isRef s.frame.scopes → Writes act E s a s' → SameNames s s' ∧ Tallied.tally isRef n a

section Steps

variable {isRef : String → Bool} {E : Env} {n m : Nat} {α β γ : Type} [Tallied α] [Tallied β]

@[grind =] theorem tally_expr (x : Rust.Expr) : Tallied.tally isRef n x ↔ x.calls isRef = n := .rfl

@[grind =] theorem tally_exprs (xs : List Rust.Expr) : Tallied.tally isRef n xs ↔ callsOfList isRef xs = n := .rfl

@[grind =] theorem tally_stmt (st : Rust.Stmt) : Tallied.tally isRef n st ↔ st.calls isRef = n := .rfl

@[grind =] theorem tally_stmts (code : List Rust.Stmt) :
    Tallied.tally isRef n code ↔ callsOfStmts isRef code = n := .rfl

@[grind =] theorem tally_option (o : Option Rust.Expr) : Tallied.tally isRef n o ↔ ∀ x ∈ o, x.calls isRef = n := .rfl

@[grind =] theorem tally_value (x : Rust.Expr) : Tallied.tally isRef n (Access.value x) ↔ x.calls isRef = n := .rfl

@[grind =] theorem tally_entry (d : FieldDecl) (keys : List Rust.Expr) (missing : List Ty) :
    Tallied.tally isRef n (Access.entry d keys missing) ↔ callsOfList isRef keys = n ∧ missing ≠ [] := .rfl

@[grind ←] theorem takes_pure {a : α} (ha : Tallied.tally isRef n a) : Takes isRef E n (pure a) := by
  intro s b s' _ hw
  obtain ⟨rfl, rfl⟩ := writes_pure.mp hw
  exact ⟨.refl s, ha⟩

@[grind ←] theorem takes_expr {x : Rust.Expr} (hx : x.calls isRef = n) : Takes isRef E n (pure x) := takes_pure hx

@[grind ←] theorem takes_throw (stop : Stop) : Takes isRef E n (throw stop : Emit α) := by
  intro s b s' _ hw
  exact absurd hw not_writes_throw

theorem takes_throw_bind (stop : Stop) (f : γ → Emit β) : Takes isRef E n ((throw stop : Emit γ) >>= f) := by
  intro s b s' _ hw
  obtain ⟨a, s₁, hthrow, -⟩ := writes_bind.mp hw
  exact absurd hthrow not_writes_throw

-- The calls of the first step count where its code stands in that of the second.
theorem takes_bind_of_writes {x : Emit α} {f : α → Emit β} (hx : Takes isRef E n x)
    (hf : ∀ a, Tallied.tally isRef n a → (∃ s s', Writes x E s a s') → Takes isRef E m (f a)) :
    Takes isRef E m (x >>= f) := by
  intro s b s' hs hw
  obtain ⟨a, s₁, hx', hw⟩ := writes_bind.mp hw
  obtain ⟨hsame, ha⟩ := hx s a s₁ hs hx'
  obtain ⟨hsame', hb⟩ := hf a ha ⟨s, s₁, hx'⟩ s₁ b s' (hsame.scopes_eq ▸ hs) hw
  exact ⟨hsame.trans hsame', hb⟩

theorem takes_bind {x : Emit α} {f : α → Emit β} (hx : Takes isRef E n x)
    (hf : ∀ a, Tallied.tally isRef n a → Takes isRef E m (f a)) : Takes isRef E m (x >>= f) :=
  takes_bind_of_writes hx fun a ha _ => hf a ha

-- A step whose result is no code.
@[grind ←] theorem takes_steady_bind {x : Emit γ} {f : γ → Emit β} (hx : Steady x)
    (hf : ∀ a, Takes isRef E m (f a)) : Takes isRef E m (x >>= f) := by
  intro s b s' hs hw
  obtain ⟨a, s₁, hx', hw⟩ := writes_bind.mp hw
  have hsame := hx.sameNames hx'
  obtain ⟨hsame', hb⟩ := hf a s₁ b s' (hsame.scopes_eq ▸ hs) hw
  exact ⟨hsame.trans hsame', hb⟩

theorem takes_read_bind {f : Env → Emit β} (hf : Takes isRef E n (f E)) : Takes isRef E n (read >>= f) := by
  intro s b s' hs hw
  obtain ⟨e, s₁, hread, hw⟩ := writes_bind.mp hw
  obtain ⟨rfl, rfl⟩ := writes_read.mp hread
  exact hf s b s' hs hw

theorem takes_tryCatch {x : Emit α} {f : Stop → Emit α} (hsteady : Steady x) (hx : Takes isRef E n x)
    (hf : ∀ d, Takes isRef E n (f d)) : Takes isRef E n (tryCatch x f) := by
  intro s a s' hs hw
  rw [Writes, outcome_tryCatch] at hw
  have hsame := hsteady E s
  rcases ho : outcome x E s with ⟨r, s₁⟩
  rw [ho] at hw hsame
  cases r with
  | ok b =>
      cases hw
      exact hx s a s' hs ho
  | error d =>
      obtain ⟨hsame', ha⟩ := hf d s₁ a s' (hsame.scopes_eq ▸ hs) hw
      exact ⟨hsame.trans hsame', ha⟩

theorem takes_local_bind {name : String} {f : Option String → Emit β}
    (hf : ∀ o, (∀ ident, o = some ident → isRef ident = false) → Takes isRef E m (f o)) :
    Takes isRef E m (local? name >>= f) := by
  intro s b s' hs hw
  obtain ⟨o, s₁, hlocal, hw⟩ := writes_bind.mp hw
  obtain ⟨rfl, rfl⟩ := writes_local?.mp hlocal
  refine hf _ (fun ident hident => ?_) s b s' hs hw
  obtain ⟨scope, hscope, hmem⟩ := mem_of_findSome hident
  exact hs.locals scope hscope name ident hmem

theorem takes_ref_bind {key : String} {f : Option String → Emit β}
    (hf : ∀ o, (∀ name, o = some name → isRef name = true) → Takes isRef E m (f o)) :
    Takes isRef E m (ref? key >>= f) := by
  intro s b s' hs hw
  obtain ⟨o, s₁, href, hw⟩ := writes_bind.mp hw
  have ho : outcome (ref? key) E s = (.ok (s.frame.scopes.findSome? fun s => s.refs.lookup key), s) := rfl
  rw [Writes, ho] at href
  cases href
  refine hf _ (fun name hname => ?_) s b s' hs hw
  obtain ⟨scope, hscope, hmem⟩ := mem_of_findSome hname
  exact hs.refs scope hscope key name hmem

theorem takes_temp_bind {stem : String} {f : String → Emit β} (hfree : Spares isRef) (hstem : stem ∈ stems)
    (hf : ∀ name, isRef name = false → Takes isRef E m (f name)) : Takes isRef E m (temp stem >>= f) := by
  intro s b s' hs hw
  obtain ⟨name, s₁, htemp, hw⟩ := writes_bind.mp hw
  obtain ⟨rfl, rfl⟩ := writes_temp.mp htemp
  obtain ⟨hsame, hb⟩ := hf _ (hfree.temp stem hstem _) s.counted b s' hs hw
  exact ⟨(sameNames_counted s).trans hsame, hb⟩

end Steps

end Emit

namespace Ink

open Rust (callsOfList)

variable {isRef : String → Bool} {E : Env} {n m : Nat} {x y : Rust.Expr} {xs : List Rust.Expr}

@[grind ←] theorem takes_toU256 (v : InkVersion) (hx : x.calls isRef = n) : Takes isRef E n (toU256 v x) := by
  unfold toU256
  grind

theorem calls_u256 (value : Nat) : (u256 value).calls isRef = 0 := by
  unfold u256
  split
  · grind
  · rw [Rust.calls_callPath, Rust.callsOfList_cons, Rust.calls_array, Rust.calls_lits]
    rfl

@[grind ←] theorem takes_intLiteral (v : InkVersion) (value : Nat) (negative signed : Bool) (bits : Nat) :
    Takes isRef E 0 (intLiteral v value negative signed bits) := by
  unfold intLiteral
  grind [calls_u256]

@[grind ←] theorem takes_stringLiteral (text : String) : Takes isRef E 0 (stringLiteral text) := by
  unfold stringLiteral
  grind

@[grind ←] theorem takes_zero (v : InkVersion) (t : Ty) : Takes isRef E 0 (zero v t) := by
  unfold zero
  grind

@[grind ←] theorem takes_intBound (v : InkVersion) (signed : Bool) (bits : Nat) (isMax : Bool) :
    Takes isRef E 0 (intBound v signed bits isMax) := by
  unfold intBound
  grind

@[grind =] theorem calls_binary (op : Solidity.BinaryOp) (t u : Ty) :
    (binary op x y t u).calls isRef = x.calls isRef + y.calls isRef := by
  unfold binary power
  grind

@[grind ←] theorem takes_unary (op : Solidity.UnaryOp) (hx : x.calls isRef = n) (t : Ty) :
    Takes isRef E n (unary op x t) := by
  unfold unary
  grind

@[grind ←] theorem takes_cast (v : InkVersion) (hx : x.calls isRef = n) (source result : Ty) :
    Takes isRef E n (cast v x source result) := by
  unfold cast
  grind

@[grind =] theorem calls_arrayIndex (t : Ty) : (arrayIndex x y t).calls isRef = x.calls isRef + y.calls isRef := by
  unfold arrayIndex asUsize
  grind

@[grind ←] theorem takes_arrayLiteral (length : Int) (hxs : callsOfList isRef xs = n) :
    Takes isRef E n (arrayLiteral length xs) := by
  unfold arrayLiteral
  grind

@[grind ←] theorem takes_envValue (hfree : Spares isRef) (v : InkVersion) (kind : EnvKind) :
    Takes isRef E 0 (envValue v kind) := by
  have hself := Rust.calls_variable hfree.of_fixed.1
  have henv : ((Rust.Expr.ident "self").method "env").calls isRef = 0 := by grind
  unfold envValue
  grind

@[grind ←] theorem calls_selfField (hfree : Spares isRef) (name : String) : (selfField name).calls isRef = 0 := by
  unfold selfField
  grind

@[grind =] theorem calls_mappingKey (xs : List Rust.Expr) : (mappingKey xs).calls isRef = callsOfList isRef xs := by
  unfold mappingKey
  grind

theorem calls_readField (hfree : Spares isRef) (d : FieldDecl) (xs : List Rust.Expr) :
    (readField d xs).calls isRef = callsOfList isRef xs := by
  have hself := calls_selfField hfree d.name
  unfold readField
  grind

theorem calls_writeField (hfree : Spares isRef) (d : FieldDecl) (x : Rust.Expr) (xs : List Rust.Expr) :
    (writeField d x xs).calls isRef = callsOfList isRef xs + x.calls isRef := by
  have hself := calls_selfField hfree d.name
  unfold writeField
  grind

theorem calls_call (hfree : Spares isRef) (callee : Routine) (xs : List Rust.Expr) :
    (call callee xs).calls isRef = callsOfList isRef xs := by
  have hself := Rust.calls_variable hfree.of_fixed.1
  unfold call
  grind

end Ink

namespace Soroban

open Rust (callsOfList)

variable {isRef : String → Bool} {E : Env} {n m : Nat} {x y : Rust.Expr} {xs : List Rust.Expr}

@[grind =>] theorem calls_hostCall (hfree : Spares isRef) (path : String) (xs : List Rust.Expr) :
    (hostCall path xs).calls isRef = callsOfList isRef xs := by
  have henv := Rust.calls_variable hfree.of_fixed.2.1
  unfold hostCall env
  grind

@[grind =] theorem calls_borrow : (borrow x).calls isRef = x.calls isRef := by
  unfold borrow
  grind

@[grind =] theorem calls_asU32 (t : Ty) : (asU32 x t).calls isRef = x.calls isRef := by
  unfold asU32
  grind

@[grind ←] theorem takes_intLiteral (hfree : Spares isRef) (value : Nat) (negative signed : Bool) (bits : Nat) :
    Takes isRef E 0 (intLiteral value negative signed bits) := by
  have hlimbs : callsOfList isRef ([3, 2, 1, 0].map fun i => .lit ("0x" ++ Text.hex 16 (limb value i))) = 0 :=
    Rust.calls_lits _ _
  unfold intLiteral
  grind

@[grind ←] theorem takes_stringLiteral (hfree : Spares isRef) (text : String) :
    Takes isRef E 0 (stringLiteral text) := by
  unfold stringLiteral
  grind

theorem callsOfList_replicate (n : Nat) (hx : x.calls isRef = 0) : callsOfList isRef (List.replicate n x) = 0 := by
  induction n with
  | zero => rfl
  | succ n ih => rw [List.replicate_succ, Rust.callsOfList_cons, hx, ih]

theorem takes_zerosWith (hfree : Spares isRef) {structZero : DeclRef → Emit Rust.Expr}
    (h : ∀ r, Takes isRef E 0 (structZero r)) :
    (∀ t, Takes isRef E 0 (zeroWith structZero t)) ∧ ∀ ts, Takes isRef E 0 (zerosWith structZero ts) := by
  have henv : env.calls isRef = 0 := Rust.calls_variable hfree.of_fixed.2.1
  have hbytes (size : Nat) : callsOfList isRef [(Rust.Expr.lit ("[0u8; " ++ toString size ++ "]")).ref] = 0 := rfl
  have hvariant (e : EnumDecl) (variant : String) : (enumVariant e variant).calls isRef = 0 := by
    refine Rust.calls_variable (hfree.path _ ?_)
    simp [Rust.isPath, String.toList_append]
  apply zeroWith.mutual_induct (fun t => Takes isRef E 0 (zeroWith structZero t))
    (fun ts => Takes isRef E 0 (zerosWith structZero ts))
  all_goals intros
  all_goals simp only [zeroWith, zerosWith]
  all_goals grind [callsOfList_replicate, takes_bind]

@[grind ←] theorem takes_zero (hfree : Spares isRef) (t : Ty) : Takes isRef E 0 (zero t) := by
  refine takes_read_bind ((takes_zerosWith hfree ?_).1 t)
  generalize E.package.structCount + 1 = depth
  induction depth with
  | zero => exact fun r => takes_throw _
  | succ depth ih =>
      intro r
      refine takes_read_bind (takes_bind ((takes_zerosWith hfree ih).2 _) fun xs hxs => takes_expr ?_)
      rw [Rust.calls_structLit fun _ => rfl]
      exact Nat.eq_zero_of_le_zero (Nat.le_trans (Rust.callsOfList_take _) (Nat.le_of_eq hxs))

@[grind ←] theorem takes_intBound (hfree : Spares isRef) (signed : Bool) (bits : Nat) (isMax : Bool) :
    Takes isRef E 0 (intBound signed bits isMax) := by
  have hlimbs (limbs : List String) : callsOfList isRef (limbs.map Rust.Expr.lit) = 0 := Rust.calls_lits id limbs
  unfold intBound
  grind

@[grind ←] theorem takes_binary (op : Solidity.BinaryOp) (h : x.calls isRef + y.calls isRef = n) (t u : Ty) :
    Takes isRef E n (binary op x y t u) := by
  unfold binary wideBinary wideMethod?
  cases op
  all_goals grind

@[grind ←] theorem takes_unary (hfree : Spares isRef) (op : Solidity.UnaryOp) (hx : x.calls isRef = n) (t : Ty) :
    Takes isRef E n (unary op x t) := by
  have hwide : Takes isRef E n (do return (← zero t).methodCall "sub" [borrow x]) := by
    refine takes_bind (takes_zero hfree t) fun z hz => takes_expr ?_
    grind
  unfold unary
  grind

@[grind ←] theorem takes_cast (hfree : Spares isRef) (hx : x.calls isRef = n) (source result : Ty) :
    Takes isRef E n (cast x source result) := by
  unfold cast
  split
  all_goals grind

@[grind =] theorem calls_arrayIndex (t : Ty) : (arrayIndex x y t).calls isRef = x.calls isRef + y.calls isRef := by
  unfold arrayIndex
  grind

theorem calls_arraySet (t : Ty) (z : Rust.Expr) :
    (arraySet x y t z).calls isRef = x.calls isRef + y.calls isRef + z.calls isRef := by
  unfold arraySet
  grind

@[grind ←] theorem takes_arrayLength (hfree : Spares isRef) (hx : x.calls isRef = n) :
    Takes isRef E n (arrayLength x) := by
  unfold arrayLength
  grind

@[grind ←] theorem takes_arrayLiteral (hfree : Spares isRef) (hxs : callsOfList isRef xs = n) :
    Takes isRef E n (arrayLiteral xs) := by
  have henv : env.calls isRef = 0 := Rust.calls_variable hfree.of_fixed.2.1
  unfold arrayLiteral
  grind

@[grind ←] theorem takes_envValue (hfree : Spares isRef) (kind : EnvKind) : Takes isRef E 0 (envValue kind) := by
  have henv := Rust.calls_variable hfree.of_fixed.2.1
  have hcaller := Rust.calls_variable hfree.of_fixed.2.2
  have hledger (name : String) : (((Rust.Expr.ident "env").method "ledger").method name).calls isRef = 0 := by grind
  have htime : ((((Rust.Expr.ident "env").method "ledger").method "timestamp").cast "u128").calls isRef = 0 := by
    rw [Rust.calls_cast, hledger]
  unfold envValue
  grind

-- The vector that is filled is no more than variables of its own.
theorem takes_newArray (hfree : Spares isRef) (elem : Ty) (hx : x.calls isRef = n) (t : Ty) :
    Takes isRef E n (newArray elem x t) := by
  refine takes_bind (takes_zero hfree elem) fun z hz => takes_steady_bind (steady_use _) fun _ => ?_
  refine takes_temp_bind hfree (by decide) fun v hv => takes_temp_bind hfree (by decide) fun k hk => ?_
  refine takes_temp_bind hfree (by decide) fun i hi => takes_expr ?_
  have hnew := calls_hostCall hfree "Vec::new" []
  have hsize : (asU32 x t).calls isRef = n := (calls_asU32 t).trans hx
  have hz : z.calls isRef = 0 := hz
  simp only [Rust.Expr.calls, Rust.callsOfList] at hnew hsize hz
  simp [Rust.Expr.calls, Rust.Expr.exprs, Rust.Block.exprs, Rust.Stmt.exprs, Rust.exprsOfStmts, Rust.exprsOfOption,
    Rust.exprsOfList, Rust.isCall, hnew, hsize, hz, hv, hk, hi]

theorem calls_persistent (hfree : Spares isRef) : persistent.calls isRef = 0 := by
  have henv := Rust.calls_variable hfree.of_fixed.2.1
  unfold persistent
  grind

theorem calls_dataKey (hfree : Spares isRef) (d : FieldDecl) (xs : List Rust.Expr) :
    (dataKey d xs).calls isRef = callsOfList isRef xs := by
  cases xs with
  | nil =>
      refine Rust.calls_variable (hfree.path _ ?_)
      simp [Rust.isPath, String.toList_append]
  | cons x xs => exact Rust.calls_callPath _

theorem takes_readField (hfree : Spares isRef) (d : FieldDecl) (hxs : callsOfList isRef xs = n) :
    Takes isRef E n (readField d xs) := by
  have hkey := calls_dataKey hfree d xs
  have hget (t : String) :
      (persistent.methodCall ("get::<DataKey, " ++ t ++ ">") [(dataKey d xs).ref]).calls isRef = n := by
    have hstorage := calls_persistent hfree
    grind
  refine takes_steady_bind (steady_type _) fun t => takes_tryCatch (by grind) ?_ fun _ => ?_
  · refine takes_bind (takes_zero hfree _) fun z hz => takes_expr ?_
    grind
  · grind

theorem calls_writeField (hfree : Spares isRef) (d : FieldDecl) (x : Rust.Expr) (xs : List Rust.Expr) :
    (writeField d x xs).calls isRef = callsOfList isRef xs + x.calls isRef := by
  have hkey := calls_dataKey hfree d xs
  have hstorage := calls_persistent hfree
  unfold writeField
  grind

theorem takes_call (hfree : Spares isRef) (callee : Routine) (hxs : callsOfList isRef xs = n) :
    Takes isRef E n (call callee xs) := by
  have henv := Rust.calls_variable hfree.of_fixed.2.1
  have hcaller := Rust.calls_variable hfree.of_fixed.2.2
  refine takes_steady_bind steady_frame fun here => takes_expr ?_
  rw [Rust.calls_callPath, List.cons_append, Rust.callsOfList_cons, Rust.callsOfList_append, hxs]
  unfold env
  grind

theorem calls_externalCall (method : Signature) {ref : Rust.Expr} (xs : List Rust.Expr) :
    (externalCall method ref xs).calls isRef = ref.calls isRef + callsOfList isRef xs := by
  have hargs : callsOfList isRef (xs.map borrow) = callsOfList isRef xs := by
    induction xs with
    | nil => rfl
    | cons x xs ih => rw [List.map_cons, Rust.callsOfList_cons, Rust.callsOfList_cons, ih, calls_borrow]
  rw [externalCall, Rust.calls_methodCall, hargs]

end Soroban

namespace Emit

open Rust (callsOfList callsOfStmts)

variable {isRef : String → Bool} {E : Env} {n m : Nat} {x y : Rust.Expr} {xs : List Rust.Expr}

@[grind ←] theorem takes_intLiteral (hfree : Spares isRef) (value : Nat) (negative signed : Bool) (bits : Nat) :
    Takes isRef E 0 (intLiteral value negative signed bits) := by
  unfold intLiteral
  grind

theorem takes_stringLiteral (hfree : Spares isRef) (text : String) : Takes isRef E 0 (stringLiteral text) := by
  unfold stringLiteral
  grind

theorem takes_zero (hfree : Spares isRef) (t : Ty) : Takes isRef E 0 (zero t) := by
  unfold zero
  grind

theorem takes_intBound (hfree : Spares isRef) (signed : Bool) (bits : Nat) (isMax : Bool) :
    Takes isRef E 0 (intBound signed bits isMax) := by
  unfold intBound
  grind

theorem takes_applyBinary (op : Solidity.BinaryOp) (h : x.calls isRef + y.calls isRef = n) (t u : Ty) :
    Takes isRef E n (applyBinary op x y t u) := by
  unfold applyBinary
  grind

theorem takes_applyUnary (hfree : Spares isRef) (op : Solidity.UnaryOp) (hx : x.calls isRef = n) (t : Ty) :
    Takes isRef E n (applyUnary op x t) := by
  unfold applyUnary
  grind

@[grind ←] theorem takes_convert (hfree : Spares isRef) (hx : x.calls isRef = n) (source result : Ty) :
    Takes isRef E n (convert x source result) := by
  unfold convert
  grind

theorem takes_arrayIndex (h : x.calls isRef + y.calls isRef = n) (t : Ty) : Takes isRef E n (arrayIndex x y t) := by
  unfold arrayIndex
  grind

theorem takes_arraySet (t : Ty) {z : Rust.Expr} (h : x.calls isRef + y.calls isRef + z.calls isRef = n) :
    Takes isRef E n (arraySet x y t z) := by
  unfold arraySet
  grind [Soroban.calls_arraySet]

theorem takes_arrayLength (hfree : Spares isRef) (hx : x.calls isRef = n) : Takes isRef E n (arrayLength x) := by
  unfold arrayLength Ink.arrayLength
  grind

-- In ink! the length of a new array stands in the text of a macro, where no calls are counted.
theorem takes_newArray (hfree : Spares isRef) (elem : Ty) (hx : x.calls isRef = 0) (t : Ty) :
    Takes isRef E 0 (newArray elem x t) := by
  unfold newArray Ink.newArray
  grind [Soroban.takes_newArray]

theorem takes_arrayLiteral (hfree : Spares isRef) (length : Int) (hxs : callsOfList isRef xs = n) :
    Takes isRef E n (arrayLiteral length xs) := by
  unfold arrayLiteral
  grind

theorem takes_envValue (hfree : Spares isRef) (kind : EnvKind) : Takes isRef E 0 (envValue kind) := by
  unfold envValue
  grind

theorem takes_fieldPlace? (hfree : Spares isRef) (d : FieldDecl) : Takes isRef E 0 (fieldPlace? d) := by
  unfold fieldPlace? Ink.fieldPlace?
  grind

theorem takes_readField (hfree : Spares isRef) (d : FieldDecl) (hxs : callsOfList isRef xs = n) :
    Takes isRef E n (readField d xs) := by
  unfold readField
  grind [Ink.calls_readField, Soroban.takes_readField]

theorem takes_writeField (hfree : Spares isRef) (d : FieldDecl) (h : callsOfList isRef xs + x.calls isRef = n) :
    Takes isRef E n (writeField d xs x) := by
  unfold writeField
  grind [Ink.calls_writeField, Soroban.calls_writeField]

theorem takes_invoke (hfree : Spares isRef) (callee : Routine) (hxs : callsOfList isRef xs = n) :
    Takes isRef E n (invoke callee xs) := by
  unfold invoke
  grind [Ink.calls_call, Soroban.takes_call]

theorem takes_externalCall (method : Signature) {name : String} (hname : isRef name = true)
    (hxs : callsOfList isRef xs = n) : Takes isRef E (n + 1) (externalCall method (.ident name) xs) := by
  have href := Rust.calls_reference hname
  unfold externalCall Ink.externalCall
  grind [Soroban.calls_externalCall]

-- Expressions.

section Operands

variable {written : Emit Access}

theorem takes_valueOf (e : Expr) (h : Takes isRef E n written) : Takes isRef E n (valueOf e written) := by
  refine takes_steady_bind (steady_checkKeys e) fun _ => takes_bind h fun a ha => ?_
  cases a with
  | value x => exact takes_expr ha
  | entry d keys missing => exact takes_throw _

theorem takes_operandOf (e : Expr) (h : Takes isRef E n written) : Takes isRef E n (operandOf e written) := by
  refine takes_bind (takes_valueOf e h) fun x hx => ?_
  grind

theorem takes_operandAs (hfree : Spares isRef) (t : Option Ty) (e : Expr) {written : Option Ty → Emit Access}
    (h : ∀ t, Takes isRef E n (written t)) : Takes isRef E n (operandAs t e written) := by
  refine takes_bind (takes_operandOf e (h t)) fun x hx => ?_
  grind

end Operands

theorem takes_numberLiteral (hfree : Spares isRef) (expected : Option Ty) (start : Text.Position) (value : Nat)
    (negative : Bool) : Takes isRef E 0 (numberLiteral expected start value negative) := by
  unfold numberLiteral
  grind

theorem takes_fieldAccess (hfree : Spares isRef) (d : FieldDecl) : Takes isRef E 0 (fieldAccess d) := by
  unfold fieldAccess
  split
  · next hmapping =>
      refine takes_pure ⟨rfl, ?_⟩
      cases ht : d.type with
      | mapping key value => exact List.cons_ne_nil _ _
      | _ => rw [ht] at hmapping; cases hmapping
  · refine takes_bind (takes_fieldPlace? hfree d) fun place hplace => ?_
    cases place with
    | none => exact takes_bind (takes_readField hfree d rfl) fun x hx => takes_pure hx
    | some x => exact takes_pure (hplace x rfl)

theorem takes_member {a : Access} (ha : Tallied.tally isRef n a) (start : Text.Position) (name : String) :
    Takes isRef E n (a.member start name) := by
  cases a with
  | value x => exact takes_pure ((Rust.calls_field _).trans ha)
  | entry d keys missing => exact takes_throw _

theorem takes_index (hfree : Spares isRef) {a : Access} (ha : Tallied.tally isRef n a) (start : Text.Position)
    (on keyType : Ty) {key : Ty → Emit Rust.Expr} (hk : ∀ t, Takes isRef E m (key t)) :
    Takes isRef E (n + m) (a.index start on keyType key) := by
  have hkeys {keys : List Rust.Expr} (hkeys : callsOfList isRef keys = n) (k : Rust.Expr) (hk : k.calls isRef = m) :
      callsOfList isRef (keys ++ [k]) = n + m := by
    rw [Rust.callsOfList_append, Rust.callsOfList_singleton, hkeys, hk]
  unfold Access.index
  split
  · split
    · exact takes_throw_bind _ _
    · refine takes_bind (hk _) fun k hk => ?_
      exact takes_bind (takes_arrayIndex (congrArg₂ (· + ·) ha hk) _) fun x hx => takes_pure hx
  · exact absurd rfl ha.2
  · refine takes_bind (hk _) fun k hk => ?_
    exact takes_bind (takes_readField hfree _ (hkeys ha.1 k hk)) fun x hx => takes_pure hx
  · next hmore => exact takes_bind (hk _) fun k hk => takes_pure ⟨hkeys ha.1 k hk, hmore⟩

end Emit

namespace Program

mutual

-- How many calls are made where an expression stands. The address of another contract is written where the reference to
-- it is declared.
def Expr.callCount : Expr → Nat
  | .call _ _ args _ _ _ _ | .libraryCall _ _ _ _ args | .externalCall _ _ _ _ args => callCountOf args + 1
  | .member _ x _ _ | .unary _ _ x _ | .length _ x | .cast _ _ x | .newArray _ _ x => x.callCount
  | .index _ x y _ | .binary _ _ x y _ => x.callCount + y.callCount
  | .ternary _ c x y _ => c.callCount + x.callCount + y.callCount
  | .tuple _ es | .structLit _ _ es | .arrayLit _ es _ => callCountOf es
  | _ => 0

def callCountOf : List Expr → Nat
  | [] => 0
  | e :: rest => e.callCount + callCountOf rest

end

end Program

namespace Emit

open Rust (callsOfList callsOfStmts)

variable {isRef : String → Bool} {E : Env} {n m : Nat} {x y : Rust.Expr} {xs : List Rust.Expr}

-- An expression of which all calls are found in what is written for it: the length of a new array has none, a struct has
-- a value for each of its fields, and methods of other contracts are told apart from what code does with values.
def Countable (E : Env) : Expr → Prop
  | .newArray _ _ size => size.callCount = 0
  | .structLit _ r values => values.length = (((E.package.struct? r).map (·.fields)).getD []).length
  | .externalCall _ _ method _ _ => method.name ≠ "clone" ∧ method.name ≠ "into"
  | _ => True

theorem length_accessList {inlined : ConstantDecl → Emit Rust.Expr} {types : List Ty} {es : List Expr} {s s' : State}
    (hw : Writes (accessList inlined types es) E s xs s') : xs.length = es.length := by
  induction es generalizing types xs s with
  | nil =>
      rw [accessList] at hw
      obtain ⟨rfl, -⟩ := writes_pure.mp hw
      rfl
  | cons e es ih =>
      rw [accessList] at hw
      obtain ⟨x, s₁, -, hw⟩ := writes_bind.mp hw
      obtain ⟨rest, s₂, hrest, hw⟩ := writes_bind.mp hw
      obtain ⟨rfl, rfl⟩ := writes_pure.mp hw
      rw [List.length_cons, List.length_cons, ih hrest]

theorem takes_value {act : Emit Rust.Expr} (h : Takes isRef E n act) :
    Takes isRef E n (act >>= fun x => pure (Access.value x)) :=
  takes_bind h fun _ hx => takes_pure hx

-- By induction along the expression. Every operand is written once.
theorem takes_access (hfree : Spares isRef) {depth : Nat} (h : ∀ d, Takes isRef E 0 (constantValue depth d)) :
    (∀ expected e, e.Each (Countable E) → Takes isRef E e.callCount (access (constantValue depth) expected e)) ∧
      ∀ types es, (∀ e ∈ es, e.Each (Countable E)) →
        Takes isRef E (callCountOf es) (accessList (constantValue depth) types es) := by
  have hoperand (t : Option Ty) (e : Expr) (he : ∀ t, Takes isRef E e.callCount (access (constantValue depth) t e)) :
      Takes isRef E e.callCount (operandAs t e fun t => access (constantValue depth) t e) :=
    takes_operandAs hfree t e he
  apply access.mutual_induct
    (fun expected e => e.Each (Countable E) → Takes isRef E e.callCount (access (constantValue depth) expected e))
    (fun types es => (∀ e ∈ es, e.Each (Countable E)) →
      Takes isRef E (callCountOf es) (accessList (constantValue depth) types es))
  all_goals intros
  all_goals rename_i hcountable
  all_goals first
    | have hself := (Expr.each_iff.mp hcountable).1
      have hchildren := (Expr.each_iff.mp hcountable).2
      simp only [Expr.children, List.forall_mem_cons] at hchildren
    | simp only [List.forall_mem_cons] at hcountable
    | skip
  all_goals simp only [access, accessList, Expr.callCount, callCountOf]
  case case1 => exact takes_value (takes_numberLiteral hfree _ _ _ _)
  case case2 => exact takes_pure rfl
  case case3 => exact takes_value (takes_stringLiteral hfree _)
  case case4 =>
    refine takes_local_bind fun found hfound => ?_
    cases found with
    | none => exact takes_throw _
    | some ident => exact takes_pure (Rust.calls_variable (hfound ident rfl))
  case case5 => exact takes_fieldAccess hfree _
  case case6 => exact takes_value (h _)
  case case7 htarget => exact takes_bind (htarget hchildren.1) fun a ha => takes_member ha _ _
  case case8 htarget hkey =>
    refine takes_bind (htarget hchildren.1) fun a ha => takes_index hfree ha _ _ _ fun t => ?_
    exact hoperand _ _ fun t => hkey t hchildren.2.1
  case case9 hlogical hleft hright =>
    rw [if_pos hlogical]
    refine takes_bind (hoperand _ _ fun t => hleft t hchildren.1) fun l hl => ?_
    refine takes_bind (hoperand _ _ fun t => hright t hchildren.2.1) fun r hr => takes_pure ?_
    exact (Rust.calls_binary _).trans (congrArg₂ (· + ·) hl hr)
  case case10 hlogical hleft hright =>
    rw [if_neg hlogical]
    refine takes_bind (hoperand _ _ fun t => hleft t hchildren.1) fun l hl => ?_
    refine takes_bind (hoperand _ _ fun t => hright t hchildren.2.1) fun r hr => takes_value ?_
    refine takes_applyBinary _ (congrArg₂ (· + ·) ?_ ?_) _ _
    · split
      · exact Rust.calls_borrowed.trans hl
      · exact hl
    · split
      · exact Rust.calls_borrowed.trans hr
      · exact hr
  case case11 hoperand' =>
    refine takes_bind (hoperand _ _ fun t => hoperand' t hchildren.1) fun x hx => takes_pure ?_
    exact Rust.calls_not.trans hx
  case case12 operand _ _ _ hnumber =>
    obtain ⟨q, k, rfl⟩ : ∃ q k, operand = .int q k := by
      unfold number? at hnumber
      split at hnumber
      · exact ⟨_, _, rfl⟩
      · cases hnumber
    exact takes_value (takes_numberLiteral hfree _ _ _ _)
  case case13 hoperand' =>
    refine takes_bind (hoperand _ _ fun t => hoperand' t hchildren.1) fun x hx => takes_value ?_
    exact takes_applyUnary hfree _ hx _
  case case14 hargs =>
    refine takes_steady_bind (steady_callee _ _ _ _ _ _) fun found => ?_
    refine takes_steady_bind (steady_callRoutine _ _) fun r => ?_
    refine takes_bind (hargs _ hchildren) fun xs hxs => takes_bind (takes_invoke hfree r hxs) fun x hx => takes_pure ?_
    exact Rust.calls_tryOp.trans (congrArg (· + 1) hx)
  case case15 hargs =>
    refine takes_steady_bind (steady_declaredFunction _ _) fun f => ?_
    refine takes_steady_bind (steady_libraryName _ f) fun name => ?_
    refine takes_steady_bind (steady_libraryRoutine f name) fun r => ?_
    refine takes_bind (hargs hchildren) fun xs hxs => takes_bind (takes_invoke hfree r hxs) fun x hx => takes_pure ?_
    exact Rust.calls_tryOp.trans (congrArg (· + 1) hx)
  case case16 haddress hargs =>
    refine takes_bind (hoperand _ _ fun t => haddress t hchildren.1) fun account _ => ?_
    refine takes_ref_bind fun found hfound => ?_
    cases found with
    | none => exact takes_throw _
    | some name =>
        refine takes_bind (hargs hchildren.2) fun xs hxs => takes_value ?_
        exact takes_externalCall _ (hfound name rfl) hxs
  case case19 harray =>
    refine takes_bind (takes_valueOf _ (harray hchildren.1)) fun x hx => takes_value ?_
    exact takes_arrayLength hfree hx
  case case20 => exact takes_value (takes_envValue hfree _)
  case case21 hcond htrue hfalse =>
    refine takes_bind (hoperand _ _ fun t => hcond t hchildren.1) fun c hc => ?_
    refine takes_bind (hoperand _ _ fun t => htrue t hchildren.2.1) fun x hx => ?_
    refine takes_bind (hoperand _ _ fun t => hfalse t hchildren.2.2.1) fun y hy => takes_pure ?_
    exact (Rust.calls_ifElse _).trans (congrArg₂ (· + ·) (congrArg₂ (· + ·) hc hx) hy)
  case case22 helements =>
    refine takes_bind (helements hchildren) fun xs hxs => ?_
    split
    · exact takes_pure (Rust.callsOfList_singleton.symm.trans hxs)
    · exact takes_pure (Rust.calls_tuple.trans hxs)
  case case23 hplan hvalue =>
    rw [hplan]
    exact takes_value (takes_operandOf _ (hvalue hchildren.1))
  case case24 hplan hvalue =>
    rw [hplan]
    exact takes_value (hoperand _ _ fun t => hvalue t hchildren.1)
  case case25 hplan hvalue =>
    rw [hplan]
    refine takes_bind (hoperand _ _ fun t => hvalue t hchildren.1) fun x hx => ?_
    split
    · exact takes_pure hx
    · exact takes_value (takes_convert hfree hx _ _)
  case case26 =>
    refine takes_pure (Rust.calls_variable (hfree.path _ ?_))
    simp [Rust.isPath, String.toList_append]
  case case27 values hvalues =>
    refine takes_read_bind (takes_bind_of_writes (hvalues E hchildren) fun xs hxs hwrites => takes_pure ?_)
    obtain ⟨s, s', hwrites⟩ := hwrites
    have hlength : values.length = _ := hself
    rw [tally_value, Rust.calls_structLit fun _ => rfl, ← hlength, ← length_accessList hwrites, List.take_length]
    exact hxs
  case case28 => exact takes_value (takes_intBound hfree _ _ _)
  case case29 hsize =>
    have hzero : _ = 0 := hself
    rw [hzero] at hsize ⊢
    refine takes_bind (takes_operandAs hfree _ _ fun t => hsize t hchildren.1) fun x hx => takes_value ?_
    exact takes_newArray hfree _ hx _
  case case30 helements =>
    refine takes_bind (helements hchildren) fun xs hxs => takes_value (takes_arrayLiteral hfree _ hxs)
  case case32 => exact takes_value (takes_zero hfree _)
  case case33 => exact takes_pure rfl
  case case34 he hrest =>
    refine takes_bind (hoperand _ _ fun t => he t hcountable.1) fun x hx => ?_
    refine takes_bind (hrest hcountable.2) fun xs hxs => takes_pure ?_
    exact Rust.callsOfList_cons.trans (congrArg₂ (· + ·) hx hxs)
  all_goals exact takes_throw _

-- The values of constants call nothing.
def ConstantsCallNothing (E : Env) : Prop :=
  ∀ r c v, E.package.constant? r = some c → c.value = some v → v.callCount = 0 ∧ v.Each (Countable E)

theorem takes_constantValue (hfree : Spares isRef) (hconsts : ConstantsCallNothing E) (depth : Nat) (d : ConstantDecl) :
    Takes isRef E 0 (constantValue depth d) := by
  induction depth generalizing d with
  | zero => exact takes_throw _
  | succ depth ih =>
      refine takes_read_bind ?_
      split
      · next v hv =>
          obtain ⟨c, hc, hv⟩ := Option.bind_eq_some_iff.mp hv
          obtain ⟨hzero, hcountable⟩ := hconsts _ c v hc hv
          exact takes_valueOf v (hzero ▸ (takes_access hfree ih).1 _ v hcountable)
      · exact takes_throw _

theorem takes_exprAs (hfree : Spares isRef) (hconsts : ConstantsCallNothing E) (t : Ty) {e : Expr}
    (he : e.Each (Countable E)) : Takes isRef E e.callCount (exprAs t e) :=
  takes_operandAs hfree (some t) e fun t =>
    takes_read_bind ((takes_access hfree (takes_constantValue hfree hconsts _)).1 t e he)

end Emit

end RustContracts
