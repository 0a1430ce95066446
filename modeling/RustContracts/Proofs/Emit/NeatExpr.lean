import RustContracts.Proofs.Emit.Neat
import RustContracts.Proofs.Program.Subterms

-- Every step that writes an expression is neat.
namespace RustContracts

open Program Emit
open Rust (Rules AllClean FieldsClean OptionClean)

namespace Ink

variable {R : Rules} {E : Env} {C : Calls} {x y : Rust.Expr} {xs : List Rust.Expr}

@[grind ←] theorem neat_intName (signed : Bool) (bits : Nat) : Neat R E C (intName signed bits) :=
  neat_text (steady_intName signed bits)

@[grind ←] theorem neat_type (v : InkVersion) (t : Ty) : Neat R E C (type v t) :=
  neat_text (steady_type v t)

@[grind ←] theorem neat_useU256 (v : InkVersion) : Neat R E C (useU256 v) :=
  neat_of_steady (steady_useU256 v) fun _ => trivial

@[grind .] theorem neat_useString : Neat R E C useString := neat_use _

@[grind .] theorem neat_useVec : Neat R E C useVec := neat_use _

@[grind ←] theorem neat_toU256 (v : InkVersion) (hx : x.Clean R) : Neat R E C (toU256 v x) := by
  unfold toU256
  grind [Rust.isClient_plain]

@[grind ←] theorem clean_u256 (value : Nat) : (u256 value).Clean R := by
  unfold u256
  split
  · grind [Rust.isClient_plain]
  · exact ⟨by decide, by simp [AllClean, Rust.Expr.Clean], trivial⟩

@[grind ←] theorem neat_intLiteral (v : InkVersion) (value : Nat) (negative signed : Bool)
    (bits : Nat) : Neat R E C (intLiteral v value negative signed bits) := by
  unfold intLiteral
  grind

@[grind ←] theorem neat_stringLiteral (text : String) : Neat R E C (stringLiteral text) := by
  unfold stringLiteral
  grind [Rust.isClient_plain]

@[grind ←] theorem neat_zero (v : InkVersion) (t : Ty) : Neat R E C (zero v t) := by
  unfold zero
  grind

@[grind ←] theorem neat_intBound (v : InkVersion) (signed : Bool) (bits : Nat) (isMax : Bool) :
    Neat R E C (intBound v signed bits isMax) := by
  unfold intBound
  grind

@[grind ←] theorem clean_binary (op : Solidity.BinaryOp) (hx : x.Clean R) (hy : y.Clean R) (t u : Ty) :
    (binary op x y t u).Clean R := by
  unfold binary power
  grind [Rust.isClient_plain]

@[grind ←] theorem neat_unary (op : Solidity.UnaryOp) (hx : x.Clean R) (t : Ty) :
    Neat R E C (unary op x t) := by
  unfold unary
  grind

@[grind ←] theorem neat_cast (v : InkVersion) (hx : x.Clean R) (source result : Ty) :
    Neat R E C (cast v x source result) := by
  have htext : (Rust.Expr.callPath "String::from_utf8" [x]).Clean R := by
    grind [Rust.isClient_plain]
  unfold cast
  split
  all_goals grind

@[grind ←] theorem clean_arrayIndex (hx : x.Clean R) (hy : y.Clean R) (t : Ty) :
    (arrayIndex x y t).Clean R := by
  unfold arrayIndex asUsize
  grind

@[grind ←] theorem neat_arrayLength (v : InkVersion) (hx : x.Clean R) :
    Neat R E C (arrayLength v x) := by
  unfold arrayLength
  grind

@[grind ←] theorem neat_newArray (v : InkVersion) (elem : Ty) (t : Ty) :
    Neat R E C (newArray v elem x t) := by
  unfold newArray
  grind

@[grind ←] theorem neat_arrayLiteral (length : Int) (hxs : AllClean R xs) :
    Neat R E C (arrayLiteral length xs) := by
  unfold arrayLiteral
  grind

@[grind ←] theorem neat_envValue (hR : R.Free) (v : InkVersion) (kind : EnvKind) :
    Neat R E C (envValue v kind) := by
  have henv : ((Rust.Expr.ident "self").method "env").Clean R := by grind
  unfold envValue
  grind

@[grind ←] theorem clean_selfField (hR : R.Free) (name : String) : (selfField name).Clean R := by
  unfold selfField
  grind

@[grind ←] theorem clean_fieldPlace? (hR : R.Free) (d : FieldDecl) :
    OptionClean R (fieldPlace? d) := by
  unfold fieldPlace?
  grind

@[grind ←] theorem clean_mappingKey (hxs : AllClean R xs) : (mappingKey xs).Clean R := by
  unfold mappingKey
  grind

@[grind ←] theorem clean_readField (hR : R.Free) (d : FieldDecl) (hxs : AllClean R xs) :
    (readField d xs).Clean R := by
  unfold readField
  grind

@[grind ←] theorem clean_writeField (hR : R.Free) (d : FieldDecl) (hx : x.Clean R)
    (hxs : AllClean R xs) : (writeField d x xs).Clean R := by
  unfold writeField
  grind [Rust.Stmt.Clean]

@[grind ←] theorem clean_call (hR : R.Free) (callee : Routine) (hxs : AllClean R xs) :
    (call callee xs).Clean R := by
  unfold call
  grind [Rust.Expr.isSelf]

@[grind ←] theorem clean_externalCall {name : String} (method : Signature)
    (hcalls : R.calls name method.name) (hxs : AllClean R xs) :
    (externalCall method (.ident name) xs).Clean R :=
  ⟨fun hinto => absurd hinto (R.calls_plain hcalls).2, .inr ⟨name, rfl, hcalls⟩, hxs⟩

@[grind ←] theorem neat_revert (entry : ErrorEntry) (hxs : AllClean R xs) :
    Neat R E C (revert entry xs) := by
  have hpath (name : String) : Rust.isPath ("Error::" ++ name) = true := by
    simp [Rust.isPath, String.toList_append]
  have hclient (name : String) : Rust.isClient ("Error::" ++ name) = false :=
    Rust.isClient_append (by decide) name
  have hfields (x : Rust.Expr) (hx : x.Clean R) :
      FieldsClean R [⟨"code", .lit (toString entry.code.toNat)⟩, ⟨"message", x⟩] := ⟨trivial, hx, trivial⟩
  unfold revert
  grind

theorem clean_emitEvent (hR : R.Free) (ev : EventDecl) (hxs : AllClean R xs) :
    (emitEvent ev xs).Clean R := by
  have henv : ((Rust.Expr.ident "self").method "env").Clean R := by grind
  refine Rust.clean_methodCall (by decide) henv ⟨?_, trivial⟩
  split
  · exact .inr (hR.type ev.name)
  · exact ⟨Rust.fieldsClean_zip (fun _ => rfl) hxs, trivial⟩

end Ink

namespace Soroban

variable {R : Rules} {E : Env} {C : Calls} {x y : Rust.Expr} {xs : List Rust.Expr}

@[grind ←] theorem neat_type (t : Ty) : Neat R E C (type t) := neat_text (steady_type t)

theorem clean_env (hR : R.Free) : env.Clean R := .inr hR.of_fixed.2.1

theorem allClean_lits {γ : Type} (f : γ → String) (as : List γ) :
    AllClean R (as.map fun a => .lit (f a)) := by
  simp [Rust.allClean_iff, Rust.Expr.Clean]

@[grind ←] theorem neat_intLiteral (hR : R.Free) (value : Nat) (negative signed : Bool) (bits : Nat) :
    Neat R E C (intLiteral value negative signed bits) := by
  have hlimbs := allClean_lits (R := R) (fun i => "0x" ++ Text.hex 16 (limb value i)) [3, 2, 1, 0]
  unfold intLiteral
  grind [Rust.isClient_plain]

@[grind ←] theorem neat_stringLiteral (hR : R.Free) (text : String) :
    Neat R E C (stringLiteral text) := by
  unfold stringLiteral
  grind [Rust.isClient_plain]

@[grind ←] theorem clean_enumVariant (e : EnumDecl) (variant : String) :
    (enumVariant e variant).Clean R := by
  refine .inl ?_
  simp [Rust.isPath, String.toList_append]

theorem allClean_replicate (n : Nat) (hx : x.Clean R) : AllClean R (List.replicate n x) := by
  rw [Rust.allClean_iff]
  intro y hy
  rwa [(List.mem_replicate.mp hy).2]

theorem neat_zerosWith (hR : R.Free) {structZero : DeclRef → Emit Rust.Expr}
    (h : ∀ r, Neat R E C (structZero r)) :
    (∀ t, Neat R E C (zeroWith structZero t)) ∧ ∀ ts, Neat R E C (zerosWith structZero ts) := by
  have hbytes (size : Nat) :
      AllClean R [(Rust.Expr.lit ("[0u8; " ++ toString size ++ "]")).ref] := ⟨trivial, trivial⟩
  have henv : env.Clean R := clean_env hR
  apply zeroWith.mutual_induct (fun t => Neat R E C (zeroWith structZero t))
    (fun ts => Neat R E C (zerosWith structZero ts))
  all_goals intros
  all_goals simp only [zeroWith, zerosWith]
  all_goals grind [Rust.isClient_plain, allClean_replicate]

@[grind ←] theorem neat_zero (hR : R.Free) (t : Ty) : Neat R E C (zero t) := by
  refine neat_read_bind ((neat_zerosWith hR ?_).1 t)
  generalize E.package.structCount + 1 = depth
  induction depth with
  | zero => exact fun r => neat_throw _
  | succ depth ih =>
      intro r
      refine neat_read_bind (neat_bind ((neat_zerosWith hR ih).2 _) fun xs hxs => neat_pure ?_)
      exact ⟨Rust.fieldsClean_zip (fun _ => rfl) hxs, trivial⟩

@[grind ←] theorem neat_intBound (hR : R.Free) (signed : Bool) (bits : Nat) (isMax : Bool) :
    Neat R E C (intBound signed bits isMax) := by
  have hparts (name : String) : Rust.isClient (name ++ "::from_parts") = false :=
    Rust.isClient_of_last (.inr (by decide))
  have hlimbs (limbs : List String) : AllClean R (limbs.map Rust.Expr.lit) := allClean_lits id limbs
  unfold intBound
  grind

@[grind ←] theorem neat_binary (op : Solidity.BinaryOp) (hx : x.Clean R) (hy : y.Clean R) (t u : Ty) :
    Neat R E C (binary op x y t u) := by
  unfold binary wideBinary wideMethod?
  cases op
  all_goals grind

@[grind ←] theorem neat_unary (hR : R.Free) (op : Solidity.UnaryOp) (hx : x.Clean R) (t : Ty) :
    Neat R E C (unary op x t) := by
  unfold unary
  grind

@[grind ←] theorem neat_cast (hR : R.Free) (hx : x.Clean R) (source result : Ty) :
    Neat R E C (cast x source result) := by
  have hu32 (name : String) : Rust.isClient (name ++ "::from_u32") = false :=
    Rust.isClient_of_last (.inl (by decide))
  have hnarrow (method : String) : method ≠ "into" → ((x.method method).method "unwrap").Clean R := by
    grind
  unfold cast
  split
  all_goals grind [Rust.isClient_plain]

@[grind ←] theorem clean_arraySet (hx : x.Clean R) (hy : y.Clean R) (t : Ty) {z : Rust.Expr}
    (hz : z.Clean R) : (arraySet x y t z).Clean R := by
  unfold arraySet
  grind [Rust.Stmt.Clean]

@[grind ←] theorem neat_arrayLength (hR : R.Free) (hx : x.Clean R) :
    Neat R E C (arrayLength x) := by
  unfold arrayLength
  grind [Rust.isClient_plain]

@[grind ←] theorem neat_arrayLiteral (hR : R.Free) (hxs : AllClean R xs) :
    Neat R E C (arrayLiteral xs) := by
  have henv : env.Clean R := clean_env hR
  unfold arrayLiteral
  grind

@[grind ←] theorem neat_envValue (hR : R.Free) (kind : EnvKind) : Neat R E C (envValue kind) := by
  have hledger : ((Rust.Expr.ident "env").method "ledger").Clean R := by grind
  have hlast (name : String) (hname : name ≠ "into") :
      (((Rust.Expr.ident "env").method "ledger").method name).Clean R :=
    Rust.clean_method hname hledger
  unfold envValue
  grind [Rust.isClient_plain]

-- The vector that is filled is no more than variables of its own.
@[grind ←] theorem neat_newArray (hR : R.Free) (elem : Ty) (hx : x.Clean R) (t : Ty) :
    Neat R E C (newArray elem x t) := by
  have hnew : (hostCall "Vec::new" []).Clean R := by grind [Rust.isClient_plain]
  have hblock (v n i : String) (z : Rust.Expr) (hv : ¬R.reserved v) (hn : ¬R.reserved n)
      (hi : ¬R.reserved i) (hz : z.Clean R) : (Rust.Expr.block
        ⟨[.letVar true v "" (some (hostCall "Vec::new" [])),
          .letVar false n "" (some (asU32 x t)),
          .letVar true i "" (some (.lit "0u32")),
          .whileLoop "" (.binary "<" (.ident i) (.ident n))
            ⟨[.expr ((Rust.Expr.ident v).methodCall "push_back" [z]),
              .assign (.ident i) "+=" (.lit "1")], none⟩],
         some (.ident v)⟩).Clean R := by
    refine ⟨⟨Rust.clean_letVar hnew, Rust.clean_letVar (clean_asU32 t hx), Rust.clean_letVar trivial,
      ⟨⟨.inr hi, .inr hn⟩, ⟨?_, ⟨.inr hi, trivial⟩, trivial⟩, trivial⟩, trivial⟩, .inr hv⟩
    exact Rust.clean_methodCall (by decide) (.inr hv) ⟨hz, trivial⟩
  refine neat_bind (neat_zero hR elem) fun z hz => neat_bind (neat_use _) fun _ _ => ?_
  refine neat_temp_bind hR (by decide) fun v hv => neat_temp_bind hR (by decide) fun n hn => ?_
  exact neat_temp_bind hR (by decide) fun i hi => neat_pure (hblock v n i z hv hn hi hz)

theorem clean_persistent (hR : R.Free) : persistent.Clean R := by
  have hstorage : ((Rust.Expr.ident "env").method "storage").Clean R := by grind
  unfold persistent
  grind

@[grind ←] theorem clean_dataKey (d : FieldDecl) (hxs : AllClean R xs) : (dataKey d xs).Clean R := by
  cases xs with
  | nil =>
      refine .inl ?_
      simp [Rust.isPath, String.toList_append]
  | cons x xs => exact Rust.clean_callPath (Rust.isClient_append (by decide) _) hxs

@[grind ←] theorem neat_readField (hR : R.Free) (d : FieldDecl) (hxs : AllClean R xs) :
    Neat R E C (readField d xs) := by
  have hget (t : String) :
      (persistent.methodCall ("get::<DataKey, " ++ t ++ ">") [(dataKey d xs).ref]).Clean R := by
    refine Rust.clean_methodCall (fun heq => ?_) (clean_persistent hR) ⟨clean_dataKey d hxs, trivial⟩
    have hhead := congrArg (fun s => s.toList.head?) heq
    simp [String.toList_append] at hhead
  refine neat_bind (neat_type _) fun t _ => neat_tryCatch ?_ ?_ ?_
  · grind
  · grind
  · grind

@[grind ←] theorem clean_writeField (hR : R.Free) (d : FieldDecl) (hx : x.Clean R)
    (hxs : AllClean R xs) : (writeField d x xs).Clean R := by
  have hkey : (dataKey d xs).ref.Clean R := clean_dataKey d hxs
  exact Rust.clean_methodCall (by decide) (clean_persistent hR) ⟨hkey, clean_borrow hx, trivial⟩

@[grind ←] theorem neat_revert (entry : ErrorEntry) : Neat R E C (revert entry) := by
  refine neat_read_bind (neat_pure (.inl ?_))
  simp [Rust.isPath, String.toList_append]

@[grind ←] theorem neat_call (hR : R.Free) (callee : Routine) (hxs : AllClean R xs) :
    Neat R E C (call callee xs) := by
  have hself : Rust.isClient ("Self::" ++ callee.name) = false :=
    Rust.isClient_append (by decide) _
  have henv : env.Clean R := clean_env hR
  refine neat_bind (neat_of_steady steady_frame fun _ => trivial) fun here _ => neat_pure ?_
  refine Rust.clean_callPath hself (Rust.allClean_append.mpr ⟨⟨?_, ?_⟩, hxs⟩)
  · grind
  · grind

@[grind ←] theorem clean_externalCall {name : String} (method : Signature)
    (hcalls : R.calls name method.name) (hxs : AllClean R xs) :
    (externalCall method (.ident name) xs).Clean R := by
  refine ⟨fun hinto => absurd hinto (R.calls_plain hcalls).2, .inr ⟨name, rfl, hcalls⟩, ?_⟩
  rw [Rust.allClean_iff, List.forall_mem_map]
  exact fun x hx => clean_borrow (Rust.allClean_iff.mp hxs x hx)

theorem neat_emitEvent (hR : R.Free) (ev : EventDecl) (hxs : AllClean R xs) :
    Neat R E C (emitEvent ev xs) := by
  have hfields (keep : EventField × Rust.Expr → Bool) :
      AllClean R (((ev.fields.zip xs).filter keep).map Prod.snd) := by
    rw [Rust.allClean_iff, List.forall_mem_map]
    intro p hp
    exact Rust.allClean_iff.mp hxs p.2 (List.of_mem_zip (List.mem_of_mem_filter hp)).2
  have hevents : ((Rust.Expr.ident "env").method "events").Clean R := by grind
  have hname : (hostCall "Symbol::new" [.lit (Rust.quoted ev.name)]).Clean R := by
    grind [Rust.isClient_plain]
  refine neat_bind (neat_use _) fun _ _ => neat_pure ?_
  refine Rust.clean_methodCall (by decide) hevents ⟨⟨hname, hfields _⟩, ?_, trivial⟩
  split
  · trivial
  · exact hfields _

end Soroban

namespace Emit

open Solidity (BinaryOp UnaryOp)

variable {R : Rules} {E : Env} {C : Calls} {x y : Rust.Expr} {xs : List Rust.Expr}

@[grind .] theorem neat_target : Neat R E C target := neat_of_steady steady_target fun _ => trivial

@[grind ←] theorem neat_isCopy (t : Ty) : Neat R E C (isCopy t) :=
  neat_of_steady (steady_isCopy t) fun _ => trivial

@[grind ←] theorem neat_intLiteral (hR : R.Free) (value : Nat) (negative signed : Bool) (bits : Nat) :
    Neat R E C (intLiteral value negative signed bits) := by
  unfold intLiteral
  grind

@[grind ←] theorem neat_stringLiteral (hR : R.Free) (text : String) :
    Neat R E C (stringLiteral text) := by
  unfold stringLiteral
  grind

@[grind ←] theorem neat_zero (hR : R.Free) (t : Ty) : Neat R E C (zero t) := by
  unfold zero
  grind

@[grind ←] theorem neat_intBound (hR : R.Free) (signed : Bool) (bits : Nat) (isMax : Bool) :
    Neat R E C (intBound signed bits isMax) := by
  unfold intBound
  grind

@[grind ←] theorem neat_applyBinary (op : BinaryOp) (hx : x.Clean R) (hy : y.Clean R) (t u : Ty) :
    Neat R E C (applyBinary op x y t u) := by
  unfold applyBinary
  grind

@[grind ←] theorem neat_applyUnary (hR : R.Free) (op : UnaryOp) (hx : x.Clean R) (t : Ty) :
    Neat R E C (applyUnary op x t) := by
  unfold applyUnary
  grind

@[grind ←] theorem neat_convert (hR : R.Free) (hx : x.Clean R) (source result : Ty) :
    Neat R E C (convert x source result) := by
  unfold convert
  grind

@[grind .] theorem neat_elementsArePlaces : Neat R E C elementsArePlaces :=
  neat_of_steady steady_elementsArePlaces fun _ => trivial

@[grind ←] theorem neat_arrayIndex (hx : x.Clean R) (hy : y.Clean R) (t : Ty) :
    Neat R E C (arrayIndex x y t) := by
  unfold arrayIndex
  grind

@[grind ←] theorem neat_arraySet (hx : x.Clean R) (hy : y.Clean R) (t : Ty) {z : Rust.Expr}
    (hz : z.Clean R) : Neat R E C (arraySet x y t z) := by
  have hassign : (Rust.Stmt.assign (Ink.arrayIndex x y t) "=" z).Clean R :=
    ⟨Ink.clean_arrayIndex hx hy t, hz⟩
  unfold arraySet
  grind

@[grind ←] theorem neat_arrayLength (hR : R.Free) (hx : x.Clean R) :
    Neat R E C (arrayLength x) := by
  unfold arrayLength
  grind

@[grind ←] theorem neat_arrayPush (hx : x.Clean R) (hy : y.Clean R) :
    Neat R E C (arrayPush x y) := by
  have hargs : AllClean R [y] := ⟨hy, trivial⟩
  unfold arrayPush
  grind

@[grind ←] theorem neat_arrayPop (hx : x.Clean R) : Neat R E C (arrayPop x) := by
  unfold arrayPop
  grind

@[grind ←] theorem neat_newArray (hR : R.Free) (elem : Ty) (hx : x.Clean R) (t : Ty) :
    Neat R E C (newArray elem x t) := by
  unfold newArray
  grind

@[grind ←] theorem neat_arrayLiteral (hR : R.Free) (length : Int) (hxs : AllClean R xs) :
    Neat R E C (arrayLiteral length xs) := by
  unfold arrayLiteral
  grind

@[grind ←] theorem neat_envValue (hR : R.Free) (kind : EnvKind) : Neat R E C (envValue kind) := by
  unfold envValue
  grind

@[grind ←] theorem neat_fieldPlace? (hR : R.Free) (d : FieldDecl) : Neat R E C (fieldPlace? d) := by
  unfold fieldPlace?
  grind

@[grind ←] theorem neat_readField (hR : R.Free) (d : FieldDecl) (hxs : AllClean R xs) :
    Neat R E C (readField d xs) := by
  unfold readField
  grind

@[grind ←] theorem neat_writeField (hR : R.Free) (d : FieldDecl) (hxs : AllClean R xs)
    (hx : x.Clean R) : Neat R E C (writeField d xs x) := by
  unfold writeField
  grind

@[grind ←] theorem neat_emitEvent (hR : R.Free) (ev : EventDecl) (hxs : AllClean R xs) :
    Neat R E C (emitEvent ev xs) := by
  unfold emitEvent
  grind [Ink.clean_emitEvent, Soroban.neat_emitEvent]

@[grind ←] theorem neat_errorValue (entry : ErrorEntry) (hxs : AllClean R xs) :
    Neat R E C (errorValue entry xs) := by
  unfold errorValue
  grind

@[grind ←] theorem neat_invoke (hR : R.Free) (callee : Routine) (hxs : AllClean R xs) :
    Neat R E C (invoke callee xs) := by
  unfold invoke
  grind

@[grind ←] theorem neat_externalCall {name : String} (method : Signature)
    (hcalls : R.calls name method.name) (hxs : AllClean R xs) :
    Neat R E C (externalCall method (.ident name) xs) := by
  unfold externalCall
  grind

-- Expressions.

@[grind ←] theorem neat_isPlace (e : Expr) : Neat R E C (isPlace e) :=
  neat_of_steady (steady_isPlace e) fun _ => trivial

@[grind ←] theorem neat_checkKeys (e : Expr) : Neat R E C (checkKeys e) :=
  neat_of_steady (steady_checkKeys e) fun _ => trivial

@[grind ←] theorem neat_fieldAccess (hR : R.Free) (d : FieldDecl) : Neat R E C (fieldAccess d) := by
  unfold fieldAccess
  grind

@[grind ←] theorem neat_member {a : Access} (ha : a.Clean R) (start : Text.Position) (name : String) :
    Neat R E C (a.member start name) := by
  unfold Access.member
  grind

@[grind ←] theorem neat_index (hR : R.Free) {a : Access} (ha : a.Clean R) (start : Text.Position)
    (on keyType : Ty) {key : Ty → Emit Rust.Expr} (hk : ∀ t, Neat R E C (key t)) :
    Neat R E C (a.index start on keyType key) := by
  have hkeys (keys : List Rust.Expr) (k : Rust.Expr) (hkeys : AllClean R keys) (hk : k.Clean R) :
      AllClean R (keys ++ [k]) := Rust.allClean_append.mpr ⟨hkeys, hk, trivial⟩
  unfold Access.index
  split
  all_goals grind

@[grind ←] theorem neat_valueOf (e : Expr) {written : Emit Access} (h : Neat R E C written) :
    Neat R E C (valueOf e written) := by
  unfold valueOf
  grind

@[grind ←] theorem neat_operandOf (e : Expr) {written : Emit Access} (h : Neat R E C written) :
    Neat R E C (operandOf e written) := by
  unfold operandOf
  grind

@[grind ←] theorem neat_operandAs (hR : R.Free) (t : Option Ty) (e : Expr)
    {written : Option Ty → Emit Access} (h : ∀ t, Neat R E C (written t)) :
    Neat R E C (operandAs t e written) := by
  unfold operandAs
  grind

@[grind ←] theorem neat_numberLiteral (hR : R.Free) (expected : Option Ty) (start : Text.Position)
    (value : Nat) (negative : Bool) : Neat R E C (numberLiteral expected start value negative) := by
  unfold numberLiteral
  grind

@[grind ←] theorem neat_callee (start : Text.Position) (name : String) (arity : Nat) (isSuper : Bool)
    (inClass base : String) : Neat R E C (callee start name arity isSuper inClass base) :=
  neat_of_steady (steady_callee start name arity isSuper inClass base) fun _ => ⟨trivial, trivial⟩

@[grind ←] theorem neat_callRoutine (f : Function) (impl : Implementation) :
    Neat R E C (callRoutine f impl) :=
  neat_of_steady (steady_callRoutine f impl) fun _ => trivial

@[grind ←] theorem neat_declaredFunction (owner : String) (f : Signature) :
    Neat R E C (declaredFunction owner f) :=
  neat_of_steady (steady_declaredFunction owner f) fun _ => trivial

@[grind ←] theorem neat_libraryName (library : String) (f : Function) :
    Neat R E C (libraryName library f) := neat_text (steady_libraryName library f)

@[grind ←] theorem neat_libraryRoutine (f : Function) (name : String) :
    Neat R E C (libraryRoutine f name) :=
  neat_of_steady (steady_libraryRoutine f name) fun _ => trivial

-- Every call of another contract in an expression counts.
def CallsIn (C : Calls) (e : Expr) : Prop :=
  ∀ p interface method address args,
    .externalCall p interface method address args ∈ e.subexprs → C interface method address

theorem CallsIn.children {e : Expr} (h : CallsIn C e) : ∀ c ∈ e.children, CallsIn C c :=
  fun c hc p interface method address args hmem => h p interface method address args (mem_subexprs.mpr (.inr ⟨c, hc, hmem⟩))

-- A call of another contract: the reference that is found for it was declared for this interface and this
-- address, so the rules say that it is called.
theorem neat_contractCall {depth : Nat} {types : List Ty} {p : Text.Position}
    {interface : String} {method : Signature} {address : Expr} {args : List Expr}
    (hcall : C interface method address)
    (haddress : Neat R E C (operandAs (some (.address false)) address fun t =>
      access (constantValue depth) t address))
    (hargs : Neat R E C (accessList (constantValue depth) types args)) :
    Neat R E C (do
      let account ← operandAs (some (.address false)) address fun t =>
        access (constantValue depth) t address
      match ← ref? (refKey interface account) with
      | none => throw (.fault (.unsupported p "external call in this position"))
      | some name =>
        let xs ← accessList (constantValue depth) types args
        let x ← externalCall method (.ident name) xs
        return Access.value x) := by
  refine neat_bind_of_writes haddress fun account _ hwrites => neat_ref_bind fun found hfound => ?_
  have hspells : Spells E address account := ⟨depth, hwrites⟩
  cases found with
  | none => exact neat_throw _
  | some name =>
      have hcalls := hfound name rfl interface method address account hcall hspells rfl
      refine neat_bind hargs fun xs hxs => ?_
      exact neat_bind (neat_externalCall method hcalls hxs) fun x hx => neat_pure hx

-- By induction along the expression; every case puts neat steps together.
theorem neat_access (hR : R.Free) {depth : Nat} (h : ∀ d, Neat R E C (constantValue depth d)) :
    (∀ expected e, CallsIn C e → Neat R E C (access (constantValue depth) expected e)) ∧
      ∀ types es, (∀ e ∈ es, CallsIn C e) →
        Neat R E C (accessList (constantValue depth) types es) := by
  apply access.mutual_induct
    (fun expected e => CallsIn C e → Neat R E C (access (constantValue depth) expected e))
    (fun types es => (∀ e ∈ es, CallsIn C e) → Neat R E C (accessList (constantValue depth) types es))
  all_goals intros
  all_goals rename_i hcalls
  all_goals first
    | have hchildren := CallsIn.children hcalls
      simp only [Expr.children, List.forall_mem_cons] at hchildren
    | simp only [List.forall_mem_cons] at hcalls
    | skip
  all_goals simp only [access, accessList]
  case case15 hargs =>
    refine neat_bind (neat_declaredFunction _ _) fun f _ => neat_bind (neat_libraryName _ f) fun name _ => ?_
    refine neat_bind (neat_libraryRoutine f name) fun r _ => neat_bind (hargs hchildren) fun xs hxs => ?_
    exact neat_bind (neat_invoke hR r hxs) fun x hx => neat_pure hx
  case case16 haddress hargs =>
    have hcall := hcalls _ _ _ _ _ (by rw [Expr.subexprs]; exact List.mem_cons_self)
    exact neat_contractCall hcall (neat_operandAs hR _ _ fun t => haddress t hchildren.1)
      (hargs hchildren.2)
  case case21 hcond htrue hfalse =>
    obtain ⟨hc, ht, hf, -⟩ := hchildren
    refine neat_bind (neat_operandAs hR _ _ fun t => hcond t hc) fun c hc => ?_
    refine neat_bind (neat_operandAs hR _ _ fun t => htrue t ht) fun x hx => ?_
    refine neat_bind (neat_operandAs hR _ _ fun t => hfalse t hf) fun y hy => neat_pure ?_
    exact ⟨hc, ⟨trivial, hx⟩, trivial, hy⟩
  case case26 => exact neat_pure (.inl (by simp [Rust.isPath, String.toList_append]))
  case case27 hvalues =>
    refine neat_read_bind (neat_bind (hvalues E hchildren) fun xs hxs => neat_pure ?_)
    exact ⟨Rust.fieldsClean_zip (fun _ => rfl) hxs, trivial⟩
  all_goals grind

-- The calls in the values of constants count.
def ConstantsIn (C : Calls) (E : Env) : Prop :=
  ∀ r c v, E.package.constant? r = some c → c.value = some v → CallsIn C v

theorem neat_constantValue (hR : R.Free) (hconsts : ConstantsIn C E) (depth : Nat) (d : ConstantDecl) :
    Neat R E C (constantValue depth d) := by
  induction depth generalizing d with
  | zero => exact neat_throw _
  | succ depth ih =>
      refine neat_read_bind ?_
      split
      · rename_i v hv
        obtain ⟨c, hc, hv⟩ := Option.bind_eq_some_iff.mp hv
        exact neat_valueOf v ((neat_access hR ih).1 _ v (hconsts _ c v hc hv))
      · exact neat_throw _

section Operands

variable (hR : R.Free) (hconsts : ConstantsIn C E)
include hR hconsts

theorem neat_accessOf (expected : Option Ty) {e : Expr} (he : CallsIn C e) :
    Neat R E C (accessOf expected e) :=
  neat_read_bind ((neat_access hR (neat_constantValue hR hconsts _)).1 expected e he)

theorem neat_expr {e : Expr} (he : CallsIn C e) : Neat R E C (expr e) :=
  neat_valueOf e (neat_accessOf hR hconsts none he)

theorem neat_exprAs (t : Ty) {e : Expr} (he : CallsIn C e) : Neat R E C (exprAs t e) :=
  neat_operandAs hR (some t) e fun t => neat_accessOf hR hconsts t he

theorem neat_exprsAs (types : List Ty) {es : List Expr} (hes : ∀ e ∈ es, CallsIn C e) :
    Neat R E C (exprsAs types es) := by
  induction es generalizing types with
  | nil => exact neat_pure trivial
  | cons e es ih =>
      obtain ⟨he, hes⟩ := List.forall_mem_cons.mp hes
      refine neat_bind (neat_exprAs hR hconsts _ he) fun x hx => ?_
      exact neat_bind (ih _ hes) fun xs hxs => neat_pure ⟨hx, hxs⟩

end Operands

end Emit

end RustContracts
