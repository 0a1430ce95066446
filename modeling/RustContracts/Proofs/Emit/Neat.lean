import RustContracts.Proofs.Emit.Temp
import RustContracts.Proofs.Rust.Trace

-- Steps that write clean code: what they write keeps the rules for references, as long as the names in
-- scope do.
namespace RustContracts

open Program Emit
open Rust (Rules AllClean FieldsClean OptionClean CodeClean)

namespace Rust

variable {R : Rules} {x y : Expr} {xs : List Expr}

attribute [grind =] Expr.Clean AllClean FieldsClean OptionClean Block.Clean CodeClean

-- Names that are never reserved: those of temporary variables, those of types and those without a number
-- at the end.
structure Rules.Free (R : Rules) : Prop where
  temp : ∀ stem ∈ stems, ∀ k, ¬R.reserved (numbered stem k)
  type : ∀ name, ¬R.reserved (Name.type name)
  fixed : ∀ name, (name.toList.reverse.takeWhile Char.isDigit).isEmpty = true → ¬R.reserved name

@[grind →] theorem Rules.Free.of_fixed (hR : R.Free) :
    ¬R.reserved "self" ∧ ¬R.reserved "env" ∧ ¬R.reserved "caller" ∧ ¬R.reserved "" :=
  ⟨hR.fixed _ (by decide), hR.fixed _ (by decide), hR.fixed _ (by decide), hR.fixed _ (by decide)⟩

@[grind ←] theorem clean_methodCall {method : String} (hmethod : method ≠ "into") (hx : x.Clean R)
    (hxs : AllClean R xs) : (x.methodCall method xs).Clean R :=
  ⟨fun h => absurd h hmethod, .inl hx, hxs⟩

@[grind ←] theorem clean_method {method : String} (hmethod : method ≠ "into") (hx : x.Clean R) :
    (x.method method).Clean R := clean_methodCall hmethod hx trivial

@[grind ←] theorem clean_ref (hx : x.Clean R) : x.ref.Clean R := hx

@[grind ←] theorem clean_not (hx : x.Clean R) : x.not.Clean R := hx

@[grind ←] theorem clean_negate (hx : x.Clean R) : x.negate.Clean R := hx

@[grind ←] theorem clean_callPath {path : String} (hpath : isClient path = false)
    (hxs : AllClean R xs) : (Expr.callPath path xs).Clean R := ⟨hpath, hxs⟩

-- The functions that code calls by a path of its own.
theorem isClient_plain :
    isClient "U256" = false ∧ isClient "U256::from" = false ∧ isClient "U256::from_u128" = false ∧
    isClient "U256::from_u32" = false ∧ isClient "U256::from_parts" = false ∧
    isClient "I256::from_i128" = false ∧ isClient "String::from" = false ∧
    isClient "String::from_str" = false ∧ isClient "String::from_utf8" = false ∧
    isClient "Vec::new" = false ∧ isClient "Bytes::new" = false ∧ isClient "Symbol::new" = false ∧
    isClient "BytesN::from_array" = false ∧ isClient "Ok" = false ∧ isClient "Err" = false := by
  decide +kernel

-- A path that does not end like that of a client.
theorem isClient_of_last {scope last : String} (hlast : last.toList.getLast? = some '2' ∨
    last.toList.getLast? = some 's') : isClient (scope ++ last) = false := by
  rw [Bool.eq_false_iff]
  intro hclient
  simp only [isClient, endsWith, Bool.and_eq_true, List.isSuffixOf_iff_suffix] at hclient
  obtain ⟨⟨front, heq⟩, -⟩ := hclient
  have hw : (scope ++ last).toList.getLast? = some 'w' := by
    rw [← heq, List.getLast?_append]
    rfl
  rw [String.toList_append, List.getLast?_append] at hw
  rcases hlast with hlast | hlast <;> simp [hlast] at hw

theorem allClean_iff : AllClean R xs ↔ ∀ x ∈ xs, x.Clean R := by
  induction xs with
  | nil => simp [AllClean]
  | cons x xs ih => simp [AllClean, ih]

theorem allClean_append {ys : List Expr} : AllClean R (xs ++ ys) ↔ AllClean R xs ∧ AllClean R ys := by
  simp only [allClean_iff, List.forall_mem_append]

theorem fieldsClean_zip {γ : Type} {as : List γ} {init : γ × Expr → FieldInit}
    (hinit : ∀ p, (init p).value = p.2) (hxs : AllClean R xs) :
    FieldsClean R ((as.zip xs).map init) := by
  induction as generalizing xs with
  | nil => trivial
  | cons a as ih =>
      cases xs with
      | nil => trivial
      | cons x xs =>
          have hvalue : ((init (a, x)).value).Clean R := (hinit (a, x)).symm ▸ hxs.1
          rw [List.zip_cons_cons, List.map_cons]
          rcases hi : init (a, x) with ⟨name, value⟩
          rw [hi] at hvalue
          exact ⟨hvalue, ih hxs.2⟩

theorem codeClean_append {a b : List Stmt} : CodeClean R (a ++ b) ↔ CodeClean R a ∧ CodeClean R b := by
  induction a with
  | nil => simp [CodeClean]
  | cons s a ih => simp [CodeClean, ih, and_assoc]

-- A clean value is no reference, so any variable can be declared as one.
theorem isReference_of_clean (type : String) (hx : x.Clean R) : isReference type x = false := by
  unfold isReference
  split
  · exact hx.1
  · rw [hx.1 rfl]
    rfl
  · rfl

theorem clean_letVar {isMut : Bool} {pattern type : String} (hx : x.Clean R) :
    (Stmt.letVar isMut pattern type (some x)).Clean R := .inl ⟨hx, isReference_of_clean type hx⟩

-- What is cloned is no reference.
@[grind ←] theorem clean_borrowed (hx : x.Clean R) : x.borrowed.Clean R := by
  unfold Expr.borrowed
  split
  · rename_i receiver
    have hreceiver : receiver.Clean R := by
      rcases hx.2.1 with h | ⟨name, -, hcalls⟩
      · exact h
      · exact absurd rfl (R.calls_plain hcalls).1
    split
    · exact hreceiver
    · exact clean_method (by decide) hreceiver
  · exact hx

end Rust

namespace Emit

-- What it means that something written is clean; text and numbers always are.
class Tidy (α : Type) where
  tidy : Rules → α → Prop

instance (priority := low) (α : Type) : Tidy α := ⟨fun _ _ => True⟩
instance : Tidy Rust.Expr := ⟨fun R x => x.Clean R⟩
instance : Tidy (List Rust.Expr) := ⟨AllClean⟩
instance : Tidy Rust.Stmt := ⟨fun R s => s.Clean R⟩
instance : Tidy (List Rust.Stmt) := ⟨CodeClean⟩
instance : Tidy Rust.Block := ⟨fun R b => b.Clean R⟩
instance : Tidy (Option Rust.Expr) := ⟨OptionClean⟩

def Access.Clean (R : Rules) : Access → Prop
  | value x => x.Clean R
  | entry _ keys _ => AllClean R keys

instance : Tidy Access := ⟨Access.Clean⟩
instance {α β : Type} [Tidy α] [Tidy β] : Tidy (α × β) :=
  ⟨fun R p => Tidy.tidy R p.1 ∧ Tidy.tidy R p.2⟩

@[grind =] theorem tidy_expr (R : Rules) (x : Rust.Expr) : Tidy.tidy R x = x.Clean R := rfl
@[grind =] theorem tidy_exprs (R : Rules) (xs : List Rust.Expr) : Tidy.tidy R xs = AllClean R xs := rfl
@[grind =] theorem tidy_stmt (R : Rules) (s : Rust.Stmt) : Tidy.tidy R s = s.Clean R := rfl
@[grind =] theorem tidy_stmts (R : Rules) (code : List Rust.Stmt) :
    Tidy.tidy R code = CodeClean R code := rfl
@[grind =] theorem tidy_option (R : Rules) (x : Option Rust.Expr) :
    Tidy.tidy R x = OptionClean R x := rfl
@[grind =] theorem tidy_access (R : Rules) (a : Access) : Tidy.tidy R a = a.Clean R := rfl

attribute [grind =] Access.Clean

-- What an address is written as.
def Spells (E : Env) (address : Expr) (account : Rust.Expr) : Prop :=
  ∃ depth s s', Writes
    (operandAs (some (.address false)) address fun t => access (constantValue depth) t address)
    E s account s'

-- The calls of other contracts that count.
abbrev Calls := String → Signature → Expr → Prop

-- Names in scope: no variable has a reserved name, and a reference is called by the rules wherever it is
-- found for a call.
structure Named (R : Rules) (E : Env) (C : Calls) (scopes : List Scope) : Prop where
  locals : ∀ scope ∈ scopes, ∀ name ident, (name, ident) ∈ scope.locals → ¬R.reserved ident
  refs : ∀ scope ∈ scopes, ∀ key name, (key, name) ∈ scope.refs → ∀ interface method address account,
    C interface method address → Spells E address account → refKey interface account = key →
    R.calls name method.name

-- A step that writes clean code, in any state with good names, and keeps the names.
def Neat {α : Type} [Tidy α] (R : Rules) (E : Env) (C : Calls) (act : Emit α) : Prop :=
  ∀ s a s', Named R E C s.frame.scopes → Writes act E s a s' →
    SameNames s s' ∧ Tidy.tidy R a

variable {R : Rules} {E : Env} {C : Calls} {α β : Type} [Tidy α] [Tidy β]

@[grind ←] theorem neat_pure {a : α} (ha : Tidy.tidy R a) : Neat R E C (pure a) := by
  intro s b s' _ hw
  obtain ⟨rfl, rfl⟩ := writes_pure.mp hw
  exact ⟨.refl s, ha⟩

@[grind ←] theorem neat_throw (stop : Stop) : Neat R E C (throw stop : Emit α) := by
  intro s b s' _ hw
  exact absurd hw not_writes_throw

omit [Tidy α] in
theorem neat_throw_bind (stop : Stop) (f : α → Emit β) : Neat R E C ((throw stop : Emit α) >>= f) := by
  intro s b s' _ hw
  obtain ⟨a, s₁, hthrow, -⟩ := writes_bind.mp hw
  exact absurd hthrow not_writes_throw

-- Two steps; the second may use what the first has written.
theorem neat_bind_of_writes {x : Emit α} {f : α → Emit β} (hx : Neat R E C x)
    (hf : ∀ a, Tidy.tidy R a → (∃ s s', Writes x E s a s') → Neat R E C (f a)) :
    Neat R E C (x >>= f) := by
  intro s b s' hs hw
  obtain ⟨a, s₁, hx', hw⟩ := writes_bind.mp hw
  obtain ⟨hsame, ha⟩ := hx s a s₁ hs hx'
  obtain ⟨hsame', hb⟩ := hf a ha ⟨s, s₁, hx'⟩ s₁ b s' (hsame.scopes_eq ▸ hs) hw
  exact ⟨hsame.trans hsame', hb⟩

@[grind ←] theorem neat_bind {x : Emit α} {f : α → Emit β} (hx : Neat R E C x)
    (hf : ∀ a, Tidy.tidy R a → Neat R E C (f a)) : Neat R E C (x >>= f) :=
  neat_bind_of_writes hx fun a ha _ => hf a ha

@[grind ←] theorem neat_read_bind {f : Env → Emit β} (hf : Neat R E C (f E)) :
    Neat R E C (read >>= f) := by
  intro s b s' hs hw
  obtain ⟨e, s₁, hread, hw⟩ := writes_bind.mp hw
  obtain ⟨rfl, rfl⟩ := writes_read.mp hread
  exact hf s b s' hs hw

-- What is steady and writes no code.
theorem neat_of_steady {act : Emit α} (hact : Steady act) (hall : ∀ a : α, Tidy.tidy R a) :
    Neat R E C act := by
  intro s a s' _ hw
  exact ⟨hact.sameNames hw, hall a⟩

theorem neat_text {act : Emit String} (hact : Steady act) : Neat R E C act :=
  neat_of_steady hact fun _ => trivial

@[grind ←] theorem neat_use (path : String) : Neat R E C (use path) :=
  neat_of_steady (steady_use path) fun _ => trivial

theorem neat_tryCatch {x : Emit α} {f : Stop → Emit α} (hsteady : Steady x)
    (hx : Neat R E C x) (hf : ∀ d, Neat R E C (f d)) : Neat R E C (tryCatch x f) := by
  intro s a s' hs hw
  rw [Writes, outcome_tryCatch] at hw
  have hsame := hsteady E s
  rcases ho : outcome x E s with ⟨r, s₁⟩
  rw [ho] at hw hsame
  cases r with
  | ok b =>
      cases hw
      exact hx s a s' hs ho
  | error d =>
      obtain ⟨hsame', ha⟩ := hf d s₁ a s' (hsame.scopes_eq ▸ hs) hw
      exact ⟨hsame.trans hsame', ha⟩

-- Names that are looked up or made.

theorem mem_of_findSome {γ : Type} {key : String} {f : Scope → List (String × γ)} {scopes : List Scope}
    {b : γ} (h : scopes.findSome? (fun s => (f s).lookup key) = some b) :
    ∃ scope ∈ scopes, (key, b) ∈ f scope := by
  obtain ⟨scope, hmem, hlook⟩ := List.exists_of_findSome?_eq_some h
  obtain ⟨pre, post, heq, -⟩ := List.lookup_eq_some_iff.mp hlook
  exact ⟨scope, hmem, by simp [heq]⟩

@[grind ←] theorem neat_local_bind {name : String} {f : Option String → Emit β}
    (hf : ∀ o, (∀ ident, o = some ident → ¬R.reserved ident) → Neat R E C (f o)) :
    Neat R E C (local? name >>= f) := by
  intro s b s' hs hw
  obtain ⟨o, s₁, hlocal, hw⟩ := writes_bind.mp hw
  have ho : outcome (local? name) E s =
      (.ok (s.frame.scopes.findSome? fun s => s.locals.lookup name), s) := rfl
  rw [Writes, ho] at hlocal
  cases hlocal
  refine hf _ (fun ident hident => ?_) s b s' hs hw
  obtain ⟨scope, hscope, hmem⟩ := mem_of_findSome hident
  exact hs.locals scope hscope name ident hmem

@[grind ←] theorem neat_ref_bind {key : String} {f : Option String → Emit β}
    (hf : ∀ o, (∀ name, o = some name → ∀ interface method address account,
      C interface method address → Spells E address account → refKey interface account = key →
      R.calls name method.name) → Neat R E C (f o)) : Neat R E C (ref? key >>= f) := by
  intro s b s' hs hw
  obtain ⟨o, s₁, href, hw⟩ := writes_bind.mp hw
  have ho : outcome (ref? key) E s =
      (.ok (s.frame.scopes.findSome? fun s => s.refs.lookup key), s) := rfl
  rw [Writes, ho] at href
  cases href
  refine hf _ (fun name hname => ?_) s b s' hs hw
  obtain ⟨scope, hscope, hmem⟩ := mem_of_findSome hname
  exact hs.refs scope hscope key name hmem

@[grind ←] theorem neat_temp_bind {stem : String} {f : String → Emit β} (hR : R.Free)
    (hstem : stem ∈ stems) (hf : ∀ name, ¬R.reserved name → Neat R E C (f name)) :
    Neat R E C (temp stem >>= f) := by
  intro s b s' hs hw
  obtain ⟨name, s₁, htemp, hw⟩ := writes_bind.mp hw
  obtain ⟨rfl, rfl⟩ := writes_temp.mp htemp
  obtain ⟨hsame, hb⟩ := hf _ (hR.temp stem hstem _) s.counted b s' hs hw
  exact ⟨(sameNames_counted s).trans hsame, hb⟩

end Emit

namespace Soroban

variable {R : Rules} {x y : Rust.Expr} {xs : List Rust.Expr}

@[grind ←] theorem clean_hostCall {path : String} (hR : R.Free) (hpath : Rust.isClient path = false)
    (hxs : AllClean R xs) : (hostCall path xs).Clean R := by
  unfold hostCall env
  grind

@[grind ←] theorem clean_borrow (hx : x.Clean R) : (borrow x).Clean R := by
  unfold borrow
  grind

@[grind ←] theorem clean_asU32 (t : Ty) (hx : x.Clean R) : (asU32 x t).Clean R := by
  unfold asU32
  grind

@[grind ←] theorem clean_arrayIndex (t : Ty) (hx : x.Clean R) (hy : y.Clean R) :
    (arrayIndex x y t).Clean R := by
  unfold arrayIndex
  grind

variable {E : Env} {C : Calls}

end Soroban

end RustContracts
