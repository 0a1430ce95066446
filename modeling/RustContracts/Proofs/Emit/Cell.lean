import RustContracts.Proofs.Rust.Variable
import RustContracts.Proofs.Soroban.Zero

-- Where storage keeps a field or an entry of a mapping, and what the code that reads and writes it does.
namespace RustContracts

open Program Emit
open Rust (Machine Host Value Cell Store)
open Rust.Expr (Reads AllRead)

variable {h : Host} {fuel : Nat} {m : Machine} {d : FieldDecl} {v : Value}

-- Indices.

-- A conversion that keeps numbers of 32 bits.
theorem Rust.castTo_of_lt {type : String} {i : Nat} (htype : type = "u32" ∨ type = "usize")
    (hi : i < 2 ^ 32) : castTo h type (.int i) = some (.int i) := by
  have hmod : (i : Int) % 2 ^ 32 = i := by omega
  rcases htype with rfl | rfl
  · exact congrArg (fun n => some (Value.int n)) hmod
  · exact congrArg (fun n => some (Value.int n)) hmod

theorem Rust.narrowMethod_of_lt {i : Nat} (hi : i < 2 ^ 32) :
    narrowMethod h "to_u128" (.int i) = pure (.variant "Some" [.int i]) ∧
      narrowMethod h "as_usize" (.int i) = pure (.int i) := by
  have hlong : (0 : Int) ≤ i ∧ (i : Int) < 2 ^ 128 := by omega
  have hshort : (0 : Int) ≤ i ∧ (i : Int) < 2 ^ 32 := by omega
  constructor
  · rw [narrowMethod, if_pos hlong]
    rfl
  · rw [narrowMethod, if_pos hshort]

theorem Soroban.reads_asU32 {x : Rust.Expr} {i : Nat} (t : Ty) (hi : i < 2 ^ 32)
    (hx : Reads h fuel m x (.int i)) : Reads h fuel m (asU32 x t) (.int i) := by
  have hcast {y : Rust.Expr} (hy : Reads h fuel m y (.int i)) :
      Reads h fuel m (.cast y "u32") (.int i) := hy.cast (Rust.castTo_of_lt (.inl rfl) hi)
  have hsome : Reads h fuel m (x.method "to_u128") (.variant "Some" [.int i]) := by
    refine hx.method rfl ?_
    change (Rust.narrowMethod h "to_u128" (.int i)).run m = _
    rw [(Rust.narrowMethod_of_lt hi).1]
    rfl
  unfold asU32
  split
  · split
    · exact hcast (hsome.method rfl rfl)
    · split
      · exact hx
      · exact hcast hx
  · exact hcast hx

theorem Ink.reads_asUsize {x : Rust.Expr} {i : Nat} (t : Ty) (hi : i < 2 ^ 32)
    (hx : Reads h fuel m x (.int i)) : Reads h fuel m (asUsize x t) (.int i) := by
  have hmethod : Reads h fuel m (x.method "as_usize") (.int i) := by
    have hcall (v : Value) : Rust.callMethod h v "as_usize" [] = Rust.narrowMethod h "as_usize" v := rfl
    refine hx.method rfl ?_
    rw [hcall, (Rust.narrowMethod_of_lt hi).2]
    rfl
  unfold asUsize
  split
  · exact hmethod
  · exact hx.cast (Rust.castTo_of_lt (.inr rfl) hi)

-- An element is read by a method that stops behind the end.
theorem Soroban.eval_arrayIndex {base key : Rust.Expr} {u : Value} {i : Nat} (t : Ty)
    (hi : i < 2 ^ 32) (hbase : Reads h fuel m base u) (hkey : Reads h fuel m key (.int i)) :
    (∀ v, u.get? [.index i] = some v → Reads h fuel m (arrayIndex base key t) v) ∧
      (u.get? [.index i] = none →
        ∃ e, ((arrayIndex base key t).eval h fuel).run m = ⟨.error e, m, []⟩) := by
  have hget : ((base.methodCall "get" [asU32 key t]).eval h fuel).run m =
      (Rust.getMethod u [.int i]).run m :=
    Rust.Expr.eval_methodCall rfl hbase (AllRead.eval (.cons (reads_asU32 t hi hkey) .nil))
  have hlist {items : List Value} (hu : u = .list items) :
      Rust.getMethod u [.int i] = pure (Rust.optionOf [] items[i]?) := by
    subst hu
    simp [Rust.getMethod]
  constructor
  · intro v hv
    obtain ⟨shape, parts, j, p, rfl, hj, hp, hpv⟩ := Rust.Value.get?_cons_eq_some hv
    cases shape with
    | list =>
        obtain rfl : i = j := Option.some.inj hj
        obtain rfl : p = v := Option.some.inj hpv
        rw [hlist rfl, hp] at hget
        exact Reads.method rfl hget rfl
    | _ => cases hj
  · intro hnone
    by_cases hu : ∃ items, u = .list items
    · obtain ⟨items, rfl⟩ := hu
      have hitems : items[i]? = none := by simpa [Rust.Value.get?, Rust.Shape.slot?] using hnone
      rw [hlist rfl, hitems] at hget
      refine ⟨.panic, ?_⟩
      rw [arrayIndex, Rust.Expr.method, Rust.Expr.eval_methodCall rfl hget rfl]
      rfl
    · have hstuck : Rust.getMethod u [.int i] = Rust.Run.exit .stuck := by
        unfold Rust.getMethod
        split
        · exact absurd ⟨_, rfl⟩ hu
        · rfl
      rw [hstuck] at hget
      exact ⟨.stuck, Rust.Expr.eval_methodCall_error rfl rfl rfl rfl hget⟩

-- Storage.

-- The keys of a mapping in ink! are one value: several keys are a tuple.
def Ink.cellKeys : List Value → List Value
  | [] => []
  | [k] => [k]
  | ks => [.tuple ks]

def Emit.cellOf (target : Target) (d : FieldDecl) (keys : List Value) : Cell :=
  match target with
  | .ink _ => ⟨d.name, Ink.cellKeys keys⟩
  | .soroban => ⟨"DataKey::" ++ Rust.Name.type d.name, keys⟩

-- What a field or entry holds; one that was never written holds the default of its type.
def Emit.entry (target : Target) (h : Host) (d : FieldDecl) (store : Store) (keys : List Value) :
    Value :=
  (store (cellOf target d keys)).getD (h.field d.name).zero

-- Soroban has no default for some types: reads of entries of these that were never written stop.
def Emit.Readable (E : Env) (d : FieldDecl) (store : Store) (keys : List Value) : Prop :=
  E.target = .soroban → (store (cellOf .soroban d keys)).isSome ∨
    (Soroban.zeroValue? E.package d.type.mappingValue).isSome

instance (E : Env) (d : FieldDecl) (store : Store) (keys : List Value) :
    Decidable (Readable E d store keys) :=
  inferInstanceAs (Decidable (_ → _ ∨ _))

-- The host knows a field as it is declared.
structure Emit.Knows (E : Env) (h : Host) (d : FieldDecl) : Prop where
  isMapping : (h.field d.name).isMapping = d.type.isMapping
  zero : ∀ z, Soroban.zeroValue? E.package d.type.mappingValue = some z → (h.field d.name).zero = z

namespace Ink

theorem reads_mappingKey {keys : List Rust.Expr} {vs : List Value} (hne : keys ≠ [])
    (hkeys : AllRead h fuel m keys vs) :
    ∃ k, cellKeys vs = [k] ∧ Reads h fuel m (mappingKey keys) k := by
  cases hkeys with
  | nil => exact absurd rfl hne
  | cons hx hrest =>
      cases hrest with
      | nil => exact ⟨_, rfl, hx.ref⟩
      | cons hy hrest => exact ⟨_, rfl, (Reads.tuple (.cons hx (.cons hy hrest))).ref⟩

-- A method of a mapping.
theorem eval_mapping {f : String} (method : String) {args : List Rust.Expr} {vs : List Value}
    (hf : (h.field f).isMapping = true) (hm : Rust.isMutator method = false)
    (hargs : AllRead h fuel m args vs) :
    (((selfField f).methodCall method args).eval h fuel).run m =
      (Rust.callMapping h f method vs).run m := by
  have hmap : (selfField f).mapping? h = some f := by
    simp [selfField, Rust.Expr.mapping?, Rust.Expr.isSelf, hf]
  rw [Rust.Expr.eval, Rust.Run.run_bind_of_ok (Rust.Run.run_machine m)]
  simp only [selfField, Rust.Expr.reference?, Rust.Expr.isSelf, hm, Bool.false_and,
    Bool.false_eq_true, if_false]
  rw [← selfField, hmap]
  exact Rust.Run.run_bind_of_ok hargs.eval

theorem reads_readField {keys : List Rust.Expr} {vs : List Value} (hne : keys ≠ [])
    (hf : (h.field d.name).isMapping = true) (hkeys : AllRead h fuel m keys vs) (version : InkVersion) :
    Reads h fuel m (readField d keys) (entry (.ink version) h d m.store vs) := by
  obtain ⟨k, hk, hkey⟩ := reads_mappingKey hne hkeys
  have hget := eval_mapping "get" hf rfl (.cons hkey .nil)
  have hread : readField d keys =
      ((selfField d.name).methodCall "get" [mappingKey keys]).method "unwrap_or_default" := by
    cases keys with
    | nil => exact absurd rfl hne
    | cons x xs => rfl
  have hcell : entry (.ink version) h d m.store vs =
      (m.store ⟨d.name, [k]⟩).getD (h.field d.name).zero := by
    rw [entry, cellOf, hk]
  rw [hread, hcell]
  refine Reads.method rfl hget ?_
  cases m.store ⟨d.name, [k]⟩ <;> rfl

theorem run_writeField {keys : List Rust.Expr} {vs : List Value} {x : Rust.Expr} (hne : keys ≠ [])
    (hf : (h.field d.name).isMapping = true) (hkeys : AllRead h fuel m keys vs)
    (hx : Reads h fuel m x v) (version : InkVersion) :
    ((writeField d x keys).run h fuel).run m =
      ⟨.ok (), { m with store := m.store.write (cellOf (.ink version) d vs) v }, []⟩ := by
  obtain ⟨k, hk, hkey⟩ := reads_mappingKey hne hkeys
  have hwrite : writeField d x keys =
      .expr ((selfField d.name).methodCall "insert" [mappingKey keys, x.ref]) := by
    cases keys with
    | nil => exact absurd rfl hne
    | cons y ys => rfl
  rw [hwrite, Rust.Stmt.run, Rust.Run.run_bind,
    eval_mapping "insert" hf rfl (.cons hkey (.cons hx.ref .nil)), cellOf, hk]
  rfl

end Ink

namespace Soroban

theorem hostReads_persistent : HostReads persistent (.variant "env.persistent" []) := by
  intro h fuel m henv
  have hstorage : Reads h fuel m ((Rust.Expr.ident "env").method "storage") (.variant "env.storage" []) :=
    (hostReads_ident h fuel m henv).method rfl rfl
  exact hstorage.method rfl rfl

theorem reads_dataKey {keys : List Rust.Expr} {vs : List Value} (hkeys : AllRead h fuel m keys vs) :
    Reads h fuel m (dataKey d keys).ref (.variant ("DataKey::" ++ Rust.Name.type d.name) vs) := by
  have hstart : Rust.startsWith ("DataKey::" ++ Rust.Name.type d.name) "DataKey::" = true := by
    simp [Rust.startsWith, String.toList_append]
  refine Reads.ref ?_
  cases hkeys with
  | nil => exact .path (by simp [Rust.isPath, String.toList_append])
  | cons hx hrest =>
      have hall : AllRead h fuel m (_ :: _) (_ :: _) := .cons hx hrest
      rw [Reads, dataKey, Rust.Expr.callPath, Rust.Expr.eval, Rust.Run.run_bind_of_ok hall.eval]
      · have hclient : Rust.isClient ("DataKey::" ++ Rust.Name.type d.name) = false :=
          Rust.isClient_append (by decide) _
        simp [Rust.callFunction, Rust.Expr.name, hclient, hstart]
      · simp

-- The entry is read as an option, which is then unwrapped one way or the other.
theorem reads_get (d : FieldDecl) (type : String) {keys : List Rust.Expr} {vs : List Value}
    (henv : m.locals.lookup "env" = none) (hkeys : AllRead h fuel m keys vs) :
    Reads h fuel m
      (persistent.methodCall ("get::<DataKey, " ++ type ++ ">") [(dataKey d keys).ref])
      (Rust.optionOf [] (m.store (cellOf .soroban d vs))) := by
  have htext : ("get::<DataKey, " ++ type ++ ">").toList =
      'g' :: 'e' :: 't' :: ':' :: ':' :: '<' :: ("DataKey, ".toList ++ type.toList ++ ['>']) := by
    simp [String.toList_append]
  generalize "get::<DataKey, " ++ type ++ ">" = method at htext
  have hstart : Rust.startsWith method "get::<" = true := by
    simp [Rust.startsWith, htext]
  have hmutator : Rust.isMutator method = false := by
    by_contra hm
    simp only [Rust.isMutator, Bool.not_eq_false, List.contains_eq_mem, decide_eq_true_eq,
      List.mem_cons, List.not_mem_nil, or_false] at hm
    rcases hm with rfl | rfl | rfl | rfl | rfl <;> simp at htext
  rw [Reads, Rust.Expr.eval_methodCall (by simp [hmutator]) (hostReads_persistent h fuel m henv)
    (AllRead.eval (.cons (reads_dataKey hkeys) .nil))]
  simp only [Rust.callMethod, hstart, Bool.true_or, if_true]
  rfl

theorem writes_readField {E : Env} {s s' : State} {keys : List Rust.Expr} {x : Rust.Expr}
    (hw : Writes (readField d keys) E s x s') :
    ∃ type, let get := persistent.methodCall ("get::<DataKey, " ++ type ++ ">") [(dataKey d keys).ref]
      (∃ z v, zeroValue? E.package d.type.mappingValue = some v ∧ HostReads z v ∧
          x = get.methodCall "unwrap_or" [z]) ∨
        zeroValue? E.package d.type.mappingValue = none ∧ x = get.method "unwrap" := by
  obtain ⟨type, s₁, -, hw⟩ := writes_bind.mp hw
  refine ⟨type, ?_⟩
  rw [Writes, outcome_tryCatch] at hw
  have hfinds := finds_zero (p := E.package) d.type.mappingValue
  rw [outcome_bind] at hw
  cases hz : zeroValue? E.package d.type.mappingValue with
  | some v =>
      rw [hz] at hfinds
      obtain ⟨z, s₂, hzero, hr⟩ := hfinds E s₁ rfl
      rw [hzero] at hw
      refine .inl ⟨z, v, rfl, hr, ?_⟩
      simpa using (Prod.mk.inj hw).1.symm
  | none =>
      rw [hz] at hfinds
      refine .inr ⟨rfl, ?_⟩
      rcases ho : outcome (zero d.type.mappingValue) E s₁ with ⟨r, s₂⟩
      cases r with
      | ok z => exact absurd ho (hfinds E s₁ z s₂ rfl)
      | error e =>
          rw [ho] at hw
          cases e with
          | fault => simpa using (Prod.mk.inj hw).1.symm
          | overflow => cases (Prod.mk.inj hw).1

-- What is read is no reference to another contract.
theorem isReference_readField {E : Env} {s s' : State} {keys : List Rust.Expr} {x : Rust.Expr}
    (hw : Writes (readField d keys) E s x s') : Rust.isReference "" x = false := by
  obtain ⟨type, ⟨z, v, -, -, rfl⟩ | ⟨-, rfl⟩⟩ := writes_readField hw
  · rfl
  · rfl

theorem eval_readField {E : Env} {s s' : State} {keys : List Rust.Expr} {vs : List Value}
    {x : Rust.Expr} (htarget : E.target = .soroban) (hknows : Knows E h d)
    (henv : m.locals.lookup "env" = none) (hw : Writes (readField d keys) E s x s')
    (hkeys : AllRead h fuel m keys vs) :
    (Readable E d m.store vs → Reads h fuel m x (entry .soroban h d m.store vs)) ∧
      (¬Readable E d m.store vs → (x.eval h fuel).run m = ⟨.error .panic, m, []⟩) := by
  obtain ⟨type, hx⟩ := writes_readField hw
  have hget := reads_get d type henv hkeys
  rcases hx with ⟨z, v, hz, hr, rfl⟩ | ⟨hz, rfl⟩
  · have hzero := hknows.zero v hz
    have hreadable : Readable E d m.store vs := fun _ => .inr (by simp [hz])
    refine ⟨fun _ => ?_, fun hn => absurd hreadable hn⟩
    rw [Reads, Rust.Expr.eval_methodCall rfl hget (AllRead.eval (.cons (hr h fuel m henv) .nil)),
      entry, hzero]
    cases m.store (cellOf .soroban d vs) <;> rfl
  · rw [Rust.Expr.method, Reads, Rust.Expr.eval_methodCall rfl hget rfl, entry]
    cases hs : m.store (cellOf .soroban d vs) with
    | some v =>
        refine ⟨fun _ => rfl, fun hn => absurd (fun _ => .inl (by simp [hs])) hn⟩
    | none =>
        refine ⟨fun hr => ?_, fun _ => rfl⟩
        rcases hr htarget with hsome | hsome
        · simp [hs] at hsome
        · simp [hz] at hsome

theorem run_writeField {keys : List Rust.Expr} {vs : List Value} {x : Rust.Expr}
    (henv : m.locals.lookup "env" = none) (hkeys : AllRead h fuel m keys vs)
    (hx : Reads h fuel m x v) :
    ((writeField d x keys).run h fuel).run m =
      ⟨.ok (), { m with store := m.store.write (cellOf .soroban d vs) v }, []⟩ := by
  have hargs : AllRead h fuel m [(dataKey d keys).ref, borrow x]
      [.variant ("DataKey::" ++ Rust.Name.type d.name) vs, v] :=
    .cons (reads_dataKey hkeys) (.cons hx.borrowed.ref .nil)
  rw [writeField, Rust.Stmt.run, Rust.Run.run_bind,
    Rust.Expr.eval_methodCall rfl (hostReads_persistent h fuel m henv) hargs.eval]
  rfl

end Soroban

end RustContracts
