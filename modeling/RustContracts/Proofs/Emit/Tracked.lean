import RustContracts.Proofs.Emit.NeatStmt
import RustContracts.Proofs.Rust.Identifier

-- The table of references: which variable each call goes through, in the order in which calls are written. A variable
-- is declared for the first call that goes through it. The table grows where references are declared.
namespace RustContracts

namespace Text

theorem toUpper_ne_underscore {c : Char} (hc : c ≠ '_') : c.toUpper ≠ '_' := by
  intro h
  unfold Char.toUpper at h
  split at h
  · rename_i hrange
    have hsum : (c.val + ('A'.val - 'a'.val)).toNat = 95 := congrArg (fun c => c.val.toNat) h
    have hlow : 97 ≤ c.val.toNat := hrange.1
    have hhigh : c.val.toNat ≤ 122 := hrange.2
    rw [UInt32.toNat_add] at hsum
    have : ('A'.val - 'a'.val).toNat = 2 ^ 32 - 32 := rfl
    omega
  · exact hc h

theorem underscore_notMem_camelFrom (raise afterCapital : Bool) (cs : List Char) :
    '_' ∉ camelFrom raise afterCapital cs := by
  induction cs generalizing raise afterCapital with
  | nil => simp [camelFrom]
  | cons c cs ih =>
      have hc (hclass : classOf c ≠ .other) : c ≠ '_' := by
        rintro rfl
        exact hclass (by decide)
      rw [camelFrom]
      split
      · rename_i hclass
        have hc := hc (by simp [hclass])
        refine List.not_mem_cons_of_ne_of_not_mem ?_ (ih _ _)
        split
        · exact (toLower_ne_underscore hc).symm
        · exact hc.symm
      · rename_i hclass
        have hc := hc (by simp [hclass])
        refine List.not_mem_cons_of_ne_of_not_mem ?_ (ih _ _)
        split
        · exact (toUpper_ne_underscore hc).symm
        · exact hc.symm
      · rename_i hclass
        exact List.not_mem_cons_of_ne_of_not_mem (hc (by simp [hclass])).symm (ih _ _)
      · exact ih _ _

end Text

namespace Rust.Name

theorem underscore_mem_numbered (stem : String) (k : Nat) : '_' ∈ (numbered stem k).toList := by
  simp [toList_numbered]

-- The name of a type has no number behind an underscore.
theorem type_ne_numbered (name stem : String) (k : Nat) : type name ≠ numbered stem k := by
  intro heq
  have hmem := underscore_mem_numbered stem k
  have hwords : '_' ∉ (if isCamel name.toList then name.toList else Text.upperCamel name.toList) := by
    split
    · rename_i hcamel
      intro hmem
      simp only [isCamel, Bool.and_eq_true, List.all_eq_true] at hcamel
      exact absurd (hcamel.2 _ hmem) (by decide)
    · exact Text.underscore_notMem_camelFrom _ _ _
  unfold type at heq
  dsimp only at heq
  generalize (if isCamel name.toList then name.toList else Text.upperCamel name.toList) = words
    at heq hwords
  cases words with
  | nil =>
      rw [← heq] at hmem
      exact absurd hmem (by decide)
  | cons c rest =>
      have hident : '_' ∉ (if c.isDigit then 'E' :: c :: rest else c :: rest) := by
        split
        · exact List.not_mem_cons_of_ne_of_not_mem (by decide) hwords
        · exact hwords
      dsimp only at heq
      generalize (if c.isDigit then 'E' :: c :: rest else c :: rest) = word at heq hident
      split at heq
      · have hdigits := takeWhile_numbered stem k
        rw [← heq] at hdigits
        simp [String.toList_append, Nat.toDigits_ne_nil] at hdigits
      · rw [← heq, String.toList_ofList] at hmem
        exact hident hmem
end Rust.Name

namespace Emit

open Program
open Rust (Rules AllClean CodeClean)

variable {E : Env} {C : Calls}

-- The interfaces that are called.
def Called (C : Calls) (interface : String) : Prop := ∃ method address, C interface method address

-- The names of the variables that hold references.
def IsRef (C : Calls) (name : String) : Prop :=
  ∃ interface, Called C interface ∧ ∃ k, name = numbered (Rust.Name.value interface) k

-- Names that are told apart: of interfaces from each other and from temporary variables, and of their
-- methods from what code does with values. The key of a reference has a mark that no interface has.
structure Distinct (C : Calls) : Prop where
  marked : ∀ i, Called C i → '@' ∉ i.toList
  interfaces : ∀ i j, Called C i → Called C j → Rust.Name.value i = Rust.Name.value j → i = j
  temps : ∀ i, Called C i → Rust.Name.value i ∉ stems
  methods : ∀ i method address, C i method address → method.name ≠ "clone" ∧ method.name ≠ "into"

-- A call that needs a reference, with the variable that it gets: a new one or one that is in scope.
structure Request where
  name : String
  interface : String
  method : Signature
  address : Expr
  account : Rust.Expr

def Request.key (r : Request) : String := refKey r.interface r.account

def Request.call (r : Request) : String × Signature × Expr := (r.interface, r.method, r.address)

-- What the address is written as where the reference is asked for.
def Request.Written (E : Env) (r : Request) : Prop :=
  ∃ s s', Writes (exprAs (.address false) r.address) E s r.account s'

abbrev Table := List Request

-- A variable holds the reference for a key.
def Table.Has (T : Table) (name key : String) : Prop := ∃ r ∈ T, r.name = name ∧ r.key = key

-- The request that a variable is declared for.
def Table.opener? (T : Table) (name : String) : Option Request := T.find? fun r => r.name = name

-- What a variable for a reference is declared as.
def refValue (t : Target) (interface : String) (account : Rust.Expr) : Rust.Expr :=
  match t with
  | .ink _ => (Ink.externalRef interface account).1
  | .soroban => Soroban.externalRef interface account

-- A variable is declared for the interface and address that the table gives it, and called for these. The call that it is
-- declared for says whether it may be changed.
def rules (E : Env) (C : Calls) (T : Table) : Rules where
  reserved := IsRef C
  declares name value := IsRef C name ∧ ∃ interface account, Called C interface ∧
    T.Has name (refKey interface account) ∧ value = refValue E.target interface account
  marks isMut name := ∃ r, T.opener? name = some r ∧ isMut = r.method.mutability.mutates
  calls name method := (method ≠ "clone" ∧ method ≠ "into") ∧ ∃ interface f address account,
    C interface f address ∧ Spells E address account ∧ T.Has name (refKey interface account) ∧
      f.name = method
  reserved_of_declares h := h.1
  calls_plain h := h.1

theorem free_rules (hC : Distinct C) (T : Table) : (rules E C T).Free where
  temp stem hstem k := by
    rintro ⟨interface, hcalled, j, heq⟩
    exact hC.temps interface hcalled ((numbered_inj heq).1 ▸ hstem)
  type name := by
    rintro ⟨interface, -, k, heq⟩
    exact Rust.Name.type_ne_numbered _ _ _ heq
  fixed name hname := by
    rintro ⟨interface, -, k, rfl⟩
    rw [takeWhile_numbered] at hname
    simp [Nat.toDigits_ne_nil] at hname

def State.refCount (s : State) (interface : String) : Nat :=
  (s.frame.refCounts.lookup interface).getD 0

-- The table holds every reference in scope, under names that count up, each for one interface and address.
structure Tracked (C : Calls) (T : Table) (s : State) : Prop where
  locals : ∀ scope ∈ s.frame.scopes, ∀ name ident, (name, ident) ∈ scope.locals → ¬IsRef C ident
  refs : ∀ scope ∈ s.frame.scopes, ∀ key name, (key, name) ∈ scope.refs → T.Has name key
  counted : ∀ name key, T.Has name key → ∃ interface, Called C interface ∧
    ∃ k < s.refCount interface, name = numbered (Rust.Name.value interface) k
  unique : ∀ name key key', T.Has name key → T.Has name key' → key = key'

variable {T U V : Table} {s s' : State} {r : Request} {calls calls' : List (String × Signature × Expr)}

theorem Table.Has.mono {name key : String} (h : T.Has name key) (hsub : T <+: U) : U.Has name key := by
  obtain ⟨r, hr, hname⟩ := h
  exact ⟨r, hsub.subset hr, hname⟩

theorem Table.opener?_mono {name : String} (h : T.opener? name = some r) (hsub : T <+: U) :
    U.opener? name = some r := by
  obtain ⟨more, rfl⟩ := hsub
  rw [opener?] at h ⊢
  rw [List.find?_append, h, Option.some_or]

theorem Table.has_snoc {name key : String} :
    Table.Has (T ++ [r]) name key ↔ T.Has name key ∨ r.name = name ∧ r.key = key := by
  simp [Has, or_and_right, exists_or]

theorem Table.has_of_opener? {name : String} (h : T.opener? name = some r) : T.Has name r.key :=
  ⟨r, List.mem_of_find?_eq_some h, by simpa using List.find?_some h, rfl⟩

-- A table with more requests: those of these calls.
def Grows (E : Env) (calls : List (String × Signature × Expr)) (T U : Table) : Prop :=
  ∃ more, U = T ++ more ∧ more.map Request.call = calls ∧ ∀ r ∈ more, r.Written E

theorem Grows.refl (T : Table) : Grows E [] T T := ⟨[], (List.append_nil T).symm, rfl, by simp⟩

theorem Grows.trans (h : Grows E calls T U) (h' : Grows E calls' U V) : Grows E (calls ++ calls') T V := by
  obtain ⟨more, rfl, rfl, hmore⟩ := h
  obtain ⟨more', rfl, rfl, hmore'⟩ := h'
  exact ⟨more ++ more', List.append_assoc .., List.map_append, List.forall_mem_append.mpr ⟨hmore, hmore'⟩⟩

theorem Grows.sub (h : Grows E calls T U) : T <+: U := by
  obtain ⟨more, rfl, -⟩ := h
  exact List.prefix_append T more

theorem Tracked.of_frame (h : Tracked C T s) (hscopes : ∀ scope ∈ s'.frame.scopes, scope ∈ s.frame.scopes)
    (hcounts : s'.frame.refCounts = s.frame.refCounts) : Tracked C T s' where
  locals scope hscope := h.locals scope (hscopes scope hscope)
  refs scope hscope := h.refs scope (hscopes scope hscope)
  counted name key hmem := by
    simp only [State.refCount, hcounts]
    exact h.counted name key hmem
  unique := h.unique

theorem Tracked.of_sameNames (h : Tracked C T s) (hsame : SameNames s s') : Tracked C T s' := by
  refine h.of_frame (fun scope hscope => hsame.scopes_eq ▸ hscope) ?_
  rw [hsame.1]

theorem Tracked.named (hC : Distinct C) (h : Tracked C T s) (hsub : T <+: U) :
    Named (rules E C U) E C s.frame.scopes where
  locals := h.locals
  refs scope hscope key name hmem interface method address account hcall hspells hkey := by
    refine ⟨hC.methods _ _ _ hcall, interface, method, address, account, hcall, hspells, ?_, rfl⟩
    exact hkey ▸ (h.refs scope hscope key name hmem).mono hsub

-- Code that is clean for the table and for every larger one.
def Lasting {α : Type} [Tidy α] (E : Env) (C : Calls) (T : Table) (a : α) : Prop :=
  ∀ U, T <+: U → Tidy.tidy (rules E C U) a

-- A step that keeps a table, with the requests of these calls added to it.
def Keeps {α : Type} [Tidy α] (E : Env) (C : Calls) (calls : List (String × Signature × Expr)) (T : Table)
    (act : Emit α) : Prop :=
  ∀ s a s', Tracked C T s → Writes act E s a s' →
    ∃ U, Grows E calls T U ∧ Tracked C U s' ∧ Lasting E C U a

section Steps

variable {α β : Type} [Tidy α] [Tidy β]

theorem Lasting.mono {a : α} (h : Lasting E C T a) (hsub : T <+: U) : Lasting E C U a :=
  fun V hV => h V (hsub.trans hV)

theorem keeps_pure {a : α} (ha : Lasting E C T a) : Keeps E C [] T (pure a) := by
  intro s b s' hs hw
  obtain ⟨rfl, rfl⟩ := writes_pure.mp hw
  exact ⟨T, .refl T, hs, ha⟩

theorem keeps_seq {x : Emit α} {f : α → Emit β} (hx : Keeps E C calls T x)
    (hf : ∀ U a, T <+: U → Lasting E C U a → Keeps E C calls' U (f a)) :
    Keeps E C (calls ++ calls') T (x >>= f) := by
  intro s b s' hs hw
  obtain ⟨a, s₁, hx', hw⟩ := writes_bind.mp hw
  obtain ⟨U, hTU, hs₁, ha⟩ := hx s a s₁ hs hx'
  obtain ⟨V, hUV, hs', hb⟩ := hf U a hTU.sub ha s₁ b s' hs₁ hw
  exact ⟨V, hTU.trans hUV, hs', hb⟩

-- A step that asks for no reference, before or behind another.

theorem keeps_bind {x : Emit α} {f : α → Emit β} (hx : Keeps E C [] T x)
    (hf : ∀ U a, T <+: U → Lasting E C U a → Keeps E C calls U (f a)) : Keeps E C calls T (x >>= f) :=
  keeps_seq hx hf

theorem keeps_last {x : Emit α} {f : α → Emit β} (hx : Keeps E C calls T x)
    (hf : ∀ U a, T <+: U → Lasting E C U a → Keeps E C [] U (f a)) : Keeps E C calls T (x >>= f) := by
  have h := keeps_seq hx hf
  rwa [List.append_nil] at h

theorem keeps_of_neat (hC : Distinct C) {act : Emit α} (hact : ∀ U, T <+: U → Neat (rules E C U) E C act) :
    Keeps E C [] T act := by
  intro s a s' hs hw
  have hneat (U : Table) (hU : T <+: U) := hact U hU s a s' (hs.named hC hU) hw
  exact ⟨T, .refl T, hs.of_sameNames (hneat T (List.prefix_refl T)).1, fun U hU => (hneat U hU).2⟩

end Steps

-- References.

theorem callsIn_subexprs :
    (∀ e, CallsIn C e → ∀ x ∈ e.subexprs, CallsIn C x) ∧
      ∀ es, (∀ e ∈ es, CallsIn C e) → ∀ x ∈ Expr.subexprsList es, CallsIn C x := by
  apply Expr.subexprs.mutual_induct (fun e => CallsIn C e → ∀ x ∈ e.subexprs, CallsIn C x)
    (fun es => (∀ e ∈ es, CallsIn C e) → ∀ x ∈ Expr.subexprsList es, CallsIn C x)
  case case17 =>
    intro e
    intros
    rename_i hcalls x hx
    rw [Expr.subexprs] at hx
    · exact List.mem_singleton.mp hx ▸ hcalls
    all_goals assumption
  case case18 => simp [Expr.subexprsList]
  case case19 => 
    intro e rest ihe ihrest hcalls x hx
    obtain ⟨he, hrest⟩ := List.forall_mem_cons.mp hcalls
    rw [Expr.subexprsList] at hx
    exact (List.mem_append.mp hx).elim (ihe he x) (ihrest hrest x)
  all_goals intros
  all_goals rename_i hcalls x hx
  all_goals have hchildren := CallsIn.children hcalls
  all_goals simp only [Expr.children, List.forall_mem_cons] at hchildren
  all_goals simp only [Expr.subexprs, List.mem_cons, List.mem_append] at hx
  all_goals grind

-- The calls that a statement makes itself.
theorem mem_externalCalls {st : Stmt} {interface : String} {method : Signature} {address : Expr}
    (hmem : (interface, method, address) ∈ externalCalls st) :
    ∃ e ∈ st.directExprs, ∃ p args, .externalCall p interface method address args ∈ e.subexprs := by
  obtain ⟨x, hx, heq⟩ := List.mem_filterMap.mp hmem
  obtain ⟨e, he, hx⟩ := List.mem_flatMap.mp hx
  split at heq
  · cases heq
    exact ⟨e, he, _, _, hx⟩
  · cases heq

-- The state with another innermost scope.
def State.mapScope (s : State) (f : Scope → Scope) : State :=
  { s with frame := { s.frame with scopes := match s.frame.scopes with
      | [] => [f {}]
      | scope :: rest => f scope :: rest } }

theorem State.mem_mapScope {f : Scope → Scope} {scope : Scope}
    (hscope : scope ∈ (s.mapScope f).frame.scopes) :
    scope ∈ s.frame.scopes ∨ ∃ old, (old ∈ s.frame.scopes ∨ old = {}) ∧ scope = f old := by
  rw [mapScope] at hscope
  dsimp only at hscope
  split at hscope
  · exact .inr ⟨{}, .inr rfl, List.mem_singleton.mp hscope⟩
  · rename_i old rest hscopes
    rw [hscopes]
    rcases List.mem_cons.mp hscope with rfl | hrest
    · exact .inr ⟨old, .inl List.mem_cons_self, rfl⟩
    · exact .inl (List.mem_cons_of_mem _ hrest)

-- Names that are added to the innermost scope have to be as in the others.
theorem Tracked.mapScope (h : Tracked C T s) {f : Scope → Scope}
    (hlocals : ∀ scope name ident, (name, ident) ∈ (f scope).locals →
      (name, ident) ∈ scope.locals ∨ ¬IsRef C ident)
    (hrefs : ∀ scope key name, (key, name) ∈ (f scope).refs →
      (key, name) ∈ scope.refs ∨ T.Has name key) : Tracked C T (s.mapScope f) where
  locals scope hscope name ident hmem := by
    rcases s.mem_mapScope hscope with hscope | ⟨old, hold, rfl⟩
    · exact h.locals scope hscope name ident hmem
    · rcases hlocals old name ident hmem with hmem | hfree
      · rcases hold with hold | rfl
        · exact h.locals old hold name ident hmem
        · cases hmem
      · exact hfree
  refs scope hscope key name hmem := by
    rcases s.mem_mapScope hscope with hscope | ⟨old, hold, rfl⟩
    · exact h.refs scope hscope key name hmem
    · rcases hrefs old key name hmem with hmem | hentry
      · rcases hold with hold | rfl
        · exact h.refs old hold key name hmem
        · cases hmem
      · exact hentry
  counted := h.counted
  unique := h.unique

-- The state with one more reference to an interface.
def State.countRef (s : State) (interface : String) : State :=
  { s with frame := { s.frame with
      refCounts := (interface, s.refCount interface + 1) :: s.frame.refCounts } }

theorem State.refCount_countRef (s : State) (interface i : String) :
    (s.countRef interface).refCount i =
      if i = interface then s.refCount interface + 1 else s.refCount i := by
  rw [refCount, countRef, List.lookup_cons]
  by_cases hi : i = interface
  · simp [hi]
  · simp [hi, beq_eq_false_iff_ne.mpr hi, refCount]

-- The variable of a new reference: its number is the next one of its interface, so no other entry has its name.
theorem Tracked.fresh (hC : Distinct C) (h : Tracked C T s) {interface : String} (hcalled : Called C interface)
    (key : String) : ¬T.Has (numbered (Rust.Name.value interface) (s.refCount interface)) key := by
  intro hmem
  obtain ⟨i, hi, k, hk, heq⟩ := h.counted _ _ hmem
  obtain ⟨hvalue, rfl⟩ := numbered_inj heq
  rw [hC.interfaces _ _ hcalled hi hvalue] at hk
  exact absurd hk (Nat.lt_irrefl _)

theorem Tracked.countRef (hC : Distinct C) (h : Tracked C T s) (hcalled : Called C r.interface)
    (hname : r.name = numbered (Rust.Name.value r.interface) (s.refCount r.interface)) :
    Tracked C (T ++ [r]) (s.countRef r.interface) := by
  have hnew : ∀ key, ¬T.Has r.name key := hname ▸ h.fresh hC hcalled
  refine ⟨h.locals, fun scope hscope key name hmem => ?_, fun name key hmem => ?_,
    fun name key key' hmem hmem' => ?_⟩
  · exact (h.refs scope hscope key name hmem).mono (List.prefix_append T _)
  · rcases Table.has_snoc.mp hmem with hmem | ⟨rfl, -⟩
    · obtain ⟨i, hi, k, hk, heq⟩ := h.counted name key hmem
      refine ⟨i, hi, k, ?_, heq⟩
      rw [State.refCount_countRef]
      split
      · rename_i hi
        subst hi
        omega
      · exact hk
    · refine ⟨r.interface, hcalled, s.refCount r.interface, ?_, hname⟩
      simp [State.refCount_countRef]
  · rcases Table.has_snoc.mp hmem with hmem | ⟨rfl, rfl⟩
    · rcases Table.has_snoc.mp hmem' with hmem' | ⟨rfl, rfl⟩
      · exact h.unique name key key' hmem hmem'
      · exact absurd hmem (hnew key)
    · rcases Table.has_snoc.mp hmem' with hmem' | ⟨-, rfl⟩
      · exact absurd hmem' (hnew key')
      · rfl

theorem Tracked.declareRef (hC : Distinct C) (h : Tracked C T s) (hcalled : Called C r.interface)
    (hw : Writes (Emit.declareRef r.key r.interface) E s r.name s') :
    IsRef C r.name ∧ Tracked C (T ++ [r]) s' ∧ Table.opener? (T ++ [r]) r.name = some r := by
  have ho : outcome (Emit.declareRef r.key r.interface) E s =
      (.ok (numbered (Rust.Name.value r.interface) (s.refCount r.interface)),
        (s.countRef r.interface).mapScope fun scope => { scope with
          refs := (r.key, numbered (Rust.Name.value r.interface) (s.refCount r.interface)) :: scope.refs }) :=
    rfl
  rw [Writes, ho] at hw
  obtain ⟨hnumber, rfl⟩ := Prod.mk.inj hw
  have hname : r.name = numbered (Rust.Name.value r.interface) (s.refCount r.interface) :=
    (Except.ok.inj hnumber).symm
  refine ⟨⟨r.interface, hcalled, s.refCount r.interface, hname⟩, ?_, ?_⟩
  · refine (h.countRef hC hcalled hname).mapScope (fun _ _ _ hmem => .inl hmem) fun scope k n hmem => ?_
    rcases List.mem_cons.mp hmem with heq | hmem
    · cases heq
      exact .inr (Table.has_snoc.mpr (.inr ⟨hname, rfl⟩))
    · exact .inl hmem
  · have hnone : T.opener? r.name = none := by
      rw [Table.opener?, List.find?_eq_none]
      intro r' hr' heq
      exact h.fresh hC hcalled r'.key ⟨r', hr', (of_decide_eq_true heq).trans hname, rfl⟩
    rw [Table.opener?] at hnone ⊢
    rw [List.find?_append, hnone, Option.none_or]
    simp

-- A request for a reference that is in scope.
theorem Tracked.again (h : Tracked C T s) (hr : T.Has r.name r.key) : Tracked C (T ++ [r]) s := by
  have hsame (name key : String) : Table.Has (T ++ [r]) name key ↔ T.Has name key := by
    rw [Table.has_snoc]
    refine or_iff_left_of_imp ?_
    rintro ⟨rfl, rfl⟩
    exact hr
  refine ⟨h.locals, fun scope hscope key name hmem => (hsame name key).mpr (h.refs scope hscope key name hmem),
    fun name key hmem => h.counted name key ((hsame name key).mp hmem), fun name key key' hmem hmem' => ?_⟩
  exact h.unique name key key' ((hsame name key).mp hmem) ((hsame name key').mp hmem')

-- What a variable is declared as makes a reference to the account.
theorem makes_refValue (hC : Distinct C) {account : Rust.Expr} (interface : String)
    (haccount : account.Clean (rules E C U)) :
    (refValue E.target interface account).Makes (rules E C U) := by
  unfold refValue
  split
  · exact ⟨haccount, trivial⟩
  · exact ⟨Soroban.clean_env (free_rules hC U), Soroban.clean_borrow haccount, trivial⟩

theorem writes_externalRef {interface : String} {account : Rust.Expr} {made : Rust.Expr × String}
    (hw : Writes (externalRef interface account) E s made s') :
    made.1 = refValue E.target interface account ∧ s' = s := by
  rw [externalRef, writes_of_target] at hw
  cases htarget : E.target with
  | ink v =>
      rw [htarget] at hw
      obtain ⟨rfl, rfl⟩ := writes_pure.mp hw
      exact ⟨rfl, rfl⟩
  | soroban =>
      rw [htarget] at hw
      obtain ⟨rfl, rfl⟩ := writes_pure.mp hw
      exact ⟨rfl, rfl⟩

theorem frame_noteInterface {interface : String} {u : Unit} (hw : Writes (noteInterface interface) E s u s') :
    s'.frame = s.frame := by
  rw [← writes_modify.mp hw]
  split <;> rfl

theorem Tracked.noteInterface (h : Tracked C T s) {interface : String} {u : Unit}
    (hw : Writes (Emit.noteInterface interface) E s u s') : Tracked C T s' := by
  have hframe := frame_noteInterface hw
  exact h.of_frame (fun scope hscope => hframe ▸ hscope) (by rw [hframe])

-- The reference for one call: a new one unless there is one already.
def newRef (interface : String) (method : Signature) (account : Rust.Expr) : Emit (List Rust.Stmt) := do
  match ← ref? (refKey interface account) with
  | some _ => pure []
  | none =>
    let (value, type) ← externalRef interface account
    noteInterface interface
    let name ← declareRef (refKey interface account) interface
    pure [Rust.Stmt.letVar method.mutability.mutates name type (some value)]

theorem declareRefs_cons (interface : String) (method : Signature) (address : Expr)
    (rest : List (String × Signature × Expr)) :
    declareRefs ((interface, method, address) :: rest) = do
      let account ← exprAs (.address false) address
      let here ← newRef interface method account
      let more ← declareRefs rest
      return here ++ more := by
  rw [declareRefs]
  refine bind_congr fun account => ?_
  rw [newRef, bind_assoc]
  refine bind_congr fun found => ?_
  cases found with
  | some name => rfl
  | none => simp only [bind_assoc]

theorem keeps_newRef (hC : Distinct C) {interface : String} {method : Signature} {address : Expr}
    {account : Rust.Expr} (hcall : C interface method address) (haccount : Lasting E C T account)
    (hwritten : ∃ s s', Writes (exprAs (.address false) address) E s account s') :
    Keeps E C [(interface, method, address)] T (newRef interface method account) := by
  have hcalled : Called C interface := ⟨method, address, hcall⟩
  have hgrows (name : String) :
      Grows E [(interface, method, address)] T (T ++ [⟨name, interface, method, address, account⟩]) :=
    ⟨_, rfl, rfl, List.forall_mem_singleton.mpr hwritten⟩
  intro s code s' hs hw
  obtain ⟨found, s₁, hfound, hw⟩ := writes_bind.mp hw
  have ho : outcome (ref? (refKey interface account)) E s =
      (.ok (s.frame.scopes.findSome? fun s => s.refs.lookup (refKey interface account)), s) := rfl
  rw [Writes, ho] at hfound
  cases hfound
  split at hw
  · next name hname =>
      obtain ⟨rfl, rfl⟩ := writes_pure.mp hw
      obtain ⟨scope, hscope, hmem⟩ := mem_of_findSome hname
      exact ⟨_, hgrows name, hs.again (hs.refs scope hscope _ name hmem), fun _ _ => trivial⟩
  · obtain ⟨made, s₁, hmade, hw⟩ := writes_bind.mp hw
    obtain ⟨u, s₂, hnote, hw⟩ := writes_bind.mp hw
    obtain ⟨name, s₃, hname, hw⟩ := writes_bind.mp hw
    obtain ⟨rfl, rfl⟩ := writes_pure.mp hw
    obtain ⟨hvalue, rfl⟩ := writes_externalRef hmade
    obtain ⟨hisRef, hs₃, hopener⟩ :=
      (hs.noteInterface hnote).declareRef (r := ⟨name, interface, method, address, account⟩) hC hcalled hname
    refine ⟨_, hgrows name, hs₃, fun U hU => ⟨.inr ?_, trivial⟩⟩
    rw [hvalue]
    refine ⟨makes_refValue hC interface (haccount U ((hgrows name).sub.trans hU)), ⟨hisRef, interface, account,
      hcalled, ?_, rfl⟩, _, Table.opener?_mono hopener hU, rfl⟩
    exact (Table.has_of_opener? hopener).mono hU

-- Each reference unless there is one already.
theorem keeps_declareRefs (hC : Distinct C) (hconsts : ConstantsIn C E)
    (hcalls : ∀ c ∈ calls, C c.1 c.2.1 c.2.2 ∧ CallsIn C c.2.2) :
    Keeps E C calls T (declareRefs calls) := by
  induction calls generalizing T with
  | nil => exact keeps_pure fun _ _ => trivial
  | cons c calls ih =>
      obtain ⟨interface, method, address⟩ := c
      obtain ⟨⟨hcall, haddress⟩, hcalls⟩ := List.forall_mem_cons.mp hcalls
      intro s code s' hs hw
      rw [declareRefs_cons] at hw
      obtain ⟨account, s₁, haccount, hw⟩ := writes_bind.mp hw
      have hneat (U : Table) : Neat (rules E C U) E C (exprAs (.address false) address) :=
        neat_exprAs (free_rules hC U) hconsts _ haddress
      obtain ⟨U, hTU, hs₁, hlasting⟩ := keeps_of_neat hC (fun U _ => hneat U) s account s₁ hs haccount
      have hrest := keeps_seq (keeps_newRef hC hcall hlasting ⟨s, s₁, haccount⟩) fun V here _ hhere =>
        keeps_last (ih hcalls) fun W more hVW hmore => keeps_pure (a := here ++ more) fun X hX =>
          Rust.codeClean_append.mpr ⟨hhere X (hVW.trans hX), hmore X hX⟩
      obtain ⟨V, hUV, hs', hcode⟩ := hrest s₁ code s' hs₁ hw
      exact ⟨V, hTU.trans hUV, hs', hcode⟩

end Emit

end RustContracts
