import RustContracts.Proofs.Emit.TrackedStmt

-- Which contract a call of a function reaches: the one at the address that the reference was declared
-- with. It is the address of the moment exactly if that has not changed since.
namespace RustContracts.Emit

open Program
open Rust (Host Machine Value)

-- The first mark of a key tells interface and address apart.
theorem takeWhile_refKey {interface : String} (hmark : '@' ∉ interface.toList) (account : Rust.Expr) :
    (refKey interface account).toList.takeWhile (· != '@') = interface.toList := by
  have hall : ∀ c ∈ interface.toList, (c != '@') = true := fun c hc =>
    bne_iff_ne.mpr fun heq => hmark (heq ▸ hc)
  rw [refKey, String.toList_append, String.toList_append, List.append_assoc,
    List.takeWhile_append_of_pos hall]
  simp

theorem refKey_inj {interface interface' : String} {account account' : Rust.Expr}
    (hmark : '@' ∉ interface.toList) (hmark' : '@' ∉ interface'.toList)
    (h : refKey interface account = refKey interface' account') :
    interface = interface' ∧ account.text = account'.text := by
  have hinterface : interface.toList = interface'.toList := by
    rw [← takeWhile_refKey hmark account, h, takeWhile_refKey hmark']
  obtain rfl := String.toList_inj.mp hinterface
  refine ⟨rfl, ?_⟩
  have hlist := congrArg String.toList h
  simp only [refKey, String.toList_append] at hlist
  exact String.toList_inj.mp (List.append_cancel_left hlist)

-- The calls of other contracts in the body of an implementation.
def callsOf (E : Env) (impl : Implementation) : Calls := fun interface method address =>
  ∃ body, Guarded E impl body ∧
    ∃ st ∈ substmtsList body.stmts, (interface, method, address) ∈ externalCalls st

-- Names of references that are used for nothing else, and constants that call no contract.
structure Unmixed (E : Env) (f : Function) (impl : Implementation) : Prop where
  distinct : Distinct (callsOf E impl)
  vars : ∀ body, Guarded E impl body → ∀ st ∈ substmtsList body.stmts, ∀ v ∈ declaredVars st,
    ¬IsRef (callsOf E impl) (Rust.Name.value v.name)
  params : ∀ p ∈ f.params ++ impl.params ++ impl.returns,
    ¬IsRef (callsOf E impl) (Rust.Name.value p.name)
  constants : ∀ r c v, E.package.constant? r = some c → c.value = some v →
    ∀ p interface method address args, .externalCall p interface method address args ∉ v.subexprs

theorem mem_externalCalls_of_subexprs {st : Stmt} {e : Expr} {p : Text.Position} {interface : String}
    {method : Signature} {address : Expr} {args : List Expr} (he : e ∈ st.directExprs)
    (hmem : .externalCall p interface method address args ∈ e.subexprs) :
    (interface, method, address) ∈ externalCalls st :=
  List.mem_filterMap.mpr ⟨_, List.mem_flatMap.mpr ⟨e, he, hmem⟩, rfl⟩

-- The address of the contract to which a reference leads that is made in a state.
def addressIn (h : Host) (fuel : Nat) (t : Target) (interface : String) (account : Rust.Expr)
    (m : Machine) : Except Rust.Exit Value :=
  (((refValue t interface account).referent h fuel).run m).result

-- Every call that a run of a function makes is one of its body, on a reference that was declared before
-- for the same interface and the same text of the address. It reaches the address of that time, which is
-- the address at the time of the call exactly if the two are the same.
theorem call_reaches_current_iff {E : Env} {r : Routine} {f : Function} {impl : Implementation}
    {fn : Rust.Function} {code : Rust.Block} {s s' : State}
    (hw : Writes (function r f (some impl)) E s fn s') (hcode : fn.body = some code)
    (hnames : Unmixed E f impl) {h : Host} {fuel : Nat} {m : Machine}
    (hm : ∀ name type address, (name, Rust.Binding.reference type address) ∉ m.locals)
    {past rest : List Rust.Event} {name method : String} {address : Value} {args : List Value}
    {now : Machine}
    (hrun : ((code.eval h fuel).run m).events = past ++ .called name address method args now :: rest) :
    ∃ interface g a account account' before, callsOf E impl interface g a ∧ g.name = method ∧
      Spells E a account ∧ account'.text = account.text ∧
      .declared name (refValue E.target interface account') address before ∈ past ∧
      addressIn h fuel E.target interface account' before = .ok address ∧
      (addressIn h fuel E.target interface account' now = .ok address ↔
        addressIn h fuel E.target interface account' now =
          addressIn h fuel E.target interface account' before) := by
  have hfits : ∀ body, Guarded E impl body → ∀ st ∈ substmtsList body.stmts,
      Fits (callsOf E impl) st := by
    intro body hbody st hst
    refine ⟨fun e he p interface g a args hmem => ?_, hnames.vars body hbody st hst⟩
    exact ⟨body, hbody, st, hst, mem_externalCalls_of_subexprs he hmem⟩
  have hconsts : ConstantsIn (callsOf E impl) E := fun r c v hc hv p i g a args hmem =>
    absurd hmem (hnames.constants r c v hc hv p i g a args)
  obtain ⟨T, htracked, hclean⟩ := exists_table hnames.distinct hconsts hfits hnames.params hw
  have hkept : Rust.Kept _ h fuel _ := Rust.kept_of_clean (hclean code hcode) hm
  obtain ⟨⟨-, interface, g, a, account, hcall, hspells, hentry, hmethod⟩, value, before, hdeclared⟩ :=
    hkept past _ rest hrun
  obtain ⟨pre, post, hpast⟩ := List.append_of_mem hdeclared
  have hsplit : ((code.eval h fuel).run m).events =
      pre ++ .declared name value address before ::
        (post ++ .called name address method args now :: rest) := by
    simp [hrun, hpast]
  obtain ⟨⟨-, interface', account', hcalled', hentry', rfl⟩, m', es, heval⟩ := hkept pre _ _ hsplit
  -- one entry of the table stands for the call and for the declaration
  have hkey := htracked.unique name _ _ hentry' hentry
  obtain ⟨rfl, htext⟩ := refKey_inj (hnames.distinct.marked _ hcalled')
    (hnames.distinct.marked _ ⟨g, a, hcall⟩) hkey
  have haddress : addressIn h fuel E.target interface' account' before = .ok address := by
    rw [addressIn, heval]
  refine ⟨interface', g, a, account, account', before, hcall, hmethod, hspells, htext, hdeclared,
    haddress, ?_⟩
  rw [haddress]

-- A function that calls a contract, changes the variable that has its address, and calls it again.
namespace Reassigned

def contractMethod : Signature := { name := "m", sourceName := "m", kind := .function }

def call : Stmt := .expr {} (.externalCall {} "IFoo" contractMethod (.var {} "a" (.address false)) [])

def body : Block :=
  { start := {}
    stmts := [call, .assign {} (.var {} "a" (.address false)) (.var {} "b" (.address false)), call] }

def params : List Param := [⟨"a", .address false⟩, ⟨"b", .address false⟩]

def implementation : Implementation :=
  { owner := "C", params := params, body := some body, implemented := true, start := {} }

def caller : Function :=
  { name := "f", sourceName := "f", kind := .function, params := params
    implementations := [implementation] }

def env : Env := { package := { name := "sample", classes := [] }, contract := default, target := .ink .v5 }

def routine : Routine := { name := "f", params := [⟨"a", "AccountId"⟩, ⟨"b", "AccountId"⟩] }

def host : Host where
  field _ := ⟨false, .unit⟩
  literal _ := none
  unary _ _ := none
  binary _ _ _ := none
  cast _ _ := none
  function _ _ _ := none
  method _ _ _ _ := none
  contract _ _ _ _ store := some (.unit, store)

def machine : Machine where
  locals := [("a", .value (.account 1)), ("b", .value (.account 2))]
  store _ := none

theorem guarded_iff {b : Block} : Guarded env implementation b ↔ b = body := by
  constructor
  · rintro ⟨_, s, s', hbody, hw⟩
    cases hbody
    exact (writes_pure.mp hw).1.symm
  · rintro rfl
    exact ⟨_, {}, {}, rfl, rfl⟩

theorem callsOf_iff {interface : String} {g : Signature} {a : Expr} :
    callsOf env implementation interface g a ↔
      (interface, g, a) = ("IFoo", contractMethod, .var {} "a" (.address false)) := by
  constructor
  · rintro ⟨b, hb, st, hst, hmem⟩
    obtain rfl := guarded_iff.mp hb
    simp only [body, substmtsList, Stmt.substmts, call, List.cons_append, List.nil_append, List.mem_cons,
      List.not_mem_nil, or_false] at hst
    rcases hst with rfl | rfl | rfl
    · simpa [externalCalls, Stmt.directExprs, Expr.subexprs, Expr.subexprsList] using hmem
    · simp [externalCalls, Stmt.directExprs, Expr.subexprs] at hmem
    · simpa [externalCalls, Stmt.directExprs, Expr.subexprs, Expr.subexprsList] using hmem
  · rintro ⟨⟩
    exact ⟨body, guarded_iff.mpr rfl, call, List.mem_cons_self, List.mem_singleton.mpr rfl⟩

theorem not_isRef {name : String} (hname : '_' ∉ name.toList) :
    ¬IsRef (callsOf env implementation) name := by
  rintro ⟨interface, -, k, rfl⟩
  exact hname (Rust.Name.underscore_mem_numbered _ k)

theorem unmixed : Unmixed env caller implementation where
  distinct :=
    { marked := by
        rintro i ⟨g, a, hcall⟩
        cases callsOf_iff.mp hcall
        decide
      interfaces := by
        rintro i j ⟨g, a, hcall⟩ ⟨g', a', hcall'⟩ -
        cases callsOf_iff.mp hcall
        cases callsOf_iff.mp hcall'
        rfl
      temps := by
        rintro i ⟨g, a, hcall⟩
        cases callsOf_iff.mp hcall
        decide
      methods := by
        intro i g a hcall
        cases callsOf_iff.mp hcall
        decide }
  vars b hb st hst v hv := by
    obtain rfl := guarded_iff.mp hb
    simp only [body, substmtsList, Stmt.substmts, call, List.cons_append, List.nil_append, List.mem_cons,
      List.not_mem_nil, or_false] at hst
    rcases hst with rfl | rfl | rfl
    · cases hv
    · cases hv
    · cases hv
  params p hp := by
    refine not_isRef ?_
    revert p
    decide
  constants r c v hc := by cases hc

theorem no_references (name type : String) (address : Value) :
    (name, Rust.Binding.reference type address) ∉ machine.locals := by
  simp [machine]

theorem first_call_declared : ∃ fn code s' past now rest,
    Writes (function routine caller (some implementation)) env {} fn s' ∧ fn.body = some code ∧
    ((code.eval host 1).run machine).events =
      past ++ .called "i_foo_0" (.account 1) "m" [] now :: rest ∧
    ∃ interface g a account account' before, callsOf env implementation interface g a ∧ g.name = "m" ∧
      Spells env a account ∧ account'.text = account.text ∧
      .declared "i_foo_0" (refValue env.target interface account') (.account 1) before ∈ past ∧
      addressIn host 1 env.target interface account' before = .ok (.account 1) ∧
      (addressIn host 1 env.target interface account' now = .ok (.account 1) ↔
        addressIn host 1 env.target interface account' now =
          addressIn host 1 env.target interface account' before) := by
  obtain ⟨fn, code, s', past, now, rest, hw, hcode, hrun⟩ : ∃ fn code s' past now rest,
      Writes (function routine caller (some implementation)) env {} fn s' ∧ fn.body = some code ∧
      ((code.eval host 1).run machine).events =
        past ++ .called "i_foo_0" (.account 1) "m" [] now :: rest :=
    ⟨_, _, _, [_], _, [_], rfl, rfl, rfl⟩
  exact ⟨fn, code, s', past, now, rest, hw, hcode, hrun,
    call_reaches_current_iff hw hcode unmixed no_references hrun⟩

-- The second call reaches the address that the variable had before it was changed.
theorem second_call_reaches_old : ∃ fn code s' past now rest,
    Writes (function routine caller (some implementation)) env {} fn s' ∧ fn.body = some code ∧
    ((code.eval host 1).run machine).events =
      past ++ .called "i_foo_0" (.account 1) "m" [] now :: rest ∧
    addressIn host 1 env.target "IFoo" (.ident "a") now = .ok (.account 2) :=
  ⟨_, _, _, [_, _], _, [], rfl, rfl, rfl, rfl⟩

end Reassigned

end RustContracts.Emit
