import Mathlib.Data.List.Find
import RustContracts.Proofs.Emit.Overload
import RustContracts.Proofs.Resolve.PackageCode

-- Super calls: which implementation one reaches, against the first one with a body behind the calling class.
namespace RustContracts.Emit

open Program
open Resolve (declarationsOf DeclaredIn EntryOf)
open Text (Position)

-- The implementations with a key that classes declare, in the order of the classes.
def declaredImpls (chain : List Contract) (key : String) : List Implementation :=
  (declarationsOf chain key).flatMap (·.implementations)

-- The classes behind a class in a chain.
def behind (chain : List Contract) (name : String) : List Contract :=
  (chain.dropWhile (·.name != name)).drop 1

-- The implementation of the first class behind another that has one with a body.
def nextBody? (chain : List Contract) (name key : String) : Option Implementation :=
  (declaredImpls (behind chain name) key).find? (·.body.isSome)

-- What becomes of a call inside a contract: it is written as a call of the function that runs an implementation,
-- or it is rejected.
def Lowers (E : Env) (start : Position) (name : String) (args : List Expr) (isSuper : Bool)
    (inClass base : String) (t : Ty) : Option Implementation → Prop
  | some impl => ∃ f, (∀ s, Writes (callee start name args.length isSuper inClass base) E s (f, impl) s) ∧
      ∀ {inlined expected s a s'},
        Writes (access inlined expected (.call start name args isSuper inClass base t)) E s a s' →
          ∃ r x, (∃ s s', Writes (callRoutine f impl) E s r s') ∧ CallsFunction r.name x ∧ a = .value (.tryOp x)
  | none => ∃ d, (∀ s, outcome (callee start name args.length isSuper inClass base) E s = (.error (.fault d), s)) ∧
      ∀ inlined expected s,
        outcome (access inlined expected (.call start name args isSuper inClass base t)) E s = (.error (.fault d), s)

-- Why a call is rejected whose function has no implementation that it could reach.
def noImplementation (start : Position) (name : String) : Diagnostic :=
  .invalidFunction start ("function '" ++ name ++ "' has no implementation to call")

section Lowers

variable {E : Env} {start : Position} {name : String} {args : List Expr} {isSuper : Bool}
  {inClass base : String} {t : Ty} {f : Function} {impl : Implementation}

theorem outcome_callee {arity : Nat} (hf : E.contract.lookup? name arity = some f) (s : State) :
    outcome (callee start name arity isSuper inClass base) E s =
      match calledImplementation? E.package f isSuper inClass base with
      | some impl => (.ok (f, impl), s)
      | none => (.error (.fault (noImplementation start name)), s) := by
  unfold callee noImplementation
  rw [outcome_bind, outcome_read]
  dsimp only
  rw [hf]
  dsimp only
  split <;> simp_all

-- What becomes of a call is what its entry makes of it.
theorem lowers_iff (hf : E.contract.lookup? name args.length = some f) {found : Option Implementation} :
    Lowers E start name args isSuper inClass base t found ↔
      calledImplementation? E.package f isSuper inClass base = found := by
  cases hcalled : calledImplementation? E.package f isSuper inClass base with
  | some impl =>
      have hcallee (s : State) : Writes (callee start name args.length isSuper inClass base) E s (f, impl) s := by
        rw [Writes, outcome_callee hf, hcalled]
      constructor
      · intro h
        cases found with
        | none =>
            obtain ⟨d, hd, -⟩ := h
            cases (hcallee {}).symm.trans (hd {})
        | some other =>
            obtain ⟨f', hf', -⟩ := h
            obtain ⟨heq, -⟩ := (hcallee {}).unique (hf' {})
            cases heq
            rfl
      · rintro rfl
        refine ⟨f, hcallee, fun hwrites => ?_⟩
        obtain ⟨f', impl', r, x, hf', himpl', hr, hx, ha⟩ := writes_call hwrites
        obtain rfl := Option.some.inj (hf.symm.trans hf')
        obtain rfl := Option.some.inj (hcalled.symm.trans himpl')
        exact ⟨r, x, hr, hx, ha⟩
  | none =>
      have hcallee (s : State) : outcome (callee start name args.length isSuper inClass base) E s =
          (.error (.fault (noImplementation start name)), s) := by
        rw [outcome_callee hf, hcalled]
      constructor
      · intro h
        cases found with
        | none => rfl
        | some other =>
            obtain ⟨f', hf', -⟩ := h
            cases (hcallee {}).symm.trans (hf' {})
      · rintro rfl
        refine ⟨_, hcallee, fun inlined expected s => ?_⟩
        rw [access, outcome_bind, hcallee]

-- The implementations of an entry, split at a class of the chain.

theorem declaredImpls_append (before after : List Contract) (key : String) :
    declaredImpls (before ++ after) key = declaredImpls before key ++ declaredImpls after key := by
  simp [declaredImpls, declarationsOf]

section Declared

variable {chain : List Contract} (hchain : ∀ k ∈ chain, ∀ d ∈ k.functions, DeclaredIn k d) {key : String}
  {impl : Implementation} (himpl : impl ∈ declaredImpls chain key)
include hchain himpl

theorem declaredImpls_single : (∃ k ∈ chain, impl.owner = k.name) ∧ impl.implemented = impl.body.isSome := by
  obtain ⟨d, hd, himpl⟩ := List.mem_flatMap.mp himpl
  obtain ⟨k, hk, hd⟩ := List.mem_flatMap.mp hd
  obtain ⟨only, honly, howner, -, -, hbody⟩ := (hchain k hk d (List.mem_reverse.mp (List.mem_filter.mp hd).1)).single
  rw [honly, List.mem_singleton] at himpl
  exact ⟨⟨k, hk, by rw [himpl, howner]⟩, by rw [himpl, hbody]⟩

theorem owner_declaredImpls_ne {name : String} (hname : ∀ k ∈ chain, k.name ≠ name) : impl.owner ≠ name := by
  obtain ⟨⟨k, hk, howner⟩, -⟩ := declaredImpls_single hchain himpl
  exact howner ▸ hname k hk

end Declared

end Lowers

theorem next?_eq (f : Function) (owner : String) : f.next? owner =
    match f.implementations.dropWhile (·.owner != owner) with
    | [] => none
    | _ :: rest => rest.find? Implementation.implemented := rfl

-- Of implementations before, in and behind a class, a super call reaches the first with a body that stands after
-- the first of the class.
theorem next?_of_split {f : Function} {owner : String} {before own after : List Implementation}
    (h : f.implementations = before ++ own ++ after) (hbefore : ∀ i ∈ before, i.owner ≠ owner)
    (hown : ∀ i ∈ own, i.owner = owner) (hafter : ∀ i ∈ after, i.owner ≠ owner) :
    f.next? owner = if own = [] then none else (own.tail ++ after).find? Implementation.implemented := by
  have hskip {l : List Implementation} (hl : ∀ i ∈ l, i.owner ≠ owner) (rest : List Implementation) :
      (l ++ rest).dropWhile (·.owner != owner) = rest.dropWhile (·.owner != owner) :=
    List.dropWhile_append_of_pos (by simpa using hl)
  have hbehind : f.implementations.dropWhile (·.owner != owner) = (own ++ after).dropWhile (·.owner != owner) := by
    rw [h, List.append_assoc, hskip hbefore]
  rw [next?_eq, hbehind]
  cases own with
  | nil =>
      have hnone := hskip hafter []
      rw [List.append_nil] at hnone
      rw [List.nil_append, hnone]
      rfl
  | cons first rest =>
      have hfirst : first.owner = owner := hown first List.mem_cons_self
      rw [List.cons_append, List.dropWhile_cons_of_neg (by simp [hfirst])]
      rfl

-- That is the first one behind the class exactly when the class has an implementation of its own (or there is
-- nothing behind it to reach) and none but its first has a body.
theorem find?_tail_eq_iff {own after : List Implementation} (hapart : ∀ i ∈ own, i ∉ after) :
    (if own = [] then none else (own.tail ++ after).find? (·.body.isSome)) = after.find? (·.body.isSome) ↔
      (own = [] → after.find? (·.body.isSome) = none) ∧ ∀ i ∈ own.tail, i.body = none := by
  cases own with
  | nil => simp [eq_comm]
  | cons first rest =>
      rw [if_neg (List.cons_ne_nil _ _), List.tail_cons, List.find?_append]
      simp only [List.cons_ne_nil, false_implies, true_and]
      constructor
      · intro h i hi
        by_contra hbody
        have hsome : (rest.find? (·.body.isSome)).isSome := by
          rw [List.find?_isSome]
          exact ⟨i, hi, by simpa [Option.isSome_iff_ne_none] using hbody⟩
        obtain ⟨j, hj⟩ := Option.isSome_iff_exists.mp hsome
        rw [hj, Option.some_or] at h
        exact hapart j (List.mem_cons_of_mem _ (List.mem_of_find?_eq_some hj)) (List.mem_of_find?_eq_some h.symm)
      · intro h
        have hnone : rest.find? (·.body.isSome) = none := by
          rw [List.find?_eq_none]
          exact fun i hi => by simp [h i hi]
        rw [hnone, Option.none_or]

-- The entry that a super call names, which the code of a class makes only where a class behind it declares it.
theorem exists_entry_of_super {p : Package} {c k : Contract} (hp : Resolve.PackageCode p) (hc : c ∈ p.classes)
    (htable : Resolve.DispatchTable (p.chainOf c) c.dispatch) (hk : k ∈ p.chainOf c) {e : Expr} (he : e ∈ k.exprs)
    {start : Position} {name : String} {args : List Expr} {inClass base : String} {t : Ty}
    (hx : .call start name args true inClass base t ∈ e.subexprs) :
    inClass = k.name ∧ ∃ f ∈ c.dispatch, f.kind ≠ .getter ∧ f.key = functionKey name args.length ∧
      c.lookup? name args.length = some f := by
  obtain ⟨hmem, -⟩ := hp.mem_chainOf_iff.mp hk
  obtain ⟨hhere, hbase, self, hself, hselfName, owner, howner, declarer, hdeclarer, rfl, s, hs, hkey⟩ :=
    hp.classes k hmem e he _ hx
  obtain rfl : k.name = inClass := by simpa using hhere
  rw [if_pos (hbase rfl)] at hselfName
  obtain ⟨k', hk', rfl⟩ := List.mem_map.mp hself
  obtain rfl : k' = k := List.inj_on_of_nodup_map hp.names_nodup hk' hmem hselfName
  obtain ⟨d, hd, rfl⟩ := List.mem_map.mp hdeclarer
  obtain ⟨g, hg, rfl⟩ := List.mem_map.mp hs
  have hchain : d ∈ p.chainOf c :=
    hp.mem_chainOf_iff.mpr ⟨hd, hp.chain_subset hc hk (List.mem_of_mem_drop howner)⟩
  obtain ⟨f, hf, hkind, hfkey, -⟩ := htable.exists_entry hchain hg
  have hfkey : f.key = functionKey name args.length := hfkey.trans hkey
  refine ⟨rfl, f, hf, hkind, hfkey, ?_⟩
  have hsome : (c.lookup? name args.length).isSome := by
    rw [Contract.lookup?, List.find?_isSome]
    exact ⟨f, hf, by simpa using hfkey⟩
  obtain ⟨f', hf'⟩ := Option.isSome_iff_exists.mp hsome
  rw [hf', eq_of_lookup? htable.keys_nodup hf hfkey hf']

-- Where a class stands in a chain.
theorem behind_of_split {before after : List Contract} {k : Contract}
    (hbefore : ∀ b ∈ before, b.name ≠ k.name) : behind (before ++ k :: after) k.name = after := by
  rw [behind, List.dropWhile_append_of_pos (by simpa using hbefore), List.dropWhile_cons_of_neg (by simp)]
  rfl

section Split

variable {before after : List Contract} {k : Contract}
  (hdeclared : ∀ b ∈ before ++ k :: after, ∀ d ∈ b.functions, DeclaredIn b d)
  (hafter : ∀ b ∈ after, b.name ≠ k.name)
include hdeclared hafter

theorem declaredImpls_apart {key : String} {impl : Implementation} (h : impl ∈ declaredImpls [k] key) :
    impl ∉ declaredImpls after key := by
  intro h'
  obtain ⟨⟨b, hb, howner⟩, -⟩ := declaredImpls_single (by simpa using hdeclared k (by simp)) h
  obtain rfl := List.mem_singleton.mp hb
  exact owner_declaredImpls_ne (fun a ha => hdeclared a (by simp [ha])) h' hafter howner

-- Where a super call from a class of the chain ends up.
theorem calledImplementation?_super {p : Package} {f : Function} {base : String}
    (hf : EntryOf (before ++ k :: after) f) (hbefore : ∀ b ∈ before, b.name ≠ k.name) :
    calledImplementation? p f true k.name base =
      if declaredImpls [k] f.key = [] then none
      else ((declaredImpls [k] f.key).tail ++ declaredImpls after f.key).find? (·.body.isSome) := by
  have hbodies (i : Implementation) (hi : i ∈ f.implementations) : i.implemented = i.body.isSome :=
    (declaredImpls_single hdeclared (hf.implementations ▸ hi)).2
  have himpls : f.implementations =
      declaredImpls before f.key ++ declaredImpls [k] f.key ++ declaredImpls after f.key := by
    rw [hf.implementations, ← declaredImpls, ← List.singleton_append, declaredImpls_append, declaredImpls_append,
      List.append_assoc]
  have hnext := next?_of_split himpls
    (fun i hi => owner_declaredImpls_ne (fun b hb => hdeclared b (by simp [hb])) hi hbefore)
    (fun i hi => by
      obtain ⟨⟨b, hb, howner⟩, -⟩ := declaredImpls_single (by simpa using hdeclared k (by simp)) hi
      rw [howner, List.mem_singleton.mp hb])
    (fun i hi => owner_declaredImpls_ne (fun b hb => hdeclared b (by simp [hb])) hi hafter)
  rw [calledImplementation?, if_pos rfl, hnext]
  split
  · rfl
  · have hfind : ((declaredImpls [k] f.key).tail ++ declaredImpls after f.key).find? Implementation.implemented =
        ((declaredImpls [k] f.key).tail ++ declaredImpls after f.key).find? (·.body.isSome) := by
      refine List.find?_congr fun i hi => hbodies i ?_
      rw [himpls]
      rcases List.mem_append.mp hi with hi | hi
      · simp [List.mem_of_mem_tail hi]
      · simp [hi]
    rw [hfind]
    cases hfound : ((declaredImpls [k] f.key).tail ++ declaredImpls after f.key).find? (·.body.isSome) with
    | none => rfl
    | some i => rw [Option.filter_some, if_pos (List.find?_some hfound)]

end Split

-- A super call in the code of a class reaches the first implementation with a body behind the class, and is
-- rejected only where there is none, exactly when the class declares the function itself (or there is no such
-- implementation) and at most the last of its declarations with that name and number of parameters has a body.
theorem super_reaches_next_iff {pname : String} {unit : Solidity.SourceUnit} {p : Package} {c k : Contract}
    (h : Resolve.package pname unit = .ok p) (hc : c ∈ p.classes) (hk : k ∈ p.chainOf c) {e : Expr}
    (he : e ∈ k.exprs) {start : Position} {name : String} {args : List Expr} {inClass base : String} {t : Ty}
    (hx : .call start name args true inClass base t ∈ e.subexprs) (target : Target) :
    Lowers { package := p, contract := c, target := target } start name args true inClass base t
        (nextBody? (p.chainOf c) k.name (functionKey name args.length)) ↔
      (declaredImpls [k] (functionKey name args.length) = [] →
        nextBody? (p.chainOf c) k.name (functionKey name args.length) = none) ∧
      ∀ impl ∈ (declaredImpls [k] (functionKey name args.length)).tail, impl.body = none := by
  have hp := Resolve.package_code h
  obtain ⟨hnames, hdeclared, htable⟩ := Resolve.dispatch_gathers_declarations h hc
  obtain ⟨rfl, f, hf, hkind, hkey, hlookup⟩ := exists_entry_of_super hp hc htable hk he hx
  obtain ⟨before, after, hchain⟩ := List.append_of_mem hk
  have hnodup : ((before ++ k :: after).map (·.name)).Nodup := by
    rw [← hchain, hnames]
    exact hp.chain_nodup hc
  rw [List.map_append, List.map_cons, List.nodup_append, List.nodup_cons] at hnodup
  obtain ⟨-, ⟨hafter, -⟩, hapart⟩ := hnodup
  have hbefore (b : Contract) (hb : b ∈ before) : b.name ≠ k.name :=
    hapart b.name (List.mem_map_of_mem hb) k.name List.mem_cons_self
  have hafter (b : Contract) (hb : b ∈ after) : b.name ≠ k.name :=
    fun hname => hafter (hname ▸ List.mem_map_of_mem hb)
  rw [hchain] at hdeclared htable ⊢
  rw [lowers_iff hlookup, nextBody?, behind_of_split hbefore, ← hkey,
    calledImplementation?_super hdeclared hafter (htable.entries f hf hkind) hbefore]
  exact find?_tail_eq_iff fun i hi => declaredImpls_apart hdeclared hafter hi

namespace Super

-- A diamond in which every class calls the one behind it, and a class that calls a function of its base without
-- declaring it.

-- `function name() public { super.callee(); }`, and one whose body is empty.

def superStatement (callee : String) : Solidity.Statement :=
  .expr default ⟨default, default,
    ⟨⟨.term default (.ident "super") [.member default callee, .call default []], []⟩, none⟩, none⟩

def superFunction (name callee : String) : Solidity.ContractPart :=
  .function default
    { start := default, stop := default, kind := "function", name := name, params := [], attrs := [], returns := []
      body := some ⟨default, default, [superStatement callee]⟩ }

def diamond : Solidity.SourceUnit :=
  ⟨default, [
    Resolve.plainContract "A" false [] [Resolve.plainFunction "f" [] true],
    Resolve.plainContract "B" false ["A"] [superFunction "f" "f"],
    Resolve.plainContract "C" false ["A"] [superFunction "f" "f"],
    Resolve.plainContract "D" false ["B", "C"] [superFunction "f" "f"]]⟩

def lone : Solidity.SourceUnit :=
  ⟨default, [
    Resolve.plainContract "A" false [] [Resolve.plainFunction "f" [] true],
    Resolve.plainContract "B" false ["A"] [superFunction "g" "f"]]⟩

-- The classes that these become.

def superCall (callee inClass : String) : Expr := .call default callee [] true inClass "" (.tuple [])

def implOf (owner : String) (callee : Option String) : Implementation :=
  { owner := owner
    body := some ⟨default, callee.toList.map fun f => .expr default (superCall f owner), false⟩
    implemented := true
    calls := callee.toList.map fun f => functionKey f 0
    start := default }

def functionOf (name : String) (impls : List Implementation) : Function :=
  { name := name, sourceName := name, kind := .function, implementations := impls }

def classOf (name : String) (bases chain : List String) (functions dispatch : List Function) : Contract :=
  { name := name, kind := .contract, isAbstract := false, bases := bases, start := default, chain := chain
    functions := functions, storage := [], dispatch := dispatch, modifierTable := [] }

def diamondPackage : Package :=
  let a := implOf "A" none
  let b := implOf "B" (some "f")
  let c := implOf "C" (some "f")
  let d := implOf "D" (some "f")
  { name := "sample"
    classes := [
      classOf "A" [] ["A"] [functionOf "f" [a]] [functionOf "f" [a]],
      classOf "B" ["A"] ["B", "A"] [functionOf "f" [b]] [functionOf "f" [b, a]],
      classOf "C" ["A"] ["C", "A"] [functionOf "f" [c]] [functionOf "f" [c, a]],
      classOf "D" ["B", "C"] ["D", "C", "B", "A"] [functionOf "f" [d]] [functionOf "f" [d, c, b, a]]] }

def lonePackage : Package :=
  let a := functionOf "f" [implOf "A" none]
  let b := functionOf "g" [implOf "B" (some "f")]
  { name := "sample"
    classes := [classOf "A" [] ["A"] [a] [a], classOf "B" ["A"] ["B", "A"] [b] [a, b]] }

theorem package_diamond : Resolve.package "sample" diamond = .ok diamondPackage := by cbv

theorem package_lone : Resolve.package "sample" lone = .ok lonePackage := by cbv

-- In the contract at the bottom, the call of one side reaches the other side before the top.
theorem super_reaches_sibling : ∃ c ∈ diamondPackage.classes, ∃ k ∈ diamondPackage.chainOf c, ∃ e ∈ k.exprs,
    Resolve.package "sample" diamond = .ok diamondPackage ∧ c.name = "D" ∧ k.name = "C" ∧
    superCall "f" "C" ∈ e.subexprs ∧
    (nextBody? (diamondPackage.chainOf c) k.name (functionKey "f" 0)).map (·.owner) = some "B" ∧
    Lowers { package := diamondPackage, contract := c, target := .ink .v5 } default "f" [] true "C" "" (.tuple [])
      (nextBody? (diamondPackage.chainOf c) k.name (functionKey "f" 0)) := by
  have hc : diamondPackage.classes.getD 3 default ∈ diamondPackage.classes := by simp [diamondPackage]
  have hk : diamondPackage.classes.getD 2 default ∈
      diamondPackage.chainOf (diamondPackage.classes.getD 3 default) := List.mem_cons_of_mem _ List.mem_cons_self
  have he : superCall "f" "C" ∈ (diamondPackage.classes.getD 2 default).exprs := List.mem_cons_self
  have hx : superCall "f" "C" ∈ (superCall "f" "C").subexprs := List.mem_cons_self
  refine ⟨_, hc, _, hk, _, he, package_diamond, rfl, rfl, hx, rfl, ?_⟩
  refine (super_reaches_next_iff package_diamond hc hk he hx (.ink .v5)).mpr ⟨?_, ?_⟩
  · nofun
  · nofun

-- A class that does not declare the function itself: the call is rejected although the base has a body, and the
-- contract with it.
theorem super_rejected : ∃ c ∈ lonePackage.classes, ∃ k ∈ lonePackage.chainOf c, ∃ e ∈ k.exprs,
    Resolve.package "sample" lone = .ok lonePackage ∧ superCall "f" k.name ∈ e.subexprs ∧
    (nextBody? (lonePackage.chainOf c) k.name (functionKey "f" 0)).map (·.owner) = some "A" ∧
    Lowers { package := lonePackage, contract := c, target := .ink .v5 } default "f" [] true k.name ""
      (.tuple []) none ∧
    (file lonePackage c (.ink .v5)).toOption.isNone = true := by
  have hc : lonePackage.classes.getD 1 default ∈ lonePackage.classes := by simp [lonePackage]
  have hk : lonePackage.classes.getD 1 default ∈ lonePackage.chainOf (lonePackage.classes.getD 1 default) :=
    List.mem_cons_self
  have he : superCall "f" "B" ∈ (lonePackage.classes.getD 1 default).exprs := List.mem_cons_self
  refine ⟨_, hc, _, hk, _, he, package_lone, List.mem_cons_self, rfl, ?_, ?_⟩
  · exact (lowers_iff rfl).mpr rfl
  · decide

end Super

end RustContracts.Emit
