import Mathlib
import RustContracts.Proofs.Emit.ConformsFile
import RustContracts.Proofs.Emit.Ending

-- Rust reads all code of a file as it is meant, where no left operand of `<` or `<<` in the source is written with a cast
-- at its end, and nothing that is tested builds a struct in the open.
namespace RustContracts.Emit

open Program

-- An expression of the source that Rust reads as it is meant.
def Straight (p : Package) (target : Target) : Expr → Prop
  | .binary _ op left right _ => op = .lt ∨ op = .shl → ∀ expected,
      ¬ TrailsAs p target (Rust.leftTightness op.text) (some (operandType expected op left.type right.type)) left
  | .ternary _ cond _ _ _ => ¬ Shows p target cond
  | _ => True

structure StraightCode (p : Package) (target : Target) (i : Implementation) : Prop where
  exprs : ∀ e ∈ i.exprs, e.Each (Straight p target)
  tests : ∀ b ∈ i.body, ∀ st ∈ b.substmts, ∀ t ∈ st.test?, ¬ Shows p target t.1

structure StraightPackage (p : Package) (target : Target) : Prop where
  exprs : ∀ e ∈ p.exprs, e.Each (Straight p target)
  tests : ∀ k ∈ p.classes, ∀ f ∈ k.constructor.toList ++ k.functions ++ k.modifiers, ∀ i ∈ f.implementations,
    ∀ b ∈ i.body, ∀ st ∈ b.substmts, ∀ t ∈ st.test?, ¬ Shows p target t.1

variable {E : Env} {p : Package} {c : Contract} {target : Target} {name : String} {unit : Solidity.SourceUnit}

-- What the compiler adds on its own casts nothing before `<` and tests no struct.
theorem mild_unambiguous (target : Target) : Mild Rust.unambiguous target where
  ink _ _ _ := trivial
  env := trivial
  failure := trivial
  nameless := trivial
  path _ _ := trivial
  joined _ _ := trivial
  left _ _ hless hshift hop := absurd hop (not_or.mpr ⟨hless, hshift⟩)
  count i n := by
    refine ⟨fun _ => (closed_ident i).1 _, fun h => ?_⟩
    rcases h.2 with hleft | hright
    · exact (closed_ident i).2 (hleft.mono (Nat.zero_le _))
    · exact (closed_ident n).2 (hright.mono (Nat.zero_le _))
  call path args := (closed_callPath path args).2

theorem suits_of_straight {e : Expr} (he : e.Each (Straight E.package E.target)) : e.Each (Suits Rust.unambiguous E) := by
  intro x hx
  have hstraight := he x hx
  unfold Straight at hstraight
  unfold Suits
  split
  · exact fun _ => trivial
  · exact fun _ _ _ _ => trivial
  · intro hop t left hleft
    have hends (h : left.EndsInCast _) : False := hstraight hop t ((marks_operand hleft).ends _ h)
    exact ⟨fun _ => hends, fun _ h => hends (Rust.Expr.endsInCast_borrowed h)⟩
  · exact fun cond hcond h => hstraight ((marks_operand hcond).shows h)
  · trivial

theorem suitsCode_of_straight {i : Implementation} (h : StraightCode E.package E.target i) :
    SuitsCode Rust.unambiguous E i where
  stmts b hb st hst := by
    have hmem : st ∈ b.substmts := by
      cases b
      exact List.mem_cons_of_mem _ hst
    refine ⟨fun e he => suits_of_straight (h.exprs e ?_), fun _ _ => trivial, fun t ht x hx hshows => ?_⟩
    · refine List.mem_append_left _ (List.mem_flatMap.mpr ⟨b, Option.mem_toList.mpr hb, ?_⟩)
      exact List.mem_flatMap.mpr ⟨st, hmem, he⟩
    · refine h.tests b hb st hmem t ht ((marks_operand hx).shows ?_)
      split at hshows
      · exact showsStruct_of_unary hshows
      · exact hshows
  args m hm e he := suits_of_straight (h.exprs e (List.mem_append_right _ (List.mem_flatMap.mpr ⟨m, hm, he⟩)))
  names _ _ := trivial

section StraightPackage

variable (h : StraightPackage p target)
include h

theorem straightCode_declared {k : Contract} (hk : k ∈ p.classes) {f : Function}
    (hf : f ∈ k.constructor.toList ++ k.functions ++ k.modifiers) {i : Implementation} (hi : i ∈ f.implementations) :
    StraightCode p target i where
  exprs e he := by
    refine h.exprs e (List.mem_append_left _ (List.mem_flatMap.mpr ⟨k, hk, ?_⟩))
    exact ContractDecl.mem_exprs hf hi he
  tests := h.tests k hk f hf i hi

-- A getter only reads.
theorem straightCode_gathered (hp : Resolve.package name unit = .ok p) (hc : c ∈ p.classes) :
    (∀ f ∈ c.dispatch, f.Has (StraightCode p target)) ∧
      ∀ m ∈ c.modifierTable, ∀ i ∈ m.implementations, StraightCode p target i := by
  refine implementations_gathered hp hc (fun k hk f hf i hi => ?_) fun field i hi => ?_
  · refine straightCode_declared h hk ?_ hi
    rw [List.append_assoc]
    exact List.mem_append_right _ hf
  · have hread (e : Expr) (he : e.isRead = true) : Straight p target e := by
      unfold Straight
      split
      · cases he
      · cases he
      · trivial
    refine (has_getter hread field i hi).imp_left fun hexprs => ⟨hexprs, ?_⟩
    obtain rfl := List.mem_singleton.mp hi
    rintro _ ⟨⟩ st hst t ht
    simp only [Block.substmts, substmtsList, Stmt.substmts, List.append_nil, List.mem_cons, List.not_mem_nil, or_false] at hst
    rcases hst with rfl | rfl <;> cases ht

theorem lawful_unambiguous : Lawful Rust.unambiguous ⟨p, c, target⟩ where
  mild := mild_unambiguous target
  constants r k v hk hv := by
    refine suits_of_straight (h.exprs v ?_)
    have hmem := List.mem_of_find?_eq_some hk
    rcases List.mem_append.mp hmem with hmem | hmem
    · exact List.mem_append_right _ (List.mem_flatMap.mpr ⟨k, hmem, by simp [hv]⟩)
    · obtain ⟨c', hc', hmem⟩ := List.mem_flatMap.mp hmem
      refine List.mem_append_left _ (List.mem_flatMap.mpr ⟨c', hc', ?_⟩)
      simp only [ContractDecl.exprs, List.mem_append]
      exact .inl (.inr (List.mem_flatMap.mpr ⟨k, hmem, by simp [hv]⟩))

theorem straightCode_guarded (hp : Resolve.package name unit = .ok p) (hc : c ∈ p.classes) {i j : Implementation}
    (hi : StraightCode p target i) (hj : j ∈ c.guarded i) : StraightCode p target j := by
  rcases mem_guarded.mp hj with rfl | ⟨m, -, guard, hguard, hj⟩
  · exact hi
  · exact (straightCode_gathered h hp hc).2 guard (List.mem_of_find?_eq_some hguard) j hj

theorem suitsDeployment_unambiguous (hp : Resolve.package name unit = .ok p) (hc : c ∈ p.classes) :
    SuitsDeployment Rust.unambiguous ⟨p, c, target⟩ where
  code k hk i hi j hj := by
    obtain ⟨f, hf, hprimary⟩ := Option.bind_eq_some_iff.mp hi
    have hdeclared := straightCode_declared h (mem_of_chainOf hk) (f := f) (by simp [hf]) (mem_of_primary? hprimary)
    exact suitsCode_of_straight (straightCode_guarded h hp hc hdeclared hj)
  fields k hk f hf v hv := by
    refine suits_of_straight (h.exprs v (List.mem_append_left _ (List.mem_flatMap.mpr ⟨k, mem_of_chainOf hk, ?_⟩)))
    simp only [ContractDecl.exprs, List.mem_append]
    exact .inl (.inl (.inr (List.mem_flatMap.mpr ⟨f, hf, Option.mem_toList.mpr hv⟩)))
  baseArgs k hk call hcall e he := by
    refine suits_of_straight (h.exprs e (List.mem_append_left _ (List.mem_flatMap.mpr ⟨k, mem_of_chainOf hk, ?_⟩)))
    exact List.mem_append_right _ (List.mem_flatMap.mpr ⟨call, hcall, he⟩)
  caller _ _ := trivial

-- A function that is written for an implementation in the dispatch table.
theorem fits_entry (hp : Resolve.package name unit = .ok p) (hc : c ∈ p.classes) {f : Function} (hf : f ∈ c.dispatch)
    {impl : Option Implementation} (himpl : ∀ i ∈ impl, i ∈ f.implementations) {fname : String} {entry : Option Signature}
    {r : Routine} {g : Rust.Function} {s s₁ s' : State}
    (hr : Writes (functionRoutine f impl fname entry) ⟨p, c, target⟩ s r s₁)
    (hw : Writes (function r f impl) ⟨p, c, target⟩ s₁ g s') : ∀ code ∈ g.body, code.Fits Rust.unambiguous := by
  have hstraight := (straightCode_gathered h hp hc).1 f hf
  refine fits_function (lawful_unambiguous h) (fun i hi j hj => ?_) (fun i hi => ?_) (fun _ _ => trivial) hw
  · exact suitsCode_of_straight (straightCode_guarded h hp hc (hstraight i (himpl i hi)).1 hj)
  · have htypes := (describes_functionRoutine hr).types.length_eq
    rw [Option.mem_def.mp hi] at htypes
    simpa [declaredTypes, (hstraight i (himpl i hi)).2] using htypes

-- A function of a library.
theorem fits_named (hp : Resolve.package name unit = .ok p) (hc : c ∈ p.classes) {library owner : String} {sig : Signature}
    {arity : Nat} (hnames : NamesLibrary p library owner sig arity) {fname : String} {r : Routine} {g : Rust.Function}
    {s s₁ s' : State} (hr : Writes (libraryRoutine (functionIn p owner sig) fname) ⟨p, c, target⟩ s r s₁)
    (hw : Writes (function r (functionIn p owner sig) (functionIn p owner sig).primary?) ⟨p, c, target⟩ s₁ g s') :
    ∀ code ∈ g.body, code.Fits Rust.unambiguous := by
  obtain ⟨k, hk, -, hf⟩ := hnames.declared
  obtain ⟨impl, hsingle, hparams⟩ := hnames.single
  refine fits_function (lawful_unambiguous h) (fun i hi j hj => ?_) (fun i hi => ?_) (fun _ _ => trivial) hw
  · have hdeclared := straightCode_declared h hk (f := functionIn p owner sig) (by simp [hf]) (mem_of_primary? hi)
    exact suitsCode_of_straight (straightCode_guarded h hp hc hdeclared hj)
  · have hi' := mem_of_primary? hi
    rw [hsingle, List.mem_singleton] at hi'
    subst hi'
    have htypes := (describes_libraryRoutine hr).types.length_eq
    rw [Option.mem_def.mp hi] at htypes
    simpa [declaredTypes, hparams, hnames.signature] using htypes

theorem fits_methods (hp : Resolve.package name unit = .ok p) (hc : c ∈ p.classes) {out : Rust.File}
    (hfile : file p c target = .ok out) : ∀ g ∈ out.methods, ∀ code ∈ g.body, code.Fits Rust.unambiguous := by
  have hsourced := sourced_package hp hc target
  intro g hg
  cases origin_of_methods hsourced hfile g hg with
  | deployed hw hg =>
      exact fits_deployment (lawful_unambiguous h) hsourced (suitsDeployment_unambiguous h hp hc) hw g hg
  | entry hf hr hw => exact fits_entry h hp hc hf (fun _ => mem_of_primary?) hr hw
  | helper hasked hw =>
      cases hasked with
      | implementation hf himpl _ =>
          obtain ⟨r, s₁, hr, hw⟩ := writes_bind.mp hw
          exact fits_entry h hp hc hf (by rintro i ⟨⟩; exact himpl) hr hw
      | library hcall =>
          obtain ⟨r, s₁, hr, hw⟩ := writes_bind.mp hw
          exact fits_named h hp hc (hsourced.libraries _ _ _ _ _ hcall) hr hw

end StraightPackage

-- In all code of a file no cast stands before `<` and no struct in what is tested, so that Rust reads each expression as
-- it is meant.
theorem read?_methods (hp : Resolve.package name unit = .ok p) (hc : c ∈ p.classes) (h : StraightPackage p target)
    {out : Rust.File} (hfile : file p c target = .ok out) : ∀ g ∈ out.methods, ∀ code ∈ g.body,
      code.Fits Rust.unambiguous ∧ ∀ e ∈ code.exprs, e.Readable → Rust.Expr.read? e.text = some e := by
  intro g hg code hcode
  have hfits := fits_methods h hp hc hfile g hg code hcode
  exact ⟨hfits, fun e he hreadable => Rust.Expr.read?_text hreadable (code.fits_exprs hfits e he)⟩


-- `contract C { function f(uint8 a, uint16 b) public pure returns (bool) { return b < a; } }`, the same with
-- `return a < b;`, and behind it `struct S { bool on; }` and
-- `function g() public pure returns (bool) { if (S(true).on) { return true; } return false; }`.
namespace Comparing

open Resolve (plainContract plainType)

def expression (first : Solidity.Operand) (rest : List Solidity.Link) : Solidity.Expression :=
  ⟨default, default, ⟨⟨first, rest⟩, none⟩, none⟩

def term (primary : Solidity.Primary) (suffixes : List Solidity.Suffix) : Solidity.Operand := .term default primary suffixes

def given (value : Solidity.Expression) : Solidity.Statement := .returnValue default (some value)

def testing (name : String) (params : List (String × String)) (body : List Solidity.Statement) : Solidity.ContractPart :=
  .function default
    { start := default, stop := default, kind := "function", name := name
      params := params.map fun p => ⟨default, plainType p.1, "", p.2⟩
      attrs := [.visibility default "public", .mutability default "pure"]
      returns := [⟨default, plainType "bool", "", ""⟩], body := some ⟨default, default, body⟩ }

def comparing (left right : String) : Solidity.ContractPart :=
  testing "f" [("uint8", "a"), ("uint16", "b")]
    [given (expression (term (.ident left) []) [⟨default, .lt, term (.ident right) []⟩])]

def truth (value : Bool) : Solidity.Expression := expression (term (.bool value) []) []

def building : List Solidity.ContractPart := [
  .struct default ⟨default, "S", [⟨default, plainType "bool", "on"⟩]⟩,
  testing "g" [] [
    .ifElse default (expression (term (.ident "S") [.call default [truth true], .member default "on"]) [])
      (.block default ⟨default, default, [given (truth true)]⟩) none,
    given (truth false)]]

def sample (parts : List Solidity.ContractPart) : Solidity.SourceUnit := ⟨default, [plainContract "C" false [] parts]⟩

-- What these become.

def implementation (params : List Param) (body : List Stmt) : Implementation :=
  { owner := "C", params := params, returns := [⟨"", .bool⟩], body := some ⟨default, body, false⟩, implemented := true
    start := default }

def function (name : String) (params : List Param) (body : List Stmt) : Function :=
  { name := name, sourceName := name, kind := .function, mutability := .pure, params := params, returns := [⟨"", .bool⟩]
    implementations := [implementation params body] }

def numbers : List Param := [⟨"a", .int false 8⟩, ⟨"b", .int false 16⟩]

def compares (left right : Expr) : Function :=
  function "f" numbers [.returnValue default (some (.binary default .lt left right .bool))]

def built : Expr := .member default (.structLit default ⟨"C", "S"⟩ [.bool default true]) "on" .bool

def builds : Function :=
  function "g" [] [.ifElse default built ⟨default, [.returnValue default (some (.bool default true))], false⟩ none,
    .returnValue default (some (.bool default false))]

def contract (structs : List StructDecl) (functions : List Function) : Contract :=
  { name := "C", kind := .contract, isAbstract := false, bases := [], start := default, chain := ["C"]
    structs := structs, functions := functions, storage := [], dispatch := functions, modifierTable := [] }

def packageOf (c : Contract) : Package := { name := "sample", classes := [c] }

def a : Expr := .var default "a" (.int false 8)
def b : Expr := .var default "b" (.int false 16)

def apart : Contract := contract [] [compares b a]

def beside : Contract := contract [⟨"S", [⟨"on", .bool⟩], "C", default⟩] [compares a b, builds]

theorem package_apart : Resolve.package "sample" (sample [comparing "b" "a"]) = .ok (packageOf apart) := by cbv

theorem package_beside : Resolve.package "sample" (sample (comparing "a" "b" :: building)) = .ok (packageOf beside) := by cbv

theorem straight_apart (target : Target) : StraightPackage (packageOf apart) target where
  exprs e he := by
    have hall : (packageOf apart).exprs = [.binary default .lt b a .bool] := rfl
    rw [hall, List.mem_singleton] at he
    subst he
    intro x hx
    simp only [Expr.subexprs, b, a, List.mem_cons, List.nil_append, List.cons_append, List.not_mem_nil,
      or_false] at hx
    rcases hx with rfl | rfl | rfl
    · intro _ expected htrails
      cases htrails with
      | same _ he => cases he
      | cast hcast => cases hcast
    · trivial
    · trivial
  tests k hk f hf i hi body hbody st hst t ht := by
    obtain rfl := List.mem_singleton.mp hk
    obtain rfl := List.mem_singleton.mp hf
    obtain rfl := List.mem_singleton.mp hi
    cases hbody
    simp only [Block.substmts, substmtsList, Stmt.substmts, List.append_nil, List.mem_cons, List.not_mem_nil, or_false] at hst
    rcases hst with rfl | rfl <;> cases ht

-- `b < a as u16`
theorem file_apart : (file (packageOf apart) apart (.ink .v5)).toOption.map
    (fun out => out.methods.map fun g => (g.name, g.body.map fun code => code.exprs.map fun e => e.text)) =
      some [("new", some ["Self::default()"]),
        ("f", some ["Ok(b < a as u16)", "b < a as u16", "b", "a as u16", "a"])] := by
  decide +kernel

theorem apart_read : ∃ out, file (packageOf apart) apart (.ink .v5) = .ok out ∧ ∀ g ∈ out.methods, ∀ code ∈ g.body,
    code.Fits Rust.unambiguous ∧ ∀ e ∈ code.exprs, e.Readable → Rust.Expr.read? e.text = some e := by
  have hfile := file_apart
  cases hout : file (packageOf apart) apart (.ink .v5) with
  | error d =>
      rw [hout] at hfile
      cases hfile
  | ok out => exact ⟨out, rfl, read?_methods package_apart (List.mem_singleton.mpr rfl) (straight_apart _) hout⟩

-- `return Ok(a as u32 < b);`, where Rust reads the type `u32<b`.
def lessCode : Rust.Block :=
  ⟨[.returnValue (some (.callPath "Ok" [.binary "<" (.cast (.ident "a") "u32") (.ident "b")]))], none⟩

-- `if S { on: true }.on { return Ok(true); } return Ok(false);`, where it reads a block behind `S`.
def testCode : Rust.Block :=
  ⟨[.expr (.ifElse "" (.field (.structLit "S" [⟨"on", .lit "true"⟩] none) "on")
      ⟨[.returnValue (some (.callPath "Ok" [.lit "true"]))], none⟩ none),
    .returnValue (some (.callPath "Ok" [.lit "false"]))], none⟩

theorem file_beside : (file (packageOf beside) beside .soroban).toOption.map (fun out => out.methods.map (·.body)) =
    some [some lessCode, some testCode] := rfl

theorem beside_misread : ∃ p c out, Resolve.package "sample" (sample (comparing "a" "b" :: building)) = .ok p ∧
    c ∈ p.contracts ∧ file p c .soroban = .ok out ∧
      (∃ g ∈ out.methods, ∃ code ∈ g.body, ∃ e ∈ code.exprs, e.Readable ∧ Rust.Expr.read? e.text = none) ∧
      ∃ g ∈ out.methods, ∃ code ∈ g.body, ∃ cond t f, .ifElse "" cond t f ∈ code.exprs ∧ cond.ShowsStruct 0 := by
  have hfile := file_beside
  cases hout : file (packageOf beside) beside .soroban with
  | error d =>
      rw [hout] at hfile
      cases hfile
  | ok out =>
      rw [hout] at hfile
      have hbodies : out.methods.map (·.body) = [some lessCode, some testCode] := Option.some.inj hfile
      have hcode (code : Rust.Block) (hmem : some code ∈ out.methods.map (·.body)) : ∃ g ∈ out.methods, code ∈ g.body :=
        List.mem_map.mp hmem
      rw [hbodies] at hcode
      refine ⟨_, beside, out, package_beside, List.mem_singleton.mpr rfl, hout, ?_, ?_⟩
      · obtain ⟨g, hg, hbody⟩ := hcode lessCode (.head _)
        refine ⟨g, hg, lessCode, hbody, .binary "<" (.cast (.ident "a") "u32") (.ident "b"), .tail _ (.head _), ?_, by cbv⟩
        refine .binary (by decide) (.cast (.ident ?_) ?_) (.ident ?_) <;> exact .name rfl
      · obtain ⟨g, hg, hbody⟩ := hcode testCode (.tail _ (.head _))
        exact ⟨g, hg, testCode, hbody, _, _, _, .head _, Nat.zero_le _, trivial⟩

end Comparing

end RustContracts.Emit
