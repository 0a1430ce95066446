import RustContracts.Proofs.Emit.LocalNames
import RustContracts.Proofs.Emit.Reference

-- Which references to contracts may be changed. A variable is declared for the first call that goes through it, and that
-- call alone decides whether it is `mut`; later calls with the same interface and address take it as it is.
namespace RustContracts

namespace Rust

-- A place where code declares a variable or calls a method of one.
inductive Site where
  | declares (isMut : Bool) (name type : String) (value : Expr)
  | calls (name method : String)

-- A name with colons is a path and no variable.
def Expr.callSite (receiver : Expr) (method : String) : List Site :=
  match receiver with
  | .ident name => if isPath name then [] else [.calls name method]
  | _ => []

mutual

def Expr.sites : Expr → List Site
  | .ident _ | .lit _ | .missing => []
  | .field x _ | .unary _ x | .cast x _ | .tryOp x => x.sites
  | .methodCall x method args => x.callSite method ++ x.sites ++ sitesOfList args
  -- what is called is a path
  | .call _ args | .bangCall _ args | .tuple args | .array args => sitesOfList args
  | .binary _ l r | .index l r => l.sites ++ r.sites
  | .structLit _ fields base => sitesOfFields fields ++ sitesOfOption base
  | .ifElse _ c t e => c.sites ++ t.sites ++ sitesOfOption e
  | .block b => b.sites

def sitesOfList : List Expr → List Site
  | [] => []
  | x :: rest => x.sites ++ sitesOfList rest

def sitesOfFields : List FieldInit → List Site
  | [] => []
  | ⟨_, x⟩ :: rest => x.sites ++ sitesOfFields rest

def sitesOfOption : Option Expr → List Site
  | none => []
  | some x => x.sites

def Block.sites : Block → List Site
  | ⟨stmts, tail⟩ => sitesOfStmts stmts ++ sitesOfOption tail

def Stmt.sites : Stmt → List Site
  | .letVar isMut name type (some x) => .declares isMut name type x :: x.sites
  | .letVar _ _ _ none | .breakLoop _ | .continueLoop _ => []
  | .returnValue x => sitesOfOption x
  | .expr x => x.sites
  | .assign target _ x => target.sites ++ x.sites
  | .whileLoop _ c b => c.sites ++ b.sites
  | .loop _ b | .labeled _ b => b.sites

def sitesOfStmts : List Stmt → List Site
  | [] => []
  | st :: rest => st.sites ++ sitesOfStmts rest

end

-- What the rules say about one place.
def Site.Follows (R : Rules) : Site → Prop
  | declares isMut name type value => isReference type value = true → R.declares name value ∧ R.marks isMut name
  | calls name method => R.reserved name → R.calls name method

section Sites

variable {R : Rules}

theorem follows_callSite {x : Expr} {method : String}
    (hx : x.Clean R ∨ ∃ name, x = .ident name ∧ R.calls name method) : ∀ site ∈ x.callSite method, site.Follows R := by
  intro site hsite
  unfold Expr.callSite at hsite
  split at hsite
  · next name =>
      split at hsite
      · cases hsite
      · next hpath =>
          obtain rfl := List.mem_singleton.mp hsite
          intro hreserved
          rcases hx with hclean | ⟨_, ⟨⟩, hcalls⟩
          · exact absurd hreserved (hclean.resolve_left hpath)
          · exact hcalls
  · cases hsite

theorem not_follows_nil (site : Site) (hsite : site ∈ []) : site.Follows R := absurd hsite List.not_mem_nil

mutual

-- All of clean code follows the rules.
theorem Expr.Clean.sites : ∀ x : Expr, x.Clean R → ∀ site ∈ x.sites, site.Follows R
  | .ident _, _ | .lit _, _ | .missing, _ => not_follows_nil
  | .field x _, h | .unary _ x, h | .cast x _, h | .tryOp x, h => Expr.Clean.sites x h
  | .methodCall x method args, h => by
      obtain ⟨-, hreceiver, hargs⟩ := h
      have hx : ∀ site ∈ x.sites, site.Follows R := by
        rcases hreceiver with hclean | ⟨name, rfl, -⟩
        · exact Expr.Clean.sites x hclean
        · exact not_follows_nil
      have hcall := follows_callSite hreceiver
      exact List.forall_mem_append.mpr ⟨List.forall_mem_append.mpr ⟨hcall, hx⟩, AllClean.sites args hargs⟩
  | .call _ args, h => AllClean.sites args h.2
  | .bangCall _ args, h | .tuple args, h | .array args, h => AllClean.sites args h
  | .binary _ l r, h | .index l r, h =>
    List.forall_mem_append.mpr ⟨Expr.Clean.sites l h.1, Expr.Clean.sites r h.2⟩
  | .structLit _ fields base, h =>
    List.forall_mem_append.mpr ⟨FieldsClean.sites fields h.1, OptionClean.sites base h.2⟩
  | .ifElse _ c t e, h =>
    List.forall_mem_append.mpr ⟨List.forall_mem_append.mpr ⟨Expr.Clean.sites c h.1, Block.Clean.sites t h.2.1⟩,
      OptionClean.sites e h.2.2⟩
  | .block b, h => Block.Clean.sites b h

theorem Expr.Makes.sites : ∀ x : Expr, x.Makes R → ∀ site ∈ x.sites, site.Follows R
  | .methodCall account method args, h => by
      have hcall : ∀ site ∈ account.callSite method, site.Follows R := follows_callSite (.inl h.1)
      have haccount := Expr.Clean.sites account h.1
      exact List.forall_mem_append.mpr ⟨List.forall_mem_append.mpr ⟨hcall, haccount⟩, AllClean.sites args h.2⟩
  | .call _ args, h => AllClean.sites args h

theorem AllClean.sites : ∀ xs : List Expr, AllClean R xs → ∀ site ∈ sitesOfList xs, site.Follows R
  | [], _ => not_follows_nil
  | x :: rest, h => List.forall_mem_append.mpr ⟨Expr.Clean.sites x h.1, AllClean.sites rest h.2⟩

theorem FieldsClean.sites :
    ∀ fields : List FieldInit, FieldsClean R fields → ∀ site ∈ sitesOfFields fields, site.Follows R
  | [], _ => not_follows_nil
  | ⟨_, x⟩ :: rest, h => List.forall_mem_append.mpr ⟨Expr.Clean.sites x h.1, FieldsClean.sites rest h.2⟩

theorem OptionClean.sites : ∀ o : Option Expr, OptionClean R o → ∀ site ∈ sitesOfOption o, site.Follows R
  | none, _ => not_follows_nil
  | some x, h => Expr.Clean.sites x h

theorem Block.Clean.sites : ∀ b : Block, b.Clean R → ∀ site ∈ b.sites, site.Follows R
  | ⟨stmts, tail⟩, h => List.forall_mem_append.mpr ⟨CodeClean.sites stmts h.1, OptionClean.sites tail h.2⟩

theorem Stmt.Clean.sites : ∀ st : Stmt, st.Clean R → ∀ site ∈ st.sites, site.Follows R
  | .letVar isMut name type (some x), h => by
      rcases h with ⟨hclean, hplain⟩ | ⟨hmakes, hrules⟩
      · exact List.forall_mem_cons.mpr
          ⟨fun href => absurd (hplain.symm.trans href) Bool.false_ne_true, Expr.Clean.sites x hclean⟩
      · exact List.forall_mem_cons.mpr ⟨fun _ => hrules, Expr.Makes.sites x hmakes⟩
  | .letVar _ _ _ none, _ | .breakLoop _, _ | .continueLoop _, _ => not_follows_nil
  | .returnValue x, h => OptionClean.sites x h
  | .expr x, h => Expr.Clean.sites x h
  | .assign target _ x, h => List.forall_mem_append.mpr ⟨Expr.Clean.sites target h.1, Expr.Clean.sites x h.2⟩
  | .whileLoop _ c b, h => List.forall_mem_append.mpr ⟨Expr.Clean.sites c h.1, Block.Clean.sites b h.2⟩
  | .loop _ b, h | .labeled _ b, h => Block.Clean.sites b h

theorem CodeClean.sites : ∀ code : List Stmt, CodeClean R code → ∀ site ∈ sitesOfStmts code, site.Follows R
  | [], _ => not_follows_nil
  | st :: rest, h => List.forall_mem_append.mpr ⟨Stmt.Clean.sites st h.1, CodeClean.sites rest h.2⟩

end

end Sites

end Rust

namespace Emit

open Program

variable {E : Env} {s s' : State} {code : List Stmt}

-- The calls of other contracts in some code.
def callsBy (code : List Stmt) : Calls := fun interface method address => (interface, method, address) ∈ callsAlong code

mutual

theorem mem_callsInside : ∀ st : Stmt, ∀ x ∈ st.substmts, externalCalls x ⊆ externalCalls st ++ callsInside st
  | .block b, x, hx => by
      rw [callsInside]
      exact List.subset_append_of_subset_right _ (mem_callsInBlock b x hx)
  | .ifElse p c t none, x, hx => by
      rw [callsInside]
      rcases List.mem_cons.mp hx with rfl | hx
      · exact List.subset_append_left _ _
      · exact List.subset_append_of_subset_right _ (mem_callsInBlock t x hx)
  | .ifElse p c t (some e), x, hx => by
      have ht := mem_callsInBlock t x
      have he := mem_callsInBlock e x
      rw [callsInside]
      rw [Stmt.substmts, List.mem_cons, List.mem_append] at hx
      grind
  | .whileLoop p c b doesFirst, x, hx => by
      rw [callsInside]
      rcases List.mem_cons.mp hx with rfl | hx
      · exact List.subset_append_left _ _
      · exact List.subset_append_of_subset_right _ (mem_callsInBlock b x hx)
  | .forLoop p init c post b, x, hx => by
      have hinit := mem_callsOptional init
      have hpost := mem_callsOptional post
      have hb := mem_callsInBlock b x
      rw [callsInside]
      cases init <;> cases post <;> grind [Stmt.substmts]
  | .decl _ _ _, x, hx | .assign _ _ _, x, hx | .expr _ _, x, hx | .returnValue _ _, x, hx
  | .require _ _ _, x, hx | .revert _ _ _, x, hx | .emit _ _ _, x, hx | .breakLoop _, x, hx
  | .continueLoop _, x, hx | .placeholder _, x, hx => by
      obtain rfl := List.mem_singleton.mp hx
      exact List.subset_append_left _ _
termination_by structural st => st

theorem mem_callsOptional : ∀ o : Option Stmt, ∀ st ∈ o, ∀ x ∈ st.substmts, externalCalls x ⊆ callsOptional o
  | none, _, hst, _, _ => by cases hst
  | some st, _, rfl, x, hx => mem_callsInside st x hx
termination_by structural o => o

theorem mem_callsInBlock : ∀ b : Block, ∀ x ∈ b.substmts, externalCalls x ⊆ callsInBlock b
  | ⟨start, body, unchecked⟩, x, hx => by
      rw [callsInBlock]
      rcases List.mem_cons.mp hx with rfl | hx
      · exact List.nil_subset _
      · exact mem_callsAlong body x hx
termination_by structural b => b

theorem mem_callsAlong : ∀ code : List Stmt, ∀ x ∈ substmtsList code, externalCalls x ⊆ callsAlong code
  | [], x, hx => by cases hx
  | st :: rest, x, hx => by
      rw [callsAlong]
      rcases List.mem_append.mp hx with hx | hx
      · exact List.subset_append_of_subset_left _ (mem_callsInside st x hx)
      · exact List.subset_append_of_subset_right _ (mem_callsAlong rest x hx)
termination_by structural code => code

end

-- Names of references that are used for nothing else in a function, and constants that call no contract.
structure RefsApart (E : Env) (params results : List Param) (code : List Stmt) : Prop where
  distinct : Distinct (callsBy code)
  vars : ∀ st ∈ substmtsList code, ∀ v ∈ declaredVars st, ¬IsRef (callsBy code) (Rust.Name.value v.name)
  params : ∀ p ∈ params ++ results, ¬IsRef (callsBy code) (Rust.Name.value p.name)
  constants : ∀ r c v, E.package.constant? r = some c → c.value = some v →
    ∀ p interface method address args, .externalCall p interface method address args ∉ v.subexprs

section RefsApart

variable {params results : List Param} {g : Rust.Function}

theorem RefsApart.fits (h : RefsApart E params results code) : ∀ st ∈ substmtsList code, Fits (callsBy code) st := by
  intro st hst
  refine ⟨fun e he p interface g a args hmem => ?_, h.vars st hst⟩
  exact mem_callsAlong code st hst (mem_externalCalls_of_subexprs he hmem)

theorem RefsApart.constantsIn (h : RefsApart E params results code) : ConstantsIn (callsBy code) E :=
  fun r c v hc hv p i g a args hmem => absurd hmem (h.constants r c v hc hv p i g a args)

theorem keeps_initializer {C : Calls} {T : Table} (hC : Distinct C) (hconsts : ConstantsIn C E) {c : Contract} {r : Routine}
    (hparams : ∀ p ∈ constructorParams c, ¬IsRef C (Rust.Name.value p.name))
    (hfits : ∀ st ∈ substmtsList (fieldInits c ++ code), Fits C st) :
    Keeps E C (callsAlong (fieldInits c ++ code)) T (initializer c r code) := by
  unfold initializer
  refine keeps_bind (keeps_frame fun _ => ⟨rfl, rfl⟩) fun _ _ _ _ => ?_
  refine keeps_bind (keeps_declareParams hC hparams _) fun _ _ _ _ => ?_
  refine keeps_bind (keeps_routineShell hC _) fun _ shell _ _ => ?_
  refine keeps_last (keeps_stmts hC hconsts _ _ hfits) fun W written _ hwritten => ?_
  refine keeps_bind (keeps_preamble hC _) fun V before hWV hbefore => keeps_pure fun X hX => ?_
  rintro code ⟨⟩
  refine ⟨Rust.codeClean_append.mpr ⟨hbefore X hX, hwritten X (hWV.trans hX)⟩, ?_⟩
  split
  · trivial
  · exact Rust.clean_callPath (by decide) ⟨trivial, trivial⟩

-- The calls of a function are a log of requests, and its code keeps to it.
theorem exists_log_of_carries (h : Carries E g params results code) (hnames : RefsApart E params results code) :
    ∃ T s', Grows E (callsAlong code) [] T ∧ Tracked (callsBy code) T s' ∧
      ∀ body ∈ g.body, body.Clean (rules E (callsBy code) T) := by
  have hfits := hnames.fits
  have hC := hnames.distinct
  have hconsts := hnames.constantsIn
  obtain ⟨hparams, hresults⟩ := List.forall_mem_append.mp hnames.params
  cases h with
  | @function r f i body inner s s' s₁ s₂ s₃ s₄ hbody hguarded hrparams hw =>
      have hinner (b : Block) (hb : Guarded E i b) : b = inner := by
        obtain ⟨body', t, t', hbody', hb⟩ := hb
        obtain rfl : body = body' := by simpa [hbody] using hbody'
        exact ((stateless_guarded _ _).unique hb hguarded).1
      have hdeclared : ∀ p ∈ (if i.params.length = r.params.length then i.params else f.params) ++ i.returns,
          ¬IsRef (callsBy inner.stmts) (Rust.Name.value p.name) := by
        rw [if_pos (length_rustParams hrparams).symm]
        exact hnames.params
      obtain ⟨b, hb, T, hlog⟩ := exists_log hC hconsts (fun b hb => hinner b hb ▸ hfits) hdeclared hw
      obtain rfl := hinner b hb
      exact ⟨T, s', hlog⟩
  | @initializer c r inner s s' s₁ s₂ s₃ s₄ hcode hrparams hw =>
      rw [classInit_eq] at hw
      obtain ⟨u, t₁, henter, hw⟩ := writes_bind.mp hw
      obtain ⟨inner', t₂, hinner, hw⟩ := writes_bind.mp hw
      obtain ⟨rfl, rfl⟩ := (stateless_constructorCode c).unique hcode hinner
      obtain ⟨T, hlog⟩ := (tracked_enter _ henter).tidy hw (keeps_initializer hC hconsts hparams hfits)
      exact ⟨T, s', hlog⟩

end RefsApart

-- The method of a trait takes `&mut self`.
def TakesMut (E : Env) (v : InkVersion) (f : Signature) : Prop :=
  ∃ s fn s', Writes (Ink.interfaceMethod v f) E s fn s' ∧ fn.receiver = "&mut self"

theorem TakesMut.mutates {v : InkVersion} {f : Signature} (h : TakesMut E v f) : f.mutability.mutates = true := by
  obtain ⟨s, fn, s', hw, hreceiver⟩ := h
  unfold Ink.interfaceMethod at hw
  obtain ⟨params, s₁, -, hw⟩ := writes_bind.mp hw
  obtain ⟨result, s₂, -, hw⟩ := writes_bind.mp hw
  obtain ⟨env, s₃, -, hw⟩ := writes_bind.mp hw
  obtain ⟨selector, s₄, -, hw⟩ := writes_bind.mp hw
  obtain ⟨rfl, -⟩ := writes_pure.mp hw
  cases hmutates : f.mutability.mutates with
  | true => rfl
  | false =>
      simp only [hmutates] at hreceiver
      exact absurd hreceiver (by decide)

-- A method that is called on a variable: by a call in the source whose interface and address are those of the variable.
structure Invokes (E : Env) (code : List Stmt) (T : Table) (body : Rust.Block) (name : String) (f : Signature) :
    Prop where
  site : .calls name f.name ∈ body.sites
  source : ∃ interface address account, (interface, f, address) ∈ callsAlong code ∧ Spells E address account ∧
    T.Has name (refKey interface account)

-- Every reference that is needed for changes is declared as one that may be changed.
def MutWhereNeeded (body : Rust.Block) (needed : String → Prop) : Prop :=
  ∀ isMut name type value, .declares isMut name type value ∈ body.sites → Rust.isReference type value = true →
    needed name → isMut = true

-- The calls of a function, in their order, each go through a variable that stands for their interface and the text of
-- their address. It is declared for the first of them, and is `mut` exactly if that one changes state. So all variables
-- that need it are `mut` exactly if, of the calls through each such variable, the first is one that changes state.
theorem references_mut_iff {v : InkVersion} (htarget : E.target = .ink v) {params results : List Param}
    {g : Rust.Function} (h : Carries E g params results code) (hnames : RefsApart E params results code)
    {body : Rust.Block} (hbody : g.body = some body) :
    ∃ T : Table, T.map Request.call = callsAlong code ∧ (∀ r ∈ T, r.Written E) ∧
      (∀ r ∈ T, ∀ r' ∈ T, r.name = r'.name → r.interface = r'.interface ∧ r.account.text = r'.account.text) ∧
      (∀ name method, .calls name method ∈ body.sites → IsRef (callsBy code) name →
        ∃ f, f.name = method ∧ Invokes E code T body name f) ∧
      (∀ isMut name type value, .declares isMut name type value ∈ body.sites →
        Rust.isReference type value = true → ∃ (r : Request) (account : Rust.Expr), T.opener? name = some r ∧
          account.text = r.account.text ∧ value = account.method "into" ∧ isMut = r.method.mutability.mutates) ∧
      (MutWhereNeeded body (fun name => ∃ f, Invokes E code T body name f ∧ TakesMut E v f) ↔
        ∀ isMut name type value, .declares isMut name type value ∈ body.sites → Rust.isReference type value = true →
          (∃ f, Invokes E code T body name f ∧ TakesMut E v f) →
            ∀ r, T.opener? name = some r → r.method.mutability.mutates = true) := by
  obtain ⟨T, s', ⟨more, hmore, hcalls, hwritten⟩, htracked, hclean⟩ := exists_log_of_carries h hnames
  obtain rfl : T = more := hmore
  have hsites := Rust.Block.Clean.sites body (hclean body hbody)
  have hcalled (r : Request) (hr : r ∈ T) : r.call ∈ callsAlong code := by
    rw [← hcalls]
    exact List.mem_map_of_mem hr
  have hmarked (r : Request) (hr : r ∈ T) : '@' ∉ r.interface.toList :=
    hnames.distinct.marked _ ⟨r.method, r.address, hcalled r hr⟩
  have hsame (r : Request) (hr : r ∈ T) (r' : Request) (hr' : r' ∈ T) (hname : r.name = r'.name) :
      r.interface = r'.interface ∧ r.account.text = r'.account.text :=
    refKey_inj (hmarked r hr) (hmarked r' hr')
      (htracked.unique r.name _ _ ⟨r, hr, rfl, rfl⟩ ⟨r', hr', hname.symm, rfl⟩)
  have hdeclared (isMut : Bool) (name type : String) (value : Rust.Expr)
      (hsite : .declares isMut name type value ∈ body.sites) (href : Rust.isReference type value = true) :
      ∃ (r : Request) (account : Rust.Expr), T.opener? name = some r ∧ account.text = r.account.text ∧
        value = account.method "into" ∧ isMut = r.method.mutability.mutates := by
    obtain ⟨⟨-, interface, account, hcalled, hhas, rfl⟩, r, hopener, rfl⟩ := hsites _ hsite href
    refine ⟨r, account, hopener, ?_, by rw [htarget]; rfl, rfl⟩
    have hkey := htracked.unique name _ _ hhas (Table.has_of_opener? hopener)
    exact (refKey_inj (hnames.distinct.marked _ hcalled) (hmarked r (List.mem_of_find?_eq_some hopener)) hkey).2
  refine ⟨T, hcalls, hwritten, hsame, ?_, hdeclared, fun hall => ?_, fun hall => ?_⟩
  · intro name method hsite hisRef
    obtain ⟨-, interface, f, address, account, hcall, hspells, hhas, rfl⟩ := hsites _ hsite hisRef
    exact ⟨f, rfl, hsite, interface, address, account, hcall, hspells, hhas⟩
  · intro isMut name type value hsite href hneeded r hr
    obtain ⟨r', account, hr', -, -, hmut⟩ := hdeclared isMut name type value hsite href
    obtain rfl := Option.some.inj (hr.symm.trans hr')
    exact hmut.symm.trans (hall isMut name type value hsite href hneeded)
  · intro isMut name type value hsite href hneeded
    obtain ⟨r, account, hr, -, -, hmut⟩ := hdeclared isMut name type value hsite href
    exact hmut.trans (hall isMut name type value hsite href hneeded r hr)

-- A function that calls two methods of one contract: `IFoo(a).first(); IFoo(a).change();`
namespace Viewed

def look : Signature := { name := "look", sourceName := "look", kind := .function, mutability := .view }

def change : Signature := { name := "change", sourceName := "change", kind := .function }

def call (method : Signature) : Stmt :=
  .expr {} (.externalCall {} "IFoo" method (.var {} "a" (.address false)) [])

def body (first : Signature) : Block := { start := {}, stmts := [call first, call change] }

def params : List Param := [⟨"a", .address false⟩]

def implementation (first : Signature) : Implementation :=
  { owner := "C", params := params, body := some (body first), implemented := true, start := {} }

def caller (first : Signature) : Function :=
  { name := "f", sourceName := "f", kind := .function, params := params
    implementations := [implementation first] }

def env : Env := { package := { name := "sample", classes := [] }, contract := default, target := .ink .v5 }

def routine : Routine := { name := "f", params := [⟨"a", "AccountId"⟩] }

def sites (first : Signature) : List Rust.Site :=
  [.declares first.mutability.mutates "i_foo_0" "ink::contract_ref!(IFoo)" ((Rust.Expr.ident "a").method "into"),
    .calls "a" "into", .calls "i_foo_0" first.name, .calls "i_foo_0" "change"]

theorem carries_caller {first : Signature} (hfirst : first = look ∨ first = change) : ∃ g code,
    Carries env g params [] (body first).stmts ∧ g.body = some code ∧ code.sites = sites first := by
  have hcarries {s' : State} {g : Rust.Function}
      (hw : Writes (function routine (caller first) (some (implementation first))) env {} g s') :
      Carries env g params [] (body first).stmts := by
    have hguarded : Writes (guarded (body first) (implementation first).modifiers) env {} (body first) {} := rfl
    have hparams : Writes (rustParams (implementation first).params) env {} routine.params {} := rfl
    exact .function rfl hguarded hparams hw
  rcases hfirst with rfl | rfl
  · exact ⟨_, _, hcarries rfl, rfl, rfl⟩
  · exact ⟨_, _, hcarries rfl, rfl, rfl⟩

theorem callsAlong_body (first : Signature) : callsAlong (body first).stmts =
    [("IFoo", first, .var {} "a" (.address false)), ("IFoo", change, .var {} "a" (.address false))] := rfl

theorem called_iff {first : Signature} {interface : String} (hcalled : Called (callsBy (body first).stmts) interface) :
    interface = "IFoo" := by
  obtain ⟨g, a, hcall⟩ := hcalled
  rw [callsBy, callsAlong_body] at hcall
  simp only [List.mem_cons, Prod.mk.injEq, List.not_mem_nil, or_false] at hcall
  rcases hcall with ⟨rfl, -⟩ | ⟨rfl, -⟩ <;> rfl

theorem refsApart_change : RefsApart env params [] (body change).stmts where
  distinct :=
    { marked := by
        intro i hi
        rw [called_iff hi]
        decide
      interfaces := by
        rintro i j hi hj -
        rw [called_iff hi, called_iff hj]
      temps := by
        intro i hi
        rw [called_iff hi]
        decide
      methods := by
        intro i g a hcall
        rw [callsBy, callsAlong_body] at hcall
        obtain ⟨-, rfl, -⟩ : i = "IFoo" ∧ g = change ∧ _ := by simpa using hcall
        decide }
  vars st hst v hv := by
    simp only [body, substmtsList, Stmt.substmts, call, List.cons_append, List.nil_append, List.mem_cons,
      List.not_mem_nil, or_false, or_self] at hst
    subst hst
    cases hv
  params p hp := by
    obtain rfl := List.mem_singleton.mp hp
    rintro ⟨interface, -, k, heq⟩
    have hunderscore := Rust.Name.underscore_mem_numbered (Rust.Name.value interface) k
    rw [← heq] at hunderscore
    exact absurd hunderscore (by decide)
  constants r c v hc := by cases hc

theorem takesMut_change : TakesMut env .v5 change := ⟨{}, _, _, rfl, rfl⟩

-- Where both calls change state, the reference is `mut`.
theorem mut_where_changed : ∃ g code T, Carries env g params [] (body change).stmts ∧ g.body = some code ∧
    code.sites = sites change ∧ MutWhereNeeded code fun name =>
      ∃ f, Invokes env (body change).stmts T code name f ∧ TakesMut env .v5 f := by
  obtain ⟨g, code, hcarries, hcode, hsites⟩ := carries_caller (.inr rfl)
  obtain ⟨T, hcalls, -, -, -, -, hiff⟩ := references_mut_iff rfl hcarries refsApart_change hcode
  refine ⟨g, code, T, hcarries, hcode, hsites, hiff.mpr fun _ name _ _ _ _ _ r hr => ?_⟩
  have hcall : r.call ∈ T.map Request.call := List.mem_map_of_mem (List.mem_of_find?_eq_some hr)
  rw [hcalls, callsAlong_body] at hcall
  obtain ⟨-, hmethod, -⟩ : r.interface = "IFoo" ∧ r.method = change ∧ _ := by simpa [Request.call] using hcall
  rw [hmethod]
  rfl

-- Behind a call that only looks, one that changes state goes through a reference that is not `mut`.
theorem changed_without_mut : ∃ g code, Carries env g params [] (body look).stmts ∧ g.body = some code ∧
    .declares false "i_foo_0" "ink::contract_ref!(IFoo)" ((Rust.Expr.ident "a").method "into") ∈ code.sites ∧
    Rust.isReference "ink::contract_ref!(IFoo)" ((Rust.Expr.ident "a").method "into") = true ∧
    .calls "i_foo_0" change.name ∈ code.sites ∧ TakesMut env .v5 change := by
  obtain ⟨g, code, hcarries, hcode, hsites⟩ := carries_caller (.inl rfl)
  refine ⟨g, code, hcarries, hcode, ?_, by decide, ?_, takesMut_change⟩
  · rw [hsites]
    exact List.mem_cons_self
  · rw [hsites]
    exact List.mem_of_getElem? (i := 3) rfl

end Viewed

end Emit

end RustContracts
