import RustContracts.Proofs.Emit.Initialize
import RustContracts.Proofs.Emit.PlaceUpdate
import RustContracts.Proofs.Emit.Super
import RustContracts.Proofs.Rust.Identifier

-- The names of the functions of a contract: how each is built, when all of them are identifiers, and when no two of
-- them are the same.
namespace RustContracts.Emit

open Program
open Rust (identifier isIdentifier isNameChar)

variable {E : Env} {p : Package} {c : Contract} {f g : Function}

-- What a function is written for.
inductive Role where
  -- what deployment calls
  | constructor
  | entry (f : Function)
  -- what deployment runs, and the part of it for one class
  | init
  | classInit (k : Contract)
  -- an implementation that plain calls do not reach
  | implementation (f : Function) (i : Implementation)
  | library (name : String) (f : Function)

namespace Role

def name (target : Target) : Role → String
  | constructor => constructorName target
  | entry f => f.name
  | init => "_init"
  | classInit k => "_init_" ++ trimRaw (Rust.Name.value k.name)
  | implementation f i => "_" ++ trimRaw f.name ++ "_" ++ Rust.Name.value i.owner
  | library l f => Rust.Name.value l ++ "_" ++ trimRaw f.name

-- The names of the source that it is built from.
def sources : Role → List String
  | constructor | init => []
  | entry f => [f.sourceName]
  | classInit k => [k.name]
  | implementation f i => [f.sourceName, i.owner]
  | library l f => [l, f.sourceName]

-- The key under which a helper is asked for.
def key : Role → String
  | implementation f i => implementationKey f i
  | library l f => libraryKey l f
  | _ => ""

-- Helpers that code of the contract may ask for.
def Asked (E : Env) : Role → Prop
  | implementation f i => f ∈ E.contract.dispatch ∧ i ∈ f.implementations ∧ isPrimary f i = false
  | library l f => ∃ start owner s args,
      E.package.Holds (.libraryCall start l owner s args) ∧ f = functionIn E.package owner s
  | _ => False

-- What makes the name a legal one: no dollar in the names of the source, a name that is more than an underscore, and
-- for the implementation of a class no keyword as the identifier of that class.
def Legal (r : Role) : Prop :=
  (∀ n ∈ r.sources, '$' ∉ n.toList) ∧ match r with
    | entry f => f.name ≠ "_"
    | implementation _ i => identifier (Rust.Name.value i.owner) = Rust.Name.value i.owner
    | _ => True

end Role

-- The functions of a contract.

-- What is written for deployment.
def deployRoles (E : Env) : List Role :=
  if runsInit E then [.constructor] else
    match E.target with
    | .ink _ => [.constructor]
    | .soroban => []

def initRoles (E : Env) : List Role := if runsInit E then .init :: (initClasses E).map .classInit else []

def roles (E : Env) (helpers : List Role) : List Role :=
  deployRoles E ++ E.contract.dispatch.map .entry ++ initRoles E ++ helpers

theorem eq_of_mem_deployRoles {r : Role} (h : r ∈ deployRoles E) : r = .constructor := by
  unfold deployRoles at h
  split at h
  · exact List.mem_singleton.mp h
  · split at h
    · exact List.mem_singleton.mp h
    · cases h

theorem mem_initRoles {r : Role} (h : r ∈ initRoles E) :
    r = .init ∨ ∃ k ∈ initClasses E, r = .classInit k := by
  unfold initRoles at h
  split at h
  · refine (List.mem_cons.mp h).imp_right fun h => ?_
    obtain ⟨k, hk, rfl⟩ := List.mem_map.mp h
    exact ⟨k, hk, rfl⟩
  · cases h

theorem role_of_asked {key : String} {h : Helper} (hasked : Asked E key h) :
    ∃ r : Role, r.Asked E ∧ r.key = key ∧ ∀ target, r.name target = h.name := by
  cases hasked with
  | @implementation f i hf hi hother => exact ⟨.implementation f i, ⟨hf, hi, hother⟩, rfl, fun _ => rfl⟩
  | @library start l owner s args hcall =>
      exact ⟨.library l (functionIn E.package owner s), ⟨start, owner, s, args, hcall, rfl⟩, rfl, fun _ => rfl⟩

theorem roles_of_asked {asked : List (String × Helper)} (hasked : ∀ kh ∈ asked, Asked E kh.1 kh.2) :
    ∃ helpers : List Role, (∀ r ∈ helpers, r.Asked E) ∧ helpers.map Role.key = asked.map Prod.fst ∧
      helpers.map (Role.name E.target) = asked.map fun kh => kh.2.name := by
  induction asked with
  | nil => exact ⟨[], by simp⟩
  | cons kh asked ih =>
      obtain ⟨hkh, hrest⟩ := List.forall_mem_cons.mp hasked
      obtain ⟨r, hr, hkey, hname⟩ := role_of_asked hkh
      obtain ⟨helpers, hhelpers, hkeys, hnames⟩ := ih hrest
      refine ⟨r :: helpers, List.forall_mem_cons.mpr ⟨hr, hhelpers⟩, ?_, ?_⟩
      · rw [List.map_cons, List.map_cons, hkey, hkeys]
      · rw [List.map_cons, List.map_cons, hname, hnames]

theorem names_of_emitted {α : Type} {K : List (String × String)} {v : α → Convention} {xs : List α}
    {gs : List Rust.Function} (h : List.Forall₂ (fun x => Emitted E K (v x)) xs gs) :
    gs.map (·.name) = xs.map fun x => (v x).name := by
  induction h with
  | nil => rfl
  | cons hx _ ih => rw [List.map_cons, List.map_cons, hx.declares.name, ih]

theorem names_of_deployed {K : List (String × String)} {deployed inits : List Rust.Function}
    (h : Deployed E K deployed inits) : deployed.map (·.name) = (deployRoles E).map (Role.name E.target) ∧
      inits.map (·.name) = (initRoles E).map (Role.name E.target) := by
  cases h with
  | plain hruns hnames hcode =>
      rw [hnames, deployRoles, initRoles, hruns]
      cases E.target <;> exact ⟨rfl, rfl⟩
  | init hruns hname hpublic hd hi hbody hinits =>
      rw [deployRoles, initRoles, hruns]
      refine ⟨by rw [List.map_singleton, hname]; rfl, ?_⟩
      rw [List.map_cons, hi.name, names_of_emitted hinits]
      simp [Role.name, initConvention, classConvention]

-- Every function of a file, with what it is for.
theorem names_of_file (hE : Sourced E) {out : Rust.File} (hfile : file E.package E.contract E.target = .ok out) :
    ∃ helpers : List Role, (∀ r ∈ helpers, r.Asked E) ∧ (helpers.map Role.key).Nodup ∧
      (out.methods.map (·.name)).Perm ((roles E helpers).map (Role.name E.target)) := by
  obtain ⟨asked, hagenda, -, hlayout⟩ := file_layout hE hfile
  obtain ⟨helpers, hhelpers, hkeys, hnames⟩ := roles_of_asked hagenda.asked
  refine ⟨helpers, hhelpers, hkeys ▸ hagenda.keys_nodup, ?_⟩
  generalize out.methods = methods at hlayout ⊢
  cases hlayout with
  | @mk deployed inits entries written hdeployed hentries hwritten =>
      obtain ⟨hdeploy, hinit⟩ := names_of_deployed hdeployed
      have hentry : entries.map (·.name) = (E.contract.dispatch.map Role.entry).map (Role.name E.target) := by
        rw [names_of_emitted hentries, List.map_map]
        rfl
      have hhelper : written.map (·.name) = helpers.map (Role.name E.target) := by
        rw [names_of_emitted hwritten, hnames]
        rfl
      have hroles : (roles E helpers).map (Role.name E.target) =
          (deployed ++ (entries ++ inits) ++ written).map (·.name) := by
        simp only [roles, List.map_append, hdeploy, hinit, hentry, hhelper, List.append_assoc]
      rw [hroles]
      refine List.Perm.map _ ?_
      -- the entries that only the contract itself calls stand behind the initializers
      have hentries : (entries.filter (·.isPublic) ++ (inits ++ entries.filter (!·.isPublic))).Perm
          (entries ++ inits) := by
        refine (List.perm_append_comm.append_left _).trans ?_
        rw [← List.append_assoc]
        exact (List.filter_append_perm _ _).append_right _
      simpa only [List.append_assoc] using (hentries.append_left deployed).append_right written

-- Names of the source.

-- The names that a package takes from its source are identifiers there.
structure SourceNames (p : Package) : Prop where
  classes : ∀ k ∈ p.classes, Solidity.isIdentifier k.name = true
  functions : ∀ k ∈ p.classes, ∀ f ∈ k.functions, Solidity.isIdentifier f.sourceName = true
  fields : ∀ k ∈ p.classes, ∀ f ∈ k.fields, Solidity.isIdentifier f.sourceName = true

-- A function that goes by the identifier of its name, with the number of its parameters behind it or not.
structure NamedFrom (f : Function) : Prop where
  source : Solidity.isIdentifier f.sourceName = true
  name : f.name = Rust.Name.value f.sourceName ∨ f.name = numbered (Rust.Name.value f.sourceName) f.params.length

section Entries

variable {name : String} {unit : Solidity.SourceUnit}

-- Where the entries of a dispatch table come from, in a package that is accepted.
theorem entry_of_package {R : Function → Prop} (hkept : Kept R) (hp : Resolve.package name unit = .ok p)
    (hc : c ∈ p.classes) (hdecls : ∀ k ∈ p.classes, ∀ d ∈ k.functions, R d) (hf : f ∈ c.dispatch) :
    ∃ e, (R e ∨ ∃ k ∈ p.classes, ∃ field ∈ k.fields, e = getter field.toFieldDecl) ∧
      (f = e ∨ f = { e with name := numbered (Rust.Name.value e.sourceName) e.params.length }) := by
  obtain ⟨o, hs, hclasses⟩ := Resolve.package_classes hp
  rw [hclasses] at hc
  obtain ⟨k, hk, rfl⟩ := List.mem_map.mp hc
  have hchain {j : ContractDecl} (hj : j ∈ o.chainOf k) : ∃ k' ∈ p.classes, k'.toContractDecl = j := by
    refine ⟨Resolve.finished o j, ?_, Resolve.finished_toContractDecl o j⟩
    exact hclasses ▸ List.mem_map_of_mem ((hs.mem_chainOf hk).2 j hj)
  rw [Resolve.finished_dispatch] at hf
  have hdeclared : ∀ j ∈ o.chainOf k, ∀ d ∈ j.functions, R d := by
    intro j hj d hd
    obtain ⟨k', hk', rfl⟩ := hchain hj
    exact hdecls k' hk' d hd
  obtain ⟨e, he, hname⟩ := hkept.dispatch hdeclared f hf
  refine ⟨e, he.imp_right ?_, hname⟩
  rintro ⟨j, hj, field, hfield, heq⟩
  obtain ⟨k', hk', rfl⟩ := hchain hj
  exact ⟨k', hk', field, hfield, heq⟩

theorem named_dispatch (hp : Resolve.package name unit = .ok p) (hc : c ∈ p.classes) (hnames : SourceNames p)
    (hf : f ∈ c.dispatch) : NamedFrom f := by
  have hnamed := (Resolve.package_code hp).named
  have hkept : Kept fun f => f.name = Rust.Name.value f.sourceName ∧ Solidity.isIdentifier f.sourceName = true :=
    ⟨id, fun he _ _ => he⟩
  obtain ⟨e, he, hname⟩ := entry_of_package hkept hp hc
    (fun k hk d hd => ⟨(hnamed k hk).functions d hd, hnames.functions k hk d hd⟩) hf
  have hsource : e.name = Rust.Name.value e.sourceName ∧ Solidity.isIdentifier e.sourceName = true := by
    rcases he with he | ⟨k, hk, field, hfield, rfl⟩
    · exact he
    · exact ⟨(hnamed k hk).fields field hfield, hnames.fields k hk field hfield⟩
  rcases hname with rfl | rfl
  · exact ⟨hsource.2, .inl hsource.1⟩
  · exact ⟨hsource.2, .inr rfl⟩

-- An implementation that plain calls do not reach is declared by a class; a getter has no other than its own.
theorem owner_of_other (hp : Resolve.package name unit = .ok p) (hc : c ∈ p.classes) (hf : f ∈ c.dispatch)
    {i : Implementation} (hi : i ∈ f.implementations) (hother : isPrimary f i = false) :
    ∃ k ∈ p.classes, k.name = i.owner := by
  have hdeclared : ∀ k ∈ p.classes, ∀ d ∈ k.functions, d.Has fun i => ∃ k ∈ p.classes, k.name = i.owner := by
    intro k hk d hd i hi
    obtain ⟨impl, himpl, howner, hparams, -⟩ := (package_declared hp hk hd).single
    rw [himpl, List.mem_singleton] at hi
    exact ⟨⟨_, hk, by rw [hi, howner]⟩, by rw [hi, hparams]⟩
  obtain ⟨e, he, hname⟩ := entry_of_package kept_has hp hc hdeclared hf
  have hsame : f.implementations = e.implementations := by rcases hname with rfl | rfl <;> rfl
  rcases he with he | ⟨_, _, field, _, rfl⟩
  · exact (he i (hsame ▸ hi)).1
  · have himpl : f.implementations = [i] := by
      rw [hsame] at hi ⊢
      obtain rfl := List.mem_singleton.mp hi
      rfl
    have hprimary : f.primary? = some i := by
      rw [Function.primary?, himpl, List.find?_cons]
      cases i.implemented <;> rfl
    rw [isPrimary, hprimary] at hother
    simp at hother

end Entries

-- Legal names.

theorem trimRaw_eq {text : String} (h : Rust.bare text.toList ≠ []) : trimRaw text = identifier text := by
  have hstart : text.startsWith "r#" = true ↔ ['r', '#'] <+: text.toList := String.startsWith_string_iff
  rw [← String.toList_inj, trimRaw, identifier, String.toList_ofList]
  by_cases hraw : ['r', '#'] <+: text.toList
  · obtain ⟨word, hword⟩ := hraw
    rw [← hword] at h
    have hlong : 2 < text.length := by
      have hpos := List.length_pos_iff.mpr (show word ≠ [] from h)
      rw [← String.length_toList, ← hword, List.length_append]
      simp only [List.length_cons, List.length_nil]
      omega
    rw [if_pos (by simp [hstart.mpr ⟨word, hword⟩, hlong]), ← hword]
    simp [← hword, Rust.bare]
  · rw [if_neg (by simp [hstart, hraw])]
    unfold Rust.bare
    split
    · next word hword => exact absurd ⟨word, hword.symm⟩ hraw
    · rfl

section Value

variable {n : String}

theorem bare_value_ne (h : Solidity.isIdentifier n = true) : Rust.bare (Rust.Name.value n).toList ≠ [] := by
  obtain ⟨c, cs, hword, -⟩ := Rust.Name.word_cons h
  rw [← Rust.Name.word, hword]
  exact List.cons_ne_nil c cs

theorem toList_trimRaw_value (h : Solidity.isIdentifier n = true) :
    (trimRaw (Rust.Name.value n)).toList = Rust.Name.word n := by
  rw [trimRaw_eq (bare_value_ne h), identifier, String.toList_ofList]
  rfl

theorem word_eq_underscore (h : Solidity.isIdentifier n = true) : Rust.Name.word n = ['_'] ↔ n = "_" := by
  refine ⟨fun hword => ?_, fun hn => by rw [hn]; rfl⟩
  obtain ⟨c, cs, hspelling, -⟩ := Rust.Name.spelling_cons h
  rcases Rust.Name.word_cases h with heq | heq
  · exact (Rust.Name.spelling_eq_underscore h).mp (heq.symm.trans hword)
  · rw [hword, hspelling] at heq
    simp at heq

theorem value_eq_underscore (h : Solidity.isIdentifier n = true) : Rust.Name.value n = "_" ↔ n = "_" := by
  refine ⟨fun hvalue => (word_eq_underscore h).mp ?_, fun hn => by rw [hn]; rfl⟩
  rw [Rust.Name.word, hvalue]
  rfl

end Value

theorem all_digits (k : Nat) : (toString k).toList.all isNameChar = true := by
  have hdigits : (toString k).toList = Nat.toDigits 10 k := by simp
  rw [hdigits, List.all_eq_true]
  intro d hd
  have hdigit : d.isDigit = true := Nat.isDigit_of_mem_toDigits (by decide) (by decide) hd
  simp [isNameChar, Char.isAlphanum, hdigit]

namespace NamedFrom

-- The text of the number behind the name of an overload, or nothing.
theorem bare_name (h : NamedFrom f) : ∃ more : List Char, more.all isNameChar = true ∧
    Rust.bare f.name.toList = Rust.Name.word f.sourceName ++ more := by
  rcases h.name with hname | hname
  · exact ⟨[], rfl, by rw [hname, List.append_nil]; rfl⟩
  · refine ⟨'_' :: (toString f.params.length).toList, by rw [List.all_cons, all_digits]; rfl, ?_⟩
    rw [hname, numbered, Rust.Name.bare_value_append h.source]

theorem ne_nil (h : NamedFrom f) : Rust.bare f.name.toList ≠ [] := by
  obtain ⟨more, -, hbare⟩ := h.bare_name
  obtain ⟨c, cs, hword, -⟩ := Rust.Name.word_cons h.source
  simp [hbare, hword]

theorem all_identifier (h : NamedFrom f) :
    (trimRaw f.name).toList.all isNameChar = true ↔ '$' ∉ f.sourceName.toList := by
  obtain ⟨more, hmore, hbare⟩ := h.bare_name
  rw [trimRaw_eq h.ne_nil, identifier, String.toList_ofList, hbare, List.all_append, hmore, Bool.and_true,
    Rust.Name.all_word h.source]

theorem isIdentifier_iff (h : NamedFrom f) :
    isIdentifier f.name = true ↔ '$' ∉ f.sourceName.toList ∧ f.name ≠ "_" := by
  rcases h.name with hname | hname
  · rw [hname, Rust.Name.isIdentifier_value h.source, ne_eq, ne_eq, value_eq_underscore h.source]
  · have hlong : f.name ≠ "_" := by
      intro hlone
      obtain ⟨c, cs, hword, -⟩ := Rust.Name.word_cons h.source
      have hbare := Rust.Name.bare_value_append h.source (toString f.params.length)
      rw [← numbered, ← hname, hlone, hword] at hbare
      simp [Rust.bare] at hbare
    rw [and_iff_left hlong, hname, numbered, Rust.Name.isIdentifier_value_append h.source, and_iff_left (all_digits _)]

end NamedFrom

namespace Role

-- A role whose names are those of the source.
def NamedFrom : Role → Prop
  | entry f => Emit.NamedFrom f
  | classInit k => Solidity.isIdentifier k.name = true
  | implementation f i => Emit.NamedFrom f ∧ Solidity.isIdentifier i.owner = true
  | library l f => Solidity.isIdentifier l = true ∧ Emit.NamedFrom f
  | constructor | init => True

theorem isIdentifier_name {r : Role} (h : r.NamedFrom) (target : Target) :
    isIdentifier (r.name target) = true ↔ r.Legal := by
  cases r with
  | constructor =>
      have hname : isIdentifier (constructorName target) = true := by
        cases target with
        | ink _ => exact (by decide : isIdentifier "new" = true)
        | soroban => exact (by decide : isIdentifier "__constructor" = true)
      simp [name, hname, Legal, sources]
  | init =>
      have hname : isIdentifier "_init" = true := by decide
      simp [name, hname, Legal, sources]
  | entry f =>
      rw [name, h.isIdentifier_iff]
      simp [Legal, sources]
  | classInit k =>
      have hsplit : "_init_" ++ trimRaw (Rust.Name.value k.name) =
          "_" ++ ("init_" ++ trimRaw (Rust.Name.value k.name)) := by
        rw [← String.append_assoc]
        rfl
      have hinit : "init_".toList.all isNameChar = true := by decide
      rw [name, hsplit, Rust.Name.isIdentifier_underscore (by simp), String.toList_append, List.all_append, hinit,
        Bool.true_and, toList_trimRaw_value h, Rust.Name.all_word h]
      simp [Legal, sources]
  | implementation f i =>
      obtain ⟨hf, hi⟩ := h
      have hsplit : "_" ++ trimRaw f.name ++ "_" ++ Rust.Name.value i.owner =
          "_" ++ (trimRaw f.name ++ "_" ++ Rust.Name.value i.owner) := by simp only [String.append_assoc]
      have hmiddle : "_".toList.all isNameChar = true := by decide
      rw [name, hsplit, Rust.Name.isIdentifier_underscore (by simp), String.toList_append, String.toList_append,
        List.all_append, List.all_append, hmiddle, Bool.and_true, Bool.and_eq_true, hf.all_identifier,
        Rust.Name.all_value hi]
      simp [Legal, sources, and_assoc]
  | library l f =>
      obtain ⟨hl, hf⟩ := h
      rw [name, Rust.Name.isIdentifier_value_append hl, hf.all_identifier]
      simp [Legal, sources]

-- Identifiers.

def ident (target : Target) (r : Role) : String := identifier (r.name target)

variable {target : Target} {i : Implementation} {k : Contract} {l : String}

theorem ident_constructor : constructor.ident target = constructorName target := by
  cases target with
  | ink _ => exact (by decide : identifier "new" = "new")
  | soroban => exact (by decide : identifier "__constructor" = "__constructor")

theorem ident_init : init.ident target = "_init" := (by decide : identifier "_init" = "_init")

theorem ident_classInit : (classInit k).ident target = "_init_" ++ trimRaw (Rust.Name.value k.name) := by
  have hsplit (text : String) : "_init_" ++ text = "_" ++ ("init_" ++ text) := by
    rw [← String.append_assoc]
    rfl
  rw [ident, name, hsplit, Rust.Name.identifier_underscore]

theorem ident_implementation :
    (implementation f i).ident target = "_" ++ (trimRaw f.name ++ "_" ++ Rust.Name.value i.owner) := by
  rw [ident, name, String.append_assoc, String.append_assoc, Rust.Name.identifier_underscore, String.append_assoc]

theorem ident_library (h : Solidity.isIdentifier l = true) :
    (library l f).ident target = identifier (Rust.Name.value l) ++ "_" ++ trimRaw f.name := by
  rw [ident, name, Rust.Name.identifier_value_append h]

end Role

-- Names that differ.

-- When no two functions have one identifier.
structure Apart (E : Env) (helpers : List Role) : Prop where
  -- functions of the contract, among each other and beside all that is written for them
  entries : E.contract.dispatch.Pairwise fun f g => f.sourceName ≠ g.sourceName → identifier f.name ≠ identifier g.name
  generated : ∀ f ∈ E.contract.dispatch, ∀ r ∈ deployRoles E ++ initRoles E ++ helpers,
    identifier f.name ≠ r.ident E.target
  -- classes with initializers
  classes : (initClasses E).Pairwise fun k k' =>
    identifier (Rust.Name.value k.name) ≠ identifier (Rust.Name.value k'.name)
  -- helpers, among each other and beside what deployment runs
  beside : helpers.Pairwise fun r r' => r.ident E.target ≠ r'.ident E.target
  inits : ∀ r ∈ helpers, ∀ k ∈ initClasses E, r.ident E.target ≠ "_init_" ++ identifier (Rust.Name.value k.name)
  constructors : E.target = .soroban → runsInit E = true → ∀ f, .library "_" f ∈ helpers →
    identifier f.name ≠ "constructor"

-- Texts that are put together around an underscore.

theorem ne_joined {text a b : String} (h : '_' ∉ text.toList) : text ≠ a ++ "_" ++ b := by
  intro heq
  rw [heq] at h
  simp at h

-- What stands in front of the underscore takes the first letter.
theorem cons_ne_joined {c : Char} {text a b : String} (ha : a ≠ "") (h : '_' ∉ text.toList) :
    String.singleton c ++ text ≠ a ++ "_" ++ b := by
  intro heq
  have hlist := congrArg String.toList heq
  cases hcs : a.toList with
  | nil => exact ha (String.toList_eq_nil_iff.mp hcs)
  | cons d ds =>
      simp [String.toList_append, hcs] at hlist
      simp [hlist] at h

theorem joined_eq_iff {a b : String} (ha : a ≠ "") :
    "__constructor" = a ++ "_" ++ b ↔ a = "_" ∧ b = "constructor" := by
  constructor
  · intro heq
    have hlist := congrArg String.toList heq
    rcases hcs : a.toList with _ | ⟨c, _ | ⟨d, ds⟩⟩
    · exact absurd (String.toList_eq_nil_iff.mp hcs) ha
    · simp [String.toList_append, hcs] at hlist
      refine ⟨?_, ?_⟩
      · rw [← String.toList_inj, hcs, ← hlist.1]
        rfl
      · rw [← String.toList_inj, ← hlist.2]
        rfl
    · simp [String.toList_append, hcs] at hlist
      have hword : '_' ∉ ['c', 'o', 'n', 's', 't', 'r', 'u', 'c', 't', 'o', 'r'] := by decide
      rw [hlist.2.2] at hword
      simp at hword
  · rintro ⟨rfl, rfl⟩
    rfl

theorem identifier_value_ne {l : String} (h : Solidity.isIdentifier l = true) : identifier (Rust.Name.value l) ≠ "" := by
  simpa [identifier] using bare_value_ne h

theorem identifier_value_eq_underscore {l : String} (h : Solidity.isIdentifier l = true) :
    identifier (Rust.Name.value l) = "_" ↔ l = "_" := by
  rw [← word_eq_underscore h, ← String.toList_inj, identifier, String.toList_ofList]
  rfl

theorem NamedFrom.identifier_ne (h : NamedFrom f) : identifier f.name ≠ "" := by
  simpa [identifier] using h.ne_nil

section Fixed

variable {target : Target} {r r' : Role}

-- What deployment calls and runs has names of its own.
theorem deploy_ne_init (hr : r ∈ deployRoles E) (hr' : r' ∈ initRoles E) : r.ident target ≠ r'.ident target := by
  rw [eq_of_mem_deployRoles hr, Role.ident_constructor]
  rcases mem_initRoles hr' with rfl | ⟨k, -, rfl⟩
  · rw [Role.ident_init]
    cases target <;> exact fun heq => by simpa [constructorName] using congrArg String.toList heq
  · rw [Role.ident_classInit]
    intro heq
    have hlist := congrArg String.toList heq
    cases target <;> simp [constructorName, String.toList_append] at hlist

theorem init_ne_helper (hasked : r.Asked E) (h : r.NamedFrom) : "_init" ≠ r.ident target := by
  cases r with
  | implementation f i =>
      rw [Role.ident_implementation]
      intro heq
      have hlist := congrArg String.toList heq
      refine @ne_joined "init" (trimRaw f.name) (Rust.Name.value i.owner) (by decide) ?_
      rw [← String.toList_inj]
      simpa [String.toList_append] using hlist
  | library l f =>
      rw [Role.ident_library h.1]
      exact @cons_ne_joined '_' "init" _ _ (identifier_value_ne h.1) (by decide)
  | constructor | init | entry | classInit => exact absurd hasked id

-- Only a library can have a helper that is called like the constructor.
theorem constructor_ne_helper_iff (hasked : r.Asked E) (h : r.NamedFrom) : constructorName target ≠ r.ident target ↔
    (target = .soroban → ∀ f, r = .library "_" f → identifier f.name ≠ "constructor") := by
  cases r with
  | implementation f i =>
      have hne : constructorName target ≠ (Role.implementation f i).ident target := by
        rw [Role.ident_implementation, trimRaw_eq h.1.ne_nil]
        cases target with
        | ink _ => exact fun heq => by simpa [constructorName, String.toList_append] using congrArg String.toList heq
        | soroban =>
            intro heq
            have hlist := congrArg String.toList heq
            refine @cons_ne_joined '_' "constructor" _ (Rust.Name.value i.owner) h.1.identifier_ne (by decide) ?_
            rw [← String.toList_inj]
            simpa [constructorName, String.toList_append] using hlist
      simp [hne]
  | library l f =>
      obtain ⟨hl, hf⟩ := h
      rw [Role.ident_library hl, trimRaw_eq hf.ne_nil]
      cases target with
      | ink v =>
          have hne : constructorName (.ink v) ≠ identifier (Rust.Name.value l) ++ "_" ++ identifier f.name :=
            @ne_joined "new" _ _ (by decide)
          simp [hne]
      | soroban =>
          rw [constructorName, ne_eq, joined_eq_iff (identifier_value_ne hl), identifier_value_eq_underscore hl]
          constructor
          · rintro hne - g ⟨⟩ hconstructor
            exact hne ⟨rfl, hconstructor⟩
          · rintro hne ⟨rfl, hconstructor⟩
            exact hne rfl f rfl hconstructor
  | constructor | init | entry | classInit => exact absurd hasked id

end Fixed

section Package

variable {name : String} {unit : Solidity.SourceUnit} {target : Target} {helpers : List Role}

-- Overloads are told apart by the numbers behind their names.
theorem identifier_ne_of_overloads (hp : Resolve.package name unit = .ok p) (hc : c ∈ p.classes)
    (hnames : SourceNames p) (hf : f ∈ c.dispatch) (hg : g ∈ c.dispatch) (hkey : f.key ≠ g.key)
    (hsource : f.sourceName = g.sourceName) : identifier f.name ≠ identifier g.name := by
  obtain ⟨o, -, hclasses⟩ := Resolve.package_classes hp
  have harity : f.params.length ≠ g.params.length := fun h => hkey (Signature.key_eq_iff.mpr ⟨hsource, h⟩)
  have hnamed := (named_dispatch hp hc hnames hf).source
  rw [name_of_overloads hclasses hc hf hg hsource harity,
    name_of_overloads hclasses hc hg hf hsource.symm harity.symm, ← hsource, numbered, numbered,
    Rust.Name.identifier_value_append hnamed, Rust.Name.identifier_value_append hnamed]
  exact fun heq => harity (numbered_inj heq).2

theorem entries_apart_iff (hp : Resolve.package name unit = .ok p) (hc : c ∈ p.classes) (hnames : SourceNames p) :
    ((c.dispatch.map Role.entry).Pairwise fun r r' => r.ident target ≠ r'.ident target) ↔
      c.dispatch.Pairwise fun f g => f.sourceName ≠ g.sourceName → identifier f.name ≠ identifier g.name := by
  have hroles : ((c.dispatch.map Role.entry).Pairwise fun r r' => r.ident target ≠ r'.ident target) ↔
      c.dispatch.Pairwise fun f g => identifier f.name ≠ identifier g.name := List.pairwise_map
  rw [hroles]
  refine ⟨fun h => h.imp (by grind), fun h => ?_⟩
  have hkeys : c.dispatch.Pairwise fun f g => f.key ≠ g.key :=
    List.pairwise_map.mp (sourced_package hp hc .soroban).keys_nodup
  refine (h.and hkeys).imp_of_mem ?_
  rintro f g hf hg ⟨hne, hkey⟩
  by_cases hsource : f.sourceName = g.sourceName
  · exact identifier_ne_of_overloads hp hc hnames hf hg hkey hsource
  · exact hne hsource

theorem named_roles (hp : Resolve.package name unit = .ok p) (hc : c ∈ p.classes) (hnames : SourceNames p)
    (hhelpers : ∀ r ∈ helpers, r.Asked ⟨p, c, target⟩) : ∀ r ∈ roles ⟨p, c, target⟩ helpers, r.NamedFrom := by
  have hE := sourced_package hp hc target
  intro r hr
  simp only [roles, List.mem_append] at hr
  rcases hr with ((hr | hr) | hr) | hr
  · rw [eq_of_mem_deployRoles hr]
    trivial
  · obtain ⟨f, hf, rfl⟩ := List.mem_map.mp hr
    exact named_dispatch hp hc hnames hf
  · rcases mem_initRoles hr with rfl | ⟨k, hk, rfl⟩
    · trivial
    · exact hnames.classes k (mem_of_chainOf (List.mem_of_mem_filter (List.mem_reverse.mp hk)))
  · have hasked := hhelpers r hr
    cases r with
    | implementation f i =>
        obtain ⟨hf, hi, hother⟩ := hasked
        obtain ⟨k, hk, howner⟩ := owner_of_other hp hc hf hi hother
        exact ⟨named_dispatch hp hc hnames hf, howner ▸ hnames.classes k hk⟩
    | library l f =>
        obtain ⟨start, owner, sg, args, hcall, rfl⟩ := hasked
        have hcalled := hE.libraries _ _ _ _ _ hcall
        obtain ⟨l, hl, rfl⟩ := hcalled.called
        obtain ⟨k, hk, -, hf⟩ := hcalled.declared
        have hname := ((Resolve.package_code hp).named k hk).functions _ hf
        exact ⟨hnames.classes l hl, hnames.functions k hk _ hf, .inl hname⟩
    | constructor | init | entry | classInit => exact absurd hasked id

theorem named_classes (hnames : SourceNames p) {k : Contract}
    (hk : k ∈ initClasses ⟨p, c, target⟩) : Solidity.isIdentifier k.name = true :=
  hnames.classes k (mem_of_chainOf (mem_initClasses.mp hk).1)

theorem deploy_apart {R : Role → Role → Prop} : (deployRoles E).Pairwise R := by
  unfold deployRoles
  split
  · exact List.pairwise_singleton _ _
  · split
    · exact List.pairwise_singleton _ _
    · exact .nil

theorem runsInit_of_soroban {r : Role} (hr : r ∈ deployRoles E) (htarget : E.target = .soroban) : runsInit E = true := by
  by_contra hruns
  rw [deployRoles, if_neg hruns, htarget] at hr
  cases hr

theorem ident_classInit_eq {k : Contract} (h : Solidity.isIdentifier k.name = true) :
    (Role.classInit k).ident target = "_init_" ++ identifier (Rust.Name.value k.name) := by
  rw [Role.ident_classInit, trimRaw_eq (bare_value_ne h)]

theorem inits_apart_iff (h : ∀ k ∈ initClasses E, Solidity.isIdentifier k.name = true) :
    ((initRoles E).Pairwise fun r r' => r.ident target ≠ r'.ident target) ↔
      (initClasses E).Pairwise fun k k' =>
        identifier (Rust.Name.value k.name) ≠ identifier (Rust.Name.value k'.name) := by
  unfold initRoles
  split
  · have hfirst : ∀ r ∈ (initClasses E).map Role.classInit, Role.init.ident target ≠ r.ident target := by
      rw [List.forall_mem_map]
      intro k hk
      rw [Role.ident_init, ident_classInit_eq (h k hk)]
      exact fun heq => by simpa [String.toList_append] using congrArg String.toList heq
    rw [List.pairwise_cons, and_iff_right hfirst, List.pairwise_map]
    refine List.Pairwise.iff_of_mem fun {k k'} hk hk' => ?_
    rw [ident_classInit_eq (h k hk), ident_classInit_eq (h k' hk'), ne_eq, ne_eq, String.append_right_inj]
  · next hruns =>
      have hnone : initClasses E = [] :=
        List.eq_nil_iff_forall_not_mem.mpr fun k hk => hruns (runsInit_of_mem hk)
      rw [hnone]
      simp

-- Two functions of a contract have one identifier only where the names of the source bring them together.
theorem apart_iff (hp : Resolve.package name unit = .ok p) (hc : c ∈ p.classes) (hnames : SourceNames p)
    (hhelpers : ∀ r ∈ helpers, r.Asked ⟨p, c, target⟩) :
    ((roles ⟨p, c, target⟩ helpers).Pairwise fun r r' => r.ident target ≠ r'.ident target) ↔
      Apart ⟨p, c, target⟩ helpers := by
  have hnamed {r : Role} (hr : r ∈ helpers) : r.NamedFrom :=
    named_roles hp hc hnames hhelpers r (by simp [roles, hr])
  have hclasses {k : Contract} (hk : k ∈ initClasses ⟨p, c, target⟩) : Solidity.isIdentifier k.name = true :=
    named_classes hnames hk
  have hinit {k : Contract} (hk : k ∈ initClasses ⟨p, c, target⟩) :
      Role.classInit k ∈ initRoles ⟨p, c, target⟩ := by
    rw [initRoles, if_pos (runsInit_of_mem hk)]
    exact List.mem_cons_of_mem _ (List.mem_map_of_mem hk)
  have hentry {f : Function} (hf : f ∈ c.dispatch) : Role.entry f ∈ c.dispatch.map Role.entry := List.mem_map_of_mem hf
  simp only [roles, List.pairwise_append]
  constructor
  · rintro ⟨⟨⟨-, hentries, hdeploy⟩, hinits, hbefore⟩, hbeside, hall⟩
    refine ⟨(entries_apart_iff hp hc hnames).mp hentries, fun f hf r hr => ?_,
      (inits_apart_iff fun k => hclasses).mp hinits, hbeside, fun r hr k hk => ?_, fun hsoroban hruns f hf => ?_⟩
    · simp only [List.mem_append] at hr
      rcases hr with (hr | hr) | hr
      · exact (hdeploy r hr _ (hentry hf)).symm
      · exact hbefore _ (List.mem_append_right _ (hentry hf)) r hr
      · exact hall _ (List.mem_append_left _ (List.mem_append_right _ (hentry hf))) r hr
    · rw [← ident_classInit_eq (hclasses hk)]
      exact (hall _ (List.mem_append_right _ (hinit hk)) r hr).symm
    · have hconstructor : Role.constructor ∈ deployRoles ⟨p, c, target⟩ := by
        rw [deployRoles, if_pos hruns]
        exact List.mem_singleton_self _
      have hne := hall _ (List.mem_append_left _ (List.mem_append_left _ hconstructor)) _ hf
      rw [Role.ident_constructor] at hne
      exact (constructor_ne_helper_iff (hhelpers _ hf) (hnamed hf)).mp hne hsoroban f rfl
  · intro h
    refine ⟨⟨⟨deploy_apart, (entries_apart_iff hp hc hnames).mpr h.entries, ?_⟩,
      (inits_apart_iff fun k => hclasses).mpr h.classes, ?_⟩, h.beside, ?_⟩
    · intro r hr r' hr'
      obtain ⟨f, hf, rfl⟩ := List.mem_map.mp hr'
      exact (h.generated f hf r (by simp [hr])).symm
    · intro r hr r' hr'
      rcases List.mem_append.mp hr with hr | hr
      · exact deploy_ne_init hr hr'
      · obtain ⟨f, hf, rfl⟩ := List.mem_map.mp hr
        exact h.generated f hf r' (by simp [hr'])
    · intro r hr r' hr'
      have hasked := hhelpers r' hr'
      rcases List.mem_append.mp hr with hr | hr
      · rcases List.mem_append.mp hr with hr | hr
        · have hsoroban := fun htarget => runsInit_of_soroban hr htarget
          obtain rfl := eq_of_mem_deployRoles hr
          rw [Role.ident_constructor]
          refine (constructor_ne_helper_iff hasked (hnamed hr')).mpr fun htarget f heq => ?_
          exact h.constructors htarget (hsoroban htarget) f (heq ▸ hr')
        · obtain ⟨f, hf, rfl⟩ := List.mem_map.mp hr
          exact h.generated f hf r' (by simp [hr'])
      · rcases mem_initRoles hr with rfl | ⟨k, hk, rfl⟩
        · rw [Role.ident_init]
          exact init_ne_helper hasked (hnamed hr')
        · rw [ident_classInit_eq (hclasses hk)]
          exact (h.inits r' hr' k hk).symm

-- The names of the functions that are written for a contract: which there are, when each is legal, and when no two of
-- them are one.
theorem function_names_iff {out : Rust.File} (hp : Resolve.package name unit = .ok p) (hc : c ∈ p.classes)
    (hnames : SourceNames p) (hfile : file p c target = .ok out) :
    ∃ helpers : List Role, (∀ r ∈ helpers, r.Asked ⟨p, c, target⟩) ∧ (helpers.map Role.key).Nodup ∧
      (out.methods.map (·.name)).Perm ((roles ⟨p, c, target⟩ helpers).map (Role.name target)) ∧
      ((∀ g ∈ out.methods, isIdentifier g.name = true) ↔ ∀ r ∈ roles ⟨p, c, target⟩ helpers, r.Legal) ∧
      ((out.methods.map fun g => identifier g.name).Nodup ↔ Apart ⟨p, c, target⟩ helpers) := by
  obtain ⟨helpers, hhelpers, hkeys, hperm⟩ := names_of_file (sourced_package hp hc target) hfile
  have hnamed := named_roles hp hc hnames hhelpers
  refine ⟨helpers, hhelpers, hkeys, hperm, ?_, ?_⟩
  · have hwritten : (∀ g ∈ out.methods, isIdentifier g.name = true) ↔
        ∀ r ∈ roles ⟨p, c, target⟩ helpers, isIdentifier (r.name target) = true := by
      have hmem : (∀ n ∈ out.methods.map (·.name), isIdentifier n = true) ↔
          ∀ n ∈ (roles ⟨p, c, target⟩ helpers).map (Role.name target), isIdentifier n = true :=
        forall_congr' fun n => imp_congr_left hperm.mem_iff
      rwa [List.forall_mem_map, List.forall_mem_map] at hmem
    rw [hwritten]
    exact forall₂_congr fun r hr => Role.isIdentifier_name (hnamed r hr) target
  · have hidents : (out.methods.map fun g => identifier g.name).Perm
        ((roles ⟨p, c, target⟩ helpers).map (Role.ident target)) := by
      have hmapped := hperm.map identifier
      rwa [List.map_map, List.map_map] at hmapped
    rw [hidents.nodup_iff, List.Nodup, List.pairwise_map]
    exact apart_iff hp hc hnames hhelpers

end Package

namespace Role

-- A class with a field and a function, and a contract that overrides the function and calls the one behind it.

def overriding (base callee : String) : Solidity.SourceUnit :=
  ⟨default, [
    Resolve.plainContract base false [] [Deploy.fieldOf "n", Resolve.plainFunction callee [] true],
    Resolve.plainContract "B" false [base] [Super.superFunction callee callee]]⟩

-- The package that these become.
def overridingPackage (base callee : String) : Package :=
  let field := Deploy.fieldIn base "n"
  let above := Super.implOf base none
  let below := Super.implOf "B" (some callee)
  { name := "sample"
    classes := [
      { Super.classOf base [] [base] [Super.functionOf callee [above]] [Super.functionOf callee [above]] with
        fields := [field], storage := [field] },
      { Super.classOf "B" [base] ["B", base] [Super.functionOf callee [below]]
          [Super.functionOf callee [below, above]] with
        storage := [field] }] }

def bottom (base callee : String) : Contract := (overridingPackage base callee).classes.getD 1 default

def written (base callee : String) : List String :=
  match file (overridingPackage base callee) (bottom base callee) (.ink .v5) with
  | .ok out => out.methods.map (·.name)
  | .error _ => []

theorem package_overriding : Resolve.package "sample" (overriding "A" "f") = .ok (overridingPackage "A" "f") := by cbv

theorem written_overriding : written "A" "f" = ["new", "f", "_init", "_init_a", "_f_a"] := by decide +kernel

theorem sourceNames_overriding : SourceNames (overridingPackage "A" "f") :=
  ⟨by decide, by decide, by decide⟩

theorem overriding_apart : ∃ out helpers,
    Resolve.package "sample" (overriding "A" "f") = .ok (overridingPackage "A" "f") ∧
    SourceNames (overridingPackage "A" "f") ∧
    file (overridingPackage "A" "f") (bottom "A" "f") (.ink .v5) = .ok out ∧
    out.methods.map (·.name) = ["new", "f", "_init", "_init_a", "_f_a"] ∧
    (∀ r ∈ roles ⟨overridingPackage "A" "f", bottom "A" "f", .ink .v5⟩ helpers, r.Legal) ∧
    Apart ⟨overridingPackage "A" "f", bottom "A" "f", .ink .v5⟩ helpers := by
  have hwritten := written_overriding
  unfold written at hwritten
  cases hout : file (overridingPackage "A" "f") (bottom "A" "f") (.ink .v5) with
  | error d =>
      rw [hout] at hwritten
      cases hwritten
  | ok out =>
      rw [hout] at hwritten
      have hbottom : bottom "A" "f" ∈ (overridingPackage "A" "f").classes := List.mem_of_getElem? (i := 1) rfl
      obtain ⟨helpers, -, -, -, hlegal, hapart⟩ :=
        function_names_iff package_overriding hbottom sourceNames_overriding hout
      refine ⟨out, helpers, package_overriding, sourceNames_overriding, rfl, hwritten, hlegal.mp ?_, hapart.mp ?_⟩
      · have hlegal : ∀ n ∈ out.methods.map (·.name), isIdentifier n = true := by
          rw [show out.methods.map (·.name) = _ from hwritten]
          decide
        rwa [List.forall_mem_map] at hlegal
      · have hidents : ((out.methods.map (·.name)).map identifier).Nodup := by
          rw [show out.methods.map (·.name) = _ from hwritten]
          decide
        rwa [List.map_map] at hidents

theorem package_keyword : Resolve.package "sample" (overriding "Match" "f") = .ok (overridingPackage "Match" "f") := by cbv

theorem package_initializer : Resolve.package "sample" (overriding "A" "init") = .ok (overridingPackage "A" "init") := by
  cbv

-- The function of a class whose name is a keyword, and a function that is called like the initializer.
theorem names_clash :
    Resolve.package "sample" (overriding "Match" "f") = .ok (overridingPackage "Match" "f") ∧
    written "Match" "f" = ["new", "f", "_init", "_init_match", "_f_r#match"] ∧
    isIdentifier "_f_r#match" = false ∧
    Resolve.package "sample" (overriding "A" "init") = .ok (overridingPackage "A" "init") ∧
    written "A" "init" = ["new", "init", "_init", "_init_a", "_init_a"] :=
  ⟨package_keyword, by decide +kernel, by decide, package_initializer, by decide +kernel⟩

end Role

end RustContracts.Emit
