import RustContracts.Proofs.Emit.Layout
import RustContracts.Proofs.Emit.Super

-- Calls and definitions agree: what code of a contract calls is a function of the contract, with parameters of the types
-- that the arguments are written for.
namespace RustContracts.Emit

open Program

variable {E : Env} {K : List (String × String)} {s : State} {v : Convention}

-- Keys of helpers.

theorem colon_split {a b k l : String} (ha : ':' ∉ a.toList) (hb : ':' ∉ b.toList)
    (h : a ++ ":" ++ k = b ++ ":" ++ l) : a = b ∧ k = l := by
  have hlist : a.toList ++ ':' :: k.toList = b.toList ++ ':' :: l.toList := by
    have := congrArg String.toList h
    simpa [String.toList_append] using this
  have hplain (cs : List Char) (hcs : ':' ∉ cs) : ∀ c ∈ cs, (c ≠ ':' : Bool) = true := by
    intro c hc
    exact decide_eq_true fun heq => hcs (heq ▸ hc)
  have htake := congrArg (List.takeWhile fun c => (c ≠ ':' : Bool)) hlist
  rw [List.takeWhile_append_of_pos (hplain _ ha), List.takeWhile_append_of_pos (hplain _ hb)] at htake
  have hfirst : a.toList = b.toList := by simpa using htake
  rw [hfirst] at hlist
  exact ⟨String.toList_inj.mp hfirst, String.toList_inj.mp (List.cons_inj_right _ |>.mp (List.append_cancel_left hlist))⟩

-- What keeps the keys of helpers apart.
structure KeysApart (p : Package) (c : Contract) : Prop where
  -- classes have plain names
  owners : ∀ f ∈ c.dispatch, ∀ i ∈ f.implementations, ':' ∉ i.owner.toList
  -- a library has no bases from which it takes functions
  libraries : ∀ start library owner s args, p.Holds (.libraryCall start library owner s args) →
    ':' ∉ library.toList ∧ owner = library
  -- no class has two implementations of one function, with different parameters, beside the one that plain calls reach
  implementations : ∀ f ∈ c.dispatch, ∀ i ∈ f.implementations, ∀ j ∈ f.implementations,
    isPrimary f i = isPrimary f j → i.owner = j.owner → i.params.map Param.type = j.params.map Param.type

theorem implementationKey_inj {f f' : Function} {i i' : Implementation} (hi : ':' ∉ i.owner.toList)
    (hi' : ':' ∉ i'.owner.toList) (h : implementationKey f i = implementationKey f' i') :
    i.owner = i'.owner ∧ f.key = f'.key := by
  simp only [implementationKey, String.append_assoc] at h
  have := String.append_right_inj _ |>.mp h
  exact colon_split hi hi' (by simpa [String.append_assoc] using this)

theorem libraryKey_inj {f f' : Function} {l l' : String} (hl : ':' ∉ l.toList) (hl' : ':' ∉ l'.toList)
    (h : libraryKey l f = libraryKey l' f') : l = l' ∧ f.key = f'.key := by
  simp only [libraryKey, String.append_assoc] at h
  have := String.append_right_inj _ |>.mp h
  exact colon_split hl hl' (by simpa [String.append_assoc] using this)

theorem implementationKey_ne_libraryKey {f f' : Function} {i : Implementation} {l : String} :
    implementationKey f i ≠ libraryKey l f' := by
  intro h
  have := congrArg (fun t => t.toList.head?) h
  simp [implementationKey, libraryKey, String.toList_append] at this

-- What is declared under a convention.

theorem declaredTypes_of_length {f : Function} {i : Implementation} (h : i.params.length = f.params.length) :
    declaredTypes f (some i) = i.params.map Param.type := by
  rw [declaredTypes, if_pos h]

theorem exists_primary {f : Function} {impl : Implementation} (h : isPrimary f impl = true) :
    ∃ i, f.primary? = some i ∧ i.owner = impl.owner ∧ isPrimary f i = true := by
  unfold isPrimary at h ⊢
  cases hi : f.primary? with
  | none => simp [hi] at h
  | some i =>
      rw [hi, Option.any_some, Bool.and_eq_true, decide_eq_true_eq] at h
      exact ⟨i, rfl, h.1, by simp⟩

-- One key stands for one convention.

theorem convention_of_implementationKey (hE : Sourced E) (hkeys : KeysApart E.package E.contract) {f : Function}
    {impl : Implementation} (hf : f ∈ E.contract.dispatch) (himpl : impl ∈ f.implementations)
    (hother : isPrimary f impl = false) {h : Helper} (hasked : Asked E (implementationKey f impl) h) :
    h.convention E =
      ⟨h.name, false, E.contract.needsCaller f.toSignature, impl.params.map Param.type⟩ := by
  generalize hkey : implementationKey f impl = key at hasked
  cases hasked with
  | @implementation f' impl' hf' himpl' hother' =>
      obtain ⟨howner, hfkey⟩ := implementationKey_inj (hkeys.owners f hf impl himpl)
        (hkeys.owners f' hf' impl' himpl') hkey
      obtain rfl : f = f' := List.inj_on_of_nodup_map hE.keys_nodup hf hf' hfkey
      have htypes := hkeys.implementations f hf impl himpl impl' himpl' (hother.trans hother'.symm) howner
      rw [htypes, ← declaredTypes_of_length (hE.entries f hf impl' himpl').2]
      rfl
  | library hcall => exact absurd hkey implementationKey_ne_libraryKey

theorem functionIn_congr {p : Package} {library owner : String} {s s' : Signature} {arity : Nat}
    (hkey : s.key = s'.key) (hnames : NamesLibrary p library owner s arity) :
    functionIn p owner s' = functionIn p owner s := by
  obtain ⟨impl, himpl, -⟩ := hnames.single
  unfold functionIn at himpl ⊢
  rw [← hkey]
  cases hfind : (((p.class? owner).map fun c => c.functions).getD []).find? (·.key = s.key) with
  | none => simp [hfind] at himpl
  | some f => rfl

theorem NamesLibrary.declaredTypes_eq {p : Package} {library owner : String} {s : Signature} {arity : Nat}
    (h : NamesLibrary p library owner s arity) :
    declaredTypes (functionIn p owner s) (functionIn p owner s).primary? = s.params.map Param.type := by
  obtain ⟨impl, himpl, hparams⟩ := h.single
  have hprimary : (functionIn p owner s).primary? = some impl := by
    rw [Function.primary?, himpl]
    cases himplemented : impl.implemented <;> simp [himplemented]
  have hlength : impl.params.length = (functionIn p owner s).params.length := by rw [hparams, h.signature]
  rw [hprimary, declaredTypes_of_length hlength, hparams]

theorem convention_of_libraryKey (hE : Sourced E) (hkeys : KeysApart E.package E.contract) {start : Text.Position}
    {library owner : String} {sig : Signature} {args : List Expr}
    (hcall : E.package.Holds (.libraryCall start library owner sig args)) {h : Helper}
    (hasked : Asked E (libraryKey library (functionIn E.package owner sig)) h) :
    h.convention E = ⟨h.name, false, false, sig.params.map Param.type⟩ := by
  generalize hkey : libraryKey library (functionIn E.package owner sig) = key at hasked
  cases hasked with
  | implementation => exact absurd hkey.symm implementationKey_ne_libraryKey
  | @library start' library' owner' sig' args' hcall' =>
      obtain ⟨hlibrary, rfl⟩ := hkeys.libraries _ _ _ _ _ hcall
      obtain ⟨hlibrary', rfl⟩ := hkeys.libraries _ _ _ _ _ hcall'
      obtain ⟨rfl, hfkey⟩ := libraryKey_inj hlibrary hlibrary' hkey
      have hnames := hE.libraries _ _ _ _ _ hcall
      have hnames' := hE.libraries _ _ _ _ _ hcall'
      have hsame : functionIn E.package owner sig' = functionIn E.package owner sig := by
        refine functionIn_congr ?_ hnames
        rwa [hnames.signature, hnames'.signature] at hfkey
      have htypes := hnames.declaredTypes_eq
      rw [← hsame] at htypes
      rw [← htypes]
      rfl

section Layout

variable {asked : List (String × Helper)} {methods : List Rust.Function}

-- Each entry and each helper is there.

theorem Layout.entry (h : Layout E K asked methods) {f : Function} (hf : f ∈ E.contract.dispatch) :
    ∃ g ∈ methods, Declares E (entryConvention E f) g := by
  obtain ⟨-, hentries, -⟩ := h
  obtain ⟨g, hg, hemitted⟩ := forall₂_exists hentries hf
  refine ⟨g, ?_, hemitted.declares⟩
  cases hpublic : g.isPublic <;> simp [hg, hpublic]

theorem Layout.helper (h : Layout E K asked methods) {kh : String × Helper} (hkh : kh ∈ asked) :
    ∃ g ∈ methods, Declares E (kh.2.convention E) g := by
  obtain ⟨-, -, hhelpers⟩ := h
  obtain ⟨g, hg, hemitted⟩ := forall₂_exists hhelpers hkh
  exact ⟨g, by simp [hg], hemitted.declares⟩

theorem Layout.helpers_last (h : Layout E K asked methods) : ∃ others helpers, methods = others ++ helpers ∧
    List.Forall₂ (fun kh => Declares E (kh.2.convention E)) asked helpers := by
  obtain ⟨-, -, hhelpers⟩ := h
  exact ⟨_, _, (List.append_assoc _ _ _).symm, hhelpers.imp fun _ _ h => h.declares⟩

-- A function is called with the types that it is declared with.
theorem declares_of_names (hE : Sourced E) (hkeys : KeysApart E.package E.contract)
    (hagenda : Agenda E asked (asked.map Prod.snd) s) (hlayout : Layout E s.helperNames asked methods)
    {args : List Expr} (hnames : Names E s.helperNames args v) : ∃ g ∈ methods, Declares E v g := by
  have hmem {key helper : String} (h : (key, helper) ∈ s.helperNames) :
      ∃ kh ∈ asked, kh.1 = key ∧ kh.2.name = helper := by
    rw [hagenda.names, List.mem_reverse, List.mem_map] at h
    obtain ⟨kh, hkh, heq⟩ := h
    exact ⟨kh, hkh, Prod.mk.inj heq⟩
  cases hnames with
  | @entry start name args isSuper inClass base t f impl hcall hlookup hcalled hprimary =>
      have hf := List.mem_of_find?_eq_some hlookup
      have himpl := (mem_of_calledImplementation? hcalled).1
      obtain ⟨i, hi, howner, hi'⟩ := exists_primary hprimary
      have htypes : declaredTypes f f.primary? = impl.params.map Param.type := by
        have hmem := mem_of_primary? hi
        rw [hi, declaredTypes_of_length (hE.entries f hf i hmem).2]
        exact hkeys.implementations f hf i hmem impl himpl (hi'.trans hprimary.symm) howner
      obtain ⟨g, hg, hdeclares⟩ := hlayout.entry hf
      rw [entryConvention, htypes] at hdeclares
      exact ⟨g, hg, hdeclares⟩
  | @implementation start name args isSuper inClass base t f impl helper hcall hlookup hcalled hother hname =>
      have hf := List.mem_of_find?_eq_some hlookup
      have himpl := (mem_of_calledImplementation? hcalled).1
      obtain ⟨⟨key, h⟩, hkh, hkey, hhelper⟩ := hmem hname
      obtain ⟨g, hg, hdeclares⟩ := hlayout.helper hkh
      obtain rfl : key = implementationKey f impl := hkey
      rw [convention_of_implementationKey hE hkeys hf himpl hother (hagenda.asked _ hkh), hhelper] at hdeclares
      exact ⟨g, hg, hdeclares⟩
  | @library start library owner helper sig args hcall hname =>
      obtain ⟨⟨key, h⟩, hkh, hkey, hhelper⟩ := hmem hname
      obtain ⟨g, hg, hdeclares⟩ := hlayout.helper hkh
      obtain rfl : key = libraryKey library (functionIn E.package owner sig) := hkey
      rw [convention_of_libraryKey hE hkeys hcall (hagenda.asked _ hkh), hhelper] at hdeclares
      exact ⟨g, hg, hdeclares⟩

-- What is passed at a call: the arguments of a call in the package's code, or at deployment parameters and variables of
-- the function at hand.
def Passes (E : Env) (K : List (String × String)) (g : Rust.Function) (v : Convention) (xs : List Rust.Expr) : Prop :=
  (∃ args, Names E K args v ∧ Operands E args xs v.types) ∨ List.Forall₂ (Argument E g) xs v.types

-- A call in a function that agrees with a definition: there is a function of its name and convention, with a parameter
-- of the right type for each argument.
def Agrees (E : Env) (K : List (String × String)) (methods : List Rust.Function) (g : Rust.Function)
    (y : Rust.Expr) : Prop :=
  ∃ callee ∈ methods, ∃ v xs, Declares E v callee ∧ Passes E K g v xs ∧
    (y = callText E.target g.isPublic v xs ∨
      g.isPublic = true ∧ v.exposed = false ∧ y = deployText E.target v xs)

theorem agrees_of_site (hE : Sourced E) (hkeys : KeysApart E.package E.contract)
    (hagenda : Agenda E asked (asked.map Prod.snd) s) (hlayout : Layout E s.helperNames asked methods)
    {g : Rust.Function} {y : Rust.Expr} (h : Site E s.helperNames g.isPublic y) :
    Agrees E s.helperNames methods g y := by
  obtain ⟨args, v, xs, hnames, rfl, hoperands⟩ := h
  obtain ⟨callee, hcallee, hdeclares⟩ := declares_of_names hE hkeys hagenda hlayout hnames
  exact ⟨callee, hcallee, v, xs, hdeclares, .inl ⟨args, hnames, hoperands⟩, .inl rfl⟩

section Site

variable (hsite : ∀ g y, Site E K g.isPublic y → Agrees E K methods g y)
include hsite

theorem agrees_of_emitted {g : Rust.Function} (hg : Emitted E K v g) :
    ∀ code ∈ g.body, code.Checked (Agrees E K methods g) := by
  refine fun code hcode => Rust.blockChecked_imp (fun y hy => hsite g y ?_) code (hg.body code hcode)
  rwa [hg.declares.isPublic]

-- The constructor calls `_init`, and `_init` the initializer of each class.
theorem agrees_of_deployed {deployed inits : List Rust.Function} (h : Deployed E K deployed inits)
    (hinits : inits ⊆ methods) :
    ∀ g ∈ deployed ++ inits, ∀ code ∈ g.body, code.Checked (Agrees E K methods g) := by
  cases h with
  | plain _ _ hcode =>
      intro g hg code hbody
      rw [List.append_nil] at hg
      exact Rust.blockChecked_imp (fun _ h => h.elim) code (hcode g hg code hbody)
  | @init d i inits _ _ hpublic hd hi hbody hclasses =>
      obtain ⟨himem, hinits⟩ := List.cons_subset.mp hinits
      refine List.forall_mem_append.mpr ⟨?_, List.forall_mem_cons.mpr ⟨?_, ?_⟩⟩
      · intro g hg code hcode
        obtain rfl := List.mem_singleton.mp hg
        refine Rust.blockChecked_imp ?_ code (hd code hcode)
        rintro y ⟨xs, rfl, hxs⟩
        exact ⟨i, himem, _, xs, hi, .inr hxs, .inr ⟨hpublic, rfl, rfl⟩⟩
      · intro code hcode
        refine Rust.blockChecked_imp ?_ code (hbody code hcode)
        rintro y (hy | ⟨c, hc, xs, rfl, hxs⟩)
        · exact hsite i y (by rwa [hi.isPublic])
        · obtain ⟨callee, hcallee, hemitted⟩ := forall₂_exists hclasses hc
          exact ⟨callee, hinits hcallee, _, xs, hemitted.declares, .inr hxs, .inl (by rw [hi.isPublic]; rfl)⟩
      · intro g hg
        obtain ⟨c, -, hemitted⟩ := forall₂_exists hclasses.flip hg
        exact agrees_of_emitted hsite hemitted

end Site

theorem agrees_of_layout (hE : Sourced E) (hkeys : KeysApart E.package E.contract)
    (hagenda : Agenda E asked (asked.map Prod.snd) s) (hlayout : Layout E s.helperNames asked methods) :
    ∀ g ∈ methods, ∀ code ∈ g.body, code.Checked (Agrees E s.helperNames methods g) := by
  have hsite (g : Rust.Function) (y : Rust.Expr) (h : Site E s.helperNames g.isPublic y) :=
    agrees_of_site hE hkeys hagenda hlayout h
  obtain ⟨hdeployed, hentries, hhelpers⟩ := hlayout
  have hdeployment := agrees_of_deployed hsite hdeployed (fun g hg => by simp [hg])
  intro g hg
  simp only [List.mem_append] at hg hdeployment
  rcases hg with (hg | hg) | (hg | hg) | hg
  · exact hdeployment g (.inl hg)
  · obtain ⟨f, -, hemitted⟩ := forall₂_exists hentries.flip (List.mem_of_mem_filter hg)
    exact agrees_of_emitted hsite hemitted
  · exact hdeployment g (.inr hg)
  · obtain ⟨f, -, hemitted⟩ := forall₂_exists hentries.flip (List.mem_of_mem_filter hg)
    exact agrees_of_emitted hsite hemitted
  · obtain ⟨kh, -, hemitted⟩ := forall₂_exists hhelpers.flip hg
    exact agrees_of_emitted hsite hemitted

end Layout

-- The state in which a contract is finished.
def finalState (E : Env) : State := (outcome contract E {}).2

-- Every helper that has been asked for has been written, each once, behind the other functions.
structure Drained (E : Env) (methods : List Rust.Function) (asked : List (String × Helper)) : Prop where
  queue : (finalState E).queue = []
  asked_for : (finalState E).helperNames = (asked.map fun kh => (kh.1, kh.2.name)).reverse
  keys_nodup : (asked.map Prod.fst).Nodup
  bounded : asked.length ≤ helperBound E.package E.contract
  written : ∃ others helpers, methods = others ++ helpers ∧
    List.Forall₂ (fun kh => Declares E (kh.2.convention E)) asked helpers

-- Calls agree with definitions where keys of helpers are apart, and there are no helpers left in any case.
theorem calls_agree {name : String} {unit : Solidity.SourceUnit} {p : Package} {c : Contract} {target : Target}
    {out : Rust.File} (hp : Resolve.package name unit = .ok p) (hc : c ∈ p.classes)
    (hfile : file p c target = .ok out) :
    (KeysApart p c → ∀ g ∈ out.methods, ∀ code ∈ g.body,
      code.Checked (Agrees ⟨p, c, target⟩ (finalState ⟨p, c, target⟩).helperNames out.methods g)) ∧
    ∃ asked, Drained ⟨p, c, target⟩ out.methods asked := by
  have hE := sourced_package hp hc target
  obtain ⟨asked, hagenda, hqueue, hlayout⟩ := file_layout hE hfile
  exact ⟨fun hkeys => agrees_of_layout hE hkeys hagenda hlayout, asked, hqueue, hagenda.names, hagenda.keys_nodup,
    hagenda.length_le hE, hlayout.helpers_last⟩

namespace Agree

-- In a diamond, every class has its own helper.

theorem keysApart_diamond {c : Contract} (hc : c ∈ Super.diamondPackage.classes) :
    KeysApart Super.diamondPackage c := by
  refine ⟨?_, ?_, ?_⟩
  · revert c
    decide
  · rintro start library owner s args ⟨e, he, hx⟩
    have hexprs : Super.diamondPackage.exprs = ["B", "C", "D"].map (Super.superCall "f") := rfl
    rw [hexprs, List.mem_map] at he
    obtain ⟨k, -, rfl⟩ := he
    cases List.mem_singleton.mp hx
  · have hparams : ∀ f ∈ c.dispatch, ∀ i ∈ f.implementations, i.params.length = 0 := by
      revert c
      decide
    intro f hf i hi j hj _ _
    rw [List.length_eq_zero_iff.mp (hparams f hf i hi), List.length_eq_zero_iff.mp (hparams f hf j hj)]

theorem diamond_agrees : ∃ c ∈ Super.diamondPackage.classes, ∃ out,
    Resolve.package "sample" Super.diamond = .ok Super.diamondPackage ∧ c.name = "D" ∧
    file Super.diamondPackage c .soroban = .ok out ∧ KeysApart Super.diamondPackage c ∧
    (∀ g ∈ out.methods, ∀ code ∈ g.body, code.Checked (Agrees ⟨Super.diamondPackage, c, .soroban⟩
      (finalState ⟨Super.diamondPackage, c, .soroban⟩).helperNames out.methods g)) ∧
    ∃ asked, Drained ⟨Super.diamondPackage, c, .soroban⟩ out.methods asked := by
  have hc : Super.diamondPackage.classes.getD 3 default ∈ Super.diamondPackage.classes := by simp [Super.diamondPackage]
  have hsome : (file Super.diamondPackage (Super.diamondPackage.classes.getD 3 default) .soroban).toOption.isSome =
      true := by decide
  cases hfile : file Super.diamondPackage (Super.diamondPackage.classes.getD 3 default) .soroban with
  | error d =>
      rw [hfile] at hsome
      cases hsome
  | ok out =>
      have hkeys := keysApart_diamond hc
      obtain ⟨hagrees, hdrained⟩ := calls_agree Super.package_diamond hc hfile
      exact ⟨_, hc, out, Super.package_diamond, rfl, hfile, hkeys, hagrees hkeys, hdrained⟩

-- A class with two functions of one name and one number of parameters. The call from the second in the class below
-- reaches the first under the name of the second.

def superStatement (arg : Solidity.Primary) : Solidity.Statement :=
  .expr default ⟨default, default, ⟨⟨.term default (.ident "super") [.member default "f",
    .call default [⟨default, default, ⟨⟨.term default arg [], []⟩, none⟩, none⟩]], []⟩, none⟩, none⟩

def functionOn (type : String) (body : List Solidity.Statement) : Solidity.ContractPart :=
  .function default
    { start := default, stop := default, kind := "function", name := "f"
      params := [⟨default, Resolve.plainType type, "", "x"⟩], attrs := [], returns := []
      body := some ⟨default, default, body⟩ }

def namesakes : Solidity.SourceUnit :=
  ⟨default, [
    Resolve.plainContract "Z" false [] [functionOn "bool" []],
    Resolve.plainContract "A" false ["Z"]
      [functionOn "bool" [], functionOn "address" [superStatement (.bool true)]],
    Resolve.plainContract "B" false ["A"] [functionOn "address" [superStatement (.ident "x")]]]⟩

def superCall (owner : String) (arg : Expr) : Expr := .call default "f" [arg] true owner "" (.tuple [])

def implOn (owner : String) (type : Ty) (arg : Option Expr) : Implementation :=
  { owner := owner
    params := [⟨"x", type⟩]
    body := some ⟨default, arg.toList.map fun e => .expr default (superCall owner e), false⟩
    implemented := true
    calls := arg.toList.map fun _ => functionKey "f" 1
    start := default }

def entryOn (type : Ty) (impls : List Implementation) : Function :=
  { Super.functionOf "f" impls with params := [⟨"x", type⟩] }

def argument : Expr := .var default "x" (.address false)

def namesakesPackage : Package :=
  let z := implOn "Z" .bool none
  let a := implOn "A" .bool none
  let a' := implOn "A" (.address false) (some (.bool default true))
  let b := implOn "B" (.address false) (some argument)
  { name := "sample"
    classes := [
      Super.classOf "Z" [] ["Z"] [entryOn .bool [z]] [entryOn .bool [z]],
      Super.classOf "A" ["Z"] ["A", "Z"] [entryOn .bool [a], entryOn (.address false) [a']]
        [entryOn (.address false) [a', a, z]],
      Super.classOf "B" ["A"] ["B", "A", "Z"] [entryOn (.address false) [b]]
        [entryOn (.address false) [b, a', a, z]]] }

theorem package_namesakes : Resolve.package "sample" namesakes = .ok namesakesPackage := by cbv

def bottom : Contract := namesakesPackage.classes.getD 2 default

def passesTrue (g : Rust.Function) : Bool :=
  match g.body with
  | some ⟨.expr (.tryOp (.call (.ident "Self::_f_a") [.ident "env", .lit "true"])) :: _, _⟩ => !g.isPublic
  | _ => false

theorem file_namesakes : (file namesakesPackage bottom .soroban).toOption.map
    (fun out => (out.methods.map fun g => (g.name, g.params.map (·.type)), out.methods.any passesTrue)) =
      some ([("f", ["Env", "Address"]), ("_f_a", ["&Env", "Address"])], true) := by
  decide

def sample : Env := ⟨namesakesPackage, bottom, .soroban⟩

theorem holds_cases {x : Expr} (h : namesakesPackage.Holds x) :
    x = superCall "A" (.bool default true) ∨ x = superCall "B" argument ∨ Resolve.isFunctionCall x = false := by
  obtain ⟨e, he, hx⟩ := h
  have hexprs : namesakesPackage.exprs = [superCall "A" (.bool default true), superCall "B" argument] := rfl
  rw [hexprs, List.mem_pair] at he
  rcases he with rfl | rfl
  · rcases List.mem_pair.mp hx with rfl | rfl
    · exact .inl rfl
    · exact .inr (.inr rfl)
  · rcases List.mem_pair.mp hx with rfl | rfl
    · exact .inr (.inl rfl)
    · exact .inr (.inr rfl)

theorem types_of_names {K : List (String × String)} {args : List Expr} {v : Convention} (h : Names sample K args v)
    (hname : v.name = "_f_a") : v.types = [.bool] ∨ args = [argument] := by
  cases h with
  | entry hcall hlookup =>
      have hf : "f" = "_f_a" := by
        rcases holds_cases hcall with hcall | hcall | hcall
        · cases hcall
          cases hlookup
          exact hname
        · cases hcall
          cases hlookup
          exact hname
        · cases hcall
      exact absurd hf (by decide)
  | implementation hcall hlookup hcalled =>
      rcases holds_cases hcall with hcall | hcall | hcall
      · cases hcall
        cases hlookup
        cases hcalled
        exact .inl rfl
      · cases hcall
        exact .inr rfl
      · cases hcall
  | library hcall => rcases holds_cases hcall with hcall | hcall | hcall <;> cases hcall

-- A variable is not written as a literal.
theorem not_operand_argument {E : Env} {text : String} {t : Ty} : ¬ Operand E argument (.lit text) t := by
  rintro ⟨depth, s, s', hw⟩
  unfold operandAs at hw
  obtain ⟨x, s₁, hx, hw⟩ := writes_bind.mp hw
  have hwritten : x = .lit text := (writes_pure.mp hw).1
  unfold operandOf at hx
  obtain ⟨y, s₂, hy, hx⟩ := writes_bind.mp hx
  have hident : ∃ ident, y = .ident ident := by
    unfold valueOf argument at hy
    obtain ⟨_, s₃, -, hy⟩ := writes_bind.mp hy
    obtain ⟨a, s₄, ha, hy⟩ := writes_bind.mp hy
    simp only [access] at ha
    obtain ⟨found, s₅, hfound, ha⟩ := writes_bind.mp ha
    cases found with
    | none => exact absurd ha not_writes_throw
    | some ident =>
        obtain ⟨rfl, -⟩ := writes_pure.mp ha
        exact ⟨ident, (writes_pure.mp hy).1.symm⟩
  obtain ⟨ident, rfl⟩ := hident
  obtain ⟨_, _, -, hx⟩ := writes_bind.mp hx
  obtain ⟨_, _, -, hx⟩ := writes_bind.mp hx
  rw [hwritten] at hx
  split at hx <;> cases (writes_pure.mp hx).1

theorem callText_eq_passed {v : Convention} {xs : List Rust.Expr}
    (h : callText .soroban false v xs = .call (.ident "Self::_f_a") [.ident "env", .lit "true"]) :
    v.name = "_f_a" ∧ v.exposed = false ∧ v.caller = false ∧ xs = [.lit "true"] := by
  obtain ⟨hpath, hargs⟩ := Rust.Expr.call.inj h
  have hname : v.name = "_f_a" := by
    have hpath : "Self::" ++ v.name = "Self::" ++ "_f_a" := Rust.Expr.ident.inj hpath
    exact String.append_right_inj _ |>.mp hpath
  cases hexposed : v.exposed <;> cases hcaller : v.caller <;> simp_all [Rust.Expr.method]

theorem not_passes_true {K : List (String × String)} {g callee : Rust.Function} {v : Convention}
    (hdeclares : Declares sample v callee) (hparams : callee.params.map (·.type) = ["&Env", "Address"])
    (hname : v.name = "_f_a") (hexposed : v.exposed = false) (hcaller : v.caller = false) :
    ¬ Passes sample K g v [.lit "true"] := by
  obtain ⟨texts, htexts, heq⟩ := hdeclares.params
  rw [hparams, hexposed, hcaller] at heq
  obtain rfl : texts = ["Address"] := by simpa [paramTypes, sample] using heq.symm
  rintro (⟨args, hnames, hoperands⟩ | hargs)
  · rcases types_of_names hnames hname with htypes | rfl
    · rw [htypes] at htexts
      rcases htexts with _ | ⟨⟨s, s', hw⟩, -⟩
      have htext : Except.ok (ε := Stop) "bool" = .ok "Address" := congrArg Prod.fst hw
      exact absurd (Except.ok.inj htext) (by decide)
    · generalize v.types = types at hoperands
      rcases hoperands with _ | ⟨hoperand, -⟩
      exact not_operand_argument hoperand
  · generalize v.types = types at hargs
    rcases hargs with _ | ⟨harg, -⟩
    cases harg

theorem namesakes_disagree : ∃ out, Resolve.package "sample" namesakes = .ok namesakesPackage ∧
    bottom ∈ namesakesPackage.classes ∧ file namesakesPackage bottom .soroban = .ok out ∧
    ¬ ∀ g ∈ out.methods, ∀ code ∈ g.body,
      code.Checked (Agrees sample (finalState sample).helperNames out.methods g) := by
  have hfile := file_namesakes
  cases hout : file namesakesPackage bottom .soroban with
  | error d =>
      rw [hout] at hfile
      cases hfile
  | ok out =>
      rw [hout] at hfile
      obtain ⟨hmethods, hpasses⟩ := Prod.mk.inj (Option.some.inj hfile)
      refine ⟨out, package_namesakes, List.mem_of_getElem? (i := 2) rfl, rfl, fun hall => ?_⟩
      obtain ⟨g, hg, hpass⟩ := List.any_eq_true.mp hpasses
      unfold passesTrue at hpass
      split at hpass
      · next rest tail hbody =>
          have hpublic : g.isPublic = false := by simpa using hpass
          obtain ⟨callee, hcallee, v, xs, hdeclares, hpassed, hy⟩ := (hall g hg _ hbody).1.1.1
          rw [hpublic] at hy
          rcases hy with hy | hy
          · obtain ⟨hname, hexposed, hcaller, rfl⟩ := callText_eq_passed hy.symm
            have hparams : callee.params.map (·.type) = ["&Env", "Address"] := by
              have hmem := List.mem_map_of_mem (f := fun g : Rust.Function => (g.name, g.params.map (·.type))) hcallee
              rw [hmethods, hdeclares.name, hname] at hmem
              simpa using hmem
            exact not_passes_true hdeclares hparams hname hexposed hcaller hpassed
          · exact absurd hy.1 Bool.false_ne_true
      · cases hpass

end Agree

end RustContracts.Emit
