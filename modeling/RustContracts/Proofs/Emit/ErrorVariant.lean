import Mathlib.Data.List.Forall2
import Mathlib.Data.List.Nodup
import RustContracts.Emit.Contract
import RustContracts.Proofs.Emit.Temp
import RustContracts.Proofs.Program.Registry
import RustContracts.Proofs.Resolve.Package

-- The variants of a contract's error type: which names they have, when no two of them have one name, and which of them
-- a revert names.
namespace RustContracts

open Program

-- In Soroban contracts a variant is named for its entry, or for the entry's code where that name is missing or taken.
namespace Soroban

-- The name of an entry behind others.
def givenName (taken : List String) (e : ErrorEntry) : String :=
  match wantedName? e with
  | some name => if taken.contains name then codeName e else name
  | none => codeName e

def variantNames (entries : List ErrorEntry) : List String := (errorNames [] entries).map Prod.snd

-- Whether an entry is named for its code: it asks for no name, or for one that an entry before it has.
def GivesWay (before : List ErrorEntry) (e : ErrorEntry) : Prop :=
  ∀ name, wantedName? e = some name → name ∈ variantNames before

-- What is true of each entry that is named for its code and of the entries before it.
def WhereCoded (P : List ErrorEntry → ErrorEntry → Prop) (entries : List ErrorEntry) : Prop :=
  ∀ before e, before ++ [e] <+: entries → GivesWay before e → P before e

-- Where an entry is named for its code, no entry before it asks for that name.
def CodesFree : List ErrorEntry → Prop := WhereCoded fun before e => ∀ e' ∈ before, wantedName? e' ≠ some (codeName e)

-- Entries that are named for their codes have different codes.
def CodesApart : List ErrorEntry → Prop := WhereCoded fun before e =>
  ∀ earlier e', earlier ++ [e'] <+: before → GivesWay earlier e' → e'.code ≠ e.code

variable {before entries : List ErrorEntry} {e e' : ErrorEntry} {name : String}

theorem codeName_eq_iff : codeName e = codeName e' ↔ e.code = e'.code := by
  constructor
  · intro h
    have hnumber : numbered "Code" e.code.toNat = numbered "Code" e'.code.toNat := by
      rw [numbered, numbered, (String.append_right_inj "Code").mp h]
    exact UInt32.toNat_inj.mp (numbered_inj hnumber).2
  · intro h
    rw [codeName, codeName, h]

theorem errorNames_cons (taken : List String) (e : ErrorEntry) (rest : List ErrorEntry) :
    errorNames taken (e :: rest) = (e, givenName taken e) :: errorNames (givenName taken e :: taken) rest := rfl

theorem entries_errorNames (taken : List String) (entries : List ErrorEntry) :
    (errorNames taken entries).map Prod.fst = entries := by
  induction entries generalizing taken with
  | nil => rfl
  | cons e rest ih => rw [errorNames_cons, List.map_cons, ih]

theorem givenName_congr {taken taken' : List String} (h : ∀ name, name ∈ taken ↔ name ∈ taken') (e : ErrorEntry) :
    givenName taken e = givenName taken' e := by
  unfold givenName
  cases wantedName? e with
  | none => rfl
  | some name => simp only [List.contains_iff_mem, h]

theorem errorNames_concat (taken : List String) (entries : List ErrorEntry) (e : ErrorEntry) :
    errorNames taken (entries ++ [e]) = errorNames taken entries ++
      [(e, givenName ((errorNames taken entries).map Prod.snd ++ taken) e)] := by
  induction entries generalizing taken with
  | nil => rfl
  | cons first rest ih =>
      have htaken : givenName ((errorNames (givenName taken first :: taken) rest).map Prod.snd ++
          givenName taken first :: taken) e =
          givenName ((errorNames taken (first :: rest)).map Prod.snd ++ taken) e := by
        refine givenName_congr (fun name => ?_) e
        simp only [errorNames_cons, List.map_cons, List.mem_append, List.mem_cons]
        tauto
      rw [List.cons_append, errorNames_cons, ih, htaken, errorNames_cons, List.cons_append]

theorem variantNames_concat (entries : List ErrorEntry) (e : ErrorEntry) :
    variantNames (entries ++ [e]) = variantNames entries ++ [givenName (variantNames entries) e] := by
  rw [variantNames, errorNames_concat, List.append_nil, List.map_append]
  rfl

theorem givenName_of_givesWay (h : GivesWay before e) : givenName (variantNames before) e = codeName e := by
  unfold givenName
  cases hwanted : wantedName? e with
  | none => rfl
  | some name => simp [h name hwanted]

theorem givenName_of_not_givesWay (h : ¬GivesWay before e) :
    wantedName? e = some (givenName (variantNames before) e) ∧ givenName (variantNames before) e ∉ variantNames before := by
  unfold GivesWay at h
  push Not at h
  obtain ⟨name, hwanted, hfree⟩ := h
  have hgiven : givenName (variantNames before) e = name := by
    rw [givenName, hwanted]
    simp [hfree]
  rw [hgiven]
  exact ⟨hwanted, hfree⟩

-- A name that an entry asks for is taken behind it, by that entry or by one before it.
theorem mem_variantNames_of_wanted (he : e ∈ entries) (hwanted : wantedName? e = some name) :
    name ∈ variantNames entries := by
  induction entries using List.reverseRecOn with
  | nil => cases he
  | append_singleton entries last ih =>
      rw [variantNames_concat, List.mem_append]
      rcases List.mem_append.mp he with he | he
      · exact .inl (ih he)
      · obtain rfl := List.mem_singleton.mp he
        by_cases hway : GivesWay entries e
        · exact .inl (hway name hwanted)
        · obtain ⟨hgiven, -⟩ := givenName_of_not_givesWay hway
          rw [hwanted, Option.some.injEq] at hgiven
          exact .inr (List.mem_singleton.mpr hgiven)

theorem whereCoded_concat {P : List ErrorEntry → ErrorEntry → Prop} :
    WhereCoded P (entries ++ [e]) ↔ WhereCoded P entries ∧ (GivesWay entries e → P entries e) := by
  constructor
  · intro h
    exact ⟨fun before last hfront => h before last (hfront.trans (List.prefix_append _ _)),
      h entries e List.prefix_rfl⟩
  · rintro ⟨hentries, hlast⟩ before last hfront
    rcases List.prefix_concat_iff.mp hfront with heq | hfront
    · obtain ⟨rfl, rfl⟩ := List.append_inj' heq rfl |>.imp_right List.singleton_inj.mp
      exact hlast
    · exact hentries before last hfront

-- Names are taken by entries that ask for them and by entries that are named for their codes.
theorem wanted_or_code (h : name ∈ variantNames entries) : (∃ e ∈ entries, wantedName? e = some name) ∨
    ∃ before e, before ++ [e] <+: entries ∧ GivesWay before e ∧ name = codeName e := by
  induction entries using List.reverseRecOn with
  | nil => cases h
  | append_singleton entries last ih =>
      rw [variantNames_concat, List.mem_append, List.mem_singleton] at h
      rcases h with h | rfl
      · rcases ih h with ⟨e, he, hwanted⟩ | ⟨before, e, hfront, hname⟩
        · exact .inl ⟨e, List.mem_append_left _ he, hwanted⟩
        · exact .inr ⟨before, e, hfront.trans (List.prefix_append _ _), hname⟩
      · by_cases hway : GivesWay entries last
        · exact .inr ⟨entries, last, List.prefix_rfl, hway, givenName_of_givesWay hway⟩
        · exact .inl ⟨last, List.mem_append_right _ (List.mem_singleton_self last), (givenName_of_not_givesWay hway).1⟩

theorem mem_variantNames_of_coded {earlier : List ErrorEntry} (hfront : earlier ++ [e] <+: entries)
    (hway : GivesWay earlier e) : codeName e ∈ variantNames entries := by
  induction entries using List.reverseRecOn with
  | nil => simp at hfront
  | append_singleton entries last ih =>
      rw [variantNames_concat, List.mem_append, List.mem_singleton]
      rcases List.prefix_concat_iff.mp hfront with heq | hfront
      · obtain ⟨rfl, rfl⟩ := List.append_inj' heq rfl |>.imp_right List.singleton_inj.mp
        exact .inr (givenName_of_givesWay hway).symm
      · exact .inl (ih hfront)

-- The name for a code is free where no entry asks for it and none is named for the same code.
theorem codeName_notMem_iff : codeName e ∉ variantNames before ↔ (∀ e' ∈ before, wantedName? e' ≠ some (codeName e)) ∧
    ∀ earlier e', earlier ++ [e'] <+: before → GivesWay earlier e' → e'.code ≠ e.code := by
  constructor
  · intro hfree
    refine ⟨fun e' he' hwanted => hfree (mem_variantNames_of_wanted he' hwanted), fun earlier e' hfront hway hcode => ?_⟩
    exact hfree (codeName_eq_iff.mpr hcode ▸ mem_variantNames_of_coded hfront hway)
  · rintro ⟨hasked, hcoded⟩ htaken
    rcases wanted_or_code htaken with ⟨e', he', hwanted⟩ | ⟨earlier, e', hfront, hway, hname⟩
    · exact hasked e' he' hwanted
    · exact hcoded earlier e' hfront hway (codeName_eq_iff.mp hname).symm

-- Entries have different names exactly when the names for codes are free and stand for one code each.
theorem nodup_variantNames_iff : (variantNames entries).Nodup ↔ CodesFree entries ∧ CodesApart entries := by
  induction entries using List.reverseRecOn with
  | nil =>
      refine iff_of_true .nil ⟨fun before e hfront => ?_, fun before e hfront => ?_⟩ <;> simp at hfront
  | append_singleton entries e ih =>
      rw [variantNames_concat, ← List.concat_eq_append, List.nodup_concat, and_comm, ih, CodesFree, CodesApart,
        whereCoded_concat, whereCoded_concat, and_and_and_comm]
      refine and_congr_right fun _ => ?_
      by_cases hway : GivesWay entries e
      · rw [givenName_of_givesWay hway, codeName_notMem_iff, imp_iff_right hway, imp_iff_right hway]
      · exact iff_of_true (givenName_of_not_givesWay hway).2 ⟨fun h => absurd h hway, fun h => absurd h hway⟩

theorem codesApart_of_nodup (hcodes : (entries.map (·.code)).Nodup) : CodesApart entries := by
  intro before e hfront _ earlier e' hearlier _ hcode
  have hnodup := hcodes.sublist (hfront.sublist.map (·.code))
  rw [List.map_append, List.map_singleton, ← List.concat_eq_append, List.nodup_concat] at hnodup
  have he' : e' ∈ before := hearlier.subset (List.mem_append_right _ (List.mem_singleton_self e'))
  exact hnodup.1 (hcode ▸ List.mem_map_of_mem he')

end Soroban

namespace Ink

-- The variant that all messages share.
def revertVariant : Rust.Variant :=
  { name := "Revert", fields := [{ name := "code", type := "u32" }, { name := "message", type := "String" }] }

def errorTypes (entries : List ErrorEntry) : List String :=
  (entries.filterMap ErrorEntry.custom).map fun d => Rust.Name.type d.name

end Ink

namespace Emit

variable {E : Env} {s s' : State}

-- What keeps the variants apart: in ink! contracts errors have different names as types, none of them the name for
-- messages, and in Soroban contracts names for codes are free where they are needed, each for one code.
def VariantsClear (target : Target) (entries : List ErrorEntry) : Prop :=
  match target with
  | .ink _ => (Ink.errorTypes entries).Nodup ∧ "Revert" ∉ Ink.errorTypes entries
  | .soroban => Soroban.CodesFree entries ∧ Soroban.CodesApart entries

-- The variant that is there for an entry.
inductive StandsFor (E : Env) (e : ErrorEntry) (v : Rust.Variant) : Prop
  | message {version : InkVersion} (htarget : E.target = .ink version) (hmessage : e.custom = none)
      (hv : v = Ink.revertVariant)
  | declared {version : InkVersion} {d : ErrorDecl} {t t' : State} (htarget : E.target = .ink version)
      (hd : e.custom = some d) (hv : Writes (Ink.errorVariant version d) E t v t')
  | coded (htarget : E.target = .soroban) (hv : v.discriminant = toString e.code.toNat)

-- The path with which a value of an enum begins.
def valuePath? : Rust.Expr → Option String
  | .ident path => some path
  | .call (.ident path) _ => some path
  | .structLit path _ _ => some path
  | _ => none

def NamesVariant (x : Rust.Expr) (v : Rust.Variant) : Prop := valuePath? x = some ("Error::" ++ v.name)

theorem NamesVariant.name_eq {x : Rust.Expr} {v v' : Rust.Variant} (h : NamesVariant x v) (h' : NamesVariant x v') :
    v'.name = v.name :=
  (String.append_right_inj "Error::").mp (Option.some.inj (h'.symm.trans h))

theorem name_errorVariant {version : InkVersion} {d : ErrorDecl} {v : Rust.Variant}
    (hw : Writes (Ink.errorVariant version d) E s v s') : v.name = Rust.Name.type d.name := by
  obtain ⟨tuple, s₁, -, hw⟩ := writes_bind.mp hw
  obtain ⟨rfl, -⟩ := writes_pure.mp hw
  rfl

theorem writes_inkErrors {version : InkVersion} {entries : List ErrorEntry} {items : List Rust.Item}
    (hw : Writes (Ink.errorItems version entries) E s items s') : ∃ attrs declared,
      Rust.Item.enum attrs "Error" (Ink.revertVariant :: declared) ∈ items ∧
      List.Forall₂ (fun d v => ∃ t t', Writes (Ink.errorVariant version d) E t v t')
        (entries.filterMap ErrorEntry.custom) declared := by
  obtain ⟨_, s₁, -, hw⟩ := writes_bind.mp hw
  obtain ⟨declared, s₂, hdeclared, hw⟩ := writes_bind.mp hw
  obtain ⟨rfl, -⟩ := writes_pure.mp hw
  exact ⟨_, declared, List.mem_cons_self, writes_mapM hdeclared⟩

theorem names_declared {version : InkVersion} {ds : List ErrorDecl} {declared : List Rust.Variant}
    (h : List.Forall₂ (fun d v => ∃ t t', Writes (Ink.errorVariant version d) E t v t') ds declared) :
    declared.map (·.name) = ds.map fun d => Rust.Name.type d.name := by
  induction h with
  | nil => rfl
  | cons hv _ ih =>
      obtain ⟨_, _, hv⟩ := hv
      rw [List.map_cons, List.map_cons, name_errorVariant hv, ih]

-- A value for an entry of an ink! contract.
theorem inkRevert_names {version : InkVersion} (htarget : E.target = .ink version) {entries : List ErrorEntry}
    {declared : List Rust.Variant} (hdeclared : List.Forall₂
      (fun d v => ∃ t t', Writes (Ink.errorVariant version d) E t v t') (entries.filterMap ErrorEntry.custom) declared)
    {e : ErrorEntry} (he : e ∈ entries) {args : List Rust.Expr} {x : Rust.Expr}
    (hw : Writes (Ink.revert e args) E s x s') :
    ∃ v ∈ Ink.revertVariant :: declared, StandsFor E e v ∧ NamesVariant x v := by
  unfold Ink.revert at hw
  cases hcustom : e.custom with
  | none =>
      rw [hcustom] at hw
      obtain ⟨_, s₁, -, hw⟩ := writes_bind.mp hw
      obtain ⟨rfl, -⟩ := writes_pure.mp hw
      exact ⟨_, List.mem_cons_self, .message htarget hcustom rfl, rfl⟩
  | some d =>
      rw [hcustom] at hw
      obtain ⟨v, hv, t, t', hwritten⟩ := forall₂_exists hdeclared (List.mem_filterMap.mpr ⟨e, he, hcustom⟩)
      refine ⟨v, List.mem_cons_of_mem _ hv, .declared htarget hcustom hwritten, ?_⟩
      rw [NamesVariant, name_errorVariant hwritten]
      dsimp only at hw
      split at hw <;> obtain ⟨rfl, -⟩ := writes_pure.mp hw <;> rfl

-- Of pairs whose entries have different keys, each is found by the key of its entry.
theorem find?_of_nodup {names : List (ErrorEntry × String)} {e : ErrorEntry} {name : String}
    (hnodup : (names.map (·.1.key)).Nodup) (h : (e, name) ∈ names) :
    names.find? (·.1.key = e.key) = some (e, name) := by
  cases hfound : names.find? (·.1.key = e.key) with
  | none => exact absurd (decide_eq_true rfl) (List.find?_eq_none.mp hfound (e, name) h)
  | some pair =>
      have hkey : pair.1.key = e.key := by simpa using List.find?_some hfound
      rw [List.inj_on_of_nodup_map hnodup (List.mem_of_find?_eq_some hfound) h hkey]

def sorobanVariants (entries : List ErrorEntry) : List Rust.Variant :=
  if entries.isEmpty then [{ name := "Unknown", discriminant := "0" }]
  else (Soroban.errorNames [] entries).map fun p => { name := p.2, discriminant := toString p.1.code.toNat }

theorem names_sorobanVariants (entries : List ErrorEntry) :
    (sorobanVariants entries).map (·.name) = if entries.isEmpty then ["Unknown"] else Soroban.variantNames entries := by
  unfold sorobanVariants
  split
  · rfl
  · simp [Soroban.variantNames]

theorem writes_sorobanErrors {entries : List ErrorEntry} {items : List Rust.Item}
    (hw : Writes (Soroban.errorItems entries) E s items s') : ∃ attrs,
      Rust.Item.enum attrs "Error" (sorobanVariants entries) ∈ items := by
  obtain ⟨_, s₁, -, hw⟩ := writes_bind.mp hw
  obtain ⟨rfl, -⟩ := writes_pure.mp hw
  cases entries <;> exact ⟨_, List.mem_singleton.mpr rfl⟩

theorem sorobanRevert_names (htarget : E.target = .soroban)
    (hkeys : (E.package.registry.entries.map (·.key)).Nodup) {e : ErrorEntry} (he : e ∈ E.package.registry.entries)
    {x : Rust.Expr} (hw : Writes (Soroban.revert e) E s x s') :
    ∃ v ∈ sorobanVariants E.package.registry.entries, StandsFor E e v ∧ NamesVariant x v := by
  obtain ⟨_, s₁, henv, hw⟩ := writes_bind.mp hw
  obtain ⟨rfl, rfl⟩ := writes_read.mp henv
  obtain ⟨rfl, -⟩ := writes_pure.mp hw
  rw [← Soroban.entries_errorNames [] E.package.registry.entries, List.map_map] at hkeys
  obtain ⟨⟨e, name⟩, hname, rfl⟩ : ∃ p ∈ Soroban.errorNames [] E.package.registry.entries, p.1 = e := by
    rwa [← List.mem_map, Soroban.entries_errorNames]
  refine ⟨{ name := name, discriminant := toString e.code.toNat }, ?_, .coded htarget rfl, ?_⟩
  · rw [sorobanVariants, if_neg (by simp [List.ne_nil_of_mem he])]
    exact List.mem_map.mpr ⟨_, hname, rfl⟩
  · rw [NamesVariant, find?_of_nodup hkeys hname]
    rfl

-- Behind any sequence of registrations: the variants of the error type have different names exactly when names are
-- clear, each revert names the variant of its entry, and where names are clear, no other. While 32 bits hold the codes,
-- no two entries are named for one code.
theorem error_variants_apart_iff (calls : List RegistryCall)
    (hentries : E.package.registry.entries = (Registry.after calls).entries) {items : List Rust.Item}
    (hw : Writes (errorItems E.package.registry.entries) E s items s') :
    (∃ attrs variants, Rust.Item.enum attrs "Error" variants ∈ items ∧
      ((variants.map (·.name)).Nodup ↔ VariantsClear E.target E.package.registry.entries) ∧
      ∀ e ∈ E.package.registry.entries, ∀ args t x t', Writes (errorValue e args) E t x t' →
        ∃ v ∈ variants, StandsFor E e v ∧ NamesVariant x v ∧
          (VariantsClear E.target E.package.registry.entries → ∀ v' ∈ variants, NamesVariant x v' → v' = v)) ∧
      (E.package.registry.entries.length < 2 ^ 32 → Soroban.CodesApart E.package.registry.entries) := by
  have hkeeps := Registry.keepsFirst_after calls
  rw [← hentries] at hkeeps
  refine ⟨?_, fun hfew => Soroban.codesApart_of_nodup (hkeeps.nodup_codes hfew)⟩
  -- with different names, the variant that a value names is the only one
  have honly {variants : List Rust.Variant} {clear : Prop} (hiff : (variants.map (·.name)).Nodup ↔ clear)
      {v : Rust.Variant} (hv : v ∈ variants) {x : Rust.Expr} (hx : NamesVariant x v) (hclear : clear) :
      ∀ v' ∈ variants, NamesVariant x v' → v' = v :=
    fun v' hv' hx' => List.inj_on_of_nodup_map (hiff.mpr hclear) hv' hv (hx.name_eq hx')
  simp only [errorItems, writes_of_target] at hw
  simp only [errorValue, writes_of_target]
  cases htarget : E.target with
  | ink version =>
      rw [htarget] at hw
      obtain ⟨attrs, declared, hitem, hdeclared⟩ := writes_inkErrors hw
      have hiff : ((Ink.revertVariant :: declared).map (·.name)).Nodup ↔
          VariantsClear (.ink version) E.package.registry.entries := by
        rw [List.map_cons, names_declared hdeclared, List.nodup_cons, and_comm]
        rfl
      refine ⟨attrs, _, hitem, hiff, fun e he args t x t' hx => ?_⟩
      obtain ⟨v, hv, hstands, hnames⟩ := inkRevert_names htarget hdeclared he hx
      exact ⟨v, hv, hstands, hnames, honly hiff hv hnames⟩
  | soroban =>
      rw [htarget] at hw
      obtain ⟨attrs, hitem⟩ := writes_sorobanErrors hw
      have hiff : ((sorobanVariants E.package.registry.entries).map (·.name)).Nodup ↔
          VariantsClear .soroban E.package.registry.entries := by
        rw [names_sorobanVariants]
        refine Iff.trans ?_ Soroban.nodup_variantNames_iff
        split
        · next hempty => simp [List.isEmpty_iff.mp hempty, Soroban.variantNames, Soroban.errorNames]
        · rfl
      refine ⟨attrs, _, hitem, hiff, fun e he args t x t' hx => ?_⟩
      obtain ⟨v, hv, hstands, hnames⟩ := sorobanRevert_names htarget hkeeps.nodup_keys he hx
      exact ⟨v, hv, hstands, hnames, honly hiff hv hnames⟩

-- An error and a message, each under a name of its own.

def denied : ErrorDecl := { name := "Denied" }

def denials : List RegistryCall := [.register (.custom denied), .event, .register (.message "too low")]

def denyingPackage : Package := { name := "sample", classes := [], registry := Registry.after denials }

theorem variants_denials : ∃ attrs variants items s,
    Writes (errorItems denyingPackage.registry.entries) ⟨denyingPackage, default, .soroban⟩ {} items s ∧
      Rust.Item.enum attrs "Error" variants ∈ items ∧ (variants.map (·.name)).Nodup := by
  have hclear : VariantsClear .soroban denyingPackage.registry.entries :=
    Soroban.nodup_variantNames_iff.mp (by decide)
  obtain ⟨items, s, hw⟩ : ∃ items s,
      Writes (errorItems denyingPackage.registry.entries) ⟨denyingPackage, default, .soroban⟩ {} items s := ⟨_, _, rfl⟩
  obtain ⟨⟨attrs, variants, hitem, hiff, -⟩, -⟩ :=
    error_variants_apart_iff (E := ⟨denyingPackage, default, .soroban⟩) denials rfl hw
  exact ⟨attrs, variants, items, s, hw, hitem, hiff.mpr hclear⟩

namespace CodeNamed

open Solidity (SourceUnit SourceUnitPart)

-- The second entry has no name but the one for its code, which the first has.

def aborting : SourceUnit :=
  ⟨default, [
    .error default ⟨default, "Code2", []⟩,
    Resolve.plainContract "C" false [] [
      .function default
        { start := default, stop := default, kind := "function", name := "f", params := [], attrs := [], returns := []
          body := some ⟨default, default, [
            .revert default ⟨default, default, ⟨⟨.term default (.tuple []) [], []⟩, none⟩, none⟩]⟩ }]]⟩

def named : ErrorDecl := { name := "Code2" }

def first : ErrorEntry := ⟨1, "error:Code2", "Code2", some named⟩

def second : ErrorEntry := ⟨2, "msg:", "", none⟩

def implementation : Implementation :=
  { owner := "C", body := some ⟨default, [.revert default second []], false⟩, implemented := true, start := default }

def function : Function :=
  { name := "f", sourceName := "f", kind := .function, implementations := [implementation] }

def contract : Contract :=
  { name := "C", kind := .contract, isAbstract := false, bases := [], start := default, chain := ["C"]
    functions := [function], storage := [], dispatch := [function], modifierTable := [] }

def abortingPackage : Package :=
  { name := "sample", classes := [contract], errors := [⟨named, first⟩], registry := { entries := [first, second] } }

def errorVariants : Rust.Item → List Rust.Variant
  | .enum _ "Error" variants => variants
  | _ => []

theorem package_aborting : Resolve.package "sample" aborting = .ok abortingPackage := by cbv

-- Both variants have the name to which the revert with the second entry refers.
theorem variants_clash : Resolve.package "sample" aborting = .ok abortingPackage ∧
    (file abortingPackage contract .soroban).toOption.map (fun out => (out.items.flatMap errorVariants).map
      fun v => (v.name, v.discriminant)) = some [("Code2", "1"), ("Code2", "2")] ∧
    (outcome (errorValue second []) ⟨abortingPackage, contract, .soroban⟩ {}).1.toOption.bind valuePath? =
      some "Error::Code2" :=
  ⟨package_aborting, by decide +kernel, by decide +kernel⟩

end CodeNamed

end Emit

end RustContracts
