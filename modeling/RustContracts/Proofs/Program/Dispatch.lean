import Mathlib.Data.List.Forall2
import RustContracts.Program.Flatten

-- Dispatch tables: what the entries say about the functions that are declared along a chain.
namespace RustContracts.Program

theorem forall₂_exists {α β : Type} {R : α → β → Prop} {as : List α} {bs : List β} (h : List.Forall₂ R as bs) {a : α}
    (ha : a ∈ as) : ∃ b ∈ bs, R a b := by
  induction h with
  | nil => cases ha
  | cons hab _ ih =>
      rcases List.mem_cons.mp ha with rfl | ha
      · exact ⟨_, List.mem_cons_self, hab⟩
      · obtain ⟨b, hb, hab⟩ := ih ha
        exact ⟨b, List.mem_cons_of_mem _ hb, hab⟩

-- Keys.

-- The digits at the end tell the number, what is before them the name.
theorem functionKey_inj {name other : String} {m n : Nat}
    (h : functionKey name m = functionKey other n) : name = other ∧ m = n := by
  have hdigits (k : Nat) : ∀ c ∈ (Nat.toDigits 10 k).reverse, c.isDigit := fun c hc =>
    Nat.isDigit_of_mem_toDigits (by decide) (by decide) (List.mem_reverse.mp hc)
  have hlist : name.toList ++ '/' :: Nat.toDigits 10 m = other.toList ++ '/' :: Nat.toDigits 10 n := by
    have := congrArg String.toList h
    simpa [functionKey, String.toList_append] using this
  have hreverse := congrArg (fun cs => cs.reverse.takeWhile Char.isDigit) hlist
  simp only [List.reverse_append, List.reverse_cons, List.append_assoc] at hreverse
  rw [List.takeWhile_append_of_pos (hdigits m), List.takeWhile_append_of_pos (hdigits n)] at hreverse
  have htoDigits : Nat.toDigits 10 m = Nat.toDigits 10 n := by simpa using hreverse
  have hmn : m = n := by
    rw [← Nat.ofDigitChars_ten_toDigits (n := m), htoDigits, Nat.ofDigitChars_ten_toDigits]
  subst hmn
  exact ⟨String.toList_inj.mp (List.append_cancel_right hlist), rfl⟩

theorem Signature.key_eq_iff {s t : Signature} :
    s.key = t.key ↔ s.sourceName = t.sourceName ∧ s.params.length = t.params.length := by
  constructor
  · exact functionKey_inj
  · rintro ⟨hname, harity⟩
    simp [key, hname, harity]

-- A key counts where it occurs first.
theorem eraseDups_concat (keys : List String) (key : String) :
    (keys ++ [key]).eraseDups = if key ∈ keys then keys.eraseDups else keys.eraseDups ++ [key] := by
  rw [List.eraseDups_append]
  by_cases h : key ∈ keys
  · simp [List.removeAll, h]
  · simp [List.removeAll, h, List.eraseDups_cons]

-- The declarations with a key, in the order of the declarations.
def declaredAs (key : String) (decls : List Function) : List Function :=
  decls.filter (·.key = key)

theorem declaredAs_concat (key : String) (decls : List Function) (f : Function) :
    declaredAs key (decls ++ [f]) =
      declaredAs key decls ++ if f.key = key then [f] else [] := by
  by_cases h : f.key = key <;> simp [declaredAs, h]

-- An entry of the table gathers the declarations with its key: their implementations, the last one first,
-- the kind of the first of them, and how the last of them is called.
structure Gathers (decls : List Function) (entry : Function) : Prop where
  implementations : entry.implementations =
    (declaredAs entry.key decls).reverse.flatMap fun d => d.implementations.take 1
  first : ∃ d, (declaredAs entry.key decls).head? = some d ∧ entry.kind = d.kind
  last : ∃ d, (declaredAs entry.key decls).getLast? = some d ∧ entry.visibility = d.visibility ∧
    entry.mutability = d.mutability ∧ entry.params = d.params ∧ entry.returns = d.returns

-- What a table holds: an entry for each key, in order of first declaration.
structure Tabulates (decls table : List Function) : Prop where
  keys_nodup : (table.map (·.key)).Nodup
  keys : table.map (·.key) = (decls.map (·.key)).eraseDups
  gathers : ∀ entry ∈ table, Gathers decls entry

-- An entry with an overriding declaration.
def overriddenBy (entry f : Function) : Function :=
  { entry with
    visibility := f.visibility
    mutability := f.mutability
    params := f.params
    returns := f.returns
    implementations := f.implementations.take 1 ++ entry.implementations }

variable {decls table : List Function} {f entry : Function}

theorem mergeFunction_of_mem (h : f.key ∈ table.map (·.key)) :
    mergeFunction table f =
      table.map fun entry => if entry.key = f.key then overriddenBy entry f else entry := by
  have hany : table.any (·.key = f.key) = true := by
    simpa [List.any_eq_true] using h
  rw [mergeFunction, if_pos hany]
  rfl

theorem mergeFunction_of_notMem (h : f.key ∉ table.map (·.key)) :
    mergeFunction table f = table ++ [{ f with implementations := f.implementations.take 1 }] := by
  have hany : ¬table.any (·.key = f.key) = true := by
    simpa [List.any_eq_true] using h
  rw [mergeFunction, if_neg hany]

theorem key_overriddenBy (h : entry.key = f.key) : (overriddenBy entry f).key = f.key := by
  rw [Signature.key_eq_iff] at h ⊢
  exact ⟨h.1, rfl⟩

theorem Gathers.of_other (h : Gathers decls entry) (hkey : entry.key ≠ f.key) :
    Gathers (decls ++ [f]) entry := by
  have hsame : declaredAs entry.key (decls ++ [f]) = declaredAs entry.key decls := by
    rw [declaredAs_concat, if_neg (Ne.symm hkey), List.append_nil]
  exact ⟨hsame ▸ h.implementations, hsame ▸ h.first, hsame ▸ h.last⟩

theorem Gathers.overriddenBy (h : Gathers decls entry) (hkey : entry.key = f.key) :
    Gathers (decls ++ [f]) (overriddenBy entry f) := by
  have hall : declaredAs (Program.overriddenBy entry f).key (decls ++ [f]) =
      declaredAs entry.key decls ++ [f] := by
    rw [key_overriddenBy hkey, declaredAs_concat, if_pos rfl, hkey]
  obtain ⟨d, hd, hkind⟩ := h.first
  refine ⟨?_, ⟨d, ?_, hkind⟩, ⟨f, ?_, rfl, rfl, rfl, rfl⟩⟩
  · rw [hall, List.reverse_append, List.reverse_singleton, List.singleton_append, List.flatMap_cons,
      ← h.implementations]
    rfl
  · rw [hall, List.head?_append, hd]
    rfl
  · rw [hall, List.getLast?_concat]

theorem gathers_new (hkey : f.key ∉ decls.map (·.key)) :
    Gathers (decls ++ [f]) { f with implementations := f.implementations.take 1 } := by
  have hnone : declaredAs f.key decls = [] := by
    rw [declaredAs, List.filter_eq_nil_iff]
    intro d hd heq
    exact hkey (List.mem_map.mpr ⟨d, hd, by simpa using heq⟩)
  have hall : declaredAs f.key (decls ++ [f]) = [f] := by
    rw [declaredAs_concat, if_pos rfl, hnone, List.nil_append]
  exact ⟨by simp [hall], ⟨f, by simp [hall], rfl⟩, ⟨f, by simp [hall], rfl, rfl, rfl, rfl⟩⟩

-- One more declaration.
theorem Tabulates.mergeFunction (h : Tabulates decls table) (f : Function) :
    Tabulates (decls ++ [f]) (mergeFunction table f) := by
  have hmem : f.key ∈ table.map (·.key) ↔ f.key ∈ decls.map (·.key) := by
    rw [h.keys, List.mem_eraseDups]
  by_cases hf : f.key ∈ table.map (·.key)
  · have hkeys : (table.map fun e => if e.key = f.key then Program.overriddenBy e f else e).map (·.key) =
        table.map (·.key) := by
      rw [List.map_map]
      refine List.map_congr_left fun e _ => ?_
      by_cases he : e.key = f.key
      · rw [Function.comp_apply, if_pos he, key_overriddenBy he, he]
      · rw [Function.comp_apply, if_neg he]
    rw [mergeFunction_of_mem hf]
    refine ⟨hkeys ▸ h.keys_nodup, ?_, ?_⟩
    · rw [hkeys, h.keys, List.map_append, List.map_singleton, eraseDups_concat, if_pos (hmem.mp hf)]
    · intro entry hentry
      obtain ⟨e, he, rfl⟩ := List.mem_map.mp hentry
      by_cases hkey : e.key = f.key
      · rw [if_pos hkey]
        exact (h.gathers e he).overriddenBy hkey
      · rw [if_neg hkey]
        exact (h.gathers e he).of_other hkey
  · have hout := fun hin => hf (hmem.mpr hin)
    rw [mergeFunction_of_notMem hf]
    refine ⟨?_, ?_, ?_⟩
    · rw [List.map_append]
      refine List.nodup_append.mpr ⟨h.keys_nodup, by simp, ?_⟩
      intro a ha b hb hab
      obtain rfl : b = f.key := List.mem_singleton.mp hb
      exact hf (hab ▸ ha)
    · have hkeys := eraseDups_concat (decls.map (·.key)) f.key
      rw [if_neg hout] at hkeys
      rw [List.map_append, h.keys, List.map_append]
      exact hkeys.symm
    · intro entry hentry
      rcases List.mem_append.mp hentry with he | he
      · refine (h.gathers entry he).of_other fun hkey => hf ?_
        exact hkey ▸ List.mem_map_of_mem he
      · obtain rfl := List.mem_singleton.mp he
        exact gathers_new hout

theorem Tabulates.foldl (h : Tabulates decls table) (more : List Function) :
    Tabulates (decls ++ more) (more.foldl Program.mergeFunction table) := by
  induction more generalizing decls table with
  | nil => simpa using h
  | cons f more ih => simpa using ih (h.mergeFunction f)

theorem tabulates_foldl (decls : List Function) : Tabulates decls (decls.foldl mergeFunction []) := by
  have hnil : Tabulates [] [] := ⟨by simp, rfl, by simp⟩
  exact hnil.foldl decls

-- Getters stand behind all other entries, each under a name that no entry before it has.
structure AddsGetters (table getters : List Function) : Prop where
  kinds : ∀ g ∈ getters, g.kind = .getter
  keys_nodup : (table.map (·.key)).Nodup → ((table ++ getters).map (·.key)).Nodup

theorem AddsGetters.nil (table : List Function) : AddsGetters table [] :=
  ⟨by simp, by simp⟩

theorem AddsGetters.cons {getters : List Function} {g : Function} (hkind : g.kind = .getter)
    (hname : ∀ entry ∈ table, entry.sourceName ≠ g.sourceName)
    (h : AddsGetters (table ++ [g]) getters) : AddsGetters table (g :: getters) where
  kinds := List.forall_mem_cons.mpr ⟨hkind, h.kinds⟩
  keys_nodup hnodup := by
    have hnew : ((table ++ [g]).map (·.key)).Nodup := by
      rw [List.map_append]
      refine List.nodup_append.mpr ⟨hnodup, by simp, ?_⟩
      intro a ha b hb hab
      obtain ⟨entry, hentry, rfl⟩ := List.mem_map.mp ha
      obtain rfl := List.mem_singleton.mp hb
      exact hname entry hentry (Signature.key_eq_iff.mp hab).1
    simpa using h.keys_nodup hnew

theorem addGetters_eq (table : List Function) (storage : List StorageField) :
    ∃ getters, addGetters table storage = table ++ getters ∧ AddsGetters table getters := by
  induction storage generalizing table with
  | nil => exact ⟨[], by simp [addGetters], .nil table⟩
  | cons field storage ih =>
      by_cases hadd : field.isPublic && !table.any (·.sourceName = field.sourceName)
      · obtain ⟨getters, heq, h⟩ := ih (table ++ [getter field.toFieldDecl])
        refine ⟨getter field.toFieldDecl :: getters, ?_, h.cons rfl fun entry hentry hname => ?_⟩
        · rw [addGetters, List.foldl_cons, if_pos hadd, ← addGetters, heq]
          simp
        · simp only [Bool.and_eq_true, Bool.not_eq_true', List.any_eq_false, decide_eq_true_eq] at hadd
          exact hadd.2 entry hentry hname
      · obtain ⟨getters, heq, h⟩ := ih table
        refine ⟨getters, ?_, h⟩
        rw [addGetters, List.foldl_cons, if_neg hadd, ← addGetters, heq]

-- Only the identifier of an entry depends on the others of its name.
def sameButName (f g : Function) : Prop := g = { f with name := g.name }

theorem nameOverloads_eq (table : List Function) :
    ∃ rename : Function → Function, nameOverloads table = table.map rename ∧
      ∀ f, sameButName f (rename f) := by
  refine ⟨_, rfl, fun f => ?_⟩
  split <;> rfl

theorem sameButName.key {f g : Function} (h : sameButName f g) : g.key = f.key := by
  rw [h]
  rfl

theorem sameButName.gathers {f g : Function} (h : sameButName f g) (hf : Gathers decls f) :
    Gathers decls g := by
  rw [h]
  exact ⟨hf.implementations, hf.first, hf.last⟩

-- The dispatch table of a class with the functions that are declared along its chain, base classes first.
structure Dispatches (decls dispatch : List Function) : Prop where
  keys_nodup : (dispatch.map (·.key)).Nodup
  -- getters are last
  split : ∃ own getters, dispatch = own ++ getters ∧ Tabulates decls own ∧
    (∀ f ∈ own, f.kind ≠ .getter) ∧ ∀ g ∈ getters, g.kind = .getter

theorem dispatches_nameOverloads {own getters : List Function} (h : Tabulates decls own)
    (hkinds : ∀ d ∈ decls, d.kind ≠ .getter) (hgetters : AddsGetters own getters) :
    Dispatches decls (nameOverloads (own ++ getters)) := by
  obtain ⟨rename, heq, hrename⟩ := nameOverloads_eq (own ++ getters)
  have hkeys (fs : List Function) : (fs.map rename).map (·.key) = fs.map (·.key) := by
    rw [List.map_map]
    exact List.map_congr_left fun f _ => (hrename f).key
  have hkind (f : Function) : (rename f).kind = f.kind := by rw [hrename f]
  constructor
  · rw [heq, hkeys]
    exact hgetters.keys_nodup h.keys_nodup
  · refine ⟨own.map rename, getters.map rename, by rw [heq, List.map_append], ⟨?_, ?_, ?_⟩, ?_, ?_⟩
    · rw [hkeys]
      exact h.keys_nodup
    · rw [hkeys, h.keys]
    · rw [List.forall_mem_map]
      exact fun f hf => (hrename f).gathers (h.gathers f hf)
    · rw [List.forall_mem_map]
      intro f hf
      obtain ⟨d, hd, hfd⟩ := (h.gathers f hf).first
      rw [hkind, hfd]
      exact hkinds d (List.mem_filter.mp (List.mem_of_mem_head? hd)).1
    · rw [List.forall_mem_map]
      exact fun g hg => (hkind g).trans (hgetters.kinds g hg)

theorem dispatches_flatten (c : ContractDecl) (chain : List ContractDecl)
    (hkinds : ∀ d ∈ chain.reverse.flatMap (·.functions), d.kind ≠ .getter) :
    Dispatches (chain.reverse.flatMap (·.functions)) (c.flatten chain).dispatch := by
  have htable := tabulates_foldl (chain.reverse.flatMap (·.functions))
  rw [ContractDecl.flatten]
  dsimp only
  split
  · obtain ⟨getters, heq, hgetters⟩ := addGetters_eq
      ((chain.reverse.flatMap (·.functions)).foldl mergeFunction [])
      (chain.reverse.flatMap (·.fields))
    rw [heq]
    exact dispatches_nameOverloads htable hkinds hgetters
  · have h := dispatches_nameOverloads htable hkinds (.nil _)
    rwa [List.append_nil] at h

-- Interfaces and libraries have no getters.
theorem kind_flatten {c : ContractDecl} {chain : List ContractDecl} (hkind : c.kind ≠ .contract)
    (hkinds : ∀ d ∈ chain.reverse.flatMap (·.functions), d.kind ≠ .getter) {f : Function}
    (hf : f ∈ (c.flatten chain).dispatch) : f.kind ≠ .getter := by
  rw [ContractDecl.flatten] at hf
  dsimp only at hf
  rw [if_neg hkind] at hf
  obtain ⟨rename, heq, hrename⟩ := nameOverloads_eq ((chain.reverse.flatMap (·.functions)).foldl mergeFunction [])
  rw [heq] at hf
  obtain ⟨entry, hentry, rfl⟩ := List.mem_map.mp hf
  obtain ⟨d, hd, hfirst⟩ := ((tabulates_foldl _).gathers entry hentry).first
  rw [hrename entry, hfirst]
  exact hkinds d (List.mem_filter.mp (List.mem_of_mem_head? hd)).1

-- Entries that share a name are told apart by the number of their parameters.
theorem name_nameOverloads {f other : Function} (hf : f ∈ nameOverloads table)
    (hother : other ∈ nameOverloads table) (hname : other.sourceName = f.sourceName)
    (hparams : other.params.length ≠ f.params.length) :
    f.name = Rust.Name.value f.sourceName ++ "_" ++ toString f.params.length := by
  obtain ⟨e, he, hfe⟩ := List.mem_map.mp hf
  obtain ⟨e', he', hfe'⟩ := List.mem_map.mp hother
  have hsource : f.sourceName = e.sourceName ∧ f.params = e.params := by
    rw [← hfe]
    split <;> exact ⟨rfl, rfl⟩
  have hsource' : other.sourceName = e'.sourceName ∧ other.params = e'.params := by
    rw [← hfe']
    split <;> exact ⟨rfl, rfl⟩
  have hmem : e ∈ table.filter (·.sourceName = e.sourceName) := by simp [he]
  have hmem' : e' ∈ table.filter (·.sourceName = e.sourceName) := by
    simp [he', ← hsource'.1, hname, hsource.1]
  have htwo : 1 < (table.filter (·.sourceName = e.sourceName)).length := by
    rcases hall : table.filter (·.sourceName = e.sourceName) with _ | ⟨x, _ | ⟨y, rest⟩⟩
    · simp [hall] at hmem
    · rw [hall, List.mem_singleton] at hmem hmem'
      exact absurd (by rw [hsource.2, hsource'.2, hmem, hmem']) hparams
    · rw [hall, List.length_cons, List.length_cons]
      omega
  rw [if_pos htwo] at hfe
  rw [hsource.1, hsource.2, ← hfe]

-- Where the entries of a table come from.

-- A property of entries that overriding keeps.
structure Kept (R : Function → Prop) : Prop where
  first : ∀ {f : Function}, R f → R { f with implementations := f.implementations.take 1 }
  overridden : ∀ {e f : Function}, R e → R f → e.key = f.key → R (overriddenBy e f)

namespace Kept

variable {R : Function → Prop}

theorem mergeFunction (h : Kept R) (htable : ∀ e ∈ table, R e) (hf : R f) : ∀ e ∈ mergeFunction table f, R e := by
  by_cases hkey : f.key ∈ table.map (·.key)
  · rw [mergeFunction_of_mem hkey, List.forall_mem_map]
    intro e he
    split
    · next hsame => exact h.overridden (htable e he) hf hsame
    · exact htable e he
  · rw [mergeFunction_of_notMem hkey]
    exact List.forall_mem_append.mpr ⟨htable, List.forall_mem_singleton.mpr (h.first hf)⟩

theorem foldl_mergeFunction (h : Kept R) {decls : List Function} (htable : ∀ e ∈ table, R e)
    (hdecls : ∀ d ∈ decls, R d) : ∀ e ∈ decls.foldl Program.mergeFunction table, R e := by
  induction decls generalizing table with
  | nil => exact htable
  | cons d decls ih =>
      obtain ⟨hd, hdecls⟩ := List.forall_mem_cons.mp hdecls
      exact ih (h.mergeFunction htable hd) hdecls

theorem addGetters {storage : List StorageField} (htable : ∀ e ∈ table, R e)
    (hgetters : ∀ field ∈ storage, R (getter field.toFieldDecl)) : ∀ e ∈ addGetters table storage, R e := by
  induction storage generalizing table with
  | nil => exact htable
  | cons field storage ih =>
      obtain ⟨hfield, hgetters⟩ := List.forall_mem_cons.mp hgetters
      rw [Program.addGetters, List.foldl_cons, ← Program.addGetters]
      refine ih ?_ hgetters
      split
      · exact List.forall_mem_append.mpr ⟨htable, List.forall_mem_singleton.mpr hfield⟩
      · exact htable

-- Each entry of the table of a class comes from declarations or from a field, before overloads get names of their own.
theorem dispatch (h : Kept R) {c : ContractDecl} {chain : List ContractDecl}
    (hdecls : ∀ k ∈ chain, ∀ d ∈ k.functions, R d) :
    ∀ f ∈ (c.flatten chain).dispatch, ∃ e, (R e ∨ ∃ k ∈ chain, ∃ field ∈ k.fields, e = getter field.toFieldDecl) ∧
      (f = e ∨ f = { e with name := Rust.Name.value e.sourceName ++ "_" ++ toString e.params.length }) := by
  have hown : ∀ e ∈ (chain.reverse.flatMap (·.functions)).foldl Program.mergeFunction [], R e := by
    refine h.foldl_mergeFunction (by simp) fun d hd => ?_
    obtain ⟨k, hk, hd⟩ := List.mem_flatMap.mp hd
    exact hdecls k (List.mem_reverse.mp hk) d hd
  have hrenamed {R' : Function → Prop} {table : List Function} (htable : ∀ e ∈ table, R' e) :
      ∀ f ∈ nameOverloads table, ∃ e, R' e ∧
        (f = e ∨ f = { e with name := Rust.Name.value e.sourceName ++ "_" ++ toString e.params.length }) := by
    rw [nameOverloads, List.forall_mem_map]
    intro e he
    refine ⟨e, htable e he, ?_⟩
    split
    · exact .inr rfl
    · exact .inl rfl
  rw [ContractDecl.flatten]
  dsimp only
  split
  · refine hrenamed (addGetters (fun e he => .inl (hown e he)) fun field hfield => .inr ?_)
    obtain ⟨k, hk, hfield⟩ := List.mem_flatMap.mp hfield
    exact ⟨k, List.mem_reverse.mp hk, field, hfield, rfl⟩
  · exact hrenamed fun e he => .inl (hown e he)

end Kept

-- A function whose implementations have a property, and as many parameters as it.
def Function.Has (Q : Implementation → Prop) (f : Function) : Prop :=
  ∀ i ∈ f.implementations, Q i ∧ i.params.length = f.params.length

variable {Q : Implementation → Prop}

theorem kept_has : Kept (Function.Has Q) where
  first hf i hi := hf i (List.mem_of_mem_take hi)
  overridden {e f} he hf hsame := by
    have hlength : e.params.length = f.params.length := (Signature.key_eq_iff.mp hsame).2
    intro i hi
    rcases List.mem_append.mp hi with hi | hi
    · exact hf i (List.mem_of_mem_take hi)
    · exact ⟨(he i hi).1, (he i hi).2.trans hlength⟩

theorem has_dispatch {c : ContractDecl} {chain : List ContractDecl}
    (hdecls : ∀ k ∈ chain, ∀ d ∈ k.functions, d.Has Q) (hgetter : ∀ field, (getter field).Has Q) :
    ∀ f ∈ (c.flatten chain).dispatch, f.Has Q := by
  intro f hf
  obtain ⟨e, he, hname⟩ := kept_has.dispatch hdecls f hf
  have hhas : e.Has Q := he.elim id fun ⟨_, _, field, _, heq⟩ => heq ▸ hgetter field.toFieldDecl
  rcases hname with rfl | rfl <;> exact hhas

-- Implementations of modifiers.

theorem implementations_mergeModifier (htable : ∀ e ∈ table, ∀ i ∈ e.implementations, Q i)
    (hf : ∀ i ∈ f.implementations, Q i) : ∀ e ∈ mergeModifier table f, ∀ i ∈ e.implementations, Q i := by
  unfold mergeModifier
  split
  · rw [List.forall_mem_map]
    intro e he
    split
    · exact List.forall_mem_append.mpr ⟨fun i hi => hf i (List.mem_of_mem_take hi), htable e he⟩
    · exact htable e he
  · refine List.forall_mem_append.mpr ⟨htable, List.forall_mem_singleton.mpr fun i hi => ?_⟩
    exact hf i (List.mem_of_mem_take hi)

theorem implementations_modifierTable {c : ContractDecl} {chain : List ContractDecl}
    (hdecls : ∀ k ∈ chain, ∀ d ∈ k.modifiers, ∀ i ∈ d.implementations, Q i) :
    ∀ m ∈ (c.flatten chain).modifierTable, ∀ i ∈ m.implementations, Q i := by
  have hfold (decls table : List Function) (htable : ∀ e ∈ table, ∀ i ∈ e.implementations, Q i)
      (hdecls : ∀ d ∈ decls, ∀ i ∈ d.implementations, Q i) :
      ∀ e ∈ decls.foldl mergeModifier table, ∀ i ∈ e.implementations, Q i := by
    induction decls generalizing table with
    | nil => exact htable
    | cons d decls ih =>
        obtain ⟨hd, hdecls⟩ := List.forall_mem_cons.mp hdecls
        exact ih _ (implementations_mergeModifier htable hd) hdecls
  refine hfold _ _ (by simp) fun d hd => ?_
  obtain ⟨k, hk, hd⟩ := List.mem_flatMap.mp hd
  exact hdecls k (List.mem_reverse.mp hk) d hd

end RustContracts.Program
