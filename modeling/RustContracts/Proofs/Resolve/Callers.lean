import Mathlib.Logic.Function.Iterate
import Mathlib.Logic.Relation
import Mathlib.Data.List.Perm.Basic
import RustContracts.Proofs.Resolve.Package

-- Which functions of a contract need to know their caller: those from which calls lead to one that reads it.
namespace RustContracts.Program

open Relation (ReflTransGen)

variable {c c' : Contract} {f g : Function} {fs : List Function} {keys : List String} {key : String}

-- The graph of calls.

-- What runs when a function of the table is called: its implementations, and those of the modifiers on them.
def Contract.codeOf (c : Contract) (f : Function) : List Implementation := f.implementations.flatMap c.guarded

def Contract.Reads (c : Contract) (f : Function) : Prop := ∃ code ∈ c.codeOf f, code.usesCaller = true

def Contract.Calls (c : Contract) (f g : Function) : Prop :=
  g ∈ c.dispatch ∧ ∃ code ∈ c.codeOf f, g.key ∈ code.calls

def Contract.ReachesCaller (c : Contract) (f : Function) : Prop := ∃ g, ReflTransGen c.Calls f g ∧ c.Reads g

theorem readsCaller_iff : c.readsCaller f.implementations = true ↔ c.Reads f := List.any_eq_true

theorem callsAny_iff :
    c.callsAny f.implementations keys = true ↔ ∃ code ∈ c.codeOf f, ∃ key ∈ code.calls, key ∈ keys := by
  simp only [Contract.callsAny, Contract.codeOf, List.any_eq_true, List.contains_iff_mem]

-- One walk over the table.

def Contract.addCaller (c : Contract) (keys : List String) (f : Function) : List String :=
  if !keys.contains f.key && c.callsAny f.implementations keys then keys ++ [f.key] else keys

theorem addCallers_eq (c : Contract) (keys : List String) :
    c.addCallers keys = c.dispatch.foldl c.addCaller keys := rfl

theorem addCaller_cases (c : Contract) (keys : List String) (f : Function) :
    (f.key ∉ keys ∧ c.callsAny f.implementations keys = true ∧ c.addCaller keys f = keys ++ [f.key]) ∨
      ((c.callsAny f.implementations keys = true → f.key ∈ keys) ∧ c.addCaller keys f = keys) := by
  by_cases hadd : !keys.contains f.key && c.callsAny f.implementations keys
  · rw [Contract.addCaller, if_pos hadd]
    obtain ⟨hnew, hcalls⟩ := Bool.and_eq_true_iff.mp hadd
    exact .inl ⟨by simpa using hnew, hcalls, rfl⟩
  · rw [Contract.addCaller, if_neg hadd]
    refine .inr ⟨fun hcalls => ?_, rfl⟩
    by_contra hmem
    simp [hcalls, hmem] at hadd

theorem prefix_walk (c : Contract) (fs : List Function) (keys : List String) :
    keys <+: fs.foldl c.addCaller keys := by
  induction fs generalizing keys with
  | nil => exact List.prefix_rfl
  | cons f fs ih =>
      rw [List.foldl_cons]
      obtain ⟨-, -, heq⟩ | ⟨-, heq⟩ := addCaller_cases c keys f
      · rw [heq]
        exact (List.prefix_append keys [f.key]).trans (ih _)
      · rw [heq]
        exact ih keys

theorem nodup_walk (c : Contract) (fs : List Function) (hkeys : keys.Nodup) : (fs.foldl c.addCaller keys).Nodup := by
  induction fs generalizing keys with
  | nil => exact hkeys
  | cons f fs ih =>
      rw [List.foldl_cons]
      obtain ⟨hnew, -, heq⟩ | ⟨-, heq⟩ := addCaller_cases c keys f
      · rw [heq]
        exact ih (List.concat_eq_append ▸ hkeys.concat hnew)
      · rw [heq]
        exact ih hkeys

-- What a walk adds: the keys of functions that call one that is known already.
theorem mem_walk {P : String → Prop}
    (hadd : ∀ f ∈ fs, (∃ code ∈ c.codeOf f, ∃ key ∈ code.calls, P key) → P f.key) (hkeys : ∀ key ∈ keys, P key) :
    ∀ key ∈ fs.foldl c.addCaller keys, P key := by
  induction fs generalizing keys with
  | nil => exact hkeys
  | cons f fs ih =>
      obtain ⟨hf, hfs⟩ := List.forall_mem_cons.mp hadd
      rw [List.foldl_cons]
      obtain ⟨-, hcalls, heq⟩ | ⟨-, heq⟩ := addCaller_cases c keys f
      · rw [heq]
        obtain ⟨code, hcode, key, hkey, hmem⟩ := callsAny_iff.mp hcalls
        refine ih hfs (List.forall_mem_append.mpr ⟨hkeys, List.forall_mem_singleton.mpr ?_⟩)
        exact hf ⟨code, hcode, key, hkey, hkeys key hmem⟩
      · rw [heq]
        exact ih hfs hkeys

-- A walk that adds nothing has found no caller that is missing.
theorem closed_of_walk (h : fs.foldl c.addCaller keys = keys) :
    ∀ f ∈ fs, c.callsAny f.implementations keys = true → f.key ∈ keys := by
  induction fs with
  | nil => simp
  | cons f fs ih =>
      rw [List.foldl_cons] at h
      obtain ⟨-, -, heq⟩ | ⟨hf, heq⟩ := addCaller_cases c keys f
      · have hlonger := (prefix_walk c fs (keys ++ [f.key])).length_le
        rw [← heq, h, heq, List.length_append, List.length_singleton] at hlonger
        omega
      · rw [heq] at h
        exact List.forall_mem_cons.mpr ⟨hf, ih h⟩

-- The walks come to an end.

-- Keys that can be found: each once, and each of a function of the table.
structure Contract.Found (c : Contract) (keys : List String) : Prop where
  nodup : keys.Nodup
  subset : keys ⊆ c.dispatch.map (·.key)

theorem Contract.Found.length_le (h : c.Found keys) : keys.length ≤ c.dispatch.length := by
  have hle := (List.subperm_of_subset h.nodup h.subset).length_le
  rwa [List.length_map] at hle

theorem Contract.Found.addCallers (h : c.Found keys) : c.Found (c.addCallers keys) := by
  rw [addCallers_eq]
  exact ⟨nodup_walk c c.dispatch h.nodup, mem_walk (fun f hf _ => List.mem_map_of_mem hf) h.subset⟩

theorem addCallers_eq_of_length (h : (c.addCallers keys).length = keys.length) : c.addCallers keys = keys :=
  ((prefix_walk c c.dispatch keys).eq_of_length h.symm).symm

-- The rounds that are left are enough for the keys that are not found yet.
theorem closeCallers_ends {rounds : Nat} (hfound : c.Found keys) (hrounds : c.dispatch.length ≤ rounds + keys.length) :
    ∃ n ≤ rounds, c.closeCallers rounds keys = c.addCallers^[n] keys ∧
      c.addCallers (c.closeCallers rounds keys) = c.closeCallers rounds keys := by
  induction rounds generalizing keys with
  | zero =>
      refine ⟨0, Nat.le_refl 0, rfl, addCallers_eq_of_length ?_⟩
      have hmore : (c.addCallers keys).length ≤ c.dispatch.length := hfound.addCallers.length_le
      have hprefix : keys.length ≤ (c.addCallers keys).length := (prefix_walk c c.dispatch keys).length_le
      rw [Contract.closeCallers]
      omega
  | succ rounds ih =>
      rw [Contract.closeCallers]
      by_cases hsame : (c.addCallers keys).length = keys.length
      · rw [if_pos hsame]
        exact ⟨0, by omega, rfl, addCallers_eq_of_length hsame⟩
      · rw [if_neg hsame]
        have hprefix : keys.length ≤ (c.addCallers keys).length := (prefix_walk c c.dispatch keys).length_le
        obtain ⟨n, hn, heq, hends⟩ := ih hfound.addCallers (by omega)
        exact ⟨n + 1, by omega, heq, hends⟩

-- What is found.

def Contract.directCallers (c : Contract) : List String :=
  (c.dispatch.filter fun f => c.readsCaller f.implementations).map (·.key)

theorem mem_directCallers : key ∈ c.directCallers ↔ ∃ f ∈ c.dispatch, c.Reads f ∧ f.key = key := by
  simp only [Contract.directCallers, List.mem_map, List.mem_filter, readsCaller_iff, and_assoc]

theorem found_directCallers (hkeys : (c.dispatch.map (·.key)).Nodup) : c.Found c.directCallers where
  nodup := hkeys.sublist (List.filter_sublist.map _)
  subset := (List.filter_sublist.map _).subset

-- Walks that end have found exactly the functions that reach the caller.
theorem mem_closed_iff {n : Nat} (heq : keys = c.addCallers^[n] c.directCallers) (hends : c.addCallers keys = keys) :
    key ∈ keys ↔ ∃ f ∈ c.dispatch, f.key = key ∧ c.ReachesCaller f := by
  constructor
  · have hwalks (n : Nat) : ∀ key ∈ c.addCallers^[n] c.directCallers,
        ∃ f ∈ c.dispatch, f.key = key ∧ c.ReachesCaller f := by
      induction n with
      | zero =>
          intro key hkey
          obtain ⟨f, hf, hreads, rfl⟩ := mem_directCallers.mp hkey
          exact ⟨f, hf, rfl, f, .refl, hreads⟩
      | succ n ih =>
          rw [Function.iterate_succ_apply', addCallers_eq]
          refine mem_walk (fun f hf hcalls => ⟨f, hf, rfl, ?_⟩) ih
          obtain ⟨code, hcode, key, hkey, g, hg, rfl, last, hpath, hreads⟩ := hcalls
          exact ⟨last, .head ⟨hg, code, hcode, hkey⟩ hpath, hreads⟩
    exact heq ▸ hwalks n key
  · rintro ⟨f, hf, rfl, last, hpath, hreads⟩
    have hdirect : c.directCallers ⊆ keys := by
      rw [heq]
      clear heq hends
      induction n with
      | zero => exact List.Subset.refl _
      | succ n ih =>
          rw [Function.iterate_succ_apply']
          exact List.Subset.trans ih (prefix_walk c c.dispatch _).subset
    induction hpath using ReflTransGen.head_induction_on with
    | refl => exact hdirect (mem_directCallers.mpr ⟨last, hf, hreads, rfl⟩)
    | head hcall _ ih =>
        obtain ⟨hg, code, hcode, hkey⟩ := hcall
        exact closed_of_walk hends _ hf (callsAny_iff.mpr ⟨code, hcode, _, hkey, ih hg⟩)

-- The callers that a contract notes: after at most as many walks as it has functions, another walk adds nothing.
structure Contract.KnowsCallers (c : Contract) : Prop where
  ends : ∃ n ≤ c.dispatch.length, c.callerUsers = c.addCallers^[n] c.directCallers
  closed : c.addCallers c.callerUsers = c.callerUsers

theorem knowsCallers_findCallers (hkeys : (c.dispatch.map (·.key)).Nodup) : c.findCallers.KnowsCallers := by
  obtain ⟨n, hn, heq, hends⟩ := closeCallers_ends (found_directCallers hkeys) (Nat.le_add_right _ _)
  exact ⟨⟨n, hn, heq⟩, hends⟩

theorem Contract.KnowsCallers.mem_iff (h : c.KnowsCallers) :
    key ∈ c.callerUsers ↔ ∃ f ∈ c.dispatch, f.key = key ∧ c.ReachesCaller f := by
  obtain ⟨n, -, heq⟩ := h.ends
  exact mem_closed_iff heq h.closed

theorem Contract.KnowsCallers.needsCaller_iff (h : c.KnowsCallers) (hkeys : (c.dispatch.map (·.key)).Nodup)
    (hf : f ∈ c.dispatch) : c.needsCaller f.toSignature = true ↔ c.ReachesCaller f := by
  rw [Contract.needsCaller, List.contains_iff_mem, h.mem_iff]
  constructor
  · rintro ⟨g, hg, hkey, hreaches⟩
    rwa [List.inj_on_of_nodup_map hkeys hg hf hkey] at hreaches
  · exact fun hreaches => ⟨f, hf, rfl, hreaches⟩

-- The order of functions and of calls.

def Implementation.Reorders (i j : Implementation) : Prop := i.calls.Perm j.calls ∧ j = { i with calls := j.calls }

def Function.Reorders (f g : Function) : Prop :=
  List.Forall₂ Implementation.Reorders f.implementations g.implementations ∧
    g = { f with implementations := g.implementations }

-- The same functions and modifiers, the functions in another order, and the calls of each code in another order.
structure Contract.Reorders (c c' : Contract) : Prop where
  dispatch : ∃ fs, c.dispatch.Perm fs ∧ List.Forall₂ Function.Reorders fs c'.dispatch
  modifierTable : List.Forall₂ Function.Reorders c.modifierTable c'.modifierTable

theorem Implementation.Reorders.symm {i j : Implementation} (h : i.Reorders j) : j.Reorders i :=
  ⟨h.1.symm, by rw [h.2]⟩

theorem Function.Reorders.symm (h : f.Reorders g) : g.Reorders f :=
  ⟨(h.1.imp fun _ _ => Implementation.Reorders.symm).flip, by rw [h.2]⟩

theorem Contract.Reorders.symm (h : c.Reorders c') : c'.Reorders c := by
  obtain ⟨fs, hperm, hfs⟩ := h.dispatch
  obtain ⟨gs, hgs, hperm'⟩ := List.perm_comp_forall₂ hperm hfs
  exact ⟨⟨gs, hperm'.symm, (hgs.imp fun _ _ => Function.Reorders.symm).flip⟩,
    (h.modifierTable.imp fun _ _ => Function.Reorders.symm).flip⟩

theorem Function.Reorders.key_eq (h : f.Reorders g) : g.key = f.key := by
  rw [h.2]

theorem Contract.Reorders.exists_mem (h : c.Reorders c') (hf : f ∈ c.dispatch) :
    ∃ f' ∈ c'.dispatch, f.Reorders f' := by
  obtain ⟨fs, hperm, hfs⟩ := h.dispatch
  obtain ⟨f', hf', hreorders⟩ := forall₂_exists hfs (hperm.subset hf)
  exact ⟨f', hf', hreorders⟩

-- Modifiers are looked up by name, which stays.
theorem find?_reorders {p : Function → Bool} {fs gs : List Function} (h : List.Forall₂ Function.Reorders fs gs)
    (hp : ∀ f g : Function, f.Reorders g → p g = p f) (hf : fs.find? p = some f) :
    ∃ g, gs.find? p = some g ∧ f.Reorders g := by
  induction h with
  | nil => cases hf
  | @cons a b as bs hab hrest ih =>
      rw [List.find?_cons] at hf ⊢
      rw [hp a b hab]
      cases ha : p a with
      | true =>
          rw [ha] at hf
          obtain rfl := Option.some.inj hf
          exact ⟨b, rfl, hab⟩
      | false =>
          rw [ha] at hf
          exact ih hf

theorem Contract.Reorders.exists_modifier (h : c.Reorders c') {name : String} (hf : c.modifier? name = some f) :
    ∃ g, c'.modifier? name = some g ∧ f.Reorders g :=
  find?_reorders h.modifierTable (fun f g hfg => by rw [hfg.2]) hf

theorem mem_guarded {impl code : Implementation} : code ∈ c.guarded impl ↔
    code = impl ∨ ∃ m ∈ impl.modifiers, ∃ guard, c.modifier? m.name = some guard ∧ code ∈ guard.implementations := by
  rw [Contract.guarded, List.mem_cons, List.mem_flatMap]
  refine or_congr Iff.rfl (exists_congr fun m => and_congr Iff.rfl ?_)
  cases c.modifier? m.name with
  | none => simp
  | some guard => simp

theorem Contract.Reorders.exists_code (h : c.Reorders c') (hf : f.Reorders g) {code : Implementation}
    (hcode : code ∈ c.codeOf f) : ∃ code' ∈ c'.codeOf g, code.Reorders code' := by
  obtain ⟨impl, himpl, hcode⟩ := List.mem_flatMap.mp hcode
  obtain ⟨impl', himpl', hreorders⟩ := forall₂_exists hf.1 himpl
  rcases mem_guarded.mp hcode with rfl | ⟨m, hm, guard, hguard, hcode⟩
  · exact ⟨impl', List.mem_flatMap.mpr ⟨impl', himpl', mem_guarded.mpr (.inl rfl)⟩, hreorders⟩
  · obtain ⟨guard', hguard', hguards⟩ := h.exists_modifier hguard
    obtain ⟨code', hcode', hcodes⟩ := forall₂_exists hguards.1 hcode
    have hm' : m ∈ impl'.modifiers := by rwa [hreorders.2]
    exact ⟨code', List.mem_flatMap.mpr ⟨impl', himpl', mem_guarded.mpr (.inr ⟨m, hm', guard', hguard', hcode'⟩)⟩, hcodes⟩

theorem Contract.Reorders.reads (h : c.Reorders c') (hf : f.Reorders g) (hreads : c.Reads f) : c'.Reads g := by
  obtain ⟨code, hcode, huses⟩ := hreads
  obtain ⟨code', hcode', hcodes⟩ := h.exists_code hf hcode
  exact ⟨code', hcode', by rw [hcodes.2, huses]⟩

theorem Contract.Reorders.reachesCaller (h : c.Reorders c') (hf : f.Reorders g) (hreaches : c.ReachesCaller f) :
    c'.ReachesCaller g := by
  obtain ⟨last, hpath, hreads⟩ := hreaches
  induction hpath using ReflTransGen.head_induction_on generalizing g with
  | refl => exact ⟨g, .refl, h.reads hf hreads⟩
  | head hcall _ ih =>
      obtain ⟨hnext, code, hcode, hkey⟩ := hcall
      obtain ⟨next', hnext', hreorders⟩ := h.exists_mem hnext
      obtain ⟨code', hcode', hcodes⟩ := h.exists_code hf hcode
      obtain ⟨last', hpath', hreads'⟩ := ih hreorders
      exact ⟨last', .head ⟨hnext', code', hcode', hreorders.key_eq ▸ hcodes.1.subset hkey⟩ hpath', hreads'⟩

theorem Contract.Reorders.keys_nodup (h : c.Reorders c') (hkeys : (c.dispatch.map (·.key)).Nodup) :
    (c'.dispatch.map (·.key)).Nodup := by
  obtain ⟨fs, hperm, hfs⟩ := h.dispatch
  have hsame : c'.dispatch.map (·.key) = fs.map (·.key) := by
    clear hperm
    generalize c'.dispatch = gs at hfs
    induction hfs with
    | nil => rfl
    | cons hfg _ ih => rw [List.map_cons, List.map_cons, ih, hfg.key_eq]
  rw [hsame]
  exact (hperm.map _).nodup_iff.mp hkeys

theorem Contract.Reorders.mem_of_mem (h : c.Reorders c')
    (hreaches : ∃ f ∈ c.dispatch, f.key = key ∧ c.ReachesCaller f) :
    ∃ f ∈ c'.dispatch, f.key = key ∧ c'.ReachesCaller f := by
  obtain ⟨f, hf, rfl, hreaches⟩ := hreaches
  obtain ⟨g, hg, hreorders⟩ := h.exists_mem hf
  exact ⟨g, hg, hreorders.key_eq, h.reachesCaller hreorders hreaches⟩

-- Computing the callers anew, from the tables in another order, finds the same ones.
theorem Contract.KnowsCallers.mem_findCallers_iff (hknows : c.KnowsCallers) (hkeys : (c.dispatch.map (·.key)).Nodup)
    (h : c.Reorders c') : key ∈ c'.findCallers.callerUsers ↔ key ∈ c.callerUsers := by
  have hother := knowsCallers_findCallers (h.keys_nodup hkeys)
  rw [hother.mem_iff, hknows.mem_iff]
  exact ⟨h.symm.mem_of_mem, h.mem_of_mem⟩

end RustContracts.Program

namespace RustContracts.Resolve

open Program

variable {name : String} {unit : Solidity.SourceUnit} {p : Package} {c : Contract}

theorem package_knowsCallers (hp : package name unit = .ok p) (hc : c ∈ p.contracts) : c.KnowsCallers := by
  obtain ⟨hc, hkind⟩ := List.mem_filter.mp hc
  have hkeys := (dispatch_gathers_declarations hp hc).2.2.keys_nodup
  obtain ⟨o, -, hclasses⟩ := package_classes hp
  obtain ⟨k, -, rfl⟩ := List.mem_map.mp (hclasses ▸ hc)
  rw [finished_dispatch] at hkeys
  have hflat : finished o k = (k.flatten (o.chainOf k)).findCallers := if_pos (by
    rw [finished_toContractDecl] at hkind
    exact of_decide_eq_true hkind)
  rw [hflat]
  exact knowsCallers_findCallers hkeys

-- A function of a contract needs its caller exactly when calls lead from it to a function that reads the caller. The
-- search for these functions ends after at most as many walks over the table as it has functions, and the order of
-- the table and of the calls in it has no say in what is found.
theorem needsCaller_iff_reachesCaller (hp : package name unit = .ok p) (hc : c ∈ p.contracts) :
    (∀ f ∈ c.dispatch, c.needsCaller f.toSignature = true ↔ c.ReachesCaller f) ∧
    ((∃ n ≤ c.dispatch.length, c.callerUsers = c.addCallers^[n] c.directCallers) ∧
      c.addCallers c.callerUsers = c.callerUsers) ∧
    ∀ c', c.Reorders c' → ∀ key, key ∈ c'.findCallers.callerUsers ↔ key ∈ c.callerUsers := by
  have hkeys := (dispatch_gathers_declarations hp (List.mem_filter.mp hc).1).2.2.keys_nodup
  have hknows := package_knowsCallers hp hc
  refine ⟨fun f hf => hknows.needsCaller_iff hkeys hf, ⟨hknows.ends, hknows.closed⟩, fun c' hreorders key => ?_⟩
  exact hknows.mem_findCallers_iff hkeys hreorders

namespace Ring

-- Two functions that call each other, one of which also calls a function behind a modifier that reads the caller.

def statement (primary : String) (suffixes : List Solidity.Suffix) : Solidity.Statement :=
  .expr default ⟨default, default, ⟨⟨.term default (.ident primary) suffixes, []⟩, none⟩, none⟩

def callStatement (callee : String) : Solidity.Statement := statement callee [.call default []]

def functionWith (name : String) (guards callees : List String) : Solidity.ContractPart :=
  .function default
    { start := default, stop := default, kind := "function", name := name, params := []
      attrs := guards.map fun m => .modifier default ⟨default, m, false, []⟩, returns := []
      body := some ⟨default, default, callees.map callStatement⟩ }

def ring : Solidity.SourceUnit :=
  ⟨default, [
    plainContract "R" false [] [
      .modifier default
        ⟨default, "m", [], [], some ⟨default, default, [statement "msg" [.member default "sender"], .placeholder default]⟩⟩,
      functionWith "a" [] ["b"],
      functionWith "b" [] ["a", "c"],
      functionWith "c" ["m"] [],
      functionWith "d" [] []]]⟩

-- The package that it becomes.

def implWith (guards callees : List String) : Implementation :=
  { owner := "R", modifiers := guards.map fun m => { name := m, start := default }
    body := some ⟨default, callees.map fun f => .expr default (.call default f [] false "R" "" (.tuple [])), false⟩
    implemented := true, calls := callees.map fun f => functionKey f 0, start := default }

def entry (name : String) (guards callees : List String) : Function :=
  { name := name, sourceName := name, kind := .function, implementations := [implWith guards callees] }

def functions : List Function := [entry "a" [] ["b"], entry "b" [] ["a", "c"], entry "c" ["m"] [], entry "d" [] []]

def guard : Function :=
  { name := "m", sourceName := "m", kind := .modifier, visibility := .isInternal
    implementations := [{ implWith [] [] with
      body := some ⟨default, [.expr default (.env default .sender), .placeholder default], false⟩, usesCaller := true }] }

def ringContract : Contract :=
  { name := "R", kind := .contract, isAbstract := false, bases := [], start := default, chain := ["R"]
    functions := functions, modifiers := [guard], storage := [], dispatch := functions, modifierTable := [guard]
    callerUsers := ["c/0", "b/0", "a/0"] }

theorem package_ring : package "sample" ring = .ok { name := "sample", classes := [ringContract] } := by cbv

-- The table from the end, with the calls of each function from the end.

def backward (f : Function) : Function :=
  { f with implementations := f.implementations.map fun i => { i with calls := i.calls.reverse } }

def ringBackward : Contract :=
  { ringContract with
    dispatch := functions.reverse.map backward, modifierTable := ringContract.modifierTable.map backward }

theorem reorders_backward (f : Function) : f.Reorders (backward f) := by
  refine ⟨List.forall₂_map_right_iff.mpr (List.forall₂_same.mpr fun i _ => ?_), rfl⟩
  exact ⟨(List.reverse_perm i.calls).symm, rfl⟩

theorem reorders_ringBackward : ringContract.Reorders ringBackward where
  dispatch := ⟨functions.reverse, (List.reverse_perm functions).symm,
    List.forall₂_map_right_iff.mpr (List.forall₂_same.mpr fun f _ => reorders_backward f)⟩
  modifierTable := List.forall₂_map_right_iff.mpr (List.forall₂_same.mpr fun f _ => reorders_backward f)

-- Everyone in the ring needs the caller that the function behind the modifier asks for.
theorem ring_reachesCaller : ∃ p, package "sample" ring = .ok p ∧ ringContract ∈ p.contracts ∧
    ringContract.dispatch.map (fun f => (f.key, ringContract.needsCaller f.toSignature)) =
      [("a/0", true), ("b/0", true), ("c/0", true), ("d/0", false)] ∧
    (∀ f ∈ ringContract.dispatch, ringContract.needsCaller f.toSignature = true ↔ ringContract.ReachesCaller f) ∧
    ((∃ n ≤ 4, ringContract.callerUsers = ringContract.addCallers^[n] ["c/0"]) ∧
      ringContract.addCallers ringContract.callerUsers = ringContract.callerUsers) ∧
    ringBackward.findCallers.callerUsers = ["c/0", "b/0", "a/0"] ∧
    ∀ key, key ∈ ringBackward.findCallers.callerUsers ↔ key ∈ ringContract.callerUsers := by
  have hc : ringContract ∈ Package.contracts { name := "sample", classes := [ringContract] } := List.mem_singleton.mpr rfl
  obtain ⟨hneeds, hends, horder⟩ := needsCaller_iff_reachesCaller package_ring hc
  exact ⟨_, package_ring, hc, by decide, hneeds, hends, by decide, horder _ reorders_ringBackward⟩

end Ring

end RustContracts.Resolve
