import Mathlib
import RustContracts.Proofs.Inheritance.Order

-- The search for the ancestors of a class: it puts them bases first, ends by itself, and fails exactly when it
-- meets a class that is not registered or one that it came from.
namespace RustContracts.Inheritance.Graph

open Relation

variable {g : Graph}

-- Classes of which each is registered and stands behind its bases, after those that are `seen`.
def BasesFirst (g : Graph) : List String → List String → Prop
  | _, [] => True
  | seen, name :: rest =>
      g.has name = true ∧ (∀ base, g.Extends name base → base ∈ seen) ∧
        BasesFirst g (name :: seen) rest

theorem basesFirst_concat {seen done : List String} {name : String} (h : g.BasesFirst seen done)
    (hn : g.has name = true) (hb : ∀ base, g.Extends name base → base ∈ seen ∨ base ∈ done) :
    g.BasesFirst seen (done ++ [name]) := by
  induction done generalizing seen with
  | nil => exact ⟨hn, fun base he => (hb base he).resolve_right (by simp), trivial⟩
  | cons first done ih =>
      obtain ⟨hfirst, hbases, hrest⟩ := h
      refine ⟨hfirst, hbases, ih hrest ?_⟩
      intro base he
      cases hb base he with
      | inl hseen => exact .inl (List.mem_cons_of_mem _ hseen)
      | inr hdone =>
          cases List.mem_cons.mp hdone with
          | inl heq => exact .inl (heq ▸ List.mem_cons_self)
          | inr hmem => exact .inr hmem

-- What a search from some names adds to the classes that are done.
structure Visited (g : Graph) (done names after : List String) : Prop where
  kept : done ⊆ after
  found : names ⊆ after
  reached : ∀ k ∈ after, k ∈ done ∨ ∃ name ∈ names, g.Reaches name k
  basesFirst : g.BasesFirst [] after

theorem visit_eq_ok_cases {fuel : Nat} {path done after : List String} {name : String}
    (h : g.visit fuel path done name = .ok after) :
    ∃ less, fuel = less + 1 ∧
      ((name ∈ done ∧ after = done) ∨
        (g.has name = true ∧ ∃ mid, (g.bases name).foldlM (g.visit less (path ++ [name])) done = .ok mid ∧
          after = mid ++ [name])) := by
  cases fuel with
  | zero => cases h
  | succ less =>
      refine ⟨less, rfl, ?_⟩
      rw [visit] at h
      split at h
      · rename_i hdone
        exact .inl ⟨by simpa using hdone, by simpa using h.symm⟩
      · split at h
        · cases h
        · split at h
          · cases h
          · rename_i hhas
            cases hm : (g.bases name).foldlM (g.visit less (path ++ [name])) done with
            | error e => rw [hm] at h; cases h
            | ok mid =>
                rw [hm] at h
                exact .inr ⟨by simpa using hhas, mid, rfl, by simpa [bind, Except.bind, pure, Except.pure] using h.symm⟩

theorem visited_nil {done : List String} (hd : g.BasesFirst [] done) : g.Visited done [] done :=
  ⟨List.Subset.refl _, List.nil_subset _, fun _ hk => .inl hk, hd⟩

theorem Visited.trans {done mid after names more : List String} (h : g.Visited done names mid)
    (h' : g.Visited mid more after) : g.Visited done (names ++ more) after where
  kept := List.Subset.trans h.kept h'.kept
  found := List.append_subset.mpr ⟨List.Subset.trans h.found h'.kept, h'.found⟩
  reached := by
    intro k hk
    cases h'.reached k hk with
    | inl hmid =>
        cases h.reached k hmid with
        | inl hdone => exact .inl hdone
        | inr hname =>
            obtain ⟨name, hn, hr⟩ := hname
            exact .inr ⟨name, List.mem_append_left _ hn, hr⟩
    | inr hname =>
        obtain ⟨name, hn, hr⟩ := hname
        exact .inr ⟨name, List.mem_append_right _ hn, hr⟩
  basesFirst := h'.basesFirst

theorem visited_foldlM {visitOne : List String → String → Except OrderError (List String)}
    (hone : ∀ done after name, g.BasesFirst [] done → visitOne done name = .ok after →
      g.Visited done [name] after)
    {names done after : List String} (hd : g.BasesFirst [] done)
    (h : names.foldlM visitOne done = .ok after) : g.Visited done names after := by
  induction names generalizing done with
  | nil =>
      obtain rfl : done = after := by simpa [pure, Except.pure] using h
      exact visited_nil hd
  | cons name names ih =>
      rw [List.foldlM_cons] at h
      cases hv : visitOne done name with
      | error e => rw [hv] at h; cases h
      | ok mid =>
          rw [hv] at h
          have hfirst := hone done mid name hd hv
          exact hfirst.trans (ih hfirst.basesFirst h)

-- One class: its bases are searched first, so it can be put behind them.
theorem visit_visited {fuel : Nat} {path done after : List String} {name : String}
    (hd : g.BasesFirst [] done) (h : g.visit fuel path done name = .ok after) :
    g.Visited done [name] after := by
  induction fuel generalizing path done after name with
  | zero => cases h
  | succ fuel ih =>
      obtain ⟨less, heq, hcases⟩ := visit_eq_ok_cases h
      obtain rfl : fuel = less := by omega
      obtain ⟨hmem, rfl⟩ | ⟨hhas, mid, hfold, rfl⟩ := hcases
      · exact ⟨List.Subset.refl _, by simpa using hmem, fun k hk => .inl hk, hd⟩
      · have hv : g.Visited done (g.bases name) mid :=
          visited_foldlM (fun done after base hd hb => ih hd hb) hd hfold
        refine ⟨List.Subset.trans hv.kept (List.subset_append_left _ _), by simp, ?_, ?_⟩
        · intro k hk
          cases List.mem_append.mp hk with
          | inl hmid =>
              cases hv.reached k hmid with
              | inl hdone => exact .inl hdone
              | inr hbase =>
                  obtain ⟨base, hb, hr⟩ := hbase
                  exact .inr ⟨name, by simp, ReflTransGen.head hb hr⟩
          | inr hself =>
              obtain rfl := List.mem_singleton.mp hself
              exact .inr ⟨k, by simp, ReflTransGen.refl⟩
        · exact basesFirst_concat hv.basesFirst hhas fun base hb => .inr (hv.found hb)

-- Classes in that order lead to registered classes alone, and never back.
theorem BasesFirst.founded {seen names : List String} (h : g.BasesFirst seen names)
    (hseen : ∀ k ∈ seen, g.Founded k) : ∀ k ∈ names, g.Founded k := by
  induction names generalizing seen with
  | nil => simp
  | cons name names ih =>
      obtain ⟨hhas, hbases, hrest⟩ := h
      have hname : g.Founded name := .intro hhas fun base hb => hseen base (hbases base hb)
      have hmore : ∀ k ∈ name :: seen, g.Founded k := List.forall_mem_cons.mpr ⟨hname, hseen⟩
      exact List.forall_mem_cons.mpr ⟨hname, ih hrest hmore⟩

-- A walk from a class along base edges whose last class stands on it before.
structure ClosedWalk (g : Graph) (name : String) (walk : List String) : Prop where
  starts : walk.head? = some name
  edges : walk.IsChain g.Extends
  returns : ∃ front last, walk = front ++ [last] ∧ last ∈ front

-- What a search from a class meets when it fails, after it came to the class on a path.
inductive Fault (g : Graph) (path : List String) (name : String) : OrderError → Prop
  | unknownClass {k : String} (reached : g.Reaches name k) (missing : g.has k = false) :
      Fault g path name (.unknownClass k)
  | cycle {front : List String} {last : String} (entered : path ++ [name] <+: front ++ [last])
      (edges : (front ++ [last]).IsChain g.Extends) (back : last ∈ front) :
      Fault g path name (.cycle (front ++ [last]))

theorem Fault.of_base {path : List String} {name base : String} {e : OrderError} (hb : g.Extends name base)
    (h : Fault g (path ++ [name]) base e) : Fault g path name e := by
  cases h with
  | unknownClass reached missing => exact .unknownClass (ReflTransGen.head hb reached) missing
  | cycle entered edges back => exact .cycle ((List.prefix_append _ _).trans entered) edges back

-- The paths on which the search comes to a class: different registered classes, each a base of the one before.
structure Path (g : Graph) (path : List String) (name : String) : Prop where
  edges : (path ++ [name]).IsChain g.Extends
  nodup : path.Nodup
  registered : path ⊆ g.classes

theorem Path.nil (name : String) : g.Path [] name := ⟨.singleton name, List.nodup_nil, List.nil_subset _⟩

theorem Path.concat {path : List String} {name base : String} (h : g.Path path name) (hfresh : name ∉ path)
    (hhas : g.has name = true) (hb : g.Extends name base) : g.Path (path ++ [name]) base where
  edges := List.isChain_append.mpr ⟨h.edges, .singleton base, by simpa using hb⟩
  nodup := List.nodup_append.mpr
    ⟨h.nodup, by simp, fun p hp other ho heq => hfresh (List.mem_singleton.mp ho ▸ heq ▸ hp)⟩
  registered := List.append_subset.mpr ⟨h.registered, by simpa [has] using hhas⟩

theorem Path.length_le {path : List String} {name : String} (h : g.Path path name) :
    path.length ≤ g.entries.length := by
  simpa [classes] using h.nodup.length_le_of_subset h.registered

theorem foldlM_eq_error {visitOne : List String → String → Except OrderError (List String)}
    {names done : List String} {e : OrderError} (h : names.foldlM visitOne done = .error e) :
    ∃ name ∈ names, ∃ before, visitOne before name = .error e := by
  induction names generalizing done with
  | nil => cases h
  | cons name names ih =>
      rw [List.foldlM_cons] at h
      cases hv : visitOne done name with
      | error e' =>
          rw [hv] at h
          obtain rfl : e' = e := by simpa [bind, Except.bind] using h
          exact ⟨name, List.mem_cons_self, done, hv⟩
      | ok mid =>
          rw [hv] at h
          obtain ⟨other, hmem, before, hother⟩ := ih h
          exact ⟨other, List.mem_cons_of_mem _ hmem, before, hother⟩

theorem foldlM_congr {visitOne visitOther : List String → String → Except OrderError (List String)}
    {names : List String} (h : ∀ name ∈ names, ∀ done, visitOne done name = visitOther done name)
    (done : List String) : names.foldlM visitOne done = names.foldlM visitOther done := by
  induction names generalizing done with
  | nil => rfl
  | cons name names ih =>
      obtain ⟨hname, hrest⟩ := List.forall_mem_cons.mp h
      rw [List.foldlM_cons, List.foldlM_cons, hname]
      exact bind_congr fun mid => ih hrest mid

-- The induction is on the fuel. It cannot be used up, since the path has no room for another class then.
theorem visit_fault {fuel : Nat} {path done : List String} {name : String} {e : OrderError} (hpath : g.Path path name)
    (hfuel : g.entries.length < fuel + path.length) (h : g.visit fuel path done name = .error e) :
    Fault g path name e := by
  induction fuel generalizing path done name with
  | zero =>
      have hroom := hpath.length_le
      omega
  | succ less ih =>
      rw [visit] at h
      split at h
      · cases h
      · split at h
        · rename_i hback
          obtain rfl : .cycle (path ++ [name]) = e := by simpa using h
          exact .cycle (List.prefix_refl _) hpath.edges (by simpa using hback)
        · rename_i hfresh
          split at h
          · rename_i hmissing
            obtain rfl : .unknownClass name = e := by simpa using h
            exact .unknownClass ReflTransGen.refl (by simpa using hmissing)
          · rename_i hhas
            cases hm : (g.bases name).foldlM (g.visit less (path ++ [name])) done with
            | ok mid => rw [hm] at h; cases h
            | error e' =>
                rw [hm] at h
                obtain rfl : e' = e := by simpa [bind, Except.bind] using h
                obtain ⟨base, hb, before, hbase⟩ := foldlM_eq_error hm
                have hnext := hpath.concat (by simpa using hfresh) (by simpa using hhas) hb
                have hless : g.entries.length < less + (path ++ [name]).length := by
                  simp only [List.length_append, List.length_singleton]
                  omega
                exact (ih hnext hless hbase).of_base hb

-- With more fuel the search does not get any further.
theorem visit_fuel {fuel more : Nat} {path done : List String} {name : String} (hpath : g.Path path name)
    (hfuel : g.entries.length < fuel + path.length) (hmore : g.entries.length < more + path.length) :
    g.visit fuel path done name = g.visit more path done name := by
  induction fuel generalizing more path done name with
  | zero =>
      have hroom := hpath.length_le
      omega
  | succ fuel ih =>
      obtain ⟨more, rfl⟩ : ∃ less, more = less + 1 := ⟨more - 1, by have hroom := hpath.length_le; omega⟩
      rw [visit, visit]
      by_cases hback : name ∈ path
      · simp [hback]
      · by_cases hhas : g.has name = true
        · have hbases : ∀ base ∈ g.bases name, ∀ done,
              g.visit fuel (path ++ [name]) done base = g.visit more (path ++ [name]) done base := by
            intro base hb done
            refine ih (hpath.concat hback hhas hb) ?_ ?_ <;>
              (simp only [List.length_append, List.length_singleton]; omega)
          rw [foldlM_congr hbases]
        · simp [hhas]

theorem ancestors_fuel {fuel : Nat} (hfuel : g.depthBound ≤ fuel) (name : String) :
    g.visit fuel [] [] name = g.ancestors name := by
  have hbound : g.entries.length < g.depthBound := by
    rw [depthBound]
    omega
  exact visit_fuel (Path.nil name) (by rw [List.length_nil]; omega) (by rw [List.length_nil]; omega)

theorem ancestors_fault {name : String} {e : OrderError} (h : g.ancestors name = .error e) : Fault g [] name e :=
  visit_fault (Path.nil name) (by rw [depthBound, List.length_nil]; omega) h

theorem founded_of_ancestors {name : String} {after : List String} (h : g.ancestors name = .ok after) :
    Founded g name := by
  have hvisited : g.Visited [] [name] after := visit_visited (by trivial) h
  exact hvisited.basesFirst.founded (by simp) name (hvisited.found (List.mem_singleton.mpr rfl))

theorem reaches_of_isChain {name last : String} {walk : List String} (hedges : (name :: walk).IsChain g.Extends)
    (hlast : (name :: walk).getLast (by simp) = last) : g.Reaches name last :=
  List.relationReflTransGen_of_exists_isChain_cons walk hedges hlast

-- A class on a closed walk leads back to itself.
theorem transGen_of_back {front : List String} {last : String} (hedges : (front ++ [last]).IsChain g.Extends)
    (hback : last ∈ front) : TransGen g.Extends last last := by
  obtain ⟨start, cycle, rfl⟩ := List.append_of_mem hback
  rw [List.append_assoc, List.cons_append] at hedges
  obtain ⟨hfirst, hrest⟩ := List.isChain_cons.mp hedges.right_of_append
  cases hwalk : cycle ++ [last] with
  | nil => simp at hwalk
  | cons next walk =>
      rw [hwalk] at hfirst hrest
      refine TransGen.head' (hfirst next rfl) (reaches_of_isChain hrest ?_)
      simp only [← hwalk, List.getLast_append_singleton]

theorem reaches_of_entered {name last : String} {front : List String} (entered : [] ++ [name] <+: front ++ [last])
    (hedges : (front ++ [last]).IsChain g.Extends) : g.Reaches name last := by
  obtain ⟨walk, hwalk⟩ := entered
  have hsame : name :: walk = front ++ [last] := hwalk
  exact reaches_of_isChain (hsame ▸ hedges) (by simp only [hsame, List.getLast_append_singleton])

theorem closedWalk_of_entered {name last : String} {front : List String}
    (entered : [] ++ [name] <+: front ++ [last]) (hedges : (front ++ [last]).IsChain g.Extends)
    (hback : last ∈ front) : g.ClosedWalk name (front ++ [last]) where
  starts := by
    obtain ⟨walk, hwalk⟩ := entered
    exact hwalk ▸ rfl
  edges := hedges
  returns := ⟨front, last, rfl, hback⟩

theorem Fault.not_founded {name : String} {e : OrderError} (h : Fault g [] name e) : ¬Founded g name := by
  intro hfounded
  cases h with
  | unknownClass reached missing =>
      rw [(hfounded.reaches_founded reached).registered] at missing
      cases missing
  | cycle entered edges back =>
      have hreached := reaches_of_entered entered edges
      exact (hfounded.reaches_founded hreached).irreflexive (transGen_of_back edges back)

theorem exists_ancestors_eq_ok {name : String} (h : Founded g name) : ∃ after, g.ancestors name = .ok after := by
  cases ha : g.ancestors name with
  | error e => exact absurd h (ancestors_fault ha).not_founded
  | ok after => exact ⟨after, rfl⟩

end RustContracts.Inheritance.Graph
