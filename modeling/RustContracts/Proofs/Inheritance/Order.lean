import Mathlib.Logic.Relation
import RustContracts.Inheritance.Graph

-- What a merge that succeeds returns: every list is kept in order, nothing is added, and nothing occurs twice. From it the
-- order of a class, said by recursion over the graph, and the laws that it keeps.
namespace RustContracts.Inheritance

section Merge

variable {α : Type} [DecidableEq α]

theorem head_mem_of_candidate {c : α} {seqs : List (List α)} (h : candidate seqs = some c) :
    ∃ s ∈ seqs, c ∈ s := by
  obtain ⟨s, hs, hc⟩ := mem_heads.mp (candidate_mem h)
  exact ⟨s, hs, List.mem_of_mem_head? hc⟩

theorem notMem_tail_of_candidate {c : α} {seqs : List (List α)} (h : candidate seqs = some c)
    {s : List α} (hs : s ∈ seqs) : c ∉ s.tail := by
  intro hc
  have hfree := List.find?_some h
  have hmem : c ∈ tails seqs := List.mem_flatMap.mpr ⟨s, hs, hc⟩
  simp [hmem] at hfree

theorem dropHead_sublist (c : α) (seq : List α) : (dropHead c seq).Sublist seq := by
  unfold dropHead
  split
  · exact List.tail_sublist seq
  · exact List.Sublist.refl seq

-- An entry that stands in no tail is gone once it is taken off the heads.
theorem notMem_dropHead {c : α} {seq : List α} (h : c ∉ seq.tail) : c ∉ dropHead c seq := by
  cases seq with
  | nil => simp [dropHead]
  | cons a rest =>
      by_cases ha : a = c
      · simpa [dropHead, ha] using h
      · simp only [List.tail_cons] at h
        simp [dropHead, ha, h, Ne.symm ha]

theorem sublist_cons_of_dropHead {c : α} {seq out : List α} (h : (dropHead c seq).Sublist out) :
    seq.Sublist (c :: out) := by
  cases seq with
  | nil => exact List.nil_sublist _
  | cons a rest =>
      by_cases ha : a = c
      · subst ha
        simp only [dropHead, List.head?_cons, if_true, List.tail_cons] at h
        exact h.cons_cons a
      · simp only [dropHead, List.head?_cons, Option.some.injEq, ha, if_false] at h
        exact h.cons c

-- The only ways in which a merge succeeds: nothing is left, or a candidate is taken off all lists.
theorem merge_eq_ok_cases {seqs : List (List α)} {out : List α} (h : merge seqs = .ok out) :
    (heads seqs = [] ∧ out = []) ∨
    ∃ c rest, candidate seqs = some c ∧ merge (dropHeads c seqs) = .ok rest ∧ out = c :: rest := by
  rw [merge] at h
  split at h
  · rename_i hempty
    exact .inl ⟨hempty, by simpa using h.symm⟩
  · split at h
    · cases h
    · rename_i c hc
      cases hm : merge (dropHeads c seqs) with
      | error blocked => simp [hm, Except.map] at h
      | ok rest => exact .inr ⟨c, rest, hc, hm, by simpa [hm, Except.map] using h.symm⟩

omit [DecidableEq α] in
theorem eq_nil_of_heads_eq_nil {seqs : List (List α)} (h : heads seqs = []) {s : List α}
    (hs : s ∈ seqs) : s = [] := by
  cases s with
  | nil => rfl
  | cons a rest =>
      have ha : a ∈ heads seqs := mem_heads.mpr ⟨_, hs, rfl⟩
      simp [h] at ha

-- Every induction over a merge follows its own recursion: the lists that are left.
theorem merge_sublist {seqs : List (List α)} {out : List α} (h : merge seqs = .ok out)
    {s : List α} (hs : s ∈ seqs) : s.Sublist out := by
  induction out generalizing seqs s with
  | nil =>
      obtain ⟨hempty, -⟩ | ⟨c, rest, -, -, heq⟩ := merge_eq_ok_cases h
      · obtain rfl : s = [] := eq_nil_of_heads_eq_nil hempty hs
        exact List.Sublist.refl []
      · cases heq
  | cons a out ih =>
      obtain ⟨-, heq⟩ | ⟨c, rest, hc, hm, heq⟩ := merge_eq_ok_cases h
      · cases heq
      · obtain ⟨rfl, rfl⟩ := List.cons.inj heq
        exact sublist_cons_of_dropHead (ih hm (List.mem_map_of_mem hs))

theorem mem_merge {seqs : List (List α)} {out : List α} (h : merge seqs = .ok out) {x : α} :
    x ∈ out ↔ ∃ s ∈ seqs, x ∈ s := by
  constructor
  · intro hx
    induction out generalizing seqs with
    | nil => cases hx
    | cons a out ih =>
        obtain ⟨-, heq⟩ | ⟨c, rest, hc, hm, heq⟩ := merge_eq_ok_cases h
        · cases heq
        · obtain ⟨rfl, rfl⟩ := List.cons.inj heq
          cases List.mem_cons.mp hx with
          | inl hxa =>
              subst hxa
              exact head_mem_of_candidate hc
          | inr hrest =>
              obtain ⟨t, ht, hxt⟩ := ih hm hrest
              obtain ⟨s, hs, rfl⟩ := List.mem_map.mp ht
              exact ⟨s, hs, (dropHead_sublist a s).subset hxt⟩
  · rintro ⟨s, hs, hx⟩
    exact (merge_sublist h hs).subset hx

theorem nodup_merge {seqs : List (List α)} {out : List α} (h : merge seqs = .ok out) :
    out.Nodup := by
  induction out generalizing seqs with
  | nil => exact List.nodup_nil
  | cons a out ih =>
      obtain ⟨-, heq⟩ | ⟨c, rest, hc, hm, heq⟩ := merge_eq_ok_cases h
      · cases heq
      · obtain ⟨rfl, rfl⟩ := List.cons.inj heq
        refine List.nodup_cons.mpr ⟨?_, ih hm⟩
        intro ha
        obtain ⟨t, ht, hat⟩ := (mem_merge hm).mp ha
        obtain ⟨s, hs, rfl⟩ := List.mem_map.mp ht
        exact notMem_dropHead (notMem_tail_of_candidate hc hs) hat

end Merge

namespace Graph

open Relation

variable {g : Graph}

-- Base lists under registration.

theorem classes_add (g : Graph) (name : String) (bases : List String) :
    (g.add name bases).classes = if name ∈ g.classes then g.classes else g.classes ++ [name] := by
  unfold add
  by_cases hmem : name ∈ g.classes
  · have hhas : g.has name = true := by simpa [has] using hmem
    rw [if_pos hhas, if_pos hmem]
    simp only [classes, List.map_map]
    refine List.map_congr_left fun e _ => ?_
    by_cases heq : e.1 = name <;> simp [heq]
  · have hhas : ¬g.has name = true := by simpa [has] using hmem
    rw [if_neg hhas, if_neg hmem]
    simp [classes]

theorem lookup_isSome (g : Graph) (name : String) : (g.entries.lookup name).isSome = g.has name := by
  rw [Bool.eq_iff_iff, List.lookup_isSome_iff]
  simp [has, classes]

theorem lookup_map_replace (entries : List (String × List String)) (name other : String) (bases : List String) :
    (entries.map fun e => if e.1 = name then (name, bases) else e).lookup other =
      if other = name then (entries.lookup name).map fun _ => bases else entries.lookup other := by
  induction entries with
  | nil => simp
  | cons e entries ih =>
      rw [List.map_cons, List.lookup_cons, List.lookup_cons, List.lookup_cons, ih]
      by_cases hother : other = name
      · subst hother
        by_cases hfirst : e.1 = other
        · simp [hfirst]
        · simp [hfirst, beq_eq_false_iff_ne.mpr (Ne.symm hfirst)]
      · by_cases hfirst : e.1 = name
        · simp [hfirst, hother, beq_eq_false_iff_ne.mpr hother]
        · simp [hfirst, hother]

theorem lookup_add (g : Graph) (name other : String) (bases : List String) :
    (g.add name bases).entries.lookup other = if other = name then some bases else g.entries.lookup other := by
  unfold add
  have hsome := g.lookup_isSome name
  by_cases hhas : g.has name = true
  · rw [if_pos hhas, lookup_map_replace]
    obtain ⟨old, hold⟩ := Option.isSome_iff_exists.mp (hsome.trans hhas)
    simp [hold]
  · rw [if_neg hhas, List.lookup_append]
    have hnone : g.entries.lookup name = none := by simpa [hhas] using hsome
    by_cases hother : other = name
    · subst hother
      simp [hnone]
    · simp [hother, List.lookup_cons, beq_eq_false_iff_ne.mpr hother]

def Extends (g : Graph) (name base : String) : Prop := base ∈ g.bases name

-- The class and everything that is reached from it through base edges.
def Reaches (g : Graph) : String → String → Prop := ReflTransGen g.Extends

-- Everything that is reached from the class is registered, and base edges cannot be followed forever.
inductive Founded (g : Graph) : String → Prop
  | intro {name : String} (registered : g.has name = true)
      (bases : ∀ base, g.Extends name base → Founded g base) : Founded g name

namespace Founded

theorem registered {name : String} (h : Founded g name) : g.has name = true := by
  cases h with
  | intro registered bases => exact registered

theorem extends_founded {name base : String} (h : Founded g name) (hb : g.Extends name base) :
    Founded g base := by
  cases h with
  | intro registered bases => exact bases base hb

theorem reaches_founded {name k : String} (h : Founded g name) (hk : g.Reaches name k) :
    Founded g k := by
  induction hk with
  | refl => exact h
  | tail _ hstep ih => exact ih.extends_founded hstep

theorem acc {name : String} (h : Founded g name) : Acc (fun base name => g.Extends name base) name := by
  induction h with
  | intro registered bases ih => exact Acc.intro _ fun base hb => ih base hb

theorem irreflexive {name : String} (h : Founded g name) : ¬TransGen g.Extends name name := by
  induction h.acc with
  | intro name _ ih =>
      intro hcycle
      obtain ⟨next, hstep, hback⟩ := TransGen.head'_iff.mp hcycle
      exact ih next hstep (h.extends_founded hstep) (TransGen.tail' hback hstep)

end Founded

-- A class has an order when all its bases have one and these can be merged. There is no fuel and no
-- search here: `linearize_eq_ok_iff` says that the computed orders are exactly these.
inductive Ordered (g : Graph) : String → List String → Prop
  | intro {name : String} {rest : List String} (order : String → List String)
      (registered : g.has name = true)
      (bases : ∀ base, g.Extends name base → Ordered g base (order base))
      (merged : merge ((g.bases name).map order ++ [g.bases name]) = .ok rest) :
      Ordered g name (name :: rest)

namespace Ordered

theorem unique {name : String} {chain other : List String} (h : Ordered g name chain)
    (h' : Ordered g name other) : chain = other := by
  induction h generalizing other with
  | @intro name rest order registered bases merged ih =>
      cases h' with
      | intro order' _ bases' merged' =>
          have hmap : (g.bases name).map order = (g.bases name).map order' :=
            List.map_congr_left fun base hb => ih base hb (bases' base hb)
          rw [hmap, merged'] at merged
          simpa using merged.symm

theorem founded {name : String} {chain : List String} (h : Ordered g name chain) : Founded g name := by
  induction h with
  | intro order registered bases merged ih => exact .intro registered ih

theorem extends_ordered {name base : String} {chain : List String} (h : Ordered g name chain)
    (hb : g.Extends name base) : ∃ order, Ordered g base order := by
  cases h with
  | intro order registered bases merged => exact ⟨order base, bases base hb⟩

theorem reaches_ordered {name k : String} {chain : List String} (h : Ordered g name chain)
    (hk : g.Reaches name k) : ∃ order, Ordered g k order := by
  induction hk with
  | refl => exact ⟨chain, h⟩
  | tail _ hstep ih =>
      obtain ⟨order, ho⟩ := ih
      exact ho.extends_ordered hstep

theorem head? {name : String} {chain : List String} (h : Ordered g name chain) :
    chain.head? = some name := by
  cases h with
  | intro order registered bases merged => rfl

theorem mem_iff {name : String} {chain : List String} (h : Ordered g name chain) (k : String) :
    k ∈ chain ↔ g.Reaches name k := by
  induction h with
  | @intro name rest order registered bases merged ih =>
      have hrest : k ∈ rest ↔ ∃ base, g.Extends name base ∧ g.Reaches base k := by
        rw [mem_merge merged]
        constructor
        · rintro ⟨seq, hseq, hk⟩
          cases List.mem_append.mp hseq with
          | inl hmap =>
              obtain ⟨base, hb, rfl⟩ := List.mem_map.mp hmap
              exact ⟨base, hb, (ih base hb).mp hk⟩
          | inr hbases =>
              obtain rfl := List.mem_singleton.mp hbases
              exact ⟨k, hk, ReflTransGen.refl⟩
        · rintro ⟨base, hb, hk⟩
          exact ⟨order base, List.mem_append_left _ (List.mem_map_of_mem hb), (ih base hb).mpr hk⟩
      rw [List.mem_cons, hrest]
      constructor
      · rintro (rfl | ⟨base, hb, hk⟩)
        · exact ReflTransGen.refl
        · exact ReflTransGen.head hb hk
      · intro hk
        cases ReflTransGen.cases_head hk with
        | inl heq => exact .inl heq.symm
        | inr hstep => exact .inr hstep

theorem nodup {name : String} {chain : List String} (h : Ordered g name chain) : chain.Nodup := by
  have hcycle := h.founded.irreflexive
  cases h with
  | intro order registered bases merged =>
      refine List.nodup_cons.mpr ⟨?_, nodup_merge merged⟩
      intro hname
      obtain ⟨seq, hseq, hk⟩ := (mem_merge merged).mp hname
      cases List.mem_append.mp hseq with
      | inl hmap =>
          obtain ⟨base, hb, rfl⟩ := List.mem_map.mp hmap
          exact hcycle (TransGen.head' hb (((bases base hb).mem_iff name).mp hk))
      | inr hbases =>
          obtain rfl := List.mem_singleton.mp hbases
          exact hcycle (TransGen.single hk)

theorem bases_sublist {name : String} {chain : List String} (h : Ordered g name chain) :
    (g.bases name).Sublist chain := by
  cases h with
  | intro order registered bases merged =>
      exact (merge_sublist merged (by simp)).cons name

-- The orders of all ancestors are kept: a class further up contributes through the order of a base,
-- which the merge keeps whole.
theorem ancestor_sublist {name k : String} {chain : List String} (h : Ordered g name chain)
    (hk : k ∈ chain) : ∃ order, Ordered g k order ∧ order.Sublist chain := by
  induction h with
  | @intro name rest order registered bases merged ih =>
      have hself : Ordered g name (name :: rest) := .intro order registered bases merged
      cases ReflTransGen.cases_head ((hself.mem_iff k).mp hk) with
      | inl heq =>
          subst heq
          exact ⟨_, hself, List.Sublist.refl _⟩
      | inr hstep =>
          obtain ⟨base, hb, hreach⟩ := hstep
          obtain ⟨found, hfound, hsub⟩ := ih base hb (((bases base hb).mem_iff k).mpr hreach)
          have hkept : (order base).Sublist rest :=
            merge_sublist merged (List.mem_append_left _ (List.mem_map_of_mem hb))
          exact ⟨found, hfound, hsub.trans (hkept.cons name)⟩

end Ordered

end Graph

end RustContracts.Inheritance
