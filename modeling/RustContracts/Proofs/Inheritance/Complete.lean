import RustContracts.Proofs.Inheritance.Linearize

-- A merge misses no order: it fails only when the lists contradict each other, and so a class that reaches neither an
-- unknown class nor a cycle is left without an order only by bases that contradict each other.
namespace RustContracts.Inheritance

section Merge

variable {α : Type}

-- A list without repetition that keeps every list in order.
def KeepsAll (seqs : List (List α)) (order : List α) : Prop := order.Nodup ∧ ∀ s ∈ seqs, s.Sublist order

def Compatible (seqs : List (List α)) : Prop := ∃ order, KeepsAll seqs order

theorem notMem_tails_of_sublist {seqs : List (List α)} {c : α} {order : List α} (hnodup : (c :: order).Nodup)
    (hkept : ∀ s ∈ seqs, s.Sublist (c :: order)) : c ∉ tails seqs := by
  intro hc
  obtain ⟨s, hs, hcs⟩ := List.mem_flatMap.mp hc
  have hsub := hkept s hs
  cases s with
  | nil => cases hcs
  | cons first rest =>
      have hcrest : c ∈ rest := hcs
      have horder : c ∉ order := (List.nodup_cons.mp hnodup).1
      cases hsub with
      | cons _ h => exact horder (h.subset (List.mem_cons_of_mem _ hcrest))
      | cons_cons _ h => exact horder (h.subset hcrest)

-- Of an order that keeps every list, the first entry that is a head stands in no tail: what stands before it on its
-- list would be an earlier head.
theorem exists_free_head {seqs : List (List α)} {order : List α} (hnodup : order.Nodup)
    (hkept : ∀ s ∈ seqs, s.Sublist order) (hheads : heads seqs ≠ []) : ∃ c ∈ heads seqs, c ∉ tails seqs := by
  induction order with
  | nil =>
      obtain ⟨c, hc⟩ := List.exists_mem_of_ne_nil _ hheads
      obtain ⟨s, hs, hhead⟩ := mem_heads.mp hc
      obtain rfl : s = [] := List.sublist_nil.mp (hkept s hs)
      cases hhead
  | cons first order ih =>
      by_cases hfirst : first ∈ heads seqs
      · exact ⟨first, hfirst, notMem_tails_of_sublist hnodup hkept⟩
      · refine ih hnodup.of_cons fun s hs => ?_
        have hsub := hkept s hs
        cases hsub with
        | cons _ h => exact h
        | cons_cons _ h => exact absurd (mem_heads.mpr ⟨_, hs, rfl⟩) hfirst

variable [DecidableEq α]

theorem exists_candidate {seqs : List (List α)} (h : Compatible seqs) (hheads : heads seqs ≠ []) :
    ∃ c, candidate seqs = some c := by
  obtain ⟨order, hnodup, hkept⟩ := h
  obtain ⟨c, hc, hfree⟩ := exists_free_head hnodup hkept hheads
  have hfound : (candidate seqs).isSome := List.find?_isSome.mpr ⟨c, hc, by simpa using hfree⟩
  exact Option.isSome_iff_exists.mp hfound

-- The order that keeps the lists keeps what is left of them as well.
theorem Compatible.dropHeads {seqs : List (List α)} (h : Compatible seqs) (c : α) :
    Compatible (dropHeads c seqs) := by
  obtain ⟨order, hnodup, hkept⟩ := h
  refine ⟨order, hnodup, fun t ht => ?_⟩
  obtain ⟨s, hs, rfl⟩ := List.mem_map.mp ht
  exact (dropHead_sublist c s).trans (hkept s hs)

theorem exists_merge_eq_ok {seqs : List (List α)} (h : Compatible seqs) : ∃ out, merge seqs = .ok out := by
  induction seqs using merge.induct with
  | case1 seqs hempty => exact ⟨[], by rw [merge, if_pos hempty]⟩
  | case2 seqs hheads hnone =>
      obtain ⟨c, hc⟩ := exists_candidate h hheads
      rw [hnone] at hc
      cases hc
  | case3 seqs hheads c hc ih =>
      obtain ⟨out, hout⟩ := ih (h.dropHeads c)
      refine ⟨c :: out, ?_⟩
      rw [merge, if_neg hheads]
      split
      · rename_i hnone
        rw [hnone] at hc
        cases hc
      · rename_i d hd
        obtain rfl : d = c := Option.some.inj (hd.symm.trans hc)
        rw [hout]
        rfl

theorem keepsAll_merge {seqs : List (List α)} {out : List α} (h : merge seqs = .ok out) : KeepsAll seqs out :=
  ⟨nodup_merge h, fun _ hs => merge_sublist h hs⟩

theorem merge_eq_ok_iff {seqs : List (List α)} : (∃ out, merge seqs = .ok out) ↔ Compatible seqs :=
  ⟨fun ⟨out, h⟩ => ⟨out, keepsAll_merge h⟩, exists_merge_eq_ok⟩

end Merge

namespace Graph

variable {g : Graph}

-- The bases of the class have orders, and no list keeps these and the list of bases.
def Contradicts (g : Graph) (name : String) : Prop :=
  ∃ order : String → List String, (∀ base, g.Extends name base → g.linearize base = .ok (order base)) ∧
    ¬Compatible ((g.bases name).map order ++ [g.bases name])

theorem Contradicts.not_ordered {name : String} {chain : List String} (h : g.Contradicts name) :
    ¬Ordered g name chain := by
  rintro ⟨order, -, hbases, hmerged⟩
  obtain ⟨found, hfound, hclash⟩ := h
  have hmap : (g.bases name).map order = (g.bases name).map found :=
    List.map_congr_left fun base hb => (hbases base hb).unique (linearize_eq_ok_iff.mp (hfound base hb))
  exact hclash (hmap ▸ merge_eq_ok_iff.mp ⟨_, hmerged⟩)

-- One class whose bases are known: only a contradiction leaves it without an order.
theorem contradicts_of_orderWith {known : List (String × List String)} {seen : List String} (hk : g.Known known seen)
    {name : String} (hb : ∀ base, g.Extends name base → base ∈ seen) {e : OrderError}
    (h : g.orderWith known name = .error e) : g.Contradicts name := by
  refine ⟨fun base => (known.lookup base).getD [],
    fun base he => linearize_eq_ok_iff.mpr (hk.ordered_getD (hb base he)), fun hcompatible => ?_⟩
  obtain ⟨out, hout⟩ := exists_merge_eq_ok hcompatible
  unfold orderWith at h
  dsimp only at h
  rw [hout] at h
  cases h

theorem ordersFrom_contradicts {known : List (String × List String)} {seen names : List String}
    (hk : g.Known known seen) (hf : g.BasesFirst seen names) {k : String} {blocked : List String}
    (h : g.ordersFrom known names = .error (.inconsistent k blocked)) : k ∈ names ∧ g.Contradicts k := by
  induction names generalizing known seen with
  | nil => cases h
  | cons name names ih =>
      obtain ⟨hhas, hb, hrest⟩ := hf
      rw [ordersFrom] at h
      cases ho : g.orderWith known name with
      | ok chain =>
          rw [ho] at h
          obtain ⟨hmem, hclash⟩ := ih (hk.cons ((orderWith_eq_ok_iff hk hhas hb).mp ho)) hrest h
          exact ⟨List.mem_cons_of_mem _ hmem, hclash⟩
      | error e =>
          rw [ho] at h
          have hclash := contradicts_of_orderWith hk hb ho
          unfold orderWith at ho
          dsimp only at ho
          split at ho
          · cases ho
          · obtain ⟨rfl, -⟩ : name = k ∧ _ = blocked := by simpa [← Except.error.inj ho, bind, Except.bind] using h
            exact ⟨List.mem_cons_self, hclash⟩

-- The fault names a class that is reached, and whose bases contradict each other.
theorem linearize_contradicts {name k : String} {blocked : List String}
    (h : g.linearize name = .error (.inconsistent k blocked)) : g.Reaches name k ∧ g.Contradicts k := by
  cases ha : g.ancestors name with
  | error e =>
      rw [linearize_of_error ha] at h
      cases ancestors_fault ha <;> cases h
  | ok after =>
      have hvisited := visit_visited (show g.BasesFirst [] [] from trivial) ha
      rw [linearize, ha] at h
      cases ho : g.ordersFrom [] after with
      | ok orders => simp [ho, bind, Except.bind, pure, Except.pure] at h
      | error e =>
          obtain rfl : e = .inconsistent k blocked := by simpa [ho, bind, Except.bind] using h
          obtain ⟨hmem, hclash⟩ := ordersFrom_contradicts known_nil hvisited.basesFirst ho
          obtain ⟨start, hstart, hreach⟩ := (hvisited.reached k hmem).resolve_left (by simp)
          obtain rfl := List.mem_singleton.mp hstart
          exact ⟨hreach, hclash⟩

theorem not_ok_iff_contradicts {name : String} (h : ¬g.Faulty name) :
    (∀ chain, g.linearize name ≠ .ok chain) ↔ ∃ k, g.Reaches name k ∧ g.Contradicts k := by
  constructor
  · intro hfails
    cases ha : g.ancestors name with
    | error e => exact absurd (ancestors_fault ha).faulty h
    | ok after =>
        obtain ⟨chain, hchain⟩ | ⟨k, blocked, hblocked⟩ := linearize_of_ok ha
        · exact absurd hchain (hfails chain)
        · exact ⟨k, linearize_contradicts hblocked⟩
  · rintro ⟨k, hreach, hclash⟩ chain hchain
    obtain ⟨order, horder⟩ := (linearize_eq_ok_iff.mp hchain).reaches_ordered hreach
    exact hclash.not_ordered horder

-- A merge succeeds exactly when some list keeps all lists, and returns such a list of their entries. A class that
-- reaches no unknown class and no cycle has no order exactly when a class that it reaches has bases whose orders
-- contradict each other or the list of bases, and a fault of this kind names such a class.
theorem merge_complete :
    (∀ seqs : List (List String), ((∃ out, merge seqs = .ok out) ↔ Compatible seqs) ∧
      ∀ out, merge seqs = .ok out → KeepsAll seqs out ∧ ∀ c, c ∈ out ↔ ∃ s ∈ seqs, c ∈ s) ∧
    ∀ (g : Graph) (name : String),
      (¬g.Faulty name →
        ((∀ chain, g.linearize name ≠ .ok chain) ↔ ∃ k, g.Reaches name k ∧ g.Contradicts k)) ∧
      ∀ k blocked, g.linearize name = .error (.inconsistent k blocked) → g.Reaches name k ∧ g.Contradicts k :=
  ⟨fun _ => ⟨merge_eq_ok_iff, fun _ h => ⟨keepsAll_merge h, fun _ => mem_merge h⟩⟩,
    fun _ _ => ⟨not_ok_iff_contradicts, fun _ _ => linearize_contradicts⟩⟩

-- Two classes name their bases in different orders, and a third one extends both.
def crossed : Graph :=
  ⟨[("X", []), ("Y", []), ("A", ["X", "Y"]), ("B", ["Y", "X"]), ("C", ["A", "B"])]⟩

theorem merge_complete_crossed :
    (∃ out, merge [["X", "Z"], ["Y", "Z"], ["X", "Y"]] = .ok out) ∧ ¬crossed.Faulty "C" ∧
      (∃ k, crossed.Reaches "C" k ∧ crossed.Contradicts k) ∧
      crossed.linearize "C" = .error (.inconsistent "C" ["X", "Y"]) ∧ crossed.Contradicts "C" := by
  have hblocked : crossed.linearize "C" = .error (.inconsistent "C" ["X", "Y"]) := by cbv
  have hsound : ¬crossed.Faulty "C" := by
    obtain ⟨after, ha⟩ : ∃ after, crossed.ancestors "C" = .ok after := ⟨["X", "Y", "A", "B", "C"], by cbv⟩
    exact (founded_of_ancestors ha).not_faulty
  have hkept : KeepsAll [["X", "Z"], ["Y", "Z"], ["X", "Y"]] ["X", "Y", "Z"] := ⟨by decide, by decide⟩
  have hgraph := merge_complete.2 crossed "C"
  refine ⟨(merge_complete.1 _).1.mpr ⟨_, hkept⟩, hsound, (hgraph.1 hsound).mp ?_, hblocked, (hgraph.2 _ _ hblocked).2⟩
  intro chain hchain
  rw [hblocked] at hchain
  cases hchain

end Graph

end RustContracts.Inheritance
