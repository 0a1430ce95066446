import Mathlib
import RustContracts.Proofs.Inheritance.Search

-- The computed order of a class is the one that the recursion over the graph gives it: the search finds
-- the ancestors bases first, and one pass over them finds their orders.
namespace RustContracts.Inheritance.Graph

open Relation

variable {g : Graph}

-- Orders that were computed before: right ones, and one for each class that was seen.
structure Known (g : Graph) (known : List (String × List String)) (seen : List String) : Prop where
  sound : ∀ name chain, known.lookup name = some chain → Ordered g name chain
  complete : ∀ name ∈ seen, ∃ chain, known.lookup name = some chain

theorem known_nil : g.Known [] [] := ⟨by simp, by simp⟩

theorem Known.cons {known : List (String × List String)} {seen : List String}
    (h : g.Known known seen) {name : String} {chain : List String} (hn : Ordered g name chain) :
    g.Known ((name, chain) :: known) (name :: seen) where
  sound := by
    intro other found hfound
    rw [List.lookup_cons] at hfound
    split at hfound
    · rename_i heq
      obtain rfl : chain = found := by simpa using hfound
      exact (beq_iff_eq.mp heq) ▸ hn
    · exact h.sound other found hfound
  complete := by
    intro other hother
    rw [List.lookup_cons]
    split
    · exact ⟨chain, rfl⟩
    · rename_i heq
      exact h.complete other ((List.mem_cons.mp hother).resolve_left (by simpa using heq))

theorem Known.ordered_getD {known : List (String × List String)} {seen : List String}
    (h : g.Known known seen) {name : String} (hn : name ∈ seen) :
    Ordered g name ((known.lookup name).getD []) := by
  obtain ⟨chain, hchain⟩ := h.complete name hn
  simpa [hchain] using h.sound name chain hchain

theorem orderWith_eq_ok_iff {known : List (String × List String)} {seen : List String}
    (hk : g.Known known seen) {name : String} (hhas : g.has name = true)
    (hb : ∀ base, g.Extends name base → base ∈ seen) {chain : List String} :
    g.orderWith known name = .ok chain ↔ Ordered g name chain := by
  let order := fun base => (known.lookup base).getD []
  have hbases : ∀ base, g.Extends name base → Ordered g base (order base) :=
    fun base he => hk.ordered_getD (hb base he)
  unfold orderWith
  constructor
  · intro h
    dsimp only at h
    split at h
    · rename_i rest hm
      obtain rfl : name :: rest = chain := by simpa using h
      exact .intro order hhas hbases hm
    · cases h
  · intro h
    cases h with
    | intro order' _ bases' merged =>
        have hmap : (g.bases name).map order = (g.bases name).map order' :=
          List.map_congr_left fun base he => (hbases base he).unique (bases' base he)
        rw [← hmap] at merged
        dsimp only
        rw [merged]

theorem ordersFrom_known {known orders : List (String × List String)} {seen names : List String}
    (hk : g.Known known seen) (hf : g.BasesFirst seen names)
    (h : g.ordersFrom known names = .ok orders) : g.Known orders (names.reverse ++ seen) := by
  induction names generalizing known seen with
  | nil =>
      obtain rfl : known = orders := by simpa [ordersFrom] using h
      simpa using hk
  | cons name names ih =>
      obtain ⟨hhas, hb, hrest⟩ := hf
      rw [ordersFrom] at h
      cases ho : g.orderWith known name with
      | error e => rw [ho] at h; cases h
      | ok chain =>
          rw [ho] at h
          have hn := (orderWith_eq_ok_iff hk hhas hb).mp ho
          simpa using ih (hk.cons hn) hrest h

theorem exists_ordersFrom_eq_ok {known : List (String × List String)} {seen names : List String}
    (hk : g.Known known seen) (hf : g.BasesFirst seen names)
    (ho : ∀ name ∈ names, ∃ chain, Ordered g name chain) :
    ∃ orders, g.ordersFrom known names = .ok orders := by
  induction names generalizing known seen with
  | nil => exact ⟨known, rfl⟩
  | cons name names ih =>
      obtain ⟨hhas, hb, hrest⟩ := hf
      obtain ⟨chain, hchain⟩ := ho name List.mem_cons_self
      obtain ⟨orders, horders⟩ := ih (hk.cons hchain) hrest
        fun other hmem => ho other (List.mem_cons_of_mem _ hmem)
      refine ⟨orders, ?_⟩
      rw [ordersFrom, (orderWith_eq_ok_iff hk hhas hb).mpr hchain]
      exact horders

theorem linearize_eq_ok_iff {name : String} {chain : List String} :
    g.linearize name = .ok chain ↔ Ordered g name chain := by
  have hfirst : g.BasesFirst [] [] := trivial
  constructor
  · intro h
    unfold linearize ancestors at h
    cases hv : g.visit g.depthBound [] [] name with
    | error e => rw [hv] at h; cases h
    | ok after =>
        rw [hv] at h
        cases ho : g.ordersFrom [] after with
        | error e => simp [ho, bind, Except.bind] at h
        | ok orders =>
            have hvisited := visit_visited hfirst hv
            have hknown := ordersFrom_known known_nil hvisited.basesFirst ho
            have hmem : name ∈ after.reverse ++ [] := by simpa using hvisited.found
            obtain rfl : (orders.lookup name).getD [] = chain := by
              simpa [ho, bind, Except.bind, pure, Except.pure] using h
            exact hknown.ordered_getD hmem
  · intro h
    obtain ⟨after, hv⟩ := exists_ancestors_eq_ok h.founded
    rw [ancestors] at hv
    have hvisited := visit_visited hfirst hv
    have hall : ∀ k ∈ after, ∃ order, Ordered g k order := by
      intro k hk
      obtain ⟨start, hstart, hr⟩ := (hvisited.reached k hk).resolve_left (by simp)
      obtain rfl := List.mem_singleton.mp hstart
      exact h.reaches_ordered hr
    obtain ⟨orders, ho⟩ := exists_ordersFrom_eq_ok known_nil hvisited.basesFirst hall
    have hknown := ordersFrom_known known_nil hvisited.basesFirst ho
    have hmem : name ∈ after.reverse ++ [] := by simpa using hvisited.found
    have hchain := (hknown.ordered_getD hmem).unique h
    unfold linearize ancestors
    rw [hv]
    simp [ho, bind, Except.bind, pure, Except.pure, hchain]

-- The order of a class starts with the class, holds what the class reaches, each once, and keeps the
-- base list and the order of everything in it.
theorem linearize_sound {name : String} {chain : List String} (h : g.linearize name = .ok chain) :
    chain.head? = some name ∧ chain.Nodup ∧ (∀ k, k ∈ chain ↔ g.Reaches name k) ∧
      ∀ k ∈ chain, (g.bases k).Sublist chain ∧
        ∃ order, g.linearize k = .ok order ∧ order.Sublist chain := by
  have hordered := linearize_eq_ok_iff.mp h
  refine ⟨hordered.head?, hordered.nodup, hordered.mem_iff, ?_⟩
  intro k hk
  obtain ⟨order, hk, hsub⟩ := hordered.ancestor_sublist hk
  exact ⟨hk.bases_sublist.trans hsub, order, linearize_eq_ok_iff.mpr hk, hsub⟩

-- Two classes share a base that the class below them names as well.
def diamond : Graph :=
  ⟨[("Base", []), ("Left", ["Base"]), ("Right", ["Base"]), ("Top", ["Right", "Left", "Base"])]⟩

theorem linearize_sound_diamond :
    diamond.linearize "Top" = .ok ["Top", "Right", "Left", "Base"] ∧
      (∀ k, k ∈ ["Top", "Right", "Left", "Base"] ↔ diamond.Reaches "Top" k) ∧
      (diamond.bases "Left").Sublist ["Top", "Right", "Left", "Base"] ∧
      ∃ order, diamond.linearize "Left" = .ok order ∧
        order.Sublist ["Top", "Right", "Left", "Base"] := by
  have h : diamond.linearize "Top" = .ok ["Top", "Right", "Left", "Base"] := by cbv
  obtain ⟨-, -, hmem, hkept⟩ := linearize_sound h
  exact ⟨h, hmem, hkept "Left" (by simp)⟩

-- Faults.

theorem ordersFrom_eq_error {known : List (String × List String)} {names : List String} {e : OrderError}
    (h : g.ordersFrom known names = .error e) : ∃ name blocked, e = .inconsistent name blocked := by
  induction names generalizing known with
  | nil => cases h
  | cons name names ih =>
      rw [ordersFrom] at h
      cases ho : g.orderWith known name with
      | ok chain =>
          rw [ho] at h
          exact ih h
      | error e' =>
          rw [ho] at h
          obtain rfl : e' = e := by simpa [bind, Except.bind] using h
          unfold orderWith at ho
          dsimp only at ho
          split at ho
          · cases ho
          · exact ⟨name, _, by simpa using ho.symm⟩

-- The search has the first word; where it succeeds, only the merging can fail.
theorem linearize_of_error {name : String} {e : OrderError} (h : g.ancestors name = .error e) :
    g.linearize name = .error e := by
  rw [linearize, h]
  rfl

theorem linearize_of_ok {name : String} {after : List String} (h : g.ancestors name = .ok after) :
    (∃ chain, g.linearize name = .ok chain) ∨ ∃ k blocked, g.linearize name = .error (.inconsistent k blocked) := by
  rw [linearize, h]
  cases ho : g.ordersFrom [] after with
  | ok orders => exact .inl ⟨_, by simp [ho, bind, Except.bind]; rfl⟩
  | error e =>
      obtain ⟨k, blocked, rfl⟩ := ordersFrom_eq_error ho
      exact .inr ⟨k, blocked, by simp [ho, bind, Except.bind]⟩

-- Reached from a class: one that is not registered, or one that leads back to itself.
def Faulty (g : Graph) (name : String) : Prop :=
  ∃ k, g.Reaches name k ∧ (g.has k = false ∨ TransGen g.Extends k k)

theorem Founded.not_faulty {name : String} (h : Founded g name) : ¬g.Faulty name := by
  rintro ⟨k, hk, hmissing | hcycle⟩
  · rw [(h.reaches_founded hk).registered] at hmissing
    cases hmissing
  · exact (h.reaches_founded hk).irreflexive hcycle

theorem Fault.faulty {name : String} {e : OrderError} (h : Fault g [] name e) : g.Faulty name := by
  cases h with
  | unknownClass reached missing => exact ⟨_, reached, .inl missing⟩
  | cycle entered edges back => exact ⟨_, reaches_of_entered entered edges, .inr (transGen_of_back edges back)⟩

-- The search ends by itself, whatever the graph; it fails exactly when it can reach a class that is not registered or a
-- cycle, and names one of these. Otherwise base edges cannot be followed forever, and the class has an order or the
-- orders of its bases contradict each other.
theorem linearize_outcome (g : Graph) (name : String) :
    (∀ fuel, g.depthBound ≤ fuel → g.visit fuel [] [] name = g.ancestors name) ∧
      (g.Faulty name ↔ (∃ k, g.linearize name = .error (.unknownClass k)) ∨
        ∃ walk, g.linearize name = .error (.cycle walk)) ∧
      (∀ k, g.linearize name = .error (.unknownClass k) → g.Reaches name k ∧ g.has k = false) ∧
      (∀ walk, g.linearize name = .error (.cycle walk) → g.ClosedWalk name walk) ∧
      (¬g.Faulty name → Acc (fun base name => g.Extends name base) name ∧
        ((∃ chain, g.linearize name = .ok chain) ∨
          ∃ k blocked, g.linearize name = .error (.inconsistent k blocked))) := by
  refine ⟨fun fuel hfuel => ancestors_fuel hfuel name, ?_⟩
  cases ha : g.ancestors name with
  | error e =>
      have hfault := ancestors_fault ha
      rw [linearize_of_error ha]
      refine ⟨iff_of_true hfault.faulty ?_, ?_, ?_, fun hsound => absurd hfault.faulty hsound⟩
      · cases hfault with
        | unknownClass reached missing => exact .inl ⟨_, rfl⟩
        | cycle entered edges back => exact .inr ⟨_, rfl⟩
      · intro k hk
        cases hfault with
        | unknownClass reached missing => cases hk; exact ⟨reached, missing⟩
        | cycle entered edges back => cases hk
      · intro walk hwalk
        cases hfault with
        | unknownClass reached missing => cases hwalk
        | cycle entered edges back => cases hwalk; exact closedWalk_of_entered entered edges back
  | ok after =>
      have hfounded := founded_of_ancestors ha
      obtain ⟨chain, hchain⟩ | ⟨k, blocked, hblocked⟩ := linearize_of_ok ha
      · rw [hchain]
        exact ⟨iff_of_false hfounded.not_faulty (by simp), by simp, by simp, fun _ => ⟨hfounded.acc, .inl ⟨chain, rfl⟩⟩⟩
      · rw [hblocked]
        exact ⟨iff_of_false hfounded.not_faulty (by simp), by simp, by simp,
          fun _ => ⟨hfounded.acc, .inr ⟨k, blocked, rfl⟩⟩⟩

end RustContracts.Inheritance.Graph
