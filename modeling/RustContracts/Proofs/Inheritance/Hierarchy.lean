import Mathlib
import RustContracts.Inheritance.Hierarchy
import RustContracts.Proofs.Inheritance.Linearize

-- What a hierarchy knows never shows: every order is the one that the graph alone gives, and it depends on the
-- last base list of each class only.
namespace RustContracts.Inheritance

open Relation

variable {g g' : Graph}

namespace Graph

-- Two graphs in which each class has the same base list, in whatever order the classes were registered.
def Agree (g g' : Graph) : Prop := ∀ name, g.entries.lookup name = g'.entries.lookup name

theorem Agree.bases (h : g.Agree g') : g.bases = g'.bases := by
  funext name
  rw [Graph.bases, Graph.bases, h name]

theorem Agree.has (h : g.Agree g') : g.has = g'.has := by
  funext name
  rw [← lookup_isSome, ← lookup_isSome, h name]

theorem Agree.visit (h : g.Agree g') (fuel : Nat) : g.visit fuel = g'.visit fuel := by
  induction fuel with
  | zero => rfl
  | succ fuel ih =>
      funext path done name
      rw [Graph.visit, Graph.visit, ih, h.bases, h.has]

-- The graphs need not agree on how much fuel a search gets, since neither needs all of it.
theorem Agree.ancestors (h : g.Agree g') (name : String) : g.ancestors name = g'.ancestors name := by
  rw [← ancestors_fuel (le_max_left _ g'.depthBound), ← ancestors_fuel (le_max_right g.depthBound _), h.visit]

theorem Agree.orderWith (h : g.Agree g') : g.orderWith = g'.orderWith := by
  funext known name
  rw [Graph.orderWith, Graph.orderWith, h.bases]

theorem Agree.ordersFrom (h : g.Agree g') (known : List (String × List String)) (names : List String) :
    g.ordersFrom known names = g'.ordersFrom known names := by
  induction names generalizing known with
  | nil => rfl
  | cons name names ih => simp only [Graph.ordersFrom, h.orderWith, ih]

theorem Agree.linearize (h : g.Agree g') (name : String) : g.linearize name = g'.linearize name := by
  simp only [Graph.linearize, h.ancestors, h.ordersFrom]

-- The merge for a class takes from what is known no more than the orders of its bases.
theorem orderWith_congr {known other : List (String × List String)} {seen : List String} (hk : g.Known known seen)
    (ho : g.Known other seen) {name : String} (hb : ∀ base, g.Extends name base → base ∈ seen) :
    g.orderWith known name = g.orderWith other name := by
  have hmap : ((g.bases name).map fun base => (known.lookup base).getD []) =
      (g.bases name).map fun base => (other.lookup base).getD [] :=
    List.map_congr_left fun base he => (hk.ordered_getD (hb base he)).unique (ho.ordered_getD (hb base he))
  simp only [orderWith, hmap]

end Graph

-- The base list that the last registration of a class gives it.
def lastBases (requests : List Request) (name : String) : Option (List String) :=
  requests.reverse.findSome? fun
    | .add other bases => if other = name then some bases else none
    | _ => none

def Request.registers : Request → Option String
  | .add name _ => some name
  | _ => none

namespace Hierarchy

variable {h : Hierarchy}

-- What is known are orders of the graph as it is.
def Sound (h : Hierarchy) : Prop := ∀ name chain, h.known.lookup name = some chain → h.graph.Ordered name chain

theorem sound_add (h : Hierarchy) (name : String) (bases : List String) : (h.add name bases).Sound := by
  intro other chain hfound
  cases hfound

theorem find_graph (h : Hierarchy) (names : List String) : (h.find names).2.graph = h.graph := by
  fun_induction find h names with
  | case1 => rfl
  | case2 h name rest _ ih => exact ih
  | case3 h name rest _ chain _ ih => exact ih
  | case4 => rfl

-- Beside a pass that starts with nothing: both meet the same fault, or none, and what is known afterwards is right.
theorem find_spec {known : List (String × List String)} {seen names : List String} (hs : h.Sound)
    (hh : ∀ name ∈ seen, ∃ chain, h.known.lookup name = some chain) (hk : h.graph.Known known seen)
    (hf : h.graph.BasesFirst seen names) :
    (h.find names).1 = (h.graph.ordersFrom known names).map (fun _ => ()) ∧ (h.find names).2.Sound ∧
      ((h.find names).1 = .ok () →
        ∀ name ∈ names ++ seen, ∃ chain, (h.find names).2.known.lookup name = some chain) := by
  induction names generalizing h known seen with
  | nil => exact ⟨rfl, hs, fun _ => hh⟩
  | cons name rest ih =>
      obtain ⟨hhas, hbases, hrest⟩ := hf
      have hmore (next : Hierarchy) : (∀ k ∈ rest ++ name :: seen, ∃ chain, next.known.lookup k = some chain) ↔
          ∀ k ∈ name :: rest ++ seen, ∃ chain, next.known.lookup k = some chain := by
        simp only [List.mem_append, List.mem_cons, or_left_comm, List.cons_append]
      rw [find, Graph.ordersFrom]
      split
      · rename_i hsome
        obtain ⟨chain, hchain⟩ := Option.isSome_iff_exists.mp hsome
        have hordered := hs name chain hchain
        rw [(Graph.orderWith_eq_ok_iff hk hhas hbases).mpr hordered, ← hmore]
        exact ih hs (List.forall_mem_cons.mpr ⟨⟨chain, hchain⟩, hh⟩) (hk.cons hordered) hrest
      · have hnow : h.graph.Known h.known seen := ⟨hs, hh⟩
        rw [← Graph.orderWith_congr hnow hk hbases]
        cases ho : h.graph.orderWith h.known name with
        | error e => exact ⟨rfl, hs, fun hok => by cases hok⟩
        | ok chain =>
            have hordered := (Graph.orderWith_eq_ok_iff hnow hhas hbases).mp ho
            have hnext := hnow.cons hordered
            rw [← hmore]
            exact ih (h := { h with known := (name, chain) :: h.known }) hnext.sound hnext.complete
              (hk.cons hordered) hrest

theorem linearize_graph (h : Hierarchy) (name : String) : (h.linearize name).2.graph = h.graph := by
  unfold linearize
  split
  · rfl
  · exact find_graph h _

-- An order is the one that the graph alone gives, and asking for it leaves only orders of the graph behind.
theorem linearize_spec (hs : h.Sound) (name : String) :
    (h.linearize name).1 = h.graph.linearize name ∧ (h.linearize name).2.Sound := by
  rw [linearize, Graph.linearize]
  cases ha : h.graph.ancestors name with
  | error e => exact ⟨rfl, hs⟩
  | ok names =>
      have hvisited : h.graph.Visited [] [name] names := Graph.visit_visited (by trivial) ha
      obtain ⟨hsame, hsound, hfound⟩ := find_spec hs (by simp) Graph.known_nil hvisited.basesFirst
      refine ⟨?_, hsound⟩
      cases ho : h.graph.ordersFrom [] names with
      | error e =>
          rw [ho] at hsame
          simp [hsame, ho, bind, Except.bind, Except.map]
      | ok orders =>
          rw [ho] at hsame
          have hknown := Graph.ordersFrom_known Graph.known_nil hvisited.basesFirst ho
          have hmem : name ∈ names := hvisited.found (List.mem_singleton.mpr rfl)
          obtain ⟨chain, hchain⟩ := hfound hsame name (by simpa using hmem)
          have hchain' := hsound name chain hchain
          rw [find_graph] at hchain'
          have horder : (orders.lookup name).getD [] = chain :=
            (hknown.ordered_getD (by simpa using hmem)).unique hchain'
          simp [hsame, hchain, ho, horder, bind, Except.bind, Except.map, pure, Except.pure]

theorem linearizeEach_spec (hs : h.Sound) (names : List String) :
    (h.linearizeEach names).2.Sound ∧ (h.linearizeEach names).2.graph = h.graph := by
  induction names generalizing h with
  | nil => exact ⟨hs, rfl⟩
  | cons name rest ih =>
      obtain ⟨-, hsound⟩ := linearize_spec hs name
      have hgraph := linearize_graph h name
      rw [linearizeEach]
      split
      · rename_i e next hnext
        rw [hnext] at hsound hgraph
        exact ⟨hsound, hgraph⟩
      · rename_i chain next hnext
        rw [hnext] at hsound hgraph
        exact hgraph ▸ ih hsound

theorem after_sound (hs : h.Sound) (request : Request) : (h.after request).Sound := by
  cases request with
  | add name bases => exact sound_add h name bases
  | linearize name => exact (linearize_spec hs name).2
  | linearizeAll => exact (linearizeEach_spec hs _).1

theorem graph_after (hs : h.Sound) (request : Request) :
    (h.after request).graph =
      match request with
      | .add name bases => h.graph.add name bases
      | _ => h.graph := by
  cases request with
  | add name bases => rfl
  | linearize name => exact linearize_graph h name
  | linearizeAll => exact (linearizeEach_spec hs _).2

-- What requests leave behind: orders of the graph, the last base lists, and the classes as they came.
structure History (requests : List Request) (h : Hierarchy) : Prop where
  sound : h.Sound
  bases : ∀ name, h.graph.entries.lookup name = lastBases requests name
  classes : h.graph.classes = (requests.filterMap Request.registers).eraseDups

theorem history_run (requests : List Request) : History requests (run requests) := by
  induction requests using List.reverseRecOn with
  | nil => exact ⟨fun _ _ hfound => (by cases hfound), fun _ => rfl, rfl⟩
  | append_singleton requests request ih =>
      rw [run, List.foldl_concat]
      change History _ ((run requests).after request)
      refine ⟨after_sound ih.sound request, fun name => ?_, ?_⟩
      · rw [graph_after ih.sound, lastBases, List.reverse_append, List.reverse_singleton, List.singleton_append,
          List.findSome?_cons]
        cases request with
        | add other bases =>
            rw [Graph.lookup_add, ih.bases]
            by_cases heq : name = other
            · simp [heq]
            · simp [heq, Ne.symm heq, lastBases]
        | linearize _ => exact ih.bases name
        | linearizeAll => exact ih.bases name
      · rw [graph_after ih.sound, List.filterMap_append]
        cases request with
        | add other bases =>
            have hclasses := ih.classes
            rw [Graph.classes_add]
            change _ = (_ ++ [other]).eraseDups
            generalize requests.filterMap Request.registers = names at hclasses ⊢
            rw [hclasses, List.eraseDups_append]
            by_cases hmem : other ∈ names <;> simp [List.removeAll, hmem, List.eraseDups_cons]
        | linearize _ =>
            change _ = (_ ++ []).eraseDups
            rw [List.append_nil, ih.classes]
        | linearizeAll =>
            change _ = (_ ++ []).eraseDups
            rw [List.append_nil, ih.classes]

-- Registrations of each class with the base list that it ended with.
def Final (requests : List Request) (registrations : List (String × List String)) : Prop :=
  ∀ name bases, (name, bases) ∈ registrations ↔ lastBases requests name = some bases

def ofRegistrations (registrations : List (String × List String)) : Hierarchy :=
  run (registrations.map fun e => .add e.1 e.2)

theorem lastBases_eq_of_final {requests : List Request} {registrations : List (String × List String)}
    (hfinal : Final requests registrations) (name : String) :
    lastBases (registrations.map fun e => .add e.1 e.2) name = lastBases requests name := by
  have hmem (bases : List String) (h : lastBases (registrations.map fun e => .add e.1 e.2) name = some bases) :
      (name, bases) ∈ registrations := by
    obtain ⟨request, hrequest, hbases⟩ := List.exists_of_findSome?_eq_some h
    obtain ⟨e, he, rfl⟩ := List.mem_map.mp (List.mem_reverse.mp hrequest)
    by_cases hname : e.1 = name
    · obtain rfl : e.2 = bases := by simpa [hname] using hbases
      exact hname ▸ he
    · simp [hname] at hbases
  cases hlast : lastBases (registrations.map fun e => .add e.1 e.2) name with
  | some bases => exact ((hfinal name bases).mp (hmem bases hlast)).symm
  | none =>
      cases hother : lastBases requests name with
      | none => rfl
      | some bases =>
          have hregistered := (hfinal name bases).mpr hother
          have hnone := List.findSome?_eq_none_iff.mp hlast (.add name bases)
            (List.mem_reverse.mpr (List.mem_map_of_mem hregistered))
          simp at hnone

-- Whatever was asked before, a class has the order, or the fault, that it has in a new hierarchy with the base lists
-- that the classes ended with, registered in any order; and the classes are listed once each, as they first came.
theorem linearize_independent {requests : List Request} {registrations : List (String × List String)}
    (hfinal : Final requests registrations) (name : String) :
    ((run requests).linearize name).1 = ((ofRegistrations registrations).linearize name).1 ∧
      (run requests).graph.classes = (requests.filterMap Request.registers).eraseDups := by
  have hrun := history_run requests
  have hfresh := history_run (registrations.map fun e => .add e.1 e.2)
  have hagree : (run requests).graph.Agree (ofRegistrations registrations).graph := fun other =>
    (hrun.bases other).trans ((lastBases_eq_of_final hfinal other).symm.trans (hfresh.bases other).symm)
  refine ⟨?_, hrun.classes⟩
  exact (linearize_spec hrun.sound name).1.trans
    ((hagree.linearize name).trans (linearize_spec hfresh.sound name).1.symm)

-- A class gets an order and then other bases, and an unknown class is asked for in between.
def reordered : List Request :=
  [.add "O" [], .add "A" ["O"], .add "B" ["A"], .linearize "B", .linearize "C", .linearizeAll, .add "A" []]

def settled : List (String × List String) := [("B", ["A"]), ("A", []), ("O", [])]

theorem final_reordered : Final reordered settled := by
  intro name bases
  by_cases ha : name = "A"
  · subst ha
    simp [lastBases, reordered, settled, eq_comm]
  · by_cases hb : name = "B"
    · subst hb
      simp [lastBases, reordered, settled, eq_comm]
    · by_cases ho : name = "O"
      · subst ho
        simp [lastBases, reordered, settled, eq_comm]
      · simp [lastBases, reordered, settled, ha, hb, ho, Ne.symm ha, Ne.symm hb, Ne.symm ho]

theorem linearize_independent_reordered :
    Final reordered settled ∧
      ((run reordered).linearize "B").1 = ((ofRegistrations settled).linearize "B").1 ∧
      (run reordered).graph.classes = ["O", "A", "B"] := by
  obtain ⟨hsame, hclasses⟩ := linearize_independent final_reordered "B"
  exact ⟨final_reordered, hsame, hclasses.trans (by decide)⟩

end Hierarchy

end RustContracts.Inheritance
