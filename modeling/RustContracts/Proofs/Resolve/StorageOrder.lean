import Mathlib
import RustContracts.Proofs.Resolve.PackageCode

-- The storage of a class: the fields of its hierarchy, those of a base before those of what derives from it, in the
-- order that every class below keeps.
namespace RustContracts.Resolve

open Program Relation

variable {p : Package} {c k A B : Contract} {name : String} {unit : Solidity.SourceUnit}

-- A class of the package names another among its bases.
def Names (p : Package) (derived base : String) : Prop := ∃ k ∈ p.classes, k.name = derived ∧ base ∈ k.bases

def Derives (p : Package) : String → String → Prop := TransGen (Names p)

namespace PackageCode

theorem extends_iff (h : PackageCode p) {graph : Inheritance.Graph}
    (hgraph : ∀ c ∈ p.classes, graph.linearize c.name = .ok c.chain ∧ graph.bases c.name = c.bases.reverse)
    (hc : c ∈ p.classes) {base : String} : graph.Extends c.name base ↔ Names p c.name base := by
  rw [Inheritance.Graph.Extends, (hgraph c hc).2, List.mem_reverse]
  constructor
  · exact fun hbase => ⟨c, hc, rfl, hbase⟩
  · rintro ⟨k, hk, hname, hbase⟩
    rwa [List.inj_on_of_nodup_map h.names_nodup hk hc hname] at hbase

theorem reaches_iff (h : PackageCode p) (hchain : ∀ c ∈ p.classes, (p.chainOf c).map (·.name) = c.chain)
    {graph : Inheritance.Graph}
    (hgraph : ∀ c ∈ p.classes, graph.linearize c.name = .ok c.chain ∧ graph.bases c.name = c.bases.reverse)
    (hc : c ∈ p.classes) {base : String} : graph.Reaches c.name base ↔ ReflTransGen (Names p) c.name base := by
  have hordered := Inheritance.Graph.linearize_eq_ok_iff.mp (hgraph c hc).1
  have hclass {k : String} (hk : graph.Reaches c.name k) : ∃ b ∈ p.classes, b.name = k := by
    rw [← hordered.mem_iff, ← hchain c hc] at hk
    obtain ⟨b, hb, rfl⟩ := List.mem_map.mp hk
    exact ⟨b, (h.mem_chainOf_iff.mp hb).1, rfl⟩
  constructor
  · intro hreach
    induction hreach with
    | refl => exact .refl
    | tail hreach hstep ih =>
        obtain ⟨b, hb, rfl⟩ := hclass hreach
        exact ih.tail ((h.extends_iff hgraph hb).mp hstep)
  · intro hreach
    induction hreach with
    | refl => exact .refl
    | tail _ hstep ih =>
        obtain ⟨b, hb, rfl⟩ := hclass ih
        exact ReflTransGen.tail ih ((h.extends_iff hgraph hb).mpr hstep)

-- The chain of a class is what it derives from, and never the class itself.
theorem mem_chain_iff (h : PackageCode p) (hchain : ∀ c ∈ p.classes, (p.chainOf c).map (·.name) = c.chain)
    (hc : c ∈ p.classes) {base : String} : base ∈ c.chain ↔ base = c.name ∨ Derives p c.name base := by
  obtain ⟨graph, hgraph⟩ := h.ordered
  have hordered := Inheritance.Graph.linearize_eq_ok_iff.mp (hgraph c hc).1
  rw [hordered.mem_iff, h.reaches_iff hchain hgraph hc, reflTransGen_iff_eq_or_transGen, Derives]

theorem not_derives_self (h : PackageCode p) (hchain : ∀ c ∈ p.classes, (p.chainOf c).map (·.name) = c.chain)
    (hc : c ∈ p.classes) : ¬Derives p c.name c.name := by
  obtain ⟨graph, hgraph⟩ := h.ordered
  have hordered := Inheritance.Graph.linearize_eq_ok_iff.mp (hgraph c hc).1
  intro hderives
  obtain ⟨base, hreach, hstep⟩ := TransGen.tail'_iff.mp hderives
  have hreach' := (h.reaches_iff hchain hgraph hc).mpr hreach
  have hmem : base ∈ c.chain := (hordered.mem_iff base).mpr hreach'
  rw [← hchain c hc] at hmem
  obtain ⟨b, hb, rfl⟩ := List.mem_map.mp hmem
  have hextends := (h.extends_iff hgraph (h.mem_chainOf_iff.mp hb).1).mpr hstep
  exact hordered.founded.irreflexive (TransGen.tail' hreach' hextends)

end PackageCode

-- The storage of a package's classes is that of their chains.
theorem storage_of_package (hp : package name unit = .ok p) (hc : c ∈ p.classes) :
    c.storage = (p.baseFirst c).flatMap (·.fields) := by
  obtain ⟨o, hs, hclasses⟩ := package_classes hp
  obtain ⟨c, hmem, rfl⟩ := List.mem_map.mp (hclasses ▸ hc)
  rw [finished_storage, Package.baseFirst, chainOf_finished hclasses, ← List.map_reverse, List.flatMap_map]
  exact List.flatMap_congr fun k _ => by rw [finished_toContractDecl]

-- Of two members of a list one stands before the other.
theorem sublist_of_mem {α : Type} {xs : List α} {a b : α} (ha : a ∈ xs) (hb : b ∈ xs) (hne : a ≠ b) :
    [a, b].Sublist xs ∨ [b, a].Sublist xs := by
  obtain ⟨front, rest, rfl⟩ := List.append_of_mem ha
  rcases List.mem_append.mp hb with hb | hb
  · exact .inr ((List.singleton_sublist.mpr hb).append (List.singleton_sublist.mpr List.mem_cons_self))
  · have hrest : b ∈ rest := (List.mem_cons.mp hb).resolve_left (Ne.symm hne)
    exact .inl (((List.singleton_sublist.mpr hrest).cons_cons a).trans (List.sublist_append_right front _))

theorem flatMap_split {α β : Type} {xs : List α} {a b : α} (h : [a, b].Sublist xs) (f : α → List β) :
    ∃ front mid back, xs.flatMap f = front ++ f a ++ mid ++ f b ++ back := by
  obtain ⟨before, after, rfl, ha, hb⟩ := List.cons_sublist_iff.mp h
  obtain ⟨front, mid, rfl⟩ := List.append_of_mem ha
  obtain ⟨mid', back, rfl⟩ := List.append_of_mem (List.singleton_sublist.mp hb)
  exact ⟨front.flatMap f, mid.flatMap f ++ mid'.flatMap f, back.flatMap f, by simp⟩

theorem baseFirst_sublist (hcode : PackageCode p) (hc : c ∈ p.classes) (ha : A ∈ p.chainOf c) (hb : B ∈ p.chainOf c)
    (hne : A ≠ B) (hinherits : A.name ∈ B.chain) : [A, B].Sublist (p.baseFirst c) := by
  rw [Package.baseFirst, ← List.reverse_reverse [A, B], List.reverse_sublist]
  refine (sublist_of_mem hb ha (Ne.symm hne)).resolve_right fun hab => ?_
  exact List.rel_of_pairwise_cons ((hcode.pairwise_chainOf hc).sublist hab) (List.mem_singleton.mpr rfl) hinherits

-- The storage of a class lists the fields of what it derives from, and its own, each once: those of one class together
-- and as they are declared, those of a base before those of what derives from it; and what a class has in storage
-- stands in the same order in the storage of every class that derives from it.
theorem storage_stable {D : Contract} (hp : package name unit = .ok p) (hD : D ∈ p.classes) :
    (∀ k ∈ p.classes, k ∈ p.chainOf D ↔ k.name = D.name ∨ Derives p D.name k.name) ∧ (p.chainOf D).Nodup ∧
      D.storage = (p.baseFirst D).flatMap (·.fields) ∧
      (∀ A ∈ p.chainOf D, ∀ B ∈ p.chainOf D, Derives p B.name A.name →
        ∃ front mid back, D.storage = front ++ A.fields ++ mid ++ B.fields ++ back) ∧
      ∀ B ∈ p.chainOf D, B.storage.Sublist D.storage := by
  have hcode := package_code hp
  have hchain : ∀ c ∈ p.classes, (p.chainOf c).map (·.name) = c.chain := fun c hc =>
    (dispatch_gathers_declarations hp hc).1
  have hstorage := storage_of_package hp hD
  refine ⟨fun k hk => ?_, ?_, hstorage, fun A hA B hB hderives => ?_, fun B hB => ?_⟩
  · rw [hcode.mem_chainOf_iff, ← hcode.mem_chain_iff hchain hD]
    exact and_iff_right hk
  · exact List.Nodup.of_map (·.name) (hchain D hD ▸ hcode.chain_nodup hD)
  · have hclass := (hcode.mem_chainOf_iff.mp hB).1
    have hinherits : A.name ∈ B.chain := (hcode.mem_chain_iff hchain hclass).mpr (.inr hderives)
    have hne : A ≠ B := by
      rintro rfl
      exact hcode.not_derives_self hchain hclass hderives
    rw [hstorage]
    exact flatMap_split (baseFirst_sublist hcode hD hA hB hne hinherits) _
  · have hclass := (hcode.mem_chainOf_iff.mp hB).1
    rw [hstorage, storage_of_package hp hclass]
    exact (((hcode.chain_sublist hD hB).filterMap p.class?).reverse).flatMap _

-- Two classes share a base, and a third derives from both.
def hierarchy : Solidity.SourceUnit :=
  let field (name : String) : Solidity.ContractPart := .variable default ⟨default, plainType "bool", [], name, none⟩
  ⟨default, [plainContract "Base" false [] [field "a"], plainContract "Left" false ["Base"] [field "b"],
    plainContract "Right" false ["Base"] [field "c"], plainContract "Top" false ["Left", "Right"] [field "d"]]⟩

def layout (c : Contract) : String × List String × List String := (c.name, c.chain, c.storage.map (·.sourceName))

theorem storage_stable_hierarchy : ∃ p D B, package "sample" hierarchy = .ok p ∧ D ∈ p.classes ∧
    layout D = ("Top", ["Top", "Right", "Left", "Base"], ["a", "b", "c", "d"]) ∧ B ∈ p.chainOf D ∧
    layout B = ("Right", ["Right", "Base"], ["a", "c"]) ∧ B.storage.Sublist D.storage := by
  have hlayouts : (package "sample" hierarchy).toOption.map (fun p => p.classes.map layout) =
      some [("Base", ["Base"], ["a"]), ("Left", ["Left", "Base"], ["a", "b"]), ("Right", ["Right", "Base"], ["a", "c"]),
        ("Top", ["Top", "Right", "Left", "Base"], ["a", "b", "c", "d"])] := by cbv
  cases hp : package "sample" hierarchy with
  | error e =>
      rw [hp] at hlayouts
      cases hlayouts
  | ok p =>
      rw [hp] at hlayouts
      have hmaps : p.classes.map layout = _ := Option.some.inj hlayouts
      have hlaid {l : String × List String × List String} (hl : l ∈ p.classes.map layout) :
          ∃ c ∈ p.classes, layout c = l := List.mem_map.mp hl
      rw [hmaps] at hlaid
      obtain ⟨D, hD, htop⟩ := hlaid (List.mem_of_getElem? (i := 3) rfl)
      obtain ⟨B, hB, hright⟩ := hlaid (List.mem_of_getElem? (i := 2) rfl)
      have hname : B.name = "Right" := congrArg Prod.fst hright
      have hchain : D.chain = ["Top", "Right", "Left", "Base"] := congrArg (·.2.1) htop
      have hmem : B ∈ p.chainOf D := (package_code hp).mem_chainOf_iff.mpr ⟨hB, by simp [hname, hchain]⟩
      obtain ⟨-, -, -, -, hsublist⟩ := storage_stable hp hD
      exact ⟨p, D, B, rfl, hD, htop, hmem, hright, hsublist B hmem⟩

end RustContracts.Resolve
