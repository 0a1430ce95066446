import Mathlib.Data.List.Perm.Subperm
import RustContracts.Proofs.Emit.Emitted

-- The queue of helpers: each helper is written once, and in the end there is none left.
namespace RustContracts.Emit

open Program

variable {E : Env} {s s' : State}

-- Entries of the dispatch table.

def entryConvention (E : Env) (f : Function) : Convention :=
  ⟨f.name, isMessage f.toSignature, E.contract.needsCaller f.toSignature, declaredTypes f f.primary?⟩

theorem emitted_dispatched (hE : Sourced E) {fs : List Function} (hfs : ∀ f ∈ fs, f ∈ E.contract.dispatch)
    {written : List Rust.Function × List Rust.Function} (hw : Writes (dispatched fs) E s written s') :
    Growth E s s' ∧ ∃ gs : List Rust.Function,
      written = (gs.filter (·.isPublic), gs.filter (!·.isPublic)) ∧
      ∀ K, s'.helperNames ⊆ K → List.Forall₂ (fun f => Emitted E K (entryConvention E f)) fs gs := by
  induction fs generalizing s s' written with
  | nil =>
      obtain ⟨rfl, rfl⟩ := writes_pure.mp hw
      exact ⟨.refl s, [], rfl, fun _ _ => .nil⟩
  | cons f rest ih =>
      obtain ⟨hf, hrest⟩ := List.forall_mem_cons.mp hfs
      rw [dispatched] at hw
      obtain ⟨r, s₁, hr, hw⟩ := writes_bind.mp hw
      obtain ⟨g, s₂, hg, hw⟩ := writes_bind.mp hw
      obtain ⟨⟨entries, helpers⟩, s₃, hmore, hw⟩ := writes_bind.mp hw
      obtain ⟨rfl, rfl⟩ := writes_pure.mp hw
      have hdescribes : Describes E (entryConvention E f) r := by
        have h := describes_functionRoutine hr
        have hentry : (if isMessage f.toSignature then some f.toSignature else none : Option Signature).isSome =
            isMessage f.toSignature := by
          split <;> simp_all
        rw [hentry] at h
        exact h
      have hgrowth : Growth E s s₁ := Links.growth (fun _ _ => links_functionRoutine _ _ _ _) hr
      obtain ⟨hgrowth', hemitted⟩ := emitted_function hE
        (fun i hi => (hE.entries f hf i (mem_of_primary? hi)).1) hdescribes hg
      obtain ⟨hgrowth'', gs, heq, hgs⟩ := ih hrest hmore
      obtain ⟨rfl, rfl⟩ := Prod.mk.inj heq
      refine ⟨hgrowth.trans (hgrowth'.trans hgrowth''), g :: gs, ?_, fun K hK => ?_⟩
      · have hpublic : g.isPublic = r.isExposed :=
          (hemitted _ (List.Subset.refl _)).declares.isPublic.trans hdescribes.exposed.symm
        cases hexposed : r.isExposed <;> simp [hpublic, hexposed]
      · exact .cons (hemitted K (List.Subset.trans hgrowth''.subset hK)) (hgs K hK)

-- Helpers.

def Helper.convention (E : Env) (h : Helper) : Convention :=
  ⟨h.name, false, !h.isLibrary && E.contract.needsCaller h.function.toSignature,
    declaredTypes h.function h.implementation⟩

theorem emitted_helper (hE : Sourced E) {key : String} {h : Helper} (hasked : Asked E key h) {g : Rust.Function}
    (hw : Writes (helper h) E s g s') :
    Growth E s s' ∧ ∀ K, s'.helperNames ⊆ K → Emitted E K (h.convention E) g := by
  unfold helper at hw
  cases hasked with
  | @implementation f impl hf himpl _ =>
      obtain ⟨r, s₁, hr, hw⟩ := writes_bind.mp hw
      have hgrowth : Growth E s s₁ := Links.growth (fun _ _ => links_functionRoutine _ _ _ _) hr
      obtain ⟨hgrowth', hemitted⟩ := emitted_function hE
        (fun i hi => by cases hi; exact (hE.entries f hf _ himpl).1) (describes_functionRoutine hr) hw
      exact ⟨hgrowth.trans hgrowth', hemitted⟩
  | @library start library owner sig args hcall =>
      obtain ⟨k, hk, -, hf⟩ := (hE.libraries _ _ _ _ _ hcall).declared
      generalize functionIn E.package owner sig = f at hf hw ⊢
      obtain ⟨r, s₁, hr, hw⟩ := writes_bind.mp hw
      have hgrowth : Growth E s s₁ := Links.growth (fun _ _ => links_libraryRoutine _ _) hr
      have hcode : ∀ i ∈ f.primary?, ∀ e ∈ i.exprs, e.From E.package := fun i hi e he =>
        Package.from_class hk (ContractDecl.mem_exprs (by simp [hf]) (mem_of_primary? hi) he)
      obtain ⟨hgrowth', hemitted⟩ := emitted_function hE hcode (describes_libraryRoutine hr) hw
      exact ⟨hgrowth.trans hgrowth', hemitted⟩

-- Everything that has been asked for, with the helpers that have been taken from the queue.
structure Agenda (E : Env) (asked : List (String × Helper)) (taken : List Helper) (s : State) : Prop where
  queue : asked.map Prod.snd = taken ++ s.queue
  names : s.helperNames = (asked.map fun kh => (kh.1, kh.2.name)).reverse
  keys_nodup : (asked.map Prod.fst).Nodup
  asked : ∀ kh ∈ asked, Asked E kh.1 kh.2

variable {asked : List (String × Helper)} {taken : List Helper}

theorem Agenda.grow (h : Agenda E asked taken s) (hgrowth : Growth E s s') :
    ∃ new, Agenda E (asked ++ new) taken s' := by
  obtain ⟨new, hqueue, hnames, hnodup, hfresh, hasked⟩ := hgrowth
  refine ⟨new, ?_, ?_, ?_, List.forall_mem_append.mpr ⟨h.asked, hasked⟩⟩
  · rw [List.map_append, h.queue, hqueue, List.append_assoc]
  · rw [hnames, h.names, List.map_append, List.reverse_append]
  · rw [List.map_append, List.nodup_append]
    refine ⟨h.keys_nodup, hnodup, ?_⟩
    intro key hkey key' hkey' heq
    obtain ⟨kh, hkh, rfl⟩ := List.mem_map.mp hkey'
    refine hfresh kh hkh ?_
    rw [h.names, ← heq]
    simpa using hkey

theorem Agenda.start : Agenda E [] [] {} := ⟨rfl, rfl, by simp, by simp⟩

theorem outcome_nextHelper? : outcome nextHelper? E s = (.ok s.queue.head?, { s with queue := s.queue.tail }) := by
  obtain ⟨imports, interfaces, queue, names, frame⟩ := s
  cases queue <;> rfl

-- Writing helpers from the queue, which may ask for more of them.
theorem drainHelpers_agenda (hE : Sourced E) {count : Nat} {gs : List Rust.Function} (h : Agenda E asked taken s)
    (hw : Writes (drainHelpers count) E s gs s') :
    ∃ new written, Agenda E (asked ++ new) (taken ++ written) s' ∧ (s'.queue = [] ∨ written.length = count) ∧
      ∀ K, s'.helperNames ⊆ K → List.Forall₂ (fun h => Emitted E K (h.convention E)) written gs := by
  induction count generalizing s asked taken gs with
  | zero =>
      obtain ⟨rfl, rfl⟩ := writes_pure.mp hw
      exact ⟨[], [], by simpa using h, .inr rfl, fun _ _ => .nil⟩
  | succ count ih =>
      rw [drainHelpers] at hw
      obtain ⟨next, s₁, hnext, hw⟩ := writes_bind.mp hw
      rw [Writes, outcome_nextHelper?] at hnext
      cases hnext
      have hqueue := h.queue
      rcases hq : s.queue with _ | ⟨first, rest⟩
      · rw [hq] at hw hqueue
        obtain ⟨rfl, rfl⟩ := writes_pure.mp hw
        have hempty : Agenda E asked taken { s with queue := [] } := ⟨hqueue, h.names, h.keys_nodup, h.asked⟩
        exact ⟨[], [], by simpa using hempty, .inl rfl, fun _ _ => .nil⟩
      · rw [hq] at hw hqueue
        obtain ⟨g, s₂, hg, hw⟩ := writes_bind.mp hw
        obtain ⟨more, s₃, hmore, hw⟩ := writes_bind.mp hw
        obtain ⟨rfl, rfl⟩ := writes_pure.mp hw
        obtain ⟨⟨key, helper⟩, hmem, heq⟩ : ∃ kh ∈ asked, kh.2 = first := by
          rw [← List.mem_map, hqueue]
          simp
        cases heq
        have htaken : Agenda E asked (taken ++ [helper]) { s with queue := rest } :=
          ⟨by simpa using hqueue, h.names, h.keys_nodup, h.asked⟩
        obtain ⟨hgrowth, hemitted⟩ := emitted_helper hE (h.asked _ hmem) hg
        obtain ⟨new, hagenda⟩ := htaken.grow hgrowth
        obtain ⟨new', written, hagenda', hdone, hwritten⟩ := ih hagenda hmore
        refine ⟨new ++ new', helper :: written, by simpa using hagenda', by simpa using hdone, fun K hK => ?_⟩
        refine .cons (hemitted K (fun name hname => hK ?_)) (hwritten K hK)
        rw [hagenda.names] at hname
        rw [hagenda'.names]
        simp_all

-- The keys that can be asked for: one for each implementation, and for each pair of a library and a function.
def askedKeys (p : Package) (c : Contract) : List String :=
  (c.dispatch.flatMap fun f => f.implementations.map (implementationKey f)) ++
    p.classes.flatMap fun l => (p.classes.flatMap fun k => k.functions).map (libraryKey l.name)

theorem length_askedKeys (p : Package) (c : Contract) : (askedKeys p c).length = helperBound p c := by
  simp [askedKeys, helperBound, List.length_flatMap]

theorem Asked.mem_askedKeys (hE : Sourced E) {key : String} {h : Helper} (hasked : Asked E key h) :
    key ∈ askedKeys E.package E.contract := by
  cases hasked with
  | implementation hf himpl _ =>
      exact List.mem_append_left _ (List.mem_flatMap.mpr ⟨_, hf, List.mem_map_of_mem himpl⟩)
  | library hcall =>
      have hnames := hE.libraries _ _ _ _ _ hcall
      obtain ⟨l, hl, rfl⟩ := hnames.called
      obtain ⟨k, hk, -, hf⟩ := hnames.declared
      refine List.mem_append_right _ (List.mem_flatMap.mpr ⟨l, hl, List.mem_map_of_mem ?_⟩)
      exact List.mem_flatMap.mpr ⟨k, hk, hf⟩

theorem Agenda.length_le (hE : Sourced E) (h : Agenda E asked taken s) :
    asked.length ≤ helperBound E.package E.contract := by
  have hsubset : asked.map Prod.fst ⊆ askedKeys E.package E.contract := by
    intro key hkey
    obtain ⟨kh, hkh, rfl⟩ := List.mem_map.mp hkey
    exact (h.asked kh hkh).mem_askedKeys hE
  calc asked.length = (asked.map Prod.fst).length := (List.length_map _).symm
    _ ≤ (askedKeys E.package E.contract).length := (h.keys_nodup.subperm hsubset).length_le
    _ = helperBound E.package E.contract := length_askedKeys _ _

-- As many helpers as there are keys are enough: the queue is empty behind them, and what has been asked for is what has
-- been written.
theorem drained (hE : Sourced E) {gs : List Rust.Function} (h : Agenda E asked [] s)
    (hw : Writes (drainHelpers (helperBound E.package E.contract)) E s gs s') :
    ∃ new, Agenda E (asked ++ new) ((asked ++ new).map Prod.snd) s' ∧ s'.queue = [] ∧
      ∀ K, s'.helperNames ⊆ K →
        List.Forall₂ (fun kh => Emitted E K (kh.2.convention E)) (asked ++ new) gs := by
  obtain ⟨new, written, hagenda, hdone, hwritten⟩ := drainHelpers_agenda hE h hw
  have hqueue := hagenda.queue
  have hempty : s'.queue = [] := by
    refine hdone.elim id fun hlength => List.length_eq_zero_iff.mp ?_
    have hle := hagenda.length_le hE
    have heq := congrArg List.length hqueue
    simp only [List.length_map, List.length_append, List.length_nil] at heq hle
    omega
  rw [hempty, List.append_nil, List.nil_append] at hqueue
  refine ⟨new, ?_, hempty, fun K hK => ?_⟩
  · rwa [hqueue, ← List.nil_append written]
  · have hforall := hwritten K hK
    rwa [← hqueue, List.forall₂_map_left_iff] at hforall

end RustContracts.Emit
