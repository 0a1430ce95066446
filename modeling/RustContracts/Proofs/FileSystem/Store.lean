import RustContracts.FileSystem.Project
import RustContracts.Proofs.FileSystem.Path

-- What writing into a file system leaves as it is: making the directories that lead to a file adds these and nothing else.

-- Tables as lists of keys and values: what is found once a key has been erased or given a value.
namespace RustContracts.Table

variable {K V : Type} [BEq K] [LawfulBEq K]

theorem lookup_erase [DecidableEq K] (entries : List (K × V)) (key other : K) :
    (entries.filter (·.1 != key)).lookup other = if other = key then none else entries.lookup other := by
  induction entries with
  | nil => simp
  | cons entry entries ih =>
      obtain ⟨first, v⟩ := entry
      by_cases hfirst : first = key
      · subst hfirst
        rw [List.filter_cons_of_neg (by simp), ih, List.lookup_cons]
        by_cases hother : other = first
        · rw [if_pos hother, if_pos hother]
        · rw [if_neg hother, if_neg hother, beq_eq_false_iff_ne.mpr hother]
      · rw [List.filter_cons_of_pos (by simpa using hfirst), List.lookup_cons, List.lookup_cons, ih]
        by_cases hother : other = first
        · simp [hother, hfirst]
        · simp [beq_eq_false_iff_ne.mpr hother]

theorem lookup_put [DecidableEq K] (entries : List (K × V)) (key other : K) (v : V) :
    ((key, v) :: entries.filter (·.1 != key)).lookup other = if other = key then some v else entries.lookup other := by
  rw [List.lookup_cons, lookup_erase]
  by_cases hother : other = key
  · simp [hother]
  · rw [if_neg hother, if_neg hother, beq_eq_false_iff_ne.mpr hother]

end RustContracts.Table

namespace RustContracts.FileSystem

open Text.Path

variable {fs mid after : FileSystem} {place within q dir front : List String} {path lead text : String}

-- Where the parts of a path are followed from.
def start (fs : FileSystem) (path : String) : List String := if isRooted path then [] else fs.workingDir

-- A place is a directory, and so is everything that leads to it.
def Standing (fs : FileSystem) (place : List String) : Prop := ∀ dir, dir <+: place → fs.entry? dir = some .directory

theorem entry?_put (fs : FileSystem) (place q : List String) (e : Entry) :
    entry? (fs.put place e) q = if q = place ∧ q ≠ [] then some e else fs.entry? q := by
  unfold entry? put
  by_cases hq : q = []
  · simp [hq]
  · rw [if_neg hq, if_neg hq, Table.lookup_put]
    simp [hq]

theorem standing_nil (fs : FileSystem) : fs.Standing [] := fun dir h => by
  rw [List.prefix_nil.mp h]
  rfl

theorem Standing.of_prefix (h : fs.Standing place) (hdir : dir <+: place) : fs.Standing dir :=
  fun other hother => h other (hother.trans hdir)

theorem Standing.concat (h : fs.Standing place) {name : String} (hname : fs.entry? (place ++ [name]) = some .directory) :
    fs.Standing (place ++ [name]) := by
  intro dir hdir
  cases List.prefix_concat_iff.mp hdir with
  | inl heq => exact heq ▸ hname
  | inr hprefix => exact h dir hprefix

-- Following parts.

theorem walk_eq_ok {parts : List String} (h : fs.walk place parts = .ok q) : q = land place parts := by
  fun_induction walk fs place parts with
  | case1 place => exact (Except.ok.inj h).symm
  | case2 place part rest hskip ih =>
      rw [land, if_pos hskip]
      exact ih h
  | case3 place rest hskip ih =>
      rw [land, if_neg hskip, if_pos rfl]
      exact ih h
  | case4 => cases h
  | case5 place part rest hskip hup _ next hlast =>
      obtain rfl : rest = [] := List.isEmpty_iff.mp hlast
      rw [land, if_neg hskip, if_neg hup]
      exact (Except.ok.inj h).symm
  | case6 => cases h
  | case7 => cases h
  | case8 place part rest hskip hup _ next _ _ ih =>
      rw [land, if_neg hskip, if_neg hup]
      exact ih h

-- What parts lead to stands, or it is what the last of them names, in a directory.
theorem walk_cases {parts : List String} (hplace : fs.Standing place) (h : fs.walk place parts = .ok q) :
    fs.Standing q ∨ ∃ front name, parts = front ++ [name] ∧ q = land place front ++ [name] ∧
      fs.Standing (land place front) := by
  fun_induction walk fs place parts with
  | case1 place => exact .inl (Except.ok.inj h ▸ hplace)
  | case2 place part rest hskip ih =>
      refine (ih hplace h).imp_right ?_
      rintro ⟨front, name, rfl, hq, hfront⟩
      exact ⟨part :: front, name, rfl, by rwa [land, if_pos hskip], by rwa [land, if_pos hskip]⟩
  | case3 place rest hskip ih =>
      refine (ih (hplace.of_prefix (List.dropLast_prefix place)) h).imp_right ?_
      rintro ⟨front, name, rfl, hq, hfront⟩
      exact ⟨".." :: front, name, rfl, by rwa [land, if_neg hskip, if_pos rfl], by rwa [land, if_neg hskip, if_pos rfl]⟩
  | case4 => cases h
  | case5 place part rest hskip hup _ next hlast =>
      obtain rfl : rest = [] := List.isEmpty_iff.mp hlast
      exact .inr ⟨[], part, rfl, (Except.ok.inj h).symm, hplace⟩
  | case6 => cases h
  | case7 => cases h
  | case8 place part rest hskip hup _ next _ hdir ih =>
      refine (ih (hplace.concat hdir) h).imp_right ?_
      rintro ⟨front, name, rfl, hq, hfront⟩
      exact ⟨part :: front, name, rfl, by rwa [land, if_neg hskip, if_neg hup], by rwa [land, if_neg hskip, if_neg hup]⟩

theorem walk_mono {parts : List String}
    (hdirs : ∀ dir, fs.entry? dir = some .directory → after.entry? dir = some .directory)
    (h : fs.walk place parts = .ok q) : after.walk place parts = .ok q := by
  fun_induction walk fs place parts with
  | case1 place => exact h
  | case2 place part rest hskip ih => rw [walk, if_pos hskip, ih h]
  | case3 place rest hskip ih => rw [walk, if_neg hskip, if_pos rfl, ih h]
  | case4 => cases h
  | case5 place part rest hskip hup hlong next hlast => rw [walk, if_neg hskip, if_neg hup, if_neg hlong, if_pos hlast, h]
  | case6 => cases h
  | case7 => cases h
  | case8 place part rest hskip hup hlong next hlast hdir ih =>
      rw [walk, if_neg hskip, if_neg hup, if_neg hlong, if_neg hlast, hdirs _ hdir]
      exact ih h

theorem walk_of_resolve (h : fs.resolve path = .ok place) : fs.walk (fs.start path) (parts path) = .ok place := by
  unfold resolve at h
  split at h
  · cases h
  · split at h
    · cases h
    · split at h
      · cases h
      · exact h

theorem resolve_eq_ok (h : fs.resolve path = .ok place) : place = land (fs.start path) (parts path) :=
  walk_eq_ok (walk_of_resolve h)

theorem resolve_mono (hdirs : ∀ dir, fs.entry? dir = some .directory → after.entry? dir = some .directory)
    (hwork : after.workingDir = fs.workingDir) (h : fs.resolve path = .ok place) : after.resolve path = .ok place := by
  unfold resolve at h ⊢
  rw [hwork]
  split at h
  · cases h
  · next hempty =>
      rw [if_neg hempty]
      split at h
      · cases h
      · next hzero =>
          rw [if_neg hzero]
          split at h
          · cases h
          · next hlong =>
              rw [if_neg hlong]
              exact walk_mono hdirs h

theorem standing_start (hwork : fs.Standing fs.workingDir) (path : String) : fs.Standing (fs.start path) := by
  unfold start
  split
  · exact standing_nil fs
  · exact hwork

-- Making directories.

-- Nothing but directories is added, on the way to a place; all else is as it was.
structure Grown (within : List String) (fs after : FileSystem) : Prop where
  workingDir : after.workingDir = fs.workingDir
  entry : ∀ q, after.entry? q = fs.entry? q ∨
    (fs.entry? q = none ∧ after.entry? q = some .directory ∧ q <+: within)

namespace Grown

theorem refl (within : List String) (fs : FileSystem) : Grown within fs fs := ⟨rfl, fun _ => .inl rfl⟩

theorem trans (h : Grown within fs mid) (h' : Grown within mid after) : Grown within fs after := by
  refine ⟨h'.workingDir.trans h.workingDir, fun q => ?_⟩
  obtain hsame | ⟨hnone, hmade, hway⟩ := h'.entry q
  · rw [hsame]
    exact h.entry q
  · obtain hsame | ⟨hnone', -, -⟩ := h.entry q
    · exact .inr ⟨hsame ▸ hnone, hmade, hway⟩
    · exact .inr ⟨hnone', hmade, hway⟩

theorem directory (h : Grown within fs after) (dir : List String) (hdir : fs.entry? dir = some .directory) :
    after.entry? dir = some .directory := by
  obtain hsame | ⟨hnone, -, -⟩ := h.entry dir
  · rw [hsame, hdir]
  · rw [hnone] at hdir
    cases hdir

theorem standing (h : Grown within fs after) (hplace : fs.Standing place) : after.Standing place :=
  fun dir hdir => h.directory dir (hplace dir hdir)

-- Where everything on the way stands already, nothing is added.
theorem entry_of_standing (h : Grown within fs after) (hwithin : fs.Standing within) (q : List String) :
    after.entry? q = fs.entry? q := by
  obtain hsame | ⟨hnone, -, hway⟩ := h.entry q
  · exact hsame
  · rw [hwithin q hway] at hnone
    cases hnone

end Grown

theorem makeDir_eq_ok_cases (h : fs.makeDir path = .ok after) :
    ∃ place, fs.resolve path = .ok place ∧
      (after = fs ∨ (fs.entry? place = none ∧ after = fs.put place .directory)) := by
  unfold makeDir at h
  split at h
  · cases h
  · next place hplace =>
      refine ⟨place, hplace, ?_⟩
      split at h
      · exact .inl (Except.ok.inj h).symm
      · cases h
      · next hnone => exact .inr ⟨hnone, (Except.ok.inj h).symm⟩

-- A path that leads to the place, or to one that stands.
theorem grown_makeDir (h : fs.makeDir path = .ok after)
    (hway : land (fs.start path) (parts path) <+: within ∨ fs.Standing (land (fs.start path) (parts path))) :
    Grown within fs after := by
  obtain ⟨place, hplace, rfl | ⟨hnone, rfl⟩⟩ := makeDir_eq_ok_cases h
  · exact .refl within _
  · rw [← resolve_eq_ok hplace] at hway
    cases hway with
    | inr hstands =>
        rw [hstands place (List.prefix_refl place)] at hnone
        cases hnone
    | inl hprefix =>
        refine ⟨rfl, fun q => ?_⟩
        rw [entry?_put]
        split
        · next hq => exact .inr ⟨hq.1 ▸ hnone, rfl, hq.1 ▸ hprefix⟩
        · exact .inl rfl

-- Directories on the way to a place that a spelled path leads to.
theorem grown_makeEach {rooted : Bool} {ups names leads : List String} {result : Except PathError Unit}
    (hspelled : Spelled path rooted ups names) (hleads : ∀ lead ∈ leads, lead ∈ leadingPaths path)
    (hwork : fs.Standing fs.workingDir) (h : fs.makeEach leads = (result, after)) :
    Grown (land (fs.start path) (ups ++ names)) fs after := by
  induction leads generalizing fs with
  | nil =>
      obtain ⟨-, rfl⟩ := Prod.mk.inj h
      exact .refl _ fs
  | cons lead leads ih =>
      rw [makeEach] at h
      split at h
      · obtain ⟨-, rfl⟩ := Prod.mk.inj h
        exact .refl _ fs
      · next made hmade =>
          obtain ⟨hparts, hrooted⟩ := mem_leadingPaths (hleads lead List.mem_cons_self)
          have hstart : fs.start lead = fs.start path := by rw [start, start, hrooted]
          have hstands := standing_start hwork path
          have hgrown : Grown (land (fs.start path) (ups ++ names)) fs made := by
            refine grown_makeDir hmade ?_
            rw [hstart]
            rw [hspelled.parts] at hparts
            cases List.prefix_or_prefix_of_prefix hparts (List.prefix_append ups names) with
            | inl hups =>
                exact .inr (hstands.of_prefix (land_ups_isPrefix fun u hu => hspelled.ups u (hups.subset hu)))
            | inr hnames =>
                obtain ⟨more, hmore⟩ := hnames
                rw [← hmore] at hparts ⊢
                have hrest : more <+: names := (List.prefix_append_right_inj ups).mp hparts
                have hsome : ∀ n ∈ more, IsName n := fun n hn => hspelled.names n (hrest.subset hn)
                rw [land_append, land_append, land_names hsome, land_names hspelled.names]
                exact .inl ((List.prefix_append_right_inj _).mpr hrest)
          have hagain := ih (fun l hl => hleads l (List.mem_cons_of_mem _ hl)) (hgrown.workingDir ▸ hgrown.standing hwork) h
          have hsame : made.start path = fs.start path := by rw [start, start, hgrown.workingDir]
          exact hgrown.trans (hsame ▸ hagain)

end RustContracts.FileSystem
