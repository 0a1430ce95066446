import Mathlib.Data.List.Infix
import RustContracts.Proofs.FileSystem.Store

-- What compiling a source file to a path leaves behind: either nothing, or the code at the path and the
-- directories that lead to it. What was stored stays, whatever is compiled later.
namespace RustContracts.FileSystem

open Text.Path

variable {fs made after later : FileSystem} {place dir : List String} {path code source target : String}
  {programs : Formatter.Programs} {options : Compile.Options}

-- The directory that a path leads into.
def parent (fs : FileSystem) (path : String) : List String := land (fs.start path) (parts path).dropLast

instance (fs : FileSystem) (place : List String) : Decidable (fs.Standing place) :=
  decidable_of_iff (∀ dir ∈ place.inits, fs.entry? dir = some .directory) (by simp [Standing, List.mem_inits])

-- Storing a file.

theorem grown_parents (hwork : fs.Standing fs.workingDir) {result : Except PathError Unit}
    (h : fs.makeEach (leadingPaths (Text.Path.dir path)) = (result, made)) : Grown (fs.parent path) fs made := by
  have hpath := (List.dropLast_concat_getLast (parts_ne_nil path)).symm
  obtain ⟨ups, names, hspelled, hland⟩ := spelled_dir hpath
  have hstart : fs.start (Text.Path.dir path) = fs.start path := by rw [start, start, hspelled.rooted]
  have hgrown := grown_makeEach hspelled (fun _ hlead => hlead) hwork h
  rw [hstart, hland (fs.start path) fun hrooted => if_pos hrooted] at hgrown
  exact hgrown

theorem Grown.parent_eq (h : Grown dir fs made) : made.parent path = fs.parent path := by
  rw [parent, parent, start, start, h.workingDir]

-- A path that leads to no directory leads into one.
theorem resolve_cases (hwork : fs.Standing fs.workingDir) (h : fs.resolve path = .ok place)
    (hplace : fs.entry? place ≠ some .directory) :
    place ≠ [] ∧ place.dropLast = fs.parent path ∧ fs.Standing (fs.parent path) := by
  obtain hstands | ⟨front, name, hparts, rfl, hfront⟩ := walk_cases (standing_start hwork path) (walk_of_resolve h)
  · exact absurd (hstands place (List.prefix_refl place)) hplace
  · rw [parent, hparts, List.dropLast_concat, List.dropLast_concat]
    exact ⟨by simp, rfl, hfront⟩

theorem write_eq_ok (h : fs.write path code = .ok after) :
    ∃ place, fs.resolve path = .ok place ∧ fs.entry? place ≠ some .directory ∧ after = fs.put place (.file code) := by
  unfold write at h
  split at h
  · cases h
  · next place hplace =>
      split at h
      · cases h
      · next hfile => exact ⟨place, hplace, hfile, (Except.ok.inj h).symm⟩

theorem entry?_put_of_ne (e : Entry) {q : List String} (h : q ≠ place) : entry? (fs.put place e) q = fs.entry? q := by
  rw [entry?_put, if_neg fun heq => h heq.1]

theorem entry?_put_self (e : Entry) (h : place ≠ []) : entry? (fs.put place e) place = some e := by
  rw [entry?_put, if_pos ⟨rfl, h⟩]

theorem directory_put (e : Entry) (hplace : fs.entry? place ≠ some .directory) (dir : List String)
    (hdir : fs.entry? dir = some .directory) : entry? (fs.put place e) dir = some .directory := by
  rw [entry?_put_of_ne e fun (heq : dir = place) => hplace (heq ▸ hdir), hdir]

-- What stands at one place may be another; else only directories are new, and these lead there.
structure OnlyAt (place : List String) (fs after : FileSystem) : Prop where
  workingDir : after.workingDir = fs.workingDir
  others : ∀ q, q ≠ place → after.entry? q = fs.entry? q ∨
    (fs.entry? q = none ∧ after.entry? q = some .directory ∧ q <+: place)

-- A file stands where a path leads.
structure Holds (path : String) (place : List String) (code : String) (fs : FileSystem) : Prop where
  standing : fs.Standing fs.workingDir
  leads : fs.resolve path = .ok place
  file : fs.entry? place = some (.file code)

theorem store_cases (hwork : fs.Standing fs.workingDir) {result : Except Stop Unit}
    (h : fs.store path code = (result, after)) :
    (result ≠ .ok () ∧ Grown (fs.parent path) fs after) ∨
      (result = .ok () ∧ ∃ made place, Grown (fs.parent path) fs made ∧ made.resolve path = .ok place ∧
        made.entry? place ≠ some .directory ∧ after = made.put place (.file code)) := by
  unfold store at h
  split at h
  · next made hmade =>
      obtain ⟨rfl, rfl⟩ := Prod.mk.inj h
      exact .inl ⟨by simp, grown_parents hwork hmade⟩
  · next made hmade =>
      have hgrown := grown_parents hwork hmade
      split at h
      · obtain ⟨rfl, rfl⟩ := Prod.mk.inj h
        exact .inl ⟨by simp, hgrown⟩
      · next written hwritten =>
          obtain ⟨rfl, rfl⟩ := Prod.mk.inj h
          obtain ⟨place, hplace, hfile, hput⟩ := write_eq_ok hwritten
          exact .inr ⟨rfl, made, place, hgrown, hplace, hfile, hput⟩

theorem store_ok (hwork : fs.Standing fs.workingDir) (h : fs.store path code = (.ok (), after)) :
    ∃ place, OnlyAt place fs after ∧ Holds path place code after := by
  obtain ⟨hfailed, -⟩ | ⟨-, made, place, hgrown, hplace, hfile, rfl⟩ := store_cases hwork h
  · exact absurd rfl hfailed
  · have hmade : made.Standing made.workingDir := hgrown.workingDir ▸ hgrown.standing hwork
    obtain ⟨hne, hparent, -⟩ := resolve_cases hmade hplace hfile
    refine ⟨place, ⟨hgrown.workingDir, fun q hq => ?_⟩, fun dir hdir => directory_put _ hfile dir (hmade dir hdir),
      resolve_mono (directory_put _ hfile) rfl hplace, entry?_put_self _ hne⟩
    rw [entry?_put_of_ne _ hq]
    obtain hsame | ⟨hnone, hdir, hway⟩ := hgrown.entry q
    · exact .inl hsame
    · rw [← hgrown.parent_eq, ← hparent] at hway
      exact .inr ⟨hnone, hdir, hway.trans (List.dropLast_prefix place)⟩

-- Compiling.

-- Nothing is done, or the code of the source is stored where nothing stood.
theorem compileFile_cases {result : Except Stop Bool}
    (h : fs.compileFile programs source path target options = (result, after)) :
    ((fs.stat? path).isSome ∧ result = .ok true ∧ after = fs) ∨
      (fs.stat? path = none ∧
        ((∃ stop, compiledSource programs fs source target options = .error stop ∧ result = .error stop ∧ after = fs) ∨
          ∃ code stored, compiledSource programs fs source target options = .ok code ∧
            fs.store path code = (stored, after) ∧ result = stored.map fun _ => false)) := by
  unfold compileFile at h
  split at h
  · next hsome =>
      obtain ⟨rfl, rfl⟩ := Prod.mk.inj h
      exact .inl ⟨hsome, rfl, rfl⟩
  · next hnone =>
      refine .inr ⟨by simpa using hnone, ?_⟩
      split at h
      · next stop hstop =>
          obtain ⟨rfl, rfl⟩ := Prod.mk.inj h
          exact .inl ⟨stop, hstop, rfl, rfl⟩
      · next code hcode =>
          rcases hstore : fs.store path code with ⟨stored, written⟩
          rw [hstore] at h
          obtain ⟨rfl, rfl⟩ := Prod.mk.inj h
          exact .inr ⟨code, stored, hcode, hstore, rfl⟩

theorem compiledSource_of_read_error {e : PathError} (h : fs.read source = .error e) :
    compiledSource programs fs source target options = .error (.fault (readFault source e)) := by
  simp only [compiledSource, h, Except.mapError, bind, Except.bind]

theorem compiledSource_of_read_ok {text : String} (h : fs.read source = .ok text) :
    compiledSource programs fs source target options = Compile.compileWith programs source text target options := by
  simp only [compiledSource, h, Except.mapError, bind, Except.bind]

-- Where the code of the source cannot be had, nothing changes.
theorem compileFile_of_error {result : Except Stop Bool} {stop : Stop}
    (hfails : compiledSource programs fs source target options = .error stop)
    (h : fs.compileFile programs source path target options = (result, after)) :
    after = fs ∧ (result = .ok true ∨ result = .error stop) := by
  obtain ⟨-, hskipped, hsame⟩ | ⟨-, ⟨stop', hstop', hresult, hsame⟩ | ⟨code, _, hcode, -⟩⟩ := compileFile_cases h
  · exact ⟨hsame, .inl hskipped⟩
  · rw [hstop'] at hfails
    exact ⟨hsame, .inr (Except.error.inj hfails ▸ hresult)⟩
  · rw [hcode] at hfails
    cases hfails

-- Later.

-- What a file system may become: anything changes but the file at a place and the way that a path takes
-- there, or a source file is compiled, to whatever path.
inductive Follows (path : String) (place : List String) (fs : FileSystem) : FileSystem → Prop
  | refl : Follows path place fs fs
  | changed {before after : FileSystem} (earlier : Follows path place fs before)
      (standing : after.Standing after.workingDir) (leads : after.resolve path = .ok place)
      (same : after.entry? place = before.entry? place) : Follows path place fs after
  | compiled {before : FileSystem} (earlier : Follows path place fs before) (programs : Formatter.Programs)
      (source destination target : String) (options : Compile.Options) :
      Follows path place fs (before.compileFile programs source destination target options).2

namespace Holds

theorem read (h : Holds path place code fs) : fs.read path = .ok code := by
  rw [FileSystem.read, h.leads]
  dsimp only
  rw [h.file]

theorem compileFile_eq (h : Holds path place code fs) (programs : Formatter.Programs) (source target : String)
    (options : Compile.Options) : fs.compileFile programs source path target options = (.ok true, fs) := by
  have hsome : (fs.stat? path).isSome := by simp [stat?, h.leads, h.file]
  rw [compileFile, if_pos hsome]

theorem grown (h : Holds path place code fs) (hgrown : Grown dir fs after) : Holds path place code after := by
  refine ⟨hgrown.workingDir ▸ hgrown.standing h.standing, resolve_mono hgrown.directory hgrown.workingDir h.leads, ?_⟩
  obtain hsame | ⟨hnone, -⟩ := hgrown.entry place
  · rw [hsame, h.file]
  · rw [h.file] at hnone
    cases hnone

theorem put (h : Holds path place code fs) {other : List String} (e : Entry) (hother : fs.entry? other ≠ some .directory)
    (hne : place ≠ other) : Holds path place code (fs.put other e) where
  standing := fun dir hdir => directory_put e hother dir (h.standing dir hdir)
  leads := resolve_mono (directory_put e hother) rfl h.leads
  file := by rw [entry?_put_of_ne e hne, h.file]

theorem store (h : Holds path place code fs) {destination other : String} {result : Except Stop Unit}
    (hfree : fs.stat? destination = none) (hstore : fs.store destination other = (result, after)) :
    Holds path place code after := by
  obtain ⟨-, hgrown⟩ | ⟨-, made, place', hgrown, hplace', hfile', rfl⟩ := store_cases h.standing hstore
  · exact h.grown hgrown
  · have hmade := h.grown hgrown
    refine hmade.put (.file other) hfile' ?_
    rintro rfl
    -- the directory of the file stands, so no directory was made, and the destination leads to the file already
    obtain ⟨-, hparent, hstands⟩ := resolve_cases h.standing h.leads (by simp [h.file])
    obtain ⟨-, hparent', -⟩ := resolve_cases hmade.standing hplace' hfile'
    rw [hgrown.parent_eq] at hparent'
    have hsame := hgrown.entry_of_standing (hparent' ▸ hparent ▸ hstands)
    have hleads : fs.resolve destination = .ok place :=
      resolve_mono (fun dir hdir => hsame dir ▸ hdir) hgrown.workingDir.symm hplace'
    rw [stat?, hleads] at hfree
    simp [h.file] at hfree

-- Compiling to any path leaves a file that stands.
theorem compileFile (h : Holds path place code fs) (programs : Formatter.Programs) (source destination target : String)
    (options : Compile.Options) :
    Holds path place code (fs.compileFile programs source destination target options).2 := by
  obtain ⟨-, -, hsame⟩ | ⟨hfree, ⟨_, -, -, hsame⟩ | ⟨_, _, -, hstore, -⟩⟩ :=
    compileFile_cases (Prod.eta (fs.compileFile programs source destination target options)).symm
  · rwa [hsame]
  · rwa [hsame]
  · exact h.store hfree hstore

theorem follows (h : Holds path place code fs) (hlater : Follows path place fs later) :
    Holds path place code later := by
  induction hlater with
  | refl => exact h
  | changed _ standing leads same ih => exact ⟨standing, leads, same.trans ih.file⟩
  | compiled _ programs source destination target options ih =>
      exact ih.compileFile programs source destination target options

end Holds

-- A source file is compiled to a path. It is skipped exactly where something stands already; a source that
-- cannot be read or compiled changes nothing; and otherwise its code holds at the path from then on.
theorem compileFile_atomic {result : Except Stop Bool} (hwork : fs.Standing fs.workingDir)
    (h : fs.compileFile programs source path target options = (result, after)) :
    (result = .ok true ↔ (fs.stat? path).isSome) ∧
    (result = .ok true → after = fs) ∧
    (∀ e, fs.read source = .error e → after = fs ∧ (result = .ok true ∨ result = .error (.fault (readFault source e)))) ∧
    (∀ text stop, fs.read source = .ok text → Compile.compileWith programs source text target options = .error stop →
      after = fs ∧ (result = .ok true ∨ result = .error stop)) ∧
    (result = .ok false → ∃ text code place, fs.read source = .ok text ∧
      Compile.compileWith programs source text target options = .ok code ∧
      after.read path = .ok code ∧ OnlyAt place fs after ∧ Holds path place code after ∧
      ∀ later, Follows path place after later → later.read path = .ok code ∧
        ∀ programs source target options, later.compileFile programs source path target options = (.ok true, later)) := by
  refine ⟨?_, ?_, fun e he => compileFile_of_error (compiledSource_of_read_error he) h,
    fun text stop htext hstop => compileFile_of_error ((compiledSource_of_read_ok htext).trans hstop) h, ?_⟩
  · obtain ⟨hsome, hresult, -⟩ | ⟨hnone, ⟨stop, -, rfl, -⟩ | ⟨_, stored, -, -, rfl⟩⟩ := compileFile_cases h
    · simp [hsome, hresult]
    · simp [hnone]
    · cases stored <;> simp [hnone, Except.map]
  · rintro rfl
    obtain ⟨-, -, hsame⟩ | ⟨-, ⟨stop, -, hresult, -⟩ | ⟨_, stored, -, -, hresult⟩⟩ := compileFile_cases h
    · exact hsame
    · cases hresult
    · cases stored <;> cases hresult
  · rintro rfl
    obtain ⟨-, hresult, -⟩ | ⟨-, ⟨stop, -, hresult, -⟩ | ⟨code, stored, hcode, hstore, hresult⟩⟩ := compileFile_cases h
    · cases hresult
    · cases hresult
    · obtain ⟨text, htext⟩ : ∃ text, fs.read source = .ok text := by
        cases hread : fs.read source with
        | ok text => exact ⟨text, rfl⟩
        | error e =>
            rw [compiledSource_of_read_error hread] at hcode
            cases hcode
      obtain rfl : stored = .ok () := by
        cases stored with
        | ok => rfl
        | error => cases hresult
      rw [compiledSource_of_read_ok htext] at hcode
      obtain ⟨place, honly, hholds⟩ := store_ok hwork hstore
      exact ⟨text, code, place, htext, hcode, hholds.read, honly, hholds, fun later hlater =>
        ⟨(hholds.follows hlater).read, (hholds.follows hlater).compileFile_eq⟩⟩

-- A working directory with one source file.
def desk : FileSystem := (atWork ["w"]).put ["w", "c.sol"] (.file "contract C {}")

theorem compileFile_atomic_desk : ∃ after code,
    desk.compileFile Formatter.bareSystem "c.sol" "out/c.rs" "soroban" {} = (.ok false, after) ∧
    desk.entry? ["w", "out"] = none ∧ after.entry? ["w", "c.sol"] = some (.file "contract C {}") ∧
    after.read "out/c.rs" = .ok code ∧
    after.compileFile Formatter.bareSystem "d.sol" "out/c.rs" "ink" {} = (.ok true, after) := by
  have hresult : (desk.compileFile Formatter.bareSystem "c.sol" "out/c.rs" "soroban" {}).1 = .ok false := by decide +kernel
  rcases hrun : desk.compileFile Formatter.bareSystem "c.sol" "out/c.rs" "soroban" {} with ⟨result, after⟩
  rw [hrun] at hresult
  obtain rfl : result = .ok false := hresult
  obtain ⟨-, -, -, -, hdone⟩ := compileFile_atomic (by decide) hrun
  obtain ⟨-, code, place, -, -, hread, honly, hholds, hlater⟩ := hdone rfl
  have hsource : ["w", "c.sol"] ≠ place := by
    rw [resolve_eq_ok hholds.leads, start, if_neg (by decide), honly.workingDir]
    decide
  obtain hsame | ⟨hnone, -⟩ := honly.others ["w", "c.sol"] hsource
  · exact ⟨after, code, rfl, by decide, hsame, hread, (hlater after .refl).2 _ _ _ _⟩
  · exact absurd hnone (by decide)

end RustContracts.FileSystem
