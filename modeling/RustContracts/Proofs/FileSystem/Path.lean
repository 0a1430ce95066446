import Mathlib.Data.List.Induction
import RustContracts.FileSystem.Basic

-- Where the parts of a path lead, whatever stands there, and that a shortened path leads to the same place.
namespace RustContracts

namespace Text.Path

-- Texts and their parts.

theorem parts_ne_nil (path : String) : parts path ≠ [] := by
  simp [parts]

theorem parts_intercalate {ps : List String} (hne : ps ≠ []) (hslash : ∀ p ∈ ps, '/' ∉ p.toList) :
    parts ("/".intercalate ps) = ps := by
  rw [parts, String.toList_intercalate]
  change ((['/'].intercalate _).splitOn '/').map _ = _
  rw [List.splitOn_intercalate '/' (by simpa using hslash) (by simpa using hne), List.map_map]
  simp

theorem slash_notMem_splitOn (cs : List Char) : ∀ p ∈ cs.splitOn '/', '/' ∉ p := by
  induction cs with
  | nil => simp
  | cons c cs ih =>
      intro p hp
      rw [List.splitOn_cons_eq_if_modifyHead] at hp
      split at hp
      · cases List.mem_cons.mp hp with
        | inl heq => simp [heq]
        | inr hmem => exact ih p hmem
      · next hc =>
          cases hs : cs.splitOn '/' with
          | nil => exact absurd hs (List.splitOn_ne_nil '/' cs)
          | cons first rest =>
              rw [hs, List.modifyHead_cons] at hp
              cases List.mem_cons.mp hp with
              | inl heq =>
                  rw [heq, List.mem_cons, not_or]
                  exact ⟨fun h => hc (by simp [← h]), ih first (by simp [hs])⟩
              | inr hmem => exact ih p (by simp [hs, hmem])

theorem slash_notMem_of_mem_parts {path p : String} (hp : p ∈ parts path) : '/' ∉ p.toList := by
  obtain ⟨cs, hcs, rfl⟩ := List.mem_map.mp hp
  simpa using slash_notMem_splitOn _ cs hcs

theorem intercalate_parts (path : String) : "/".intercalate (parts path) = path := by
  apply String.toList_injective
  rw [String.toList_intercalate, parts, List.map_map]
  have hid : (String.toList ∘ String.ofList : List Char → List Char) = id := funext fun cs => by simp
  rw [hid, List.map_id]
  exact List.intercalate_splitOn '/'

-- A path is rooted when nothing stands before its first slash.
theorem isRooted_iff (path : String) : isRooted path ↔ ∃ more, more ≠ [] ∧ parts path = "" :: more := by
  unfold isRooted parts
  cases path.toList with
  | nil => simp
  | cons c cs =>
      rw [List.splitOn_cons_eq_if_modifyHead]
      by_cases hc : c = '/'
      · simp [hc]
      · cases hs : cs.splitOn '/' with
        | nil => exact absurd hs (List.splitOn_ne_nil '/' cs)
        | cons first rest => simp [hc, String.ofList_eq_empty_iff]

-- Parts.

-- A part that names something, and is no step of its own.
def IsName (part : String) : Prop := part ≠ "" ∧ part ≠ "." ∧ part ≠ ".."

-- Where parts lead from a place.
def land (place : List String) : List String → List String
  | [] => place
  | part :: rest =>
    if part = "" || part = "." then land place rest
    else if part = ".." then land place.dropLast rest
    else land (place ++ [part]) rest

variable {place ups names front : List String} {part : String}

theorem land_append (place front rest : List String) : land place (front ++ rest) = land (land place front) rest := by
  induction front generalizing place with
  | nil => rfl
  | cons part front ih =>
      simp only [List.cons_append, land]
      split
      · exact ih _
      · split <;> exact ih _

theorem land_names (h : ∀ n ∈ names, IsName n) : land place names = place ++ names := by
  induction names generalizing place with
  | nil => simp [land]
  | cons n names ih =>
      obtain ⟨hempty, hdot, hdots⟩ := h n List.mem_cons_self
      rw [land, if_neg (by simp [hempty, hdot]), if_neg hdots, ih fun m hm => h m (List.mem_cons_of_mem _ hm),
        List.append_assoc, List.singleton_append]

theorem land_ups_isPrefix (h : ∀ u ∈ ups, ¬IsName u) : land place ups <+: place := by
  induction ups generalizing place with
  | nil => exact List.prefix_refl place
  | cons u ups ih =>
      have hrest : ∀ v ∈ ups, ¬IsName v := fun v hv => h v (List.mem_cons_of_mem _ hv)
      rw [land]
      split
      · exact ih hrest
      · split
        · exact (ih hrest).trans (List.dropLast_prefix place)
        · next hdots hup =>
            simp only [Bool.or_eq_true, decide_eq_true_eq, not_or] at hdots
            exact absurd ⟨hdots.1, hdots.2, hup⟩ (h u List.mem_cons_self)

-- What is left of parts when they are shortened: steps up, then names; none up from the root.
structure Short (rooted : Bool) (resolved : List String) : Prop where
  split : ∃ ups names, resolved.reverse = ups ++ names ∧ (∀ u ∈ ups, u = "..") ∧ (rooted = true → ups = []) ∧
    ∀ n ∈ names, IsName n

theorem short_nil (rooted : Bool) : Short rooted [] := ⟨[], [], rfl, by simp, fun _ => rfl, by simp⟩

theorem Short.cons_name {rooted : Bool} {resolved : List String} (h : Short rooted resolved) (hpart : IsName part) :
    Short rooted (part :: resolved) := by
  obtain ⟨ups, names, heq, hups, hroot, hnames⟩ := h.split
  refine ⟨ups, names ++ [part], by simp [heq], hups, hroot, fun n hn => ?_⟩
  cases List.mem_append.mp hn with
  | inl hmem => exact hnames n hmem
  | inr hmem => exact List.mem_singleton.mp hmem ▸ hpart

theorem Short.cases {rooted : Bool} {last : String} {resolved : List String} (h : Short rooted (last :: resolved)) :
    (last = ".." ∧ rooted = false ∧ ∀ u ∈ resolved, u = "..") ∨ (IsName last ∧ Short rooted resolved) := by
  obtain ⟨ups, names, heq, hups, hroot, hnames⟩ := h.split
  rw [List.reverse_cons] at heq
  cases names using List.reverseRecOn with
  | nil =>
      have hall : ∀ u ∈ resolved.reverse ++ [last], u = ".." := by simpa [heq] using hups
      refine .inl ⟨hall last (by simp), ?_, fun u hu => hall u (by simp [hu])⟩
      cases rooted with
      | false => rfl
      | true =>
          rw [hroot rfl] at heq
          simp at heq
  | append_singleton names name _ =>
      rw [← List.append_assoc] at heq
      obtain ⟨hinit, rfl⟩ := List.append_singleton_inj.mp heq
      exact .inr ⟨hnames last (by simp), ⟨ups, names, hinit, hups, hroot, fun n hn => hnames n (by simp [hn])⟩⟩

-- One part more: the shortened parts lead where the part leads from where they led.
theorem short_resolvePart {rooted : Bool} {resolved start : List String} (hstart : rooted = true → start = [])
    (h : Short rooted resolved) (part : String) :
    Short rooted (resolvePart rooted resolved part) ∧
      land start (resolvePart rooted resolved part).reverse = land (land start resolved.reverse) [part] := by
  unfold resolvePart
  by_cases htrivial : part = "" ∨ part = "."
  · rw [if_pos (by simpa using htrivial)]
    refine ⟨h, ?_⟩
    rw [land, if_pos (by simpa using htrivial)]
    rfl
  · rw [if_neg (by simpa using htrivial)]
    by_cases hup : part = ".."
    · subst hup
      rw [if_pos rfl]
      cases resolved with
      | nil =>
          cases rooted with
          | true => exact ⟨h, by simp [hstart rfl, land]⟩
          | false => exact ⟨⟨[".."], [], rfl, by simp, by simp, by simp⟩, rfl⟩
      | cons last resolved =>
          dsimp only
          obtain ⟨rfl, rfl, hups⟩ | ⟨hname, hshort⟩ := h.cases
          · rw [if_pos rfl]
            refine ⟨⟨(".." :: ".." :: resolved).reverse, [], by simp, ?_, by simp, by simp⟩, ?_⟩
            · intro u hu
              simp only [List.mem_reverse, List.mem_cons] at hu
              obtain rfl | rfl | hu := hu
              · rfl
              · rfl
              · exact hups u hu
            · rw [List.reverse_cons, land_append]
          · rw [if_neg hname.2.2]
            refine ⟨hshort, ?_⟩
            have hlast : land (land start resolved.reverse) [last] = land start resolved.reverse ++ [last] :=
              land_names (by simpa using hname)
            rw [List.reverse_cons, land_append, hlast]
            simp [land]
    · rw [if_neg hup]
      rw [not_or] at htrivial
      exact ⟨h.cons_name ⟨htrivial.1, htrivial.2, hup⟩, by rw [List.reverse_cons, land_append]⟩

theorem short_foldl {rooted : Bool} {resolved start : List String} (hstart : rooted = true → start = [])
    (h : Short rooted resolved) (ps : List String) :
    Short rooted (ps.foldl (resolvePart rooted) resolved) ∧
      land start (ps.foldl (resolvePart rooted) resolved).reverse = land (land start resolved.reverse) ps := by
  induction ps generalizing resolved with
  | nil => exact ⟨h, rfl⟩
  | cons part ps ih =>
      obtain ⟨hshort, hland⟩ := short_resolvePart hstart h part
      obtain ⟨hall, hends⟩ := ih hshort
      refine ⟨hall, hends.trans ?_⟩
      rw [hland, ← land_append]
      rfl

theorem mem_foldl_resolvePart {rooted : Bool} {resolved ps : List String} {p : String}
    (h : p ∈ ps.foldl (resolvePart rooted) resolved) : p ∈ resolved ∨ p ∈ ps ∨ p = ".." := by
  induction ps generalizing resolved with
  | nil => exact .inl h
  | cons part ps ih =>
      obtain hmem | hmem | hup := ih h
      · unfold resolvePart at hmem
        split at hmem
        · exact .inl hmem
        · split at hmem
          · split at hmem
            · split at hmem
              · exact (List.mem_cons.mp hmem).elim (fun heq => .inr (.inr heq)) .inl
              · exact .inl (List.mem_cons_of_mem _ hmem)
            · split at hmem
              · cases hmem
              · exact .inr (.inr (List.mem_singleton.mp hmem))
          · exact (List.mem_cons.mp hmem).elim (fun heq => .inr (.inl (heq ▸ List.mem_cons_self))) .inl
      · exact .inr (.inl (List.mem_cons_of_mem _ hmem))
      · exact .inr (.inr hup)

theorem eq_append_slash {ps : List String} (hne : ps ≠ []) : "/".intercalate ps ++ "/" = "/".intercalate (ps ++ [""]) := by
  rw [String.intercalate_append_of_ne_nil hne (by simp), String.intercalate_singleton, String.append_empty]

theorem slash_append_eq {ps : List String} (hne : ps ≠ []) : "/" ++ "/".intercalate ps = "/".intercalate ("" :: ps) := by
  rw [String.intercalate_cons_of_ne_nil hne, String.empty_append]

-- A path as its parts say it: steps that name nothing, names behind them, and where both lead.
structure Spelled (path : String) (rooted : Bool) (ups names : List String) : Prop where
  parts : parts path = ups ++ names
  rooted : isRooted path = rooted
  ups : ∀ u ∈ ups, ¬IsName u
  names : ∀ n ∈ names, IsName n

theorem spelled_clean (path : String) : ∃ ups names, Spelled (clean path) (isRooted path) ups names ∧
    ∀ start, (isRooted path = true → start = []) → land start (ups ++ names) = land start (parts path) := by
  have hfold (start : List String) (hstart : isRooted path = true → start = []) :=
    short_foldl hstart (short_nil (isRooted path)) (parts path)
  obtain ⟨ups, names, heq, hups, hroot, hnames⟩ := (hfold [] fun _ => rfl).1.split
  have hslash : ∀ p ∈ ups ++ names, '/' ∉ p.toList := by
    intro p hp
    rw [← heq, List.mem_reverse] at hp
    obtain hnil | hpart | rfl := mem_foldl_resolvePart hp
    · cases hnil
    · exact slash_notMem_of_mem_parts hpart
    · decide
  have hups' : ∀ u ∈ ups, ¬IsName u := fun u hu hname => hname.2.2 (hups u hu)
  have hland (start : List String) (hstart : isRooted path = true → start = []) :
      land start (ups ++ names) = land start (parts path) := heq ▸ (hfold start hstart).2
  unfold clean
  dsimp only
  rw [heq]
  by_cases hnil : ups ++ names = []
  · obtain ⟨rfl, rfl⟩ := List.append_eq_nil_iff.mp hnil
    cases hrooted : isRooted path with
    | true =>
        refine ⟨["", ""], [], ⟨by decide, by decide, by simp [IsName], by simp⟩, fun start hstart => ?_⟩
        exact hland start fun _ => hstart rfl
    | false =>
        refine ⟨["."], [], ⟨by decide, by decide, by simp [IsName], by simp⟩, fun start _ => ?_⟩
        exact hland start (by simp [hrooted])
  · have hempty : "" ∉ ups ++ names := by
      intro hmem
      cases List.mem_append.mp hmem with
      | inl h => exact absurd (hups _ h) (by decide)
      | inr h => exact (hnames _ h).1 rfl
    cases hrooted : isRooted path with
    | true =>
        obtain rfl := hroot hrooted
        have hparts : parts ("/".intercalate ("" :: names)) = "" :: names :=
          parts_intercalate (by simp) (by simpa using hslash)
        have htext : (if true = true then "/" else "") ++ "/".intercalate ([] ++ names) = "/".intercalate ("" :: names) :=
          slash_append_eq hnil
        have hblank : parts "" = [""] := by decide
        rw [htext, if_neg fun h => hnil (by simpa [hblank] using hparts.symm.trans (congrArg parts h))]
        refine ⟨[""], names, ⟨hparts, ?_, by simp [IsName], hnames⟩, fun start hstart => hland start fun _ => hstart rfl⟩
        exact (isRooted_iff _).mpr ⟨names, hnil, hparts⟩
    | false =>
        have hparts : parts ("/".intercalate (ups ++ names)) = ups ++ names := parts_intercalate hnil hslash
        have htext : (if false = true then "/" else "") ++ "/".intercalate (ups ++ names) = "/".intercalate (ups ++ names) :=
          String.empty_append
        rw [htext, if_neg fun h => hempty (by rw [← hparts, h]; decide)]
        refine ⟨ups, names, ⟨hparts, ?_, hups', hnames⟩, fun start _ => hland start (by simp [hrooted])⟩
        rw [Bool.eq_false_iff, Ne, isRooted_iff]
        rintro ⟨more, -, hmore⟩
        exact hempty (hparts.symm.trans hmore ▸ List.mem_cons_self)

-- The directory of a path, spelled out.
theorem spelled_dir {path name : String} {front : List String} (hpath : parts path = front ++ [name]) :
    ∃ ups names, Spelled (dir path) (isRooted path) ups names ∧
      ∀ start, (isRooted path = true → start = []) → land start (ups ++ names) = land start front := by
  rw [dir, hpath, List.dropLast_concat]
  cases front with
  | nil =>
      have hrooted : isRooted path = false := by
        rw [Bool.eq_false_iff, Ne, isRooted_iff]
        rintro ⟨more, hmore, hparts⟩
        simp_all
      exact ⟨["."], [], ⟨by decide, by simpa [hrooted] using (by decide), by simp [IsName], by simp⟩, fun _ _ => rfl⟩
  | cons first front =>
      have hne : first :: front ≠ [] := by simp
      have hslash : ∀ p ∈ (first :: front) ++ [""], '/' ∉ p.toList := by
        intro p hp
        cases List.mem_append.mp hp with
        | inl hmem => exact slash_notMem_of_mem_parts (hpath ▸ List.mem_append_left _ hmem)
        | inr hmem => simp [List.mem_singleton.mp hmem]
      have hparts : parts ("/".intercalate (first :: front) ++ "/") = (first :: front) ++ [""] := by
        rw [eq_append_slash hne]
        exact parts_intercalate (by simp) hslash
      have hrooted : isRooted ("/".intercalate (first :: front) ++ "/") = isRooted path := by
        rw [Bool.eq_iff_iff, isRooted_iff, isRooted_iff, hparts, hpath]
        simp
      obtain ⟨ups, names, hspelled, hland⟩ := spelled_clean ("/".intercalate (first :: front) ++ "/")
      rw [hrooted] at hspelled hland
      refine ⟨ups, names, hspelled, fun start hstart => (hland start hstart).trans ?_⟩
      rw [hparts, land_append]
      rfl

end Text.Path

namespace FileSystem

open Text.Path

theorem mem_leadingPaths {path lead : String} (h : lead ∈ leadingPaths path) :
    parts lead <+: parts path ∧ isRooted lead = isRooted path := by
  unfold leadingPaths at h
  dsimp only at h
  obtain ⟨hmem, hne⟩ := List.mem_filter.mp h
  obtain ⟨i, -, hlead⟩ := List.mem_map.mp hmem
  have hparts : parts lead = (parts path).take (i + 1) := by
    rw [← hlead]
    exact parts_intercalate (by simp [parts_ne_nil]) fun p hp => slash_notMem_of_mem_parts (List.mem_of_mem_take hp)
  refine ⟨hparts ▸ List.take_prefix _ _, ?_⟩
  rw [Bool.eq_iff_iff, isRooted_iff, isRooted_iff, hparts]
  cases hp : parts path with
  | nil => exact absurd hp (parts_ne_nil path)
  | cons first more =>
      rw [hp, List.take_succ_cons] at hparts
      rw [List.take_succ_cons]
      constructor
      · rintro ⟨rest, hrest, heq⟩
        obtain ⟨rfl, rfl⟩ := List.cons.inj heq
        exact ⟨more, fun hnil => hrest (by rw [hnil, List.take_nil]), rfl⟩
      · rintro ⟨rest, hrest, heq⟩
        obtain ⟨rfl, rfl⟩ := List.cons.inj heq
        refine ⟨more.take i, fun hnil => ?_, rfl⟩
        -- the path in front of the first slash is left out
        have hblank : lead = "" := by
          rw [← intercalate_parts lead, hparts, hnil]
          rfl
        simp [hblank] at hne

end FileSystem

end RustContracts
