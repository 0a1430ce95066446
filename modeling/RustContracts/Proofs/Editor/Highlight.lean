import RustContracts.Editor.Highlight
import RustContracts.Proofs.Solidity.Scan

-- Highlights as editors read them: they come in order and are read back from their numbers, but they start where the
-- protocol has them only where no character before them takes two units.
namespace RustContracts

namespace Text

variable {text : List Char} {limit : Nat}

-- How many characters of a text take two units.
def wide (text : List Char) : Nat := text.countP fun c => decide (0x10000 ≤ c.toNat)

theorem units16_eq (text : List Char) : units16 text = text.length + wide text := by
  induction text with
  | nil => rfl
  | cons c text ih =>
      rw [units16, ih, wide, wide, List.countP_cons, List.length_cons, units16OfChar]
      by_cases hc : c.toNat < 0x10000
      · rw [if_pos hc, if_neg (by simpa using hc)]
        omega
      · rw [if_neg hc, if_pos (by simpa using hc)]
        omega

-- The lines and columns on which the characters of a text stand, counted from zero, are below a limit.
def Below (limit : Nat) (text : List Char) : Prop :=
  ∀ before c after, text = before ++ c :: after → before.count '\n' < limit ∧ (lastLine before).length < limit

theorem length_lastLine_le (text : List Char) : (lastLine text).length ≤ text.length :=
  (List.rtakeWhile_suffix _ _).length_le

theorem below_of_length (h : text.length ≤ limit) : Below limit text := by
  rintro before c after rfl
  have hcount : before.count '\n' ≤ before.length := List.count_le_length
  have hlast := length_lastLine_le before
  rw [List.length_append, List.length_cons] at h
  omega

theorem lastLine_append_of_notMem {more : List Char} (h : '\n' ∉ more) : lastLine (text ++ more) = lastLine text ++ more := by
  induction more using List.reverseRecOn with
  | nil => simp
  | append_singleton more c ih =>
      rw [List.mem_append, not_or, List.mem_singleton] at h
      rw [← List.append_assoc, lastLine, List.rtakeWhile_concat_pos _ _ _ (by simpa using Ne.symm h.2), ← lastLine, ih h.1,
        List.append_assoc]

end Text

namespace Editor

open Solidity (Lexeme scan scanFrom textOf)
open Text (Position lastLine placeBehind units16 wide)

variable {source before shown after : List Char} {h h' : Highlight} {l l' : Lexeme}

-- Where highlights stand.

-- The part of a text that a highlight stands for, between what is before it and what is behind it.
structure Highlight.Shows (h : Highlight) (source before shown after : List Char) : Prop where
  text : before ++ shown ++ after = source
  nonempty : shown ≠ []
  line : h.line = before.count '\n'
  start : h.start = (lastLine before).length
  length : h.length = units16 shown

-- What is highlighted of a lexeme: of a pragma its first word alone.
def shownText (l : Lexeme) : List Char := if l.kind = .pragma then "pragma".toList else l.text.toList

structure Highlight.Marks (h : Highlight) (l : Lexeme) : Prop where
  line : h.line = l.start.line - 1
  start : h.start = l.start.column - 1
  length : h.length = units16 (shownText l)

theorem highlightAt_marks {text : String} (htext : text.toList = shownText l) (type : TokenType) (declares : Bool) :
    (highlightAt l.start text type declares).Marks l :=
  ⟨rfl, rfl, by rw [highlightAt, htext]⟩

-- A lexeme has one highlight or none, and decides what is asked of the next.
theorem highlightsFrom_cons (pending : Option TokenType) (l : Lexeme) (rest : List Lexeme) : ∃ next,
    highlightsFrom pending (l :: rest) = highlightsFrom next rest ∨
      ∃ h : Highlight, h.Marks l ∧ highlightsFrom pending (l :: rest) = h :: highlightsFrom next rest := by
  have hwhole (hkind : l.kind ≠ .pragma) : l.text.toList = shownText l := (if_neg hkind).symm
  cases hkind : l.kind with
  | whitespace | comment | punctuation => exact ⟨_, .inl (by rw [highlightsFrom, hkind])⟩
  | pragma =>
      refine ⟨pending, .inr ⟨_, highlightAt_marks (if_pos hkind).symm .keyword false, ?_⟩⟩
      rw [highlightsFrom, hkind]
  | number =>
      refine ⟨pending, .inr ⟨_, highlightAt_marks (hwhole (by simp [hkind])) .number false, ?_⟩⟩
      rw [highlightsFrom, hkind]
  | string =>
      refine ⟨pending, .inr ⟨_, highlightAt_marks (hwhole (by simp [hkind])) .string false, ?_⟩⟩
      rw [highlightsFrom, hkind]
  | operator =>
      refine ⟨none, .inr ⟨_, highlightAt_marks (hwhole (by simp [hkind])) .operator false, ?_⟩⟩
      rw [highlightsFrom, hkind]
  | ident =>
      refine ⟨declaredBy? l.text, ?_⟩
      cases hword : wordType? pending l.text with
      | none => exact .inl (by simp [highlightsFrom, hkind, hword])
      | some found =>
          refine .inr ⟨_, highlightAt_marks (hwhole (by simp [hkind])) found.1 found.2, ?_⟩
          simp [highlightsFrom, hkind, hword]

theorem exists_marked {pending : Option TokenType} {ls : List Lexeme} (hh : h ∈ highlightsFrom pending ls) :
    ∃ l ∈ ls, h.Marks l := by
  induction ls generalizing pending with
  | nil => cases hh
  | cons l rest ih =>
      obtain ⟨next, heq | ⟨first, hmarks, heq⟩⟩ := highlightsFrom_cons pending l rest
      · obtain ⟨l', hl', hmarks⟩ := ih (heq ▸ hh)
        exact ⟨l', List.mem_cons_of_mem _ hl', hmarks⟩
      · rw [heq] at hh
        rcases List.mem_cons.mp hh with rfl | hh
        · exact ⟨l, List.mem_cons_self, hmarks⟩
        · obtain ⟨l', hl', hmarks⟩ := ih hh
          exact ⟨l', List.mem_cons_of_mem _ hl', hmarks⟩

-- What holds of two lexemes, one before the other, holds of their highlights.
theorem pairwise_highlightsFrom {R : Lexeme → Lexeme → Prop} {S : Highlight → Highlight → Prop}
    (hmarked : ∀ l l' h h', R l l' → h.Marks l → h'.Marks l' → S h h') {pending : Option TokenType} {ls : List Lexeme}
    (hls : ls.Pairwise R) : (highlightsFrom pending ls).Pairwise S := by
  induction ls generalizing pending with
  | nil => exact List.Pairwise.nil
  | cons l rest ih =>
      obtain ⟨hfirst, hrest⟩ := List.pairwise_cons.mp hls
      obtain ⟨next, heq | ⟨h, hmarks, heq⟩⟩ := highlightsFrom_cons pending l rest
      · exact heq ▸ ih hrest
      · rw [heq]
        refine List.pairwise_cons.mpr ⟨fun h' hh' => ?_, ih hrest⟩
        obtain ⟨l', hl', hmarks'⟩ := exists_marked hh'
        exact hmarked l l' h h' (hfirst l' hl') hmarks hmarks'

theorem exists_shown {rest : List Char} (h : l.Heads source rest) :
    shownText l ≠ [] ∧ ∃ more, l.text.toList = shownText l ++ more := by
  by_cases hkind : l.kind = .pragma
  · rw [shownText, if_pos hkind]
    refine ⟨by decide, ?_⟩
    have hpos := Solidity.firstRule_pos h.rule
    have htext := h.text
    rw [hkind] at hpos htext
    obtain ⟨more, hmore⟩ := Solidity.pragma_of_length hpos
    exact ⟨more, htext.symm.trans hmore.symm⟩
  · rw [shownText, if_neg hkind]
    exact ⟨h.ne_nil, [], by simp⟩

-- The highlight of a lexeme stands for the front of it, behind the lexemes before it.
theorem shows_of_split {text : String} {front back : List Lexeme} (hsplit : (scan text).lexemes = front ++ l :: back)
    (hmarks : h.Marks l) : ∃ more, l.text.toList = shownText l ++ more ∧
      h.Shows text.toList (textOf front) (shownText l) (more ++ (textOf back ++ (scan text).unread)) := by
  obtain ⟨hstart, rest, hheads⟩ := Solidity.lexeme_of_scanFrom front hsplit
  rw [Text.advanceOver_start] at hstart
  obtain ⟨hnonempty, more, hmore⟩ := exists_shown hheads
  have hwhole := Solidity.textOf_scan text
  rw [hsplit, Solidity.textOf_append, Solidity.textOf_cons, hmore] at hwhole
  refine ⟨more, hmore, by simpa using hwhole, hnonempty, ?_, ?_, hmarks.length⟩
  · rw [hmarks.line, hstart]
    rfl
  · rw [hmarks.start, hstart]
    rfl

theorem exists_shows {text : String} (hh : h ∈ highlights text) :
    ∃ before shown after, h.Shows text.toList before shown after := by
  obtain ⟨l, hl, hmarks⟩ := exists_marked hh
  obtain ⟨front, back, hsplit⟩ := List.append_of_mem hl
  obtain ⟨more, -, hshows⟩ := shows_of_split hsplit hmarks
  exact ⟨_, _, _, hshows⟩

-- Of two highlights, one stands behind the other.
def Apart (source : List Char) (h h' : Highlight) : Prop :=
  ∃ before shown gap shown' after,
    h.Shows source before shown (gap ++ shown' ++ after) ∧ h'.Shows source (before ++ shown ++ gap) shown' after

theorem highlights_apart (text : String) : (highlights text).Pairwise (Apart text.toList) := by
  refine pairwise_highlightsFrom (fun l l' h h' hpair hmarks hmarks' => ?_)
    (List.pairwise_iff_forall_sublist.mpr fun hpair => hpair)
  obtain ⟨front, mid, back, hsplit⟩ := Solidity.exists_between hpair
  obtain ⟨more, hmore, hshows⟩ := shows_of_split hsplit hmarks
  rw [← List.cons_append, ← List.append_assoc] at hsplit
  obtain ⟨more', hmore', hshows'⟩ := shows_of_split hsplit hmarks'
  refine ⟨textOf front, shownText l, more ++ textOf mid, shownText l', more' ++ (textOf back ++ (scan text).unread), ?_, ?_⟩
  · simpa [hmore'] using hshows
  · simpa [hmore] using hshows'

-- The order in which highlights come.

def Highlight.Before (h h' : Highlight) : Prop := h.line < h'.line ∨ h.line = h'.line ∧ h.start < h'.start

theorem Apart.inOrder (happart : Apart source h h') : h.Before h' := by
  obtain ⟨before, shown, gap, shown', after, hshows, hshows'⟩ := happart
  have hline := hshows'.line
  have hstart := hshows'.start
  rw [List.append_assoc, List.count_append, ← hshows.line] at hline
  by_cases hbreak : '\n' ∈ shown ++ gap
  · have hpos := List.count_pos_iff.mpr hbreak
    exact .inl (by omega)
  · have hpos := List.length_pos_iff.mpr hshows.nonempty
    rw [List.count_eq_zero.mpr hbreak] at hline
    rw [List.append_assoc, Text.lastLine_append_of_notMem hbreak, List.length_append, ← hshows.start,
      List.length_append] at hstart
    exact .inr ⟨by omega, by omega⟩

theorem Highlight.Shows.below {limit : Nat} (hshows : h.Shows source before shown after) (hbelow : Text.Below limit source) :
    h.line < limit ∧ h.start < limit := by
  obtain ⟨c, rest, rfl⟩ := List.exists_cons_of_ne_nil hshows.nonempty
  rw [hshows.line, hshows.start]
  exact hbelow before c (rest ++ after) (by rw [← hshows.text]; simp)

-- Numbers read back.

-- A highlight as an editor knows it, by the names of its type and of its modifiers.
structure Reading where
  line : Nat
  start : Nat
  length : Nat
  type : String
  modifiers : List String
deriving DecidableEq

-- The modifiers whose bits are set.
def modifiersOf (mask : Nat) : List String := (modifierNames.zipIdx.filter fun m => mask.testBit m.2).map Prod.fst

-- Differences are added up without a limit: what an editor reads is lost where one of them has wrapped.
def readFrom (line start : Nat) : List UInt32 → Option (List Reading)
  | [] => some []
  | deltaLine :: deltaStart :: length :: type :: modifiers :: rest => do
    let line := line + deltaLine.toNat
    let start := if deltaLine = 0 then start + deltaStart.toNat else deltaStart.toNat
    let type ← TokenType.all[type.toNat]?
    let more ← readFrom line start rest
    return ⟨line, start, length.toNat, type.name, modifiersOf modifiers.toNat⟩ :: more
  | _ => none

def read (numbers : List UInt32) : Option (List Reading) := readFrom 0 0 numbers

-- What should be read of a highlight; lengths are numbers of 32 bits.
def Highlight.reading (h : Highlight) : Reading :=
  ⟨h.line, h.start, h.length % 2 ^ 32, h.type.name, if h.declares then ["declaration"] else []⟩

theorem all_getElem?_index (t : TokenType) : TokenType.all[(UInt32.ofNat t.index).toNat]? = some t := by
  cases t <;> rfl

theorem modifiersOf_declares (declares : Bool) :
    modifiersOf (if declares then 1 else 0 : UInt32).toNat = if declares then ["declaration"] else [] := by
  cases declares <;> rfl

theorem toNat_sub_ofNat {m n : Nat} (hle : m ≤ n) (hn : n < 2 ^ 32) : (UInt32.ofNat n - UInt32.ofNat m).toNat = n - m := by
  have hm : (UInt32.ofNat m).toNat = m := UInt32.toNat_ofNat_of_lt' (Nat.lt_of_le_of_lt hle hn)
  have hn : (UInt32.ofNat n).toNat = n := UInt32.toNat_ofNat_of_lt' hn
  rw [UInt32.toNat_sub_of_le _ _ (by rw [UInt32.le_iff_toNat_le, hm, hn]; exact hle), hm, hn]

-- A place is read back from its difference to one that is not behind it.
theorem place_reads_back {line start line' start' : Nat} (hplace : line < line' ∨ line = line' ∧ start ≤ start')
    (hline : line' < 2 ^ 32) (hstart : start' < 2 ^ 32) {deltaLine deltaStart : UInt32}
    (hdeltaLine : deltaLine = UInt32.ofNat line' - UInt32.ofNat line)
    (hdeltaStart : deltaStart = if deltaLine = 0 then UInt32.ofNat start' - UInt32.ofNat start else UInt32.ofNat start') :
    line + deltaLine.toNat = line' ∧
      (if deltaLine = 0 then start + deltaStart.toNat else deltaStart.toNat) = start' := by
  have hdelta : deltaLine.toNat = line' - line := by
    rw [hdeltaLine]
    exact toNat_sub_ofNat (by omega) hline
  have hzero : deltaLine = 0 ↔ line' - line = 0 := by
    rw [← UInt32.toNat_inj, hdelta]
    rfl
  rw [hdeltaStart]
  refine ⟨by omega, ?_⟩
  rcases hplace with hbefore | ⟨rfl, hle⟩
  · have hmoved : deltaLine ≠ 0 := mt hzero.mp (by omega)
    rw [if_neg hmoved, if_neg hmoved]
    exact UInt32.toNat_ofNat_of_lt' hstart
  · have hkept : deltaLine = 0 := hzero.mpr (Nat.sub_self _)
    rw [if_pos hkept, if_pos hkept, toNat_sub_ofNat hle hstart]
    omega

-- Highlights that come in order from a place on are read back as they are.
theorem readFrom_encodeFrom {line start : Nat} {hs : List Highlight}
    (hfirst : ∀ h ∈ hs, line < h.line ∨ line = h.line ∧ start ≤ h.start) (horder : hs.Pairwise Highlight.Before)
    (hbelow : ∀ h ∈ hs, h.line < 2 ^ 32 ∧ h.start < 2 ^ 32) :
    readFrom line start (encodeFrom (.ofNat line) (.ofNat start) hs) = some (hs.map Highlight.reading) := by
  induction hs generalizing line start with
  | nil => rfl
  | cons h rest ih =>
      obtain ⟨hbefore, horder⟩ := List.pairwise_cons.mp horder
      obtain ⟨⟨hline, hstart⟩, hrest⟩ := List.forall_mem_cons.mp hbelow
      obtain ⟨hlineRead, hstartRead⟩ := place_reads_back (hfirst h List.mem_cons_self) hline hstart rfl rfl
      have hnext (h' : Highlight) (hh' : h' ∈ rest) : h.line < h'.line ∨ h.line = h'.line ∧ h.start ≤ h'.start :=
        (hbefore h' hh').imp_right fun hsame => ⟨hsame.1, hsame.2.le⟩
      rw [encodeFrom]
      simp only [List.cons_append, List.nil_append, readFrom, hlineRead, hstartRead, all_getElem?_index,
        modifiersOf_declares, ih hnext horder hrest]
      rfl

-- Highlights come in strict order, and their numbers are read back as the highlights that they were written for: no
-- difference wraps in a text whose lines and columns are numbers of 32 bits.
theorem highlights_read_back {text : String} (hbelow : Text.Below (2 ^ 32) text.toList) :
    (highlights text).Pairwise Highlight.Before ∧
      read (encode (highlights text)) = some ((highlights text).map Highlight.reading) := by
  have horder := (highlights_apart text).imp Apart.inOrder
  refine ⟨horder, readFrom_encodeFrom (fun h hh => ?_) horder fun h hh => ?_⟩
  · omega
  · obtain ⟨before, shown, after, hshows⟩ := exists_shows hh
    exact hshows.below hbelow

def declaring : String := "contract A\n\"b\nc\" is"

theorem declaring_read_back : Text.Below (2 ^ 32) declaring.toList ∧ (highlights declaring).Pairwise Highlight.Before ∧
    read (encode (highlights declaring)) =
      some [⟨0, 0, 8, "keyword", []⟩, ⟨0, 9, 1, "type", ["declaration"]⟩, ⟨1, 0, 5, "string", []⟩,
        ⟨2, 3, 2, "keyword", []⟩] := by
  have hbelow : Text.Below (2 ^ 32) declaring.toList := Text.below_of_length (by decide)
  have hhighlights : highlights declaring =
      [⟨0, 0, 8, .keyword, false⟩, ⟨0, 9, 1, .typeName, true⟩, ⟨1, 0, 5, .string, false⟩, ⟨2, 3, 2, .keyword, false⟩] := by
    rw [highlights, Solidity.scan_eq_scanUpTo]
    decide
  obtain ⟨horder, hread⟩ := highlights_read_back hbelow
  refine ⟨hbelow, horder, hread.trans ?_⟩
  rw [hhighlights]
  rfl

-- Measures of the protocol.

-- Highlights as the protocol has them: each starts where the 16-bit units before it on its line end, and on one line
-- each ends before the next.
def Measured (text : String) : Prop :=
  (∀ h ∈ highlights text, ∀ before shown after, h.Shows text.toList before shown after →
    h.start = units16 (lastLine before)) ∧
  (highlights text).IsChain fun h h' => h.line = h'.line → h.start + h.length ≤ h'.start

theorem Highlight.Shows.start_eq_units16_iff (hshows : h.Shows source before shown after) :
    h.start = units16 (lastLine before) ↔ wide (lastLine before) = 0 := by
  rw [hshows.start, Text.units16_eq]
  omega

-- Two highlights on one line, with what is between them.
theorem Apart.onLine (happart : Apart source h h') (hline : h.line = h'.line) : ∃ before shown gap shown' after,
    h.Shows source before shown (gap ++ shown' ++ after) ∧ h'.Shows source (before ++ shown ++ gap) shown' after ∧
      lastLine (before ++ shown ++ gap) = lastLine before ++ (shown ++ gap) := by
  obtain ⟨before, shown, gap, shown', after, hshows, hshows'⟩ := happart
  refine ⟨before, shown, gap, shown', after, hshows, hshows', ?_⟩
  have hcount := hshows'.line
  rw [← hline, hshows.line, List.append_assoc, List.count_append] at hcount
  rw [List.append_assoc, Text.lastLine_append_of_notMem (List.count_eq_zero.mp (by omega))]

theorem disjoint_iff {gap shown' : List Char} (hshows : h.Shows source before shown (gap ++ shown' ++ after))
    (hshows' : h'.Shows source (before ++ shown ++ gap) shown' after)
    (hlast : lastLine (before ++ shown ++ gap) = lastLine before ++ (shown ++ gap)) :
    h.start + h.length ≤ h'.start ↔ wide shown ≤ gap.length := by
  have hstart := hshows'.start
  rw [hlast, List.length_append, List.length_append, ← hshows.start] at hstart
  rw [hshows.length, Text.units16_eq]
  omega

-- Every highlight stands for a part of its text. All have the measures of the protocol exactly when no character that
-- takes two units is before one of them on its line; and of two on one line the first ends before the second exactly
-- when it has no more of these characters than there are characters between the two.
theorem measured_iff (text : String) :
    (∀ h ∈ highlights text, ∃ before shown after, h.Shows text.toList before shown after) ∧
    (Measured text ↔ ∀ h ∈ highlights text, ∀ before shown after, h.Shows text.toList before shown after →
      wide (lastLine before) = 0) ∧
    (highlights text).Pairwise fun h h' => h.line = h'.line → ∃ before shown gap shown' after,
      h.Shows text.toList before shown (gap ++ shown' ++ after) ∧
      h'.Shows text.toList (before ++ shown ++ gap) shown' after ∧
      (h.start + h.length ≤ h'.start ↔ wide shown ≤ gap.length) := by
  refine ⟨fun h => exists_shows, ⟨fun hmeasured h hh before shown after hshows => ?_, fun hnarrow => ⟨?_, ?_⟩⟩, ?_⟩
  · exact hshows.start_eq_units16_iff.mp (hmeasured.1 h hh before shown after hshows)
  · intro h hh before shown after hshows
    exact hshows.start_eq_units16_iff.mpr (hnarrow h hh before shown after hshows)
  · refine ((highlights_apart text).imp_of_mem fun {h h'} _ hh' happart hline => ?_).isChain
    obtain ⟨before, shown, gap, shown', after, hshows, hshows', hlast⟩ := happart.onLine hline
    have hzero := hnarrow h' hh' _ _ _ hshows'
    rw [hlast, wide, List.countP_append, List.countP_append] at hzero
    exact (disjoint_iff hshows hshows' hlast).mpr (by unfold wide; omega)
  · refine (highlights_apart text).imp fun happart hline => ?_
    obtain ⟨before, shown, gap, shown', after, hshows, hshows', hlast⟩ := happart.onLine hline
    exact ⟨before, shown, gap, shown', after, hshows, hshows', disjoint_iff hshows hshows' hlast⟩

def emoji : String := "\"😀\"+1"

-- Behind a character of two units the operator starts one unit too early, inside of the literal.
theorem emoji_unmeasured :
    highlights emoji = [⟨0, 0, 4, .string, false⟩, ⟨0, 3, 1, .operator, false⟩, ⟨0, 4, 1, .number, false⟩] ∧
      units16 (lastLine "\"😀\"".toList) = 4 ∧ ¬Measured emoji := by
  have hhighlights : highlights emoji =
      [⟨0, 0, 4, .string, false⟩, ⟨0, 3, 1, .operator, false⟩, ⟨0, 4, 1, .number, false⟩] := by
    rw [highlights, Solidity.scan_eq_scanUpTo]
    decide
  refine ⟨hhighlights, by decide, fun hmeasured => ?_⟩
  have hchain := hmeasured.2
  rw [hhighlights] at hchain
  exact absurd (List.isChain_cons_cons.mp hchain).1 (by decide)

end Editor

end RustContracts
