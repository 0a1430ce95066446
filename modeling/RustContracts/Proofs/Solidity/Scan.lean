import Mathlib
import RustContracts.Proofs.Rust.Identifier

-- Lexemes cover their text: behind one another, without gap, each at its place, and each as long as its rule says.
namespace RustContracts

namespace Text

-- What a text has on its last line.
def lastLine (text : List Char) : List Char := text.rtakeWhile (· != '\n')

-- The place behind a text.
def placeBehind (text : List Char) : Position := ⟨text.count '\n' + 1, (lastLine text).length + 1⟩

theorem advanceOver_start (text : List Char) : Position.start.advanceOver text = placeBehind text := by
  induction text using List.reverseRecOn with
  | nil => rfl
  | append_singleton text c ih =>
      rw [Position.advanceOver_append, ih]
      change (placeBehind text).advance c = _
      by_cases hc : c = '\n'
      · subst hc
        simp [placeBehind, lastLine, Position.advance, List.rtakeWhile_concat_neg]
      · simp [placeBehind, lastLine, Position.advance, List.rtakeWhile_concat_pos, hc]

end Text

namespace Solidity

open Text (Position placeBehind)

variable {cs rest : List Char} {p : Position} {front back : List Lexeme} {l : Lexeme} {n : Nat} {quote : Char}

-- The text that lexemes make together.
def textOf (ls : List Lexeme) : List Char := ls.flatMap fun l => l.text.toList

@[simp] theorem textOf_nil : textOf [] = [] := rfl

@[simp] theorem textOf_cons (l : Lexeme) (ls : List Lexeme) : textOf (l :: ls) = l.text.toList ++ textOf ls := rfl

@[simp] theorem textOf_append (ls ls' : List Lexeme) : textOf (ls ++ ls') = textOf ls ++ textOf ls' :=
  List.flatMap_append

-- What a scan leaves unread.
def Scan.unread (s : Scan) : List Char := (s.stuck.map Prod.snd).getD []

theorem textOf_scanFrom (p : Position) (cs : List Char) :
    textOf (scanFrom p cs).lexemes ++ (scanFrom p cs).unread = cs := by
  fun_induction scanFrom p cs with
  | case1 => rfl
  | case2 => rfl
  | case3 p c rest k n hrule text tail ih =>
      rw [textOf_cons, String.toList_ofList, List.append_assoc]
      exact (congrArg (text ++ ·) ih).trans (List.take_append_drop n (c :: rest))

theorem textOf_scan (source : String) : textOf (scan source).lexemes ++ (scan source).unread = source.toList :=
  textOf_scanFrom .start source.toList

-- A scan of at most so many lexemes, by recursion on their number: as many as there are characters are enough.
def scanUpTo : Nat → Position → List Char → Scan
  | _, p, [] => ⟨[], none, p⟩
  | 0, p, cs => ⟨[], some (p, cs), p⟩
  | bound + 1, p, c :: rest =>
    match firstRule (c :: rest) with
    | none => ⟨[], some (p, c :: rest), p⟩
    | some (k, n) =>
      let text := (c :: rest).take n
      let tail := scanUpTo bound (p.advanceOver text) ((c :: rest).drop n)
      ⟨⟨k, String.ofList text, p⟩ :: tail.lexemes, tail.stuck, tail.stop⟩

theorem scanFrom_eq_scanUpTo : ∀ bound, cs.length ≤ bound → scanFrom p cs = scanUpTo bound p cs := by
  fun_induction scanFrom p cs with
  | case1 p =>
      intro bound _
      cases bound <;> rfl
  | case2 p c rest hrule =>
      intro bound hbound
      obtain ⟨bound, rfl⟩ := Nat.exists_eq_add_one.mpr (Nat.lt_of_lt_of_le (Nat.succ_pos _) hbound)
      rw [scanUpTo, hrule]
  | case3 p c rest k n hrule text tail ih =>
      intro bound hbound
      obtain ⟨bound, rfl⟩ := Nat.exists_eq_add_one.mpr (Nat.lt_of_lt_of_le (Nat.succ_pos _) hbound)
      have hpos := firstRule_pos hrule
      have htail := ih bound (by rw [List.length_drop]; omega)
      rw [scanUpTo, hrule]
      dsimp only
      rw [← htail]

theorem scan_eq_scanUpTo (source : String) : scan source = scanUpTo source.toList.length .start source.toList :=
  scanFrom_eq_scanUpTo _ le_rfl

-- A lexeme as the first rule that applies to a text gives it, with what is left behind it.
structure Lexeme.Heads (l : Lexeme) (cs after : List Char) : Prop where
  rule : firstRule cs = some (l.kind, l.kind.matchLength cs)
  text : cs.take (l.kind.matchLength cs) = l.text.toList
  after : cs.drop (l.kind.matchLength cs) = after

theorem Lexeme.Heads.ne_nil (h : l.Heads cs rest) : l.text.toList ≠ [] := by
  have hpos := firstRule_pos h.rule
  rw [← h.text, Ne, List.take_eq_nil_iff, not_or]
  refine ⟨hpos.ne', ?_⟩
  rintro rfl
  cases h.rule

-- Each lexeme of a scan stands behind those before it, and heads what is left of the text there.
theorem lexeme_of_scanFrom : ∀ front, (scanFrom p cs).lexemes = front ++ l :: back →
    l.start = p.advanceOver (textOf front) ∧ ∃ rest, l.Heads rest (textOf back ++ (scanFrom p cs).unread) := by
  fun_induction scanFrom p cs with
  | case1 => simp
  | case2 => simp
  | case3 p c rest k n hrule text tail ih =>
      intro front h
      cases front with
      | nil =>
          obtain ⟨rfl, rfl⟩ := List.cons.inj h
          obtain rfl := length_of_firstRule hrule
          exact ⟨rfl, c :: rest, hrule, String.toList_ofList.symm, (textOf_scanFrom _ _).symm⟩
      | cons first front =>
          obtain ⟨rfl, htail⟩ := List.cons.inj h
          obtain ⟨hstart, hheads⟩ := ih front htail
          refine ⟨?_, hheads⟩
          rw [hstart, textOf_cons, String.toList_ofList, Position.advanceOver_append]

-- Of two lexemes of a scan, one stands before the other.
theorem exists_between {ls : List Lexeme} {l l' : Lexeme} (h : [l, l'].Sublist ls) :
    ∃ front mid back, ls = front ++ l :: (mid ++ l' :: back) := by
  obtain ⟨first, last, rfl, hl, hl'⟩ := List.cons_sublist_iff.mp h
  obtain ⟨front, mid, rfl⟩ := List.append_of_mem hl
  obtain ⟨mid', back, rfl⟩ := List.append_of_mem (List.singleton_sublist.mp hl')
  exact ⟨front, mid ++ mid', back, by simp⟩

-- What single rules take.

theorem take_spanLength (q : Char → Bool) (cs : List Char) : cs.take (spanLength q cs) = cs.takeWhile q :=
  (List.prefix_iff_eq_take.mp (List.takeWhile_prefix q)).symm

theorem drop_spanLength (q : Char → Bool) (cs : List Char) : cs.drop (spanLength q cs) = cs.dropWhile q := by
  have h := List.take_append_drop (spanLength q cs) cs
  rw [take_spanLength] at h
  exact List.append_cancel_left (h.trans List.takeWhile_append_dropWhile.symm)

-- A pragma begins with its word.
theorem pragma_of_length (h : 0 < pragmaLength cs) : "pragma".toList <+: cs.take (pragmaLength cs) := by
  unfold pragmaLength at h ⊢
  dsimp only at h ⊢
  split at h
  · next hword =>
      obtain ⟨rest, rfl⟩ := List.isPrefixOf_iff_prefix.mp hword
      rw [if_pos hword]
      split at h
      · cases h
      · next hbound =>
          rw [if_neg hbound]
          split at h
          · next hclosed =>
              rw [if_pos hclosed, Nat.add_assoc, List.take_length_add_append]
              exact List.prefix_append _ _
          · cases h
  · cases h

-- From two slashes to the end of the line.
def IsLineComment (text after : List Char) : Prop :=
  ∃ body, text = '/' :: '/' :: body ∧ '\n' ∉ body ∧ ∀ c ∈ after.head?, c = '\n'

-- From an opening to the first `*/` behind it.
def IsBlockComment (text : List Char) : Prop :=
  ∃ body, text = '/' :: '*' :: body ++ ['*', '/'] ∧ ¬['*', '/'] <:+: body ++ ['*']

theorem blockCommentEnd_eq (h : blockCommentEnd cs = some n) :
    ∃ body rest, cs = body ++ '*' :: '/' :: rest ∧ n = body.length + 2 ∧ ¬['*', '/'] <:+: body ++ ['*'] := by
  fun_induction blockCommentEnd cs generalizing n with
  | case1 => cases h
  | case2 rest =>
      obtain rfl := Option.some.inj h
      exact ⟨[], rest, rfl, rfl, by decide⟩
  | case3 c cs hopen ih =>
      obtain ⟨m, hm, rfl⟩ := Option.map_eq_some_iff.mp h
      obtain ⟨body, rest, rfl, rfl, hfirst⟩ := ih hm
      refine ⟨c :: body, rest, rfl, rfl, fun hinfix => ?_⟩
      rcases List.infix_cons_iff.mp hinfix with hstands | hinfix
      · -- the body would begin with the slash behind a star
        obtain ⟨rfl, hslash⟩ := List.cons_prefix_cons.mp hstands
        cases body with
        | nil => simp at hslash
        | cons d body =>
            obtain ⟨rfl, -⟩ := List.cons_prefix_cons.mp hslash
            exact hopen _ rfl rfl
      · exact hfirst hinfix

theorem comment_of_length (h : 0 < commentLength cs) :
    IsLineComment (cs.take (commentLength cs)) (cs.drop (commentLength cs)) ∨
      IsBlockComment (cs.take (commentLength cs)) := by
  fun_cases commentLength cs with
  | case1 rest =>
      refine .inl ⟨rest.takeWhile (· != '\n'), ?_, fun hbreak => ?_, fun c hc => ?_⟩
      · rw [Nat.add_comm, List.take_succ_cons, List.take_succ_cons, take_spanLength]
      · simpa using List.mem_takeWhile_imp hbreak
      · rw [Nat.add_comm, List.drop_succ_cons, List.drop_succ_cons, drop_spanLength] at hc
        have hstop := List.head?_dropWhile_not (· != '\n') rest
        rw [Option.mem_def.mp hc] at hstop
        simpa using hstop
  | case2 rest n hend =>
      obtain ⟨body, rest', rfl, rfl, hfirst⟩ := blockCommentEnd_eq hend
      refine .inr ⟨body, ?_, hfirst⟩
      simp [Nat.add_comm 2, List.take_append]
  | case3 rest hend => simp [commentLength, hend] at h
  | case4 _ hline hblock =>
      rw [commentLength] at h
      · cases h
      · exact hline
      · exact hblock

-- Whether a character behind a text in a literal is escaped: a backslash stands before it that is not escaped itself.
def isEscaped (text : List Char) : Bool := text.foldl (fun escaped c => c == '\\' && !escaped) false

-- From a quote to the next one of its kind that is not escaped.
def IsQuoted (text : List Char) : Prop :=
  ∃ quote inner, (quote = '"' ∨ quote = '\'') ∧ text = quote :: inner ++ [quote] ∧ isEscaped inner = false ∧
    ∀ front back, inner = front ++ quote :: back → isEscaped front = true

theorem isEscaped_pair (c : Char) (text : List Char) : isEscaped ('\\' :: c :: text) = isEscaped text := by
  simp [isEscaped]

theorem isEscaped_cons {c : Char} (hc : c ≠ '\\') (text : List Char) : isEscaped (c :: text) = isEscaped text := by
  simp [isEscaped, beq_eq_false_iff_ne.mpr hc]

theorem stringEnd_eq (hquote : quote ≠ '\\') (h : stringEnd quote cs = some n) :
    ∃ inner rest, cs = inner ++ quote :: rest ∧ n = inner.length + 1 ∧ isEscaped inner = false ∧
      ∀ front back, inner = front ++ quote :: back → isEscaped front = true := by
  fun_induction stringEnd quote cs generalizing n with
  | case1 => cases h
  | case2 => cases h
  | case3 => cases h
  | case4 c rest hbreak ih =>
      obtain ⟨m, hm, rfl⟩ := Option.map_eq_some_iff.mp h
      obtain ⟨inner, rest', rfl, rfl, hescaped, hfirst⟩ := ih hm
      refine ⟨'\\' :: c :: inner, rest', rfl, rfl, (isEscaped_pair c inner).trans hescaped, fun front back hinner => ?_⟩
      match front with
      | [] => exact absurd (List.cons.inj hinner).1.symm hquote
      | [d] =>
          rw [← (List.cons.inj hinner).1]
          rfl
      | d :: e :: front =>
          obtain ⟨hd, hinner⟩ := List.cons.inj hinner
          rw [← hd, isEscaped_pair]
          exact hfirst front back (List.cons.inj hinner).2
  | case5 rest hlone hpair =>
      obtain rfl := Option.some.inj h
      exact ⟨[], rest, rfl, rfl, rfl, by simp⟩
  | case6 c rest hlone hpair hne ih =>
      obtain ⟨m, hm, rfl⟩ := Option.map_eq_some_iff.mp h
      obtain ⟨inner, rest', rfl, rfl, hescaped, hfirst⟩ := ih hm
      have hplain : c ≠ '\\' := by
        rintro rfl
        cases inner with
        | nil => exact hpair _ _ rfl rfl
        | cons d inner => exact hpair _ _ rfl rfl
      refine ⟨c :: inner, rest', rfl, rfl, (isEscaped_cons hplain inner).trans hescaped, fun front back hinner => ?_⟩
      cases front with
      | nil => exact absurd (List.cons.inj hinner).1 hne
      | cons d front =>
          obtain ⟨hd, hinner⟩ := List.cons.inj hinner
          rw [← hd, isEscaped_cons hplain]
          exact hfirst front back hinner

theorem quoted_of_length (h : 0 < stringLength cs) : IsQuoted (cs.take (stringLength cs)) := by
  have hquoted {quote : Char} {rest : List Char} (hquote : quote = '"' ∨ quote = '\'')
      (h : 0 < ((stringEnd quote rest).map (· + 1)).getD 0) :
      IsQuoted ((quote :: rest).take (((stringEnd quote rest).map (· + 1)).getD 0)) := by
    cases hend : stringEnd quote rest with
    | none => simp [hend] at h
    | some n =>
        have hplain : quote ≠ '\\' := by rcases hquote with rfl | rfl <;> decide
        obtain ⟨inner, rest', rfl, rfl, hescaped, hfirst⟩ := stringEnd_eq hplain hend
        exact ⟨quote, inner, hquote, by simp [List.take_append], hescaped, hfirst⟩
  unfold stringLength at h ⊢
  split at h
  · exact hquoted (.inl rfl) h
  · exact hquoted (.inr rfl) h
  · cases h

-- One of the operators, and none that is longer stands there.
def IsLongestOperator (text after : List Char) : Prop :=
  String.ofList text ∈ operators ∧ ∀ o ∈ operators, o.toList <+: text ++ after → o.length ≤ text.length

theorem operators_longest_first : operators.Pairwise fun o o' => o'.length ≤ o.length := by decide

theorem operator_of_length (h : 0 < operatorLength cs) :
    IsLongestOperator (cs.take (operatorLength cs)) (cs.drop (operatorLength cs)) := by
  rw [IsLongestOperator, List.take_append_drop]
  cases hfind : operators.find? (fun o => o.toList.isPrefixOf cs) with
  | none => simp [operatorLength, hfind] at h
  | some o =>
      have hlength : operatorLength cs = o.length := by simp [operatorLength, hfind]
      obtain ⟨hstands, front, back, hall, hnone⟩ := List.find?_eq_some_iff_append.mp hfind
      have htake : cs.take (operatorLength cs) = o.toList := by
        rw [hlength, ← String.length_toList]
        exact (List.prefix_iff_eq_take.mp (List.isPrefixOf_iff_prefix.mp hstands)).symm
      rw [htake, String.ofList_toList, String.length_toList]
      refine ⟨hall ▸ by simp, fun o' ho' hstands' => ?_⟩
      have hsorted := operators_longest_first
      rw [hall] at ho' hsorted
      rcases List.mem_append.mp ho' with ho' | ho'
      · simpa [List.isPrefixOf_iff_prefix.mpr hstands'] using hnone o' ho'
      · rcases List.mem_cons.mp ho' with rfl | ho'
        · exact le_rfl
        · exact (List.pairwise_cons.mp (List.pairwise_append.mp hsorted).2.1).1 o' ho'

-- What holds of a lexeme between two texts.
structure Lexeme.Fits (l : Lexeme) (before after : List Char) : Prop where
  nonempty : l.text ≠ ""
  start : l.start = placeBehind before
  comment : l.kind = .comment → IsLineComment l.text.toList after ∨ IsBlockComment l.text.toList
  string : l.kind = .string → IsQuoted l.text.toList
  operator : l.kind = .operator → IsLongestOperator l.text.toList after

theorem Lexeme.Heads.fits (h : l.Heads cs rest) {before : List Char} (hstart : l.start = placeBehind before) :
    l.Fits before rest := by
  have hpos := firstRule_pos h.rule
  have htext := h.text
  have hrest := h.after
  refine ⟨?_, hstart, ?_, ?_, ?_⟩
  · intro hempty
    exact h.ne_nil (by rw [hempty]; rfl)
  all_goals
    intro hkind
    rw [hkind] at hpos htext hrest
    rw [← htext]
  · rw [← hrest]
    exact comment_of_length hpos
  · exact quoted_of_length hpos
  · rw [← hrest]
    exact operator_of_length hpos

-- The lexemes of a text that has nothing but lexemes make that text again, and each fits in where it stands: it is not
-- empty, has the line and the column of its first character, and ends where a comment, a literal or an operator has to.
theorem scan_tiles {source : String} (h : (scan source).stuck = none) :
    String.join ((scan source).lexemes.map Lexeme.text) = source ∧
      ∀ front l back, (scan source).lexemes = front ++ l :: back → l.Fits (textOf front) (textOf back) := by
  have hunread : (scan source).unread = [] := by rw [Scan.unread, h]; rfl
  constructor
  · have hwhole := textOf_scan source
    rw [hunread, List.append_nil] at hwhole
    rw [← String.toList_inj, String.toList_join, List.flatMap_map]
    exact hwhole
  · intro front l back hsplit
    obtain ⟨hstart, rest, hheads⟩ := lexeme_of_scanFrom front hsplit
    rw [show (scanFrom .start source.toList).unread = [] from hunread, List.append_nil] at hheads
    exact hheads.fits (hstart.trans (Text.advanceOver_start _))

-- Quotes stand in a comment and behind a backslash, where they end nothing.
def quoting : String := "/*\"**/ x>>\"\\\"\""

theorem quoting_tiles : (scan quoting).stuck = none ∧
    String.join ["/*\"**/", " ", "x", ">>", "\"\\\"\""] = quoting ∧
    (⟨.operator, ">>", ⟨1, 9⟩⟩ : Lexeme).Fits "/*\"**/ x".toList "\"\\\"\"".toList := by
  have hlexemes : (scan quoting).lexemes =
      [⟨.comment, "/*\"**/", ⟨1, 1⟩⟩, ⟨.whitespace, " ", ⟨1, 7⟩⟩, ⟨.ident, "x", ⟨1, 8⟩⟩, ⟨.operator, ">>", ⟨1, 9⟩⟩,
        ⟨.string, "\"\\\"\"", ⟨1, 11⟩⟩] := by
    rw [scan_eq_scanUpTo]
    decide
  have hstuck : (scan quoting).stuck = none := by
    rw [scan_eq_scanUpTo]
    decide
  obtain ⟨hjoin, hfits⟩ := scan_tiles hstuck
  rw [hlexemes] at hjoin hfits
  exact ⟨hstuck, hjoin, hfits [_, _, _] _ [_] rfl⟩

end Solidity

end RustContracts
