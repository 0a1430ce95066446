import Mathlib
import RustContracts.Rust.Name
import RustContracts.Solidity.Lexeme

-- Legal identifiers, and what becomes of a name of the source: it is written as one, unless there is a dollar in it or
-- it is a lone underscore.
namespace RustContracts

namespace Text

theorem toLower_ne_underscore {c : Char} (hc : c ≠ '_') : c.toLower ≠ '_' := by
  intro h
  unfold Char.toLower at h
  split at h
  · rename_i hrange
    have hsum : (c.val + 32).toNat = 95 := congrArg (fun c => c.val.toNat) h
    have hlow : 65 ≤ c.val.toNat := hrange.1
    have hhigh : c.val.toNat ≤ 90 := hrange.2
    rw [UInt32.toNat_add] at hsum
    have : (32 : UInt32).toNat = 32 := rfl
    omega
  · exact hc h

end Text

namespace Solidity

-- A name as the lexer reads it.
def isIdentifier (name : String) : Bool := name.toList.head?.any isIdentStart && name.toList.all isIdentChar

theorem isIdentChar_of_start {c : Char} (h : isIdentStart c = true) : isIdentChar c = true := by
  simp only [isIdentStart, isIdentChar, Char.isAlphanum, Bool.or_eq_true] at h ⊢
  exact h.elim (fun h => .inl (h.elim (fun h => .inl (.inl h)) .inr)) .inr

theorem length_of_firstRule {cs : List Char} {k : LexemeKind} {n : Nat} (h : firstRule cs = some (k, n)) :
    n = k.matchLength cs := by
  obtain ⟨k', -, hk⟩ := List.exists_of_findSome?_eq_some h
  dsimp only at hk
  split at hk
  · obtain ⟨rfl, rfl⟩ := Prod.mk.inj (Option.some.inj hk)
    rfl
  · cases hk

theorem isIdentifier_iff {name : String} : isIdentifier name = true ↔
    ∃ c cs, name.toList = c :: cs ∧ isIdentStart c = true ∧ ∀ d ∈ c :: cs, isIdentChar d = true := by
  rw [isIdentifier, Bool.and_eq_true, List.all_eq_true]
  cases name.toList with
  | nil => simp
  | cons c cs => exact ⟨fun h => ⟨c, cs, rfl, h⟩, by rintro ⟨_, _, ⟨⟩, h⟩; exact h⟩

end Solidity

namespace Rust

-- Words that the language uses itself, those that it only keeps for later among them.
def ownWords : List String :=
  ["abstract", "as", "async", "await", "become", "box", "break", "const", "continue", "crate", "do", "dyn", "else",
   "enum", "extern", "false", "final", "fn", "for", "if", "impl", "in", "let", "loop", "macro", "match", "mod", "move",
   "mut", "override", "priv", "pub", "ref", "return", "self", "Self", "static", "struct", "super", "trait", "true",
   "try", "type", "typeof", "unsafe", "unsized", "use", "virtual", "where", "while", "yield"]

-- Words that no identifier is, not even behind the mark of raw identifiers.
def pathWords : List String := ["crate", "self", "Self", "super"]

-- Letters beyond ASCII, which no name of a source has, are left out.
def isNameStart (c : Char) : Bool := c.isAlpha || c == '_'

def isNameChar (c : Char) : Bool := c.isAlphanum || c == '_'

def isWord : List Char → Bool
  | [] => false
  | c :: cs => isNameStart c && cs.all isNameChar && c :: cs != ['_']

-- The word of a raw identifier.
def bare : List Char → List Char
  | 'r' :: '#' :: word => word
  | word => word

-- A word that the language does not use, or behind the mark of raw identifiers one that it may use.
def isIdentifier (name : String) : Bool :=
  isWord (bare name.toList) &&
    if bare name.toList = name.toList then !ownWords.contains name
    else !pathWords.contains (String.ofList (bare name.toList))

-- Two names are one identifier when they differ in the mark only.
def identifier (name : String) : String := String.ofList (bare name.toList)

-- Characters.

-- What holds of each character of ASCII.
theorem of_ascii {P : Char → Prop} (h : ∀ n : Fin 128, P (Char.ofNat n)) {c : Char} (hc : c.toNat < 128) : P c := by
  have hchar := h ⟨c.toNat, hc⟩
  rwa [Char.ofNat_toNat] at hchar

theorem ascii_of_isIdentChar {c : Char} (h : Solidity.isIdentChar c = true) : c.toNat < 128 := by
  simp only [Solidity.isIdentChar, Char.isAlphanum, Char.isAlpha, Char.isUpper, Char.isLower, Char.isDigit,
    Bool.or_eq_true, Bool.and_eq_true, decide_eq_true_eq, beq_iff_eq, UInt32.le_iff_toNat_le, ge_iff_le] at h
  have : c.toNat = c.val.toNat := rfl
  rcases h with (h | rfl) | rfl
  · simp at h
    omega
  all_goals decide

section Chars

variable {c : Char}

theorem isBlank_of_isIdentChar (h : Solidity.isIdentChar c = true) : Text.isBlank c = false :=
  of_ascii (P := fun c => Solidity.isIdentChar c = true → Text.isBlank c = false) (by decide)
    (ascii_of_isIdentChar h) h

theorem isDivider_of_isIdentChar (h : Solidity.isIdentChar c = true) (hne : c ≠ '_') : Text.isDivider c = false :=
  of_ascii (P := fun c => Solidity.isIdentChar c = true → c ≠ '_' → Text.isDivider c = false) (by decide)
    (ascii_of_isIdentChar h) h hne

theorem isSnakeChar_toLower (h : Solidity.isIdentChar c = true) (hne : c ≠ '$') :
    Name.isSnakeChar c.toLower = true :=
  of_ascii (P := fun c => Solidity.isIdentChar c = true → c ≠ '$' → Name.isSnakeChar c.toLower = true)
    (by decide) (ascii_of_isIdentChar h) h hne

theorem toLower_eq_self (h : Solidity.isIdentChar c = true) (hsnake : Name.isSnakeChar c = true) : c.toLower = c :=
  of_ascii (P := fun c => Solidity.isIdentChar c = true → Name.isSnakeChar c = true → c.toLower = c)
    (by decide) (ascii_of_isIdentChar h) h hsnake

theorem isIdentStart_toLower (h : Solidity.isIdentStart c = true) : Solidity.isIdentStart c.toLower = true :=
  of_ascii (P := fun c => Solidity.isIdentStart c = true → Solidity.isIdentStart c.toLower = true)
    (by decide) (ascii_of_isIdentChar (Solidity.isIdentChar_of_start h)) h

theorem isNameStart_eq (h : Solidity.isIdentStart c = true) : isNameStart c = isNameChar c := by
  simp only [Solidity.isIdentStart, Bool.or_eq_true, beq_iff_eq] at h
  rcases h with (h | rfl) | rfl
  · simp [isNameStart, isNameChar, Char.isAlphanum, h]
  · rfl
  · rfl

theorem isNameStart_of_isIdentStart (h : Solidity.isIdentStart c = true) (hne : c ≠ '$') : isNameStart c = true := by
  simpa [Solidity.isIdentStart, isNameStart, hne] using h

theorem isNameChar_of_isSnakeChar (h : Name.isSnakeChar c = true) : isNameChar c = true := by
  simp only [Name.isSnakeChar, isNameChar, Char.isAlphanum, Char.isAlpha, Bool.or_eq_true] at h ⊢
  exact h.imp_left fun h => h.imp_left .inr

end Chars

-- Words of a name.

section Delimited

open Text (delimited isDivider)

variable {shape : Char → Char} {previous : Text.CharClass} {cs : List Char} {d : Char}

theorem mem_delimited (h : d ∈ delimited shape previous cs) : d = '_' ∨ ∃ c ∈ cs, d = shape c := by
  fun_induction delimited shape previous cs with
  | case1 => cases h
  | case2 previous c => grind
  | case3 => grind
  | case4 => grind

theorem shape_mem_delimited {c : Char} (hc : c ∈ cs) (hdivider : isDivider c = false) :
    shape c ∈ delimited shape previous cs := by
  fun_induction delimited shape previous cs with
  | case1 => cases hc
  | case2 previous c => grind
  | case3 => grind
  | case4 => grind

theorem delimited_cons {c : Char} (hdivider : isDivider c = false) :
    ∃ more, delimited shape .other (c :: cs) = shape c :: more := by
  cases cs with
  | nil => exact ⟨[], by simp [delimited, hdivider]⟩
  | cons next rest =>
      rw [delimited]
      dsimp only
      split
      · rw [if_neg (by simp)]
        exact ⟨_, rfl⟩
      · rw [hdivider]
        exact ⟨_, rfl⟩

end Delimited

theorem trimBlank_eq_self {cs : List Char} (h : ∀ c ∈ cs, Text.isBlank c = false) : Text.trimBlank cs = cs := by
  have hkeep {xs : List Char} (hxs : ∀ c ∈ xs, Text.isBlank c = false) : xs.dropWhile Text.isBlank = xs := by
    cases xs with
    | nil => rfl
    | cons x xs => rw [List.dropWhile_cons_of_neg (by simp [hxs])]
  rw [Text.trimBlank, hkeep h, hkeep (by simpa using h), List.reverse_reverse]

namespace Name

-- The snake-case form of a name, before keywords are told apart.

def words (rest : List Char) : List Char := if rest.all isSnakeChar then rest else Text.snake rest

def spelling (name : String) : List Char :=
  name.toList.takeWhile (· == '_') ++ words (name.toList.dropWhile (· == '_'))

def escaped (word : String) : String :=
  if reserved.contains word then word ++ "_"
  else if keywords.contains word then "r#" ++ word
  else word

section Words

variable {rest : List Char} {d : Char}

theorem snake_eq_delimited (h : ∀ c ∈ rest, Solidity.isIdentChar c = true) :
    Text.snake rest = Text.delimited Char.toLower .other rest := by
  rw [Text.snake, trimBlank_eq_self fun c hc => isBlank_of_isIdentChar (h c hc)]

theorem mem_words (h : ∀ c ∈ rest, Solidity.isIdentChar c = true) (hd : d ∈ words rest) :
    isSnakeChar d = true ∨ d = '$' ∧ '$' ∈ rest := by
  unfold words at hd
  split at hd
  · next hsnake => exact .inl (List.all_eq_true.mp hsnake d hd)
  · rw [snake_eq_delimited h] at hd
    rcases mem_delimited hd with rfl | ⟨c, hc, rfl⟩
    · exact .inl rfl
    · by_cases hdollar : c = '$'
      · exact .inr ⟨by rw [hdollar]; rfl, hdollar ▸ hc⟩
      · exact .inl (isSnakeChar_toLower (h c hc) hdollar)

theorem dollar_mem_words (h : ∀ c ∈ rest, Solidity.isIdentChar c = true) (hdollar : '$' ∈ rest) : '$' ∈ words rest := by
  unfold words
  split
  · exact hdollar
  · rw [snake_eq_delimited h]
    exact @shape_mem_delimited Char.toLower _ _ '$' hdollar rfl

theorem words_cons {c : Char} (h : ∀ d ∈ c :: rest, Solidity.isIdentChar d = true) (hne : c ≠ '_') :
    ∃ more, words (c :: rest) = c.toLower :: more := by
  unfold words
  split
  · next hsnake =>
      rw [toLower_eq_self (h c List.mem_cons_self) (List.all_eq_true.mp hsnake c List.mem_cons_self)]
      exact ⟨rest, rfl⟩
  · rw [snake_eq_delimited h]
    exact delimited_cons (isDivider_of_isIdentChar (h c List.mem_cons_self) hne)

end Words

section Spelling

variable {name : String} {d : Char}

theorem mem_spelling (h : Solidity.isIdentifier name = true) (hd : d ∈ spelling name) :
    isSnakeChar d = true ∨ d = '$' ∧ '$' ∈ name.toList := by
  obtain ⟨c, cs, hname, -, hchars⟩ := Solidity.isIdentifier_iff.mp h
  rw [← hname] at hchars
  rcases List.mem_append.mp hd with hd | hd
  · obtain rfl : d = '_' := by simpa using List.mem_takeWhile_imp hd
    exact .inl rfl
  · refine (mem_words (fun c hc => hchars c ((List.dropWhile_suffix _).subset hc)) hd).imp_right fun hdollar => ?_
    exact ⟨hdollar.1, (List.dropWhile_suffix _).subset hdollar.2⟩

theorem dollar_mem_spelling (h : Solidity.isIdentifier name = true) : '$' ∈ spelling name ↔ '$' ∈ name.toList := by
  obtain ⟨c, cs, hname, -, hchars⟩ := Solidity.isIdentifier_iff.mp h
  rw [← hname] at hchars
  constructor
  · intro hd
    exact (mem_spelling h hd).elim (fun hsnake => nomatch hsnake) And.right
  · intro hd
    refine List.mem_append_right _ (dollar_mem_words (fun c hc => hchars c ((List.dropWhile_suffix _).subset hc)) ?_)
    rw [← List.takeWhile_append_dropWhile (p := (· == '_')) (l := name.toList), List.mem_append] at hd
    exact hd.resolve_left fun hlead => by simpa using List.mem_takeWhile_imp hlead

-- What stands behind the underscores in front: nothing, or words that start with a letter, a digit or a dollar.
theorem spelling_cases (h : Solidity.isIdentifier name = true) :
    (spelling name = name.toList ∧ ∀ c ∈ name.toList, c = '_') ∨
    ∃ c cs more, c ≠ '_' ∧ name.toList = name.toList.takeWhile (· == '_') ++ c :: cs ∧
      spelling name = name.toList.takeWhile (· == '_') ++ c.toLower :: more := by
  obtain ⟨c, cs, hname, -, hchars⟩ := Solidity.isIdentifier_iff.mp h
  rw [← hname] at hchars
  have hsplit := List.takeWhile_append_dropWhile (p := (· == '_')) (l := name.toList)
  rw [spelling]
  cases hrest : name.toList.dropWhile (· == '_') with
  | nil =>
      rw [hrest, List.append_nil] at hsplit
      refine .inl ⟨by rw [hsplit]; exact List.append_nil _, fun c hc => ?_⟩
      rw [← hsplit] at hc
      simpa using List.mem_takeWhile_imp hc
  | cons c cs =>
      have hne : c ≠ '_' := by simpa [hrest] using List.head?_dropWhile_not (· == '_') name.toList
      rw [hrest] at hsplit
      have hsubset : c :: cs ⊆ name.toList := hrest ▸ (List.dropWhile_suffix _).subset
      obtain ⟨more, hmore⟩ := words_cons (fun d hd => hchars d (hsubset hd)) hne
      exact .inr ⟨c, cs, more, hne, hsplit.symm, by rw [hmore]⟩

theorem spelling_cons (h : Solidity.isIdentifier name = true) :
    ∃ c cs, spelling name = c :: cs ∧ Solidity.isIdentStart c = true := by
  obtain ⟨c, cs, hname, hstart, hchars⟩ := Solidity.isIdentifier_iff.mp h
  rcases spelling_cases h with ⟨heq, -⟩ | ⟨d, ds, more, -, hsplit, heq⟩
  · exact ⟨c, cs, heq.trans hname, hstart⟩
  · cases hlead : name.toList.takeWhile (· == '_') with
    | nil =>
        rw [hlead, List.nil_append] at heq hsplit
        obtain ⟨rfl, -⟩ := List.cons.inj (hname.symm.trans hsplit)
        exact ⟨_, _, heq, isIdentStart_toLower hstart⟩
    | cons e lead =>
        have he : e ∈ name.toList.takeWhile (· == '_') := hlead ▸ List.mem_cons_self
        obtain rfl : e = '_' := by simpa using List.mem_takeWhile_imp he
        rw [hlead] at heq
        exact ⟨_, _, heq, rfl⟩

theorem spelling_eq_underscore (h : Solidity.isIdentifier name = true) : spelling name = ['_'] ↔ name = "_" := by
  refine ⟨fun hword => ?_, fun hname => by rw [hname]; rfl⟩
  rcases spelling_cases h with ⟨heq, -⟩ | ⟨c, cs, more, hne, hsplit, heq⟩
  · exact String.toList_injective (heq.symm.trans hword)
  · have hmem : c.toLower ∈ ['_'] := by rw [← hword, heq]; simp
    exact absurd (List.mem_singleton.mp hmem) (Text.toLower_ne_underscore hne)

theorem isWord_spelling (h : Solidity.isIdentifier name = true) :
    isWord (spelling name) = true ↔ '$' ∉ name.toList ∧ name ≠ "_" := by
  rw [← dollar_mem_spelling h, ne_eq, ← spelling_eq_underscore h]
  have hchars (d : Char) (hd : d ∈ spelling name) : isSnakeChar d = true ∨ d = '$' :=
    (mem_spelling h hd).imp_right And.left
  obtain ⟨c, cs, hword, hstart⟩ := spelling_cons h
  rw [hword] at hchars ⊢
  simp only [isWord, Bool.and_eq_true, List.all_eq_true, bne_iff_ne]
  constructor
  · rintro ⟨⟨hc, hcs⟩, hne⟩
    refine ⟨fun hdollar => ?_, hne⟩
    rcases List.mem_cons.mp hdollar with rfl | hdollar
    · cases hc
    · cases hcs _ hdollar
  · rintro ⟨hdollar, hne⟩
    rw [List.mem_cons, not_or] at hdollar
    refine ⟨⟨isNameStart_of_isIdentStart hstart (Ne.symm hdollar.1), fun d hd => isNameChar_of_isSnakeChar ?_⟩, hne⟩
    exact (hchars d (List.mem_cons_of_mem c hd)).resolve_right fun heq => hdollar.2 (heq ▸ hd)

end Spelling

-- Words of the language.

theorem mem_of_mem_ownWords : ∀ word ∈ ownWords, word ∈ keywords ∨ word ∈ reserved := by decide

theorem underscore_notMem : ∀ word ∈ ownWords ++ pathWords ++ keywords ++ reserved, '_' ∉ word.toList := by decide +kernel

theorem bare_of_notMem {word : List Char} (h : '#' ∉ word) : bare word = word := by
  unfold bare
  split
  · simp at h
  · rfl

theorem isIdentifier_of_keyword : ∀ word ∈ keywords, word ∉ reserved →
    isIdentifier ("r#" ++ word) = true ∧ isWord word.toList = true := by
  decide +kernel

theorem isIdentifier_of_reserved : ∀ word ∈ reserved,
    isIdentifier (word ++ "_") = true ∧ isWord word.toList = true := by
  decide

-- A keyword gets a mark or an underscore, so that every word is written as an identifier.
theorem isIdentifier_escaped {word : String} (h : '#' ∉ word.toList) :
    isIdentifier (escaped word) = isWord word.toList := by
  unfold escaped
  split
  · next hreserved =>
      obtain ⟨hident, hword⟩ := isIdentifier_of_reserved word (List.contains_iff_mem.mp hreserved)
      rw [hident, hword]
  · next hreserved =>
      rw [List.contains_iff_mem] at hreserved
      split
      · next hkeyword =>
          obtain ⟨hident, hword⟩ := isIdentifier_of_keyword word (List.contains_iff_mem.mp hkeyword) hreserved
          rw [hident, hword]
      · next hkeyword =>
          rw [List.contains_iff_mem] at hkeyword
          have hown : ownWords.contains word = false := by
            rw [Bool.eq_false_iff, ne_eq, List.contains_iff_mem]
            exact fun hmem => (mem_of_mem_ownWords word hmem).elim hkeyword hreserved
          rw [isIdentifier, bare_of_notMem h, if_pos rfl, hown, Bool.not_false, Bool.and_true]

section Value

variable {name : String} {d : Char}

theorem escaped_of_underscore {word : String} (h : '_' ∈ word.toList) : escaped word = word := by
  have hplain (hmem : word ∈ ownWords ++ pathWords ++ keywords ++ reserved) : False := underscore_notMem word hmem h
  unfold escaped
  rw [if_neg fun hmem => hplain (by simp [List.contains_iff_mem.mp hmem]),
    if_neg fun hmem => hplain (by simp [List.contains_iff_mem.mp hmem])]

theorem value_eq (h : Solidity.isIdentifier name = true) : value name = escaped (String.ofList (spelling name)) := by
  have hvalue : value name = if (words (name.toList.dropWhile (· == '_'))).isEmpty then name
      else escaped (String.ofList (spelling name)) := by
    simp only [value, escaped, cond_eq_ite]
    rfl
  rw [hvalue]
  split
  · next hempty =>
      -- only underscores: the name stays as it is
      have hwords : words (name.toList.dropWhile (· == '_')) = [] := List.isEmpty_iff.mp hempty
      rcases spelling_cases h with ⟨heq, hall⟩ | ⟨c, cs, more, -, -, heq⟩
      · obtain ⟨c, cs, hname, -, -⟩ := Solidity.isIdentifier_iff.mp h
        obtain rfl : c = '_' := hall c (by simp [hname])
        rw [heq, String.ofList_toList, escaped_of_underscore (by simp [hname])]
      · rw [spelling, hwords, List.append_nil] at heq
        simp at heq
  · rfl

theorem hash_notMem_spelling (h : Solidity.isIdentifier name = true) : '#' ∉ spelling name := by
  intro hmem
  rcases mem_spelling h hmem with hsnake | ⟨heq, -⟩
  · cases hsnake
  · cases heq

-- A name is written as an identifier unless there is a dollar in it or it is a lone underscore.
theorem isIdentifier_value (h : Solidity.isIdentifier name = true) :
    isIdentifier (value name) = true ↔ '$' ∉ name.toList ∧ name ≠ "_" := by
  rw [value_eq h, isIdentifier_escaped (by rw [String.toList_ofList]; exact hash_notMem_spelling h),
    String.toList_ofList, isWord_spelling h]

-- What the text of a name is made of: the mark of a raw identifier, and a word.
theorem toList_value (h : Solidity.isIdentifier name = true) :
    ∃ word, bare (value name).toList = word ∧ ((value name).toList = word ∨ (value name).toList = 'r' :: '#' :: word) ∧
      (word = spelling name ∨ word = spelling name ++ ['_']) := by
  have hhash := hash_notMem_spelling h
  rw [value_eq h]
  unfold escaped
  split
  · refine ⟨spelling name ++ ['_'], ?_, .inl (by simp), .inr rfl⟩
    rw [String.toList_append, String.toList_ofList, bare_of_notMem (by simp [hhash])]
    rfl
  · split
    · exact ⟨spelling name, by simp [bare], .inr (by simp), .inl rfl⟩
    · exact ⟨spelling name, by rw [String.toList_ofList, bare_of_notMem hhash], .inl (by simp), .inl rfl⟩

-- The word of a name: what stands in identifiers that are built from it.
def word (name : String) : List Char := bare (value name).toList

theorem toList_value_cases (h : Solidity.isIdentifier name = true) :
    (value name).toList = word name ∨ (value name).toList = 'r' :: '#' :: word name := by
  obtain ⟨w, rfl, hvalue, -⟩ := toList_value h
  exact hvalue

theorem word_cases (h : Solidity.isIdentifier name = true) :
    word name = spelling name ∨ word name = spelling name ++ ['_'] := by
  obtain ⟨w, rfl, -, hword⟩ := toList_value h
  exact hword

theorem dollar_mem_word (h : Solidity.isIdentifier name = true) : '$' ∈ word name ↔ '$' ∈ name.toList := by
  rw [← dollar_mem_spelling h]
  rcases word_cases h with hword | hword <;> simp [hword]

theorem word_cons (h : Solidity.isIdentifier name = true) :
    ∃ c cs, word name = c :: cs ∧ Solidity.isIdentStart c = true := by
  obtain ⟨c, cs, hspelling, hstart⟩ := spelling_cons h
  rcases word_cases h with hword | hword
  · exact ⟨c, cs, hword.trans hspelling, hstart⟩
  · exact ⟨c, cs ++ ['_'], by rw [hword, hspelling, List.cons_append], hstart⟩

theorem all_word (h : Solidity.isIdentifier name = true) : (word name).all isNameChar = true ↔ '$' ∉ name.toList := by
  rw [← dollar_mem_word h, List.all_eq_true]
  constructor
  · intro hall hdollar
    cases hall _ hdollar
  · intro hdollar d hd
    have hspelled : d ∈ spelling name ∨ d = '_' := by
      rcases word_cases h with hword | hword <;> grind
    rcases hspelled with hspelled | rfl
    · rcases mem_spelling h hspelled with hsnake | ⟨rfl, -⟩
      · exact isNameChar_of_isSnakeChar hsnake
      · exact absurd hd hdollar
    · rfl

theorem hash_notMem_word (h : Solidity.isIdentifier name = true) : '#' ∉ word name := by
  have hspelling := hash_notMem_spelling h
  rcases word_cases h with hword | hword <;> simp [hword, hspelling]

-- The mark is all that keeps the text of a name out of the middle of an identifier.
theorem all_value (h : Solidity.isIdentifier name = true) :
    (value name).toList.all isNameChar = true ↔ '$' ∉ name.toList ∧ identifier (value name) = value name := by
  rw [← all_word h]
  have hsame : identifier (value name) = value name ↔ (value name).toList = word name := by
    rw [← String.toList_inj, identifier, String.toList_ofList, word, eq_comm]
  rw [hsame]
  rcases toList_value_cases h with hvalue | hvalue
  · simp [hvalue]
  · have hmark : isNameChar '#' = false := rfl
    have hne : 'r' :: '#' :: word name ≠ word name := fun heq => by
      have hlength := congrArg List.length heq
      simp only [List.length_cons] at hlength
      omega
    simp [hvalue, hmark, hne]

-- Nothing else stands in the text of a name.
theorem mem_value (h : Solidity.isIdentifier name = true) (hd : d ∈ (value name).toList) :
    isSnakeChar d = true ∨ d = '$' ∨ d = '#' := by
  have hword (hd : d ∈ word name) : isSnakeChar d = true ∨ d = '$' ∨ d = '#' := by
    rcases word_cases h with hword | hword <;> rw [hword] at hd
    · exact (mem_spelling h hd).imp_right fun hdollar => .inl hdollar.1
    · rcases List.mem_append.mp hd with hd | hd
      · exact (mem_spelling h hd).imp_right fun hdollar => .inl hdollar.1
      · exact .inl (List.mem_singleton.mp hd ▸ rfl)
  rcases toList_value_cases h with hvalue | hvalue <;> rw [hvalue] at hd
  · exact hword hd
  · rcases List.mem_cons.mp hd with rfl | hd
    · exact .inl rfl
    · rcases List.mem_cons.mp hd with rfl | hd
      · exact .inr (.inr rfl)
      · exact hword hd

-- The mark is told by the word.
theorem value_eq_escaped_word (h : Solidity.isIdentifier name = true) :
    value name = escaped (String.ofList (word name)) := by
  have hhash := hash_notMem_spelling h
  rw [word, value_eq h, escaped]
  split
  · have hplain : bare (String.ofList (spelling name) ++ "_").toList = spelling name ++ ['_'] := by
      rw [String.toList_append, String.toList_ofList, bare_of_notMem (by simp [hhash])]
      rfl
    rw [hplain, escaped_of_underscore (by simp)]
    simp
  · next hreserved =>
      split
      · next hkeyword =>
          have hmarked : bare ("r#" ++ String.ofList (spelling name)).toList = spelling name := by simp [bare]
          rw [hmarked, escaped, if_neg hreserved, if_pos hkeyword]
      · next hkeyword =>
          rw [String.toList_ofList, bare_of_notMem hhash, escaped, if_neg hreserved, if_neg hkeyword]

theorem identifier_value_inj {other : String} (h : Solidity.isIdentifier name = true)
    (hother : Solidity.isIdentifier other = true) :
    identifier (value name) = identifier (value other) ↔ value name = value other := by
  refine ⟨fun heq => ?_, congrArg identifier⟩
  rw [value_eq_escaped_word h, value_eq_escaped_word hother]
  exact congrArg escaped heq

theorem value_notMem_reserved (h : Solidity.isIdentifier name = true) : value name ∉ reserved := by
  intro hmem
  rw [value_eq h] at hmem
  unfold escaped at hmem
  split at hmem
  · next hreserved =>
      have hlonger : ∀ word ∈ reserved, word ++ "_" ∉ reserved := by decide
      exact hlonger _ (List.contains_iff_mem.mp hreserved) hmem
  · next hreserved =>
      split at hmem
      · next hkeyword =>
          have hmarked : ∀ word ∈ keywords, "r#" ++ word ∉ reserved := by decide
          exact hmarked _ (List.contains_iff_mem.mp hkeyword) hmem
      · exact hreserved (List.contains_iff_mem.mpr hmem)

end Value

-- Names of types.

theorem isAlphanum_camelFrom (raise afterCapital : Bool) {cs : List Char} {d : Char}
    (hd : d ∈ Text.camelFrom raise afterCapital cs) : d.isAlphanum = true := by
  have hupper {c : Char} (h : c.isUpper = true) : c.toLower.isAlphanum = true ∧ c.isAlphanum = true :=
    of_ascii (P := fun c => c.isUpper = true → c.toLower.isAlphanum = true ∧ c.isAlphanum = true) (by decide)
      (ascii_of_isIdentChar (by simp [Solidity.isIdentChar, Char.isAlphanum, Char.isAlpha, h])) h
  have hlower {c : Char} (h : c.isLower = true) : c.toUpper.isAlphanum = true ∧ c.isAlphanum = true :=
    of_ascii (P := fun c => c.isLower = true → c.toUpper.isAlphanum = true ∧ c.isAlphanum = true) (by decide)
      (ascii_of_isIdentChar (by simp [Solidity.isIdentChar, Char.isAlphanum, Char.isAlpha, h])) h
  induction cs generalizing raise afterCapital with
  | nil => cases hd
  | cons c cs ih =>
      rw [Text.camelFrom, Text.classOf] at hd
      by_cases hcapital : c.isUpper = true
      · rw [if_pos hcapital] at hd
        rcases List.mem_cons.mp hd with rfl | hd
        · split
          · exact (hupper hcapital).1
          · exact (hupper hcapital).2
        · exact ih _ _ hd
      · by_cases hsmall : c.isLower = true
        · rw [if_neg hcapital, if_pos hsmall] at hd
          rcases List.mem_cons.mp hd with rfl | hd
          · split
            · exact (hlower hsmall).1
            · exact (hlower hsmall).2
          · exact ih _ _ hd
        · by_cases hdigit : c.isDigit = true
          · rw [if_neg hcapital, if_neg hsmall, if_pos hdigit] at hd
            rcases List.mem_cons.mp hd with rfl | hd
            · simp [Char.isAlphanum, hdigit]
            · exact ih _ _ hd
          · rw [if_neg hcapital, if_neg hsmall, if_neg hdigit] at hd
            exact ih _ _ hd

-- Letters and digits with a letter in front, perhaps with an underscore behind.
theorem type_cases (name : String) : ∃ c cs, c.isAlpha = true ∧ (∀ d ∈ c :: cs, d.isAlphanum = true) ∧
    ((type name).toList = c :: cs ∨ (type name).toList = c :: cs ++ ['_']) := by
  have hwords : ∀ d ∈ (if isCamel name.toList then name.toList else Text.upperCamel name.toList), d.isAlphanum = true := by
    split
    · next hcamel =>
        simp only [isCamel, Bool.and_eq_true, List.all_eq_true] at hcamel
        exact hcamel.2
    · exact fun d hd => isAlphanum_camelFrom _ _ hd
  unfold type
  dsimp only
  split
  · exact ⟨'U', ['n', 'n', 'a', 'm', 'e', 'd'], rfl, by simp, .inl (by simp)⟩
  · next c rest hcase =>
      rw [hcase] at hwords ⊢
      obtain ⟨first, more, hword, hfirst, hall⟩ : ∃ first more,
          (if c.isDigit then 'E' :: c :: rest else c :: rest) = first :: more ∧ first.isAlpha = true ∧
            ∀ d ∈ first :: more, d.isAlphanum = true := by
        by_cases hdigit : c.isDigit = true
        · refine ⟨'E', c :: rest, if_pos hdigit, rfl, List.forall_mem_cons.mpr ⟨rfl, hwords⟩⟩
        · refine ⟨c, rest, if_neg hdigit, ?_, hwords⟩
          simpa [Char.isAlphanum, hdigit] using hwords c List.mem_cons_self
      refine ⟨first, more, hfirst, hall, ?_⟩
      rw [hword]
      split
      · exact .inr (by simp)
      · exact .inl (by simp)

theorem mem_type {name : String} {d : Char} (hd : d ∈ (type name).toList) : d.isAlphanum = true ∨ d = '_' := by
  obtain ⟨c, cs, -, hall, heq | heq⟩ := type_cases name <;> rw [heq] at hd
  · exact .inl (hall d hd)
  · exact (List.mem_append.mp hd).imp (hall d) List.mem_singleton.mp

theorem colon_notMem_type (name : String) : ':' ∉ (type name).toList := fun hmem =>
  (mem_type hmem).elim (by decide) (by decide)

theorem bare_type (name : String) : bare (type name).toList = (type name).toList :=
  bare_of_notMem fun hmem => (mem_type hmem).elim (by decide) (by decide)

theorem identifier_type (name : String) : identifier (type name) = type name := by
  rw [identifier, bare_type, String.ofList_toList]

-- The name of a type is an identifier, unless the language uses it as a word of its own.
theorem isIdentifier_type (name : String) : isIdentifier (type name) = true ↔ type name ∉ ownWords := by
  have hword : isWord (type name).toList = true := by
    obtain ⟨c, cs, hstart, hall, heq⟩ := type_cases name
    have hne : c ≠ '_' := by
      rintro rfl
      cases hstart
    have hchars (d : Char) (hd : d ∈ (type name).toList) : isNameChar d = true := by
      rcases mem_type hd with hd | rfl
      · simp [isNameChar, hd]
      · rfl
    rcases heq with heq | heq <;> rw [heq] at hchars ⊢ <;>
      simp only [List.cons_append, isWord, isNameStart, hstart, Bool.true_or, Bool.true_and, Bool.and_eq_true, List.all_eq_true]
    · exact ⟨fun d hd => hchars d (List.mem_cons_of_mem c hd), by simp [hne]⟩
    · exact ⟨fun d hd => hchars d (List.mem_cons_of_mem c hd), by simp⟩
  rw [isIdentifier, bare_type, hword, if_pos rfl, Bool.true_and, Bool.not_eq_true', Bool.eq_false_iff, ne_eq,
    List.contains_iff_mem]

-- Names that are built around an underscore.

theorem bare_underscore {front : List Char} (h : '#' ∉ front) (more : List Char) :
    bare (front ++ '_' :: more) = front ++ '_' :: more := by
  match front with
  | [] => rfl
  | [c] =>
      unfold bare
      split
      · simp_all
      · rfl
  | c :: d :: front =>
      unfold bare
      split
      · simp_all
      · rfl

-- The language uses no word with an underscore.
theorem isIdentifier_of_underscore {text : String} (h : '_' ∈ bare text.toList) :
    isIdentifier text = isWord (bare text.toList) := by
  have hother (words : List String) (hwords : words ⊆ ownWords ++ pathWords ++ keywords ++ reserved) {word : String}
      (hword : '_' ∈ word.toList) : words.contains word = false := by
    rw [Bool.eq_false_iff, ne_eq, List.contains_iff_mem]
    exact fun hmem => underscore_notMem word (hwords hmem) hword
  rw [isIdentifier]
  split
  · next hsame =>
      rw [hother ownWords (by simp) (hsame ▸ h), Bool.not_false, Bool.and_true]
  · rw [hother pathWords (by simp) (by rwa [String.toList_ofList]), Bool.not_false, Bool.and_true]

theorem isIdentifier_underscore {text : String} (h : text ≠ "") :
    isIdentifier ("_" ++ text) = text.toList.all isNameChar := by
  have hbare : bare ("_" ++ text).toList = '_' :: text.toList := by
    rw [String.toList_append]
    exact @bare_underscore [] (by simp) _
  rw [isIdentifier_of_underscore (by rw [hbare]; simp), hbare, isWord]
  have hne : ('_' :: text.toList != ['_']) = true := by simpa using h
  rw [hne, Bool.and_true]
  rfl

theorem identifier_underscore (text : String) : identifier ("_" ++ text) = "_" ++ text := by
  rw [identifier, String.toList_append, show "_".toList ++ text.toList = [] ++ '_' :: text.toList from rfl,
    bare_underscore (by simp), ← String.toList_inj, String.toList_ofList, String.toList_append]
  rfl

section Joined

variable {name : String}

theorem bare_value_append (h : Solidity.isIdentifier name = true) (text : String) :
    bare (value name ++ "_" ++ text).toList = word name ++ '_' :: text.toList := by
  have hsplit : (value name ++ "_" ++ text).toList = (value name).toList ++ '_' :: text.toList := by simp
  rw [hsplit]
  rcases toList_value_cases h with hvalue | hvalue
  · rw [hvalue, bare_underscore (hash_notMem_word h)]
  · rw [hvalue]
    rfl

theorem identifier_value_append (h : Solidity.isIdentifier name = true) (text : String) :
    identifier (value name ++ "_" ++ text) = identifier (value name) ++ "_" ++ text := by
  rw [identifier, bare_value_append h, ← String.toList_inj]
  simp [identifier, word]

theorem isIdentifier_value_append (h : Solidity.isIdentifier name = true) (text : String) :
    isIdentifier (value name ++ "_" ++ text) = true ↔ '$' ∉ name.toList ∧ text.toList.all isNameChar = true := by
  have hbare := bare_value_append h text
  rw [isIdentifier_of_underscore (by rw [hbare]; simp), hbare, ← all_word h]
  obtain ⟨c, cs, hword, hstart⟩ := word_cons h
  have hne : (c :: (cs ++ '_' :: text.toList) != ['_']) = true := by simp
  have hmiddle : isNameChar '_' = true := rfl
  rw [hword, List.cons_append, isWord, hne, Bool.and_true, List.all_append, List.all_cons, hmiddle, List.all_cons]
  rw [isNameStart_eq hstart, Bool.true_and, ← Bool.and_assoc, Bool.and_eq_true]

end Joined

end Name

end Rust

end RustContracts
