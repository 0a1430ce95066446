import RustContracts.Proofs.Rust.Token
import RustContracts.Rust.Tree

-- String literals read back by the rules of the language: a quoted text is one literal, and it denotes that text.
namespace RustContracts.Rust.StringLiteral

-- Where a reader stands inside a literal.
inductive Mode where
  | plain
  -- Behind a backslash.
  | escaped
  -- Behind `\x`, and behind the first of its two digits.
  | byte
  | byteAfter (first : Nat)
  -- Behind `\u`, behind its brace, and behind `count` digits that make `value`.
  | unicode
  | unicodeOpen
  | unicodeAfter (count value : Nat)
  -- Behind a backslash at the end of a line: blanks are skipped.
  | continued
deriving DecidableEq

def hexValue? (c : Char) : Option Nat :=
  if '0' ≤ c ∧ c ≤ '9' then some (c.toNat - '0'.toNat)
  else if 'a' ≤ c ∧ c ≤ 'f' then some (c.toNat - 'a'.toNat + 10)
  else if 'A' ≤ c ∧ c ≤ 'F' then some (c.toNat - 'A'.toNat + 10)
  else none

-- What one character behind a backslash stands for.
def escape? : Char → Option Char
  | 'n' => some '\n'
  | 'r' => some '\r'
  | 't' => some '\t'
  | '0' => some (Char.ofNat 0)
  | '\\' => some '\\'
  | '\'' => some '\''
  | '"' => some '"'
  | _ => none

def afterBackslash (c : Char) : Option (Mode × List Char) :=
  match c with
  | 'x' => some (.byte, [])
  | 'u' => some (.unicode, [])
  | '\n' => some (.continued, [])
  | c => (escape? c).map fun denoted => (.plain, [denoted])

-- A plain character stands for itself. The closing quote is none, and neither is a carriage return: lines end in a
-- line feed alone.
def afterPlain (c : Char) : Option (Mode × List Char) :=
  match c with
  | '"' => none
  | '\\' => some (.escaped, [])
  | '\r' => none
  | c => some (.plain, [c])

-- One character of a literal: where the reader is behind it, and what it adds to the denoted text. A byte is at most
-- `7F`, and a code of at most six digits, with underscores behind the first, is one of a character.
def step : Mode → Char → Option (Mode × List Char)
  | .plain, c => afterPlain c
  | .escaped, c => afterBackslash c
  | .byte, c => do
    let first ← hexValue? c
    if first < 8 then some (.byteAfter first, []) else none
  | .byteAfter first, c => do
    let second ← hexValue? c
    some (.plain, [Char.ofNat (16 * first + second)])
  | .unicode, c => if c = '\x7b' then some (.unicodeOpen, []) else none
  | .unicodeOpen, c => do
    let digit ← hexValue? c
    some (.unicodeAfter 1 digit, [])
  | .unicodeAfter count value, c =>
    if c = '\x7d' then
      if value.isValidChar then some (.plain, [Char.ofNat value]) else none
    else if c = '_' then some (.unicodeAfter count value, [])
    else do
      let digit ← hexValue? c
      if count < 6 then some (.unicodeAfter (count + 1) (16 * value + digit), []) else none
  | .continued, c => if Token.isBlank c then some (.continued, []) else afterPlain c

-- The closing quote ends a literal between two characters, behind a skipped blank too.
def closes : Mode → Char → Bool
  | .plain, c | .continued, c => c == '"'
  | _, _ => false

-- What stands up to the closing quote: the text it denotes, and what follows the quote.
def readBody (m : Mode) : List Char → Option (List Char × List Char)
  | [] => none
  | c :: cs =>
    if closes m c then some ([], cs)
    else do
      let (m', out) ← step m c
      let (text, rest) ← readBody m' cs
      some (out ++ text, rest)

-- The literal at the front: the text it denotes, and what follows it.
def read : List Char → Option (String × List Char)
  | '"' :: cs => (readBody .plain cs).map fun (text, rest) => (String.ofList text, rest)
  | _ => none

example : read "\"a\\x41\\u\x7b1_F600\x7d\\\n   \\\"\" + b".toList = some ("aA😀\"", " + b".toList) := by
  decide +kernel

-- A whole piece of a body, without its closing quote.
def advance (m : Mode) : List Char → Option (Mode × List Char)
  | [] => some (m, [])
  | c :: cs =>
    if closes m c then none
    else do
      let (m', out) ← step m c
      let (m'', text) ← advance m' cs
      some (m'', out ++ text)

variable {m m' : Mode} {piece rest out : List Char} {c : Char}

theorem readBody_append (h : advance m piece = some (m', out)) :
    readBody m (piece ++ rest) = (readBody m' rest).map fun (text, rest) => (out ++ text, rest) := by
  induction piece generalizing m out with
  | nil =>
      obtain ⟨rfl, rfl⟩ := Prod.mk.inj (Option.some.inj h)
      simp
  | cons c piece ih =>
      rw [advance] at h
      rw [List.cons_append, readBody]
      split at h
      · cases h
      · next hopen =>
          obtain ⟨⟨mid, first⟩, hstep, h⟩ := Option.bind_eq_some_iff.mp h
          obtain ⟨⟨last, second⟩, hpiece, h⟩ := Option.bind_eq_some_iff.mp h
          obtain ⟨rfl, rfl⟩ := Prod.mk.inj (Option.some.inj h)
          rw [if_neg hopen, hstep]
          simp only [Option.bind_eq_bind, Option.bind_some, ih hpiece, Option.bind_map, List.append_assoc]
          cases readBody last rest <;> rfl

-- The characters of ASCII that print nothing.
def isControl (c : Char) : Bool := decide (c.toNat < 0x20) || c.toNat == 0x7f

-- Every backslash has the character that it escapes behind it, and a quote stands behind a backslash only.
def isProtected : List Char → Bool
  | [] => true
  | '\\' :: [] => false
  | '\\' :: _ :: cs => isProtected cs
  | c :: cs => c != '"' && isProtected cs

theorem isProtected_append (h : isProtected piece = true) : isProtected (piece ++ rest) = isProtected rest := by
  fun_induction isProtected piece with
  | case1 => rfl
  | case2 => cases h
  | case3 c cs ih => exact ih h
  | case4 c cs hlone hpair ih =>
      obtain ⟨hquote, hcs⟩ := Bool.and_eq_true_iff.mp h
      have hbackslash : c ≠ '\\' := by
        rintro rfl
        cases cs with
        | nil => exact hlone rfl rfl
        | cons d cs => exact hpair d cs rfl rfl
      rw [List.cons_append, isProtected, hquote, ih hcs, Bool.true_and]
      · exact fun heq => absurd heq hbackslash
      · exact fun _ _ heq => absurd heq hbackslash

-- The scanner of tokens finds the end of what protects its quotes.
theorem quotedBody_of_isProtected (h : isProtected piece = true) :
    Token.quotedBody '"' (piece ++ '"' :: rest) = some (piece ++ ['"'], rest) := by
  fun_induction isProtected piece with
  | case1 => rfl
  | case2 => cases h
  | case3 c cs ih => rw [List.cons_append, List.cons_append, Token.quotedBody, ih h]; rfl
  | case4 c cs hlone hpair ih =>
      obtain ⟨hquote, hcs⟩ := Bool.and_eq_true_iff.mp h
      have hbackslash : c ≠ '\\' := by
        rintro rfl
        cases cs with
        | nil => exact hlone rfl rfl
        | cons d cs => exact hpair d cs rfl rfl
      rw [List.cons_append, Token.quotedBody, if_neg (by simpa using hquote), ih hcs]
      · rfl
      · exact fun _ _ heq => absurd heq hbackslash

-- What is written for one character.

-- The escape of one character is a piece of a literal that denotes it.
def Escapes (c : Char) (piece : List Char) : Prop :=
  advance .plain piece = some (.plain, [c]) ∧ isProtected piece = true ∧ ∀ d ∈ piece, isControl d = false

-- The list of characters is gone through, not all characters that there are.
instance : Decidable (Escapes c piece) :=
  have : Decidable (∀ d ∈ piece, isControl d = false) := List.decidableBAll _ piece
  inferInstanceAs (Decidable (_ ∧ _ ∧ _))

theorem escapes_ascii : ∀ n < 0x80, Escapes (Char.ofNat n) (quotedChar (Char.ofNat n)).toList := by
  decide +kernel

theorem quotedChar_of_le (h : 0x80 ≤ c.toNat) : quotedChar c = c.toString := by
  unfold quotedChar
  split
  all_goals first | exact absurd h (by decide) | skip
  dsimp only
  rw [if_neg (by omega), if_neg (by omega)]

theorem afterPlain_of_le (h : 0x80 ≤ c.toNat) : afterPlain c = some (.plain, [c]) := by
  unfold afterPlain
  split
  all_goals first | exact absurd h (by decide) | rfl

theorem ne_of_le (h : 0x80 ≤ c.toNat) {d : Char} (hd : d.toNat < 0x80) : c ≠ d := by
  rintro rfl
  omega

theorem escapes_quotedChar (c : Char) : Escapes c (quotedChar c).toList := by
  by_cases hc : c.toNat < 0x80
  · simpa using escapes_ascii c.toNat hc
  · have hquote : c ≠ '"' := ne_of_le (by omega) (by decide)
    have hbackslash : c ≠ '\\' := ne_of_le (by omega) (by decide)
    rw [quotedChar_of_le (by omega), Char.toString_eq_singleton, String.toList_singleton]
    refine ⟨?_, ?_, ?_⟩
    · simp [advance, closes, step, afterPlain_of_le (by omega : 0x80 ≤ c.toNat), hquote]
    · simp [isProtected, hquote, hbackslash]
    · simp only [List.mem_singleton, forall_eq, isControl]
      simp only [Bool.or_eq_false_iff, decide_eq_false_iff_not, beq_eq_false_iff_ne]
      omega

-- What is written for a text.

def escapedText (cs : List Char) : List Char := cs.flatMap fun c => (quotedChar c).toList

theorem toList_quoted (text : String) : (quoted text).toList = '"' :: (escapedText text.toList ++ ['"']) := by
  simp [quoted, escapedText, List.flatMap_def, Function.comp_def]

theorem readBody_escapedText (cs rest : List Char) :
    readBody .plain (escapedText cs ++ '"' :: rest) = some (cs, rest) := by
  induction cs with
  | nil => rfl
  | cons c cs ih =>
      rw [escapedText] at ih
      rw [escapedText, List.flatMap_cons, List.append_assoc, readBody_append (escapes_quotedChar c).1, ih]
      rfl

theorem isProtected_escapedText (cs : List Char) : isProtected (escapedText cs) = true := by
  induction cs with
  | nil => rfl
  | cons c cs ih => rw [escapedText, List.flatMap_cons, isProtected_append (escapes_quotedChar c).2.1]; exact ih

theorem not_isControl_escapedText (cs : List Char) : ∀ d ∈ escapedText cs, isControl d = false := by
  intro d hd
  obtain ⟨c, -, hd⟩ := List.mem_flatMap.mp hd
  exact (escapes_quotedChar c).2.2 d hd

-- A quoted text is one literal, whatever stands behind it: what is between its quotes protects every quote and every
-- backslash and has no control character, it is one token, and reading it gives back the text.
theorem quoted_reads_back (text : String) :
    ∃ body, (quoted text).toList = '"' :: (body ++ ['"']) ∧ isProtected body = true ∧
      (∀ c ∈ body, isControl c = false) ∧
      ∀ rest, Token.scan ((quoted text).toList ++ rest) = some (.literal (quoted text), rest) ∧
        read ((quoted text).toList ++ rest) = some (text, rest) := by
  refine ⟨escapedText text.toList, toList_quoted text, isProtected_escapedText _, not_isControl_escapedText _, ?_⟩
  intro rest
  have happend : (quoted text).toList ++ rest = '"' :: (escapedText text.toList ++ '"' :: rest) := by
    rw [toList_quoted, List.cons_append, List.append_assoc, List.singleton_append]
  constructor
  · have htext : String.ofList ('"' :: (escapedText text.toList ++ ['"'])) = quoted text := by
      rw [← toList_quoted, String.ofList_toList]
    rw [happend, Token.scan, if_neg (by decide), if_pos (by decide), Token.quoted?,
      quotedBody_of_isProtected (isProtected_escapedText _), Option.map_some]
    exact congrArg (fun text => some (Token.literal text, rest)) htext
  · rw [happend, read, readBody_escapedText, Option.map_some]
    exact congrArg (fun text => some (text, rest)) String.ofList_toList

end RustContracts.Rust.StringLiteral
