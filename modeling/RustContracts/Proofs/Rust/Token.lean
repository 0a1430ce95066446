import RustContracts.Rust.Name

-- Rust text as tokens. A name or a literal is read the same way whatever stands behind it, as long as that cannot be
-- part of it.
namespace RustContracts.Rust

inductive Token where
  | name (text : String)
  | keyword (text : String)
  | literal (text : String)
  | punct (text : String)
deriving DecidableEq

namespace Token

-- Character classes.

def isBlank (c : Char) : Bool := c == ' ' || c == '\n' || c == '\t' || c == '\r'

-- Beyond ASCII every character counts as a letter.
def isLetter (c : Char) : Bool := c.isAlpha || c == '_' || 128 ≤ c.toNat

def isWord (c : Char) : Bool := isLetter c || c.isDigit

def isQuote (c : Char) : Bool := c == '"' || c == '\''

-- Words.

def ofWord (word : List Char) : Token :=
  let text := String.ofList word
  if text = "true" || text = "false" then .literal text
  else if text = "_" || keywords.contains text && !reserved.contains text then .keyword text
  else .name text

def word (cs : List Char) : Token × List Char := (ofWord (cs.takeWhile isWord), cs.dropWhile isWord)

-- Numbers.

-- A sign is part of a number only in the exponent of a decimal number.
def exponent (digits : List Char) : List Char → List Char × List Char
  | sign :: d :: rest =>
    if (sign == '+' || sign == '-') && d.isDigit && !"0x".toList.isPrefixOf digits &&
        digits.getLast?.any (fun c => c == 'e' || c == 'E') then
      (digits ++ sign :: (d :: rest).takeWhile isWord, (d :: rest).dropWhile isWord)
    else (digits, sign :: d :: rest)
  | rest => (digits, rest)

-- A point is part of a number only before a digit.
def fraction (digits : List Char) : List Char → List Char × List Char
  | '.' :: d :: rest =>
    if d.isDigit then
      exponent (digits ++ '.' :: (d :: rest).takeWhile isWord) ((d :: rest).dropWhile isWord)
    else (digits, '.' :: d :: rest)
  | rest => exponent digits rest

def number (cs : List Char) : List Char × List Char := fraction (cs.takeWhile isWord) (cs.dropWhile isWord)

-- Strings and characters.

-- What stands up to the closing quote; a backslash protects the character behind it.
def quotedBody (quote : Char) : List Char → Option (List Char × List Char)
  | [] => none
  | '\\' :: c :: rest => (quotedBody quote rest).map fun (body, rest) => ('\\' :: c :: body, rest)
  | c :: rest =>
    if c = quote then some ([c], rest)
    else (quotedBody quote rest).map fun (body, rest) => (c :: body, rest)

def quoted? (front : List Char) (quote : Char) (cs : List Char) : Option (Token × List Char) :=
  (quotedBody quote cs).map fun (body, rest) => (.literal (String.ofList (front ++ quote :: body)), rest)

-- Punctuation, longer ones first.
def puncts : List (List Char × String) :=
  [(['<', '<', '='], "<<="), (['>', '>', '='], ">>="), (['.', '.', '.'], "..."), (['.', '.', '='], "..="),
   ([':', ':'], "::"), (['-', '>'], "->"), (['=', '>'], "=>"), (['=', '='], "=="), (['!', '='], "!="),
   (['<', '='], "<="), (['>', '='], ">="), (['&', '&'], "&&"), (['|', '|'], "||"), (['<', '<'], "<<"),
   (['>', '>'], ">>"), (['.', '.'], ".."), (['+', '='], "+="), (['-', '='], "-="), (['*', '='], "*="),
   (['/', '='], "/="), (['%', '='], "%="), (['^', '='], "^="), (['&', '='], "&="), (['|', '='], "|="), (['+'], "+"),
   (['-'], "-"), (['*'], "*"), (['/'], "/"), (['%'], "%"), (['^'], "^"), (['!'], "!"), (['&'], "&"), (['|'], "|"),
   (['='], "="), (['<'], "<"), (['>'], ">"), (['@'], "@"), (['.'], "."), ([','], ","), ([';'], ";"), ([':'], ":"),
   (['#'], "#"), (['$'], "$"), (['?'], "?"), (['~'], "~"), (['('], "("), ([')'], ")"), (['['], "["), ([']'], "]"),
   (['\x7b'], "\x7b"), (['\x7d'], "\x7d")]

def punct? (cs : List Char) : Option (Token × List Char) :=
  (puncts.find? fun p => p.1.isPrefixOf cs).map fun p => (.punct p.2, cs.drop p.1.length)

-- What starts with a letter: bytes in quotes, a raw name or a word.
def lettered (c : Char) (cs : List Char) : Option (Token × List Char) :=
  match c, cs with
  | 'b', q :: rest => if isQuote q then quoted? ['b'] q rest else some (word ('b' :: q :: rest))
  | 'r', '#' :: d :: rest =>
    if isLetter d then
      some (.name (String.ofList ('r' :: '#' :: (d :: rest).takeWhile isWord)), (d :: rest).dropWhile isWord)
    else some (word ('r' :: '#' :: d :: rest))
  | c, cs => some (word (c :: cs))

-- The token at the front.
def scan : List Char → Option (Token × List Char)
  | [] => none
  | c :: cs =>
    if c.isDigit then some (.literal (String.ofList (number (c :: cs)).1), (number (c :: cs)).2)
    else if isQuote c then quoted? [] c cs
    else if isLetter c then lettered c cs
    else punct? (c :: cs)

end Token

-- The tokens of a text; blanks stand between tokens and mean nothing else.
def lex : List Char → Option (List Token)
  | [] => some []
  | c :: cs =>
    if Token.isBlank c then lex cs
    else
      match Token.scan (c :: cs) with
      | some (t, rest) => if rest.length ≤ cs.length then (lex rest).map (t :: ·) else none
      | none => none
termination_by cs => cs.length

namespace Token

-- What can follow a name or a literal without being part of it.
def Ends : List Char → Prop
  | [] => True
  | '.' :: d :: _ => d.isDigit = false
  | c :: _ => c ∈ [' ', ',', ')', ']', '?', '[', '(', '.', ':']

variable {cs rest : List Char} {t : Token}

theorem Ends.head (h : Ends rest) {c : Char} {more : List Char} (hrest : rest = c :: more) :
    c ∈ [' ', ',', ')', ']', '?', '[', '(', '.', ':'] := by
  subst hrest
  unfold Ends at h
  split at h
  · cases ‹_ = []›
  · next heq =>
      obtain ⟨rfl, -⟩ := List.cons.inj heq
      decide
  · next heq =>
      obtain ⟨rfl, -⟩ := List.cons.inj heq
      exact h

-- What holds of all the characters that end a text holds of the one in front.
theorem Ends.all_head (h : Ends rest) {c : Char} {more : List Char} (hrest : rest = c :: more) {p : Char → Bool}
    (hp : [' ', ',', ')', ']', '?', '[', '(', '.', ':'].all p = true) : p c = true :=
  List.all_eq_true.mp hp c (h.head hrest)

theorem Ends.not_word (h : Ends rest) {c : Char} {more : List Char} (hrest : rest = c :: more) : isWord c = false := by
  simpa using h.all_head hrest (p := fun c => !isWord c) (by decide)

theorem takeWhile_append (h : Ends rest) (cs : List Char) : (cs ++ rest).takeWhile isWord = cs.takeWhile isWord := by
  induction cs with
  | nil =>
      cases hrest : rest with
      | nil => rfl
      | cons c more => simp [h.not_word hrest]
  | cons c cs ih =>
      rw [List.cons_append, List.takeWhile_cons, List.takeWhile_cons, ih]

theorem dropWhile_append (h : Ends rest) (cs : List Char) :
    (cs ++ rest).dropWhile isWord = cs.dropWhile isWord ++ rest := by
  induction cs with
  | nil =>
      cases hrest : rest with
      | nil => rfl
      | cons c more => simp [h.not_word hrest]
  | cons c cs ih =>
      rw [List.cons_append, List.dropWhile_cons, List.dropWhile_cons, ih]
      split <;> rfl

theorem word_append (h : Ends rest) (hword : word cs = (t, [])) : word (cs ++ rest) = (t, rest) := by
  obtain ⟨ht, hdrop⟩ := Prod.mk.inj hword
  rw [word, takeWhile_append h, dropWhile_append h, ht, hdrop, List.nil_append]

theorem exponent_append (h : Ends rest) {digits text : List Char} (hnumber : exponent digits cs = (text, [])) :
    exponent digits (cs ++ rest) = (text, rest) := by
  match cs, hnumber with
  | [], hnumber =>
      obtain ⟨rfl, -⟩ := Prod.mk.inj hnumber
      match hrest : rest with
      | [] => rfl
      | [c] => rfl
      | sign :: d :: more =>
          have hplain : (sign == '+' || sign == '-') = false := by
            simpa using h.all_head rfl (p := fun c => !(c == '+' || c == '-')) (by decide)
          simp [exponent, hplain]
  | [c], hnumber => cases hnumber
  | sign :: d :: more, hnumber =>
      rw [exponent] at hnumber
      split at hnumber
      · next hsigned =>
          obtain ⟨rfl, hdrop⟩ := Prod.mk.inj hnumber
          rw [List.cons_append, List.cons_append, exponent, if_pos hsigned, ← List.cons_append, takeWhile_append h,
            dropWhile_append h, hdrop, List.nil_append]
      · cases (Prod.mk.inj hnumber).2

theorem fraction_append (h : Ends rest) {digits text : List Char} (hnumber : fraction digits cs = (text, [])) :
    fraction digits (cs ++ rest) = (text, rest) := by
  unfold fraction at hnumber
  split at hnumber
  · next d more =>
      split at hnumber
      · next hdigit =>
          rw [List.cons_append, List.cons_append, fraction, if_pos hdigit, ← List.cons_append, takeWhile_append h,
            dropWhile_append h]
          exact exponent_append h hnumber
      · cases (Prod.mk.inj hnumber).2
  · next hpoint =>
      unfold fraction
      split
      · next d more heq =>
          -- the point stands behind the number
          match cs, hpoint, hnumber, heq with
          | [], _, hnumber, heq =>
              obtain ⟨rfl, -⟩ := Prod.mk.inj hnumber
              obtain rfl : rest = '.' :: d :: more := heq
              have hdigit : d.isDigit = false := h
              rw [if_neg (by simp [hdigit])]
          | [c], _, hnumber, _ => cases (Prod.mk.inj hnumber).2
          | c :: d' :: more', hpoint, _, heq =>
              obtain ⟨rfl, -⟩ := List.cons.inj heq
              exact absurd rfl (hpoint d' more')
      · exact exponent_append h hnumber

theorem number_append (h : Ends rest) {text : List Char} (hnumber : number cs = (text, [])) :
    number (cs ++ rest) = (text, rest) := by
  rw [number, takeWhile_append h, dropWhile_append h]
  exact fraction_append h hnumber

theorem quotedBody_append {quote : Char} (hquote : isQuote quote = true) {body behind : List Char}
    (hbody : quotedBody quote cs = some (body, behind)) (rest : List Char) :
    quotedBody quote (cs ++ rest) = some (body, behind ++ rest) := by
  fun_induction quotedBody quote cs generalizing body behind with
  | case1 => cases hbody
  | case2 c cs ih =>
      obtain ⟨⟨inner, behind'⟩, hinner, heq⟩ := Option.map_eq_some_iff.mp hbody
      obtain ⟨rfl, rfl⟩ := Prod.mk.inj heq
      rw [List.cons_append, List.cons_append, quotedBody, ih hinner, Option.map_some]
  | case3 cs hprotected =>
      obtain ⟨rfl, rfl⟩ := Prod.mk.inj (Option.some.inj hbody)
      have hplain : quote ≠ '\\' := by
        rintro rfl
        cases hquote
      rw [List.cons_append, quotedBody, if_pos rfl]
      intro c more heq
      exact absurd heq hplain
  | case4 c cs hprotected hne ih =>
      obtain ⟨⟨inner, behind'⟩, hinner, heq⟩ := Option.map_eq_some_iff.mp hbody
      obtain ⟨rfl, rfl⟩ := Prod.mk.inj heq
      rw [List.cons_append, quotedBody, if_neg hne, ih hinner, Option.map_some]
      intro d more hc heq
      subst hc
      cases cs with
      | nil => cases hinner
      | cons d' cs => exact hprotected d' cs rfl rfl

theorem quoted?_append {quote : Char} (hquote : isQuote quote = true) {front : List Char}
    (hquoted : quoted? front quote cs = some (t, [])) (rest : List Char) :
    quoted? front quote (cs ++ rest) = some (t, rest) := by
  obtain ⟨⟨body, behind⟩, hbody, heq⟩ := Option.map_eq_some_iff.mp hquoted
  obtain ⟨rfl, rfl⟩ := Prod.mk.inj heq
  rw [quoted?, quotedBody_append hquote hbody, List.nil_append, Option.map_some]

-- A word goes on in neither of the special ways that start with its first letter.
theorem lettered_append_of_word (h : Ends rest) {c : Char} (hword : word (c :: cs) = (t, []))
    (hbytes : ∀ q more, c = 'b' → cs = q :: more → isQuote q = false) :
    lettered c (cs ++ rest) = some (t, rest) := by
  have hplain := word_append h hword
  rw [List.cons_append] at hplain
  unfold lettered
  split
  · next q more heq =>
      have hq : isQuote q = false := by
        cases cs with
        | nil =>
            simpa using h.all_head heq (p := fun c => !isQuote c) (by decide)
        | cons q' cs =>
            obtain ⟨rfl, -⟩ := List.cons.inj heq
            exact hbytes _ _ rfl rfl
      rw [if_neg (by simp [hq]), ← heq, hplain]
  · next d more heq =>
      have hcs : cs = [] := by
        cases cs with
        | nil => rfl
        | cons q cs =>
            obtain ⟨rfl, -⟩ := List.cons.inj heq
            cases (Prod.mk.inj hword).2
      rw [hcs, List.nil_append] at heq
      exact absurd (h.head heq) (by decide)
  · rw [hplain]

theorem lettered_append (h : Ends rest) {c : Char} (htoken : lettered c cs = some (t, [])) :
    lettered c (cs ++ rest) = some (t, rest) := by
  unfold lettered at htoken
  split at htoken
  · next q more =>
      split at htoken
      · next hq =>
          rw [List.cons_append, lettered, if_pos hq]
          exact quoted?_append hq htoken rest
      · next hq =>
          refine lettered_append_of_word h (Option.some.inj htoken) fun q' more' _ heq => ?_
          obtain ⟨rfl, -⟩ := List.cons.inj heq
          simpa using hq
  · next d more =>
      split at htoken
      · next hd =>
          obtain ⟨rfl, hdrop⟩ := Prod.mk.inj (Option.some.inj htoken)
          rw [List.cons_append, List.cons_append, lettered, if_pos hd, ← List.cons_append, takeWhile_append h,
            dropWhile_append h, hdrop, List.nil_append]
      · cases (Prod.mk.inj (Option.some.inj htoken)).2
  · next hbytes _ =>
      refine lettered_append_of_word h (Option.some.inj htoken) fun q more hc heq => ?_
      exact absurd heq (hbytes q more hc)

theorem eq_punct_of_punct? (htoken : punct? cs = some (t, rest)) : ∃ text, t = .punct text := by
  obtain ⟨p, -, heq⟩ := Option.map_eq_some_iff.mp htoken
  exact ⟨p.2, (Prod.mk.inj heq).1.symm⟩

-- A name or a literal, and then what is behind it.
theorem scan_append (h : Ends rest) (htoken : scan cs = some (t, [])) (hpunct : ∀ text, t ≠ .punct text) :
    scan (cs ++ rest) = some (t, rest) := by
  cases cs with
  | nil => cases htoken
  | cons c cs =>
      rw [scan] at htoken
      rw [List.cons_append, scan]
      split at htoken
      · next hdigit =>
          obtain ⟨rfl, hbehind⟩ := Prod.mk.inj (Option.some.inj htoken)
          have hnumber := number_append h (Prod.ext rfl hbehind)
          rw [List.cons_append] at hnumber
          rw [if_pos hdigit, hnumber]
      · next hdigit =>
          rw [if_neg hdigit]
          split at htoken
          · next hquote =>
              rw [if_pos hquote]
              exact quoted?_append hquote htoken rest
          · next hquote =>
              rw [if_neg hquote]
              split at htoken
              · next hletter =>
                  rw [if_pos hletter]
                  exact lettered_append h htoken
              · obtain ⟨text, rfl⟩ := eq_punct_of_punct? htoken
                exact absurd rfl (hpunct text)

theorem scan_blank {c : Char} (hc : isBlank c = true) (cs : List Char) : scan (c :: cs) = none := by
  have hcases : c = ' ' ∨ c = '\n' ∨ c = '\t' ∨ c = '\r' := by simpa [isBlank, or_assoc] using hc
  rcases hcases with rfl | rfl | rfl | rfl <;> rfl

theorem lex_scan {c : Char} (htoken : scan (c :: cs) = some (t, rest)) (hlength : rest.length ≤ cs.length) :
    lex (c :: cs) = (lex rest).map (t :: ·) := by
  have hblank : ¬ isBlank c = true := fun hblank => by
    rw [scan_blank hblank] at htoken
    cases htoken
  rw [lex, if_neg hblank, htoken]
  exact if_pos hlength

theorem lex_token (h : Ends rest) (htoken : scan cs = some (t, [])) (hpunct : ∀ text, t ≠ .punct text) :
    lex (cs ++ rest) = (lex rest).map (t :: ·) := by
  have hscan := scan_append h htoken hpunct
  cases cs with
  | nil => cases htoken
  | cons c cs => exact lex_scan hscan (by simp)

-- Punctuation between blanks, and brackets.

theorem lex_blank (cs : List Char) : lex (' ' :: cs) = lex cs := by
  rw [lex]
  exact if_pos rfl

theorem lex_bracket {c : Char} {text : String}
    (hc : (c, text) ∈ [('(', "("), (')', ")"), ('[', "["), (']', "]"), (',', ","), ('?', "?")]) (cs : List Char) :
    lex (c :: cs) = (lex cs).map (.punct text :: ·) := by
  simp only [List.mem_cons, Prod.mk.injEq, List.not_mem_nil, or_false] at hc
  rcases hc with ⟨rfl, rfl⟩ | ⟨rfl, rfl⟩ | ⟨rfl, rfl⟩ | ⟨rfl, rfl⟩ | ⟨rfl, rfl⟩ | ⟨rfl, rfl⟩ <;>
    exact lex_scan rfl (Nat.le_refl _)

theorem lex_colons (cs : List Char) : lex (':' :: ':' :: cs) = (lex cs).map (.punct "::" :: ·) :=
  lex_scan rfl (Nat.le_succ _)

theorem lex_point {d : Char} (hd : isLetter d = true) (cs : List Char) :
    lex ('.' :: d :: cs) = (lex (d :: cs)).map (.punct "." :: ·) := by
  have hne : '.' ≠ d := by
    rintro rfl
    cases hd
  refine lex_scan ?_ (Nat.le_refl _)
  simp [scan, punct?, puncts, isQuote, isLetter, hne]

-- Operators in front of an operand.

-- What starts neither with a blank nor with a character that would make a longer operator.
def Starts : List Char → Prop
  | [] => False
  | '&' :: cs => Starts cs
  | c :: _ => isBlank c = false ∧ c ≠ '=' ∧ c ≠ '>'

theorem starts_of_ne {c : Char} (hc : isBlank c = false ∧ c ≠ '=' ∧ c ≠ '>') (hne : c ≠ '&') (cs : List Char) :
    Starts (c :: cs) := by
  unfold Starts
  split
  · cases ‹_ = []›
  · next heq => exact absurd (List.cons.inj heq).1 hne
  · next heq =>
      obtain ⟨rfl, -⟩ := List.cons.inj heq
      exact hc

theorem Starts.head {d : Char} (h : Starts (d :: cs)) : isBlank d = false ∧ d ≠ '=' ∧ d ≠ '>' := by
  unfold Starts at h
  split at h
  · cases ‹_ = []›
  · next heq =>
      obtain ⟨rfl, -⟩ := List.cons.inj heq
      decide
  · next heq =>
      obtain ⟨rfl, -⟩ := List.cons.inj heq
      exact h

theorem Starts.append (h : Starts cs) (rest : List Char) : Starts (cs ++ rest) := by
  fun_induction Starts cs with
  | case1 => exact h.elim
  | case2 cs ih => exact ih h
  | case3 c cs hne => exact starts_of_ne h (fun hc => hne hc) _

theorem lex_unary {c : Char} (hc : c = '!' ∨ c = '-' ∨ c = '*') (hcs : Starts cs) :
    lex (c :: cs) = (lex cs).map (.punct (String.singleton c) :: ·) := by
  match cs, hcs with
  | d :: cs, hcs =>
      obtain ⟨-, heq, harrow⟩ := hcs.head
      refine lex_scan ?_ (Nat.le_refl _)
      rcases hc with rfl | rfl | rfl <;>
        simp [scan, punct?, puncts, isQuote, isLetter, Ne.symm heq, Ne.symm harrow]

-- One more `&` in front of tokens; two of them next to each other are one token.
def borrowed : List Token → List Token
  | .punct "&&" :: ts => .punct "&&" :: borrowed ts
  | .punct "&" :: ts => .punct "&&" :: ts
  | ts => .punct "&" :: ts

theorem borrowed_append {ts : List Token} (h : ∃ token ∈ ts, token ≠ .punct "&&") (more : List Token) :
    borrowed (ts ++ more) = borrowed ts ++ more := by
  fun_induction borrowed ts with
  | case1 ts ih =>
      obtain ⟨token, htoken, hne⟩ := h
      obtain rfl | htoken := List.mem_cons.mp htoken
      · exact absurd rfl hne
      · rw [List.cons_append, borrowed, ih ⟨token, htoken, hne⟩, List.cons_append]
  | case2 ts => rfl
  | case3 ts htwo hone =>
      match ts, h with
      | token :: ts, _ =>
          rw [List.cons_append, borrowed]
          · rfl
          · intro _ heq
            exact htwo ts (by rw [(List.cons.inj heq).1])
          · intro _ heq
            exact hone ts (by rw [(List.cons.inj heq).1])

theorem lex_borrow_of_ne {c : Char} (hc : c ≠ '&') (hcs : Starts (c :: cs)) :
    lex ('&' :: c :: cs) = (lex (c :: cs)).map (.punct "&" :: ·) := by
  obtain ⟨-, heq, -⟩ := hcs.head
  refine lex_scan ?_ (Nat.le_refl _)
  simp [scan, punct?, puncts, isQuote, isLetter, Ne.symm heq, Ne.symm hc]

theorem lex_borrow_twice (cs : List Char) : lex ('&' :: '&' :: cs) = (lex cs).map (.punct "&&" :: ·) := by
  refine lex_scan ?_ (Nat.le_succ _)
  simp [scan, punct?, puncts, isQuote, isLetter]

theorem ofWord_ne_punct (cs : List Char) (text : String) : ofWord cs ≠ .punct text := by
  unfold ofWord
  dsimp only
  split
  · exact Token.noConfusion
  · split <;> exact Token.noConfusion

theorem eq_literal_of_quoted? {front : List Char} {quote : Char} (htoken : quoted? front quote cs = some (t, rest)) :
    ∃ text, t = .literal text := by
  obtain ⟨_, -, heq⟩ := Option.map_eq_some_iff.mp htoken
  exact ⟨_, (Prod.mk.inj heq).1.symm⟩

theorem lettered_ne_punct {c : Char} {text : String} : lettered c cs ≠ some (.punct text, rest) := by
  intro htoken
  unfold lettered at htoken
  split at htoken
  · split at htoken
    · cases (eq_literal_of_quoted? htoken).choose_spec
    · exact ofWord_ne_punct _ _ (Prod.mk.inj (Option.some.inj htoken)).1
  · split at htoken
    · cases htoken
    · exact ofWord_ne_punct _ _ (Prod.mk.inj (Option.some.inj htoken)).1
  · exact ofWord_ne_punct _ _ (Prod.mk.inj (Option.some.inj htoken)).1

theorem punct?_of_scan {text : String} (htoken : scan cs = some (.punct text, rest)) :
    punct? cs = some (.punct text, rest) := by
  cases cs with
  | nil => cases htoken
  | cons c cs =>
      rw [scan] at htoken
      split at htoken
      · cases htoken
      · split at htoken
        · cases (eq_literal_of_quoted? htoken).choose_spec
        · split at htoken
          · exact absurd htoken lettered_ne_punct
          · exact htoken

theorem head_of_scan_borrow {c : Char} {text : String} (htext : text = "&" ∨ text = "&&")
    (htoken : scan (c :: cs) = some (.punct text, rest)) : c = '&' := by
  have hpunct := punct?_of_scan htoken
  obtain ⟨p, hfind, heq⟩ := Option.map_eq_some_iff.mp hpunct
  have hp : p.2 = text := Token.punct.inj (Prod.mk.inj heq).1
  have hhead : p.1.head? = some '&' := by
    have hall : ∀ p ∈ puncts, p.2 = "&" ∨ p.2 = "&&" → p.1.head? = some '&' := by decide
    exact hall p (List.mem_of_find?_eq_some hfind) (hp ▸ htext)
  obtain ⟨more, hmore⟩ := List.head?_eq_some_iff.mp hhead
  have hfront := List.find?_some hfind
  rw [hmore] at hfront
  simp only [List.isPrefixOf_cons_cons, Bool.and_eq_true, beq_iff_eq] at hfront
  exact hfront.1.symm

theorem borrowed_lex {c : Char} (hc : c ≠ '&') (hblank : isBlank c = false) {ts : List Token}
    (hts : lex (c :: cs) = some ts) : borrowed ts = .punct "&" :: ts := by
  unfold borrowed
  rw [lex, if_neg (by simp [hblank])] at hts
  split at hts
  · next t rest htoken =>
      split at hts
      · obtain ⟨more, -, rfl⟩ := Option.map_eq_some_iff.mp hts
        split
        · next heq =>
            obtain ⟨rfl, -⟩ := List.cons.inj heq
            exact absurd (head_of_scan_borrow (.inr rfl) htoken) hc
        · next heq =>
            obtain ⟨rfl, -⟩ := List.cons.inj heq
            exact absurd (head_of_scan_borrow (.inl rfl) htoken) hc
        · rfl
      · cases hts
  · cases hts

theorem lex_borrow_once {c : Char} (hc : c ≠ '&') (h : Starts (c :: cs)) :
    lex ('&' :: c :: cs) = (lex (c :: cs)).map borrowed := by
  rw [lex_borrow_of_ne hc h]
  exact Option.map_congr fun ts hts => (borrowed_lex hc h.head.1 hts).symm

-- Along the run of `&` in front, two at a time.
theorem lex_borrow {cs : List Char} (h : Starts cs) : lex ('&' :: cs) = (lex cs).map borrowed := by
  match cs, h with
  | [c], h =>
      refine lex_borrow_once (fun hc => ?_) h
      subst hc
      exact h
  | c :: d :: cs, h =>
      by_cases hc : c = '&'
      · subst hc
        have h : Starts (d :: cs) := h
        by_cases hd : d = '&'
        · subst hd
          rw [lex_borrow_twice, lex_borrow_twice, @lex_borrow cs h, Option.map_map, Option.map_map]
          rfl
        · rw [lex_borrow_twice, lex_borrow_of_ne hd h, Option.map_map]
          rfl
      · exact lex_borrow_once hc h
termination_by cs.length

end Token

end RustContracts.Rust
