import RustContracts.Solidity.StringLiteral

-- The tokens of settings files, a dialect of TOML. What a line may hold depends on where it is read: keys
-- stand at its start, values behind an equals sign.
namespace RustContracts.Toml

inductive Token where
  -- a key as written, with the escapes in it replaced
  | key (text : String)
  -- what stands in `[...]` and `[[...]]`
  | table (text : String)
  | tableArray (text : String)
  | equal
  | comma
  | leftBracket
  | rightBracket
  | leftBrace
  | rightBrace
  | string (value : String)
  | bool (value : Bool)
  -- numbers as written
  | integer (text : List Char)
  | float (text : List Char)
  -- infinity or not a number
  | special
  -- a date, a time or both
  | time
deriving Inhabited

def isSpace (c : Char) : Bool := c == ' ' || c == '\t'

-- The characters of keys without quotes.
def isBareChar (c : Char) : Bool := c.isAlphanum || c == '_' || c == '-'

-- What follows a text at the front.
def after? (lead : List Char) (cs : List Char) : Option (List Char) :=
  if lead.isPrefixOf cs then some (cs.drop lead.length) else none

-- Strings.

-- The character with a code; codes of no character stand for the replacement character.
def charOf (code : Nat) : Char := (Solidity.charOfCode? code).getD (Char.ofNat 0xfffd)

-- What a backslash and the characters behind it denote.
def escape : List Char → Option (List Char × List Char)
  | '"' :: rest => some (['"'], rest)
  | '\\' :: rest => some (['\\'], rest)
  | '/' :: rest => some (['/'], rest)
  | 'n' :: rest => some (['\n'], rest)
  | 't' :: rest => some (['\t'], rest)
  | 'r' :: rest => some (['\r'], rest)
  | 'b' :: rest => some ([Char.ofNat 0x08], rest)
  | 'f' :: rest => some ([Char.ofNat 0x0c], rest)
  | 'u' :: rest =>
    (Solidity.takeDigits Solidity.hexValue? 16 4 0 rest).map fun (n, r) => ([charOf n], r)
  | 'U' :: rest =>
    (Solidity.takeDigits Solidity.hexValue? 16 8 0 rest).map fun (n, r) => ([charOf n], r)
  | c :: rest =>
    let isGap (c : Char) : Bool := isSpace c || c == '\r' || c == '\n'
    if isGap c then some ([], rest.dropWhile isGap) else none
  | [] => none

-- The text up to a closing quote, with escapes replaced, and what follows the quote.
def basicString (close : List Char) (multiline : Bool) (cs : List Char) :
    Option (List Char × List Char) :=
  match after? close cs with
  | some rest => some ([], rest)
  | none =>
    match cs with
    | [] => none
    | '\\' :: rest =>
      match escape rest with
      | none => none
      | some (value, more) =>
        if _h : more.length ≤ rest.length then
          (basicString close multiline more).map fun (text, r) => (value ++ text, r)
        else none
    | c :: rest =>
      if c.toNat < 0x20 && c != '\t' && !(multiline && (c == '\n' || c == '\r')) then none
      else (basicString close multiline rest).map fun (text, r) => (c :: text, r)
termination_by cs.length

-- The text up to a closing quote as it is.
def literalString (close : List Char) : List Char → Option (List Char × List Char)
  | [] => none
  | c :: rest =>
    match after? close (c :: rest) with
    | some more => some ([], more)
    | none => (literalString close rest).map fun (text, r) => (c :: text, r)

-- A line end right behind three opening quotes does not count.
def skipLineEnd : List Char → List Char
  | '\r' :: '\n' :: rest => rest
  | '\n' :: rest => rest
  | cs => cs

-- A string behind its first quote.
def stringToken (quote : Char) (cs : List Char) : Option (Token × List Char) :=
  let read (close : List Char) (multiline : Bool) (cs : List Char) :=
    if quote = '"' then basicString close multiline cs else literalString close cs
  let found :=
    match after? [quote, quote] cs with
    | some rest => read [quote, quote, quote] true (skipLineEnd rest)
    | none => read [quote] false cs
  found.map fun (text, rest) => (.string (String.ofList text), rest)

-- Keys.

-- A key from its first character on. Blanks end it, except around a dot, where they are kept; the
-- first of those before the dot counts as a space.
def keyText (cs : List Char) : Option (List Char × List Char) :=
  match cs with
  | [] => some ([], [])
  | '=' :: rest => some ([], '=' :: rest)
  | '"' :: rest =>
    match basicString ['"'] true rest with
    | none => none
    | some (text, more) =>
      if _h : more.length ≤ rest.length then
        (keyText more).map fun (k, r) => ('"' :: text ++ '"' :: k, r)
      else none
  | '\'' :: rest =>
    match literalString ['\''] rest with
    | none => none
    | some (text, more) =>
      if _h : more.length ≤ rest.length then
        (keyText more).map fun (k, r) => ('\'' :: text ++ '\'' :: k, r)
      else none
  | c :: rest =>
    if isSpace c then
      match _h : rest.dropWhile isSpace with
      | '.' :: more =>
        (keyText (more.dropWhile isSpace)).map fun (k, r) =>
          (' ' :: rest.takeWhile isSpace ++ '.' :: more.takeWhile isSpace ++ k, r)
      | more => some ([], more)
    else if c == '.' || isBareChar c then (keyText rest).map fun (k, r) => (c :: k, r)
    else none
termination_by cs.length
decreasing_by
  · simp only [List.length_cons]; omega
  · simp only [List.length_cons]; omega
  · have hsuffix := (List.dropWhile_suffix (l := rest) isSpace).length_le
    have hmore := (List.dropWhile_suffix (l := more) isSpace).length_le
    rw [_h] at hsuffix
    simp only [List.length_cons] at hsuffix ⊢
    omega
  · simp only [List.length_cons]; omega

-- Numbers.

-- Digits of a number and the signs, points and exponents between them.
structure NumberScan where
  text : List Char
  hasPoint : Bool := false
  hasExponent : Bool := false
  hasDigit : Bool := false
  rest : List Char

-- The longest number at the front; none when a point stands where it cannot.
def numberFrom (point exponent digit : Bool) : List Char → Option NumberScan
  | '.' :: d :: rest =>
    if point || !digit || !d.isDigit then none
    else
      (numberFrom true exponent true rest).map fun n => { n with text := '.' :: d :: n.text }
  | ['.'] => none
  | c :: rest =>
    if c == 'e' || c == 'E' then
      match rest with
      | '+' :: more =>
        (numberFrom point true digit more).map fun n => { n with text := c :: '+' :: n.text }
      | '-' :: more =>
        (numberFrom point true digit more).map fun n => { n with text := c :: '-' :: n.text }
      | more => (numberFrom point true digit more).map fun n => { n with text := c :: n.text }
    else if c.isDigit then
      (numberFrom point exponent true rest).map fun n => { n with text := c :: n.text }
    else if c == '_' then
      (numberFrom point exponent digit rest).map fun n => { n with text := c :: n.text }
    else some ⟨[], point, exponent, digit, c :: rest⟩
  | [] => some ⟨[], point, exponent, digit, []⟩

-- Digits behind `0x`, `0o` or `0b`.
def basedNumber (lead : List Char) (isDigit : Char → Bool) (rest : List Char) :
    Option (Token × List Char) :=
  let ok (c : Char) : Bool := isDigit c || c == '_'
  let digits := rest.takeWhile ok
  if digits.isEmpty then none else some (.integer (lead ++ digits), rest.dropWhile ok)

def decimalNumber (sign cs : List Char) : Option (Token × List Char) :=
  match numberFrom false false false cs with
  | some n =>
    if !n.hasDigit then none
    else
      let text := sign ++ n.text
      some (if n.hasPoint || n.hasExponent then .float text else .integer text, n.rest)
  | none => none

def specialNumber? (cs : List Char) : Option (List Char) :=
  (after? "inf".toList cs).or (after? "nan".toList cs)

def numberToken (cs : List Char) : Option (Token × List Char) :=
  let signed (sign : Char) (rest : List Char) : Option (Token × List Char) :=
    match specialNumber? rest with
    | some more => some (.special, more)
    | none => decimalNumber [sign] rest
  match cs with
  | '0' :: 'x' :: rest => basedNumber ['0', 'x'] Solidity.isHexChar rest
  | '0' :: 'o' :: rest => basedNumber ['0', 'o'] (fun c => '0' ≤ c && c ≤ '7') rest
  | '0' :: 'b' :: rest => basedNumber ['0', 'b'] (fun c => c == '0' || c == '1') rest
  | '0' :: c :: rest => if c.isAlpha then none else decimalNumber [] ('0' :: c :: rest)
  | '+' :: rest => signed '+' rest
  | '-' :: rest => signed '-' rest
  | cs => decimalNumber [] cs

-- Dates and times.

-- What follows a pattern in which `d` stands for any digit.
def pattern? : List Char → List Char → Option (List Char)
  | [], cs => some cs
  | p :: ps, c :: cs =>
    if (p == 'd' && c.isDigit) || (p != 'd' && c == p) then pattern? ps cs else none
  | _ :: _, [] => none

-- The number that digits denote in base ten.
def decimal (digits : List Char) : Nat := digits.foldl (fun n c => 10 * n + (c.toNat - 48)) 0

-- The number of `width` digits that stand behind `skip` characters.
def fieldAt (skip width : Nat) (cs : List Char) : Nat := decimal ((cs.drop skip).take width)

-- Every fourth year is a leap year, except for three centuries out of four.
def isLeapYear (year : Nat) : Bool := year % 4 == 0 && (year % 100 != 0 || year % 400 == 0)

-- How many days a month has; none outside the calendar.
def daysIn (year month : Nat) : Nat :=
  match month with
  | 1 | 3 | 5 | 7 | 8 | 10 | 12 => 31
  | 4 | 6 | 9 | 11 => 30
  | 2 => if isLeapYear year then 29 else 28
  | _ => 0

-- What follows a day of the calendar.
def date? (cs : List Char) : Option (List Char) := do
  let rest ← pattern? "dddd-dd-dd".toList cs
  let day := fieldAt 8 2 cs
  if 1 ≤ day && day ≤ daysIn (fieldAt 0 4 cs) (fieldAt 5 2 cs) then some rest else none

-- A fraction of a second, if there is one; none when it has no digits.
def fraction? : List Char → Option (List Char)
  | '.' :: c :: rest => if c.isDigit then some (rest.dropWhile Char.isDigit) else none
  | ['.'] => none
  | cs => some cs

-- What follows a time of the day.
def clock? (cs : List Char) : Option (List Char) := do
  let rest ← pattern? "dd:dd:dd".toList cs
  if fieldAt 0 2 cs < 24 && fieldAt 3 2 cs < 60 && fieldAt 6 2 cs < 60 then fraction? rest
  else none

-- The distance from universal time, if it is given; a whole day and a whole hour are not too much.
def offset? : List Char → Option (List Char)
  | 'Z' :: rest => some rest
  | c :: rest =>
    if c == '+' || c == '-' then do
      let more ← pattern? "dd:dd".toList rest
      if fieldAt 0 2 rest ≤ 24 && fieldAt 3 2 rest ≤ 60 then some more else none
    else some (c :: rest)
  | [] => some []

-- What follows a time, or a date behind which a time may stand. Only a space or the end of the text
-- may follow a date alone.
def timeEnd? (cs : List Char) : Option (List Char) :=
  if (pattern? "dd:".toList cs).isSome then clock? cs
  else
    match date? cs with
    | none => none
    | some [] => some []
    | some ('T' :: rest) => (clock? rest).bind offset?
    | some (' ' :: rest) =>
      if (pattern? "dd".toList rest).isSome then (clock? rest).bind offset? else some (' ' :: rest)
    | some _ => none

def looksLikeTime (cs : List Char) : Bool :=
  (pattern? "dd:".toList cs).isSome || (pattern? "dddd-".toList cs).isSome

-- A value that is no string and no bracket.
def scalarToken (cs : List Char) : Option (Token × List Char) :=
  match after? "true".toList cs, after? "false".toList cs, specialNumber? cs with
  | some rest, _, _ => some (.bool true, rest)
  | _, some rest, _ => some (.bool false, rest)
  | _, _, some rest => some (.special, rest)
  | none, none, none =>
    match cs with
    | c :: _ =>
      if c == '+' || c == '-' then numberToken cs
      else if !c.isDigit then none
      else if looksLikeTime cs then (timeEnd? cs).map fun rest => (.time, rest)
      else numberToken cs
    | [] => none

-- Lexing.

-- Where a text is read: at the start of a line, or behind an equals sign. `opened` holds the brackets
-- that are open.
structure Mode where
  inValue : Bool
  opened : List Char

-- One step: the tokens that it reads, where it leads and what is left. None when nothing fits.
def step (m : Mode) : List Char → Option (List Token × Mode × List Char)
  | [] => none
  | '#' :: rest =>
    let comment := rest.takeWhile (· != '\n')
    let keep := if comment.getLast? = some '\r' then 1 else 0
    some ([], m, rest.drop (comment.length - keep))
  | '\r' :: rest => some ([], ⟨m.inValue && m.opened.head? = some '[', m.opened⟩, rest)
  | '\n' :: rest => some ([], ⟨m.inValue && m.opened.head? = some '[', m.opened⟩, rest)
  | '=' :: rest => some ([.equal], ⟨true, m.opened⟩, rest)
  | '}' :: rest =>
    match m.opened with
    | '{' :: outer => some ([.rightBrace], ⟨true, outer⟩, rest)
    | _ => none
  | c :: rest =>
    if isSpace c then some ([], m, rest)
    else if m.inValue then
      match c with
      | '[' => some ([.leftBracket], ⟨true, '[' :: m.opened⟩, rest)
      | '{' => some ([.leftBrace], ⟨false, '{' :: m.opened⟩, rest)
      | ']' =>
        match m.opened with
        | '[' :: outer => some ([.rightBracket], ⟨true, outer⟩, rest)
        | _ => none
      | ',' => some ([.comma], ⟨m.opened.head? != some '{', m.opened⟩, rest)
      | '"' => (stringToken '"' rest).map fun (t, r) => ([t], m, r)
      | '\'' => (stringToken '\'' rest).map fun (t, r) => ([t], m, r)
      | _ => (scalarToken (c :: rest)).map fun (t, r) => ([t], m, r)
    else if c == '[' then
      match rest with
      | '[' :: more =>
        let name := more.takeWhile fun c => c != ']' && c != '['
        match more.drop name.length with
        | ']' :: ']' :: r => some ([.tableArray (String.ofList name)], m, r)
        | _ => none
      | _ =>
        let name := rest.takeWhile fun c => c != ']' && c != '['
        match rest.drop name.length with
        | ']' :: r => some ([.table (String.ofList name)], m, r)
        | _ => none
    else (keyText (c :: rest)).map fun (k, r) => ([.key (String.ofList k)], m, r)

-- The tokens of a text; none when some part of it fits nowhere. Every step takes characters off.
def tokensFrom (m : Mode) (cs : List Char) : Option (List Token) :=
  match cs with
  | [] => some []
  | c :: rest =>
    match step m (c :: rest) with
    | none => none
    | some (tokens, m, more) =>
      if _h : more.length < (c :: rest).length then (tokensFrom m more).map (tokens ++ ·) else none
termination_by cs.length
decreasing_by exact _h

-- A mark of the byte order at the front does not count.
def tokens (text : String) : Option (List Token) :=
  let cs := text.toList
  tokensFrom ⟨false, []⟩ (if cs.head? = some (Char.ofNat 0xfeff) then cs.drop 1 else cs)

end RustContracts.Toml
